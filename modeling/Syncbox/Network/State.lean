/-
# `Syncbox.Network.State` — the state of a share

`ActiveShare` of `src/network/state.rs`, with the state files it keeps through
`src/storage`.  A share has two kinds of state.  The tree it shares and its staging
directory are nodes of the disk.  The manifest, the clock and the configuration are
state files, written through a temporary file and a rename: they are modelled as cells
that hold either the old value or the new one.  A write that fails may have failed after
the rename, so it leaves either.  `Storage.Cells` shows that the calls behind them, on a
disk, give no more than this.

The cache of the manifest is dropped when a save fails, and the next reader loads the
file.  `ShareState.Consistent` is what makes the cache invisible: it never differs from
the file, and the file is a valid manifest of the share.
-/
import Syncbox.Manifest.Discover
import Syncbox.Manifest.Digest

namespace Syncbox

open Rust Unix Prog

/-- What of a share does not change while it runs. -/
structure ActiveShare where
  shareId : ShareId
  /-- `config.local_directory`, as registration stored it. -/
  localDirectory : PathBuf
  /-- `DataPaths::share_dir`. -/
  shareDir : PathBuf
  localEndpointId : EndpointId

namespace ActiveShare

/-- `DataPaths::share_path`. -/
def sharePath (share : ActiveShare) (name : String) : PathBuf := share.shareDir ++ [name.toList]

def shareTmpDir (share : ActiveShare) : PathBuf := share.sharePath "tmp"

end ActiveShare

section Cache

variable [Crypto]

structure ManifestSnapshot where
  digest : Digest
  manifest : Manifest

def ManifestSnapshot.fromValidated (manifest : Manifest) : ManifestSnapshot where
  digest := manifest.syncDigestAfterValidation
  manifest := manifest

structure ShareState where
  world : World
  manifestFile : Manifest
  manifestCache : Option ManifestSnapshot
  /-- How often the manifest may have changed, modulo 2⁶⁴. -/
  manifestGeneration : U64
  clockFile : ClockState
  initialSyncComplete : Bool

/-- A program on a share. -/
abbrev App := Prog Host Error ShareState

/-- The number of calls made, one higher. -/
def ShareState.called (s : ShareState) : ShareState :=
  { s with world := { s.world with calls := s.world.calls + 1 } }

/-- A program on the file system, run on a share. -/
def onDisk {α : Type} (m : Fs α) : App α :=
  Prog.zoom ShareState.world (fun s w => { s with world := w }) m

end Cache

/-! ## State files -/

section Store

variable [Crypto]

/-- `read_json`. -/
def readJson {α : Type} (path : PathBuf) (cell : ShareState → α) : App α := fun h s =>
  if h.fault s.world.calls then .error (.io ("unable to inspect " ++ display path) .other) s.called
  else .ok (cell s) s.called

/-- `atomic_write_json`: a failing write has replaced the file or has not. -/
def atomicWriteJson (path : PathBuf) (put : ShareState → ShareState) : App Unit := fun h s =>
  if h.fault s.world.calls then
    .error (.io ("unable to atomically replace persistent state " ++ display path) .other)
      (if h.written s.world.calls = 0 then s.called else (put s).called)
  else .ok () (put s).called

variable (share : ActiveShare)

def loadManifest : App Manifest := do
  let manifest ← readJson (share.sharePath "manifest.json") ShareState.manifestFile
  Prog.ofExcept (manifest.validate share.shareId)
  pure manifest

/-- `DataPaths::save_manifest`. -/
def storeManifest (manifest : Manifest) : App Unit := do
  Prog.ofExcept (manifest.validate manifest.shareId)
  atomicWriteJson (share.sharePath "manifest.json") fun s => { s with manifestFile := manifest }

def manifestSnapshot : App ManifestSnapshot := do
  match (← get).manifestCache with
  | some snapshot => pure snapshot
  | none =>
      let manifest ← loadManifest share
      let snapshot := ManifestSnapshot.fromValidated manifest
      modify fun s => { s with manifestCache := some snapshot }
      pure snapshot

/-- `ActiveShare::save_manifest`. -/
def saveManifest (manifest : Manifest) : App Unit :=
  if manifest.shareId ≠ share.shareId then throw (.bail "manifest belongs to another share")
  else do
    match ← Prog.attempt (storeManifest share manifest) with
    | .ok () => modify fun s => { s with
        manifestCache := some (.fromValidated manifest)
        manifestGeneration := s.manifestGeneration + 1 }
    | .error (e : Error) =>
        modify fun s => { s with
          manifestCache := none
          manifestGeneration := s.manifestGeneration + 1 }
        throw e

def loadClock : App ClockState := do
  let clock ← readJson (share.sharePath "clock.json") ShareState.clockFile
  Prog.ofExcept clock.validate
  pure clock

def saveClock (clock : ClockState) : App Unit := do
  Prog.ofExcept clock.validate
  atomicWriteJson (share.sharePath "clock.json") fun s => { s with clockFile := clock }

def localRoot : App PathBuf := onDisk (directoryRoot share.localDirectory)

/-- `update_runtime`.  The status is written for other processes to read. -/
def updateRuntime : App Unit := atomicWriteJson (share.sharePath "runtime-status.json") id

/-- What `scan_and_save` does with the result of the scan. -/
def saveScanned (scanned : ScanResult) : App Unit := do
  Prog.when (scanned.changes > 0) (saveClock share scanned.clock)
  Prog.when scanned.manifestChanged (saveManifest share scanned.manifest)
  updateRuntime share

def scanAndSave : App Unit := do
  let root ← onDisk (directoryRoot share.localDirectory)
  let snapshot ← manifestSnapshot share
  let clock ← loadClock share
  let nowMs ← onDisk currentTimeMs
  let scanned ← onDisk
    (scanManifestCachedAfterValidation root snapshot.manifest clock share.localEndpointId nowMs)
  saveScanned share scanned

end Store

/-! ## What the operations leave -/

/-- The cache is invisible and the file is a manifest of the share. -/
structure ShareState.Consistent [Crypto] (share : ActiveShare) (s : ShareState) : Prop where
  valid : s.manifestFile.Valid share.shareId
  cache : ∀ snapshot, s.manifestCache = some snapshot → snapshot = .fromValidated s.manifestFile

/-- `s'` is `s` with the manifest `m` and the clock `c` in its files, as a reader sees it. -/
structure Stored [Crypto] (share : ActiveShare) (s : ShareState) (m : Manifest) (c : ClockState)
    (s' : ShareState) : Prop where
  same : Same s.world s'.world
  manifest : s'.manifestFile = m
  clock : s'.clockFile = c
  initial : s'.initialSyncComplete = s.initialSyncComplete
  consistent : s'.Consistent share

@[simp] theorem wp_onDisk [Crypto] {α : Type} (m : Fs α) (h : Host) (s : ShareState)
    (Q : α → ShareState → Prop) (E : Error → ShareState → Prop) :
    (onDisk m).wp h s Q E ↔ m.wp h s.world (fun a w => Q a { s with world := w })
      (fun e w => E e { s with world := w }) :=
  wp_zoom ..

@[simp] theorem wp_get [Crypto] (h : Host) (s : ShareState) (Q : ShareState → ShareState → Prop)
    (E : Error → ShareState → Prop) : (get : App ShareState).wp h s Q E ↔ Q s s := Iff.rfl

section Spec

variable [Crypto] {share : ActiveShare} {h : Host} {s : ShareState}

theorem Stored.refl (hc : s.Consistent share) : Stored share s s.manifestFile s.clockFile s :=
  ⟨Same.refl _, rfl, rfl, rfl, hc⟩

theorem Stored.trans {m m' : Manifest} {c c' : ClockState} {s' s'' : ShareState}
    (h₁ : Stored share s m c s') (h₂ : Stored share s' m' c' s'') : Stored share s m' c' s'' :=
  ⟨h₁.same.trans h₂.same, h₂.manifest, h₂.clock, h₂.initial.trans h₁.initial, h₂.consistent⟩

theorem Stored.called (hc : s.Consistent share) :
    Stored share s s.manifestFile s.clockFile s.called :=
  ⟨⟨rfl, rfl⟩, rfl, rfl, rfl, ⟨hc.valid, hc.cache⟩⟩

theorem readJson_spec {α : Type} {path : PathBuf} {cell : ShareState → α}
    (hc : s.Consistent share) :
    (readJson path cell).wp h s
      (fun a s' => a = cell s ∧ Stored share s s.manifestFile s.clockFile s')
      (fun _ s' => Stored share s s.manifestFile s.clockFile s' ∧ ¬ ∀ n, h.fault n = false) := by
  unfold Prog.wp readJson
  cases hf : h.fault s.world.calls with
  | true => exact ⟨Stored.called hc, fun hno => by rw [hno] at hf; cases hf⟩
  | false => exact ⟨rfl, Stored.called hc⟩

theorem manifestSnapshot_spec (hc : s.Consistent share) :
    (manifestSnapshot share).wp h s
      (fun snapshot s' => snapshot = .fromValidated s.manifestFile
        ∧ Stored share s s.manifestFile s.clockFile s')
      (fun _ s' => Stored share s s.manifestFile s.clockFile s' ∧ ¬ ∀ n, h.fault n = false) := by
  unfold manifestSnapshot
  rw [wp_bind, wp_get]
  cases hm : s.manifestCache with
  | some m => exact ⟨hc.cache m hm, Stored.refl hc⟩
  | none =>
      dsimp only
      unfold loadManifest
      rw [wp_bind, wp_bind]
      refine wp_conseq (readJson_spec hc) ?_
      rintro m s₁ ⟨rfl, hs₁⟩
      rw [wp_bind, Manifest.validate_eq_ok.mpr hc.valid, wp_ofExcept_ok]
      refine ⟨rfl, hs₁.same, hs₁.manifest, hs₁.clock, hs₁.initial, hs₁.consistent.valid, ?_⟩
      rintro snapshot hm
      cases hm
      rw [hs₁.manifest]

theorem loadClock_spec (hc : s.Consistent share) :
    (loadClock share).wp h s
      (fun c s' => c = s.clockFile ∧ c.validate = .ok ()
        ∧ Stored share s s.manifestFile s.clockFile s')
      (fun _ s' => Stored share s s.manifestFile s.clockFile s'
        ∧ ¬ ((∀ n, h.fault n = false) ∧ s.clockFile.validate = .ok ())) := by
  unfold loadClock
  refine wp_seq (readJson_spec hc) ?_ ?_
  · rintro c s₁ ⟨rfl, hs₁⟩
    rw [wp_bind]
    cases hv : s.clockFile.validate with
    | ok u => exact ⟨rfl, hv, hs₁⟩
    | error e => exact ⟨hs₁, fun hno => by cases hno.2⟩
  · rintro e s₁ ⟨hs₁, hno⟩
    exact ⟨hs₁, fun hok => hno hok.1⟩

theorem saveClock_spec {c : ClockState} (hc : s.Consistent share) :
    (saveClock share c).wp h s
      (fun _ s' => Stored share s s.manifestFile c s' ∧ c.validate = .ok ())
      (fun _ s' => (Stored share s s.manifestFile s.clockFile s'
          ∨ c.validate = .ok () ∧ Stored share s s.manifestFile c s')
        ∧ ¬ ((∀ n, h.fault n = false) ∧ c.validate = .ok ())) := by
  unfold saveClock
  rw [wp_bind]
  cases hv : c.validate with
  | error e => exact ⟨.inl (Stored.refl hc), fun hno => by cases hno.2⟩
  | ok u =>
      have hput : Stored share s s.manifestFile c ({ s with clockFile := c } : ShareState).called :=
        ⟨⟨rfl, rfl⟩, rfl, rfl, rfl, ⟨hc.valid, hc.cache⟩⟩
      rw [wp_ofExcept_ok]
      unfold Prog.wp atomicWriteJson
      cases hf : h.fault s.world.calls with
      | false => exact ⟨hput, rfl⟩
      | true =>
          refine ⟨?_, fun hno => by rw [hno.1] at hf; cases hf⟩
          by_cases hw : h.written s.world.calls = 0
          · rw [if_pos hw]
            exact .inl (Stored.called hc)
          · rw [if_neg hw]
            exact .inr ⟨rfl, hput⟩

theorem saveManifest_spec {m : Manifest} (hc : s.Consistent share) :
    (saveManifest share m).wp h s
      (fun _ s' => Stored share s m s.clockFile s' ∧ m.Valid share.shareId)
      (fun _ s' => (Stored share s s.manifestFile s.clockFile s'
          ∨ m.Valid share.shareId ∧ Stored share s m s.clockFile s')
        ∧ ¬ ((∀ n, h.fault n = false) ∧ m.Valid share.shareId)) := by
  unfold saveManifest
  refine wp_ite (fun hid => ⟨.inl (Stored.refl hc), fun hno => hid hno.2.share⟩) fun hid => ?_
  have hid : m.shareId = share.shareId := by simpa using hid
  rw [wp_bind, wp_attempt]
  unfold storeManifest
  rw [wp_bind]
  have hdrop : ∀ {s' : ShareState}, Stored share s s.manifestFile s.clockFile s' →
      Stored share s s.manifestFile s.clockFile { s' with
        manifestCache := none
        manifestGeneration := s'.manifestGeneration + 1 } := fun hs =>
    ⟨hs.same, hs.manifest, hs.clock, hs.initial, hs.consistent.valid, fun _ hm => by cases hm⟩
  cases hv : m.validate m.shareId with
  | error e =>
      refine ⟨.inl (hdrop (Stored.refl hc)), fun hno => ?_⟩
      rw [hid, Manifest.validate_eq_ok.mpr hno.2] at hv
      cases hv
  | ok u =>
      have hvalid : m.Valid share.shareId := by
        rw [← hid]
        exact Manifest.validate_eq_ok.mp hv
      have hput : ∀ cache, (∀ snapshot, cache = some snapshot → snapshot = .fromValidated m) →
          Stored share s m s.clockFile { ({ s with manifestFile := m } : ShareState).called with
            manifestCache := cache
            manifestGeneration := s.manifestGeneration + 1 } :=
        fun cache hcache => ⟨⟨rfl, rfl⟩, rfl, rfl, rfl, ⟨hvalid, hcache⟩⟩
      rw [wp_ofExcept_ok]
      unfold Prog.wp atomicWriteJson
      cases hf : h.fault s.world.calls with
      | false => exact ⟨hput _ fun m' hm' => (Option.some.inj hm').symm, hvalid⟩
      | true =>
          refine ⟨?_, fun hno => by rw [hno.1] at hf; cases hf⟩
          by_cases hw : h.written s.world.calls = 0
          · rw [if_pos hw]
            exact .inl (hdrop (Stored.called hc))
          · rw [if_neg hw]
            exact .inr ⟨hvalid, hput none fun _ hm => by cases hm⟩

end Spec

/-! ## A scan -/

section Scan

variable [Crypto] {share : ActiveShare} {h : Host} {s s' : ShareState}

/-- The scan of the tree of `s` gives `m` with `n` changes and leaves the clock at `c`. -/
def Rescan.Gives (share : ActiveShare) (s : ShareState) (m : Manifest) (n : Nat) (c : ClockState) :
    Prop :=
  Rescanned s.manifestFile s.clockFile share.localEndpointId (unknownPermissionsMatch s.manifestFile)
    (sight s.manifestFile s.world.disk share.localDirectory) m n c

/-- A scan whose result is in the files. -/
structure ScanSaved (share : ActiveShare) (s : ShareState) (n : Nat) (s' : ShareState) : Prop where
  gives : ∃ m c, Rescan.Gives share s m n c ∧ (∀ p, s'.manifestFile.record p = m.record p)
    ∧ s'.clockFile = if n = 0 then s.clockFile else c
  format : s'.manifestFile.formatVersion = MANIFEST_FORMAT_VERSION

/-- A scan that got as far as the clock. -/
structure ScanStarted (share : ActiveShare) (s s' : ShareState) : Prop where
  manifest : s'.manifestFile = s.manifestFile
  clock : s'.clockFile = s.clockFile ∨ ∃ m n c, Rescan.Gives share s m n c ∧ s'.clockFile = c

/-- What every scan keeps. -/
structure ScanFrame (share : ActiveShare) (s s' : ShareState) : Prop where
  disk : s'.world.disk = s.world.disk
  initial : s'.initialSyncComplete = s.initialSyncComplete
  consistent : s'.Consistent share

theorem ScanFrame.of_stored {m : Manifest} {c : ClockState} {s₁ : ShareState}
    (hf : ScanFrame share s s₁) (hs : Stored share s₁ m c s') : ScanFrame share s s' :=
  ⟨hs.same.disk.trans hf.disk, hs.initial.trans hf.initial, hs.consistent⟩

theorem updateRuntime_spec (hc : s.Consistent share) :
    (updateRuntime share).wp h s (fun _ s' => Stored share s s.manifestFile s.clockFile s')
      (fun _ s' => Stored share s s.manifestFile s.clockFile s' ∧ ¬ ∀ n, h.fault n = false) := by
  unfold Prog.wp updateRuntime atomicWriteJson
  cases hf : h.fault s.world.calls with
  | false => exact Stored.called hc
  | true =>
      refine ⟨?_, fun hno => by rw [hno] at hf; cases hf⟩
      split <;> exact Stored.called hc

/-- The tree can be scanned and shows nothing new. -/
structure Silent (share : ActiveShare) (h : Host) (s : ShareState) : Prop where
  scannable : Scannable h s.world.disk share.localDirectory
  clock : s.clockFile.validate = .ok ()
  unchanged : ∀ p, ¬ Changed s.manifestFile (unknownPermissionsMatch s.manifestFile) p
    (sight s.manifestFile s.world.disk share.localDirectory p)

theorem ScanStarted.of_clock {m : Manifest} {n : Nat} {c : ClockState}
    (hgives : Rescan.Gives share s m n c) (hm : s'.manifestFile = s.manifestFile)
    (hc : s'.clockFile = if n = 0 then s.clockFile else c) : ScanStarted share s s' := by
  refine ⟨hm, ?_⟩
  rw [hc]
  split
  · exact .inl rfl
  · exact .inr ⟨_, _, _, hgives, rfl⟩

theorem ScanSaved.of_stored {n : Nat} {s₁ : ShareState} (hs : ScanSaved share s n s₁)
    (hst : Stored share s₁ s₁.manifestFile s₁.clockFile s') : ScanSaved share s n s' :=
  ⟨by rw [hst.manifest, hst.clock]; exact hs.gives, by rw [hst.manifest]; exact hs.format⟩

theorem saveScanned_spec {r : ScanResult} {s₁ : ShareState} (hf : ScanFrame share s s₁)
    (hm : s₁.manifestFile = s.manifestFile) (hclock : s₁.clockFile = s.clockFile)
    (hgives : Rescan.Gives share s r.manifest r.changes r.clock)
    (hvalid : r.manifest.Valid share.shareId)
    (hsame : r.manifestChanged = false → s.manifestFile.formatVersion = MANIFEST_FORMAT_VERSION
      ∧ ∀ p, r.manifest.record p = s.manifestFile.record p) :
    (saveScanned share r).wp h s₁
      (fun _ s' => ScanFrame share s s' ∧ ∃ n, ScanSaved share s n s')
      (fun _ s' => ScanFrame share s s'
        ∧ (ScanStarted share s s' ∨ ∃ n, ScanSaved share s n s') ∧ ¬ Silent share h s) := by
  unfold saveScanned
  rw [wp_bind]
  -- the clock
  suffices hrest : ∀ {s₂ : ShareState}, ScanFrame share s s₂ → s₂.manifestFile = s.manifestFile →
      (s₂.clockFile = if r.changes = 0 then s.clockFile else r.clock) →
      (Prog.when r.manifestChanged (saveManifest share r.manifest) >>= fun _ =>
        updateRuntime share).wp h s₂
        (fun _ s' => ScanFrame share s s' ∧ ∃ n, ScanSaved share s n s')
        (fun _ s' => ScanFrame share s s'
          ∧ (ScanStarted share s s' ∨ ∃ n, ScanSaved share s n s') ∧ ¬ Silent share h s) by
    refine wp_when (fun hn => ?_) fun hn => hrest hf hm (by rw [if_pos (by omega), hclock])
    have hne : r.changes ≠ 0 := by omega
    refine wp_mono (saveClock_spec hf.consistent) ?_ ?_
    · rintro u s₂ ⟨hs₂, -⟩
      exact hrest (hf.of_stored hs₂) (hs₂.manifest.trans hm) (by rw [hs₂.clock, if_neg hne])
    · rintro e s₂ ⟨hs₂ | ⟨-, hs₂⟩, -⟩
      · exact ⟨hf.of_stored hs₂, .inl ⟨hs₂.manifest.trans hm, .inl (hs₂.clock.trans hclock)⟩,
          fun hs => hne (hgives.changes.mpr hs.unchanged)⟩
      · exact ⟨hf.of_stored hs₂, .inl ⟨hs₂.manifest.trans hm, .inr ⟨_, _, _, hgives, hs₂.clock⟩⟩,
          fun hs => hne (hgives.changes.mpr hs.unchanged)⟩
  intro s₂ hf₂ hm₂ hc₂
  rw [wp_bind]
  -- the manifest, and the status last
  suffices hend : ∀ {s₃ : ShareState}, ScanFrame share s s₃ → ScanSaved share s r.changes s₃ →
      (updateRuntime share).wp h s₃
        (fun _ s' => ScanFrame share s s' ∧ ∃ n, ScanSaved share s n s')
        (fun _ s' => ScanFrame share s s'
          ∧ (ScanStarted share s s' ∨ ∃ n, ScanSaved share s n s') ∧ ¬ Silent share h s) by
    have hsaved : ∀ {s₃ : ShareState}, Stored share s₂ r.manifest s₂.clockFile s₃ →
        ScanSaved share s r.changes s₃ := fun hs₃ =>
      ⟨⟨_, _, hgives, by rw [hs₃.manifest]; exact fun _ => rfl, by rw [hs₃.clock, hc₂]⟩,
        by rw [hs₃.manifest]; exact hgives.format⟩
    refine wp_when (fun _ => ?_) fun hch => ?_
    · refine wp_mono (saveManifest_spec hf₂.consistent) ?_ ?_
      · rintro u s₃ ⟨hs₃, -⟩
        exact hend (hf₂.of_stored hs₃) (hsaved hs₃)
      · rintro e s₃ ⟨hs₃ | ⟨-, hs₃⟩, hno⟩
        · exact ⟨hf₂.of_stored hs₃, .inl (ScanStarted.of_clock hgives (hs₃.manifest.trans hm₂)
            (hs₃.clock.trans hc₂)), fun hs => hno ⟨hs.scannable.reach.noFault, hvalid⟩⟩
        · exact ⟨hf₂.of_stored hs₃, .inr ⟨_, hsaved hs₃⟩,
            fun hs => hno ⟨hs.scannable.reach.noFault, hvalid⟩⟩
    · obtain ⟨hformat, hrec⟩ := hsame (by simpa using hch)
      refine hend hf₂ ⟨⟨_, _, hgives, fun p => ?_, hc₂⟩, by rw [hm₂]; exact hformat⟩
      rw [hm₂, hrec]
  intro s₃ hf₃ hsv
  exact wp_mono (updateRuntime_spec hf₃.consistent)
    (fun _ s₄ hs₄ => ⟨hf₃.of_stored hs₄, _, hsv.of_stored hs₄⟩)
    fun _ s₄ ⟨hs₄, hno⟩ => ⟨hf₃.of_stored hs₄, .inr ⟨_, hsv.of_stored hs₄⟩,
      fun hs => hno hs.scannable.reach.noFault⟩

/-- A scan leaves the tree alone.  When it succeeds its result is in the files; when it
fails the files are as before, or the clock is ahead, or its result is in the files after
all.  It does not fail on a tree with nothing new. -/
theorem scanAndSave_spec (hroot : s.world.disk.IsDir share.localDirectory)
    (hc : s.Consistent share) :
    (scanAndSave share).wp h s
      (fun _ s' => ScanFrame share s s' ∧ ∃ n, ScanSaved share s n s')
      (fun _ s' => ScanFrame share s s'
        ∧ (ScanStarted share s s' ∨ ∃ n, ScanSaved share s n s') ∧ ¬ Silent share h s) := by
  unfold scanAndSave
  rw [wp_bind, wp_onDisk]
  refine wp_mono (directoryRoot_spec hroot) ?_ fun e w₁ ⟨hs₁, hno⟩ =>
    ⟨⟨hs₁.disk, rfl, hc.valid, hc.cache⟩, .inl ⟨rfl, .inl rfl⟩, fun hs => hno hs.scannable.reach⟩
  rintro root w₁ ⟨rfl, hs₁⟩
  have hs₁' : Stored share s s.manifestFile s.clockFile { s with world := w₁ } :=
    ⟨hs₁, rfl, rfl, rfl, ⟨hc.valid, hc.cache⟩⟩
  have hstill : ∀ {s'' : ShareState}, Stored share s s.manifestFile s.clockFile s'' →
      ScanFrame share s s'' ∧ ScanStarted share s s'' := fun hs =>
    ⟨⟨hs.same.disk, hs.initial, hs.consistent⟩, ⟨hs.manifest, .inl hs.clock⟩⟩
  refine wp_seq (manifestSnapshot_spec hs₁'.consistent) ?_ fun e s₂ ⟨hs₂, hno⟩ =>
    have hs₂ := hstill (hs₁'.trans hs₂)
    ⟨hs₂.1, .inl hs₂.2, fun hs => hno hs.scannable.reach.noFault⟩
  rintro m s₂ ⟨rfl, hs₂⟩
  have hs₂ := hs₁'.trans hs₂
  refine wp_seq (loadClock_spec hs₂.consistent) ?_ fun e s₃ ⟨hs₃, hno⟩ => ?_
  case refine_2 =>
    rw [hs₂.manifest, hs₂.clock] at hs₃
    have hs₃ := hstill (hs₂.trans hs₃)
    exact ⟨hs₃.1, .inl hs₃.2, fun hs => hno ⟨hs.scannable.reach.noFault, hs₂.clock ▸ hs.clock⟩⟩
  rintro c s₃ ⟨rfl, hclock, hs₃⟩
  rw [hs₂.manifest, hs₂.clock] at hs₃
  have hs₃ := hs₂.trans hs₃
  rw [wp_bind, wp_onDisk, wp_currentTimeMs, wp_bind, wp_onDisk, hs₂.clock]
  have hdisk : s₃.world.disk = s.world.disk := hs₃.same.disk
  have hframe : ∀ {w : World}, w.disk = s.world.disk →
      ScanFrame share s { s₃ with world := w } := fun hd =>
    ⟨hd, hs₃.initial, hs₃.consistent.valid, hs₃.consistent.cache⟩
  have hprev : s.manifestFile.Valid s.manifestFile.shareId := by
    rw [hc.valid.share]; exact hc.valid
  refine wp_mono (scan_spec (w := { s₃.world with calls := s₃.world.calls + 1 })
    (by show s₃.world.disk.IsDir _; rw [hdisk]; exact hroot) hprev) ?_ ?_
  · rintro r w₄ ⟨hd₄, hre, hvalid, hsame⟩
    refine saveScanned_spec (hframe (hd₄.trans hdisk)) hs₃.manifest hs₃.clock ?_ ?_ hsame
    · rw [Rescan.Gives, ← hdisk]; exact hre
    · rw [← hc.valid.share]; exact hvalid
  · rintro e w₄ ⟨hd₄, hno⟩
    refine ⟨hframe (hd₄.trans hdisk), .inl ⟨hs₃.manifest, .inl hs₃.clock⟩,
      fun hs => hno ⟨hs.clock, ?_⟩⟩
    show Scannable h s₃.world.disk _ ∧ _
    rw [hdisk]
    exact ⟨hs.scannable, hs.unchanged⟩

end Scan

/-- A share that has just been created, at the root of an empty disk. -/
def newShare : ActiveShare :=
  ⟨⟨List.replicate 32 0, length_zeros⟩, [], ["data".toList], ⟨List.replicate 32 0, length_zeros⟩⟩

def newState [Crypto] : ShareState :=
  ⟨⟨Disk.bare, 0, []⟩, ⟨MANIFEST_FORMAT_VERSION, newShare.shareId, 0, ∅, ∅, ∅, ∅⟩, none, 0, .new, false⟩

/-- A directory to share beside the data directory. -/
def plainDisk : Disk :=
  ((Disk.bare.put [] ['s'] (.dir 0o755) (by decide +kernel)).put [] ['d'] (.dir 0o755)
    (by decide +kernel)).put [['d']] "tmp".toList (.dir 0o755) (by decide +kernel)

def plainShare : ActiveShare :=
  ⟨⟨List.replicate 32 0, length_zeros⟩, [['s']], [['d']], ⟨List.replicate 32 0, length_zeros⟩⟩

def joined [Crypto] : ShareState :=
  ⟨⟨plainDisk, 0, []⟩, .empty plainShare.shareId 0, none, 0, .new, false⟩

end Syncbox

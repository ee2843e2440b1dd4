/-
# `Syncbox.Network.Counter` — how far the counter of a share's clock can run

The clock of a share ticks once for every change a scan finds, and it observes every
record of a manifest that was applied.  Both may have to increment a 32-bit counter, and
only a wall clock ahead of the stored one resets it.  The validator of a manifest bounds
neither the wall time nor the counter of a version, so a record that another peer has
written can put both at their largest values: the wall clock is then never ahead again, and
the counter has nothing left to count with.

A scan ticks at most `2 * MAX_MANIFEST_ENTRIES` times and an application observes at most
`MAX_MANIFEST_ENTRIES` records, each a step of one.  So the counter survives the next step
when the counters it can be raised to — its own, and those in the two manifests — leave
that much room (`Round.step`), and a run is safe for as many steps as there is room for
between the largest counter ever received and the limit (`roomy_turns`).
-/
import Syncbox.Clock
import Syncbox.Network.Candidate

namespace Syncbox

open Rust Unix Prog

/-! ## One call -/

namespace ClockState

variable {c : ClockState}

theorem bump_of_lt {n : U32} (h : n.val + 1 < 2 ^ 32) : ∃ m, bump n = .ok m ∧ m.val = n.val + 1 := by
  refine ⟨⟨n.val + 1, h⟩, ?_, rfl⟩
  rw [bump, checkedAddOne, dif_pos h]

/-- The clock is usable and its counter has `n` steps to go to the cap. -/
def Below (cap : Nat) (c : ClockState) (n : Nat) : Prop :=
  c.validate = .ok () ∧ c.lastCounter.val + n ≤ cap

theorem Below.mono {cap n m : Nat} (h : c.Below cap n) (hm : m ≤ n) : c.Below cap m :=
  ⟨h.1, by have := h.2; omega⟩

theorem Below.tick {cap n : Nat} (h : c.Below cap (n + 1)) (hcap : cap < 2 ^ 32) (nowMs : U64)
    (author : EndpointId) :
    ∃ v c', c.tick nowMs author = .ok (v, c') ∧ c'.Below cap n ∧ v.counter.val ≤ cap := by
  obtain ⟨hvalid, hle⟩ := h
  unfold ClockState.tick advance
  rw [hvalid]
  split
  · refine ⟨_, _, rfl, ⟨hvalid, ?_⟩, ?_⟩
    · show (0 : U32).val + n ≤ cap
      rw [Fin.val_zero]
      omega
    · exact Nat.zero_le _
  · obtain ⟨m, hm, hval⟩ := bump_of_lt (n := c.lastCounter) (by omega)
    rw [hm]
    refine ⟨_, _, rfl, ⟨hvalid, ?_⟩, ?_⟩
    · show m.val + n ≤ cap
      omega
    · show m.val ≤ cap
      omega

theorem incremented_le {remote : HlcTimestamp} {nowMs : U64} {n : U32} {k : Nat}
    (h : (ClockCall.observe remote nowMs).incremented c = some n) (hc : c.lastCounter.val ≤ k)
    (hr : remote.counter.val ≤ k) : n.val ≤ k := by
  simp only [ClockCall.incremented] at h
  have hmax : (max c.lastCounter remote.counter).val ≤ k := by
    rcases max_choice c.lastCounter remote.counter with heq | heq <;> rw [heq] <;> assumption
  split at h
  · cases h
  · split at h
    · cases h; exact hr
    · split at h
      · cases h; exact hc
      · cases h; exact hmax

theorem Below.observe {cap n : Nat} {remote : HlcTimestamp} (h : c.Below cap (n + 1))
    (hcap : cap < 2 ^ 32) (hr : remote.counter.val + (n + 1) ≤ cap) (nowMs : U64) :
    ∃ c', c.observe remote nowMs = .ok c' ∧ c'.Below cap n := by
  obtain ⟨hvalid, hle⟩ := h
  unfold ClockState.observe
  rw [hvalid]
  show ∃ c', (c.nextCounter remote (max (max c.lastWallMs remote.wallMs) nowMs) >>= fun n =>
    .ok { c with lastWallMs := max (max c.lastWallMs remote.wallMs) nowMs, lastCounter := n })
      = .ok c' ∧ _
  rw [nextCounter_eq]
  cases hi : (ClockCall.observe remote nowMs).incremented c with
  | none =>
      refine ⟨_, rfl, hvalid, ?_⟩
      show (0 : U32).val + n ≤ cap
      rw [Fin.val_zero]
      omega
  | some k =>
      have hk : k.val ≤ cap - (n + 1) := incremented_le hi (by omega) (by omega)
      obtain ⟨m, hm, hval⟩ := bump_of_lt (n := k) (by omega)
      dsimp only
      rw [hm]
      refine ⟨_, rfl, hvalid, ?_⟩
      show m.val + n ≤ cap
      omega

end ClockState

/-! ## The counters in a manifest -/

/-- No version in the map counts beyond `cap`. -/
def Capped {V : Type} (version : V → HlcTimestamp) (cap : Nat) (m : BTreeMap Str V) : Prop :=
  ∀ (p : Str) (v : V), m[p]? = some v → (version v).counter.val ≤ cap

namespace Capped

variable {V : Type} {version : V → HlcTimestamp} {cap : Nat} {m : BTreeMap Str V}

theorem empty : Capped version cap (∅ : BTreeMap Str V) := by
  intro p v h
  simp at h

theorem mono {cap' : Nat} (h : Capped version cap m) (hle : cap ≤ cap') : Capped version cap' m :=
  fun p v hv => (h p v hv).trans hle

theorem erase (h : Capped version cap m) (p : Str) : Capped version cap (m.erase p) := by
  intro q v hq
  rw [lookup_erase] at hq
  split at hq
  · cases hq
  · exact h q v hq

theorem insert {v : V} (h : Capped version cap m) (p : Str) (hv : (version v).counter.val ≤ cap) :
    Capped version cap (m.insert p v) := by
  intro q u hq
  rw [lookup_insert] at hq
  split at hq
  · cases hq
    exact hv
  · exact h q u hq

theorem of_mem_values (h : Capped version cap m) {t : HlcTimestamp}
    (ht : t ∈ m.values.map version) : t.counter.val ≤ cap := by
  obtain ⟨v, hv, rfl⟩ := List.mem_map.mp ht
  obtain ⟨p, hp⟩ := mem_values.mp hv
  exact h p v hp

end Capped

/-- No version in the manifest counts beyond `cap`. -/
structure Manifest.Capped (cap : Nat) (m : Manifest) : Prop where
  entries : Syncbox.Capped ManifestEntry.version cap m.entries
  directories : Syncbox.Capped DirectoryEntry.version cap m.directories
  symlinks : Syncbox.Capped SymlinkEntry.version cap m.symlinks
  tombstones : Syncbox.Capped Tombstone.version cap m.tombstones

namespace Manifest.Capped

variable {cap : Nat} {m : Manifest}

theorem mono {cap' : Nat} (h : m.Capped cap) (hle : cap ≤ cap') : m.Capped cap' :=
  ⟨h.entries.mono hle, h.directories.mono hle, h.symlinks.mono hle, h.tombstones.mono hle⟩

theorem place (h : m.Capped cap) (p : Str) {r : ManifestRecord} (hr : r.version.counter.val ≤ cap) :
    (m.place p r).Capped cap := by
  cases r with
  | file e => exact ⟨h.entries.insert p hr, h.directories, h.symlinks.erase p, h.tombstones.erase p⟩
  | directory e =>
      exact ⟨h.entries, h.directories.insert p hr, h.symlinks.erase p, h.tombstones.erase p⟩
  | symlink e => exact ⟨h.entries, h.directories, h.symlinks.insert p hr, h.tombstones.erase p⟩
  | tombstone e => exact ⟨h.entries, h.directories, h.symlinks, h.tombstones.insert p hr⟩

theorem retained {unknown : Bool} {p : Str} {x : Seen} {r : ManifestRecord} (h : m.Capped cap)
    (hr : retained m unknown p x = some r) : r.version.counter.val ≤ cap := by
  cases retains hr with
  | @file old _ hold => exact h.entries p old hold
  | directory hold => exact h.directories p _ hold
  | symlink hold => exact h.symlinks p _ hold

theorem of_mem_observedVersions (h : m.Capped cap) {t : HlcTimestamp}
    (ht : t ∈ observedVersions m) : t.counter.val ≤ cap := by
  rw [observedVersions, List.mem_append, List.mem_append] at ht
  rcases ht with (ht | ht) | ht
  · exact h.entries.of_mem_values ht
  · exact h.directories.of_mem_values ht
  · exact h.tombstones.of_mem_values ht

end Manifest.Capped

theorem length_observedVersions_le (m : Manifest) : (observedVersions m).length ≤ m.paths.length := by
  rw [m.length_paths]
  simp only [observedVersions, values_eq, List.length_append, List.length_map,
    Std.ExtTreeMap.length_toList]
  omega

/-! ## All calls of a step -/

/-- Observing a whole manifest takes the counter at most one step for each record. -/
theorem observeAll_below {clock : ClockState} {cap : Nat} {versions : List HlcTimestamp} (nowMs : U64)
    (hclock : clock.validate = .ok ()) (hcounter : clock.lastCounter.val ≤ cap)
    (hversions : ∀ t ∈ versions, t.counter.val ≤ cap) (hroom : cap + versions.length < 2 ^ 32) :
    ∃ c, observeAll nowMs versions clock = .ok c ∧ c.Below (cap + versions.length) 0 := by
  obtain ⟨c, hc, hbelow⟩ := Check.foldlM_budget (n := 0) (b := clock)
    (f := fun clock version => clock.observe version nowMs)
    (P := fun c n => c.Below (cap + versions.length) n ∧ n ≤ versions.length) (by
      intro t ht c n hP
      have hr : t.counter.val + (n + 1) ≤ cap + versions.length := by
        have := hversions t ht
        have := hP.2
        omega
      obtain ⟨c', hc', hbelow⟩ := hP.1.observe hroom hr nowMs
      exact ⟨c', hc', hbelow, by have := hP.2; omega⟩)
    ⟨⟨hclock, by omega⟩, le_rfl⟩
  exact ⟨c, hc, hbelow.1⟩

/-- A scan takes the counter at most one step for each path it has seen or misses. -/
theorem rescan_below {previous : Manifest} {clock : ClockState} {endpointId : EndpointId}
    {nowMs : U64} {unknown : Bool} {discovered : DiscoveredEntries} {cap ticks : Nat}
    (hclock : clock.validate = .ok ()) (hcounter : clock.lastCounter.val ≤ cap)
    (hprevious : previous.Capped cap)
    (hticks : discovered.seen.length + previous.livePaths.length ≤ ticks)
    (hroom : cap + ticks < 2 ^ 32) :
    ∃ s, rescan previous clock endpointId nowMs unknown discovered = .ok s
      ∧ s.clock.Below (cap + ticks) 0 ∧ s.manifest.Capped (cap + ticks) := by
  refine rescan_budget (n := 0)
    (P := fun s n => s.clock.Below (cap + ticks) n ∧ s.manifest.Capped (cap + ticks)) ?_ ?_ ?_ ?_
  · intro s p x r n hr hP
    exact ⟨hP.1.mono (Nat.le_succ n), hP.2.place p ((hprevious.retained hr).trans (by omega))⟩
  · intro s n hP
    exact ⟨hP.1.mono (Nat.le_succ n), hP.2⟩
  · intro s p record n hversion hP
    obtain ⟨v, c', htick, hc', hv⟩ := hP.1.tick hroom nowMs endpointId
    refine ⟨⟨s.manifest.place p (record v), s.changes + 1, c'⟩, ?_, hc', hP.2.place p ?_⟩
    · rw [Rescan.author, htick]
      rfl
    · rw [hversion]
      exact hv
  · refine ⟨⟨hclock, ?_⟩, Capped.empty, Capped.empty, Capped.empty,
      hprevious.tombstones.mono (by omega)⟩
    show clock.lastCounter.val + _ ≤ _
    omega

/-! ## A scan up to its clock, an application up to its clock -/

section Split

variable [Crypto] (share : ActiveShare)

/-- What a scan compares. -/
structure Comparison where
  previous : Manifest
  clock : ClockState
  nowMs : U64
  discovered : DiscoveredEntries

def Comparison.rescan (x : Comparison) : Except Error Rescan :=
  Syncbox.rescan x.previous x.clock share.localEndpointId x.nowMs (unknownPermissionsMatch x.previous)
    x.discovered

def Comparison.result (x : Comparison) : Except Error ScanResult :=
  compareWithPrevious x.previous x.clock share.localEndpointId x.nowMs
    (unknownPermissionsMatch x.previous) x.discovered

/-- `scan_and_save` before its first tick. -/
def toCompare : App Comparison := do
  let root ← onDisk (directoryRoot share.localDirectory)
  let snapshot ← manifestSnapshot share
  let clock ← loadClock share
  let nowMs ← onDisk currentTimeMs
  let discovered ← onDisk do
    Prog.ofExcept clock.validate
    discoverEntries root snapshot.manifest (unknownPermissionsMatch snapshot.manifest)
  pure ⟨snapshot.manifest, clock, nowMs, discovered⟩

/-- The candidate as it is saved, when it is. -/
def candidateToSave (local_ : Manifest) (s : Applying) : App (Option Manifest) :=
  if s.owned then do
    let nowMs ← onDisk currentTimeMs
    let candidate := { s.candidate with scannedAtMs := nowMs }
    Prog.ofExcept (candidate.validate share.shareId)
    pure (if mapsDiffer candidate local_ then some candidate else none)
  else pure none

/-- `apply_remote_transfer_impl` before `observe_manifest_clock`, with the manifest that is
observed. -/
def toObserve (remote : Manifest) (fileData : BTreeMap Str IncomingFile) :
    App (ApplyOutcome × Option Manifest) := do
  let root ← localRoot share
  let snapshot ← manifestSnapshot share
  let s ← onDisk (applyTree share.shareTmpDir root snapshot.manifest remote fileData)
  let candidate ← candidateToSave share snapshot.manifest s
  pure (⟨s.pendingDownloads, s.appliedRecords, 0⟩, candidate)

def observeAndSave (manifest : Manifest) : App Unit := do
  observeManifestClock share manifest
  saveManifest share manifest

theorem onDisk_bind {α β : Type} (m : Fs α) (f : α → Fs β) :
    onDisk (m >>= f) = onDisk m >>= fun a => onDisk (f a) := by
  funext h s
  rw [run_bind]
  unfold onDisk Prog.zoom
  rw [run_bind]
  cases m h s.world <;> rfl

theorem onDisk_ofExcept {α : Type} (x : Except Error α) :
    onDisk (Prog.ofExcept x) = Prog.ofExcept x := by
  cases x <;> rfl

theorem scanAndSave_eq : scanAndSave share = (do
    let x ← toCompare share
    let scanned ← Prog.ofExcept (x.result share)
    saveScanned share scanned) := by
  unfold scanAndSave toCompare scanManifestCachedAfterValidation
  simp only [onDisk_bind, onDisk_ofExcept, bind_assoc, pure_bind]
  rfl

theorem applyRemoteTransferImpl_eq (remote : Manifest) (fileData : BTreeMap Str IncomingFile) :
    applyRemoteTransferImpl share remote fileData = (do
      let (outcome, manifest) ← toObserve share remote fileData
      match manifest with
        | some manifest => observeAndSave share manifest
        | none => pure ()
      pure outcome) := by
  unfold applyRemoteTransferImpl toObserve
  simp only [bind_assoc]
  congr 1
  funext root
  congr 1
  funext snapshot
  congr 1
  funext s
  unfold Prog.when candidateToSave
  split
  · unfold saveCandidate
    simp only [bind_assoc]
    congr 1
    funext nowMs
    congr 1
    funext _
    unfold Prog.when
    split <;> rfl
  · rfl

end Split

/-! ## What the parts leave -/

/-- The files of the share, with no counter beyond `cap`. -/
structure Within [Crypto] (share : ActiveShare) (cap : Nat) (s : ShareState) : Prop where
  consistent : s.Consistent share
  counter : s.clockFile.lastCounter.val ≤ cap
  manifest : s.manifestFile.Capped cap

section Parts

variable [Crypto] {share : ActiveShare} {h : Host} {s s' : ShareState} {cap : Nat}

theorem Within.mono {cap' : Nat} (hs : Within share cap s) (hle : cap ≤ cap') :
    Within share cap' s :=
  ⟨hs.consistent, hs.counter.trans hle, hs.manifest.mono hle⟩

theorem Within.world (hs : Within share cap s) (w : World) : Within share cap { s with world := w } :=
  ⟨⟨hs.consistent.valid, hs.consistent.cache⟩, hs.counter, hs.manifest⟩

theorem Stored.within {m : Manifest} {c : ClockState} (hst : Stored share s m c s')
    (hc : c.lastCounter.val ≤ cap) (hm : m.Capped cap) : Within share cap s' :=
  ⟨hst.consistent, by rw [hst.clock]; exact hc, by rw [hst.manifest]; exact hm⟩

omit [Crypto] in
theorem length_seen (found : DiscoveredEntries) :
    found.seen.length = found.files.size + found.directories.size + found.symlinks.size := by
  simp only [DiscoveredEntries.seen, List.length_append, List.length_map,
    Std.ExtTreeMap.length_toList]

theorem recordEntry_count {root : PathBuf} {previous : Manifest} {unknown : Bool}
    {found : DiscoveredEntries} {names : List Str} {node : Node} {w : World} :
    (recordEntry root previous unknown found names node).wp h w
      (fun found' _ => found'.seen.length ≤ MAX_MANIFEST_ENTRIES) (fun _ _ => True) := by
  unfold recordEntry
  refine wp_ite (fun _ => trivial) fun hlt => ?_
  have hsize : ∀ {V : Type} (m : BTreeMap Str V) (p : Str) (v : V),
      (m.insert p v).size ≤ m.size + 1 := fun m p v => Std.ExtTreeMap.size_insert_le
  rw [wp_bind]
  refine wp_of_forall (fun path w₁ => ?_) fun _ _ => trivial
  refine wp_ite (fun _ => ?_) fun _ => ?_
  · rw [wp_bind]
    refine wp_of_forall (fun target w₂ => ?_) fun _ _ => trivial
    rw [wp_bind]
    refine wp_of_forall (fun _ w₃ => ?_) fun _ _ => trivial
    rw [wp_pure, length_seen]
    have := hsize found.symlinks path ⟨target⟩
    dsimp only
    omega
  · rw [wp_bind]
    refine wp_of_forall (fun metadata w₂ => ?_) fun _ _ => trivial
    refine wp_ite (fun _ => ?_) fun _ => ?_
    · rw [wp_pure, length_seen]
      have := hsize found.directories path ⟨permissionsFromMetadata metadata⟩
      dsimp only
      omega
    · rw [wp_bind]
      refine wp_of_forall (fun file w₃ => ?_) fun _ _ => trivial
      rw [wp_pure, length_seen]
      have := hsize found.files path file
      dsimp only
      omega

theorem discoverEntries_count {root : PathBuf} {previous : Manifest} {unknown : Bool} {w : World} :
    (discoverEntries root previous unknown).wp h w
      (fun found _ => found.seen.length ≤ MAX_MANIFEST_ENTRIES) (fun _ _ => True) := by
  unfold discoverEntries
  rw [wp_bind]
  refine wp_of_forall (fun metadata w₁ => ?_) fun _ _ => trivial
  refine wp_ite (fun _ => trivial) fun _ => ?_
  rw [wp_bind]
  refine wp_of_forall (fun entries w₂ => ?_) fun _ _ => trivial
  refine wp_foldlM (I := fun _ (found : DiscoveredEntries) _ => found.seen.length ≤ MAX_MANIFEST_ENTRIES) entries []
    _ _ (Nat.zero_le _) ?_
  intro pre x post found w₃ _ hfound
  unfold discoverEntry
  split
  · exact hfound
  · exact recordEntry_count

/-- What a scan compares, with no counter beyond `cap`. -/
structure Comparison.Within (cap : Nat) (x : Comparison) : Prop where
  clock : x.clock.validate = .ok ()
  counter : x.clock.lastCounter.val ≤ cap
  previous : x.previous.Capped cap
  ticks : x.discovered.seen.length + x.previous.livePaths.length ≤ 2 * MAX_MANIFEST_ENTRIES

/-- What a scan compares, and what it has left alone by then. -/
theorem toCompare_spec (hs : Within share cap s) :
    (toCompare share).wp h s (fun x s' => Within share cap s' ∧ x.Within cap)
      (fun _ s' => Within share cap s') := by
  unfold toCompare
  rw [wp_bind, wp_onDisk]
  refine wp_of_forall (fun root w₁ => ?_) fun _ w₁ => hs.world w₁
  refine wp_seq (manifestSnapshot_spec (hs.world w₁).consistent) ?_
    fun _ _ hs₂ => hs₂.1.within hs.counter hs.manifest
  rintro snapshot s₂ ⟨rfl, hst₂⟩
  have hs₂ := hst₂.within hs.counter hs.manifest
  refine wp_seq (loadClock_spec hs₂.consistent) ?_
    fun _ _ hs₃ => hs₃.1.within hs₂.counter hs₂.manifest
  rintro clock s₃ ⟨rfl, hvalid, hst₃⟩
  have hs₃ := hst₃.within hs₂.counter hs₂.manifest
  rw [wp_bind, wp_onDisk, wp_currentTimeMs, wp_bind, wp_onDisk, wp_bind]
  refine wp_of_forall (fun _ w₄ => ?_) fun _ w₄ => hs₃.world w₄
  refine wp_mono discoverEntries_count ?_ fun _ w₅ _ => hs₃.world w₅
  intro discovered w₅ hcount
  refine ⟨hs₃.world w₅, hvalid, hs₂.counter, hs.manifest, ?_⟩
  have hpaths := hs.consistent.valid.count
  rw [Manifest.paths, List.length_append] at hpaths
  show discovered.seen.length + s.manifestFile.livePaths.length ≤ _
  omega

omit [Crypto] in
theorem Planned.counter_le {local_ remote : Manifest} {fileData : BTreeMap Str IncomingFile}
    {op : Planned} {r : ManifestRecord} (hremote : remote.Capped cap)
    (hop : op ∈ plan local_ remote fileData) (hr : op.record = some r) :
    r.version.counter.val ≤ cap := by
  rw [mem_plan] at hop
  cases op with
  | delete p t =>
      cases hr
      exact hremote.tombstones p t (mem_deletions.mp hop).1
  | directory p e =>
      cases hr
      exact hremote.directories p e (mem_winners.mp hop).1
  | symlink p e =>
      cases hr
      exact hremote.symlinks p e (mem_winners.mp hop).1
  | file p e incoming =>
      cases hr
      exact hremote.entries p e (mem_winners.mp hop.1).1
  | mode p o => cases hr

/-- One operation of the plan puts at most its own record in the candidate. -/
theorem execute_capped {tmp root : PathBuf} {local_ : Manifest} {op : Planned} {a : Applying}
    {w : World} (ha : a.candidate.Capped cap)
    (hop : ∀ r, op.record = some r → r.version.counter.val ≤ cap) :
    (execute tmp root local_ a op).wp h w (fun a' _ => a'.candidate.Capped cap)
      (fun _ _ => True) := by
  cases op with
  | delete p t =>
      unfold execute applyDeletion
      rw [wp_bind]
      refine wp_of_forall (fun _ _ => ?_) fun _ _ => trivial
      exact ⟨ha.entries.erase p, ha.directories.erase p, ha.symlinks.erase p,
        ha.tombstones.insert p (hop _ rfl)⟩
  | directory p e =>
      unfold execute applyDirectory
      rw [wp_bind]
      refine wp_of_forall (fun _ _ => ?_) fun _ _ => trivial
      exact ⟨ha.entries.erase p, ha.directories.insert p (hop _ rfl), ha.symlinks.erase p,
        ha.tombstones.erase p⟩
  | symlink p e =>
      unfold execute applySymlink
      rw [wp_bind]
      refine wp_of_forall (fun _ _ => ?_) fun _ _ => trivial
      exact ⟨ha.entries.erase p, ha.directories.erase p, ha.symlinks.insert p (hop _ rfl),
        ha.tombstones.erase p⟩
  | file p e incoming =>
      unfold execute applyFile
      cases incoming with
      | some incoming =>
          dsimp only
          rw [wp_bind]
          refine wp_of_forall (fun _ _ => ?_) fun _ _ => trivial
          exact ⟨(ha.entries.erase p).insert p (hop _ rfl), ha.directories.erase p,
            ha.symlinks.erase p, ha.tombstones.erase p⟩
      | none =>
          dsimp only
          rw [wp_bind]
          refine wp_of_forall (fun b _ => ?_) fun _ _ => trivial
          refine wp_ite (fun _ => ?_) fun _ => ha
          exact ⟨ha.entries.insert p (hop _ rfl), ha.directories.erase p, ha.symlinks,
            ha.tombstones.erase p⟩
  | mode p o =>
      unfold execute applyMode
      rw [wp_bind]
      exact wp_of_forall (fun _ _ => ha) fun _ _ => trivial

theorem applyTree_capped {tmp root : PathBuf} {local_ remote : Manifest}
    {fileData : BTreeMap Str IncomingFile} {w : World} (hlocal : local_.Capped cap)
    (hremote : remote.Capped cap) :
    (applyTree tmp root local_ remote fileData).wp h w (fun a _ => a.candidate.Capped cap)
      (fun _ _ => True) := by
  rw [applyTree_eq]
  refine wp_foldlM (I := fun _ (a : Applying) _ => a.candidate.Capped cap) _ [] _ _ hlocal ?_
  intro pre op post a w₁ hplan ha
  have hop : op ∈ plan local_ remote fileData := by
    rw [show plan local_ remote fileData = pre ++ op :: post from hplan]
    exact List.mem_append_right _ List.mem_cons_self
  exact execute_capped ha fun r hr => Planned.counter_le hremote hop hr

/-- What is observed after an application, and what has been left alone by then. -/
theorem toObserve_spec {remote : Manifest} {fileData : BTreeMap Str IncomingFile}
    (hs : Within share cap s) (hremote : remote.Capped cap) :
    (toObserve share remote fileData).wp h s
      (fun x s' => Within share cap s' ∧ ∀ m, x.2 = some m →
        m.Capped cap ∧ (observedVersions m).length ≤ MAX_MANIFEST_ENTRIES)
      (fun _ s' => Within share cap s') := by
  unfold toObserve localRoot
  rw [wp_bind, wp_onDisk]
  refine wp_of_forall (fun root w₁ => ?_) fun _ w₁ => hs.world w₁
  refine wp_seq (manifestSnapshot_spec (hs.world w₁).consistent) ?_
    fun _ _ hs₂ => hs₂.1.within hs.counter hs.manifest
  rintro snapshot s₂ ⟨rfl, hst₂⟩
  have hs₂ := hst₂.within hs.counter hs.manifest
  rw [wp_bind, wp_onDisk]
  refine wp_mono (applyTree_capped hs.manifest hremote) ?_ fun _ w₃ _ => hs₂.world w₃
  intro a w₃ ha
  have hs₃ := hs₂.world w₃
  rw [wp_bind]
  unfold candidateToSave
  refine wp_ite (fun _ => ?_) fun _ => ⟨hs₃, fun m hm => by cases hm⟩
  rw [wp_bind, wp_onDisk, wp_currentTimeMs, wp_bind]
  have hs₄ := hs₃.world { w₃ with calls := w₃.calls + 1 }
  cases hvalid : Manifest.validate { a.candidate with scannedAtMs := h.clockMs w₃.calls } share.shareId with
  | error e => exact hs₄
  | ok u =>
      refine ⟨hs₄, fun m hm => ?_⟩
      have hm : m = { a.candidate with scannedAtMs := h.clockMs w₃.calls } := by
        dsimp only at hm
        split at hm
        · exact (Option.some.inj hm).symm
        · cases hm
      rw [hm]
      exact ⟨⟨ha.entries, ha.directories, ha.symlinks, ha.tombstones⟩,
        (length_observedVersions_le _).trans (Manifest.validate_eq_ok.mp hvalid).count⟩

omit [Crypto] in
theorem Comparison.Within.rescan {x : Comparison} (hx : x.Within cap) (share : ActiveShare)
    (hroom : cap + 2 * MAX_MANIFEST_ENTRIES < 2 ^ 32) :
    ∃ a, x.rescan share = .ok a ∧ a.clock.Below (cap + 2 * MAX_MANIFEST_ENTRIES) 0
      ∧ a.manifest.Capped (cap + 2 * MAX_MANIFEST_ENTRIES) :=
  rescan_below hx.clock hx.counter hx.previous hx.ticks hroom

theorem Comparison.Within.result {x : Comparison} {r : ScanResult} (hx : x.Within cap)
    (hroom : cap + 2 * MAX_MANIFEST_ENTRIES < 2 ^ 32) (hr : x.result share = .ok r) :
    r.clock.lastCounter.val ≤ cap + 2 * MAX_MANIFEST_ENTRIES
      ∧ r.manifest.Capped (cap + 2 * MAX_MANIFEST_ENTRIES) := by
  unfold Comparison.result compareWithPrevious fullDiff at hr
  split at hr
  · cases hr
    exact ⟨hx.counter.trans (Nat.le_add_right _ _), hx.previous.mono (Nat.le_add_right _ _)⟩
  · obtain ⟨a, ha, hbelow, hcapped⟩ := hx.rescan share hroom
    rw [show Syncbox.rescan _ _ _ _ _ _ = _ from ha] at hr
    simp only [Check.bind_eq_ok] at hr
    obtain ⟨_, heq, _, _, hr⟩ := hr
    cases heq
    cases hr
    exact ⟨hbelow.2, hcapped⟩

theorem saveClock_within {c : ClockState} (hs : Within share cap s)
    (hc : c.lastCounter.val ≤ cap) :
    (saveClock share c).wp h s (fun _ s' => Within share cap s') (fun _ s' => Within share cap s') := by
  refine wp_mono (saveClock_spec hs.consistent)
    (fun _ s' hs' => hs'.1.within hc hs.manifest) fun _ s' hs' => ?_
  rcases hs'.1 with hst | ⟨-, hst⟩
  · exact hst.within hs.counter hs.manifest
  · exact hst.within hc hs.manifest

theorem saveManifest_within {m : Manifest} (hs : Within share cap s) (hm : m.Capped cap) :
    (saveManifest share m).wp h s (fun _ s' => Within share cap s')
      (fun _ s' => Within share cap s') := by
  refine wp_mono (saveManifest_spec hs.consistent)
    (fun _ s' hs' => hs'.1.within hs.counter hm) fun _ s' hs' => ?_
  rcases hs'.1 with hst | ⟨-, hst⟩
  · exact hst.within hs.counter hs.manifest
  · exact hst.within hs.counter hm

theorem saveScanned_within {r : ScanResult} (hs : Within share cap s)
    (hclock : r.clock.lastCounter.val ≤ cap) (hmanifest : r.manifest.Capped cap) :
    (saveScanned share r).wp h s (fun _ s' => Within share cap s') (fun _ s' => Within share cap s') := by
  have hstatus : ∀ {s₁ : ShareState}, Within share cap s₁ →
      (updateRuntime share).wp h s₁ (fun _ s' => Within share cap s')
        (fun _ s' => Within share cap s') := fun hs₁ =>
    wp_mono (updateRuntime_spec hs₁.consistent)
      (fun _ _ hst => hst.within hs₁.counter hs₁.manifest)
      fun _ _ hst => hst.1.within hs₁.counter hs₁.manifest
  unfold saveScanned
  rw [wp_bind]
  suffices hrest : ∀ {s₁ : ShareState}, Within share cap s₁ →
      (Prog.when r.manifestChanged (saveManifest share r.manifest) >>= fun _ =>
        updateRuntime share).wp h s₁ (fun _ s' => Within share cap s')
        (fun _ s' => Within share cap s') from
    wp_when (fun _ => wp_conseq (saveClock_within hs hclock) fun _ _ hs₁ => hrest hs₁)
      fun _ => hrest hs
  intro s₁ hs₁
  rw [wp_bind]
  exact wp_when
    (fun _ => wp_conseq (saveManifest_within hs₁ hmanifest) fun _ _ hs₂ => hstatus hs₂)
    fun _ => hstatus hs₁

omit [Crypto] in
theorem ClockState.validate_ne_overflow {c : ClockState} : c.validate ≠ .error ClockState.overflow := by
  intro hc
  unfold ClockState.validate Check.rejectIf at hc
  split at hc
  · simp only [ClockState.overflow, Except.error.injEq, Error.bail.injEq] at hc
    have hhead := congrArg (fun text => text.toList.head?) hc
    simp at hhead
  · cases hc

theorem loadClock_error :
    (loadClock share).wp h s (fun _ _ => True) (fun e _ => e ≠ ClockState.overflow) := by
  unfold loadClock
  rw [wp_bind]
  unfold Prog.wp readJson
  cases h.fault s.world.calls with
  | true => exact fun he => by cases he
  | false =>
      show Prog.wp _ h _ _ _
      rw [wp_bind]
      cases hv : s.clockFile.validate with
      | ok u => trivial
      | error e =>
          intro he
          exact ClockState.validate_ne_overflow (hv.trans (by rw [he]))

theorem saveClock_error {c : ClockState} :
    (saveClock share c).wp h s (fun _ _ => True) (fun e _ => e ≠ ClockState.overflow) := by
  unfold saveClock
  rw [wp_bind]
  cases hv : c.validate with
  | ok u =>
      rw [wp_ofExcept_ok]
      unfold Prog.wp atomicWriteJson
      cases h.fault s.world.calls with
      | true => exact fun he => by cases he
      | false => trivial
  | error e =>
      intro he
      exact ClockState.validate_ne_overflow (hv.trans (by rw [he]))

theorem observeManifestClock_spec {m : Manifest} (hs : Within share cap s) (hm : m.Capped cap)
    (hcount : (observedVersions m).length ≤ MAX_MANIFEST_ENTRIES)
    (hroom : cap + 2 * MAX_MANIFEST_ENTRIES < 2 ^ 32) :
    (observeManifestClock share m).wp h s
      (fun _ s' => Within share (cap + 2 * MAX_MANIFEST_ENTRIES) s')
      (fun e s' => Within share (cap + 2 * MAX_MANIFEST_ENTRIES) s' ∧ e ≠ ClockState.overflow) := by
  have hle : cap ≤ cap + 2 * MAX_MANIFEST_ENTRIES := Nat.le_add_right _ _
  unfold observeManifestClock
  refine wp_seq (wp_both (loadClock_spec hs.consistent) loadClock_error) ?_
    fun _ _ hs₁ => ⟨(hs₁.1.1.within hs.counter hs.manifest).mono hle, hs₁.2⟩
  rintro c s₁ ⟨⟨rfl, hvalid, hst₁⟩, -⟩
  have hs₁ := (hst₁.within hs.counter hs.manifest).mono hle
  rw [wp_bind, wp_onDisk, wp_currentTimeMs, wp_bind]
  obtain ⟨c', hc', hbelow⟩ := observeAll_below (h.clockMs s₁.world.calls) hvalid hs.counter
    (fun _ => hm.of_mem_observedVersions) (by omega)
  rw [hc', wp_ofExcept_ok]
  exact wp_mono (wp_both (saveClock_within (hs₁.world _) (by have := hbelow.2; omega))
    saveClock_error) (fun _ _ hs₂ => hs₂.1) fun _ _ hs₂ => hs₂

end Parts

/-! ## Runs -/

/-- A round of a share, or a change of the disk by others. -/
inductive Round where
  | scan
  | apply (remote : Manifest) (fileData : BTreeMap Str IncomingFile)
  | edit (world : World)

namespace Round

section Run

variable [Crypto] (share : ActiveShare)

def run : Round → App Unit
  | scan => scanAndSave share
  | apply remote fileData => do
      let _ ← applyRemoteTransferImpl share remote fileData
      pure ()
  | edit world => modify fun s => { s with world := world }

def after (h : Host) (s : ShareState) (r : Round) : ShareState :=
  match r.run share h s with
  | .ok _ s' => s'
  | .error _ s' => s'

/-- The round gets as far as the clock, and the counter cannot take the next step. -/
def Overflows (h : Host) (s : ShareState) : Round → Prop
  | scan => (toCompare share).wp h s (fun x _ =>
      matchesPrevious x.discovered x.previous (unknownPermissionsMatch x.previous) = false
        ∧ Check.error? (x.rescan share) = some ClockState.overflow) fun _ _ => False
  | apply remote fileData => (toObserve share remote fileData).wp h s (fun x s' =>
      ∃ m ∈ x.2, (observeManifestClock share m).failure h s' = some ClockState.overflow) fun _ _ => False
  | edit _ => False

instance (h : Host) (s : ShareState) (r : Round) : Decidable (r.Overflows share h s) := by
  cases r <;> unfold Overflows <;> infer_instance

/-- The manifest a round applies. -/
def remote? : Round → Option Manifest
  | apply remote _ => some remote
  | _ => none

end Run

section Step

variable [Crypto] {share : ActiveShare} {h : Host} {s : ShareState} {cap : Nat}

theorem after_of_wp {r : Round} {P : ShareState → Prop}
    (hrun : (r.run share).wp h s (fun _ s' => P s') (fun _ s' => P s')) : P (r.after share h s) := by
  unfold Prog.wp at hrun
  unfold after
  cases hr : r.run share h s with
  | ok a s' => rwa [hr] at hrun
  | error e s' => rwa [hr] at hrun

theorem scan_step (hs : Within share cap s) (hroom : cap + 2 * MAX_MANIFEST_ENTRIES < 2 ^ 32) :
    ¬ Overflows share h s scan
      ∧ (scanAndSave share).wp h s (fun _ s' => Within share (cap + 2 * MAX_MANIFEST_ENTRIES) s')
        (fun _ s' => Within share (cap + 2 * MAX_MANIFEST_ENTRIES) s') := by
  have hle : cap ≤ cap + 2 * MAX_MANIFEST_ENTRIES := Nat.le_add_right _ _
  constructor
  · intro ho
    obtain ⟨x, s', hx, -, hre⟩ := exists_ok_of_wp ho
    obtain ⟨-, hwithin⟩ := wp_ok (toCompare_spec hs) hx
    obtain ⟨a, ha, -⟩ := hwithin.rescan share hroom
    rw [ha] at hre
    cases hre
  · rw [scanAndSave_eq, wp_bind]
    refine wp_mono (toCompare_spec hs) ?_ fun _ _ hs₁ => hs₁.mono hle
    rintro x s₁ ⟨hs₁, hx⟩
    rw [wp_bind]
    cases hr : x.result share with
    | error e => exact hs₁.mono hle
    | ok r => exact saveScanned_within (hs₁.mono hle) (hx.result hroom hr).1 (hx.result hroom hr).2

theorem apply_step {remote : Manifest} (fileData : BTreeMap Str IncomingFile)
    (hs : Within share cap s) (hremote : remote.Capped cap)
    (hroom : cap + 2 * MAX_MANIFEST_ENTRIES < 2 ^ 32) :
    ¬ Overflows share h s (apply remote fileData)
      ∧ (applyRemoteTransferImpl share remote fileData).wp h s
        (fun _ s' => Within share (cap + 2 * MAX_MANIFEST_ENTRIES) s')
        (fun _ s' => Within share (cap + 2 * MAX_MANIFEST_ENTRIES) s') := by
  have hle : cap ≤ cap + 2 * MAX_MANIFEST_ENTRIES := Nat.le_add_right _ _
  constructor
  · intro ho
    obtain ⟨x, s', hx, m, hm, hfail⟩ := exists_ok_of_wp ho
    obtain ⟨hs', hobserved⟩ := wp_ok (toObserve_spec hs hremote) hx
    obtain ⟨s'', hfail⟩ := Prog.failure_eq_some.mp hfail
    have hcapped := hobserved m hm
    exact (wp_error (observeManifestClock_spec hs' hcapped.1 hcapped.2 hroom) hfail).2 rfl
  · rw [applyRemoteTransferImpl_eq, wp_bind]
    refine wp_mono (toObserve_spec hs hremote) ?_ fun _ _ hs₁ => hs₁.mono hle
    rintro ⟨outcome, m | m⟩ s₁ ⟨hs₁, hobserved⟩
    · exact hs₁.mono hle
    · obtain ⟨hcapped, hcount⟩ := hobserved m rfl
      dsimp only
      rw [wp_bind, observeAndSave, wp_bind]
      refine wp_mono (observeManifestClock_spec hs₁ hcapped hcount hroom) ?_ fun _ _ hs₂ => hs₂.1
      intro _ s₂ hs₂
      exact saveManifest_within hs₂ (hcapped.mono hle)

/-- One round from a state with room: the counter gets by, and has used up at most two
steps for each record a manifest may have. -/
theorem step (r : Round) (hs : Within share cap s)
    (hremote : ∀ remote ∈ r.remote?, remote.Capped cap)
    (hroom : cap + 2 * MAX_MANIFEST_ENTRIES < 2 ^ 32) :
    ¬ r.Overflows share h s
      ∧ Within share (cap + 2 * MAX_MANIFEST_ENTRIES) (r.after share h s) := by
  cases r with
  | scan => exact ⟨(scan_step hs hroom).1, after_of_wp (scan_step hs hroom).2⟩
  | apply remote fileData =>
      have hstep := apply_step (h := h) fileData hs (hremote remote rfl) hroom
      refine ⟨hstep.1, after_of_wp ?_⟩
      unfold run
      rw [wp_bind]
      exact hstep.2
  | edit world => exact ⟨id, (hs.world world).mono (Nat.le_add_right _ _)⟩

end Step

end Round

section Turns

variable [Crypto] (share : ActiveShare)

/-- A round of a run, with the state it begins in. -/
structure Turn where
  before : ShareState
  host : Host
  round : Round

/-- The rounds of a run; the calls of each may fail in their own way. -/
def turns : ShareState → List (Host × Round) → List Turn
  | _, [] => []
  | s, (h, r) :: rounds => ⟨s, h, r⟩ :: turns (r.after share h s) rounds

variable {share} in
theorem round_mem_of_mem_turns {s : ShareState} {rounds : List (Host × Round)} {x : Turn}
    (hx : x ∈ turns share s rounds) : (x.host, x.round) ∈ rounds := by
  induction rounds generalizing s with
  | nil => cases hx
  | cons r rounds ih =>
      rcases List.mem_cons.mp hx with rfl | hx
      · exact List.mem_cons_self
      · exact List.mem_cons_of_mem _ (ih hx)

/-- The largest counter that leaves room for a round. -/
def ROOMY_COUNTER : Nat := 2 ^ 32 - 1 - 2 * MAX_MANIFEST_ENTRIES

/-- The counters the round may have to count on from leave room for it: the clock's, and
those in the manifest of the share and in the one it applies. -/
def Turn.Roomy (x : Turn) : Prop :=
  x.before.clockFile.lastCounter.val ≤ ROOMY_COUNTER ∧ x.before.manifestFile.Capped ROOMY_COUNTER
    ∧ ∀ remote ∈ x.round.remote?, remote.Capped ROOMY_COUNTER

variable {share}

/-- A run finds room as long as the largest counter it starts from or receives, with two
steps for each record and round, stays below the limit. -/
theorem roomy_turns {s : ShareState} {rounds : List (Host × Round)} {cap : Nat}
    (hs : Within share cap s)
    (hremote : ∀ x ∈ rounds, ∀ remote ∈ x.2.remote?, remote.Capped cap)
    (hroom : cap + 2 * MAX_MANIFEST_ENTRIES * rounds.length < 2 ^ 32) :
    ∀ x ∈ turns share s rounds, x.Roomy := by
  induction rounds generalizing s cap with
  | nil => simp [turns]
  | cons r rounds ih =>
      obtain ⟨h, r⟩ := r
      rw [List.length_cons, Nat.mul_add, Nat.mul_one] at hroom
      have hcap : cap ≤ ROOMY_COUNTER := by
        rw [ROOMY_COUNTER]
        omega
      have hfirst : ∀ remote ∈ r.remote?, remote.Capped cap := hremote (h, r) List.mem_cons_self
      have hstep := r.step (h := h) hs hfirst (by omega)
      intro x hx
      rcases List.mem_cons.mp hx with rfl | hx
      · exact ⟨hs.counter.trans hcap, hs.manifest.mono hcap,
          fun remote hr => (hfirst remote hr).mono hcap⟩
      · refine ih hstep.2 (fun y hy remote hr => ?_) (by omega) x hx
        exact (hremote y (List.mem_cons_of_mem _ hy) remote hr).mono (Nat.le_add_right _ _)

/-- When every round of a run finds room, none is stopped by the counter of the clock. -/
theorem counter_survives {s : ShareState} {rounds : List (Host × Round)} (hs : s.Consistent share)
    (hroomy : ∀ x ∈ turns share s rounds, x.Roomy) :
    ∀ x ∈ turns share s rounds, ¬ x.round.Overflows share x.host x.before := by
  induction rounds generalizing s with
  | nil => simp [turns]
  | cons r rounds ih =>
      obtain ⟨h, r⟩ := r
      obtain ⟨hcounter, hmanifest, hremote⟩ := hroomy ⟨s, h, r⟩ List.mem_cons_self
      have hstep := r.step (h := h) ⟨hs, hcounter, hmanifest⟩ hremote (by decide)
      intro x hx
      rcases List.mem_cons.mp hx with rfl | hx
      · exact hstep.1
      · exact ih hstep.2.consistent (fun y hy => hroomy y (List.mem_cons_of_mem _ hy)) x hx

end Turns

/-- A path that another peer has removed, in the last millisecond there is. -/
def removedLast (counter : U32) : Manifest :=
  ⟨MANIFEST_FORMAT_VERSION, ⟨List.replicate 32 0, length_zeros⟩, 0, ∅, ∅, ∅,
    (∅ : BTreeMap Str Tombstone).insert ['a']
      ⟨⟨⟨2 ^ 64 - 1, by decide⟩, counter, ⟨List.replicate 32 0, length_zeros⟩⟩⟩⟩

theorem capped_removedLast (counter : U32) : (removedLast counter).Capped counter.val :=
  ⟨Capped.empty, Capped.empty, Capped.empty, Capped.empty.insert ['a'] le_rfl⟩

/-- A directory appears. -/
def appeared : World := ⟨Disk.bare.put [] ['b'] (.dir 0o755) (by decide +kernel), 0, []⟩

theorem counter_survives_zero :
    let _ := Crypto.plain
    let rounds : List (Host × Round) :=
      [(.quiet, .apply (removedLast 0) ∅), (.quiet, .edit appeared), (.quiet, .scan)]
    newState.Consistent newShare ∧ (∀ x ∈ turns newShare newState rounds, x.Roomy)
      ∧ ∀ x ∈ turns newShare newState rounds, ¬ x.round.Overflows newShare x.host x.before := by
  intro _ rounds
  have hvalid : newState.manifestFile.Valid newShare.shareId := by decide +kernel
  have hs : Within newShare 0 newState :=
    ⟨⟨hvalid, fun _ hnone => (by cases hnone)⟩, le_rfl, Capped.empty, Capped.empty, Capped.empty,
      Capped.empty⟩
  have hroomy : ∀ x ∈ turns newShare newState rounds, x.Roomy := roomy_turns hs (by
    intro x hx remote hr
    simp only [rounds, List.mem_cons, List.not_mem_nil, or_false] at hx
    rcases hx with rfl | rfl | rfl
    · cases hr
      exact capped_removedLast 0
    · cases hr
    · cases hr) (by decide)
  exact ⟨hs.consistent, hroomy, counter_survives hs.consistent hroomy⟩

/-- One record with the largest wall time there is and a counter one below the limit: it is
valid, it is applied, and the next change the share finds cannot be recorded. -/
theorem clock_disabled :
    let _ := Crypto.plain
    let rounds : List (Host × Round) :=
      [(.quiet, .apply (removedLast ⟨2 ^ 32 - 2, by decide⟩) ∅), (.quiet, .edit appeared),
        (.quiet, .scan)]
    newState.Consistent newShare ∧ newState.clockFile = .new
      ∧ (removedLast ⟨2 ^ 32 - 2, by decide⟩).Valid newShare.shareId
      ∧ ∃ x ∈ turns newShare newState rounds, x.round.Overflows newShare x.host x.before := by
  intro _ rounds
  have hvalid : newState.manifestFile.Valid newShare.shareId := by decide +kernel
  refine ⟨⟨hvalid, fun _ hnone => (by cases hnone)⟩, rfl, by decide +kernel, ?_⟩
  refine ⟨_, List.mem_cons_of_mem _ (List.mem_cons_of_mem _ List.mem_cons_self), ?_⟩
  decide +kernel

end Syncbox

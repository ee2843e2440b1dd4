/-
# `Syncbox.Network.Dominance` — no version is ahead of the clock

A scan stamps what has changed with the share's clock.  For the new record to win against
the one it replaces, the clock must not be behind any version of the manifest (`Covers`).

A scan keeps this by itself: it stamps with the clock and saves the clock first
(`scanAndSave_forward`).  An application brings versions of other devices, and
`observe_manifest_clock` moves the clock past them — past those of files, directories and
tombstones.  The versions of links it does not look at, so for them it has to be asked
(`LinksCovered`); one link that is ahead is enough to lose the next local change of its
path.
-/
import Syncbox.Network.Counter
import Syncbox.Network.Merged

namespace Syncbox

open Rust Unix Prog

/-- No version in the manifest is ahead of the clock. -/
def Covers (clock : ClockState) (m : Manifest) : Prop :=
  ∀ p r, m.record p = some r → r.version.stamp ≤ clock.stamp

theorem Covers.mono {clock clock' : ClockState} {m : Manifest} (h : Covers clock m)
    (hle : clock.stamp ≤ clock'.stamp) : Covers clock' m := fun p r hr => (h p r hr).trans hle

/-! ## Observing -/

theorem observeAll_stamp {nowMs : U64} {versions : List HlcTimestamp} {clock clock' : ClockState}
    (hobs : observeAll nowMs versions clock = .ok clock') :
    clock.stamp ≤ clock'.stamp ∧ ∀ v ∈ versions, v.stamp ≤ clock'.stamp := by
  unfold observeAll at hobs
  induction versions generalizing clock with
  | nil =>
      cases hobs
      exact ⟨le_rfl, fun _ hv => by cases hv⟩
  | cons v versions ih =>
      rw [List.foldlM_cons, Check.bind_eq_ok] at hobs
      obtain ⟨clock₁, hfirst, hrest⟩ := hobs
      obtain ⟨hclock, hv, -⟩ := ClockState.observe_stamp hfirst
      obtain ⟨hle, hall⟩ := ih hrest
      refine ⟨hclock.le.trans hle, fun v' hv' => ?_⟩
      rcases List.mem_cons.mp hv' with rfl | hv'
      · exact hv.le.trans hle
      · exact hall v' hv'

theorem mem_observedVersions {m : Manifest} {p : Str} {r : ManifestRecord} (hr : m.record p = some r)
    (hlink : ∀ e, r ≠ .symlink e) : r.version ∈ observedVersions m := by
  have hvalue : ∀ {V : Type} {t : BTreeMap Str V} {v : V} (version : V → HlcTimestamp), t[p]? = some v →
      version v ∈ t.values.map version := by
    intro V t v version hv
    exact List.mem_map_of_mem (mem_values.mpr ⟨p, hv⟩)
  simp only [observedVersions, List.mem_append]
  cases r with
  | file e => exact .inl (.inl (hvalue _ (Manifest.record_file_iff.mp hr)))
  | directory e => exact .inl (.inr (hvalue _ (Manifest.record_directory hr)))
  | tombstone e => exact .inr (hvalue _ (Manifest.record_tombstone hr))
  | symlink e => exact absurd rfl (hlink e)

/-! ## Applying -/

/-- Every link that wins is not ahead of the clock, or not ahead of another record that is sure to be
applied with it. -/
def LinksCovered [Crypto] (s : ShareState) (remote : Manifest) (fileData : BTreeMap Str IncomingFile) :
    Prop :=
  ∀ p e, Wins s.manifestFile remote p (.symlink e) → e.version.stamp ≤ s.clockFile.stamp
    ∨ ∃ q r, Wins s.manifestFile remote q r ∧ (∀ e, r ≠ .symlink e)
      ∧ ((∃ e, r = .file e) → fileData[q]? ≠ none) ∧ e.version.stamp ≤ r.version.stamp

section Apply

variable [Crypto] {share : ActiveShare} {h : Host} {s s' : ShareState} {remote : Manifest}
  {fileData : BTreeMap Str IncomingFile}

omit [Crypto] in
theorem Overlaid.record_of_wins {local_ : Manifest} {l : List (Planned × Bool)} {a : Applying} {q : Str}
    {r : ManifestRecord} (hover : Overlaid local_ l a) (hsep : remote.Separated)
    (hl : l.map Prod.fst = plan local_ remote fileData) (hw : Wins local_ remote q r)
    (hfile : (∃ e, r = .file e) → fileData[q]? ≠ none) : a.candidate.record q = some r := by
  rw [hover.holds.record_eq, overlay_eq hsep hl, if_neg, select_of_wins hw]
  intro hpending
  obtain ⟨e, hw', hnone, -⟩ := wins_of_pending hsep hl hpending
  obtain rfl := Option.some.inj (hw.1.symm.trans hw'.1)
  exact hfile ⟨e, rfl⟩ hnone

theorem covers_candidate {l : List (Planned × Bool)} {a : Applying} {clock : ClockState}
    (hcovers : Covers s.clockFile s.manifestFile) (hlinks : LinksCovered s remote fileData)
    (hsep : remote.Separated) (hl : l.map Prod.fst = plan s.manifestFile remote fileData)
    (hover : Overlaid s.manifestFile l a) (hobs : Observes a.candidate s.clockFile clock) :
    Covers clock a.candidate := by
  obtain ⟨nowMs, hobs⟩ := hobs
  obtain ⟨hle, hobserved⟩ := observeAll_stamp hobs
  intro p r hr
  by_cases hlink : ∃ e, r = .symlink e
  · obtain ⟨e, rfl⟩ := hlink
    rw [hover.holds.record_eq, overlay_eq hsep hl] at hr
    -- a link of the local manifest, or one that has won
    have hold : s.manifestFile.record p = some (.symlink e) → e.version.stamp ≤ clock.stamp :=
      fun hlocal => (hcovers p _ hlocal).trans hle
    split at hr
    · exact hold hr
    · rcases @select_eq s.manifestFile remote p with ⟨r, hw, hsel⟩ | ⟨-, hsel⟩
      · obtain rfl := Option.some.inj (hsel.symm.trans hr)
        rcases hlinks p e hw with hclock | ⟨q, r, hw', hnot, hfile, hversion⟩
        · exact hclock.trans hle
        · have hq := hover.record_of_wins hsep hl hw' hfile
          exact hversion.trans (hobserved _ (mem_observedVersions hq hnot))
      · exact hold (hsel.symm.trans hr)
  · exact hobserved _ (mem_observedVersions hr (not_exists.mp hlink))

/-- What a round leaves the share with. -/
structure Sound (share : ActiveShare) (s : ShareState) : Prop where
  consistent : s.Consistent share
  covers : Covers s.clockFile s.manifestFile

theorem Sound.of_stored {m : Manifest} {c : ClockState} (hs : Stored share s m c s')
    (hcovers : Covers c m) : Sound share s' :=
  ⟨hs.consistent, by rw [hs.clock, hs.manifest]; exact hcovers⟩

theorem apply_sound (hs : Sound share s) (hremote : remote.Valid share.shareId)
    (hlinks : LinksCovered s remote fileData) :
    (applyRemoteTransferImpl share remote fileData).wp h s (fun _ s' => Sound share s')
      (fun _ s' => Sound share s') := by
  have hmoved : ∀ {root s₁} {w : World}, Opening share h s root s₁ →
      Stored share s s.manifestFile s.clockFile s₁ ∧ Sound share { s₁ with world := w } := by
    intro root s₁ w hopen
    have hst := hopen.stored
    refine ⟨hst, ⟨hst.consistent.valid, hst.consistent.cache⟩, ?_⟩
    show Covers s₁.clockFile s₁.manifestFile
    rw [hst.clock, hst.manifest]
    exact hs.covers
  -- the clock has seen a candidate: it covers the candidate and, being later, the old manifest
  have hseen : ∀ {root s₁ a w₂ c}, Opening share h s root s₁ →
      applyTree share.shareTmpDir root s.manifestFile remote fileData h s₁.world = .ok a w₂ →
      Observes a.candidate s₁.clockFile c → Covers c a.candidate ∧ Covers c s₁.manifestFile := by
    intro root s₁ a w₂ c hopen hrun hobs
    obtain ⟨l, hl, hover, -⟩ :=
      applyTree_overlaid hs.consistent.valid.separated hremote.separated hrun
    rw [hopen.stored.clock] at hobs
    refine ⟨covers_candidate hs.covers hlinks hremote.separated hl hover hobs, ?_⟩
    obtain ⟨nowMs, hobs⟩ := hobs
    rw [hopen.stored.manifest]
    exact hs.covers.mono (observeAll_stamp hobs).1
  refine wp_mono (applyRemoteTransferImpl_spec hs.consistent) ?_ ?_
  · rintro outcome s' ⟨root, s₁, a, w₂, hopen, hrun, -, ⟨-, rfl⟩ | hend⟩
    · exact (hmoved hopen).2
    · obtain ⟨nowMs, -, ⟨-, hst⟩ | ⟨c, hobs, hst⟩⟩ := hend
      · exact .of_stored hst (hmoved hopen (w := w₂)).2.covers
      · exact .of_stored hst (hseen hopen hrun hobs).1
  · rintro e s' (hst | ⟨root, s₁, hopen, ⟨e, w₂, -, rfl⟩ | ⟨a, w₂, hrun, hend⟩⟩)
    · exact .of_stored hst hs.covers
    · exact (hmoved hopen).2
    · rcases hend with hst | ⟨c, hobs, hst | ⟨nowMs, -, hst⟩⟩
      · exact .of_stored hst (hmoved hopen (w := w₂)).2.covers
      · exact .of_stored hst (hseen hopen hrun hobs).2
      · exact .of_stored hst (hseen hopen hrun hobs).1

end Apply

/-! ## Scanning -/

section Scan

variable [Crypto] {share : ActiveShare} {h : Host} {s s' : ShareState}

omit [Crypto] in
/-- A record after a scan has the version of the one before, or a fresh one. -/
theorem Rescans.synced_or_fresh {previous : Manifest} {unknown : Bool} {fresh : HlcTimestamp → Prop} {p : Str}
    {seen : Option Seen} {new : Option ManifestRecord} (hsep : previous.Separated)
    (hre : Rescans previous unknown fresh p seen new) :
    new.map ManifestRecord.synced = (previous.record p).map ManifestRecord.synced
      ∨ Changed previous unknown p seen ∧ ∃ r, new = some r ∧ fresh r.version := by
  by_cases hchanged : Changed previous unknown p seen
  · refine .inr ⟨hchanged, ?_⟩
    cases seen with
    | some x =>
        rw [Rescans, show retained previous unknown p x = none from hchanged] at hre
        obtain ⟨v, hv, rfl⟩ := hre
        exact ⟨_, rfl, by rw [authored_version]; exact hv⟩
    | none =>
        rcases hre with ⟨-, v, hv, rfl⟩ | ⟨hdead, -⟩
        · exact ⟨_, rfl, hv⟩
        · exact absurd hchanged hdead
  · exact .inl (hre.synced_of_not_changed hsep hchanged)

/-- What a scan may leave in the two files: the new manifest never without the new clock. -/
def Keeps (r : ScanResult) (s : ShareState) (m : Manifest) (c : ClockState) : Prop :=
  (m = s.manifestFile ∧ (c = s.clockFile ∨ c = r.clock))
    ∨ (m = r.manifest ∧ c = if r.changes = 0 then s.clockFile else r.clock)

theorem saveScanned_stored {r : ScanResult} (hc : s.Consistent share) :
    (saveScanned share r).wp h s (fun _ s' => ∃ m c, Stored share s m c s' ∧ Keeps r s m c)
      (fun _ s' => ∃ m c, Stored share s m c s' ∧ Keeps r s m c) := by
  have hstatus : ∀ {s₁ : ShareState} {m c}, Stored share s m c s₁ → Keeps r s m c →
      (updateRuntime share).wp h s₁ (fun _ s' => ∃ m c, Stored share s m c s' ∧ Keeps r s m c)
        (fun _ s' => ∃ m c, Stored share s m c s' ∧ Keeps r s m c) := by
    intro s₁ m c hs₁ hkeeps
    have hupdate := updateRuntime_spec (h := h) hs₁.consistent
    rw [hs₁.manifest, hs₁.clock] at hupdate
    exact wp_mono hupdate (fun _ s₂ hs₂ => ⟨m, c, hs₁.trans hs₂, hkeeps⟩)
      fun _ s₂ hs₂ => ⟨m, c, hs₁.trans hs₂.1, hkeeps⟩
  -- the manifest, once the clock is saved or needs no saving
  have hrest : ∀ {s₁ : ShareState} {c}, Stored share s s.manifestFile c s₁ →
      (c = if r.changes = 0 then s.clockFile else r.clock) →
      (Prog.when r.manifestChanged (saveManifest share r.manifest) >>= fun _ =>
        updateRuntime share).wp h s₁ (fun _ s' => ∃ m c, Stored share s m c s' ∧ Keeps r s m c)
        (fun _ s' => ∃ m c, Stored share s m c s' ∧ Keeps r s m c) := by
    intro s₁ c hs₁ hclock
    have hold : Keeps r s s.manifestFile c := by
      refine .inl ⟨rfl, ?_⟩
      rw [hclock]
      split
      · exact .inl rfl
      · exact .inr rfl
    rw [wp_bind]
    refine wp_when (fun _ => ?_) fun _ => hstatus hs₁ hold
    have hsave := saveManifest_spec (h := h) (m := r.manifest) hs₁.consistent
    rw [hs₁.manifest, hs₁.clock] at hsave
    refine wp_mono hsave ?_ ?_
    · rintro _ s₂ ⟨hs₂, -⟩
      exact hstatus (hs₁.trans hs₂) (.inr ⟨rfl, hclock⟩)
    · rintro _ s₂ ⟨hs₂ | ⟨-, hs₂⟩, -⟩
      · exact ⟨_, c, hs₁.trans hs₂, hold⟩
      · exact ⟨_, c, hs₁.trans hs₂, .inr ⟨rfl, hclock⟩⟩
  unfold saveScanned
  rw [wp_bind]
  refine wp_when (fun hn => ?_) fun hn => hrest (.refl hc) (by rw [if_pos (by omega)])
  refine wp_mono (saveClock_spec hc) ?_ ?_
  · rintro _ s₁ ⟨hs₁, -⟩
    exact hrest hs₁ (by rw [if_neg (by omega)])
  · rintro _ s₁ ⟨hs₁ | ⟨-, hs₁⟩, -⟩
    · exact ⟨_, _, hs₁, .inl ⟨rfl, .inl rfl⟩⟩
    · exact ⟨_, _, hs₁, .inl ⟨rfl, .inr rfl⟩⟩

/-- A scan goes forward: the clock still covers the manifest, no path loses its record, and a record
that changes gets a later version. -/
structure Forward (share : ActiveShare) (s s' : ShareState) : Prop where
  sound : Sound share s'
  kept : ∀ {p r}, s.manifestFile.record p = some r → ∃ r', s'.manifestFile.record p = some r'
    ∧ (r'.synced = r.synced ∨ r.version.stamp < r'.version.stamp)

theorem Forward.of_stored {c : ClockState} (hs : Sound share s)
    (hst : Stored share s s.manifestFile c s') (hle : s.clockFile.stamp ≤ c.stamp) :
    Forward share s s' where
  sound := .of_stored hst (hs.covers.mono hle)
  kept := fun {p r} hr => ⟨r, by rw [hst.manifest]; exact hr, .inl rfl⟩

theorem Forward.of_keeps {r : ScanResult} {m : Manifest} {c : ClockState} {unknown : Bool}
    {look : Str → Option Seen} (hs : Sound share s)
    (hre : Rescanned s.manifestFile s.clockFile share.localEndpointId unknown look r.manifest r.changes
      r.clock) (hst : Stored share s m c s') (hkeeps : Keeps r s m c) : Forward share s s' := by
  rcases hkeeps with ⟨rfl, rfl | rfl⟩ | ⟨rfl, hclock⟩
  · exact .of_stored hs hst le_rfl
  · exact .of_stored hs hst hre.later
  have hrecord := fun p => (hre.rescans p).synced_or_fresh hs.consistent.valid.separated
  have hle : s.clockFile.stamp ≤ c.stamp := by
    rw [hclock]
    split
    · exact le_rfl
    · exact hre.later
  -- when nothing has changed the clock stays, but then no version is fresh
  have hfresh : ∀ {p x}, Changed s.manifestFile unknown p (look p) →
      Fresh s.clockFile r.clock share.localEndpointId x → x.stamp ≤ c.stamp := by
    intro p x hchanged hx
    rw [hclock, if_neg fun hzero => hre.changes.mp hzero p hchanged]
    exact hx.upTo
  constructor
  · refine .of_stored hst fun p x hx => ?_
    rcases hrecord p with heq | ⟨hchanged, y, hy, hv⟩
    · rw [hx] at heq
      obtain ⟨y, hy, hyx⟩ := Option.map_eq_some_iff.mp heq.symm
      rw [← x.version_synced, ← hyx, y.version_synced]
      exact (hs.covers p y hy).trans hle
    · obtain rfl := Option.some.inj (hx.symm.trans hy)
      exact hfresh hchanged hv
  · intro p x hx
    rw [hst.manifest]
    rcases hrecord p with heq | ⟨-, y, hy, hv⟩
    · rw [hx] at heq
      obtain ⟨y, hy, hyx⟩ := Option.map_eq_some_iff.mp heq
      exact ⟨y, hy, .inl hyx⟩
    · exact ⟨y, hy, .inr ((hs.covers p x hx).trans_lt hv.after)⟩

/-- What a scan leaves behind: the two files as they were, or as `Keeps` says. -/
def ScanStored (share : ActiveShare) (s s' : ShareState) : Prop :=
  ∃ w m c, Stored share { s with world := w } m c s'
    ∧ ((m = s.manifestFile ∧ c = s.clockFile) ∨ ∃ r unknown look, Keeps r s m c
      ∧ Rescanned s.manifestFile s.clockFile share.localEndpointId unknown look r.manifest r.changes
        r.clock)

theorem scanAndSave_stored (hc : s.Consistent share) :
    (scanAndSave share).wp h s (fun _ s' => ScanStored share s s') (fun _ s' => ScanStored share s s') := by
  have hsame : ∀ {s₁ : ShareState}, Stored share s s.manifestFile s.clockFile s₁ → ScanStored share s s₁ :=
    fun hst => ⟨s.world, _, _, hst, .inl ⟨rfl, rfl⟩⟩
  have hprev : s.manifestFile.Valid s.manifestFile.shareId := by
    rw [hc.valid.share]
    exact hc.valid
  unfold scanAndSave
  refine wp_seq (localRoot_stored hc) ?_ fun _ _ hs₁ => hsame hs₁
  rintro root s₁ ⟨hroot, hs₁⟩
  rw [wp_bind]
  have hsnapshot := manifestSnapshot_spec (h := h) hs₁.consistent
  rw [hs₁.manifest, hs₁.clock] at hsnapshot
  refine wp_mono hsnapshot ?_ fun _ _ hs₂ => hsame (hs₁.trans hs₂.1)
  rintro _ s₂ ⟨rfl, hs₂⟩
  replace hs₂ := hs₁.trans hs₂
  rw [wp_bind]
  have hload := loadClock_spec (h := h) hs₂.consistent
  rw [hs₂.manifest, hs₂.clock] at hload
  refine wp_mono hload ?_ fun _ _ hs₃ => hsame (hs₂.trans hs₃.1)
  rintro _ s₃ ⟨rfl, -, hs₃⟩
  replace hs₃ := hs₂.trans hs₃
  rw [wp_bind]
  refine wp_nowMs hs₃.consistent fun nowMs s₄ hs₄ => ?_
  rw [hs₃.manifest, hs₃.clock] at hs₄
  replace hs₄ := hs₃.trans hs₄
  rw [wp_bind, wp_onDisk]
  have hroot₄ : s₄.world.disk.IsDir root := hs₄.same.disk ▸ hroot
  -- reading the tree changes the world but nothing that is stored
  have hread : ∀ {w : World}, ShareState.Consistent share { s₄ with world := w } := fun {w} =>
    ⟨hs₄.consistent.valid, hs₄.consistent.cache⟩
  have hsince : ∀ {w : World} {m : Manifest} {c : ClockState} {s' : ShareState},
      Stored share { s₄ with world := w } m c s' → Stored share { s with world := w } m c s' :=
    fun hst => ⟨hst.same, hst.manifest, hst.clock, hst.initial.trans hs₄.initial, hst.consistent⟩
  refine wp_mono (scan_spec hroot₄ hprev) ?_ fun _ w₅ _ => ?_
  · rintro r w₅ ⟨-, hre, -⟩
    have hstored : ∀ {s' : ShareState}, (∃ m c, Stored share { s₄ with world := w₅ } m c s'
        ∧ Keeps r { s₄ with world := w₅ } m c) → ScanStored share s s' := by
      rintro s' ⟨m, c, hst, hkeeps⟩
      refine ⟨w₅, m, c, hsince hst, .inr ⟨r, _, _, ?_, hre⟩⟩
      unfold Keeps at hkeeps ⊢
      rwa [show ({ s₄ with world := w₅ } : ShareState).manifestFile = s.manifestFile from hs₄.manifest,
        show ({ s₄ with world := w₅ } : ShareState).clockFile = s.clockFile from hs₄.clock] at hkeeps
    exact wp_mono (saveScanned_stored hread) (fun _ _ hs' => hstored hs') fun _ _ hs' => hstored hs'
  · have hst := hsince (Stored.refl (hread (w := w₅)))
    exact ⟨w₅, _, _, hst, .inl ⟨hs₄.manifest, hs₄.clock⟩⟩

theorem scanAndSave_forward (hs : Sound share s) :
    (scanAndSave share).wp h s (fun _ s' => Forward share s s') (fun _ s' => Forward share s s') := by
  have hforward : ∀ {s' : ShareState}, ScanStored share s s' → Forward share s s' := by
    rintro s' ⟨w, m, c, hst, hfiles⟩
    have hread : Sound share { s with world := w } :=
      ⟨⟨hs.consistent.valid, hs.consistent.cache⟩, hs.covers⟩
    have hdone : Forward share { s with world := w } s' := by
      rcases hfiles with ⟨rfl, rfl⟩ | ⟨r, unknown, look, hkeeps, hre⟩
      · exact .of_stored hread hst le_rfl
      · exact .of_keeps hread hre hst hkeeps
    exact ⟨hdone.sound, hdone.kept⟩
  exact wp_mono (scanAndSave_stored hs.consistent) (fun _ _ hs' => hforward hs') fun _ _ hs' => hforward hs'

end Scan

/-! ## Runs -/

namespace Turn

variable [Crypto]

/-- An application brings no link that is ahead. -/
def LinksCovered (x : Turn) : Prop :=
  match x.round with
  | .apply remote fileData => Syncbox.LinksCovered x.before remote fileData
  | _ => True

/-- The state a round ends in. -/
def after (share : ActiveShare) (x : Turn) : ShareState := x.round.after share x.host x.before

end Turn

section Runs

variable [Crypto] {share : ActiveShare} {s : ShareState} {rounds : List (Host × Round)}

theorem Turn.sound_after {x : Turn} (hs : Sound share x.before)
    (hremote : ∀ remote ∈ x.round.remote?, remote.Valid share.shareId) (hlinks : x.LinksCovered) :
    Sound share (x.after share) := by
  obtain ⟨s, h, round⟩ := x
  cases round with
  | scan =>
      refine Round.after_of_wp (P := Sound share) ?_
      exact wp_mono (scanAndSave_forward hs) (fun _ _ hf => hf.sound) fun _ _ hf => hf.sound
  | apply remote fileData =>
      refine Round.after_of_wp (P := Sound share) ?_
      show (applyRemoteTransferImpl share remote fileData >>= fun _ => pure ()).wp h s _ _
      rw [wp_bind]
      exact apply_sound hs (hremote remote rfl) hlinks
  | edit world => exact ⟨⟨hs.consistent.valid, hs.consistent.cache⟩, hs.covers⟩

theorem sound_turns (hs : Sound share s)
    (hremote : ∀ x ∈ rounds, ∀ remote ∈ x.2.remote?, remote.Valid share.shareId)
    (hlinks : ∀ x ∈ turns share s rounds, x.LinksCovered) :
    ∀ x ∈ turns share s rounds, Sound share x.before := by
  induction rounds generalizing s with
  | nil => exact fun _ hx => by cases hx
  | cons r rounds ih =>
      obtain ⟨h, r⟩ := r
      have hafter := Turn.sound_after (x := ⟨s, h, r⟩) hs (hremote (h, r) List.mem_cons_self)
        (hlinks _ List.mem_cons_self)
      intro x hx
      rcases List.mem_cons.mp hx with rfl | hx
      · exact hs
      · exact ih hafter (fun y hy => hremote y (List.mem_cons_of_mem _ hy))
          (fun y hy => hlinks y (List.mem_cons_of_mem _ hy)) x hx

/-- A share as `register_join` and `init` leave it: with an empty manifest, or with what a first scan
has found. -/
inductive Created (share : ActiveShare) (s : ShareState) : Prop
  | join (nowMs : U64) (manifest : s.manifestFile = .empty share.shareId nowMs)
      (clock : s.clockFile = .new) (cache : s.manifestCache = none)
  | init (h : Host) (w w' : World) (root : Loc) (nowMs : U64) (r : ScanResult) (dir : w.disk.IsDir root)
      (scan : scanManifestCachedAfterValidation root (.empty share.shareId nowMs) .new
        share.localEndpointId nowMs h w = .ok r w')
      (manifest : s.manifestFile = { r.manifest with scannedAtMs := nowMs }) (clock : s.clockFile = r.clock)
      (cache : s.manifestCache = none)

theorem Created.sound (hs : Created share s) : Sound share s := by
  cases hs with
  | join nowMs manifest clock cache =>
      refine ⟨⟨manifest ▸ Manifest.valid_empty _ _, fun _ hsome => by rw [cache] at hsome; cases hsome⟩, ?_⟩
      intro p r hr
      rw [manifest, (Manifest.holds_empty share.shareId nowMs).record_eq] at hr
      cases hr
  | init h w w' root nowMs r dir scan manifest clock cache =>
      have hempty := Manifest.holds_empty share.shareId nowMs
      obtain ⟨-, hre, hvalid, -⟩ := wp_ok (scan_spec dir (Manifest.valid_empty share.shareId nowMs)) scan
      refine ⟨⟨?_, fun _ hsome => by rw [cache] at hsome; cases hsome⟩, ?_⟩
      · rw [manifest]
        -- the time of a scan is not validated
        exact Manifest.validate_eq_ok.mp (show r.manifest.validate share.shareId = .ok () from
          Manifest.validate_eq_ok.mpr hvalid)
      · intro p x hx
        rw [manifest] at hx
        rw [clock]
        rcases (hre.rescans p).synced_or_fresh hempty.separated with heq | ⟨-, y, hy, hv⟩
        · rw [hempty.record_eq, show r.manifest.record p = some x from hx] at heq
          cases heq
        · obtain rfl := Option.some.inj (hx.symm.trans hy)
          exact hv.upTo

/-- In a run that never brings a link that is ahead of the clock, a scan gives a new version to
whatever it changes — all but the local time of a file counts — and the new version is later than
the one before and wins against the record it replaces. -/
theorem scans_supersede (hs : Created share s)
    (hremote : ∀ x ∈ rounds, ∀ remote ∈ x.2.remote?, remote.Valid share.shareId)
    (hlinks : ∀ x ∈ turns share s rounds, x.LinksCovered) :
    ∀ x ∈ turns share s rounds, x.round = .scan → ∀ p r, x.before.manifestFile.record p = some r →
      ∃ r', (x.after share).manifestFile.record p = some r'
        ∧ (r'.synced ≠ r.synced → r'.version ≠ r.version)
        ∧ (r'.version ≠ r.version → r.version < r'.version ∧ selectRecord (some r) (some r') = some r'
          ∧ selectRecord (some r') (some r) = some r') := by
  intro x hx hscan p r hr
  have hbefore : Sound share x.before := sound_turns hs.sound hremote hlinks x hx
  have hforward : Forward share x.before (x.after share) := by
    rw [Turn.after, hscan]
    exact Round.after_of_wp (scanAndSave_forward hbefore)
  obtain ⟨r', hr', hkept⟩ := hforward.kept hr
  have hlater : r'.synced ≠ r.synced → r.version < r'.version := fun hne =>
    HlcTimestamp.lt_of_stamp_lt (hkept.resolve_left hne)
  refine ⟨r', hr', fun hne => (hlater hne).ne', fun hne => ?_⟩
  have hlt := hlater fun hsame => hne <| by
    rw [← r'.version_synced, hsame, r.version_synced]
  refine ⟨hlt, ?_, ?_⟩
  · simp only [selectRecord, compare_lt_iff_lt.mpr hlt]
  · simp only [selectRecord, compare_gt_iff_gt.mpr hlt]

end Runs

/-! ## A link that is ahead -/

section Examples

/-- One link, of a wall time. -/
def oneLink (wallMs : U64) : Manifest :=
  { Manifest.empty plainShare.shareId 0 with
    symlinks := (∅ : BTreeMap Str SymlinkEntry).insert ['a'] ⟨['t'], .ofWall wallMs⟩ }

/-- The link arrives, someone removes it, and the share is scanned. -/
def linkRemoved (wallMs : U64) : List (Host × Round) :=
  [(.quiet, .apply (oneLink wallMs) ∅), (.quiet, .edit ⟨plainDisk, 0, []⟩), (.quiet, .scan)]

/-- The tombstone of the scan, at wall time 0. -/
def removedFirst : Tombstone := ⟨⟨0, 1, plainShare.localEndpointId⟩⟩

theorem scans_supersede_link :
    let _ := Crypto.plain
    Created plainShare joined
      ∧ (∀ x ∈ linkRemoved 0, ∀ remote ∈ x.2.remote?, remote.Valid plainShare.shareId)
      ∧ (∀ x ∈ turns plainShare joined (linkRemoved 0), x.LinksCovered)
      ∧ ∃ x ∈ turns plainShare joined (linkRemoved 0), x.round = .scan
        ∧ x.before.manifestFile.record ['a'] = some (.symlink ⟨['t'], .ofWall 0⟩)
        ∧ (x.after plainShare).manifestFile.record ['a'] = some (.tombstone removedFirst)
        ∧ HlcTimestamp.ofWall 0 < removedFirst.version := by
  intro _
  have hcreated : Created plainShare joined := .join 0 rfl rfl rfl
  have hremote : ∀ x ∈ linkRemoved 0, ∀ remote ∈ x.2.remote?, remote.Valid plainShare.shareId := by
    intro x hx remote hr
    simp only [linkRemoved, List.mem_cons, List.not_mem_nil, or_false] at hx
    rcases hx with rfl | rfl | rfl
    · cases hr
      decide +kernel
    · cases hr
    · cases hr
  have hlinks : ∀ x ∈ turns plainShare joined (linkRemoved 0), x.LinksCovered := by
    intro x hx
    simp only [linkRemoved, turns, List.mem_cons, List.not_mem_nil, or_false] at hx
    rcases hx with rfl | rfl | rfl
    · intro p e hw
      have hlink := Manifest.record_symlink hw.1
      change ((∅ : BTreeMap Str SymlinkEntry).insert ['a'] _)[p]? = some e at hlink
      rw [lookup_insert] at hlink
      split at hlink
      · cases hlink
        exact .inl le_rfl
      · cases hlink
    · trivial
    · trivial
  obtain ⟨x, hx, hscan, hbefore, hafter⟩ : ∃ x ∈ turns plainShare joined (linkRemoved 0),
      x.round = .scan ∧ x.before.manifestFile.record ['a'] = some (.symlink ⟨['t'], .ofWall 0⟩)
        ∧ (x.after plainShare).manifestFile.record ['a'] = some (.tombstone removedFirst) :=
    ⟨_, List.mem_cons_of_mem _ (List.mem_cons_of_mem _ List.mem_cons_self), rfl, by decide +kernel,
      by decide +kernel⟩
  obtain ⟨r', hr', hchanged, hnewer⟩ := scans_supersede hcreated hremote hlinks x hx hscan ['a'] _ hbefore
  obtain rfl := Option.some.inj (hafter.symm.trans hr')
  exact ⟨hcreated, hremote, hlinks, x, hx, hscan, hbefore, hafter, (hnewer (hchanged (by decide))).1⟩

/-- A link of wall time 7 arrives while the clock stands at 0, and is not observed.  Removed there
and scanned, it gets a tombstone that is older, so the removal loses against the link. -/
theorem link_ahead_survives :
    let _ := Crypto.plain
    Created plainShare joined ∧ (oneLink 7).Valid plainShare.shareId
      ∧ ∃ x ∈ turns plainShare joined (linkRemoved 7), x.round = .scan
        ∧ x.before.manifestFile.record ['a'] = some (.symlink ⟨['t'], .ofWall 7⟩)
        ∧ (x.after plainShare).manifestFile.record ['a'] = some (.tombstone removedFirst)
        ∧ removedFirst.version < HlcTimestamp.ofWall 7
        ∧ selectRecord (some (.symlink ⟨['t'], .ofWall 7⟩)) (some (.tombstone removedFirst))
          = some (.symlink ⟨['t'], .ofWall 7⟩) := by
  intro _
  exact ⟨.join 0 rfl rfl rfl, by decide +kernel, _,
    List.mem_cons_of_mem _ (List.mem_cons_of_mem _ List.mem_cons_self), rfl, by decide +kernel,
    by decide +kernel, by decide, by decide⟩

end Examples

end Syncbox

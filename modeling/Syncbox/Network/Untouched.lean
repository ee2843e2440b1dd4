/-
# `Syncbox.Network.Untouched` — what a failed application cannot touch

An application changes the tree step by step and saves the manifest at the end, so one that
fails leaves a tree that fits neither manifest, and the next scan takes the difference for
local edits.  How far this can spread is bounded by the plan: a step changes its own path,
and of the paths above it at most that they exist and what mode they have.

Here a path is followed through a whole run of applications and scans, each of which may
fail at any call.  As long as no remote record wins at the path or below it, its node stays
and its record keeps its version.  So what a failed application can make a scan publish is
confined to the paths that it was about to change and those above them.  There it does
happen: a directory that was made before the save failed gets a version of this device, later
than the one it came with.
-/
import Syncbox.Network.Dominance
import Syncbox.Network.Feasible

namespace Syncbox

open Rust Unix Prog

/-! ## Steps elsewhere -/

section Steps

variable [Crypto] {h : Host} {tmp root : Loc} {local_ remote : Manifest} {w w' : World}
  {fileData : BTreeMap Str IncomingFile} {l : List (Planned × Bool)} {q : Str}

/-- A step at `p` has nothing to do with `q`. -/
def Off (q p : Str) : Prop := q ≠ p ∧ ¬ IsAncestor q p

omit [Crypto] in
theorem Effect.off {op : Planned} (heff : Effect root op.path (op.staging h tmp) w w')
    (ht : Tidy tmp root w.disk) (hop : op.Sound tmp) (hc : Canonical op.path) (hq : Off q op.path) :
    w'.disk.get (root ++ split q) = w.disk.get (root ++ split q) := by
  refine heff.changes.frame ?_
  rintro ((hchain | htarget) | hstaging)
  · exact hq.2 ((place_mem_chain hc).mp hchain)
  · rw [Set.mem_singleton_iff, target_eq hc] at htarget
    exact hq.1 (place_injective htarget)
  · exact (ht.staging.apart (Planned.staging_subset hop.delivered) _ hstaging).1 (List.prefix_append _ _)

theorem run_off (hr : Run h tmp root local_ w l w') (ht : Tidy tmp root w.disk)
    (hsound : ∀ y ∈ l, y.1.Sound tmp) (hcan : ∀ y ∈ l, Canonical y.1.path)
    (hq : ∀ y ∈ l, Off q y.1.path) :
    w'.disk.get (root ++ split q) = w.disk.get (root ++ split q) := by
  induction hr with
  | nil => rfl
  | @snoc l w x w' run did ih =>
      have hbefore : ∀ z ∈ l, z ∈ l ++ [x] := fun z hz => List.mem_append_left _ hz
      have hx : x ∈ l ++ [x] := by simp
      have hold := ih (fun z hz => hsound z (hbefore z hz)) (fun z hz => hcan z (hbefore z hz))
        fun z hz => hq z (hbefore z hz)
      have htidy := run.tidy (fun z hz => hsound z (hbefore z hz)) ht
      exact (did.effect.off htidy (hsound x hx) (hcan x hx) (hq x hx)).trans hold

/-- No remote record wins at the path or below it. -/
def Avoids (local_ remote : Manifest) (q : Str) : Prop :=
  ∀ p r, Wins local_ remote p r → Off q p

theorem applyTree_off {shareId : ShareId} (hremote : remote.Valid shareId)
    (hcanonical : remote.CanonicalPaths) (hdata : Delivers tmp fileData)
    (ht : Tidy tmp root w.disk) (hq : Avoids local_ remote q) :
    (applyTree tmp root local_ remote fileData).wp h w
      (fun _ w' => Tidy tmp root w'.disk
        ∧ w'.disk.get (root ++ split q) = w.disk.get (root ++ split q))
      (fun _ w' => Tidy tmp root w'.disk
        ∧ w'.disk.get (root ++ split q) = w.disk.get (root ++ split q)) := by
  have hsound : ∀ op ∈ plan local_ remote fileData, op.Sound tmp := fun op hop =>
    (plan_sound hremote hdata op hop).1
  have hwins : ∀ op ∈ plan local_ remote fileData, Canonical op.path ∧ Off q op.path := by
    intro op hop
    obtain ⟨r, hr⟩ := plan_wins hremote.separated hop
    exact ⟨hcanonical hr.1, hq _ _ hr⟩
  refine wp_mono (applyTree_run hremote hdata ht) ?_ ?_
  · rintro _ w' ⟨l, hl, hr, -⟩
    have hmem : ∀ y ∈ l, y.1 ∈ plan local_ remote fileData := fun y hy => hl ▸ List.mem_map_of_mem hy
    exact ⟨hr.tidy (fun y hy => hsound _ (hmem y hy)) ht,
      run_off hr ht (fun y hy => hsound _ (hmem y hy)) (fun y hy => (hwins _ (hmem y hy)).1)
        fun y hy => (hwins _ (hmem y hy)).2⟩
  · rintro _ w' ⟨l, op, post, w₁, hplan, hr, hfailed⟩
    have hmem : ∀ y ∈ l, y.1 ∈ plan local_ remote fileData := fun y hy => by
      rw [hplan]
      exact List.mem_append_left _ (List.mem_map_of_mem hy)
    have hop : op ∈ plan local_ remote fileData := by
      rw [hplan]
      exact List.mem_append_right _ List.mem_cons_self
    have htidy := hr.tidy (fun y hy => hsound _ (hmem y hy)) ht
    have hrun := run_off hr ht (fun y hy => hsound _ (hmem y hy)) (fun y hy => (hwins _ (hmem y hy)).1)
      fun y hy => (hwins _ (hmem y hy)).2
    exact ⟨htidy.of_effect (hsound op hop) hfailed.1,
      (hfailed.1.off htidy (hsound op hop) (hwins op hop).1 (hwins op hop).2).trans hrun⟩

end Steps

/-! ## Rounds -/

section Rounds

variable [Crypto] {share : ActiveShare} {h : Host} {s s' : ShareState} {remote : Manifest}
  {fileData : BTreeMap Str IncomingFile} {q : Str}

/-- The share is in order around a path: what stands there is what is recorded. -/
structure Around (share : ActiveShare) (q : Str) (s : ShareState) : Prop where
  consistent : s.Consistent share
  format : s.manifestFile.formatVersion = MANIFEST_FORMAT_VERSION
  tidy : Tidy share.shareTmpDir share.localDirectory s.world.disk
  depicts : Depicts (s.manifestFile.record q) (s.world.disk.get (share.localDirectory ++ split q))

/-- The path has what it had. -/
structure KeptAt (share : ActiveShare) (q : Str) (s s' : ShareState) : Prop where
  around : Around share q s'
  node : s'.world.disk.get (share.localDirectory ++ split q)
    = s.world.disk.get (share.localDirectory ++ split q)
  record : Level (s'.manifestFile.record q) (s.manifestFile.record q)

theorem KeptAt.trans {s'' : ShareState} (h₁ : KeptAt share q s s') (h₂ : KeptAt share q s' s'') :
    KeptAt share q s s'' :=
  ⟨h₂.around, h₂.node.trans h₁.node, Eq.trans h₂.record h₁.record⟩

theorem Around.kept (hs : Around share q s) (hc : s'.Consistent share)
    (hformat : s'.manifestFile.formatVersion = s.manifestFile.formatVersion)
    (hrecord : s'.manifestFile.record q = s.manifestFile.record q)
    (htidy : Tidy share.shareTmpDir share.localDirectory s'.world.disk)
    (hnode : s'.world.disk.get (share.localDirectory ++ split q)
      = s.world.disk.get (share.localDirectory ++ split q)) : KeptAt share q s s' := by
  refine ⟨⟨hc, hformat.trans hs.format, htidy, ?_⟩, hnode, congrArg _ hrecord⟩
  rw [hrecord, hnode]
  exact hs.depicts

theorem Around.kept_stored {c : ClockState} (hs : Around share q s)
    (hst : Stored share s s.manifestFile c s') : KeptAt share q s s' := by
  have hdisk := hst.same.disk
  refine hs.kept hst.consistent (by rw [hst.manifest]) (by rw [hst.manifest]) ?_ (by rw [hdisk])
  rw [hdisk]
  exact hs.tidy

theorem scan_kept (hs : Around share q s) : (scanAndSave share).wp h s
    (fun _ s' => KeptAt share q s s') fun _ s' => KeptAt share q s s' := by
  have hsaved : ∀ {n s'}, ScanFrame share s s' → ScanSaved share s n s' → KeptAt share q s s' := by
    rintro n s' hframe ⟨⟨m, c, hgives, hrecord, -⟩, hformat⟩
    have hlevel : Level (s'.manifestFile.record q) (s.manifestFile.record q) := by
      rw [hrecord]
      refine (hgives.rescans q).synced_of_not_changed hs.consistent.valid.separated ?_
      rw [sight, unknownPermissionsMatch_current hs.format]
      exact hs.depicts.unchanged hs.consistent.valid
    refine ⟨⟨hframe.consistent, hformat, ?_, ?_⟩, ?_, hlevel⟩
    · rw [hframe.disk]
      exact hs.tidy
    · rw [hframe.disk]
      exact hs.depicts.level hlevel
    · rw [hframe.disk]
  refine wp_mono (scanAndSave_spec hs.tidy.dir hs.consistent) ?_ ?_
  · rintro _ s' ⟨hframe, n, hn⟩
    exact hsaved hframe hn
  · rintro _ s' ⟨hframe, hstarted | ⟨n, hn⟩, -⟩
    · refine hs.kept hframe.consistent (by rw [hstarted.manifest]) (by rw [hstarted.manifest]) ?_
        (by rw [hframe.disk])
      rw [hframe.disk]
      exact hs.tidy
    · exact hsaved hframe hn

theorem apply_kept (hs : Around share q s) (hremote : remote.Valid share.shareId)
    (hcanonical : remote.CanonicalPaths) (hdata : Delivers share.shareTmpDir fileData)
    (hq : Avoids s.manifestFile remote q) : (applyRemoteTransferImpl share remote fileData).wp h s
    (fun _ s' => KeptAt share q s s') fun _ s' => KeptAt share q s s' := by
  refine apply_exits hs.consistent (fun hst => hs.kept_stored hst) fun {root s₁} hopen => ?_
  obtain rfl := hopen.root_eq hs.tidy.dir
  have hm := hopen.stored.manifest
  have hdisk := hopen.stored.same.disk
  have ht : Tidy share.shareTmpDir share.localDirectory s₁.world.disk := hdisk ▸ hs.tidy
  refine wp_mono (wp_both (applyTree_off hremote hcanonical hdata ht hq)
    (applyTree_run hremote hdata ht)) ?_ ?_
  · rintro a w ⟨⟨htidy, hnode⟩, l, hl, hr, rfl⟩ s' m c hst hsaved
    obtain ⟨hholds, hformat, -⟩ := hr.overlaid hs.consistent.valid.separated hremote.separated hl
    have hrecord : (Applying.afterAll s.manifestFile l).candidate.record q = s.manifestFile.record q := by
      rw [hholds.record_eq]
      refine overlay_of_not_brings fun x hx hpath => ?_
      obtain ⟨r, hr⟩ := plan_wins hremote.separated (hl ▸ List.mem_map_of_mem hx)
      exact absurd hpath.symm (hq _ _ hr).1
    have hkept : m.record q = s.manifestFile.record q
        ∧ m.formatVersion = s.manifestFile.formatVersion := by
      rcases hsaved with rfl | ⟨nowMs, rfl⟩
      · exact ⟨rfl, rfl⟩
      · exact ⟨hrecord, hformat⟩
    have hworld : s'.world.disk = w.disk := hst.same.disk
    refine hs.kept hst.consistent (hst.manifest ▸ hkept.2) (hst.manifest ▸ hkept.1) ?_ ?_
    · rw [hworld]
      exact htidy
    · rw [hworld, hnode, hdisk]
  · rintro _ w ⟨⟨htidy, hnode⟩, -⟩
    refine hs.kept ⟨hopen.stored.consistent.valid, hopen.stored.consistent.cache⟩ ?_ ?_ htidy ?_
    · exact congrArg Manifest.formatVersion hm
    · exact congrArg (Manifest.record · q) hm
    · exact hnode.trans (by rw [hdisk])

/-- A round that has nothing to do with the path. -/
def Turn.Avoids (share : ActiveShare) (q : Str) (x : Turn) : Prop :=
  match x.round with
  | .scan => True
  | .apply remote fileData => remote.Valid share.shareId ∧ remote.CanonicalPaths
      ∧ Delivers share.shareTmpDir fileData ∧ Syncbox.Avoids x.before.manifestFile remote q
  | .edit world => Tidy share.shareTmpDir share.localDirectory world.disk
      ∧ world.disk.get (share.localDirectory ++ split q)
        = x.before.world.disk.get (share.localDirectory ++ split q)

theorem Turn.kept {x : Turn} (hs : Around share q x.before) (hx : x.Avoids share q) :
    KeptAt share q x.before (x.after share) := by
  obtain ⟨s, h, round⟩ := x
  cases round with
  | scan => exact Round.after_of_wp (P := KeptAt share q s) (scan_kept hs)
  | apply remote fileData =>
      obtain ⟨hremote, hcanonical, hdata, hq⟩ := hx
      refine Round.after_of_wp (P := KeptAt share q s) ?_
      show Prog.wp (applyRemoteTransferImpl share remote fileData >>= fun _ => pure ()) _ _ _ _
      exact wp_seq (apply_kept hs hremote hcanonical hdata hq) (fun _ _ hk => hk) fun _ _ hk => hk
  | edit world =>
      exact hs.kept ⟨hs.consistent.valid, hs.consistent.cache⟩ rfl rfl hx.1 hx.2

/-- A path at which no remote record wins, nor below it, is left alone by every run of scans,
applications and edits elsewhere, wherever they fail.  Its node stays, and no scan gives it a
version. -/
theorem rounds_leave_untouched {rounds : List (Host × Round)} (hs : Around share q s)
    (hrounds : ∀ x ∈ turns share s rounds, x.Avoids share q) :
    ∀ x ∈ turns share s rounds,
      (x.after share).world.disk.get (share.localDirectory ++ split q)
        = s.world.disk.get (share.localDirectory ++ split q)
      ∧ ((x.after share).manifestFile.record q).map ManifestRecord.synced
        = (s.manifestFile.record q).map ManifestRecord.synced := by
  suffices hall : ∀ {s₀}, KeptAt share q s₀ s → ∀ x ∈ turns share s rounds,
      KeptAt share q s₀ (x.after share) by
    have hstart : KeptAt share q s s := ⟨hs, rfl, rfl⟩
    intro x hx
    have hk := hall hstart x hx
    exact ⟨hk.node, hk.record⟩
  induction rounds generalizing s with
  | nil =>
      intro s₀ _ x hx
      cases hx
  | cons r rounds ih =>
      intro s₀ hk x hx
      have hfirst : KeptAt share q s (r.2.after share r.1 s) :=
        Turn.kept (x := ⟨s, r.1, r.2⟩) hs (hrounds _ List.mem_cons_self)
      rcases List.mem_cons.mp hx with rfl | hx
      · exact hk.trans hfirst
      · exact ih hfirst.around (fun y hy => hrounds y (List.mem_cons_of_mem _ hy)) (hk.trans hfirst) x hx

end Rounds

/-! ## A directory beside a link -/

/-- A directory to be made beside the link of `linkOut`. -/
def beside : Manifest :=
  { Manifest.empty plainShare.shareId 0 with
    directories := (∅ : BTreeMap Str DirectoryEntry).insert ['b'] ⟨some 0o700, .ofWall 2⟩ }

/-- A host on which the manifest cannot be saved. -/
def unsaving : Host := { Host.quiet with fault := fun n => n == 13 }

theorem beside_record (p : Str) :
    beside.record p = if ['b'] = p then some (.directory ⟨some 0o700, .ofWall 2⟩) else none := by
  simp only [Manifest.record, beside, lookup_insert, Manifest.empty]
  split_ifs <;> simp

theorem avoids_beside (m : Manifest) : Avoids m beside ['a'] := by
  rintro p r ⟨hr, -⟩
  rw [beside_record] at hr
  split_ifs at hr with hp
  subst hp
  refine ⟨by decide, ?_⟩
  rintro ⟨rest, hrest⟩
  cases hrest

/-- The application fails after the directory was made, and a scan follows. -/
theorem rounds_leave_untouched_beside :
    let _ := Crypto.plain
    Around plainShare ['a'] linked
      ∧ ((applyRemoteTransferImpl plainShare beside ∅).failure unsaving linked).isSome = true
      ∧ ∀ x ∈ turns plainShare linked [(unsaving, .apply beside ∅), (.quiet, .scan)],
        (x.after plainShare).world.disk.get [['s'], ['a']] = some (.symlink ['/'])
        ∧ ((x.after plainShare).manifestFile.record ['a']).map ManifestRecord.synced
          = some (.symlink ⟨['/'], .ofWall 1⟩) := by
  intro _
  have hs : Around plainShare ['a'] linked :=
    ⟨⟨by decide +kernel, fun _ hsome => by cases hsome⟩, rfl,
      ⟨⟨0o755, by decide +kernel⟩, ⟨⟨0o755, by decide +kernel⟩, by decide, by decide⟩⟩,
      realizes_linked.each (show ∀ part ∈ split ['a'], isFileName part = true by decide)⟩
  have hfailed : ((applyRemoteTransferImpl plainShare beside ∅).failure unsaving linked).isSome = true := by
    decide +kernel
  have hvalid : beside.Valid plainShare.shareId := by decide +kernel
  have hcanonical : beside.CanonicalPaths := by decide +kernel
  have hnode : linked.world.disk.get [['s'], ['a']] = some (.symlink ['/']) := by
    rw [linked_get, if_pos rfl]
  have hrecord : linked.manifestFile.record ['a'] = some (.symlink ⟨['/'], .ofWall 1⟩) := by
    rw [show linked.manifestFile = linkOut from rfl, linkOut_record, if_pos rfl]
  -- nothing else is used of that state
  generalize linked = s at hs hfailed hnode hrecord ⊢
  have hrounds : ∀ x ∈ turns plainShare s [(unsaving, .apply beside ∅), (.quiet, .scan)],
      x.Avoids plainShare ['a'] := by
    intro x hx
    rcases List.mem_cons.mp hx with rfl | hx
    · exact ⟨hvalid, hcanonical, fun _ _ hnone => by simp at hnone, avoids_beside _⟩
    · rw [List.mem_singleton.mp hx]
      trivial
  refine ⟨hs, hfailed, fun x hx => ?_⟩
  obtain ⟨hkept, hlevel⟩ := rounds_leave_untouched hs hrounds x hx
  rw [hrecord] at hlevel
  exact ⟨hkept.trans hnode, hlevel⟩

end Syncbox

/-
# `Syncbox.Network.Unchanged` — equal digests

When both sides announce one digest, `sync_with_peer` and `handle_sync_stream` skip the exchange.
A digest is computed from everything but modification times, so the two manifests hold the same
records up to these (`SyncEq`).  Nothing in the exchange looks at modification times: no record
wins on the other side, no file is to be brought over, and what was skipped would have done
nothing but look (`unchanged_exchange`).
-/
import Syncbox.Lib.Unix.Look
import Syncbox.Network.Plan

namespace Syncbox

open Rust Unix Prog

/-! ## Nothing wins, nothing is missing -/

section InStep

variable {local_ remote : Manifest} (heq : local_.SyncEq remote)
include heq

theorem Manifest.SyncEq.not_wins (p : Str) :
    remoteRecordWins (local_.record p) (remote.record p) = false := by
  cases hr : remote.record p with
  | none => cases local_.record p <;> rfl
  | some r =>
      obtain ⟨l, hl, hsynced⟩ := heq.symm.exists_record hr
      have hversion : r.version = l.version := by
        rw [← ManifestRecord.version_synced, hsynced, ManifestRecord.version_synced]
      have htombstone : r.isTombstone = l.isTombstone := by
        rw [← ManifestRecord.isTombstone_synced, hsynced, ManifestRecord.isTombstone_synced]
      rw [hl]
      simp [remoteRecordWins, hversion, htombstone]

theorem Manifest.SyncEq.winners_eq_nil {V : Type} {records : BTreeMap Str V} {wrap : V → ManifestRecord}
    (hrecord : ∀ p v, records[p]? = some v → remote.record p = some (wrap v)) :
    winners local_ records wrap = [] := by
  refine List.filter_eq_nil_iff.mpr ?_
  intro x hx
  have hx := hrecord x.1 x.2 (Std.ExtTreeMap.mem_toList_iff_getElem?_eq_some.mp hx)
  rw [← hx, heq.not_wins]
  exact Bool.false_ne_true

theorem Manifest.SyncEq.candidates_eq_nil : candidates local_ remote = [] := by
  refine List.eq_nil_iff_forall_not_mem.mpr ?_
  intro x hx
  obtain ⟨hrecord, -, hcontent⟩ := mem_candidates.mp hx
  obtain ⟨l, hl, hsynced⟩ := heq.symm.exists_record hrecord
  rw [hl] at hcontent
  cases l with
  | file e =>
      have hfields := ManifestEntry.mk.inj (ManifestRecord.file.inj hsynced)
      simp [contentMatches, hfields.1, hfields.2.2.1] at hcontent
  | directory e => cases hsynced
  | symlink e => cases hsynced
  | tombstone e => cases hsynced

end InStep

/-! ## What the exchange would do -/

section Exchange

variable [Crypto] {local_ remote : Manifest} {shareId : ShareId}

theorem Manifest.SyncEq.of_digestInput (hlocal : local_.Valid shareId) (hremote : remote.Valid shareId)
    (heq : local_.digestInput = remote.digestInput) : local_.SyncEq remote := by
  obtain ⟨-, -, hmaps⟩ :=
    (Manifest.digestInput_eq_iff_shared hlocal.lengthsFit hremote.lengthsFit).mp heq
  exact (Manifest.syncEq_iff_shared hlocal.separated hremote.separated).mpr hmaps

theorem Manifest.SyncEq.planDownloads_eq (heq : local_.SyncEq remote) (tmp : PathBuf) (h : Host) (w : World) :
    planDownloads tmp local_ remote.entries.toList ([], []) h w = .ok ([], []) w := by
  have hnone : ∀ x ∈ remote.entries.toList, (remoteSelected (local_.record x.1) (.file x.2)
      && !contentMatches (local_.record x.1) x.2) = false := by
    intro x hx
    have := List.filter_eq_nil_iff.mp heq.candidates_eq_nil x hx
    exact Bool.not_eq_true _ |>.mp this
  generalize remote.entries.toList = entries at hnone
  induction entries with
  | nil => rfl
  | cons x rest ih =>
      rw [planDownloads, hnone x List.mem_cons_self]
      exact ih fun y hy => hnone y (List.mem_cons_of_mem _ hy)

theorem Manifest.SyncEq.makeTransferRequest_eq (heq : local_.SyncEq remote) (tmp : PathBuf) (h : Host)
    (w : World) : makeTransferRequest tmp shareId local_ remote h w
      = .ok (⟨PROTOCOL_VERSION, shareId, [], [], []⟩, 0) w := by
  have hplan := heq.planDownloads_eq tmp h w
  show EStateM.bind (planDownloads tmp local_ remote.entries.toList ([], []) h) _ w = _
  rw [EStateM.bind, hplan, uploadCandidates_eq, heq.symm.candidates_eq_nil]
  rfl

theorem Manifest.SyncEq.applyTree_eq (heq : local_.SyncEq remote) (hsep : remote.Separated)
    (tmp root : PathBuf) (fileData : BTreeMap Str IncomingFile) :
    applyTree tmp root local_ remote fileData = pure ⟨local_, false, 0, 0⟩ := by
  unfold applyTree deletions directoryPermissions
  rw [heq.winners_eq_nil fun p t ht => (hsep.tombstones_iff).mpr ht,
    heq.winners_eq_nil fun p d hd => (hsep.directories_iff).mpr hd,
    heq.winners_eq_nil fun p l hl => (hsep.symlinks_iff).mpr hl,
    heq.winners_eq_nil fun p e he => Manifest.record_file_iff.mpr he]
  rfl

end Exchange

section Apply

variable [Crypto] {share : ActiveShare} {h : Host} {s : ShareState}

/-- Nothing was stored: neither the manifest, whose generation counts its saves, nor the clock, and
nothing on the disk was touched. -/
def Untouched (share : ActiveShare) (s s' : ShareState) : Prop :=
  Stored share s s.manifestFile s.clockFile s' ∧ s'.manifestGeneration = s.manifestGeneration

theorem manifestSnapshot_untouched (hc : s.Consistent share) :
    (manifestSnapshot share).wp h s
      (fun snapshot s' => snapshot = .fromValidated s.manifestFile ∧ Untouched share s s')
      (fun _ s' => Untouched share s s' ∧ ¬ ∀ n, h.fault n = false) := by
  have hkeeps : (manifestSnapshot share).wp h s
      (fun _ s' => s'.manifestGeneration = s.manifestGeneration)
      (fun _ s' => s'.manifestGeneration = s.manifestGeneration) := by
    unfold manifestSnapshot
    rw [wp_bind, wp_get]
    cases s.manifestCache with
    | some snapshot => rfl
    | none =>
        dsimp only
        unfold loadManifest
        rw [wp_bind, wp_bind]
        unfold readJson
        by_cases hfault : h.fault s.world.calls = true
        · simp only [Prog.wp, hfault, if_true]
          rfl
        · simp only [Prog.wp, hfault]
          show Prog.wp (Prog.ofExcept (s.manifestFile.validate share.shareId) >>= _) h s.called _ _
          rw [wp_bind]
          cases s.manifestFile.validate share.shareId <;> rfl
  refine wp_mono (wp_both (manifestSnapshot_spec hc) hkeeps) ?_ ?_
  · rintro snapshot s' ⟨⟨hsnapshot, hstored⟩, hgeneration⟩
    exact ⟨hsnapshot, hstored, hgeneration⟩
  · rintro e s' ⟨⟨hstored, hfault⟩, hgeneration⟩
    exact ⟨⟨hstored, hgeneration⟩, hfault⟩

theorem Manifest.SyncEq.applyRemoteTransferImpl_spec {remote : Manifest} (hc : s.Consistent share)
    (heq : s.manifestFile.SyncEq remote) (hsep : remote.Separated)
    (fileData : BTreeMap Str IncomingFile) :
    (applyRemoteTransferImpl share remote fileData).wp h s
      (fun outcome s' => outcome = ⟨0, 0, 0⟩ ∧ Untouched share s s')
      (fun _ s' => Untouched share s s' ∧ ¬ ((∀ n, h.fault n = false)
        ∧ s.world.disk.IsDir share.localDirectory ∧ Reach h s.world.disk share.localDirectory)) := by
  have hlooked : ∀ {w : World}, Same s.world w → Untouched share s { s with world := w } := fun hsame =>
    ⟨⟨hsame, rfl, rfl, rfl, hc.valid, hc.cache⟩, rfl⟩
  unfold applyRemoteTransferImpl localRoot
  rw [wp_bind, wp_onDisk]
  refine wp_mono directoryRoot_looks ?_ fun e w he => ⟨hlooked he.1, fun hgood => he.2 hgood.2⟩
  rintro root w ⟨-, hsame⟩
  refine wp_seq (manifestSnapshot_untouched (hlooked hsame).1.consistent) ?_ ?_
  · rintro snapshot s' ⟨rfl, hstored, hgeneration⟩
    have htree := heq.applyTree_eq hsep share.shareTmpDir root fileData
    dsimp only [ManifestSnapshot.fromValidated]
    rw [htree]
    exact ⟨rfl, (hlooked hsame).1.trans hstored, hgeneration⟩
  · rintro e s' ⟨⟨hstored, hgeneration⟩, hfault⟩
    exact ⟨⟨(hlooked hsame).1.trans hstored, hgeneration⟩, fun hgood => hfault hgood.1⟩

/-- For manifests of one share with equal digest inputs, a request lists nothing and leaves nothing
pending, and applying either to the other changes and reports nothing; it fails only where the root
of the share or the manifest cannot be read. -/
theorem unchanged_exchange {left right : Manifest} {shareId : ShareId} (hleft : left.Valid shareId)
    (hright : right.Valid shareId) (heq : left.digestInput = right.digestInput) :
    (∀ tmp h w, makeTransferRequest tmp shareId left right h w
      = .ok (⟨PROTOCOL_VERSION, shareId, [], [], []⟩, 0) w)
    ∧ ∀ {local_ remote : Manifest}, (local_ = left ∧ remote = right ∨ local_ = right ∧ remote = left) →
      ∀ {share : ActiveShare} {h : Host} {s : ShareState}, s.Consistent share →
        s.manifestFile = local_ → ∀ fileData,
        (applyRemoteTransferImpl share remote fileData).wp h s
          (fun outcome s' => outcome = ⟨0, 0, 0⟩ ∧ Untouched share s s')
          (fun _ s' => Untouched share s s' ∧ ¬ ((∀ n, h.fault n = false)
            ∧ s.world.disk.IsDir share.localDirectory
            ∧ Reach h s.world.disk share.localDirectory)) := by
  have hsync := Manifest.SyncEq.of_digestInput hleft hright heq
  refine ⟨fun tmp h w => hsync.makeTransferRequest_eq tmp h w, ?_⟩
  rintro local_ remote (⟨rfl, rfl⟩ | ⟨rfl, rfl⟩) share h s hc hfile fileData
  · exact Manifest.SyncEq.applyRemoteTransferImpl_spec hc (hfile ▸ hsync) hright.separated fileData
  · exact Manifest.SyncEq.applyRemoteTransferImpl_spec hc (hfile ▸ hsync.symm) hleft.separated fileData

end Apply

/-- The same file, read at different times. -/
theorem unchanged_exchange_oneFile :
    let _ := Crypto.plain
    let shareId : ShareId := ⟨List.replicate 32 0, rfl⟩
    let share : ActiveShare := ⟨shareId, [], ["data".toList], ⟨List.replicate 32 0, rfl⟩⟩
    let s : ShareState := ⟨⟨Disk.bare, 0, []⟩, Manifest.oneFile 1 2, none, 0, ⟨1, 7, 0⟩, true⟩
    (Manifest.oneFile 1 2).Valid shareId ∧ (Manifest.oneFile 3 4).Valid shareId
      ∧ (Manifest.oneFile 1 2).digestInput = (Manifest.oneFile 3 4).digestInput
      ∧ s.Consistent share
      ∧ ∃ s', applyRemoteTransferImpl share (Manifest.oneFile 3 4) ∅ .quiet s = .ok ⟨0, 0, 0⟩ s'
        ∧ Untouched share s s' := by
  intro _ shareId share s
  have hleft : (Manifest.oneFile 1 2).Valid shareId := by decide +kernel
  have hright : (Manifest.oneFile 3 4).Valid shareId := by decide +kernel
  have heq : (Manifest.oneFile 1 2).digestInput = (Manifest.oneFile 3 4).digestInput := by
    decide +kernel
  have hc : s.Consistent share := ⟨hleft, fun snapshot hnone => (by cases hnone)⟩
  have hroot : s.world.disk.IsDir share.localDirectory := ⟨0o755, by decide +kernel⟩
  have hreach : Reach .quiet s.world.disk share.localDirectory := by
    refine ⟨fun _ => rfl, fun {init} hi hne => ?_⟩
    exact absurd (List.prefix_nil.mp hi) hne
  have hspec : (applyRemoteTransferImpl share (Manifest.oneFile 3 4) ∅).wp .quiet s
      (fun outcome s' => outcome = ⟨0, 0, 0⟩ ∧ Untouched share s s') fun _ _ => False :=
    wp_mono ((unchanged_exchange hleft hright heq).2 (.inl ⟨rfl, rfl⟩) hc rfl ∅)
      (fun _ _ hok => hok) fun _ _ he => he.2 ⟨fun _ => rfl, hroot, hreach⟩
  obtain ⟨outcome, s', hrun, rfl, huntouched⟩ := exists_ok_of_wp hspec
  exact ⟨hleft, hright, heq, hc, s', hrun, huntouched⟩

end Syncbox

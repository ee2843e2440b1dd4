/-
# `Syncbox.Network.Plan` — what is asked for, and what will be taken

`make_transfer_request` of `src/network/transfer.rs` lists the files to download and to upload;
`remote_record_wins` decides at the end whether a file that came is installed.  Who wins is
written down three times: the two loops of the planner ask what `select_record` chooses, and the
applier compares versions itself.

The planner's two questions are one question with the sides exchanged (`localSelected_eq`).  They
differ from the applier's at one point: two live records of one version.  There the selection
keeps the first one, whose version *is* that of the second, so the planner thinks that the second
was chosen; the applier sees no newer version and refuses (`remoteSelected_iff`).
-/
import Syncbox.Lib.Unix.Calm
import Syncbox.Network.Partial

namespace Syncbox

open Rust Unix Prog

/-! ## Who wins -/

/-- Two live records of one version. -/
def Stalemate (left right : Option ManifestRecord) : Prop :=
  ∃ a b, left = some a ∧ right = some b ∧ a.version = b.version ∧ a.isTombstone = false
    ∧ b.isTombstone = false

theorem Stalemate.symm {left right : Option ManifestRecord} (h : Stalemate left right) :
    Stalemate right left := by
  obtain ⟨a, b, ha, hb, hversion, hlive, hlive'⟩ := h
  exact ⟨b, a, hb, ha, hversion.symm, hlive', hlive⟩

theorem Stalemate.not_wins {left right : Option ManifestRecord} (h : Stalemate left right) :
    remoteRecordWins left right = false := by
  obtain ⟨a, b, rfl, rfl, hversion, -, hlive⟩ := h
  simp [remoteRecordWins, hversion, hlive]

section Select

variable {a b : ManifestRecord}

theorem selectRecord_of_lt (hlt : a.version < b.version) : selectRecord (some a) (some b) = some b := by
  simp only [selectRecord, compare_lt_iff_lt.mpr hlt]

theorem selectRecord_of_gt (hgt : b.version < a.version) : selectRecord (some a) (some b) = some a := by
  simp only [selectRecord, compare_gt_iff_gt.mpr hgt]

theorem selectRecord_of_eq (heq : a.version = b.version) :
    selectRecord (some a) (some b) = if b.isTombstone then some b else some a := by
  simp only [selectRecord, compare_eq_iff_eq.mpr heq]

end Select

/-- The planner's question is the applier's, and one more. -/
theorem remoteSelected_iff (record : Option ManifestRecord) (e : ManifestEntry) :
    remoteSelected record (.file e) = true
      ↔ remoteRecordWins record (some (.file e)) = true ∨ Stalemate record (some (.file e)) := by
  cases record with
  | none =>
      refine ⟨fun _ => .inl rfl, fun _ => ?_⟩
      simp [remoteSelected, selectRecord]
  | some r =>
      have hlive : (ManifestRecord.file e).isTombstone = false := rfl
      rcases lt_trichotomy r.version (ManifestRecord.file e).version with hlt | heq | hgt
      · rw [remoteSelected, selectRecord_of_lt hlt]
        refine ⟨fun _ => .inl ?_, fun _ => ?_⟩
        · simp [remoteRecordWins, hlt]
        · simp
      · rw [remoteSelected, selectRecord_of_eq heq, hlive]
        simp only [Bool.false_eq_true, if_false, heq, decide_true, Bool.true_and, decide_eq_true_eq]
        constructor
        · intro hr
          exact .inr ⟨r, .file e, rfl, rfl, heq, hr, rfl⟩
        · rintro (hwins | ⟨a, b, ha, hb, -, hr, -⟩)
          · simp [remoteRecordWins, heq, hlive] at hwins
          · cases ha
            exact hr
      · rw [remoteSelected, selectRecord_of_gt hgt]
        simp only [hgt.ne', decide_false, Bool.false_and, Bool.false_eq_true, false_iff, not_or]
        refine ⟨?_, ?_⟩
        · simp [remoteRecordWins, hgt.le, hgt.ne]
        · rintro ⟨a, b, ha, hb, heq, -, -⟩
          cases ha
          cases hb
          exact hgt.ne' heq

/-- The planner asks for uploads what it asks for downloads, with the sides exchanged. -/
theorem localSelected_eq (e : ManifestEntry) (record : Option ManifestRecord) :
    localSelected (.file e) record = remoteSelected record (.file e) := by
  cases record with
  | none => simp [localSelected, remoteSelected, selectRecord, ManifestRecord.isTombstone]
  | some r =>
      have hlive : (ManifestRecord.file e).isTombstone = false := rfl
      rcases lt_trichotomy r.version (ManifestRecord.file e).version with hlt | heq | hgt
      · rw [localSelected, remoteSelected, selectRecord_of_lt hlt, selectRecord_of_gt hlt]
        simp [hlive]
      · rw [localSelected, remoteSelected, selectRecord_of_eq heq, selectRecord_of_eq heq.symm, hlive]
        cases hr : r.isTombstone <;> simp [heq, hr, hlive]
      · rw [localSelected, remoteSelected, selectRecord_of_lt hgt, selectRecord_of_gt hgt]
        simp [hgt.ne']

/-! ## What is listed -/

section Listed

variable [Crypto] {tmp : PathBuf} {h : Host} {w : World} {local_ remote : Manifest}

/-- The files of one side that the planner wants to bring to the other. -/
def candidates (receiver sender : Manifest) : List (Str × ManifestEntry) :=
  sender.entries.toList.filter fun x =>
    remoteSelected (receiver.record x.1) (.file x.2) && !contentMatches (receiver.record x.1) x.2

/-- Those that are listed. -/
def planned (receiver sender : Manifest) : List (Str × ManifestEntry) :=
  (candidates receiver sender).take MAX_TRANSFER_FILES

omit [Crypto] in
theorem uploadCandidates_eq (local_ remote : Manifest) :
    uploadCandidates local_ remote = candidates remote local_ := by
  unfold uploadCandidates candidates
  simp only [localSelected_eq]

/-- The loop lists what is wanted, up to the limit. -/
theorem planDownloads_lists (rest : List (Str × ManifestEntry)) (plan : List Str × List TransferFile)
    (w : World) (hlen : plan.1.length < MAX_TRANSFER_FILES) :
    (planDownloads tmp local_ rest plan).wp h w
      (fun result _ => result.1 = plan.1
        ++ ((rest.filter fun x => remoteSelected (local_.record x.1) (.file x.2)
          && !contentMatches (local_.record x.1) x.2).take (MAX_TRANSFER_FILES - plan.1.length)).map
            Prod.fst)
      fun _ _ => True := by
  induction rest generalizing plan w with
  | nil =>
      show plan.1 = plan.1 ++ _
      simp
  | cons x rest ih =>
      obtain ⟨path, entry⟩ := x
      rw [List.filter_cons]
      refine wp_ite (fun hwanted => ?_) fun hnot => ?_
      · rw [if_pos hwanted, wp_bind]
        have hroom : MAX_TRANSFER_FILES - plan.1.length
            = MAX_TRANSFER_FILES - (plan.1 ++ [path]).length + 1 := by
          rw [List.length_append, List.length_singleton]
          omega
        rw [hroom, List.take_succ_cons, List.map_cons]
        refine wp_conseq partialSize_spec fun offset w₁ _ => ?_
        refine wp_ite (fun hfull => ?_) fun hmore => ?_
        · show plan.1 ++ [path] = plan.1 ++ _
          change (plan.1 ++ [path]).length = MAX_TRANSFER_FILES at hfull
          rw [hfull, Nat.sub_self, List.take_zero]
          rfl
        · have hlen' : (plan.1 ++ [path]).length < MAX_TRANSFER_FILES := by
            refine lt_of_le_of_ne ?_ hmore
            rw [List.length_append]
            exact hlen
          refine wp_conseq (ih (plan.1 ++ [path], _) w₁ hlen') fun result _ hresult => ?_
          rw [hresult, List.append_assoc]
          rfl
      · rw [if_neg hnot]
        exact ih plan w hlen

/-- The request lists the first files that the planner wants to bring over, in both directions. -/
theorem makeTransferRequest_lists {shareId : ShareId} :
    (makeTransferRequest tmp shareId local_ remote).wp h w
      (fun r _ => r.1.downloadPaths = (planned local_ remote).map Prod.fst
        ∧ r.1.uploads.map TransferFile.path = (planned remote local_).map Prod.fst
        ∧ r.2 = (candidates remote local_).length - (planned remote local_).length)
      fun _ _ => True := by
  unfold makeTransferRequest
  refine wp_then (planDownloads_lists remote.entries.toList ([], []) w (by decide)) ?_
  rintro ⟨paths, resumes⟩ w₁ hpaths
  dsimp only
  rw [wp_pure, uploadCandidates_eq]
  refine ⟨hpaths, ?_, ?_⟩
  · rw [List.map_map]
    rfl
  · rw [List.length_map]
    rfl

/-- Where nothing was received yet, nothing keeps the request from being made. -/
theorem makeTransferRequest_succeeds {shareId : ShareId} (hno : ∀ n, h.fault n = false)
    (hs : Searched h w.disk tmp) (hnone : ∀ name, w.disk.get (tmp ++ [name]) = none) :
    ∃ r w', makeTransferRequest tmp shareId local_ remote h w = .ok r w' := by
  have hsize : ∀ {path sha256 : Str} {size : U64} {w' : World}, w'.disk = w.disk →
      (partialSize tmp path sha256 size).wp h w' (fun _ w'' => w''.disk = w.disk) fun _ _ => False := by
    intro path sha256 size w' hdisk
    have hsmooth : Smooth h w'.disk (partialPath tmp path sha256) := by
      rw [hdisk]
      exact hs.smooth hno (isFileName_partialName path sha256)
    have hmissing : w'.disk.get (names (partialPath tmp path sha256)) = none := by
      rw [hsmooth.named.names, hdisk]
      exact hnone _
    unfold partialSize
    refine wp_then (lstat_spec hsmooth.direct) ?_
    rintro (kind | node) w₁ hlooked
    · by_cases hk : kind = .notFound
      · subst hk
        exact hlooked.same.disk.trans hdisk
      · exact absurd hsmooth (hlooked.blocked rfl hk)
    · have hget := hlooked.ok rfl
      rw [hmissing] at hget
      cases hget
  have hplan : ∀ (rest : List (Str × ManifestEntry)) (plan : List Str × List TransferFile) (w' : World),
      w'.disk = w.disk → (planDownloads tmp local_ rest plan).wp h w' (fun _ _ => True) fun _ _ => False := by
    intro rest
    induction rest with
    | nil => exact fun _ _ _ => trivial
    | cons x rest ih =>
        intro plan w' hdisk
        refine wp_ite (fun _ => ?_) fun _ => ih plan w' hdisk
        refine wp_then (hsize hdisk) fun offset w₁ hdisk' => ?_
        exact wp_ite (fun _ => trivial) fun _ => ih _ w₁ hdisk'
  have hspec : (makeTransferRequest tmp shareId local_ remote).wp h w (fun _ _ => True)
      fun _ _ => False := by
    unfold makeTransferRequest
    exact wp_then (hplan _ _ w rfl) fun _ _ _ => trivial
  obtain ⟨r, w', hrun, -⟩ := exists_ok_of_wp hspec
  exact ⟨r, w', hrun⟩

end Listed

/-! ## Planner and applier -/

section Agree

variable {receiver sender : Manifest}

theorem mem_candidates {x : Str × ManifestEntry} : x ∈ candidates receiver sender
    ↔ sender.record x.1 = some (.file x.2)
      ∧ remoteSelected (receiver.record x.1) (.file x.2) = true
      ∧ contentMatches (receiver.record x.1) x.2 = false := by
  rw [candidates, List.mem_filter, Std.ExtTreeMap.mem_toList_iff_getElem?_eq_some,
    Manifest.record_file_iff, Bool.and_eq_true, Bool.not_eq_true']

/-- What is listed will be installed, unless it stands in a stalemate. -/
theorem planned_wins_iff {x : Str × ManifestEntry} (hx : x ∈ planned receiver sender) :
    remoteRecordWins (receiver.record x.1) (sender.record x.1) = true
      ↔ ¬ Stalemate (receiver.record x.1) (sender.record x.1) := by
  obtain ⟨hrecord, hselected, -⟩ := mem_candidates.mp (List.mem_of_mem_take hx)
  rw [hrecord]
  constructor
  · intro hwins hstale
    rw [hstale.not_wins] at hwins
    cases hwins
  · intro hnot
    exact ((remoteSelected_iff _ _).mp hselected).resolve_right hnot

/-- A list that is not full has every file that would be installed and is not there yet. -/
theorem mem_planned_of_wins (hroom : (planned receiver sender).length < MAX_TRANSFER_FILES) {p : Str}
    {e : ManifestEntry} (hrecord : sender.record p = some (.file e))
    (hwins : remoteRecordWins (receiver.record p) (sender.record p) = true)
    (hcontent : contentMatches (receiver.record p) e = false) :
    p ∈ (planned receiver sender).map Prod.fst := by
  have hall : planned receiver sender = candidates receiver sender := by
    refine List.take_of_length_le ?_
    rw [planned, List.length_take] at hroom
    omega
  rw [hall]
  rw [hrecord] at hwins
  have hmem : (p, e) ∈ candidates receiver sender :=
    mem_candidates.mpr ⟨hrecord, (remoteSelected_iff _ _).mpr (.inl hwins), hcontent⟩
  exact List.mem_map.mpr ⟨(p, e), hmem, rfl⟩

end Agree

section Examples

/-- One file, of which all have one version. -/
def oneVersion (digit : Char) : Manifest :=
  { Manifest.empty ⟨List.replicate 32 0, length_zeros⟩ 0 with
    entries := Std.ExtTreeMap.ofList
      [("a".toList, ⟨3, 0, List.replicate 64 digit, some 0o644, .ofWall 7⟩)] compare }

theorem searched_bare : Searched .quiet Disk.bare [] := by
  intro init hi
  rw [List.prefix_nil.mp hi]
  exact ⟨0o755, by decide +kernel, by decide⟩

theorem get_bare_cons (name : Str) (rest : Loc) : Disk.bare.get (name :: rest) = none := by
  show ((∅ : BTreeMap Loc Node).insert [] (.dir 0o755))[name :: rest]? = none
  rw [lookup_insert, if_neg (List.cons_ne_nil _ _).symm]
  exact Std.ExtTreeMap.getElem?_empty

theorem makeTransferRequest_bare [Crypto] (shareId : ShareId) (local_ remote : Manifest) :
    ∃ r w', makeTransferRequest [] shareId local_ remote .quiet ⟨Disk.bare, 0, []⟩ = .ok r w' :=
  makeTransferRequest_succeeds (fun _ => rfl) searched_bare fun name => get_bare_cons name []

end Examples

section Request

variable [Crypto] {tmp : PathBuf} {h : Host} {w w' : World} {shareId : ShareId}
  {local_ remote : Manifest} {request : TransferRequest} {pending : Nat}

/-- Every file that is listed wins on the side it is for exactly when none of those listed stands
in a stalemate; and a list that is not full has every file that wins and is not there yet. -/
theorem planner_agrees_iff
    (hrun : makeTransferRequest tmp shareId local_ remote h w = .ok (request, pending) w') :
    ((∀ p ∈ request.downloadPaths, remoteRecordWins (local_.record p) (remote.record p) = true)
        ∧ (∀ file ∈ request.uploads,
          remoteRecordWins (remote.record file.path) (local_.record file.path) = true)
      ↔ ∀ p, p ∈ (planned local_ remote).map Prod.fst ∨ p ∈ (planned remote local_).map Prod.fst →
        ¬ Stalemate (local_.record p) (remote.record p))
    ∧ (request.downloadPaths.length < MAX_TRANSFER_FILES →
      ∀ {p e}, remote.record p = some (.file e) →
        remoteRecordWins (local_.record p) (remote.record p) = true →
        contentMatches (local_.record p) e = false → p ∈ request.downloadPaths)
    ∧ (request.uploads.length < MAX_TRANSFER_FILES →
      ∀ {p e}, local_.record p = some (.file e) →
        remoteRecordWins (remote.record p) (local_.record p) = true →
        contentMatches (remote.record p) e = false →
        p ∈ request.uploads.map TransferFile.path) := by
  obtain ⟨hdownloads, huploads, -⟩ := wp_ok makeTransferRequest_lists hrun
  have hforall : (∀ file ∈ request.uploads,
      remoteRecordWins (remote.record file.path) (local_.record file.path) = true)
        ↔ ∀ p ∈ request.uploads.map TransferFile.path,
          remoteRecordWins (remote.record p) (local_.record p) = true := by
    rw [List.forall_mem_map]
  have hlen := congrArg List.length huploads
  rw [List.length_map, List.length_map] at hlen
  rw [hforall, hdownloads, huploads, hlen, List.length_map]
  refine ⟨?_, mem_planned_of_wins, mem_planned_of_wins⟩
  constructor
  · rintro ⟨hdown, hup⟩ p (hp | hp) hstale
    · have := hdown p hp
      rw [hstale.not_wins] at this
      cases this
    · have := hup p hp
      rw [hstale.symm.not_wins] at this
      cases this
  · intro hnone
    constructor
    · intro p hp
      obtain ⟨x, hx, rfl⟩ := List.mem_map.mp hp
      exact (planned_wins_iff hx).mpr (hnone _ (.inl hp))
    · intro p hp
      obtain ⟨x, hx, rfl⟩ := List.mem_map.mp hp
      exact (planned_wins_iff hx).mpr fun hstale => hnone _ (.inr hp) hstale.symm

end Request

/-- A file that one side lacks is asked for. -/
theorem planner_agrees_iff_missing :
    let _ := Crypto.plain
    let shareId : ShareId := ⟨List.replicate 32 0, rfl⟩
    let remote := oneVersion '0'
    ∃ r w', makeTransferRequest [] shareId (Manifest.empty shareId 0) remote .quiet ⟨Disk.bare, 0, []⟩
        = .ok r w'
      ∧ (∀ p ∈ r.1.downloadPaths,
        remoteRecordWins ((Manifest.empty shareId 0).record p) (remote.record p) = true)
      ∧ "a".toList ∈ r.1.downloadPaths := by
  intro _ shareId remote
  obtain ⟨⟨request, pending⟩, w', hrun⟩ := makeTransferRequest_bare shareId (Manifest.empty shareId 0) remote
  obtain ⟨hiff, hlisted, -⟩ := planner_agrees_iff hrun
  have hlen : request.downloadPaths.length < MAX_TRANSFER_FILES := by
    rw [(wp_ok makeTransferRequest_lists hrun).1]
    decide +kernel
  refine ⟨(request, pending), w', hrun, (hiff.mpr fun p _ hstale => ?_).1,
    hlisted hlen (e := ⟨3, 0, List.replicate 64 '0', some 0o644, .ofWall 7⟩) (by decide +kernel)
      (by decide +kernel) (by decide +kernel)⟩
  obtain ⟨a, -, ha, -⟩ := hstale
  rw [(Manifest.holds_empty shareId 0).record_eq] at ha
  cases ha

/-- Two files of one version, with different contents: each side lists its own, and neither will
take the other's. -/
theorem stalemate_is_listed :
    let _ := Crypto.plain
    let shareId : ShareId := ⟨List.replicate 32 0, rfl⟩
    let local_ := oneVersion '0'
    let remote := oneVersion '1'
    local_.Valid shareId ∧ remote.Valid shareId
      ∧ ∃ r w', makeTransferRequest [] shareId local_ remote .quiet ⟨Disk.bare, 0, []⟩ = .ok r w'
        ∧ r.1.downloadPaths = ["a".toList] ∧ r.1.uploads.map TransferFile.path = ["a".toList]
        ∧ remoteRecordWins (local_.record "a".toList) (remote.record "a".toList) = false
        ∧ remoteRecordWins (remote.record "a".toList) (local_.record "a".toList) = false := by
  intro _ shareId local_ remote
  obtain ⟨r, w', hrun⟩ := makeTransferRequest_bare shareId local_ remote
  obtain ⟨hdownloads, huploads, -⟩ := wp_ok makeTransferRequest_lists hrun
  refine ⟨by decide +kernel, by decide +kernel, r, w', hrun, ?_, ?_, by decide +kernel, by decide +kernel⟩
  · rw [hdownloads]
    decide +kernel
  · rw [huploads]
    decide +kernel

end Syncbox

/-
# `Syncbox.Network.Candidate` — the manifest that applying builds

The loops of `apply_remote_transfer_impl` do not call `select_record`: they have their own
winner predicate, their own order and their own removals.  This file shows that they
compute the path-wise merge all the same.

`plan` has one step for every remote record that wins, so a path is touched once
(`plan_distinct`).  After any run, the candidate holds at each path the record of the step
that was applied there, or the local record (`Run.holds`).  After a whole run, what is
left of the local manifest is what lost and what is pending.
-/
import Syncbox.Network.Run

namespace Syncbox

open Rust Unix

/-! ## Winning records -/

/-- The winner predicate of the loops and the selection of a merge agree. -/
theorem selectRecord_eq_ite (l r : Option ManifestRecord) :
    selectRecord l r = if remoteRecordWins l r then r else l := by
  rcases l with _ | l <;> rcases r with _ | r <;>
    try simp [selectRecord, remoteRecordWins]
  rcases lt_trichotomy l.version r.version with hlt | heq | hgt
  · simp [compare_lt_iff_lt.mpr hlt, hlt]
  · rw [compare_eq_iff_eq.mpr heq]
    -- on equal versions the two sides differ only when both are tombstones, hence equal
    rcases l with e | e | e | e <;> rcases r with e' | e' | e' | e' <;>
      simp_all [ManifestRecord.isTombstone, ManifestRecord.version]
    cases e
    cases e'
    simp_all
  · have hne : r.version ≠ l.version := hgt.ne
    simp [compare_gt_iff_gt.mpr hgt, hgt.not_gt, hne]

/-- The remote manifest has a record for the path, and it wins. -/
def Wins (local_ remote : Manifest) (p : Str) (r : ManifestRecord) : Prop :=
  remote.record p = some r ∧ remoteRecordWins (local_.record p) (some r) = true

theorem select_of_wins {local_ remote : Manifest} {p : Str} {r : ManifestRecord}
    (h : Wins local_ remote p r) : selectRecord (local_.record p) (remote.record p) = some r := by
  rw [selectRecord_eq_ite, h.1, h.2, if_pos rfl]

theorem select_of_not_wins {local_ remote : Manifest} {p : Str}
    (h : ∀ r, ¬ Wins local_ remote p r) :
    selectRecord (local_.record p) (remote.record p) = local_.record p := by
  rw [selectRecord_eq_ite]
  refine if_neg fun hw => ?_
  cases hr : remote.record p with
  | none => simp [hr, remoteRecordWins] at hw
  | some r => exact h r ⟨hr, by rwa [hr] at hw⟩

/-- A record that stays wherever the local record did not have to give way. -/
theorem select_eq {local_ remote : Manifest} {p : Str} :
    (∃ r, Wins local_ remote p r ∧ selectRecord (local_.record p) (remote.record p) = some r)
      ∨ ((∀ r, ¬ Wins local_ remote p r)
        ∧ selectRecord (local_.record p) (remote.record p) = local_.record p) := by
  by_cases h : ∃ r, Wins local_ remote p r
  · obtain ⟨r, hr⟩ := h
    exact .inl ⟨r, hr, select_of_wins hr⟩
  · have h' := not_exists.mp h
    exact .inr ⟨h', select_of_not_wins h'⟩

/-! ## The plan -/

/-- The record a step brings. -/
def Planned.record : Planned → Option ManifestRecord
  | delete _ t => some (.tombstone t)
  | directory _ e => some (.directory e)
  | symlink _ e => some (.symlink e)
  | file _ e _ => some (.file e)
  | mode .. => none

section Plan

variable {local_ remote : Manifest} {fileData : BTreeMap Str IncomingFile}

theorem mem_winners {V : Type} {records : BTreeMap Str V} {wrap : V → ManifestRecord} {p : Str}
    {v : V} : (p, v) ∈ winners local_ records wrap
      ↔ records[p]? = some v ∧ remoteRecordWins (local_.record p) (some (wrap v)) = true := by
  simp only [winners, List.mem_filter, Std.ExtTreeMap.mem_toList_iff_getElem?_eq_some]

theorem winners_distinct {V : Type} {records : BTreeMap Str V} {wrap : V → ManifestRecord} :
    (winners local_ records wrap).Pairwise fun x y => x.1 ≠ y.1 := by
  refine List.Pairwise.filter _ ?_
  have := Std.ExtTreeMap.distinct_keys_toList (t := records)
  simpa [compare_eq_iff_eq] using this

theorem mem_deletions {p : Str} {t : Tombstone} : (p, t) ∈ deletions local_ remote
    ↔ remote.tombstones[p]? = some t
      ∧ remoteRecordWins (local_.record p) (some (.tombstone t)) = true := by
  rw [deletions, List.mem_insertionSort, mem_winners]

theorem mem_directoryPermissions {p : Str} {o : Option U16} :
    (p, o) ∈ directoryPermissions local_ remote ↔ ∃ e, remote.directories[p]? = some e
      ∧ remoteRecordWins (local_.record p) (some (.directory e)) = true ∧ e.permissions = o := by
  rw [directoryPermissions, List.mem_insertionSort, List.mem_map]
  constructor
  · rintro ⟨⟨q, e⟩, hmem, heq⟩
    cases heq
    exact ⟨e, (mem_winners.mp hmem).1, (mem_winners.mp hmem).2, rfl⟩
  · rintro ⟨e, he, hw, rfl⟩
    exact ⟨(p, e), mem_winners.mpr ⟨he, hw⟩, rfl⟩

theorem mem_plan {op : Planned} : op ∈ plan local_ remote fileData ↔
    match op with
    | .delete p t => (p, t) ∈ deletions local_ remote
    | .directory p e => (p, e) ∈ winners local_ remote.directories .directory
    | .symlink p e => (p, e) ∈ winners local_ remote.symlinks .symlink
    | .file p e incoming =>
        (p, e) ∈ winners local_ remote.entries .file ∧ incoming = fileData[p]?
    | .mode p o => (p, o) ∈ directoryPermissions local_ remote := by
  cases op <;> simp [plan, eq_comm]

theorem wins_of_mem_plan (hsep : remote.Separated) {op : Planned} {r : ManifestRecord}
    (hop : op ∈ plan local_ remote fileData) (hr : op.record = some r) :
    Wins local_ remote op.path r := by
  rw [mem_plan] at hop
  cases op with
  | delete p t =>
      cases hr
      exact ⟨hsep.tombstones_iff.mpr (mem_deletions.mp hop).1, (mem_deletions.mp hop).2⟩
  | directory p e =>
      cases hr
      exact ⟨hsep.directories_iff.mpr (mem_winners.mp hop).1, (mem_winners.mp hop).2⟩
  | symlink p e =>
      cases hr
      exact ⟨hsep.symlinks_iff.mpr (mem_winners.mp hop).1, (mem_winners.mp hop).2⟩
  | file p e incoming =>
      cases hr
      exact ⟨Manifest.record_file_iff.mpr (mem_winners.mp hop.1).1, (mem_winners.mp hop.1).2⟩
  | mode p o => cases hr

/-- The step planned for a record. -/
def plannedStep (fileData : BTreeMap Str IncomingFile) (p : Str) : ManifestRecord → Planned
  | .file e => .file p e fileData[p]?
  | .directory e => .directory p e
  | .symlink e => .symlink p e
  | .tombstone t => .delete p t

@[simp] theorem path_plannedStep (p : Str) (r : ManifestRecord) : (plannedStep fileData p r).path = p := by
  cases r <;> rfl

@[simp] theorem record_plannedStep (p : Str) (r : ManifestRecord) :
    (plannedStep fileData p r).record = some r := by
  cases r <;> rfl

theorem mem_plan_of_wins {p : Str} {r : ManifestRecord} (hw : Wins local_ remote p r) :
    plannedStep fileData p r ∈ plan local_ remote fileData := by
  rw [mem_plan]
  cases r with
  | file e => exact ⟨mem_winners.mpr ⟨Manifest.record_file_iff.mp hw.1, hw.2⟩, rfl⟩
  | directory e => exact mem_winners.mpr ⟨Manifest.record_directory hw.1, hw.2⟩
  | symlink e => exact mem_winners.mpr ⟨Manifest.record_symlink hw.1, hw.2⟩
  | tombstone t => exact mem_deletions.mpr ⟨Manifest.record_tombstone hw.1, hw.2⟩

/-- Two steps that bring records are about different paths. -/
def Planned.Apart (x y : Planned) : Prop := x.record ≠ none → y.record ≠ none → x.path ≠ y.path

theorem Planned.Apart.symm {x y : Planned} (h : x.Apart y) : y.Apart x :=
  fun hy hx => (h hx hy).symm

theorem plan_distinct (hsep : remote.Separated) :
    (plan local_ remote fileData).Pairwise Planned.Apart := by
  have same : ∀ {V : Type} {l : List (Str × V)} {f : Str × V → Planned},
      (l.Pairwise fun x y => x.1 ≠ y.1) → (∀ x, (f x).path = x.1) →
      (l.map f).Pairwise Planned.Apart := by
    intro V l f hl hf
    rw [List.pairwise_map]
    exact hl.imp fun hne _ _ => by rwa [hf, hf]
  have hdel : (deletions local_ remote).Pairwise fun x y => x.1 ≠ y.1 :=
    (List.perm_insertionSort _ _).symm.pairwise winners_distinct Ne.symm
  -- steps of different kinds at one path would bring two records of one path
  have cross : ∀ {x y : Planned}, x ∈ plan local_ remote fileData →
      y ∈ plan local_ remote fileData → x.record ≠ y.record → x.Apart y := by
    intro x y hx hy hne hxr hyr heq
    obtain ⟨r, hr⟩ := Option.ne_none_iff_exists'.mp hxr
    obtain ⟨r', hr'⟩ := Option.ne_none_iff_exists'.mp hyr
    have h₁ := (wins_of_mem_plan hsep hx hr).1
    have h₂ := (wins_of_mem_plan hsep hy hr').1
    rw [heq, h₂] at h₁
    exact hne (by rw [hr, hr', h₁])
  simp only [plan, List.pairwise_append, List.mem_append]
  refine ⟨⟨⟨⟨same hdel fun _ => rfl, same winners_distinct fun _ => rfl, ?_⟩,
    same winners_distinct fun _ => rfl, ?_⟩, same winners_distinct fun _ => rfl, ?_⟩, ?_, ?_⟩
  · intro x hx y hy
    refine cross (by simp [plan, hx]) (by simp [plan, hy]) ?_
    obtain ⟨a, -, rfl⟩ := List.mem_map.mp hx
    obtain ⟨b, -, rfl⟩ := List.mem_map.mp hy
    simp [Planned.record]
  · rintro x hx y hy
    refine cross (by rcases hx with hx | hx <;> simp [plan, hx]) (by simp [plan, hy]) ?_
    obtain ⟨b, -, rfl⟩ := List.mem_map.mp hy
    rcases hx with hx | hx <;> obtain ⟨a, -, rfl⟩ := List.mem_map.mp hx <;> simp [Planned.record]
  · rintro x hx y hy
    refine cross (by rcases hx with (hx | hx) | hx <;> simp [plan, hx]) (by simp [plan, hy]) ?_
    obtain ⟨b, -, rfl⟩ := List.mem_map.mp hy
    rcases hx with (hx | hx) | hx <;> obtain ⟨a, -, rfl⟩ := List.mem_map.mp hx <;>
      simp [Planned.record]
  · rw [List.pairwise_map]
    exact List.pairwise_of_forall fun _ _ h => absurd rfl h
  · intro x _ y hy
    obtain ⟨b, -, rfl⟩ := List.mem_map.mp hy
    exact fun _ h => absurd rfl h

/-- Every delivered file stands in the staging directory. -/
def Delivers (tmp : Loc) (fileData : BTreeMap Str IncomingFile) : Prop :=
  ∀ (p : Str) (incoming : IncomingFile), fileData[p]? = some incoming →
    ∃ name, isFileName name = true ∧ incoming = .staged (tmp ++ [name])

theorem plan_accepted [Crypto] {shareId : ShareId} (hremote : remote.Valid shareId) {op : Planned}
    (hop : op ∈ plan local_ remote fileData) : Accepted op.path := by
  cases hr : op.record with
  | some r => exact hremote.accepted (wins_of_mem_plan hremote.separated hop hr).1
  | none =>
      cases op with
      | mode p permissions =>
          obtain ⟨e, he, -⟩ := mem_directoryPermissions.mp (mem_plan.mp hop)
          exact hremote.accepted (hremote.separated.directories_iff.mpr he)
      | _ => cases hr

theorem plan_sound [Crypto] {shareId : ShareId} {tmp : Loc} (hremote : remote.Valid shareId)
    (hdata : Delivers tmp fileData) :
    ∀ op ∈ plan local_ remote fileData, op.Sound tmp ∧ op.usesBytes = false := by
  intro op hop
  have hpath := plan_accepted hremote hop
  rw [mem_plan] at hop
  cases op with
  | file p e incoming =>
      cases incoming with
      | none => exact ⟨⟨hpath, trivial⟩, rfl⟩
      | some incoming =>
          obtain ⟨name, hname, rfl⟩ := hdata p incoming hop.2.symm
          exact ⟨⟨hpath, name, hname, rfl⟩, rfl⟩
  | _ => exact ⟨⟨hpath, trivial⟩, rfl⟩

/-- Applying runs its plan where the data of every step is delivered. -/
theorem applyTree_run [Crypto] {shareId : ShareId} {h : Host} {tmp root : Loc} {w : World}
    (hremote : remote.Valid shareId) (hdata : Delivers tmp fileData) (ht : Tidy tmp root w.disk) :
    (applyTree tmp root local_ remote fileData).wp h w
      (fun s w' => ∃ l, l.map Prod.fst = plan local_ remote fileData
        ∧ Run h tmp root local_ w l w' ∧ s = Applying.afterAll local_ l)
      (fun _ w' => Stopped h tmp root local_ (plan local_ remote fileData) w w') := by
  have hsound : ∀ op ∈ plan local_ remote fileData, op.Sound tmp ∧ op.usesBytes = false :=
    plan_sound hremote hdata
  refine @applyTree_spec _ h tmp root local_ w False _ _ (fun op hop => (hsound op hop).1) ?_
    ⟨ht, False.elim⟩
  intro op hop hb
  rw [(hsound op hop).2] at hb
  cases hb

end Plan

end Syncbox

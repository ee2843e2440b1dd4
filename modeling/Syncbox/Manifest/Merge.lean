/-
# `Syncbox.Manifest.Merge` — last writer wins, path by path

`src/manifest/merge.rs`.  `selectRecord` picks the later of two records and, on a
tie, the tombstone.  `mergeManifests` selects at every path and validates what it
built.

The selection at one path is unconditional, and what it builds holds exactly the
selected records (`mergeRecords_holds`).  Validity is another matter: it is a
condition between paths, and selection works on each path alone.  Two devices
that use one name as a file and as a directory are enough to break it, and the
final `validate` is what reports it.
-/
import Syncbox.Manifest.Model

namespace Syncbox

open Rust

/-! ## Selection -/

def selectRecord : Option ManifestRecord → Option ManifestRecord → Option ManifestRecord
  | none, record => record
  | record, none => record
  | some left, some right =>
      match compare left.version right.version with
      | .lt => some right
      | .eq => if right.isTombstone then some right else some left
      | .gt => some left

theorem selectRecord_or (l r : Option ManifestRecord) :
    selectRecord l r = l ∨ selectRecord l r = r := by
  rcases l with _ | l <;> rcases r with _ | r
  · exact .inl rfl
  · exact .inr rfl
  · exact .inl rfl
  · unfold selectRecord
    dsimp only
    split
    · exact .inr rfl
    · split
      · exact .inr rfl
      · exact .inl rfl
    · exact .inl rfl

theorem selectRecord_eq_none {l r : Option ManifestRecord} :
    selectRecord l r = none ↔ l = none ∧ r = none := by
  rcases l with _ | l <;> rcases r with _ | r
  · simp [selectRecord]
  · simp [selectRecord]
  · simp [selectRecord]
  · rcases selectRecord_or (some l) (some r) with h | h <;> simp [h]

/-! ## The merge -/

namespace Manifest

/-- What the merge loop inserts at one path. -/
def insertRecord (m : Manifest) (path : Str) : Option ManifestRecord → Manifest
  | some (.file e) => { m with entries := m.entries.insert path e }
  | some (.directory e) => { m with directories := m.directories.insert path e }
  | some (.symlink e) => { m with symlinks := m.symlinks.insert path e }
  | some (.tombstone e) => { m with tombstones := m.tombstones.insert path e }
  | none => m

/-- The paths of either manifest, collected in a `BTreeSet`. -/
def mergePaths (l r : Manifest) : List Str :=
  (Std.ExtTreeSet.ofList (l.paths ++ r.paths) compare).toList

/-- The merge loop. -/
def mergeRecords (l r : Manifest) (nowMs : U64) : Manifest :=
  (mergePaths l r).foldl
    (fun merged path => merged.insertRecord path (selectRecord (l.record path) (r.record path)))
    (empty l.shareId nowMs)

def mergeManifests [Crypto] (l r : Manifest) (nowMs : U64) : Except Error Manifest := do
  l.validate l.shareId
  r.validate l.shareId
  let merged := mergeRecords l r nowMs
  merged.validate l.shareId
  .ok merged

theorem insertRecord_holds {m : Manifest} {f : Str → Option ManifestRecord} {p : Str}
    (h : m.Holds f) (hp : f p = none) (r : Option ManifestRecord) :
    (m.insertRecord p r).Holds (Function.update f p r) := by
  have hupd : ∀ q, Function.update f p r q = if p = q then r else f q := fun q => by
    rw [Function.update_apply]; simp only [eq_comm]
  cases r with
  | none =>
      rw [show Function.update f p none = f by rw [← hp, Function.update_eq_self]]
      exact h
  | some r =>
      cases r <;> constructor <;> intro q <;> rw [hupd] <;>
        simp only [insertRecord, lookup_insert, h.entries, h.directories, h.symlinks,
          h.tombstones] <;>
        by_cases hq : p = q <;>
        simp [hq, ManifestRecord.file?, ManifestRecord.directory?, ManifestRecord.symlink?,
          ManifestRecord.tombstone?] <;>
        simp [← hq, hp]

theorem insertRecord_header (m : Manifest) (p : Str) (r : Option ManifestRecord) :
    (m.insertRecord p r).formatVersion = m.formatVersion
      ∧ (m.insertRecord p r).shareId = m.shareId
      ∧ (m.insertRecord p r).scannedAtMs = m.scannedAtMs := by
  rcases r with _ | (e | e | e | e) <;> exact ⟨rfl, rfl, rfl⟩

theorem foldl_insertRecord_holds {f : Str → Option ManifestRecord} :
    ∀ {ps : List Str} {m : Manifest} {g : Str → Option ManifestRecord}, ps.Nodup → m.Holds g →
      (∀ p ∈ ps, g p = none) →
      (ps.foldl (fun m p => m.insertRecord p (f p)) m).Holds
        (fun q => if q ∈ ps then f q else g q)
  | [], m, g, _, h, _ => by simpa using h
  | p :: ps, m, g, hnd, h, hg => by
      have hp := (List.nodup_cons.mp hnd).1
      have hstep := insertRecord_holds h (hg p List.mem_cons_self) (f p)
      have hrest : ∀ q ∈ ps, Function.update g p (f p) q = none := fun q hq => by
        rw [Function.update_of_ne (by rintro rfl; exact hp hq)]
        exact hg q (List.mem_cons_of_mem _ hq)
      have := foldl_insertRecord_holds (f := f) (List.nodup_cons.mp hnd).2 hstep hrest
      refine Holds.of_separated this.separated fun q => ?_
      rw [List.foldl_cons, this.record_eq]
      by_cases hq : q = p
      · subst hq; simp [hp]
      · simp [hq]

theorem mem_mergePaths {l r : Manifest} {p : Str} :
    p ∈ mergePaths l r ↔ p ∈ l.paths ∨ p ∈ r.paths := by
  simp [mergePaths, Std.ExtTreeSet.mem_ofList]

theorem nodup_mergePaths (l r : Manifest) : (mergePaths l r).Nodup :=
  Std.ExtTreeSet.distinct_toList.imp fun h he => h (by rw [he]; exact Std.ReflCmp.compare_self)

theorem mergeRecords_holds (l r : Manifest) (nowMs : U64) :
    (mergeRecords l r nowMs).Holds fun p => selectRecord (l.record p) (r.record p) := by
  have h := foldl_insertRecord_holds (f := fun p => selectRecord (l.record p) (r.record p))
    (nodup_mergePaths l r) (holds_empty l.shareId nowMs) (fun _ _ => rfl)
  refine Holds.of_separated h.separated fun p => ?_
  rw [show (mergeRecords l r nowMs).record p = _ from h.record_eq p]
  split
  · rfl
  · rename_i hp
    rw [mem_mergePaths, not_or, mem_paths, mem_paths] at hp
    refine (selectRecord_eq_none.mpr ⟨?_, ?_⟩).symm
    · exact Option.eq_none_iff_forall_ne_some.mpr fun x hx => hp.1 ⟨x, hx⟩
    · exact Option.eq_none_iff_forall_ne_some.mpr fun x hx => hp.2 ⟨x, hx⟩

theorem length_paths_mergeRecords (l r : Manifest) (nowMs : U64) :
    (mergeRecords l r nowMs).paths.length = (l.paths ++ r.paths).toFinset.card := by
  have hm := mergeRecords_holds l r nowMs
  rw [← List.toFinset_card_of_nodup hm.separated.nodup_paths]
  refine congrArg Finset.card (Finset.ext fun p => ?_)
  have hnone := selectRecord_eq_none (l := l.record p) (r := r.record p)
  simp only [List.mem_toFinset, List.mem_append, mem_paths, ← Option.ne_none_iff_exists']
  rw [hm.record_eq, Ne, hnone, not_and_or]

theorem mergeRecords_header (l r : Manifest) (nowMs : U64) :
    (mergeRecords l r nowMs).formatVersion = MANIFEST_FORMAT_VERSION
      ∧ (mergeRecords l r nowMs).shareId = l.shareId := by
  have h : ∀ (ps : List Str) (m : Manifest),
      (ps.foldl (fun m p => m.insertRecord p (selectRecord (l.record p) (r.record p))) m).formatVersion
          = m.formatVersion
        ∧ (ps.foldl (fun m p => m.insertRecord p (selectRecord (l.record p) (r.record p))) m).shareId
          = m.shareId := by
    intro ps
    induction ps with
    | nil => exact fun m => ⟨rfl, rfl⟩
    | cons p ps ih =>
        intro m
        have hm := insertRecord_header m p (selectRecord (l.record p) (r.record p))
        exact ⟨(ih _).1.trans hm.1, (ih _).2.trans hm.2.1⟩
  exact h _ _

/-! ## When the merge is valid -/

/-- A selected record of one side that is not a directory sits above a selected live
record of the other side. -/
def Obstructed (l r : Manifest) : Prop :=
  ∃ a p x y, IsAncestor a p
    ∧ selectRecord (l.record a) (r.record a) = some x ∧ x.directory? = none
    ∧ selectRecord (l.record p) (r.record p) = some y ∧ y.isTombstone = false
    ∧ ((l.record a = some x ∧ r.record p = some y) ∨ (r.record a = some x ∧ l.record p = some y))

theorem mayContain_of_not_obstructed {l r : Manifest} {a p : Str} {y : ManifestRecord}
    (hl : ∀ {p a}, l.Live p → IsAncestor a p → l.MayContain a)
    (hr : ∀ {p a}, r.Live p → IsAncestor a p → r.MayContain a) (hno : ¬ Obstructed l r)
    (ha : IsAncestor a p) (hy : selectRecord (l.record p) (r.record p) = some y)
    (hlive : y.isTombstone = false) :
    selectRecord (l.record a) (r.record a) = none
      ∨ ∃ e, selectRecord (l.record a) (r.record a) = some (.directory e) := by
  cases hx : selectRecord (l.record a) (r.record a) with
  | none => exact .inl rfl
  | some x =>
      refine .inr ?_
      cases hd : x.directory? with
      | some e => cases x <;> cases hd; exact ⟨_, rfl⟩
      | none =>
          exfalso
          -- `x` and `y` come from one side each: on one side, `x` would be a directory
          have notAbove : ∀ {m : Manifest}, m.MayContain a → m.record a ≠ some x := by
            rintro m (hnone | ⟨e, he⟩) hrecord
            · cases hnone.symm.trans hrecord
            · obtain rfl := Option.some.inj (he.symm.trans hrecord)
              cases hd
          rcases selectRecord_or (l.record a) (r.record a) with hxl | hxr <;>
            rcases selectRecord_or (l.record p) (r.record p) with hyl | hyr
          · exact notAbove (hl ⟨y, hyl.symm.trans hy, hlive⟩ ha) (hxl.symm.trans hx)
          · exact hno ⟨a, p, x, y, ha, hx, hd, hy, hlive,
              .inl ⟨hxl.symm.trans hx, hyr.symm.trans hy⟩⟩
          · exact hno ⟨a, p, x, y, ha, hx, hd, hy, hlive,
              .inr ⟨hxr.symm.trans hx, hyl.symm.trans hy⟩⟩
          · exact notAbove (hr ⟨y, hyr.symm.trans hy, hlive⟩ ha) (hxr.symm.trans hx)

section Verdict

variable [Crypto] {l r : Manifest} {shareId : ShareId}

theorem mergeManifests_eq_ok {nowMs : U64} {m : Manifest} : mergeManifests l r nowMs = .ok m ↔
    l.Valid l.shareId ∧ r.Valid l.shareId ∧ (mergeRecords l r nowMs).Valid l.shareId
      ∧ mergeRecords l r nowMs = m := by
  simp only [mergeManifests, Check.andThen_eq_ok, validate_eq_ok, Except.ok.injEq]

/-- What the merge is short of, beyond the number of paths and the hierarchy, it inherits from its
two sides. -/
theorem mergeRecords_valid_iff (hl : l.Valid shareId) (hr : r.Valid shareId) (nowMs : U64) :
    (mergeRecords l r nowMs).Valid shareId ↔
      (l.paths ++ r.paths).toFinset.card ≤ MAX_MANIFEST_ENTRIES
        ∧ ∀ {p a y}, selectRecord (l.record p) (r.record p) = some y → y.isTombstone = false →
          IsAncestor a p → selectRecord (l.record a) (r.record a) = none
            ∨ ∃ e, selectRecord (l.record a) (r.record a) = some (.directory e) := by
  have hm := mergeRecords_holds l r nowMs
  constructor
  · intro h
    refine ⟨length_paths_mergeRecords l r nowMs ▸ h.count, fun {p a y} hy hlive ha => ?_⟩
    have := h.hierarchy ⟨y, (hm.record_eq p).trans hy, hlive⟩ ha
    rwa [MayContain, hm.record_eq] at this
  · rintro ⟨hcount, h⟩
    have hside : ∀ {p x}, (mergeRecords l r nowMs).record p = some x →
        l.record p = some x ∨ r.record p = some x := fun {p x} hx => by
      rw [hm.record_eq] at hx
      rcases selectRecord_or (l.record p) (r.record p) with h | h
      · exact .inl (h.symm.trans hx)
      · exact .inr (h.symm.trans hx)
    refine
      { format := .inr (.inr (mergeRecords_header l r nowMs).1)
        share := (mergeRecords_header l r nowMs).2.trans hl.share
        count := (length_paths_mergeRecords l r nowMs).trans_le hcount
        separated := hm.separated
        accepted := fun hx => (hside hx).elim hl.accepted hr.accepted
        record_valid := fun hx => (hside hx).elim hl.record_valid hr.record_valid
        hierarchy := ?_ }
    rintro p a ⟨y, hy, hlive⟩ ha
    rw [MayContain, hm.record_eq]
    exact h ((hm.record_eq p).symm.trans hy) hlive ha

/-- Of two valid manifests of one share, `merge_manifests` answers with the path-wise merge exactly
when their paths together are not too many and nothing is obstructed. -/
theorem mergeManifests_ok_iff (hl : l.Valid shareId) (hr : r.Valid shareId) (nowMs : U64) :
    (∃ m, mergeManifests l r nowMs = .ok m
        ∧ ∀ p, m.record p = selectRecord (l.record p) (r.record p))
      ↔ (l.paths ++ r.paths).toFinset.card ≤ MAX_MANIFEST_ENTRIES ∧ ¬ Obstructed l r := by
  have hshare : l.shareId = shareId := hl.share
  subst hshare
  constructor
  · rintro ⟨m, hm, -⟩
    obtain ⟨-, -, hvalid, -⟩ := mergeManifests_eq_ok.mp hm
    obtain ⟨hcount, habove⟩ := (mergeRecords_valid_iff hl hr nowMs).mp hvalid
    refine ⟨hcount, ?_⟩
    rintro ⟨a, p, x, y, ha, hx, hd, hy, hlive, -⟩
    rcases habove hy hlive ha with h | ⟨e, h⟩ <;> rw [hx] at h <;> cases h
    cases hd
  · rintro ⟨hcount, hno⟩
    have hvalid := (mergeRecords_valid_iff hl hr nowMs).mpr ⟨hcount, fun hy hlive ha =>
      mayContain_of_not_obstructed hl.hierarchy hr.hierarchy hno ha hy hlive⟩
    exact ⟨_, mergeManifests_eq_ok.mpr ⟨hl, hr, hvalid, rfl⟩,
      (mergeRecords_holds l r nowMs).record_eq⟩

end Verdict

/-! ### A name used as a file and as a directory -/

section Examples

/-- The directory `a`, written at 5, with the file `a/b`, written at 10. -/
def directoryUse : Manifest :=
  { empty ⟨List.replicate 32 0, length_zeros⟩ 0 with
    directories := Std.ExtTreeMap.ofList [("a".toList, ⟨none, .ofWall 5⟩)] compare
    entries := Std.ExtTreeMap.ofList
      [("a/b".toList, ⟨0, 0, List.replicate 64 '0', none, .ofWall 10⟩)] compare }

/-- A file at `path`, written at 7. -/
def fileUse (path : Str) : Manifest :=
  { empty ⟨List.replicate 32 0, length_zeros⟩ 0 with
    entries := Std.ExtTreeMap.ofList
      [(path, ⟨0, 0, List.replicate 64 '0', none, .ofWall 7⟩)] compare }

/-- The file `a` of one device beats the directory `a` of the other, whose file `a/b`
stays: two valid manifests with all ancestors recorded, and no merge. -/
theorem mergeManifests_rejects_directory_turned_file :
    let _ := Crypto.plain
    let share : ShareId := ⟨List.replicate 32 0, rfl⟩
    directoryUse.Valid share ∧ (fileUse "a".toList).Valid share
      ∧ directoryUse.AncestorsRecorded ∧ (fileUse "a".toList).AncestorsRecorded
      ∧ (directoryUse.paths ++ (fileUse "a".toList).paths).toFinset.card ≤ MAX_MANIFEST_ENTRIES
      ∧ mergeManifests directoryUse (fileUse "a".toList) 0
          = .error (.bail "manifest live path has a descendant: a") := by
  decide +kernel

/-- A file beside the directory is merged, so nothing is in its way. -/
theorem mergeManifests_ok_iff_disjoint_use :
    let _ := Crypto.plain
    let beside := fileUse "c".toList
    mergeManifests directoryUse beside 0 = .ok (mergeRecords directoryUse beside 0)
      ∧ (directoryUse.paths ++ beside.paths).toFinset.card ≤ MAX_MANIFEST_ENTRIES
      ∧ ¬ Obstructed directoryUse beside := by
  intro _ beside
  have hok : mergeManifests directoryUse beside 0 = .ok (mergeRecords directoryUse beside 0) := by
    decide +kernel
  have hvalid : directoryUse.Valid ⟨List.replicate 32 0, rfl⟩ := by decide +kernel
  have hholds := (mergeRecords_holds directoryUse beside 0).record_eq
  exact ⟨hok, (mergeManifests_ok_iff hvalid (by decide +kernel) 0).mp ⟨_, hok, hholds⟩⟩

end Examples

end Manifest

end Syncbox

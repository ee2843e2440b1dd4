/-
# `Rust` — words, strings and maps

The types of the standard library, as the proofs see them.  A `String` is its
list of characters: UTF-8 keeps the order of code points, so the order of `Str`
is the byte order a `BTreeMap` uses, and `len()` is `utf8Len`.  Unsigned integers
are `Fin`, so a value out of range cannot be built and `checked_add` is the only
way up.  Maps are extensional: equal when they hold the same pairs.
-/
import Mathlib

namespace Rust

abbrev U64 := Fin (2 ^ 64)
abbrev U32 := Fin (2 ^ 32)
abbrev U16 := BitVec 16
abbrev Byte := Fin 256

/-- A Rust `String`, as its characters. -/
abbrev Str := List Char

instance u64NeZero : NeZero (2 ^ 64) := ⟨by decide⟩
instance u32NeZero : NeZero (2 ^ 32) := ⟨by decide⟩
instance byteNeZero : NeZero 256 := ⟨by decide⟩

theorem mod_byte (n : Nat) : n % 256 < 256 := Nat.mod_lt _ (by decide)

theorem length_zeros : (List.replicate 32 (0 : Byte)).length = 32 := rfl

instance strLawfulBEq : LawfulBEq Str := inferInstance

instance charCountable : Countable Char :=
  Function.Injective.countable (f := Char.toNat) fun _ _ heq => Char.toNat_inj.mp heq

/-- `str::len`. -/
def utf8Len (s : Str) : Nat := (s.map Char.utf8Size).sum

/-- `str::as_bytes`. -/
def asBytes (s : Str) : List Byte := s.flatMap fun c => (String.utf8EncodeChar c).map UInt8.toFin

theorem val_add_one {n : U64} (h : n.val + 1 < 2 ^ 64) : (n + 1).val = n.val + 1 := by
  rw [Fin.val_add, show (1 : U64).val = 1 from rfl, Nat.mod_eq_of_lt h]

theorem lt_add_one {n : U64} (h : n.val + 1 < 2 ^ 64) : n < n + 1 := by
  rw [Fin.lt_def, val_add_one h]
  exact Nat.lt_succ_self _

/-- `u32::checked_add(1)`. -/
def checkedAddOne (n : U32) : Option U32 :=
  if h : n.val + 1 < 2 ^ 32 then some ⟨n.val + 1, h⟩ else none

theorem checkedAddOne_val {n m : U32} (h : checkedAddOne n = some m) : m.val = n.val + 1 := by
  unfold checkedAddOne at h
  split at h
  · cases h; rfl
  · cases h

/-- `u32::MAX`. -/
def U32_MAX : U32 := ⟨2 ^ 32 - 1, by decide⟩

theorem checkedAddOne_eq_none {n : U32} : checkedAddOne n = none ↔ n = U32_MAX := by
  have := n.isLt
  unfold checkedAddOne
  split
  · rename_i hlt
    refine ⟨fun h => (by cases h), fun h => ?_⟩
    subst h
    exact absurd hlt (by decide)
  · refine ⟨fun _ => Fin.ext ?_, fun _ => rfl⟩
    show n.val = 2 ^ 32 - 1
    omega

/-- The `std::io::ErrorKind`s that programs tell apart, and `other`. -/
inductive IoKind where
  | notFound
  | permissionDenied
  | alreadyExists
  | notADirectory
  | isADirectory
  | directoryNotEmpty
  | invalidInput
  | crossesDevices
  | filesystemLoop
  | fileTooLarge
  | other
  deriving DecidableEq, Repr

theorem notMem_repr {n : Nat} {c : Char} (hc : c.isDigit = false) : c ∉ (Nat.repr n).toList := by
  intro hmem
  rw [Nat.repr, String.toList_ofList] at hmem
  rw [Nat.isDigit_of_mem_toDigits (by decide) (by decide) hmem] at hc
  cases hc

/-! ## Maps -/

abbrev BTreeMap (K V : Type) [Ord K] := Std.ExtTreeMap K V compare

section BTreeMap

variable {K V : Type} [Ord K] [Std.TransOrd K]

theorem lookup_insert [Std.LawfulEqOrd K] [DecidableEq K] (t : BTreeMap K V) (k a : K) (v : V) :
    (t.insert k v)[a]? = if k = a then some v else t[a]? := by
  rw [Std.ExtTreeMap.getElem?_insert]
  simp only [Std.LawfulEqCmp.compare_eq_iff_eq]

theorem lookup_erase [Std.LawfulEqOrd K] [DecidableEq K] (t : BTreeMap K V) (k a : K) :
    (t.erase k)[a]? = if k = a then none else t[a]? := by
  rw [Std.ExtTreeMap.getElem?_erase]
  simp only [Std.LawfulEqCmp.compare_eq_iff_eq]

theorem mem_iff_lookup {t : BTreeMap K V} {k : K} : k ∈ t ↔ ∃ v, t[k]? = some v := by
  rw [Std.ExtTreeMap.mem_iff_isSome_getElem?, Option.isSome_iff_exists]

theorem notMem_iff_lookup {t : BTreeMap K V} {k : K} : k ∉ t ↔ t[k]? = none := by
  rw [Std.ExtTreeMap.mem_iff_isSome_getElem?, Option.not_isSome_iff_eq_none]

theorem size_insert_of_notMem {t : BTreeMap K V} {k : K} (h : k ∉ t) (v : V) :
    (t.insert k v).size = t.size + 1 := by
  rw [Std.ExtTreeMap.size_insert]
  exact if_neg h

omit [Std.TransOrd K] in
theorem pairwise_of_nodup [Std.LawfulEqOrd K] {l : List (K × V)} (hl : (l.map Prod.fst).Nodup) :
    l.Pairwise fun x y => ¬ compare x.1 y.1 = .eq := by
  refine (List.pairwise_map.mp hl).imp fun hne heq => hne ?_
  rwa [Std.LawfulEqCmp.compare_eq_iff_eq] at heq

theorem size_ofList [Std.LawfulEqOrd K] {l : List (K × V)} (hl : (l.map Prod.fst).Nodup) :
    (Std.ExtTreeMap.ofList l compare : BTreeMap K V).size = l.length :=
  Std.ExtTreeMap.size_ofList (pairwise_of_nodup hl)

theorem lookup_ofList [Std.LawfulEqOrd K] [DecidableEq K] {l : List (K × V)}
    (hl : (l.map Prod.fst).Nodup) {k : K} {v : V} :
    (Std.ExtTreeMap.ofList l compare : BTreeMap K V)[k]? = some v ↔ (k, v) ∈ l := by
  have hdistinct := pairwise_of_nodup hl
  have hmem : ∀ {a u}, (a, u) ∈ l → (Std.ExtTreeMap.ofList l compare : BTreeMap K V)[a]? = some u :=
    Std.ExtTreeMap.getElem?_ofList_of_mem (Std.LawfulEqCmp.compare_eq_iff_eq.mpr rfl) hdistinct
  refine ⟨fun hget => ?_, hmem⟩
  by_cases hk : k ∈ l.map Prod.fst
  · obtain ⟨⟨a, u⟩, ha, rfl⟩ := List.mem_map.mp hk
    cases (hmem ha).symm.trans hget
    exact ha
  · have hout : (l.map Prod.fst).contains k = false := by
      rwa [List.contains_eq_mem, decide_eq_false_iff_not]
    cases (Std.ExtTreeMap.getElem?_ofList_of_contains_eq_false hout).symm.trans hget

theorem values_eq (t : BTreeMap K V) : t.values = t.toList.map Prod.snd := by
  obtain ⟨⟨q⟩⟩ := t
  induction q using Quotient.ind with
  | _ t =>
      show t.inner.values = (Std.DTreeMap.Internal.Impl.Const.toList t.inner).map Prod.snd
      rw [Std.DTreeMap.Internal.Impl.values_eq_map_snd,
        Std.DTreeMap.Internal.Impl.Const.toList_eq_toListModel_map, List.map_map]
      rfl

theorem mem_values [Std.LawfulEqOrd K] {t : BTreeMap K V} {v : V} :
    v ∈ t.values ↔ ∃ k : K, t[k]? = some v := by
  rw [values_eq, List.mem_map]
  constructor
  · rintro ⟨⟨k, u⟩, hk, rfl⟩
    exact ⟨k, Std.ExtTreeMap.mem_toList_iff_getElem?_eq_some.mp hk⟩
  · rintro ⟨k, hk⟩
    exact ⟨(k, v), Std.ExtTreeMap.mem_toList_iff_getElem?_eq_some.mpr hk, rfl⟩

instance [Countable K] [Countable V] : Countable (BTreeMap K V) :=
  Function.Injective.countable (f := fun t : BTreeMap K V => t.toList) fun _ _ heq =>
    Std.ExtTreeMap.toList_inj.mp heq

end BTreeMap

end Rust

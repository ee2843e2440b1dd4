/-
# `Rust.Utf8` — strings seen as bytes

A `str` is indexed by bytes.  Searches answer with byte offsets, slices are cut at them, and
`as_bytes` compares encodings.  The rest of the development reads a string as a list of
characters; the lemmas here are the bridge.  No encoding of a character begins another one
(`utf8EncodeChar_append_inj`), so one string begins another exactly when its bytes do
(`asBytes_isPrefix`).
-/
import Syncbox.Lib.Rust

namespace Rust

/-- `slice::get(..=k)`. -/
def upTo (bytes : List Byte) (k : Nat) : Option (List Byte) :=
  if k < bytes.length then some (bytes.take (k + 1)) else none

/-- `str::match_indices` for a character: the byte offsets at which it stands, from `offset`. -/
def matchIndices (c : Char) : Str → Nat → List Nat
  | [], _ => []
  | a :: s, offset =>
      if a = c then offset :: matchIndices c s (offset + a.utf8Size)
      else matchIndices c s (offset + a.utf8Size)

/-- `&s[..k]`, where `k` is the offset of a character. -/
def sliceTo : Str → Nat → Str
  | [], _ => []
  | a :: s, k => if a.utf8Size ≤ k then a :: sliceTo s (k - a.utf8Size) else []

section Utf8

variable {s t : Str}

@[simp] theorem asBytes_nil : asBytes [] = [] := rfl

@[simp] theorem asBytes_cons (c : Char) (s : Str) :
    asBytes (c :: s) = (String.utf8EncodeChar c).map UInt8.toFin ++ asBytes s := List.flatMap_cons

theorem asBytes_append (s t : Str) : asBytes (s ++ t) = asBytes s ++ asBytes t := List.flatMap_append

theorem utf8Len_cons (c : Char) (s : Str) : utf8Len (c :: s) = c.utf8Size + utf8Len s := by
  simp [utf8Len]

theorem utf8Len_append (s t : Str) : utf8Len (s ++ t) = utf8Len s + utf8Len t := by
  simp [utf8Len]

theorem length_asBytes (s : Str) : (asBytes s).length = utf8Len s := by
  induction s with
  | nil => rfl
  | cons c s ih =>
      rw [asBytes_cons, List.length_append, List.length_map, String.length_utf8EncodeChar, ih, utf8Len_cons]

theorem utf8Len_of_ascii (h : ∀ c ∈ s, c.toNat < 128) : utf8Len s = s.length := by
  have hone : ∀ c ∈ s, c.utf8Size = 1 := fun c hc =>
    Char.utf8Size_eq_one_iff.mpr (UInt32.le_iff_toNat_le.mpr (Nat.le_of_lt_succ (h c hc)))
  rw [utf8Len, List.map_congr_left hone, List.map_const', List.sum_replicate_nat, Nat.mul_one]

theorem toNat_lt_of_isAlphanum {c : Char} (h : c.isAlphanum = true) : c.toNat < 128 := by
  simp only [Char.isAlphanum, Char.isAlpha, Char.isUpper, Char.isLower, Char.isDigit, Bool.or_eq_true,
    Bool.and_eq_true, decide_eq_true_eq, ge_iff_le, UInt32.le_iff_toNat_le] at h
  rcases h with (h | h) | h <;> exact h.2.trans_lt (by decide)

theorem utf8EncodeChar_append_inj {c d : Char} {x y : List Byte}
    (h : (String.utf8EncodeChar c).map UInt8.toFin ++ x = (String.utf8EncodeChar d).map UInt8.toFin ++ y) :
    c = d ∧ x = y := by
  have hread : ∀ (c : Char) (x : List Byte), (((String.utf8EncodeChar c).map UInt8.toFin ++ x).map
      UInt8.ofFin).toByteArray.utf8DecodeChar? 0 = some c := by
    intro c x
    rw [List.map_append, List.map_map, show UInt8.ofFin ∘ UInt8.toFin = id from rfl, List.map_id,
      List.toByteArray_append]
    exact ByteArray.utf8DecodeChar?_utf8EncodeChar_append
  have hc : c = d := by
    have hleft := hread c x
    rw [h, hread] at hleft
    exact (Option.some.inj hleft).symm
  subst hc
  exact ⟨rfl, List.append_cancel_left h⟩

theorem asBytes_isPrefix : ∀ {s t : Str}, asBytes s <+: asBytes t ↔ s <+: t
  | [], t => by simp
  | c :: s, [] => by
      constructor
      · intro h
        have hlen := h.length_le
        have hpos := c.utf8Size_pos
        rw [length_asBytes, utf8Len_cons, asBytes_nil, List.length_nil] at hlen
        omega
      · intro h
        cases List.prefix_nil.mp h
  | c :: s, d :: t => by
      rw [List.cons_prefix_cons, ← asBytes_isPrefix, asBytes_cons, asBytes_cons]
      constructor
      · rintro ⟨rest, hrest⟩
        rw [List.append_assoc] at hrest
        obtain ⟨rfl, htail⟩ := utf8EncodeChar_append_inj hrest
        exact ⟨rfl, rest, htail⟩
      · rintro ⟨rfl, rest, hrest⟩
        exact ⟨rest, by rw [List.append_assoc, hrest]⟩

theorem asBytes_injective : Function.Injective asBytes := by
  intro s t h
  have hst := asBytes_isPrefix.mp (h ▸ List.prefix_rfl : asBytes s <+: asBytes t)
  have hts := asBytes_isPrefix.mp (h ▸ List.prefix_rfl : asBytes t <+: asBytes s)
  exact hst.eq_of_length_le hts.length_le

theorem sliceTo_append (s t : Str) : sliceTo (s ++ t) (utf8Len s) = s := by
  induction s with
  | nil =>
      cases t with
      | nil => rfl
      | cons a t =>
          have hpos := a.utf8Size_pos
          show sliceTo (a :: t) 0 = []
          rw [sliceTo, if_neg (by omega)]
  | cons c s ih =>
      rw [List.cons_append, sliceTo, utf8Len_cons, if_pos (Nat.le_add_right _ _), Nat.add_sub_cancel_left,
        ih]

theorem matchIndices_eq (c : Char) : ∀ (s : Str) (offset : Nat), matchIndices c s offset
    = ((List.range s.length).filter fun i => s[i]? = some c).map fun i => offset + utf8Len (s.take i)
  | [], offset => rfl
  | a :: s, offset => by
      have htail : matchIndices c s (offset + a.utf8Size)
          = (((List.range s.length).map Nat.succ).filter fun i => (a :: s)[i]? = some c).map
            fun i => offset + utf8Len ((a :: s).take i) := by
        rw [matchIndices_eq c s, List.filter_map, List.map_map]
        refine congrArg₂ List.map (funext fun i => ?_) (List.filter_congr fun i _ => ?_)
        · show _ = offset + utf8Len ((a :: s).take (i + 1))
          rw [List.take_succ_cons, utf8Len_cons, Nat.add_assoc]
        · rfl
      rw [matchIndices, List.length_cons, List.range_succ_eq_map, List.filter_cons, htail]
      by_cases ha : a = c
      · rw [if_pos ha, if_pos (by simpa using ha)]
        rfl
      · rw [if_neg ha, if_neg (by simpa using ha)]

end Utf8

end Rust

/-
# `Cursor` — fixed-width fields in a buffer

Hand-written binary formats read and write their fields at a cursor that they move along.
`take` reads the next `n` bytes of a source, `put` writes bytes over the next ones of a
target.  Both are described by what is left behind the cursor, so that a sequence of them
composes by appending: a reader is `At.take` once per field, and a writer that starts on
zeroes is `put_filled` once per field.

The bytes are of any type.  The errors are those of the caller.
-/
import Mathlib

namespace Cursor

variable {β ε : Type}

/-- An array of a fixed length. -/
abbrev Field (β : Type) (n : Nat) := {part : List β // part.length = n}

/-! ## Reading -/

/-- The next `n` bytes and the cursor behind them.  The cursor is a `usize`. -/
def take (overflow truncated : ε) (n : Nat) (source : List β) (cursor : Nat) :
    Except ε (Field β n × Nat) :=
  if cursor + n ≥ 2 ^ 64 then .error overflow
  else if h : cursor + n ≤ source.length then
    .ok (⟨(source.drop cursor).take n, by simp; omega⟩, cursor + n)
  else .error truncated

theorem take_eq_ok {overflow truncated : ε} {n : Nat} {source : List β} {cursor stop : Nat}
    {part : Field β n} (hlen : source.length < 2 ^ 64) :
    take overflow truncated n source cursor = .ok (part, stop) ↔
      stop = cursor + n ∧ stop ≤ source.length
        ∧ source.drop cursor = part.val ++ source.drop stop := by
  unfold take
  constructor
  · intro h
    split at h
    · cases h
    · split at h
      · rename_i hle
        cases h
        refine ⟨rfl, hle, ?_⟩
        rw [← List.drop_drop, List.take_append_drop]
      · cases h
  · rintro ⟨rfl, hle, hdrop⟩
    rw [if_neg (by omega), dif_pos hle]
    have hpart : (source.drop cursor).take n = part.val := by
      rw [hdrop, List.take_append_of_le_length part.property.ge, List.take_of_length_le part.property.le]
    simp only [hpart]

/-- `rest` is what is left of the source at the cursor. -/
structure At (source : List β) (cursor : Nat) (rest : List β) : Prop where
  le : cursor ≤ source.length
  drop : source.drop cursor = rest

namespace At

variable {source post : List β} {cursor n : Nat} {part : Field β n}

theorem skip (h : At source cursor (part.val ++ post)) : At source (cursor + n) post := by
  have hlen := congrArg List.length h.drop
  have hle := h.le
  rw [List.length_drop, List.length_append, part.property] at hlen
  refine ⟨by omega, ?_⟩
  rw [← List.drop_drop, h.drop]
  exact List.drop_left' part.property

theorem take {overflow truncated : ε} (h : At source cursor (part.val ++ post))
    (hlen : source.length < 2 ^ 64) :
    take overflow truncated n source cursor = .ok (part, cursor + n) := by
  refine (take_eq_ok hlen).mpr ⟨rfl, h.skip.le, ?_⟩
  rw [h.skip.drop, h.drop]

theorem takeLast {overflow truncated : ε} (h : At source cursor part.val)
    (hlen : source.length < 2 ^ 64) :
    Cursor.take overflow truncated n source cursor = .ok (part, cursor + n) := by
  have h' : At source cursor (part.val ++ []) := by rwa [List.append_nil]
  exact h'.take hlen

end At

theorem take_eq_error {overflow truncated e : ε} {n : Nat} {source : List β} {cursor : Nat}
    (h : take overflow truncated n source cursor = .error e) : e = overflow ∨ e = truncated := by
  unfold take at h
  split at h
  · cases h
    exact .inl rfl
  · split at h
    · cases h
    · cases h
      exact .inr rfl

/-! ## Writing -/

/-- A field written over the next bytes of a target, and the cursor behind it. -/
def put (outOfRange : ε) {n : Nat} (value : Field β n) (target : List β × Nat) :
    Except ε (List β × Nat) :=
  if target.2 + n ≤ target.1.length then
    .ok (target.1.take target.2 ++ value.val ++ target.1.drop (target.2 + n), target.2 + n)
  else .error outOfRange

/-- A target of which `written` is written and `rest` bytes are still zero. -/
def filled (zero : β) (written : List β) (rest : Nat) : List β × Nat :=
  (written ++ List.replicate rest zero, written.length)

theorem put_filled {outOfRange : ε} {n rest : Nat} {value : Field β n} {zero : β}
    {written : List β} (h : n ≤ rest) :
    put outOfRange value (filled zero written rest)
      = .ok (filled zero (written ++ value.val) (rest - n)) := by
  have hlen : written.length + n ≤ (written ++ List.replicate rest zero).length := by
    rw [List.length_append, List.length_replicate]
    omega
  have hdrop : (written ++ List.replicate rest zero).drop (written.length + n)
      = List.replicate (rest - n) zero := by
    rw [← List.drop_drop, List.drop_left, List.drop_replicate]
  rw [put, filled, if_pos hlen]
  simp only [filled, List.take_left, hdrop, List.length_append, value.property]

end Cursor

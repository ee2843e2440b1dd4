/-
# `Symbolic` — bytes of an ideal message authentication code

The symbolic model of a MAC, one byte at a time.  A byte is plain, or it is one of the 32
bytes of the code of a message under a key, and remembers which.  Codes are free: no two of
them share a byte and none has a plain byte.  They are also one-way: there is no way from a
code to its key or its message, and an adversary can build one only under a key it has
(`Derives`).

`Derives.mac_mem` is the whole use of this: a byte of a code under a key that the adversary
lacks is one it has seen.
-/
import Syncbox.Lib.Rust

namespace Symbolic

open Rust

inductive SymByte (K : Type) where
  | raw (b : Byte)
  | mac (key : K) (message : List (SymByte K)) (index : Fin 32)

variable {K : Type}

namespace SymByte

mutual

/-- Equality of bytes is decidable when that of keys is. -/
def decEq [DecidableEq K] : (x y : SymByte K) → Decidable (x = y)
  | .raw a, .raw b => decidable_of_iff (a = b) (by simp)
  | .raw _, .mac _ _ _ => isFalse (by simp)
  | .mac _ _ _, .raw _ => isFalse (by simp)
  | .mac k m i, .mac k' m' i' =>
      match decEqList m m' with
      | isTrue h => decidable_of_iff (k = k' ∧ i = i') (by simp [h])
      | isFalse h => isFalse (by simp [h])

def decEqList [DecidableEq K] : (l m : List (SymByte K)) → Decidable (l = m)
  | [], [] => isTrue rfl
  | [], _ :: _ => isFalse (by simp)
  | _ :: _, [] => isFalse (by simp)
  | x :: l, y :: m =>
      match decEq x y, decEqList l m with
      | isTrue h, isTrue h' => isTrue (by rw [h, h'])
      | isFalse h, _ => isFalse (by simp [h])
      | _, isFalse h => isFalse (by simp [h])

end

instance [DecidableEq K] : DecidableEq (SymByte K) := decEq

/-- The plain byte, if it is one. -/
def plain : SymByte K → Option Byte
  | .raw b => some b
  | .mac _ _ _ => none

theorem plain_eq_some {x : SymByte K} {b : Byte} : x.plain = some b ↔ x = .raw b := by
  cases x with
  | raw a => simp [plain]
  | mac key message index => simp [plain]

/-- The code of a message. -/
def hmac (key : K) (message : List (SymByte K)) : {code : List (SymByte K) // code.length = 32} :=
  ⟨List.ofFn (mac key message), List.length_ofFn⟩

theorem mem_hmac {key : K} {message : List (SymByte K)} {x : SymByte K} :
    x ∈ (hmac key message).val ↔ ∃ index, x = mac key message index := by
  simp only [hmac, List.mem_ofFn, eq_comm]

theorem hmac_inj {key key' : K} {message message' : List (SymByte K)}
    (h : hmac key message = hmac key' message') : key = key' ∧ message = message' := by
  have hmem : mac key message 0 ∈ (hmac key' message').val := h ▸ mem_hmac.mpr ⟨0, rfl⟩
  obtain ⟨index, heq⟩ := mem_hmac.mp hmem
  rw [mac.injEq] at heq
  exact ⟨heq.1, heq.2.1⟩

end SymByte

/-- What an adversary with some keys can make out of the bytes it has seen. -/
inductive Derives (keys : Set K) (seen : Set (SymByte K)) : SymByte K → Prop
  | raw (b : Byte) : Derives keys seen (.raw b)
  | seen {x : SymByte K} : x ∈ seen → Derives keys seen x
  | mac {key : K} {message : List (SymByte K)} (index : Fin 32) :
      key ∈ keys → (∀ x ∈ message, Derives keys seen x) → Derives keys seen (.mac key message index)

namespace Derives

variable {keys : Set K} {seen : Set (SymByte K)}

theorem mac_mem {key : K} {message : List (SymByte K)} {index : Fin 32}
    (h : Derives keys seen (.mac key message index)) (hkey : key ∉ keys) :
    SymByte.mac key message index ∈ seen := by
  cases h with
  | seen h => exact h
  | mac _ h _ => exact absurd h hkey

theorem hmac_mem {key : K} {message : List (SymByte K)}
    (h : ∀ x ∈ (SymByte.hmac key message).val, Derives keys seen x) (hkey : key ∉ keys) :
    SymByte.mac key message 0 ∈ seen :=
  (h _ (SymByte.mem_hmac.mpr ⟨0, rfl⟩)).mac_mem hkey

end Derives

end Symbolic

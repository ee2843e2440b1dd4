/-
# `Base64` — the URL-safe alphabet, without padding

`URL_SAFE_NO_PAD` of the `base64` crate is a parameter.  What a program may rely on are the
laws of `Base64`: decoding takes an encoding back, the length of an encoding, and the
symbols it consists of.  Nothing is said of texts that are no encoding; a program that
decodes one has to compare.

`Base64.urlSafe` is an instance to compute with.  Three bytes are four symbols of six bits;
two bytes are three symbols and one byte is two, with the bits that are left over zero.
Decoding refuses symbols outside the alphabet, a single last symbol and left-over bits that
are not zero.
-/
import Syncbox.Lib.Rust

open Rust

class Base64 where
  encode : List Byte → Str
  decode : Str → Option (List Byte)
  decode_encode : ∀ bytes, decode (encode bytes) = some bytes
  length_encode : ∀ bytes, (encode bytes).length = (4 * bytes.length + 2) / 3
  alphabet : ∀ {bytes c}, c ∈ encode bytes → c.isAlphanum ∨ c = '-' ∨ c = '_'

namespace UrlSafe

/-- The symbol of six bits. -/
def symbol (n : Fin 64) : Char :=
  if n.val < 26 then Char.ofNat ('A'.toNat + n.val)
  else if n.val < 52 then Char.ofNat ('a'.toNat + (n.val - 26))
  else if n.val < 62 then Char.ofNat ('0'.toNat + (n.val - 52))
  else if n.val = 62 then '-' else '_'

/-- The six bits of a symbol. -/
def value (c : Char) : Option (Fin 64) := (List.finRange 64).find? fun n => symbol n = c

theorem value_symbol : ∀ n : Fin 64, value (symbol n) = some n := by decide +kernel

/-- The six bits of a number below 64. -/
def six (n : Nat) : Fin 64 := ⟨n % 64, Nat.mod_lt _ (by decide)⟩

/-- The eight bits of a number below 256. -/
def byte (n : Nat) : Byte := ⟨n % 256, mod_byte n⟩

def encode : List Byte → Str
  | a :: b :: c :: rest =>
      symbol (six (a.val / 4)) :: symbol (six (a.val % 4 * 16 + b.val / 16))
        :: symbol (six (b.val % 16 * 4 + c.val / 64)) :: symbol (six (c.val % 64)) :: encode rest
  | [a, b] =>
      [symbol (six (a.val / 4)), symbol (six (a.val % 4 * 16 + b.val / 16)),
        symbol (six (b.val % 16 * 4))]
  | [a] => [symbol (six (a.val / 4)), symbol (six (a.val % 4 * 16))]
  | [] => []

def decode : Str → Option (List Byte)
  | w :: x :: y :: z :: rest => do
      let w ← value w
      let x ← value x
      let y ← value y
      let z ← value z
      let bytes ← decode rest
      some (byte (w.val * 4 + x.val / 16) :: byte (x.val % 16 * 16 + y.val / 4)
        :: byte (y.val % 4 * 64 + z.val) :: bytes)
  | [w, x, y] => do
      let w ← value w
      let x ← value x
      let y ← value y
      if y.val % 4 = 0 then
        some [byte (w.val * 4 + x.val / 16), byte (x.val % 16 * 16 + y.val / 4)]
      else none
  | [w, x] => do
      let w ← value w
      let x ← value x
      if x.val % 16 = 0 then some [byte (w.val * 4 + x.val / 16)] else none
  | [_] => none
  | [] => some []

theorem decode_encode (bytes : List Byte) : decode (encode bytes) = some bytes := by
  fun_induction encode bytes with
  | case1 a b c rest ih =>
      have ha := a.isLt
      have hb := b.isLt
      have hc := c.isLt
      simp only [decode, value_symbol, ih, Option.bind_eq_bind, Option.bind_some, six, byte,
        Option.some.injEq, List.cons.injEq, Fin.ext_iff, and_true]
      refine ⟨?_, ?_, ?_⟩ <;> omega
  | case2 a b =>
      have ha := a.isLt
      have hb := b.isLt
      simp only [decode, value_symbol, Option.bind_eq_bind, Option.bind_some, six, byte]
      rw [if_pos (by omega)]
      simp only [Option.some.injEq, List.cons.injEq, Fin.ext_iff, and_true]
      refine ⟨?_, ?_⟩ <;> omega
  | case3 a =>
      have ha := a.isLt
      simp only [decode, value_symbol, Option.bind_eq_bind, Option.bind_some, six, byte]
      rw [if_pos (by omega)]
      simp only [Option.some.injEq, List.cons.injEq, Fin.ext_iff, and_true]
      omega
  | case4 => rfl

theorem symbol_alphabet : ∀ n : Fin 64, (symbol n).isAlphanum ∨ symbol n = '-' ∨ symbol n = '_' := by
  decide +kernel

theorem symbol_of_mem_encode {bytes : List Byte} {c : Char} (h : c ∈ encode bytes) :
    ∃ n, c = symbol n := by
  fun_induction encode bytes with
  | case1 a b d rest ih =>
      simp only [List.mem_cons] at h
      rcases h with rfl | rfl | rfl | rfl | h
      · exact ⟨_, rfl⟩
      · exact ⟨_, rfl⟩
      · exact ⟨_, rfl⟩
      · exact ⟨_, rfl⟩
      · exact ih h
  | case2 a b =>
      simp only [List.mem_cons, List.not_mem_nil, or_false] at h
      rcases h with rfl | rfl | rfl <;> exact ⟨_, rfl⟩
  | case3 a =>
      simp only [List.mem_cons, List.not_mem_nil, or_false] at h
      rcases h with rfl | rfl <;> exact ⟨_, rfl⟩
  | case4 => simp at h

theorem length_encode (bytes : List Byte) : (encode bytes).length = (4 * bytes.length + 2) / 3 := by
  fun_induction encode bytes with
  | case1 a b c rest ih =>
      simp only [List.length_cons, ih]
      omega
  | case2 a b => simp
  | case3 a => simp
  | case4 => rfl

end UrlSafe

@[reducible] def Base64.urlSafe : Base64 where
  encode := UrlSafe.encode
  decode := UrlSafe.decode
  decode_encode := UrlSafe.decode_encode
  length_encode := UrlSafe.length_encode
  alphabet := fun h => by
    obtain ⟨n, rfl⟩ := UrlSafe.symbol_of_mem_encode h
    exact UrlSafe.symbol_alphabet n

/-
# `Encode` — bytes that can be read back

Two things that byte formats are built from.  `toBe` and `ofBe` are the big-endian
numbers of a fixed width, `to_be_bytes` and `from_be_bytes`.  An encoding is
`SelfDelimiting` when its end can be told from its bytes: a value followed by anything
determines both the value and what follows.  Formats without separators are unambiguous
for this reason alone, and the property is kept by putting encodings one after another
and by writing a list after its length.

Encodings need not be faithful everywhere — a length is, only below the bound of its
field — so the property is relative to a predicate on the values.
-/
import Syncbox.Lib.Rust

namespace Encode

open Rust

/-! ## Big-endian numbers -/

/-- The low `width` bytes of a number, most significant first. -/
def toBe : Nat → Nat → List Byte
  | 0, _ => []
  | width + 1, n => toBe width (n / 256) ++ [⟨n % 256, mod_byte n⟩]

/-- The number that bytes spell, most significant first. -/
def ofBe (bytes : List Byte) : Nat := bytes.foldl (fun n b => 256 * n + b.val) 0

@[simp] theorem length_toBe (width n : Nat) : (toBe width n).length = width := by
  induction width generalizing n with
  | zero => rfl
  | succ width ih => simp [toBe, ih]

theorem ofBe_concat (bytes : List Byte) (b : Byte) : ofBe (bytes ++ [b]) = 256 * ofBe bytes + b.val := by
  simp [ofBe]

theorem ofBe_toBe {width n : Nat} (h : n < 256 ^ width) : ofBe (toBe width n) = n := by
  induction width generalizing n with
  | zero =>
      have : n = 0 := by simpa using h
      rw [this]
      rfl
  | succ width ih =>
      have hdiv : n / 256 < 256 ^ width := by
        rw [Nat.div_lt_iff_lt_mul (by decide)]
        rwa [Nat.pow_succ] at h
      rw [toBe, ofBe_concat, ih hdiv]
      exact Nat.div_add_mod n 256

theorem ofBe_lt (bytes : List Byte) : ofBe bytes < 256 ^ bytes.length := by
  induction bytes using List.reverseRecOn with
  | nil => decide
  | append_singleton bytes b ih =>
      rw [ofBe_concat, List.length_append, List.length_singleton, Nat.pow_succ]
      have := b.isLt
      omega

theorem toBe_ofBe (bytes : List Byte) : toBe bytes.length (ofBe bytes) = bytes := by
  induction bytes using List.reverseRecOn with
  | nil => rfl
  | append_singleton bytes b ih =>
      have hb := b.isLt
      have hdiv : (256 * ofBe bytes + b.val) / 256 = ofBe bytes := by omega
      have hmod : (256 * ofBe bytes + b.val) % 256 = b.val := by omega
      rw [List.length_append, List.length_singleton, toBe, ofBe_concat, hdiv, ih]
      congr 2
      exact Fin.ext hmod

theorem toBe_ofBe_field {width : Nat} (part : {part : List Byte // part.length = width}) :
    toBe width (ofBe part.val) = part.val := by
  obtain ⟨part, rfl⟩ := part
  exact toBe_ofBe part

/-! ## Self-delimiting encodings -/

/-- A value with property `P`, followed by anything, determines both. -/
def SelfDelimiting {α β : Type} (P : α → Prop) (enc : α → List β) : Prop :=
  ∀ ⦃a b s t⦄, P a → P b → enc a ++ s = enc b ++ t → a = b ∧ s = t

namespace SelfDelimiting

variable {α β : Type} {P : α → Prop} {enc : α → List β}

theorem of_fixed (width : Nat) (hlen : ∀ a, P a → (enc a).length = width)
    (hinj : ∀ a b, P a → P b → enc a = enc b → a = b) : SelfDelimiting P enc := by
  intro a b s t ha hb h
  obtain ⟨he, hs⟩ := List.append_inj h (by rw [hlen a ha, hlen b hb])
  exact ⟨hinj a b ha hb he, hs⟩

theorem injective (h : SelfDelimiting P enc) {a b : α} (ha : P a) (hb : P b)
    (he : enc a = enc b) : a = b :=
  (h (s := []) (t := []) ha hb (by rw [he])).1

theorem flatMap (h : SelfDelimiting P enc) :
    ∀ {l l' : List α} {s t : List β}, l.length = l'.length → (∀ x ∈ l, P x) → (∀ x ∈ l', P x) →
      l.flatMap enc ++ s = l'.flatMap enc ++ t → l = l' ∧ s = t := by
  intro l
  induction l with
  | nil =>
      intro l' s t hlen _ _ he
      obtain rfl := List.eq_nil_of_length_eq_zero hlen.symm
      exact ⟨rfl, by simpa using he⟩
  | cons x l ih =>
      intro l' s t hlen hl hl' he
      cases l' with
      | nil => simp at hlen
      | cons y l' =>
          simp only [List.flatMap_cons, List.append_assoc] at he
          obtain ⟨rfl, hrest⟩ := h (hl x List.mem_cons_self) (hl' y List.mem_cons_self) he
          obtain ⟨rfl, hst⟩ := ih (by simpa using hlen)
            (fun z hz => hl z (List.mem_cons_of_mem _ hz))
            (fun z hz => hl' z (List.mem_cons_of_mem _ hz)) hrest
          exact ⟨rfl, hst⟩

end SelfDelimiting

theorem selfDelimiting_toBe (width : Nat) :
    SelfDelimiting (fun n => n < 256 ^ width) (toBe width) :=
  SelfDelimiting.of_fixed width (fun _ _ => length_toBe _ _) fun a b ha hb he => by
    rw [← ofBe_toBe ha, he, ofBe_toBe hb]

/-- A list after its length. -/
def counted {α : Type} (width : Nat) (enc : α → List Byte) (l : List α) : List Byte :=
  toBe width l.length ++ l.flatMap enc

theorem SelfDelimiting.counted {α : Type} {P : α → Prop} {enc : α → List Byte}
    (h : SelfDelimiting P enc) (width : Nat) :
    SelfDelimiting (fun l : List α => l.length < 256 ^ width ∧ ∀ x ∈ l, P x)
      (Encode.counted width enc) := by
  intro l l' s t hl hl' he
  simp only [Encode.counted, List.append_assoc] at he
  obtain ⟨hlen, hrest⟩ := selfDelimiting_toBe width hl.1 hl'.1 he
  exact h.flatMap hlen hl.2 hl'.2 hrest

end Encode

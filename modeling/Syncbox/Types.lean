/-
# `Syncbox.Types` — identifiers, errors and the hybrid logical clock

The types of `src/types/mod.rs` that the rest uses, and the two operations of
`ClockState`.

`HlcTimestamp` compares wall clock, then counter, then author.  What the clock
guarantees it guarantees for the first two alone — the `stamp` — and the author
never matters: `tick_stamp` and `observe_stamp` are the whole interface the
manifest proofs use.
-/
import Syncbox.Lib.Check
import Syncbox.Lib.Utf8

namespace Syncbox

open Rust Check

def PROTOCOL_VERSION : U16 := 6

/-! ## Identifiers -/

/-- `[u8; 32]`: share identifiers and public keys. -/
abbrev Bytes32 := {bytes : List Byte // bytes.length = 32}

abbrev ShareId := Bytes32
abbrev EndpointId := Bytes32

/-! ## What other crates compute -/

/-- `b.is_ascii_digit() || (b'a'..=b'f').contains(&b)`. -/
def isLowerHex (c : Char) : Bool := c.isDigit || ('a' ≤ c && c ≤ 'f')

theorem toNat_lt_of_isLowerHex {c : Char} (h : isLowerHex c = true) : c.toNat < 128 := by
  simp only [isLowerHex, Char.isDigit, Bool.or_eq_true, Bool.and_eq_true, decide_eq_true_eq, ge_iff_le,
    Char.le_def, UInt32.le_iff_toNat_le] at h
  rcases h with h | h <;> exact h.2.trans_lt (by decide)

/-- The functions taken from other crates, with what is assumed of them.  Digests of `blake3`
have a type of their own: the one thing ever assumed of it is that it does not collide, which
no function into 32 bytes satisfies. -/
class Crypto where
  /-- `iroh::EndpointId::from_bytes` succeeds. -/
  endpointIdValid : Bytes32 → Bool
  /-- `iroh::EndpointId::to_string`. -/
  endpointIdString : Bytes32 → Str
  /-- `iroh::EndpointId::from_str`. -/
  endpointIdFromStr : Str → Option Bytes32
  sha256 : List Byte → Bytes32
  Digest : Type
  decEqDigest : DecidableEq Digest
  blake3 : List Byte → Digest
  /-- `blake3::Hash::as_bytes`. -/
  digestBytes : Digest → Bytes32
  /-- `Hmac<Sha256>` of a message under a key. -/
  hmacSha256 : Bytes32 → List Byte → Bytes32
  /-- `hex::encode`. -/
  hexEncode : List Byte → Str
  length_hexEncode : ∀ bytes, (hexEncode bytes).length = 2 * bytes.length
  isLowerHex_hexEncode : ∀ {bytes c}, c ∈ hexEncode bytes → isLowerHex c = true
  hexEncode_injective : ∀ {a b}, hexEncode a = hexEncode b → a = b

export Crypto (endpointIdValid endpointIdString endpointIdFromStr Digest hexEncode length_hexEncode
  isLowerHex_hexEncode hexEncode_injective)

instance [Crypto] : DecidableEq Digest := Crypto.decEqDigest

/-- An `iroh::EndpointId`: bytes that are a public key. -/
abbrev PeerId [Crypto] := {id : EndpointId // endpointIdValid id = true}

/-- `hex::encode(Sha256::digest(bytes))`. -/
def sha256Hex [Crypto] (bytes : List Byte) : Str := hexEncode (Crypto.sha256 bytes).val

/-- A digest in hexadecimal has the shape `ManifestEntry::validate` asks for. -/
theorem sha256Hex_shape [Crypto] (bytes : List Byte) :
    utf8Len (sha256Hex bytes) = 64 ∧ (sha256Hex bytes).all isLowerHex := by
  constructor
  · rw [sha256Hex, utf8Len_of_ascii fun c hc => toNat_lt_of_isLowerHex (isLowerHex_hexEncode hc),
      length_hexEncode, (Crypto.sha256 bytes).property]
  · exact List.all_eq_true.mpr fun c hc => isLowerHex_hexEncode hc

/-! ## Functions to compute with -/

/-- `char::from_digit(n, 16)` for `n < 16`. -/
def hexDigit (n : Fin 16) : Char := Nat.digitChar n

def hexText (bytes : List Byte) : Str :=
  bytes.flatMap fun b =>
    [hexDigit ⟨b.val / 16, by have := b.isLt; omega⟩, hexDigit ⟨b.val % 16, by omega⟩]

theorem length_hexText (l : List Byte) : (hexText l).length = 2 * l.length := by
  induction l with
  | nil => rfl
  | cons b l ih =>
      have hcons : hexText (b :: l) = hexText [b] ++ hexText l := rfl
      rw [hcons, List.length_append, ih, List.length_cons]
      show 2 + _ = _
      omega

theorem isLowerHex_hexText {l : List Byte} {c : Char} (hc : c ∈ hexText l) : isLowerHex c = true := by
  have hdigit : ∀ n : Fin 16, isLowerHex (hexDigit n) = true := by decide
  obtain ⟨b, -, hb⟩ := List.mem_flatMap.mp hc
  rcases List.mem_cons.mp hb with rfl | hb
  · exact hdigit _
  · rw [List.mem_singleton.mp hb]
    exact hdigit _

/-- The value of a hexadecimal digit of either case. -/
def hexValue (c : Char) : Option (Fin 16) := (List.finRange 16).find? fun n => hexDigit n = c.toLower

def hexBytes : Str → Option (List Byte)
  | [] => some []
  | [_] => none
  | high :: low :: rest => do
      let h ← hexValue high
      let l ← hexValue low
      let bytes ← hexBytes rest
      some (⟨16 * h.val + l.val, by have := h.isLt; have := l.isLt; omega⟩ :: bytes)

theorem hexBytes_hexText (l : List Byte) : hexBytes (hexText l) = some l := by
  have hvalue : ∀ n : Fin 16, hexValue (hexDigit n) = some n := by decide
  induction l with
  | nil => rfl
  | cons b l ih =>
      have hcons : hexText (b :: l) = hexDigit ⟨b.val / 16, by have := b.isLt; omega⟩
        :: hexDigit ⟨b.val % 16, by omega⟩ :: hexText l := rfl
      rw [hcons, hexBytes, hvalue, hvalue, ih]
      simp only [Option.bind_eq_bind, Option.bind_some, Option.some.injEq, List.cons.injEq, and_true]
      exact Fin.ext (Nat.div_add_mod b.val 16)

theorem hexText_injective {a b : List Byte} (hab : hexText a = hexText b) : a = b := by
  have hbytes := hexBytes_hexText a
  rw [hab, hexBytes_hexText] at hbytes
  exact (Option.some.inj hbytes).symm

/-- Every key is accepted, a SHA-256 digest is the first 32 bytes and a BLAKE3 digest is all
of them. -/
@[reducible] def Crypto.plain : Crypto where
  endpointIdValid := fun _ => true
  endpointIdString := fun id => hexText id.val
  endpointIdFromStr := fun _ => none
  sha256 := fun bytes => ⟨(bytes ++ List.replicate 32 0).take 32, by simp⟩
  Digest := List Byte
  decEqDigest := inferInstance
  blake3 := id
  digestBytes := fun bytes => ⟨(bytes ++ List.replicate 32 0).take 32, by simp⟩
  hmacSha256 := fun key bytes => ⟨(key.val ++ bytes).take 32, by simp [key.property]⟩
  hexEncode := hexText
  length_hexEncode := length_hexText
  isLowerHex_hexEncode := isLowerHex_hexText
  hexEncode_injective := hexText_injective

/-- As `Crypto.plain`, with identifiers that are read again. -/
@[reducible] def Crypto.hex : Crypto :=
  { Crypto.plain with
    endpointIdFromStr := fun value => (hexBytes value).bind fun bytes =>
      if h : bytes.length = 32 then some ⟨bytes, h⟩ else none }

theorem Crypto.hex_fromStr (id : EndpointId) :
    Crypto.hex.endpointIdFromStr (hexText id.val) = some id := by
  show (hexBytes (hexText id.val)).bind _ = some id
  rw [hexBytes_hexText]
  exact dif_pos id.property

/-! ## Errors -/

/-- An `anyhow` error: a `bail!` text, an I/O error under its context, or an error under a
further context.  A `panic` is no value of the program; it stands for an index out of range. -/
inductive Error where
  | bail (message : String)
  | io (context : String) (kind : IoKind)
  | caused (context : String) (source : Error)
  | panic (message : String)
  deriving DecidableEq, Repr

/-- Errors that the code raises itself. -/
inductive Error.Raised : Error → Prop
  | bail (message : String) : Raised (.bail message)

/-! ## Endpoint identifiers as text -/

def parseEndpointId [Crypto] (value : Str) : Except Error EndpointId :=
  match endpointIdFromStr value with
  | none => .error (.bail "invalid Iroh endpoint ID")
  | some endpointId => do
      rejectIf (endpointIdString endpointId ≠ value)
        (.bail "endpoint ID must use canonical lowercase hexadecimal encoding")
      .ok endpointId

/-! ## Known peers -/

structure PeerRecord where
  endpointId : Str
  addedAtMs : U64
  lastSeenAtMs : Option U64
  deriving Countable

def FORMAT_VERSION : Nat := 1

structure KnownPeers where
  formatVersion : Nat
  peers : List PeerRecord
  deriving Countable

def KnownPeers.validate [Crypto] (known : KnownPeers) : Except Error Unit := do
  rejectIf (known.formatVersion ≠ FORMAT_VERSION)
    (.bail ("unsupported known peers format version " ++ toString known.formatVersion))
  rejectIf (known.peers.length > 256) (.bail "known peers list exceeds its maximum size")
  let _ ← Check.distinct
    (fun peer => match parseEndpointId peer.endpointId with
      | .ok _ => .ok ()
      | .error e => .error (.caused "known peers contains an invalid endpoint ID" e))
    PeerRecord.endpointId (.bail "known peers list contains a duplicate endpoint ID") known.peers
  .ok ()

theorem KnownPeers.validate_eq_ok [Crypto] {known : KnownPeers} : known.validate = .ok () ↔
    known.formatVersion = FORMAT_VERSION ∧ known.peers.length ≤ 256
      ∧ (∀ peer ∈ known.peers, ∃ id, parseEndpointId peer.endpointId = .ok id)
      ∧ (known.peers.map PeerRecord.endpointId).Nodup := by
  have hcheck : ∀ value, (match parseEndpointId value with
      | .ok _ => .ok ()
      | .error e => .error (.caused "known peers contains an invalid endpoint ID" e))
        = (.ok () : Except Error Unit) ↔ ∃ id, parseEndpointId value = .ok id := by
    intro value
    cases parseEndpointId value with
    | ok id => exact ⟨fun _ => ⟨id, rfl⟩, fun _ => rfl⟩
    | error e => exact ⟨fun h => (by cases h), fun ⟨_, h⟩ => (by cases h)⟩
  rw [validate, andThen_eq_ok, andThen_eq_ok, Check.distinct_andThen]
  simp only [rejectIf_eq_ok, ne_eq, Decidable.not_not, gt_iff_lt, not_lt, hcheck, and_true]

/-! ## Timestamps -/

structure HlcTimestamp where
  wallMs : U64
  counter : U32
  author : EndpointId
  deriving DecidableEq, Countable

namespace HlcTimestamp

/-- The tuple `Ord for HlcTimestamp` compares. -/
def key (t : HlcTimestamp) : U64 ×ₗ U32 ×ₗ Bytes32 := toLex (t.wallMs, toLex (t.counter, t.author))

theorem key_injective : Function.Injective key := by
  rintro ⟨w, c, a⟩ ⟨w', c', a'⟩ h
  have h := toLex.injective h
  simp only [Prod.mk.injEq, EmbeddingLike.apply_eq_iff_eq] at h
  obtain ⟨rfl, rfl, rfl⟩ := h
  rfl

instance : LinearOrder HlcTimestamp := LinearOrder.lift' key key_injective

/-- Wall clock and counter, without the author. -/
def stamp (t : HlcTimestamp) : U64 ×ₗ U32 := toLex (t.wallMs, t.counter)

theorem lt_of_stamp_lt {a b : HlcTimestamp} (h : a.stamp < b.stamp) : a < b := by
  have h' : a.wallMs < b.wallMs ∨ a.wallMs = b.wallMs ∧ a.counter < b.counter :=
    Prod.Lex.lt_iff.mp h
  show a.key < b.key
  refine Prod.Lex.lt_iff.mpr ?_
  rcases h' with h' | ⟨hw, hc⟩
  · exact .inl h'
  · exact .inr ⟨hw, Prod.Lex.lt_iff.mpr (.inl hc)⟩

/-- A timestamp by its wall clock, for examples. -/
def ofWall (wallMs : U64) : HlcTimestamp := ⟨wallMs, 0, ⟨List.replicate 32 0, length_zeros⟩⟩

end HlcTimestamp

/-! ## The clock -/

structure ClockState where
  formatVersion : Nat
  lastWallMs : U64
  lastCounter : U32
  deriving DecidableEq, Countable

namespace ClockState

def new : ClockState := ⟨FORMAT_VERSION, 0, 0⟩

def validate (c : ClockState) : Except Error Unit :=
  rejectIf (c.formatVersion ≠ FORMAT_VERSION)
    (.bail ("unsupported clock format version " ++ toString c.formatVersion))

def overflow : Error := .bail "hybrid logical clock counter overflow"

/-- `checked_add(1).ok_or_else(overflow)`. -/
def bump (n : U32) : Except Error U32 :=
  match checkedAddOne n with
  | some m => .ok m
  | none => .error overflow

/-- The two branches of `tick`: a later wall clock resets the counter. -/
def advance (c : ClockState) (nowMs : U64) : Except Error ClockState :=
  if nowMs > c.lastWallMs then .ok { c with lastWallMs := nowMs, lastCounter := 0 }
  else (bump c.lastCounter).map fun n => { c with lastCounter := n }

def tick (c : ClockState) (nowMs : U64) (author : EndpointId) :
    Except Error (HlcTimestamp × ClockState) := do
  c.validate
  let c' ← c.advance nowMs
  .ok (⟨c'.lastWallMs, c'.lastCounter, author⟩, c')

/-- The four branches of `observe`, by which clocks attain the maximum. -/
def nextCounter (c : ClockState) (remote : HlcTimestamp) (maxWall : U64) : Except Error U32 :=
  if maxWall = c.lastWallMs ∧ maxWall = remote.wallMs then bump (max c.lastCounter remote.counter)
  else if maxWall = c.lastWallMs then bump c.lastCounter
  else if maxWall = remote.wallMs then bump remote.counter
  else .ok 0

def observe (c : ClockState) (remote : HlcTimestamp) (nowMs : U64) : Except Error ClockState := do
  c.validate
  let maxWall := max (max c.lastWallMs remote.wallMs) nowMs
  let n ← c.nextCounter remote maxWall
  .ok { c with lastWallMs := maxWall, lastCounter := n }

/-- The reading of the clock. -/
def stamp (c : ClockState) : U64 ×ₗ U32 := toLex (c.lastWallMs, c.lastCounter)

theorem stamp_lt_iff {w w' : U64} {n n' : U32} :
    (toLex (w, n) : U64 ×ₗ U32) < toLex (w', n') ↔ w < w' ∨ w = w' ∧ n < n' :=
  Prod.Lex.lt_iff

theorem bump_lt {n m : U32} (h : bump n = .ok m) : n < m := by
  unfold bump at h
  split at h
  · rename_i k hk
    cases h
    have := checkedAddOne_val hk
    exact Fin.lt_def.mpr (by omega)
  · cases h

/-- A tick moves the clock strictly forward and returns its new reading. -/
theorem tick_stamp {c c' : ClockState} {nowMs : U64} {author : EndpointId} {t : HlcTimestamp}
    (h : c.tick nowMs author = .ok (t, c')) :
    c.stamp < c'.stamp ∧ t.stamp = c'.stamp ∧ t.author = author
      ∧ c'.formatVersion = c.formatVersion := by
  simp only [tick, bind_eq_ok] at h
  obtain ⟨-, -, c₁, hc₁, h⟩ := h
  cases h
  unfold advance at hc₁
  split at hc₁
  · cases hc₁
    exact ⟨stamp_lt_iff.mpr (.inl ‹_›), rfl, rfl, rfl⟩
  · cases hn : bump c.lastCounter with
    | error e => rw [hn] at hc₁; cases hc₁
    | ok n =>
        rw [hn] at hc₁
        cases hc₁
        exact ⟨stamp_lt_iff.mpr (.inr ⟨rfl, bump_lt hn⟩), rfl, rfl, rfl⟩

/-- Observing a timestamp moves the clock strictly past it and past itself. -/
theorem observe_stamp {c c' : ClockState} {remote : HlcTimestamp} {nowMs : U64}
    (h : c.observe remote nowMs = .ok c') :
    c.stamp < c'.stamp ∧ remote.stamp < c'.stamp ∧ c'.formatVersion = c.formatVersion := by
  simp only [observe, bind_eq_ok] at h
  obtain ⟨-, -, n, hn, h⟩ := h
  cases h
  have hc : c.lastWallMs ≤ max (max c.lastWallMs remote.wallMs) nowMs :=
    le_trans (le_max_left _ _) (le_max_left _ _)
  have hr : remote.wallMs ≤ max (max c.lastWallMs remote.wallMs) nowMs :=
    le_trans (le_max_right _ _) (le_max_left _ _)
  generalize max (max c.lastWallMs remote.wallMs) nowMs = w at hc hr hn
  unfold nextCounter at hn
  refine ⟨stamp_lt_iff.mpr ?_, stamp_lt_iff.mpr ?_, rfl⟩
  · split at hn
    · rename_i hw
      exact .inr ⟨hw.1.symm, lt_of_le_of_lt (le_max_left _ _) (bump_lt hn)⟩
    · split at hn
      · rename_i hw
        exact .inr ⟨hw.symm, bump_lt hn⟩
      · rename_i hw
        exact .inl (lt_of_le_of_ne hc (Ne.symm hw))
  · split at hn
    · rename_i hw
      exact .inr ⟨hw.2.symm, lt_of_le_of_lt (le_max_right _ _) (bump_lt hn)⟩
    · split at hn
      · rename_i hw hw'
        exact .inl (lt_of_le_of_ne hr fun he => hw ⟨hw', he.symm⟩)
      · split at hn
        · rename_i hw
          exact .inr ⟨hw.symm, bump_lt hn⟩
        · rename_i hw
          exact .inl (lt_of_le_of_ne hr (Ne.symm hw))

end ClockState

end Syncbox

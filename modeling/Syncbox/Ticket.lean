/-
# `Syncbox.Ticket` — share tickets

`ShareTicket` of `src/ticket/mod.rs`: the text by which a share is handed to another
device.  A ticket is a fixed header, the endpoints of up to 64 peers and a checksum of
all that, in base64 behind a prefix.

`parse` is taken apart into three steps that each have one condition under which they
succeed: the text is the base64 of some bytes (`decodeText_eq_ok`), the bytes end in their
checksum (`checkedContent_eq_ok`), and what is before it is the content of a ticket
(`content_of_readFields`, `readFields_content`).
-/
import Syncbox.Lib.Base64
import Syncbox.Lib.Cursor
import Syncbox.Lib.Encode
import Syncbox.Types

namespace Syncbox

open Rust Encode Check

open Check (Raises)

open Cursor (Field)

/-! ## The format -/

def TICKET_PROTOCOL_VERSION : U16 := 1
def TICKET_PREFIX : Str := "syncbox1:".toList
def TICKET_MAGIC : List Byte := asBytes "SBTK".toList
def CHECKSUM_LENGTH : Nat := 16
def MAX_INITIAL_PEERS : Nat := 64
def MAX_TICKET_TEXT_LENGTH : Nat := 4096
def TICKET_CHECKSUM_DOMAIN : List Byte := asBytes "syncbox-ticket-v1".toList

structure ShareTicket [Crypto] where
  protocolVersion : U16
  shareId : ShareId
  shareSecret : Bytes32
  initialPeers : List PeerId
  deriving DecidableEq

namespace ShareTicket

/-! ## The bytes and the text -/

/-- `&bytes[start..stop]`. -/
def slice (bytes : List Byte) (start stop : Nat) : Except Error (List Byte) :=
  if start ≤ stop ∧ stop ≤ bytes.length then .ok ((bytes.take stop).drop start)
  else .error (.panic "range index out of range")

def take (n : Nat) (bytes : List Byte) (cursor : Nat) : Except Error (Field Byte n × Nat) :=
  Cursor.take (.bail "ShareTicket length overflow") (.bail "ShareTicket is truncated") n bytes cursor

theorem raises_take {n : Nat} {bytes : List Byte} {cursor : Nat} :
    Raises Error.Raised (take n bytes cursor) := by
  intro e h
  rcases Cursor.take_eq_error h with rfl | rfl
  · exact .bail _
  · exact .bail _

/-- `value.strip_prefix(TICKET_PREFIX)`. -/
def afterScheme (value : Str) : Except Error Str :=
  if TICKET_PREFIX.isPrefixOf value then .ok (value.drop TICKET_PREFIX.length)
  else .error (.bail "ShareTicket must start with syncbox1:")

/-- `byte.is_ascii_alphanumeric() || byte == b'-' || byte == b'_'`. -/
def isBase64Char (c : Char) : Bool := c.isAlphanum || c = '-' || c = '_'

section Text

variable [Base64] {bytes : List Byte}

theorem utf8Len_scheme_encode (bytes : List Byte) :
    utf8Len (TICKET_PREFIX ++ Base64.encode bytes) = 9 + (4 * bytes.length + 2) / 3 := by
  have hascii : ∀ c ∈ Base64.encode bytes, c.toNat < 128 := by
    intro c hc
    rcases Base64.alphabet hc with halnum | rfl | rfl
    · exact toNat_lt_of_isAlphanum halnum
    · decide
    · decide
  rw [utf8Len_append, utf8Len_of_ascii hascii, Base64.length_encode]
  rfl

theorem encode_eq_nil : Base64.encode bytes = [] ↔ bytes = [] := by
  rw [← List.length_eq_zero_iff, ← List.length_eq_zero_iff, Base64.length_encode]
  omega

/-- The bytes that the text stands for. -/
def decodeText (value : Str) : Except Error (List Byte) := do
  rejectIf (utf8Len value > MAX_TICKET_TEXT_LENGTH)
    (.bail "ShareTicket exceeds the maximum supported length")
  let encoded ← afterScheme value
  rejectIf (encoded = [] ∨ encoded.any (fun c => !isBase64Char c) = true)
    (.bail "ShareTicket is not canonical base64url data")
  match Base64.decode encoded with
  | none => .error (.bail "ShareTicket is not valid base64url data")
  | some bytes =>
      rejectIf (Base64.encode bytes ≠ encoded)
        (.bail "ShareTicket must use canonical unpadded base64url encoding")
      .ok bytes

theorem decodeText_eq_ok {value : Str} : decodeText value = .ok bytes ↔
    value = TICKET_PREFIX ++ Base64.encode bytes ∧ bytes ≠ []
      ∧ utf8Len value ≤ MAX_TICKET_TEXT_LENGTH := by
  simp only [decodeText, bind_eq_ok, rejectIf_eq_ok, not_lt, gt_iff_lt, not_or,
    exists_and_left, exists_const]
  constructor
  · rintro ⟨hshort, encoded, hstrip, ⟨hne, -⟩, h⟩
    unfold afterScheme at hstrip
    split at hstrip
    · rename_i hscheme
      cases hstrip
      obtain ⟨rest, rfl⟩ := List.isPrefixOf_iff_prefix.mp hscheme
      rw [List.drop_left] at h hne
      split at h
      · cases h
      · simp only [bind_eq_ok, rejectIf_eq_ok, Decidable.not_not, ne_eq,
          Except.ok.injEq, exists_and_left, exists_const] at h
        obtain ⟨hencode, rfl⟩ := h
        refine ⟨by rw [hencode], ?_, hshort⟩
        rintro rfl
        exact hne (hencode.symm.trans (encode_eq_nil.mpr rfl))
    · cases hstrip
  · rintro ⟨rfl, hne, hshort⟩
    refine ⟨hshort, Base64.encode bytes, ?_, ⟨fun h => hne (encode_eq_nil.mp h), ?_⟩, ?_⟩
    · rw [afterScheme, if_pos (List.isPrefixOf_iff_prefix.mpr (List.prefix_append _ _)), List.drop_left]
    · simp only [List.any_eq_true, Bool.not_eq_true', not_exists, not_and, Bool.not_eq_false]
      intro c hc
      simpa [isBase64Char, or_assoc] using Base64.alphabet hc
    · rw [Base64.decode_encode]
      simp [bind_eq_ok]

theorem raises_decodeText (value : Str) : Raises Error.Raised (decodeText value) := by
  refine (Raises.rejectIf (.bail _)).bind fun _ => Raises.bind ?_ fun encoded =>
    (Raises.rejectIf (.bail _)).bind fun _ => ?_
  · unfold afterScheme
    split
    · exact .ok _
    · exact .error (.bail _)
  · split
    · exact .error (.bail _)
    · exact (Raises.rejectIf (.bail _)).bind fun _ => .ok _

end Text

end ShareTicket

section Ticket

variable [Crypto]

def ticketChecksum (bytes : List Byte) : List Byte :=
  (Crypto.digestBytes (Crypto.blake3 (TICKET_CHECKSUM_DOMAIN ++ bytes))).val.take CHECKSUM_LENGTH

namespace ShareTicket

/-- The body of the loop of `validate`; `previous` is the text of the peer before. -/
def checkPeer (previous : Option Str) (peer : PeerId) : Except Error (Option Str) := do
  let value := endpointIdString peer.val
  rejectIf (previous.any (fun previous => previous ≥ value) = true)
    (.bail "ShareTicket initial peers must be unique and sorted")
  .ok (some value)

def validate (t : ShareTicket) : Except Error Unit := do
  rejectIf (t.protocolVersion ≠ TICKET_PROTOCOL_VERSION)
    (.bail ("unsupported ShareTicket protocol version " ++ toString t.protocolVersion.toNat))
  rejectIf (t.initialPeers.length > MAX_INITIAL_PEERS)
    (.bail "ShareTicket contains too many initial peers")
  let _ ← t.initialPeers.foldlM checkPeer none
  .ok ()

/-- The bytes before the checksum. -/
def content (t : ShareTicket) : List Byte :=
  TICKET_MAGIC ++ toBe 2 t.protocolVersion.toNat ++ toBe 2 t.initialPeers.length ++ t.shareId.val
    ++ t.shareSecret.val ++ t.initialPeers.flatMap fun peer => peer.val.val

def encode [Base64] (t : ShareTicket) : Except Error Str := do
  t.validate
  -- `u16::try_from`
  rejectIf (t.initialPeers.length ≥ 2 ^ 16) (.bail "ShareTicket contains too many initial peers")
  let bytes := t.content ++ ticketChecksum t.content
  let value := TICKET_PREFIX ++ Base64.encode bytes
  rejectIf (utf8Len value > MAX_TICKET_TEXT_LENGTH)
    (.bail "ShareTicket exceeds the maximum supported length")
  .ok value

/-- The loop over the peers. -/
def takePeers (bytes : List Byte) : Nat → Nat → Except Error (List PeerId × Nat)
  | 0, cursor => .ok ([], cursor)
  | count + 1, cursor => do
      let (id, cursor) ← take 32 bytes cursor
      if h : endpointIdValid id = true then
        let (peers, cursor) ← takePeers bytes count cursor
        .ok (⟨id, h⟩ :: peers, cursor)
      else .error (.bail "ShareTicket contains an invalid initial endpoint ID")

/-- The bytes before the checksum, which is checked. -/
def checkedContent (bytes : List Byte) : Except Error (List Byte) := do
  rejectIf (bytes.length < 4 + 2 + 2 + 32 + 32 + CHECKSUM_LENGTH)
    (.bail "ShareTicket is truncated")
  let contentLength := bytes.length - CHECKSUM_LENGTH
  let content ← slice bytes 0 contentLength
  let checksum ← slice bytes contentLength bytes.length
  rejectIf (ticketChecksum content ≠ checksum) (.bail "ShareTicket checksum does not match")
  .ok content

/-- The fields. -/
def readFields (bytes : List Byte) : Except Error ShareTicket := do
  let (magic, cursor) ← take 4 bytes 0
  rejectIf (magic.val ≠ TICKET_MAGIC) (.bail "ShareTicket has an unknown format")
  let (version, cursor) ← take 2 bytes cursor
  let protocolVersion : U16 := BitVec.ofNat 16 (ofBe version.val)
  rejectIf (protocolVersion ≠ TICKET_PROTOCOL_VERSION)
    (.bail ("unsupported ShareTicket protocol version " ++ toString protocolVersion.toNat))
  let (count, cursor) ← take 2 bytes cursor
  let peerCount := ofBe count.val
  rejectIf (peerCount > MAX_INITIAL_PEERS) (.bail "ShareTicket contains too many initial peers")
  rejectIf (bytes.length ≠ 4 + 2 + 2 + 32 + 32 + peerCount * 32)
    (.bail "ShareTicket has an invalid length or unsupported trailing fields")
  let (shareId, cursor) ← take 32 bytes cursor
  let (shareSecret, cursor) ← take 32 bytes cursor
  let (initialPeers, cursor) ← takePeers bytes peerCount cursor
  rejectIf (cursor ≠ bytes.length) (.bail "ShareTicket has unsupported trailing fields")
  .ok ⟨protocolVersion, shareId, shareSecret, initialPeers⟩

def parse [Base64] (value : Str) : Except Error ShareTicket := do
  let bytes ← decodeText value
  let content ← checkedContent bytes
  let ticket ← readFields content
  ticket.validate
  .ok ticket

/-! ## Reading and writing -/

theorem takePeers_eq_ok {bytes : List Byte} (hlen : bytes.length < 2 ^ 64) :
    ∀ {count cursor stop : Nat} {peers : List PeerId}, cursor ≤ bytes.length →
      (takePeers bytes count cursor = .ok (peers, stop) ↔
        peers.length = count ∧ stop = cursor + count * 32 ∧ stop ≤ bytes.length
          ∧ bytes.drop cursor = (peers.flatMap fun peer => peer.val.val) ++ bytes.drop stop) := by
  intro count
  induction count with
  | zero =>
      intro cursor stop peers hle
      simp only [takePeers, Except.ok.injEq, Prod.mk.injEq, Nat.zero_mul, Nat.add_zero]
      constructor
      · rintro ⟨rfl, rfl⟩
        exact ⟨rfl, rfl, hle, rfl⟩
      · rintro ⟨hnil, rfl, -, -⟩
        exact ⟨(List.eq_nil_of_length_eq_zero hnil).symm, rfl⟩
  | succ count ih =>
      intro cursor stop peers hle
      simp only [takePeers, bind_eq_ok, Prod.exists]
      constructor
      · rintro ⟨id, cursor', htake, h⟩
        obtain ⟨rfl, hle', hdrop⟩ := (Cursor.take_eq_ok hlen).mp htake
        split at h
        · rename_i hvalid
          simp only [bind_eq_ok, Prod.exists, Except.ok.injEq, Prod.mk.injEq] at h
          obtain ⟨rest, stop', hrest, rfl, rfl⟩ := h
          obtain ⟨rfl, rfl, hstop, hdrop'⟩ := (ih hle').mp hrest
          refine ⟨rfl, by omega, hstop, ?_⟩
          rw [hdrop, hdrop', List.flatMap_cons, List.append_assoc]
        · cases h
      · rintro ⟨hcount, rfl, hstop, hdrop⟩
        cases peers with
        | nil => simp at hcount
        | cons peer rest =>
            have hcount' : rest.length = count := by simpa using hcount
            have hnext : bytes.drop (cursor + 32)
                = (rest.flatMap fun peer => peer.val.val) ++ bytes.drop (cursor + (count + 1) * 32) := by
              have h32 : peer.val.val.length = 32 := peer.val.property
              rw [← List.drop_drop, hdrop, List.flatMap_cons, List.append_assoc,
                List.drop_append_of_le_length h32.ge, List.drop_of_length_le h32.le, List.nil_append]
            refine ⟨peer.val, cursor + 32, (Cursor.take_eq_ok hlen).mpr ⟨rfl, by omega, ?_⟩, ?_⟩
            · rw [hnext, hdrop, List.flatMap_cons, List.append_assoc]
            · rw [dif_pos peer.property]
              simp only [bind_eq_ok, Prod.exists, Except.ok.injEq, Prod.mk.injEq]
              refine ⟨rest, cursor + (count + 1) * 32, (ih (by omega)).mpr ?_, rfl, rfl⟩
              exact ⟨hcount', by omega, hstop, hnext⟩

theorem length_content (t : ShareTicket) : t.content.length = 72 + t.initialPeers.length * 32 := by
  have hpeers : (t.initialPeers.flatMap fun peer => peer.val.val).length
      = t.initialPeers.length * 32 := by
    induction t.initialPeers with
    | nil => rfl
    | cons peer peers ih =>
        rw [List.flatMap_cons, List.length_append, peer.val.property, ih, List.length_cons]
        omega
  have hmagic : TICKET_MAGIC.length = 4 := by decide
  simp only [content, List.length_append, length_toBe, t.shareId.property, t.shareSecret.property,
    hpeers, hmagic]

theorem content_of_readFields {bytes : List Byte} {t : ShareTicket} (hlen : bytes.length < 2 ^ 64)
    (h : readFields bytes = .ok t) : bytes = t.content ∧ t.protocolVersion = TICKET_PROTOCOL_VERSION
      ∧ t.initialPeers.length ≤ MAX_INITIAL_PEERS := by
  simp only [readFields, bind_eq_ok, Prod.exists, rejectIf_eq_ok, Decidable.not_not,
    not_lt, gt_iff_lt, ne_eq, Except.ok.injEq, exists_and_left, exists_const] at h
  obtain ⟨magic, c₁, h₁, hmagic, version, c₂, h₂, hversion, count, c₃, h₃, hcount, hsize,
    shareId, c₄, h₄, secret, c₅, h₅, peers, c₆, h₆, hend, rfl⟩ := h
  obtain ⟨rfl, -, d₁⟩ := (Cursor.take_eq_ok hlen).mp h₁
  obtain ⟨rfl, -, d₂⟩ := (Cursor.take_eq_ok hlen).mp h₂
  obtain ⟨rfl, -, d₃⟩ := (Cursor.take_eq_ok hlen).mp h₃
  obtain ⟨rfl, -, d₄⟩ := (Cursor.take_eq_ok hlen).mp h₄
  obtain ⟨rfl, hle, d₅⟩ := (Cursor.take_eq_ok hlen).mp h₅
  obtain ⟨hpeers, -, -, d₆⟩ := (takePeers_eq_ok hlen hle).mp h₆
  have hv : (BitVec.ofNat 16 (ofBe version.val)).toNat = ofBe version.val := by
    have := ofBe_lt version.val
    rw [version.property] at this
    rw [BitVec.toNat_ofNat]
    exact Nat.mod_eq_of_lt this
  refine ⟨?_, hversion, by rw [hpeers]; exact hcount⟩
  rw [hend, List.drop_length, List.append_nil] at d₆
  rw [List.drop_zero] at d₁
  rw [d₁, d₂, d₃, d₄, d₅, d₆]
  simp only [content, hv, hpeers, toBe_ofBe_field, hmagic, List.append_assoc]

theorem readFields_content {t : ShareTicket} (hversion : t.protocolVersion = TICKET_PROTOCOL_VERSION)
    (hcount : t.initialPeers.length ≤ MAX_INITIAL_PEERS) : readFields t.content = .ok t := by
  have hsize := t.length_content
  have hmax : MAX_INITIAL_PEERS = 64 := rfl
  have hlen : t.content.length < 2 ^ 64 := by omega
  have hmagic : TICKET_MAGIC.length = 4 := by decide
  have hpeers : ofBe (toBe 2 t.initialPeers.length) = t.initialPeers.length :=
    ofBe_toBe (by omega)
  have hv : BitVec.ofNat 16 (ofBe (toBe 2 t.protocolVersion.toNat)) = t.protocolVersion := by
    rw [ofBe_toBe t.protocolVersion.isLt, BitVec.ofNat_toNat, BitVec.setWidth_eq]
  have a₁ : Cursor.At t.content 0 ((⟨TICKET_MAGIC, hmagic⟩ : Field Byte 4).val ++ _) :=
    ⟨Nat.zero_le _, by simp only [content, List.append_assoc, List.drop_zero]; rfl⟩
  have a₂ : Cursor.At t.content 4
      ((⟨toBe 2 t.protocolVersion.toNat, length_toBe _ _⟩ : Field Byte 2).val ++ _) := a₁.skip
  have a₃ : Cursor.At t.content 6
      ((⟨toBe 2 t.initialPeers.length, length_toBe _ _⟩ : Field Byte 2).val ++ _) := a₂.skip
  have a₄ := a₃.skip
  have a₅ := a₄.skip
  have h₆ : takePeers t.content t.initialPeers.length 72 = .ok (t.initialPeers, t.content.length) := by
    refine (takePeers_eq_ok hlen (by omega)).mpr ⟨rfl, hsize, le_rfl, ?_⟩
    rw [List.drop_length, List.append_nil]
    exact a₅.skip.drop
  simp only [readFields, bind_eq_ok, Prod.exists, rejectIf_eq_ok, Decidable.not_not,
    not_lt, gt_iff_lt, ne_eq, Except.ok.injEq, exists_and_left, exists_const]
  refine ⟨_, _, a₁.take hlen, rfl, _, _, a₂.take hlen, by rw [hv]; exact hversion, _, _, a₃.take hlen,
    by rw [hpeers]; exact hcount, by rw [hpeers, hsize], _, _, a₄.take hlen, _, _, a₅.take hlen,
    t.initialPeers, t.content.length, ?_, rfl, ?_⟩
  · rw [hpeers]
    exact h₆
  · rw [hv]

theorem length_ticketChecksum (bytes : List Byte) : (ticketChecksum bytes).length = CHECKSUM_LENGTH := by
  rw [ticketChecksum, List.length_take, (Crypto.digestBytes _).property]
  rfl

theorem checkedContent_eq_ok {bytes body : List Byte} : checkedContent bytes = .ok body ↔
    bytes = body ++ ticketChecksum body ∧ 72 ≤ body.length := by
  have hsum := length_ticketChecksum body
  have hlength : CHECKSUM_LENGTH = 16 := rfl
  simp only [checkedContent, bind_eq_ok, rejectIf_eq_ok, not_lt, Decidable.not_not,
    ne_eq, Except.ok.injEq, exists_and_left, exists_const, slice]
  constructor
  · rintro ⟨hmin, body', hbody, sum, hslice, hcheck, rfl⟩
    rw [if_pos ⟨Nat.zero_le _, Nat.sub_le _ _⟩] at hbody
    rw [if_pos ⟨Nat.sub_le _ _, le_rfl⟩, List.take_length] at hslice
    cases hbody
    cases hslice
    rw [List.drop_zero] at hcheck ⊢
    refine ⟨by rw [hcheck, List.take_append_drop], ?_⟩
    rw [List.length_take]
    omega
  · rintro ⟨rfl, hmin⟩
    have hcontent : (body ++ ticketChecksum body).length - CHECKSUM_LENGTH = body.length := by
      rw [List.length_append]
      omega
    rw [hcontent]
    refine ⟨by rw [List.length_append]; omega, body, ?_, ticketChecksum body, ?_, rfl, rfl⟩
    · rw [if_pos ⟨Nat.zero_le _, by simp⟩, List.drop_zero, List.take_left]
    · rw [if_pos ⟨by simp, le_rfl⟩, List.take_length, List.drop_left]

theorem of_validate {t : ShareTicket} (h : t.validate = .ok ()) :
    t.protocolVersion = TICKET_PROTOCOL_VERSION ∧ t.initialPeers.length ≤ MAX_INITIAL_PEERS := by
  simp only [validate, bind_eq_ok, rejectIf_eq_ok, Decidable.not_not, ne_eq, not_lt,
    gt_iff_lt, exists_and_left, exists_const] at h
  exact ⟨h.1, h.2.1⟩

/-! ## The text -/

section Text

variable [Base64]

/-- The text of a ticket. -/
def text (t : ShareTicket) : Str := TICKET_PREFIX ++ Base64.encode (t.content ++ ticketChecksum t.content)

theorem utf8Len_text {t : ShareTicket} (h : t.initialPeers.length ≤ MAX_INITIAL_PEERS) :
    utf8Len t.text ≤ MAX_TICKET_TEXT_LENGTH := by
  have hmax : MAX_INITIAL_PEERS = 64 := rfl
  have htext : MAX_TICKET_TEXT_LENGTH = 4096 := rfl
  have hsum : CHECKSUM_LENGTH = 16 := rfl
  rw [text, utf8Len_scheme_encode, List.length_append, length_content, length_ticketChecksum]
  omega

theorem encode_eq_ok {t : ShareTicket} {s : Str} :
    t.encode = .ok s ↔ t.validate = .ok () ∧ s = t.text := by
  simp only [encode, bind_eq_ok, rejectIf_eq_ok, not_lt, gt_iff_lt, not_le, ge_iff_le,
    Except.ok.injEq, exists_and_left, exists_const]
  constructor
  · rintro ⟨⟨⟩, hvalid, -, -, rfl⟩
    exact ⟨hvalid, rfl⟩
  · rintro ⟨hvalid, rfl⟩
    have hcount := (of_validate hvalid).2
    have hsmall : t.initialPeers.length < 2 ^ 16 := hcount.trans_lt (by norm_num [MAX_INITIAL_PEERS])
    exact ⟨(), hvalid, hsmall, utf8Len_text hcount, rfl⟩

theorem parse_eq_ok {t : ShareTicket} {s : Str} :
    parse s = .ok t ↔ t.validate = .ok () ∧ s = t.text := by
  simp only [parse, bind_eq_ok, Except.ok.injEq]
  constructor
  · rintro ⟨bytes, hbytes, body, hbody, ticket, hfields, ⟨⟩, hvalid, rfl⟩
    obtain ⟨rfl, -, hshort⟩ := decodeText_eq_ok.mp hbytes
    obtain ⟨rfl, -⟩ := checkedContent_eq_ok.mp hbody
    have hlen : body.length < 2 ^ 64 := by
      have htext : MAX_TICKET_TEXT_LENGTH = 4096 := rfl
      rw [utf8Len_scheme_encode, List.length_append] at hshort
      omega
    obtain ⟨rfl, -⟩ := content_of_readFields hlen hfields
    exact ⟨hvalid, rfl⟩
  · rintro ⟨hvalid, rfl⟩
    obtain ⟨hversion, hcount⟩ := of_validate hvalid
    refine ⟨t.content ++ ticketChecksum t.content, decodeText_eq_ok.mpr ⟨rfl, ?_, utf8Len_text hcount⟩,
      t.content, checkedContent_eq_ok.mpr ⟨rfl, by rw [length_content]; omega⟩, t,
      readFields_content hversion hcount, (), hvalid, rfl⟩
    intro h
    have := congrArg List.length h
    rw [List.length_append, length_content] at this
    simp at this

end Text

/-! ## Errors -/

theorem raises_takePeers {bytes : List Byte} :
    ∀ {count cursor : Nat}, Raises Error.Raised (takePeers bytes count cursor) := by
  intro count
  induction count with
  | zero => intro cursor; exact .ok _
  | succ count ih =>
      intro cursor
      refine raises_take.bind fun x => ?_
      dsimp only
      split
      · exact ih.bind fun y => .ok _
      · exact .error (.bail _)

theorem raises_validate (t : ShareTicket) : Raises Error.Raised t.validate := by
  refine (Raises.rejectIf (.bail _)).bind fun _ => (Raises.rejectIf (.bail _)).bind fun _ => ?_
  refine (Raises.foldlM (fun previous peer => ?_) _ _).bind fun _ => .ok _
  exact (Raises.rejectIf (.bail _)).bind fun _ => .ok _

/-- The two slices are in range, so neither panics. -/
theorem raises_checkedContent (bytes : List Byte) : Raises Error.Raised (checkedContent bytes) := by
  have hslice : ∀ {start stop : Nat}, start ≤ stop → stop ≤ bytes.length →
      Raises Error.Raised (slice bytes start stop) := by
    intro start stop h h'
    rw [slice, if_pos ⟨h, h'⟩]
    exact .ok _
  refine (Raises.rejectIf (.bail _)).bind fun _ => ?_
  refine (hslice (Nat.zero_le _) (Nat.sub_le _ _)).bind fun _ => ?_
  exact (hslice (Nat.sub_le _ _) le_rfl).bind fun _ => (Raises.rejectIf (.bail _)).bind fun _ => .ok _

theorem raises_readFields (bytes : List Byte) : Raises Error.Raised (readFields bytes) := by
  refine raises_take.bind fun _ => (Raises.rejectIf (.bail _)).bind fun _ => ?_
  refine raises_take.bind fun _ => (Raises.rejectIf (.bail _)).bind fun _ => ?_
  refine raises_take.bind fun _ => (Raises.rejectIf (.bail _)).bind fun _ => ?_
  refine (Raises.rejectIf (.bail _)).bind fun _ => ?_
  refine raises_take.bind fun _ => raises_take.bind fun _ => ?_
  exact raises_takePeers.bind fun _ => (Raises.rejectIf (.bail _)).bind fun _ => .ok _

section Text

variable [Base64]

theorem raises_parse (s : Str) : Raises Error.Raised (parse s) :=
  (raises_decodeText s).bind fun bytes => (raises_checkedContent bytes).bind fun body =>
    (raises_readFields body).bind fun t => (raises_validate t).bind fun _ => .ok _

/-- Tickets and accepted texts correspond one to one: a valid ticket has a text and is read
back from it, an accepted text is the text of the valid ticket it is read as, and every
other text is refused by an error and not by a panic. -/
theorem encode_parse_bijection :
    (∀ t : ShareTicket, t.validate = .ok () →
        ∃ s, t.encode = .ok s ∧ utf8Len s ≤ MAX_TICKET_TEXT_LENGTH ∧ parse s = .ok t)
      ∧ (∀ (s : Str) (t : ShareTicket), parse s = .ok t → t.validate = .ok () ∧ t.encode = .ok s)
      ∧ ∀ s : Str, (∀ t : ShareTicket, t.encode ≠ .ok s) →
        ∃ message, parse s = .error (.bail message) := by
  refine ⟨fun t hvalid => ?_, fun s t hparse => ?_, fun s hnone => ?_⟩
  · exact ⟨t.text, encode_eq_ok.mpr ⟨hvalid, rfl⟩, utf8Len_text (of_validate hvalid).2,
      parse_eq_ok.mpr ⟨hvalid, rfl⟩⟩
  · have h := parse_eq_ok.mp hparse
    exact ⟨h.1, encode_eq_ok.mpr h⟩
  · cases hparse : parse s with
    | ok t => exact absurd (encode_eq_ok.mpr (parse_eq_ok.mp hparse)) (hnone t)
    | error e =>
        obtain ⟨message⟩ := raises_parse s hparse
        exact ⟨message, rfl⟩

end Text

end ShareTicket

end Ticket

/-- A ticket without peers is read back from its text. -/
theorem ShareTicket.encode_parse_bijection_alone :
    let _ := Crypto.plain
    let _ := Base64.urlSafe
    let t : ShareTicket := ⟨1, ⟨List.replicate 32 0, length_zeros⟩, ⟨List.replicate 32 1, rfl⟩, []⟩
    ∃ s, t.encode = .ok s ∧ ShareTicket.parse s = .ok t := by
  intro _ _ t
  obtain ⟨s, hencode, -, hparse⟩ := ShareTicket.encode_parse_bijection.1 t (by decide)
  exact ⟨s, hencode, hparse⟩

end Syncbox

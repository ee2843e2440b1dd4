/-
# `Syncbox.Network.Auth` — the handshake

`src/network/auth.rs`, and the parts of `handle_sync_stream` and `sync_with_peer` that
run it.  The client sends who it is, which share it asks for, a nonce and a proof that it
holds the secret of the share; the server answers with a nonce and a proof of its own.

The code only compares and copies bytes and computes one HMAC, so it is written over any
type of bytes (`AuthBytes`).  At `Byte` it is the code; `Network.AuthModel` runs it on
bytes that remember which HMAC they are from.

The two formats are written and read by hand, at a cursor.  `makeClientHello_eq` and
`readClientHello_eq_ok` say that both follow `ClientHello.bytes`, and the same for the
server.
-/
import Syncbox.Lib.Cursor
import Syncbox.Lib.Encode
import Syncbox.Types

namespace Syncbox

open Rust Encode Check

open Cursor (Field)

/-! ## Bytes -/

/-- Bytes that an HMAC can be computed of.  Some of them are `plain`. -/
class AuthBytes (β : Type) where
  decEq : DecidableEq β
  raw : Byte → β
  plain : β → Option Byte
  plain_eq_some : ∀ {x : β} {b : Byte}, plain x = some b ↔ x = raw b
  Secret : Type
  hmac : Secret → List β → Field β 32

instance {β : Type} [AuthBytes β] : DecidableEq β := AuthBytes.decEq

instance [Crypto] : AuthBytes Byte where
  decEq := inferInstance
  raw := id
  plain := some
  plain_eq_some := Option.some_inj
  Secret := Bytes32
  hmac := Crypto.hmacSha256

namespace Auth

open AuthBytes

section Bytes

variable {β : Type} [AuthBytes β] {n : Nat}

theorem raw_injective : Function.Injective (raw : Byte → β) := by
  intro a b h
  have ha : plain (raw a : β) = some a := plain_eq_some.mpr rfl
  have hb : plain (raw a : β) = some b := plain_eq_some.mpr h
  exact Option.some.inj (ha.symm.trans hb)

/-- Plain bytes. -/
def lit (bytes : Field Byte n) : Field β n := ⟨bytes.val.map raw, by simp [bytes.property]⟩

theorem lit_injective : Function.Injective (lit : Field Byte n → Field β n) := by
  intro a b h
  exact Subtype.ext (raw_injective.list_map (congrArg Subtype.val h))

/-- An array of plain bytes, if it is one. -/
def plainField (bytes : Field β n) : Option (Field Byte n) :=
  if h : (bytes.val.filterMap plain).length = n then some ⟨bytes.val.filterMap plain, h⟩ else none

theorem plainField_eq_some {bytes : Field β n} {b : Field Byte n} :
    plainField bytes = some b ↔ bytes = lit b := by
  unfold plainField
  constructor
  · intro h
    split at h
    · rename_i hlen
      cases h
      refine Subtype.ext ?_
      have hall : ∀ x ∈ bytes.val, (plain x).isSome :=
        List.filterMap_length_eq_length.mp (hlen.trans bytes.property.symm)
      show bytes.val = (bytes.val.filterMap plain).map raw
      generalize bytes.val = l at hall
      induction l with
      | nil => rfl
      | cons x l ih =>
          obtain ⟨b, hb⟩ := Option.isSome_iff_exists.mp (hall x List.mem_cons_self)
          rw [List.filterMap_cons_some hb, List.map_cons,
            ← ih fun y hy => hall y (List.mem_cons_of_mem _ hy), plain_eq_some.mp hb]
    · cases h
  · rintro rfl
    have hback : (lit b : Field β n).val.filterMap plain = b.val := by
      have hplain : ∀ b : Byte, plain (raw b : β) = some b := fun _ => plain_eq_some.mpr rfl
      show (b.val.map raw).filterMap (plain : β → Option Byte) = b.val
      have hsome : (plain : β → Option Byte) ∘ raw = some := funext hplain
      rw [List.filterMap_map, hsome, List.filterMap_some]
    simp only [hback, b.property, dite_true]

end Bytes

/-! ## The code -/

section Code

variable [Crypto] {β : Type} [AuthBytes β]

def AUTH_MAGIC : Field Byte 4 := ⟨asBytes "SBXA".toList, by decide⟩
def CLIENT_HELLO_LENGTH : Nat := 4 + 2 + 32 + 32 + 32 + 32
def SERVER_HELLO_LENGTH : Nat := 4 + 2 + 32 + 32 + 32 + 32 + 32

/-- The fields of `ShareConfig` that the handshake reads. -/
structure ShareConfig (β : Type) [AuthBytes β] where
  shareId : ShareId
  shareSecret : Secret β

/-- What `proof` feeds to the HMAC. -/
def proofInput (role : List Byte) (shareId : ShareId) (client server : PeerId)
    (nonces : List (Field β 32)) : List β :=
  (asBytes "syncbox/auth/v1".toList).map raw ++ role.map raw ++ (lit shareId).val
    ++ (lit client.val).val ++ (lit server.val).val ++ nonces.flatMap Subtype.val

def proof (config : ShareConfig β) (role : List Byte) (client server : PeerId)
    (nonces : List (Field β 32)) : Field β 32 :=
  hmac config.shareSecret (proofInput role config.shareId client server nonces)

def clientProof (config : ShareConfig β) (client server : PeerId) (nonce : Field β 32) : Field β 32 :=
  proof config (asBytes "client".toList) client server [nonce]

def serverProof (config : ShareConfig β) (client server : PeerId)
    (clientNonce serverNonce : Field β 32) : Field β 32 :=
  proof config (asBytes "server".toList) client server [clientNonce, serverNonce]

def put {n : Nat} (value : Field β n) (target : List β × Nat) : Except Error (List β × Nat) :=
  Cursor.put (.panic "range end index out of range") value target

def take (n : Nat) (source : List β) (cursor : Nat) : Except Error (Field β n × Nat) :=
  Cursor.take (.bail "sync authentication length overflow") (.bail "sync authentication is truncated")
    n source cursor

/-- `PROTOCOL_VERSION.to_be_bytes()`. -/
def versionBytes : Field Byte 2 := ⟨toBe 2 PROTOCOL_VERSION.toNat, length_toBe _ _⟩

def makeClientHello (config : ShareConfig β) (client server : PeerId) (nonce : Field β 32) :
    Except Error (List β) := do
  let output := (List.replicate CLIENT_HELLO_LENGTH (raw 0), 0)
  let output ← put (lit AUTH_MAGIC) output
  let output ← put (lit versionBytes) output
  let output ← put (lit config.shareId) output
  let output ← put (lit client.val) output
  let output ← put nonce output
  let output ← put (clientProof config client server nonce) output
  .ok output.1

def makeServerHello (config : ShareConfig β) (client server : PeerId)
    (clientNonce serverNonce : Field β 32) : Except Error (List β) := do
  let output := (List.replicate SERVER_HELLO_LENGTH (raw 0), 0)
  let output ← put (lit AUTH_MAGIC) output
  let output ← put (lit versionBytes) output
  let output ← put (lit config.shareId) output
  let output ← put (lit server.val) output
  let output ← put clientNonce output
  let output ← put serverNonce output
  let output ← put (serverProof config client server clientNonce serverNonce) output
  .ok output.1

structure ClientHello [Crypto] (β : Type) where
  shareId : Field β 32
  clientId : PeerId
  nonce : Field β 32
  proof : Field β 32

structure ServerHello [Crypto] (β : Type) where
  shareId : Field β 32
  serverId : PeerId
  clientNonce : Field β 32
  serverNonce : Field β 32
  proof : Field β 32

/-- `recv.read_exact` into an array of `n` bytes, and what is left of the stream. -/
def readExact (n : Nat) (stream : List β) : Except Error (Field β n × List β) :=
  if h : n ≤ stream.length then .ok (⟨stream.take n, by simp [h]⟩, stream.drop n)
  else .error (.io "unable to read sync authentication" .other)

/-- `u16::from_be_bytes`. -/
def u16FromBeBytes (bytes : Field β 2) : Option U16 :=
  (plainField bytes).map fun bytes => BitVec.ofNat 16 (ofBe bytes.val)

/-- `EndpointId::from_bytes`. -/
def endpointIdFromBytes (message : String) (bytes : Field β 32) : Except Error PeerId :=
  match plainField bytes with
  | none => .error (.bail message)
  | some id => if h : endpointIdValid id = true then .ok ⟨id, h⟩ else .error (.bail message)

def readClientHello (recv : List β) : Except Error (ClientHello β × List β) := do
  let (bytes, recv) ← readExact CLIENT_HELLO_LENGTH recv
  let (magic, cursor) ← take 4 bytes.val 0
  rejectIf (magic ≠ lit AUTH_MAGIC) (.bail "invalid sync authentication magic")
  let (version, cursor) ← take 2 bytes.val cursor
  rejectIf (u16FromBeBytes version ≠ some PROTOCOL_VERSION)
    (.bail "unsupported sync protocol version")
  let (shareId, cursor) ← take 32 bytes.val cursor
  let (clientBytes, cursor) ← take 32 bytes.val cursor
  let clientId ← endpointIdFromBytes "invalid sync client endpoint ID" clientBytes
  let (nonce, cursor) ← take 32 bytes.val cursor
  let (proof, _) ← take 32 bytes.val cursor
  .ok (⟨shareId, clientId, nonce, proof⟩, recv)

def readServerHello (recv : List β) : Except Error (ServerHello β × List β) := do
  let (bytes, recv) ← readExact SERVER_HELLO_LENGTH recv
  let (magic, cursor) ← take 4 bytes.val 0
  rejectIf (magic ≠ lit AUTH_MAGIC) (.bail "invalid sync authentication magic")
  let (version, cursor) ← take 2 bytes.val cursor
  rejectIf (u16FromBeBytes version ≠ some PROTOCOL_VERSION)
    (.bail "unsupported sync protocol version")
  let (shareId, cursor) ← take 32 bytes.val cursor
  let (serverBytes, cursor) ← take 32 bytes.val cursor
  let serverId ← endpointIdFromBytes "invalid sync server endpoint ID" serverBytes
  let (clientNonce, cursor) ← take 32 bytes.val cursor
  let (serverNonce, cursor) ← take 32 bytes.val cursor
  let (proof, _) ← take 32 bytes.val cursor
  .ok (⟨shareId, serverId, clientNonce, serverNonce, proof⟩, recv)

def validateClientHello (hello : ClientHello β) (config : ShareConfig β)
    (transportClient server : PeerId) : Except Error Unit := do
  rejectIf (hello.shareId ≠ lit config.shareId ∨ hello.clientId ≠ transportClient)
    (.bail "sync client authentication is not bound to its transport identity")
  rejectIf (clientProof config hello.clientId server hello.nonce ≠ hello.proof)
    (.bail "sync client authentication failed")

def validateServerHello (hello : ServerHello β) (config : ShareConfig β)
    (client transportServer : PeerId) (expectedClientNonce : Field β 32) : Except Error Unit := do
  rejectIf (hello.shareId ≠ lit config.shareId ∨ hello.serverId ≠ transportServer
      ∨ hello.clientNonce ≠ expectedClientNonce)
    (.bail "sync server authentication is not bound to its transport identity")
  rejectIf (serverProof config client hello.serverId hello.clientNonce hello.serverNonce
      ≠ hello.proof)
    (.bail "sync server authentication failed")

/-- The handshake of `handle_sync_stream`: the share that was asked for, the answer and what
is left of the stream.  `get` is `registry.get`, with the configuration of the share. -/
def acceptClient (get : ShareId → Option (ShareConfig β)) (peer localId : PeerId)
    (serverNonce : Field β 32) (recv : List β) :
    Except Error (ShareConfig β × ClientHello β × List β × List β) := do
  let (hello, recv) ← readClientHello recv
  match (plainField hello.shareId).bind get with
  | none => .error (.bail "unknown share")
  | some config =>
      validateClientHello hello config peer localId
      let answer ← makeServerHello config peer localId hello.nonce serverNonce
      .ok (config, hello, answer, recv)

/-- The handshake of `sync_with_peer` after its hello was sent. -/
def acceptServer (config : ShareConfig β) (localId expectedPeer : PeerId) (nonce : Field β 32)
    (recv : List β) : Except Error (ServerHello β × List β) := do
  let (hello, recv) ← readServerHello recv
  validateServerHello hello config localId expectedPeer nonce
  .ok (hello, recv)

end Code

/-! ## The two formats -/

theorem readExact_eq_ok {β : Type} {n : Nat} {stream rest : List β} {bytes : Field β n} :
    readExact n stream = .ok (bytes, rest) ↔ stream = bytes.val ++ rest := by
  unfold readExact
  constructor
  · intro h
    split at h
    · cases h
      exact (List.take_append_drop n stream).symm
    · cases h
  · rintro rfl
    have hlen : n ≤ (bytes.val ++ rest).length := by
      rw [List.length_append, bytes.property]
      omega
    have htake : (bytes.val ++ rest).take n = bytes.val := List.take_left' bytes.property
    have hdrop : (bytes.val ++ rest).drop n = rest := List.drop_left' bytes.property
    rw [dif_pos hlen]
    simp only [htake, hdrop]

section Formats

variable {β : Type} [AuthBytes β]

theorem u16FromBeBytes_eq_version {bytes : Field β 2} :
    u16FromBeBytes bytes = some PROTOCOL_VERSION ↔ bytes = lit versionBytes := by
  have hread : ∀ b : Field Byte 2,
      BitVec.ofNat 16 (ofBe b.val) = PROTOCOL_VERSION ↔ b = versionBytes := by
    intro b
    have hlt : ofBe b.val < 2 ^ 16 := by
      have := ofBe_lt b.val
      rwa [b.property] at this
    constructor
    · intro h
      have hnat := congrArg BitVec.toNat h
      rw [BitVec.toNat_ofNat, Nat.mod_eq_of_lt hlt] at hnat
      refine Subtype.ext ?_
      rw [← toBe_ofBe_field b, hnat]
      rfl
    · rintro rfl
      decide
  simp only [u16FromBeBytes, Option.map_eq_some_iff, plainField_eq_some, hread]
  constructor
  · rintro ⟨b, rfl, rfl⟩
    rfl
  · rintro rfl
    exact ⟨_, rfl, rfl⟩

variable [Crypto]

theorem endpointIdFromBytes_eq_ok {message : String} {bytes : Field β 32} {id : PeerId} :
    endpointIdFromBytes message bytes = .ok id ↔ bytes = lit id.val := by
  unfold endpointIdFromBytes
  constructor
  · intro h
    split at h
    · cases h
    · rename_i b hb
      split at h
      · cases h
        exact plainField_eq_some.mp hb
      · cases h
  · rintro rfl
    rw [plainField_eq_some.mpr rfl]
    simp only [id.property, dite_true]

def ClientHello.bytes (hello : ClientHello β) : List β :=
  (lit AUTH_MAGIC).val ++ (lit versionBytes).val ++ hello.shareId.val ++ (lit hello.clientId.val).val
    ++ hello.nonce.val ++ hello.proof.val

def ServerHello.bytes (hello : ServerHello β) : List β :=
  (lit AUTH_MAGIC).val ++ (lit versionBytes).val ++ hello.shareId.val ++ (lit hello.serverId.val).val
    ++ hello.clientNonce.val ++ hello.serverNonce.val ++ hello.proof.val

theorem ClientHello.length_bytes (hello : ClientHello β) : hello.bytes.length = CLIENT_HELLO_LENGTH := by
  simp only [bytes, List.length_append, (lit AUTH_MAGIC : Field β 4).property,
    (lit versionBytes : Field β 2).property, hello.shareId.property, hello.nonce.property,
    hello.proof.property, (lit hello.clientId.val : Field β 32).property]
  rfl

theorem ServerHello.length_bytes (hello : ServerHello β) : hello.bytes.length = SERVER_HELLO_LENGTH := by
  simp only [bytes, List.length_append, (lit AUTH_MAGIC : Field β 4).property,
    (lit versionBytes : Field β 2).property, hello.shareId.property, hello.clientNonce.property,
    hello.serverNonce.property, hello.proof.property, (lit hello.serverId.val : Field β 32).property]
  rfl

/-- The hello that `makeClientHello` writes. -/
def clientHello (config : ShareConfig β) (client server : PeerId) (nonce : Field β 32) : ClientHello β :=
  ⟨lit config.shareId, client, nonce, clientProof config client server nonce⟩

/-- The hello that `makeServerHello` writes. -/
def serverHello (config : ShareConfig β) (client server : PeerId)
    (clientNonce serverNonce : Field β 32) : ServerHello β :=
  ⟨lit config.shareId, server, clientNonce, serverNonce,
    serverProof config client server clientNonce serverNonce⟩

theorem makeClientHello_eq (config : ShareConfig β) (client server : PeerId) (nonce : Field β 32) :
    makeClientHello config client server nonce
      = .ok (clientHello config client server nonce).bytes := by
  simp only [makeClientHello, bind_eq_ok, put]
  refine ⟨_, @Cursor.put_filled _ _ _ _ CLIENT_HELLO_LENGTH _ (raw 0) [] (by decide),
    _, Cursor.put_filled (by decide), _, Cursor.put_filled (by decide),
    _, Cursor.put_filled (by decide), _, Cursor.put_filled (by decide),
    _, Cursor.put_filled (by decide), ?_⟩
  exact congrArg Except.ok (List.append_nil _)

theorem makeServerHello_eq (config : ShareConfig β) (client server : PeerId)
    (clientNonce serverNonce : Field β 32) :
    makeServerHello config client server clientNonce serverNonce
      = .ok (serverHello config client server clientNonce serverNonce).bytes := by
  simp only [makeServerHello, bind_eq_ok, put]
  refine ⟨_, @Cursor.put_filled _ _ _ _ SERVER_HELLO_LENGTH _ (raw 0) [] (by decide),
    _, Cursor.put_filled (by decide), _, Cursor.put_filled (by decide),
    _, Cursor.put_filled (by decide), _, Cursor.put_filled (by decide),
    _, Cursor.put_filled (by decide), _, Cursor.put_filled (by decide), ?_⟩
  exact congrArg Except.ok (List.append_nil _)

theorem readClientHello_eq_ok {recv rest : List β} {hello : ClientHello β} :
    readClientHello recv = .ok (hello, rest) ↔ recv = hello.bytes ++ rest := by
  have hsmall : CLIENT_HELLO_LENGTH < 2 ^ 64 := by norm_num [CLIENT_HELLO_LENGTH]
  simp only [readClientHello, bind_eq_ok, Prod.exists, readExact_eq_ok, rejectIf_eq_ok,
    Decidable.not_not, ne_eq, u16FromBeBytes_eq_version, endpointIdFromBytes_eq_ok, take,
    Except.ok.injEq, Prod.mk.injEq, exists_and_left, exists_const]
  constructor
  · rintro ⟨bytes, rest, rfl, magic, c₁, h₁, rfl, version, c₂, h₂, rfl, shareId, c₃, h₃,
      clientBytes, c₄, h₄, clientId, rfl, nonce, c₅, h₅, proof, c₆, h₆, rfl, rfl⟩
    have hlen : bytes.val.length < 2 ^ 64 := by rwa [bytes.property]
    obtain ⟨rfl, -, d₁⟩ := (Cursor.take_eq_ok hlen).mp h₁
    obtain ⟨rfl, -, d₂⟩ := (Cursor.take_eq_ok hlen).mp h₂
    obtain ⟨rfl, -, d₃⟩ := (Cursor.take_eq_ok hlen).mp h₃
    obtain ⟨rfl, -, d₄⟩ := (Cursor.take_eq_ok hlen).mp h₄
    obtain ⟨rfl, -, d₅⟩ := (Cursor.take_eq_ok hlen).mp h₅
    obtain ⟨rfl, -, d₆⟩ := (Cursor.take_eq_ok hlen).mp h₆
    have hend : bytes.val.drop (0 + 4 + 2 + 32 + 32 + 32 + 32) = [] :=
      List.drop_of_length_le bytes.property.le
    rw [List.drop_zero] at d₁
    rw [d₁, d₂, d₃, d₄, d₅, d₆, hend]
    simp only [ClientHello.bytes, List.append_assoc, List.nil_append]
  · rintro rfl
    have hlen : hello.bytes.length < 2 ^ 64 := by rwa [hello.length_bytes]
    have a₁ : Cursor.At hello.bytes 0 ((lit AUTH_MAGIC : Field β 4).val ++ _) :=
      ⟨Nat.zero_le _, by simp only [ClientHello.bytes, List.append_assoc, List.drop_zero]; rfl⟩
    have a₂ := a₁.skip
    have a₃ := a₂.skip
    have a₄ := a₃.skip
    have a₅ := a₄.skip
    have a₆ := a₅.skip
    exact ⟨⟨hello.bytes, hello.length_bytes⟩, rest, rfl, _, _, a₁.take hlen, rfl, _, _, a₂.take hlen,
      rfl, _, _, a₃.take hlen, _, _, a₄.take hlen, _, rfl, _, _, a₅.take hlen, _, _, a₆.takeLast hlen,
      rfl, rfl⟩

theorem readServerHello_eq_ok {recv rest : List β} {hello : ServerHello β} :
    readServerHello recv = .ok (hello, rest) ↔ recv = hello.bytes ++ rest := by
  have hsmall : SERVER_HELLO_LENGTH < 2 ^ 64 := by norm_num [SERVER_HELLO_LENGTH]
  simp only [readServerHello, bind_eq_ok, Prod.exists, readExact_eq_ok, rejectIf_eq_ok,
    Decidable.not_not, ne_eq, u16FromBeBytes_eq_version, endpointIdFromBytes_eq_ok, take,
    Except.ok.injEq, Prod.mk.injEq, exists_and_left, exists_const]
  constructor
  · rintro ⟨bytes, rest, rfl, magic, c₁, h₁, rfl, version, c₂, h₂, rfl, shareId, c₃, h₃,
      serverBytes, c₄, h₄, serverId, rfl, clientNonce, c₅, h₅, serverNonce, c₆, h₆, proof, c₇, h₇,
      rfl, rfl⟩
    have hlen : bytes.val.length < 2 ^ 64 := by rwa [bytes.property]
    obtain ⟨rfl, -, d₁⟩ := (Cursor.take_eq_ok hlen).mp h₁
    obtain ⟨rfl, -, d₂⟩ := (Cursor.take_eq_ok hlen).mp h₂
    obtain ⟨rfl, -, d₃⟩ := (Cursor.take_eq_ok hlen).mp h₃
    obtain ⟨rfl, -, d₄⟩ := (Cursor.take_eq_ok hlen).mp h₄
    obtain ⟨rfl, -, d₅⟩ := (Cursor.take_eq_ok hlen).mp h₅
    obtain ⟨rfl, -, d₆⟩ := (Cursor.take_eq_ok hlen).mp h₆
    obtain ⟨rfl, -, d₇⟩ := (Cursor.take_eq_ok hlen).mp h₇
    have hend : bytes.val.drop (0 + 4 + 2 + 32 + 32 + 32 + 32 + 32) = [] :=
      List.drop_of_length_le bytes.property.le
    rw [List.drop_zero] at d₁
    rw [d₁, d₂, d₃, d₄, d₅, d₆, d₇, hend]
    simp only [ServerHello.bytes, List.append_assoc, List.nil_append]
  · rintro rfl
    have hlen : hello.bytes.length < 2 ^ 64 := by rwa [hello.length_bytes]
    have a₁ : Cursor.At hello.bytes 0 ((lit AUTH_MAGIC : Field β 4).val ++ _) :=
      ⟨Nat.zero_le _, by simp only [ServerHello.bytes, List.append_assoc, List.drop_zero]; rfl⟩
    have a₂ := a₁.skip
    have a₃ := a₂.skip
    have a₄ := a₃.skip
    have a₅ := a₄.skip
    have a₆ := a₅.skip
    have a₇ := a₆.skip
    exact ⟨⟨hello.bytes, hello.length_bytes⟩, rest, rfl, _, _, a₁.take hlen, rfl, _, _, a₂.take hlen,
      rfl, _, _, a₃.take hlen, _, _, a₄.take hlen, _, rfl, _, _, a₅.take hlen, _, _, a₆.take hlen,
      _, _, a₇.takeLast hlen, rfl, rfl⟩

end Formats

/-! ## What is accepted -/

section Accept

variable {β : Type} [AuthBytes β] [Crypto]

theorem validateClientHello_eq_ok {hello : ClientHello β} {config : ShareConfig β}
    {client server : PeerId} : validateClientHello hello config client server = .ok () ↔
      hello = clientHello config client server hello.nonce := by
  obtain ⟨shareId, clientId, nonce, proof⟩ := hello
  simp only [validateClientHello, bind_eq_ok, rejectIf_eq_ok, not_or, Decidable.not_not,
    ne_eq, exists_and_left, exists_const, clientHello, ClientHello.mk.injEq, true_and]
  constructor
  · rintro ⟨⟨rfl, rfl⟩, rfl⟩
    exact ⟨rfl, rfl, rfl⟩
  · rintro ⟨rfl, rfl, rfl⟩
    exact ⟨⟨rfl, rfl⟩, rfl⟩

theorem validateServerHello_eq_ok {hello : ServerHello β} {config : ShareConfig β}
    {client server : PeerId} {nonce : Field β 32} :
    validateServerHello hello config client server nonce = .ok () ↔
      hello = serverHello config client server nonce hello.serverNonce := by
  obtain ⟨shareId, serverId, clientNonce, serverNonce, proof⟩ := hello
  simp only [validateServerHello, bind_eq_ok, rejectIf_eq_ok, not_or, Decidable.not_not,
    ne_eq, exists_and_left, exists_const, serverHello, ServerHello.mk.injEq, true_and]
  constructor
  · rintro ⟨⟨rfl, rfl, rfl⟩, rfl⟩
    exact ⟨rfl, rfl, rfl, rfl⟩
  · rintro ⟨rfl, rfl, rfl, rfl⟩
    exact ⟨⟨rfl, rfl, rfl⟩, rfl⟩

/-- A server accepts the hello that a client with its configuration makes for it, and no
other. -/
theorem acceptClient_eq_ok {get : ShareId → Option (ShareConfig β)} {peer localId : PeerId}
    {serverNonce : Field β 32} {recv answer rest : List β} {config : ShareConfig β}
    {hello : ClientHello β} :
    acceptClient get peer localId serverNonce recv = .ok (config, hello, answer, rest) ↔
      get config.shareId = some config ∧ recv = hello.bytes ++ rest
        ∧ hello = clientHello config peer localId hello.nonce
        ∧ answer = (serverHello config peer localId hello.nonce serverNonce).bytes := by
  simp only [acceptClient, bind_eq_ok, Prod.exists, readClientHello_eq_ok]
  constructor
  · rintro ⟨hello', rest', rfl, h⟩
    split at h
    · cases h
    · rename_i config' hget
      simp only [bind_eq_ok, makeServerHello_eq, Except.ok.injEq, Prod.mk.injEq,
        exists_eq_left'] at h
      obtain ⟨⟨⟩, hvalid, rfl, rfl, rfl, rfl⟩ := h
      have hhello := validateClientHello_eq_ok.mp hvalid
      obtain ⟨id, hid, hget⟩ := Option.bind_eq_some_iff.mp hget
      have hshare : hello'.shareId = lit config'.shareId := congrArg ClientHello.shareId hhello
      have : id = config'.shareId :=
        lit_injective ((plainField_eq_some.mp hid).symm.trans hshare)
      exact ⟨this ▸ hget, rfl, hhello, rfl⟩
  · rintro ⟨hget, rfl, hhello, rfl⟩
    refine ⟨hello, rest, rfl, ?_⟩
    have hshare : hello.shareId = lit config.shareId := congrArg ClientHello.shareId hhello
    have hfound : (plainField hello.shareId).bind get = some config := by
      rw [hshare, plainField_eq_some.mpr rfl]
      exact hget
    rw [hfound]
    simp only [bind_eq_ok, makeServerHello_eq, Except.ok.injEq, exists_eq_left', and_true]
    exact ⟨(), validateClientHello_eq_ok.mpr hhello⟩

/-- A client accepts the hello that a server with its configuration makes for it and its
nonce, and no other. -/
theorem acceptServer_eq_ok {config : ShareConfig β} {localId peer : PeerId} {nonce : Field β 32}
    {recv rest : List β} {hello : ServerHello β} :
    acceptServer config localId peer nonce recv = .ok (hello, rest) ↔
      recv = hello.bytes ++ rest
        ∧ hello = serverHello config localId peer nonce hello.serverNonce := by
  simp only [acceptServer, bind_eq_ok, Prod.exists, readServerHello_eq_ok, Except.ok.injEq,
    Prod.mk.injEq]
  constructor
  · rintro ⟨hello', rest', rfl, ⟨⟩, hvalid, rfl, rfl⟩
    exact ⟨rfl, validateServerHello_eq_ok.mp hvalid⟩
  · rintro ⟨rfl, hhello⟩
    exact ⟨hello, rest, rfl, (), validateServerHello_eq_ok.mpr hhello, rfl, rfl⟩

end Accept

end Auth

end Syncbox

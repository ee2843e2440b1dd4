/-
# `Syncbox.Network.AuthModel` — who is at the other end

The handshake of `Network.Auth` against an adversary, on symbolic bytes.  Any number of
devices run it at once, each as client and as server, for shares that come and go.  The
adversary sees every byte that any of them sends, holds the secrets of some shares, and
decides what each of them receives and from whom it seems to come: anything that it can
derive.  (Transport identities are authenticated, so it cannot really choose those; nothing
here needs that.)

The invariant is `Accounted`: a code under a secret that the adversary lacks is on the wire
only because a device made it, in one of the two hellos.  What a hello proves is then
read off the input of the HMAC, which is a plain concatenation of fields of fixed width:
`proofInput_inj` takes it apart, and the two roles differ in the first of them.
-/
import Syncbox.Lib.Symbolic
import Syncbox.Network.Auth

namespace Syncbox

open Rust Symbolic

open Cursor (Field)

instance {K : Type} [DecidableEq K] : AuthBytes (SymByte K) where
  decEq := inferInstance
  raw := SymByte.raw
  plain := SymByte.plain
  plain_eq_some := SymByte.plain_eq_some
  Secret := K
  hmac := SymByte.hmac

namespace Auth

/-! ## The input of the HMAC -/

section Input

variable [Crypto] {β : Type} [AuthBytes β]

theorem proofInput_inj {role role' : List Byte} {shareId shareId' : ShareId}
    {client server client' server' : PeerId} {nonces nonces' : List (Field β 32)}
    (hrole : role.length = role'.length)
    (h : proofInput role shareId client server nonces
      = proofInput role' shareId' client' server' nonces') :
    role = role' ∧ shareId = shareId' ∧ client = client' ∧ server = server'
      ∧ nonces.flatMap Subtype.val = nonces'.flatMap Subtype.val := by
  simp only [proofInput, List.append_assoc] at h
  have hwidth : ∀ a b : Field β 32, a.val.length = b.val.length :=
    fun a b => a.property.trans b.property.symm
  obtain ⟨-, h⟩ := List.append_inj h rfl
  obtain ⟨h₁, h⟩ := List.append_inj h (by simpa using hrole)
  obtain ⟨h₂, h⟩ := List.append_inj h (hwidth _ _)
  obtain ⟨h₃, h⟩ := List.append_inj h (hwidth _ _)
  obtain ⟨h₄, h⟩ := List.append_inj h (hwidth _ _)
  exact ⟨raw_injective.list_map h₁, lit_injective (Subtype.ext h₂),
    Subtype.ext (lit_injective (Subtype.ext h₃)), Subtype.ext (lit_injective (Subtype.ext h₄)), h⟩

end Input

theorem roles_length : (asBytes "client".toList).length = (asBytes "server".toList).length := by decide

theorem roles_ne : asBytes "client".toList ≠ asBytes "server".toList := by decide

section Model

variable [Crypto] {K : Type} [DecidableEq K]

theorem clientProof_inj {config config' : ShareConfig (SymByte K)} {client server client' server' : PeerId}
    {nonce nonce' : Field (SymByte K) 32}
    (h : clientProof config client server nonce = clientProof config' client' server' nonce') :
    config = config' ∧ client = client' ∧ server = server' ∧ nonce = nonce' := by
  obtain ⟨hsecret, hinput⟩ := SymByte.hmac_inj h
  obtain ⟨-, hshare, rfl, rfl, hnonce⟩ := proofInput_inj rfl hinput
  refine ⟨?_, rfl, rfl, Subtype.ext (by simpa using hnonce)⟩
  cases config
  cases config'
  cases hsecret
  cases hshare
  rfl

theorem serverProof_inj {config config' : ShareConfig (SymByte K)} {client server client' server' : PeerId}
    {clientNonce serverNonce clientNonce' serverNonce' : Field (SymByte K) 32}
    (h : serverProof config client server clientNonce serverNonce
      = serverProof config' client' server' clientNonce' serverNonce') :
    config = config' ∧ client = client' ∧ server = server' ∧ clientNonce = clientNonce'
      ∧ serverNonce = serverNonce' := by
  obtain ⟨hsecret, hinput⟩ := SymByte.hmac_inj h
  obtain ⟨-, hshare, rfl, rfl, hnonces⟩ := proofInput_inj rfl hinput
  simp only [List.flatMap_cons, List.flatMap_nil, List.append_nil] at hnonces
  obtain ⟨h₁, h₂⟩ := List.append_inj hnonces (clientNonce.property.trans clientNonce'.property.symm)
  refine ⟨?_, rfl, rfl, Subtype.ext h₁, Subtype.ext h₂⟩
  cases config
  cases config'
  cases hsecret
  cases hshare
  rfl

theorem clientProof_ne_serverProof {config config' : ShareConfig (SymByte K)}
    {client server client' server' : PeerId} {nonce clientNonce serverNonce : Field (SymByte K) 32} :
    clientProof config client server nonce
      ≠ serverProof config' client' server' clientNonce serverNonce := by
  intro h
  obtain ⟨-, hinput⟩ := SymByte.hmac_inj h
  exact roles_ne (proofInput_inj roles_length hinput).1

/-! ## Runs -/

variable (ι : Type)

/-- A call of one of the two functions that make a hello, by a device. -/
inductive Call (K : Type) [DecidableEq K] where
  | client (device : ι) (config : ShareConfig (SymByte K)) (peer : PeerId) (nonce : Bytes32)
  | server (device : ι) (config : ShareConfig (SymByte K)) (peer : PeerId)
      (clientNonce : Field (SymByte K) 32) (serverNonce : Bytes32)

variable {ι}

structure Net (ι K : Type) [DecidableEq K] where
  /-- `registry.get` of each device, with the configuration of the share. -/
  registry : ι → ShareId → Option (ShareConfig (SymByte K))
  calls : List (Call ι K)

section Runs

variable (endpoint : ι → PeerId) (keys : Set K)

/-- The proof that a call puts in its hello. -/
def Call.proof : Call ι K → Field (SymByte K) 32
  | .client device config peer nonce => clientProof config (endpoint device) peer (lit nonce)
  | .server device config peer clientNonce serverNonce =>
      serverProof config peer (endpoint device) clientNonce (lit serverNonce)

/-- The bytes that a call sends. -/
def Call.bytes : Call ι K → List (SymByte K)
  | .client device config peer nonce =>
      (clientHello config (endpoint device) peer (lit nonce)).bytes
  | .server device config peer clientNonce serverNonce =>
      (serverHello config peer (endpoint device) clientNonce (lit serverNonce)).bytes

/-- Every byte that was sent. -/
def Net.sent (net : Net ι K) : Set (SymByte K) := {x | ∃ call ∈ net.calls, x ∈ call.bytes endpoint}

/-- Bytes that the adversary can deliver. -/
def Net.Deliverable (net : Net ι K) (recv : List (SymByte K)) : Prop :=
  ∀ x ∈ recv, Derives keys (net.sent endpoint) x

/-- The steps of the devices.  A client that accepts sends nothing more of a proof, so that
is no step. -/
inductive Net.Step : Net ι K → Net ι K → Prop
  /-- Shares are added and removed. -/
  | register (net : Net ι K) (registry : ι → ShareId → Option (ShareConfig (SymByte K))) :
      Step net { net with registry }
  /-- `sync_with_peer` opens a session. -/
  | connect {net : Net ι K} {device : ι} {config : ShareConfig (SymByte K)} (server : PeerId)
      (nonce : Bytes32) {hello : List (SymByte K)} :
      net.registry device config.shareId = some config →
      makeClientHello config (endpoint device) server (lit nonce) = .ok hello →
      Step net { net with calls := .client device config server nonce :: net.calls }
  /-- `handle_sync_stream` accepts a session. -/
  | serve {net : Net ι K} {device : ι} {config : ShareConfig (SymByte K)} {peer : PeerId}
      {serverNonce : Bytes32} {recv answer rest : List (SymByte K)} {hello : ClientHello (SymByte K)} :
      net.Deliverable endpoint keys recv →
      acceptClient (net.registry device) peer (endpoint device) (lit serverNonce) recv
        = .ok (config, hello, answer, rest) →
      Step net { net with calls := .server device config peer hello.nonce serverNonce :: net.calls }

/-- The states that a run from no calls at all reaches. -/
def Net.Reachable (net : Net ι K) : Prop :=
  ∃ registry, Relation.ReflTransGen (Net.Step endpoint keys) ⟨registry, []⟩ net

/-- Codes under secrets that the adversary lacks are on the wire only as proofs. -/
def Net.Accounted (net : Net ι K) : Prop :=
  ∀ key message index, SymByte.mac key message index ∈ net.sent endpoint → key ∉ keys →
    ∃ call ∈ net.calls, call.proof endpoint = SymByte.hmac key message

end Runs

variable {endpoint : ι → PeerId} {keys : Set K}

/-- The bytes of a hello that its maker did not choose. -/
def Call.echoed : Call ι K → List (SymByte K)
  | .client _ _ _ _ => []
  | .server _ _ _ clientNonce _ => clientNonce.val

theorem Call.mac_mem_bytes {call : Call ι K} {key : K} {message : List (SymByte K)} {index : Fin 32}
    (h : .mac key message index ∈ call.bytes endpoint) :
    .mac key message index ∈ call.echoed ∨ call.proof endpoint = SymByte.hmac key message := by
  have hlit : ∀ {n : Nat} (bytes : Field Byte n), SymByte.mac key message index ∉ (lit bytes).val := by
    intro n bytes h
    obtain ⟨b, -, hb⟩ := List.mem_map.mp h
    cases hb
  have hproof : ∀ {key' : K} {message' : List (SymByte K)},
      .mac key message index ∈ (SymByte.hmac key' message').val →
        SymByte.hmac key' message' = SymByte.hmac key message := by
    intro key' message' h
    obtain ⟨_, heq⟩ := SymByte.mem_hmac.mp h
    cases heq
    rfl
  cases call with
  | client device config peer nonce =>
      simp only [Call.bytes, ClientHello.bytes, clientHello, List.mem_append, hlit, false_or] at h
      exact .inr (hproof h)
  | server device config peer clientNonce serverNonce =>
      simp only [Call.bytes, ServerHello.bytes, serverHello, List.mem_append, hlit, false_or, or_false]
        at h
      exact h.imp id hproof

/-- A call whose echo the adversary could deliver keeps the codes accounted for. -/
theorem Net.Accounted.call {net : Net ι K} (h : net.Accounted endpoint keys) {call : Call ι K}
    (hecho : net.Deliverable endpoint keys call.echoed) :
    Net.Accounted endpoint keys { net with calls := call :: net.calls } := by
  rintro key message index ⟨call', hcall', hmem⟩ hkey
  have hbefore : SymByte.mac key message index ∈ net.sent endpoint →
      ∃ call' ∈ call :: net.calls, call'.proof endpoint = SymByte.hmac key message := by
    intro hsent
    obtain ⟨call'', hcall'', hproof⟩ := h key message index hsent hkey
    exact ⟨call'', List.mem_cons_of_mem _ hcall'', hproof⟩
  rcases List.mem_cons.mp hcall' with rfl | hcall'
  · rcases Call.mac_mem_bytes hmem with hmem | hproof
    · exact hbefore ((hecho _ hmem).mac_mem hkey)
    · exact ⟨call', List.mem_cons_self, hproof⟩
  · exact hbefore ⟨call', hcall', hmem⟩

theorem Net.Accounted.step {net net' : Net ι K} (h : net.Accounted endpoint keys)
    (hstep : Net.Step endpoint keys net net') : net'.Accounted endpoint keys := by
  cases hstep with
  | register registry => exact h
  | connect server nonce _ _ => exact h.call (fun x hx => nomatch hx)
  | serve hrecv haccept =>
      obtain ⟨-, rfl, -, -⟩ := acceptClient_eq_ok.mp haccept
      refine h.call fun x hx => hrecv x ?_
      simp only [ClientHello.bytes, List.mem_append]
      exact .inl (.inl (.inr hx))

theorem Net.Reachable.accounted {net : Net ι K} (h : net.Reachable endpoint keys) :
    net.Accounted endpoint keys := by
  obtain ⟨registry, hrun⟩ := h
  induction hrun with
  | refl =>
      rintro key message index ⟨call, hcall, -⟩
      cases hcall
  | tail _ hstep ih => exact ih.step hstep

/-- A proof that can be delivered was made, unless the adversary has its secret. -/
theorem Net.Accounted.made {net : Net ι K} (h : net.Accounted endpoint keys) {key : K}
    {message : List (SymByte K)} (hkey : key ∉ keys)
    (hrecv : net.Deliverable endpoint keys (SymByte.hmac key message).val) :
    ∃ call ∈ net.calls, call.proof endpoint = SymByte.hmac key message :=
  h key message 0 (Derives.hmac_mem hrecv hkey) hkey

theorem made_client {net : Net ι K} (hnet : net.Accounted endpoint keys)
    {config : ShareConfig (SymByte K)} (hkey : config.shareSecret ∉ keys) {client server : PeerId}
    {nonce : Field (SymByte K) 32}
    (hrecv : net.Deliverable endpoint keys (clientHello config client server nonce).bytes) :
    ∃ device nonce', .client device config server nonce' ∈ net.calls ∧ endpoint device = client
      ∧ lit nonce' = nonce := by
  obtain ⟨call, hcall, hproof⟩ := hnet.made hkey fun x hx => hrecv x (List.mem_append_right _ hx)
  cases call with
  | client device config' peer nonce' =>
      obtain ⟨rfl, rfl, rfl, rfl⟩ := clientProof_inj hproof
      exact ⟨device, nonce', hcall, rfl, rfl⟩
  | server device config' peer clientNonce serverNonce =>
      exact absurd hproof.symm clientProof_ne_serverProof

theorem made_server {net : Net ι K} (hnet : net.Accounted endpoint keys)
    {config : ShareConfig (SymByte K)} (hkey : config.shareSecret ∉ keys) {client server : PeerId}
    {clientNonce serverNonce : Field (SymByte K) 32}
    (hrecv : net.Deliverable endpoint keys
      (serverHello config client server clientNonce serverNonce).bytes) :
    ∃ device serverNonce', .server device config client clientNonce serverNonce' ∈ net.calls
      ∧ endpoint device = server ∧ lit serverNonce' = serverNonce := by
  obtain ⟨call, hcall, hproof⟩ := hnet.made hkey fun x hx => hrecv x (List.mem_append_right _ hx)
  cases call with
  | client device config' peer nonce' => exact absurd hproof clientProof_ne_serverProof
  | server device config' peer clientNonce' serverNonce' =>
      obtain ⟨rfl, rfl, rfl, rfl, rfl⟩ := serverProof_inj hproof
      exact ⟨device, serverNonce', hcall, rfl, rfl⟩

theorem handshake_ok {β : Type} [AuthBytes β] {get : ShareId → Option (ShareConfig β)}
    {config : ShareConfig β} (hget : get config.shareId = some config) (client server : PeerId)
    (nonce serverNonce : Field β 32) :
    ∃ hello answer clientHello serverHello, makeClientHello config client server nonce = .ok hello
      ∧ acceptClient get client server serverNonce hello = .ok (config, clientHello, answer, [])
      ∧ acceptServer config client server nonce answer = .ok (serverHello, []) :=
  ⟨_, _, clientHello config client server nonce, serverHello config client server nonce serverNonce,
    makeClientHello_eq _ _ _ _,
    acceptClient_eq_ok.mpr ⟨hget, (List.append_nil _).symm, rfl, rfl⟩,
    acceptServer_eq_ok.mpr ⟨(List.append_nil _).symm, rfl⟩⟩

/-- Mutual authentication.  A server accepts a client only if a device with that transport
identity, holding the secret, made a hello for this server; a client accepts a server only
if the device with its transport identity, holding the secret, answered this client and this
nonce; honest handshakes go through; and proofs determine what they are for. -/
theorem mutual_authentication {net : Net ι K} (hnet : net.Reachable endpoint keys) :
    (∀ {device : ι} {config : ShareConfig (SymByte K)} {peer : PeerId} {serverNonce : Bytes32}
        {hello : ClientHello (SymByte K)} {recv answer rest : List (SymByte K)},
      config.shareSecret ∉ keys → net.Deliverable endpoint keys recv →
      acceptClient (net.registry device) peer (endpoint device) (lit serverNonce) recv
        = .ok (config, hello, answer, rest) →
      ∃ client nonce, .client client config (endpoint device) nonce ∈ net.calls
        ∧ endpoint client = peer ∧ lit nonce = hello.nonce)
    ∧ (∀ {device : ι} {config : ShareConfig (SymByte K)} {peer : PeerId} {nonce : Bytes32}
        {hello : ServerHello (SymByte K)} {recv rest : List (SymByte K)},
      config.shareSecret ∉ keys → net.Deliverable endpoint keys recv →
      acceptServer config (endpoint device) peer (lit nonce) recv = .ok (hello, rest) →
      ∃ server serverNonce,
        .server server config (endpoint device) (lit nonce) serverNonce ∈ net.calls
          ∧ endpoint server = peer ∧ lit serverNonce = hello.serverNonce)
    ∧ (∀ {β : Type} [AuthBytes β] (get : ShareId → Option (ShareConfig β)) (config : ShareConfig β)
        (client server : PeerId) (nonce serverNonce : Field β 32), get config.shareId = some config →
      ∃ hello answer clientHello serverHello, makeClientHello config client server nonce = .ok hello
        ∧ acceptClient get client server serverNonce hello = .ok (config, clientHello, answer, [])
        ∧ acceptServer config client server nonce answer = .ok (serverHello, []))
    ∧ Function.Injective (fun x : ShareConfig (SymByte K) × PeerId × PeerId × Field (SymByte K) 32 =>
        clientProof x.1 x.2.1 x.2.2.1 x.2.2.2)
    ∧ Function.Injective
        (fun x : ShareConfig (SymByte K) × PeerId × PeerId × Field (SymByte K) 32 × Field (SymByte K) 32 =>
          serverProof x.1 x.2.1 x.2.2.1 x.2.2.2.1 x.2.2.2.2)
    ∧ ∀ (config config' : ShareConfig (SymByte K)) (client server client' server' : PeerId)
        (nonce clientNonce serverNonce : Field (SymByte K) 32),
      clientProof config client server nonce
        ≠ serverProof config' client' server' clientNonce serverNonce := by
  have hcodes := hnet.accounted
  refine ⟨?_, ?_, ?_, ?_, ?_, ?_⟩
  · intro device config peer serverNonce hello recv answer rest hkey hrecv haccept
    obtain ⟨-, rfl, hhello, -⟩ := acceptClient_eq_ok.mp haccept
    refine made_client hcodes hkey fun x hx => hrecv x (List.mem_append_left _ ?_)
    rw [hhello]
    exact hx
  · intro device config peer nonce hello recv rest hkey hrecv haccept
    obtain ⟨rfl, hhello⟩ := acceptServer_eq_ok.mp haccept
    refine made_server hcodes hkey fun x hx => hrecv x (List.mem_append_left _ ?_)
    rw [hhello]
    exact hx
  · intro β _ get config client server nonce serverNonce hget
    exact handshake_ok hget client server nonce serverNonce
  · rintro ⟨config, client, server, nonce⟩ ⟨config', client', server', nonce'⟩ h
    obtain ⟨rfl, rfl, rfl, rfl⟩ := clientProof_inj h
    rfl
  · rintro ⟨config, client, server, clientNonce, serverNonce⟩
      ⟨config', client', server', clientNonce', serverNonce'⟩ h
    obtain ⟨rfl, rfl, rfl, rfl, rfl⟩ := serverProof_inj h
    rfl
  · intro config config' client server client' server' nonce clientNonce serverNonce
    exact clientProof_ne_serverProof

end Model

/-- A session between two devices, as far as the server's answer. -/
theorem mutual_authentication_session : let _ := Crypto.plain
    ∃ (endpoint : Bool → PeerId) (net : Net Bool Unit) (config : ShareConfig (SymByte Unit))
      (hello : ClientHello (SymByte Unit)) (serverNonce : Bytes32) (recv answer : List (SymByte Unit)),
      net.Reachable endpoint ∅ ∧ net.Deliverable endpoint ∅ recv
      ∧ acceptClient (net.registry false) (endpoint true) (endpoint false) (lit serverNonce) recv
          = .ok (config, hello, answer, [])
      ∧ ∃ client nonce, .client client config (endpoint false) nonce ∈ net.calls
          ∧ endpoint client = endpoint true ∧ lit nonce = hello.nonce := by
  intro _
  let key (b : Byte) : Bytes32 := ⟨List.replicate 32 b, rfl⟩
  let endpoint (b : Bool) : PeerId := ⟨key (if b then 1 else 0), rfl⟩
  let config : ShareConfig (SymByte Unit) := ⟨key 7, ()⟩
  let registry : Bool → ShareId → Option (ShareConfig (SymByte Unit)) := fun _ _ => some config
  let net : Net Bool Unit := ⟨registry, [.client true config (endpoint false) (key 9)]⟩
  let hello := clientHello config (endpoint true) (endpoint false) (lit (key 9))
  have hnet : net.Reachable endpoint ∅ :=
    ⟨registry, .single (.connect (endpoint false) (key 9) rfl (makeClientHello_eq _ _ _ _))⟩
  have hrecv : net.Deliverable endpoint ∅ hello.bytes :=
    fun x hx => .seen ⟨_, List.mem_singleton_self _, hx⟩
  have haccept : acceptClient (net.registry false) (endpoint true) (endpoint false) (lit (key 8))
      hello.bytes = .ok (config, hello, _, []) :=
    acceptClient_eq_ok.mpr ⟨rfl, (List.append_nil _).symm, rfl, rfl⟩
  exact ⟨endpoint, net, config, hello, key 8, hello.bytes, _, hnet, hrecv, haccept,
    (mutual_authentication hnet).1 (Set.notMem_empty _) hrecv haccept⟩

end Auth

end Syncbox

/-
# `Syncbox.Network.Deadlock` — no session waits for ever

A session may fail at any place: it then drops its locks and its streams, and the other side
reads on to the end of what was sent.  As long as neither side has ended, `Agree` says how
far the two are apart.

**Why nothing waits in a circle.**  `operation_lock` is never held where something is
awaited.  `receive_lock` is held where chunks are awaited, and the peer that sends them
neither holds nor wants a lock there: a client sends its uploads before it takes its own
`receive_lock`, a server sends its downloads after it has released its own.  So whoever holds
`receive_lock` waits for its peer at most, its peer for `operation_lock` at most, and whoever
holds that moves.
-/
import Syncbox.Network.Sessions

namespace Syncbox.Sync

open Process

/-! ## The two sides of a session -/

section Agreement

variable {δ L : Type}

/-- A client that has sent all its uploads, or has none to send and is about to be told. -/
def Client.Uploaded (c : Client δ) (toClient : List (Msg δ)) : Prop :=
  c = readReady ∧ toClient = [.ready 0] ∨ (c = sendUploads 0 ∨ c = readTransferResponse) ∧ toClient = []

/-- A client to which the server may already have sent its last messages. -/
def Client.Downloading (toClient : List (Msg δ)) : Client δ → Prop
  | readReady => ∃ rest, toClient = .ready 0 :: rest
  | sendUploads left => left = 0
  | readTransferResponse | lockReceive _ | receiveDownloads _ | lockApply | apply => True
  | _ => False

/-- How far the two sides of a session are apart: the client, the server, what is on its way
to the client and what is on its way to the server.  A server that only waits for its last
message to arrive does not depend on the client. -/
inductive Agree : Client δ → Server δ → List (Msg δ) → List (Msg δ) → Prop
  | clientClosed {s toClient toServer} : Agree .closed s toClient toServer
  | serverEnding {c s toClient toServer} (hs : s = .stopped ∨ s = .closed) : Agree c s toClient toServer
  | start : Agree .sendHello .readHello [] []
  | helloSent : Agree .readHello .readHello [] [.clientHello]
  | helloRead : Agree .readHello .sendHello [] []
  | helloAnswered : Agree .readHello .readRequest [.serverHello] []
  | authenticated : Agree .sendRequest .readRequest [] []
  | requested {digest} : Agree (.readResponse digest) .readRequest [] [.request digest]
  | answering {digest s}
      (hs : s = .lockSnapshot digest ∨ s = .snapshot digest ∨ ∃ ours, s = .sendResponse digest ours) :
      Agree (.readResponse digest) s [] []
  | answered {digest ours} (hne : digest ≠ ours) :
      Agree (.readResponse digest) .readManifest [.response ours] []
  | changed {c} (hc : c = .lockPeers false ∨ c = .mergePeers false ∨ c = .sendManifest) :
      Agree c .readManifest [] []
  | manifestSent : Agree .readManifest .readManifest [] [.manifest]
  | manifestRead : Agree .readManifest .sendManifest [] []
  | manifestAnswered : Agree .readManifest .readTransfer [.manifest] []
  | planning {c} (hc : c = .lockPlan ∨ c = .plan ∨ c = .sendTransfer) : Agree c .readTransfer [] []
  | transferSent : Agree .readReady .readTransfer [] [.transfer]
  | preparing {s} (hs : s = .lockReceive ∨ s = .makeReady ∨ ∃ bytes, s = .sendReady bytes) :
      Agree .readReady s [] []
  | ready {bytes} : Agree .readReady (.receiveUploads bytes) [.ready bytes] []
  | uploading {left remaining} (chunks : List Nat) (hpos : ∀ n ∈ chunks, 0 < n)
      (hsum : remaining = chunks.sum + left) :
      Agree (.sendUploads left) (.receiveUploads remaining) [] (chunks.map .chunk)
  | uploaded {remaining} (chunks : List Nat) (hpos : ∀ n ∈ chunks, 0 < n)
      (hsum : remaining = chunks.sum) :
      Agree .readTransferResponse (.receiveUploads remaining) [] (chunks.map .chunk)
  | applying {c s toClient} (hc : c.Uploaded toClient)
      (hs : s = .lockApply ∨ s = .apply ∨ ∃ bytes, s = .sendTransferResponse bytes) :
      Agree c s toClient []
  | downloading {c left toClient} (hc : c.Downloading toClient) :
      Agree c (.sendDownloads left) toClient []

variable {site : LockKind → L} {room : List (Msg δ) → Prop} {free : L → Prop}
  {ended : Prop} {c c' : Client δ} {s s' : Server δ}
  {toClient toServer toClient' toServer' : List (Msg δ)}

theorem Client.Uploaded.downloading (hc : c.Uploaded toClient) (m : Msg δ) :
    c.Downloading (toClient ++ [m]) := by
  rcases hc with ⟨rfl, rfl⟩ | ⟨rfl | rfl, rfl⟩
  · exact ⟨[m], rfl⟩
  · exact rfl
  · trivial

theorem Client.Downloading.append (hc : c.Downloading toClient) (m : Msg δ) :
    c.Downloading (toClient ++ [m]) := by
  cases c with
  | readReady =>
      obtain ⟨rest, rfl⟩ := hc
      exact ⟨rest ++ [m], rfl⟩
  | _ => exact hc

theorem act_sendChunk {σ : Type} {halt x : σ} {next : Nat → σ} {n : Nat}
    {input output input' output' : List (Msg δ)} (hopen : ¬ ended)
    (hact : Act room free ended halt (sendChunk next n) input output x input' output') :
    ∃ bytes, 0 < bytes ∧ bytes ≤ n ∧ x = next (n - bytes) ∧ input' = input
      ∧ output' = output ++ [.chunk bytes] := by
  obtain ⟨rfl, ⟨m, ⟨bytes, hpos, hle, rfl, rfl⟩, -, rfl⟩ | ⟨h, -⟩⟩ := act_send.mp hact
  · exact ⟨bytes, hpos, hle, rfl, rfl, rfl⟩
  · exact absurd h hopen

theorem eq_nil_of_sum_eq_zero {chunks : List Nat} (hpos : ∀ k ∈ chunks, 0 < k) (hsum : chunks.sum = 0) :
    chunks = [] := by
  cases chunks with
  | nil => rfl
  | cons bytes chunks =>
      have := hpos bytes List.mem_cons_self
      rw [List.sum_cons] at hsum
      omega

theorem act_recvChunk {σ : Type} {halt x : σ} {next : Nat → σ} {n : Nat} {chunks : List Nat}
    {output input' output' : List (Msg δ)} (hopen : ¬ ended) (hpos : ∀ k ∈ chunks, 0 < k)
    (hsum : chunks.sum ≤ n)
    (hact : Act room free ended halt (recvChunk next n) (chunks.map .chunk) output x input' output') :
    ∃ bytes chunks', chunks = bytes :: chunks' ∧ x = next (n - bytes) ∧ input' = chunks'.map .chunk
      ∧ output' = output := by
  cases chunks with
  | nil => exact absurd (act_recv_nil.mp hact).1 hopen
  | cons bytes chunks =>
      rw [List.sum_cons] at hsum
      obtain ⟨rfl, rfl, ⟨k, -, -, hk, rfl⟩ | ⟨hno, -⟩⟩ := act_recv_cons.mp hact
      · cases hk
        exact ⟨_, chunks, rfl, rfl, rfl, rfl⟩
      · exact absurd ⟨bytes, hpos _ List.mem_cons_self, by omega, rfl, rfl⟩ (hno _)

variable [DecidableEq δ]

theorem Client.Uploaded.step (hc : c.Uploaded toClient) (hopen : ¬ ended)
    (hact : Act room free ended .closed (c.op site) toClient toServer c' toClient' toServer') :
    c'.Uploaded toClient' ∧ toServer' = toServer := by
  rcases hc with ⟨rfl, rfl⟩ | ⟨rfl | rfl, rfl⟩ <;> simp [Client.op, hopen] at hact
  · obtain ⟨rfl, rfl, rfl⟩ := hact
    exact ⟨.inr ⟨.inl rfl, rfl⟩, rfl⟩
  · obtain ⟨rfl, rfl, rfl⟩ := hact
    exact ⟨.inr ⟨.inr rfl, rfl⟩, rfl⟩

theorem Client.Downloading.step (hc : c.Downloading toClient)
    (hact : Act room free ended .closed (c.op site) toClient toServer c' toClient' toServer') :
    c' = .closed ∨ c'.Downloading toClient' ∧ toServer' = toServer := by
  cases c with
  | readReady =>
      obtain ⟨rest, rfl⟩ := hc
      simp [Client.op] at hact
      obtain ⟨rfl, rfl, rfl⟩ := hact
      exact .inr ⟨rfl, rfl⟩
  | sendUploads left =>
      cases hc
      simp [Client.op] at hact
      obtain ⟨rfl, rfl, rfl⟩ := hact
      exact .inr ⟨trivial, rfl⟩
  | readTransferResponse =>
      cases toClient with
      | nil =>
          simp [Client.op] at hact
          exact .inl hact.2.1
      | cons m rest =>
          simp [Client.op] at hact
          obtain ⟨rfl, rfl, ⟨bytes, rfl, rfl⟩ | ⟨-, rfl⟩⟩ := hact
          · exact .inr ⟨trivial, rfl⟩
          · exact .inl rfl
  | lockReceive bytes =>
      simp [Client.op] at hact
      obtain ⟨-, rfl, rfl, rfl⟩ := hact
      exact .inr ⟨trivial, rfl⟩
  | receiveDownloads left =>
      cases left with
      | zero =>
          simp [Client.op] at hact
          obtain ⟨rfl, rfl, rfl⟩ := hact
          exact .inr ⟨trivial, rfl⟩
      | succ n =>
          cases toClient with
          | nil =>
              simp [Client.op, recvChunk] at hact
              exact .inl hact.2.1
          | cons m rest =>
              simp [Client.op, recvChunk] at hact
              obtain ⟨rfl, rfl, ⟨bytes, -, -, rfl, rfl⟩ | ⟨-, rfl⟩⟩ := hact
              · exact .inr ⟨trivial, rfl⟩
              · exact .inl rfl
  | lockApply =>
      simp [Client.op] at hact
      obtain ⟨-, rfl, rfl, rfl⟩ := hact
      exact .inr ⟨trivial, rfl⟩
  | apply =>
      simp [Client.op] at hact
      exact .inl hact.1
  | _ => cases hc

theorem Agree.client_step (h : Agree c s toClient toServer) (hended : ended → s = .closed)
    (hact : Act room free ended .closed (c.op site) toClient toServer c' toClient' toServer') :
    Agree c' s toClient' toServer' := by
  by_cases hs : s = .stopped ∨ s = .closed
  · exact .serverEnding hs
  have hopen : ¬ ended := fun h => hs (.inr (hended h))
  cases h with
  | clientClosed => exact absurd hact act_halted
  | serverEnding h => exact absurd h hs
  | start =>
      simp [Client.op, hopen] at hact
      obtain ⟨rfl, rfl, -, rfl⟩ := hact
      exact .helloSent
  | helloSent | helloRead | requested | manifestSent | manifestRead | transferSent =>
      simp [Client.op, hopen] at hact
  | answering h | preparing h => simp [Client.op, hopen] at hact
  | helloAnswered =>
      simp [Client.op] at hact
      obtain ⟨rfl, rfl, rfl⟩ := hact
      exact .authenticated
  | authenticated =>
      simp [Client.op, hopen] at hact
      obtain ⟨rfl, digest, rfl, -, rfl⟩ := hact
      exact .requested
  | answered hne =>
      simp [Client.op] at hact
      obtain ⟨rfl, rfl, rfl⟩ := hact
      simp [Ne.symm hne]
      exact .changed (.inl rfl)
  | changed hc =>
      rcases hc with rfl | rfl | rfl <;> simp [Client.op, hopen] at hact
      · obtain ⟨-, rfl, rfl, rfl⟩ := hact
        exact .changed (.inr (.inl rfl))
      · obtain ⟨rfl, rfl, rfl⟩ := hact
        exact .changed (.inr (.inr rfl))
      · obtain ⟨rfl, rfl, -, rfl⟩ := hact
        exact .manifestSent
  | manifestAnswered =>
      simp [Client.op] at hact
      obtain ⟨rfl, rfl, rfl⟩ := hact
      exact .planning (.inl rfl)
  | planning hc =>
      rcases hc with rfl | rfl | rfl <;> simp [Client.op, hopen] at hact
      · obtain ⟨-, rfl, rfl, rfl⟩ := hact
        exact .planning (.inr (.inl rfl))
      · obtain ⟨rfl, rfl, rfl⟩ := hact
        exact .planning (.inr (.inr rfl))
      · obtain ⟨rfl, rfl, -, rfl⟩ := hact
        exact .transferSent
  | ready =>
      simp [Client.op] at hact
      obtain ⟨rfl, rfl, rfl⟩ := hact
      exact .uploading [] (by simp) (by simp)
  | @uploading left remaining chunks hpos hsum =>
      cases left with
      | zero =>
          simp [Client.op] at hact
          obtain ⟨rfl, rfl, rfl⟩ := hact
          exact .uploaded chunks hpos hsum
      | succ n =>
          obtain ⟨bytes, hbytes, hle, rfl, rfl, rfl⟩ := act_sendChunk hopen hact
          rw [show chunks.map Msg.chunk ++ [Msg.chunk bytes] = (chunks ++ [bytes]).map .chunk by simp]
          refine .uploading _ ?_ ?_
          · intro k hk
            rcases List.mem_append.mp hk with hk | hk
            · exact hpos k hk
            · rwa [List.mem_singleton.mp hk]
          · rw [List.sum_append, List.sum_singleton]
            omega
  | uploaded _ _ _ => simp [Client.op, hopen] at hact
  | applying hc hs' =>
      obtain ⟨hc', rfl⟩ := hc.step hopen hact
      exact .applying hc' hs'
  | downloading hc =>
      rcases hc.step hact with rfl | ⟨hc', rfl⟩
      · exact .clientClosed
      · exact .downloading hc'

theorem Agree.answering_step {digest : δ} (hopen : ¬ ended)
    (hs : s = .lockSnapshot digest ∨ s = .snapshot digest ∨ ∃ ours, s = .sendResponse digest ours)
    (hact : Act room free ended .closed (s.op site) [] [] s' toServer' toClient') :
    Agree (.readResponse digest) s' toClient' toServer' := by
  rcases hs with rfl | rfl | ⟨ours, rfl⟩ <;> simp [Server.op, hopen] at hact
  · obtain ⟨-, rfl, rfl, rfl⟩ := hact
    exact .answering (.inr (.inl rfl))
  · obtain ⟨⟨ours, rfl⟩, rfl, rfl⟩ := hact
    exact .answering (.inr (.inr ⟨ours, rfl⟩))
  · obtain ⟨rfl, rfl, -, rfl⟩ := hact
    split
    · exact .serverEnding (.inl rfl)
    · exact .answered ‹_›

theorem Agree.preparing_step (hopen : ¬ ended)
    (hs : s = .lockReceive ∨ s = .makeReady ∨ ∃ bytes, s = .sendReady bytes)
    (hact : Act room free ended .closed (s.op site) [] [] s' toServer' toClient') :
    Agree .readReady s' toClient' toServer' := by
  rcases hs with rfl | rfl | ⟨bytes, rfl⟩ <;> simp [Server.op, hopen] at hact
  · obtain ⟨-, rfl, rfl, rfl⟩ := hact
    exact .preparing (.inr (.inl rfl))
  · obtain ⟨⟨bytes, rfl⟩, rfl, rfl⟩ := hact
    exact .preparing (.inr (.inr ⟨bytes, rfl⟩))
  · obtain ⟨rfl, rfl, -, rfl⟩ := hact
    exact .ready

theorem Server.receiveUploads_step {remaining : Nat} {chunks : List Nat} (hopen : ¬ ended)
    (hpos : ∀ n ∈ chunks, 0 < n) (hsum : chunks.sum ≤ remaining)
    (hact : Act room free ended .closed ((receiveUploads remaining).op site) (chunks.map .chunk) toClient
      s' toServer' toClient') :
    toClient' = toClient ∧ (remaining = 0 ∧ chunks = [] ∧ s' = .lockApply ∧ toServer' = []
      ∨ ∃ bytes chunks', chunks = bytes :: chunks' ∧ s' = .receiveUploads (remaining - bytes)
        ∧ toServer' = chunks'.map .chunk) := by
  cases remaining with
  | zero =>
      simp [Server.op] at hact
      obtain ⟨rfl, rfl, rfl⟩ := hact
      cases eq_nil_of_sum_eq_zero hpos (by omega)
      exact ⟨rfl, .inl ⟨rfl, rfl, rfl, rfl⟩⟩
  | succ n =>
      obtain ⟨bytes, chunks', rfl, rfl, rfl, rfl⟩ := act_recvChunk hopen hpos hsum hact
      exact ⟨rfl, .inr ⟨bytes, chunks', rfl, rfl, rfl⟩⟩

theorem Agree.applying_step (hopen : ¬ ended) (hc : c.Uploaded toClient)
    (hs : s = .lockApply ∨ s = .apply ∨ ∃ bytes, s = .sendTransferResponse bytes)
    (hact : Act room free ended .closed (s.op site) [] toClient s' toServer' toClient') :
    Agree c s' toClient' toServer' := by
  rcases hs with rfl | rfl | ⟨bytes, rfl⟩ <;> simp [Server.op, hopen] at hact
  · obtain ⟨-, rfl, rfl, rfl⟩ := hact
    exact .applying hc (.inr (.inl rfl))
  · obtain ⟨⟨bytes, rfl⟩, rfl, rfl⟩ := hact
    exact .applying hc (.inr (.inr ⟨bytes, rfl⟩))
  · obtain ⟨rfl, rfl, -, rfl⟩ := hact
    exact .downloading (hc.downloading _)

theorem Agree.downloading_step {left : Nat} (hopen : ¬ ended) (hc : c.Downloading toClient)
    (hact : Act room free ended .closed ((Server.sendDownloads left).op site) [] toClient s' toServer'
      toClient') : Agree c s' toClient' toServer' := by
  cases left with
  | zero =>
      simp [Server.op] at hact
      obtain ⟨rfl, rfl, rfl⟩ := hact
      exact .serverEnding (.inl rfl)
  | succ n =>
      obtain ⟨bytes, -, -, rfl, rfl, rfl⟩ := act_sendChunk hopen hact
      exact .downloading (hc.append _)

theorem Agree.server_step (h : Agree c s toClient toServer) (hended : ended → c = .closed)
    (hact : Act room free ended .closed (s.op site) toServer toClient s' toServer' toClient') :
    Agree c s' toClient' toServer' := by
  by_cases hc : c = .closed
  · rw [hc]
    exact .clientClosed
  have hopen : ¬ ended := fun h => hc (hended h)
  cases h with
  | clientClosed => exact absurd rfl hc
  | serverEnding h =>
      rcases h with rfl | rfl <;> simp [Server.op] at hact
      obtain ⟨rfl, rfl, rfl⟩ := hact
      exact .serverEnding (.inr rfl)
  | start | helloAnswered | authenticated | answered _ | manifestAnswered =>
      simp [Server.op, hopen] at hact
  | changed h | planning h => simp [Server.op, hopen] at hact
  | helloSent =>
      simp [Server.op] at hact
      obtain ⟨rfl, rfl, rfl⟩ := hact
      exact .helloRead
  | helloRead =>
      simp [Server.op, hopen] at hact
      obtain ⟨rfl, rfl, -, rfl⟩ := hact
      exact .helloAnswered
  | requested =>
      simp [Server.op] at hact
      obtain ⟨rfl, rfl, rfl⟩ := hact
      exact .answering (.inl rfl)
  | answering hs => exact answering_step hopen hs hact
  | manifestSent =>
      simp [Server.op] at hact
      obtain ⟨rfl, rfl, rfl⟩ := hact
      exact .manifestRead
  | manifestRead =>
      simp [Server.op, hopen] at hact
      obtain ⟨rfl, rfl, -, rfl⟩ := hact
      exact .manifestAnswered
  | transferSent =>
      simp [Server.op] at hact
      obtain ⟨rfl, rfl, rfl⟩ := hact
      exact .preparing (.inl rfl)
  | preparing hs => exact preparing_step hopen hs hact
  | ready =>
      obtain ⟨rfl, ⟨rfl, -, rfl, rfl⟩ | ⟨_, _, hnil, -⟩⟩ :=
        Server.receiveUploads_step hopen (List.forall_mem_nil _) (Nat.zero_le _) hact
      -- With nothing to receive, the server goes on before the client has read its message.
      · exact .applying (.inl ⟨rfl, rfl⟩) (.inl rfl)
      · cases hnil
  | uploading chunks hpos hsum =>
      obtain ⟨rfl, ⟨rfl, rfl, rfl, rfl⟩ | ⟨bytes, chunks', rfl, rfl, rfl⟩⟩ :=
        Server.receiveUploads_step hopen hpos (by omega) hact
      · obtain rfl := (Nat.add_eq_zero_iff.mp hsum.symm).2
        exact .applying (.inr ⟨.inl rfl, rfl⟩) (.inl rfl)
      · rw [List.sum_cons] at hsum
        exact .uploading chunks' (fun k hk => hpos k (List.mem_cons_of_mem _ hk)) (by omega)
  | uploaded chunks hpos hsum =>
      obtain ⟨rfl, ⟨rfl, rfl, rfl, rfl⟩ | ⟨bytes, chunks', rfl, rfl, rfl⟩⟩ :=
        Server.receiveUploads_step hopen hpos hsum.ge hact
      · exact .applying (.inr ⟨.inr rfl, rfl⟩) (.inl rfl)
      · rw [List.sum_cons] at hsum
        exact .uploaded chunks' (fun k hk => hpos k (List.mem_cons_of_mem _ hk)) (by omega)
  | applying hc hs => exact applying_step hopen hc hs hact
  | downloading hc => exact downloading_step hopen hc hact

/-- The two sides do not both wait for each other. -/
theorem Agree.not_both_stuck (hroom : room []) {siteC siteS : LockKind → L}
    (h : Agree c s toClient toServer) (hc : Stuck room (c.op siteC) toClient toServer) :
    ¬ Stuck room (s.op siteS) toServer toClient := by
  cases h with
  | clientClosed => exact absurd hc stuck_halted
  | serverEnding h => rcases h with rfl | rfl <;> simp [Server.op]
  | start | authenticated => simp [Client.op, hroom] at hc
  | helloSent | requested | manifestSent | transferSent => simp [Server.op]
  | helloRead | manifestRead => simp [Server.op, hroom]
  | helloAnswered | answered _ | manifestAnswered | ready => simp [Client.op] at hc
  | answering h | preparing h => rcases h with rfl | rfl | ⟨_, rfl⟩ <;> simp [Server.op, hroom]
  | changed h | planning h => rcases h with rfl | rfl | rfl <;> simp [Client.op, hroom] at hc
  | @uploading left remaining chunks hpos hsum =>
      -- A full stream to the server is not empty.
      cases left with
      | zero => simp [Client.op] at hc
      | succ n =>
          obtain ⟨m, rfl⟩ : ∃ m, remaining = m + 1 := ⟨chunks.sum + n, by omega⟩
          have hfull : ¬ room (chunks.map .chunk) := stuck_send.mp hc
          intro hs
          rw [stuck_recv.mp hs] at hfull
          exact hfull hroom
  | @uploaded remaining chunks hpos hsum =>
      cases remaining with
      | zero => simp [Server.op]
      | succ n =>
          intro hs
          have hempty : chunks.map Msg.chunk = ([] : List (Msg δ)) := stuck_recv.mp hs
          rw [List.map_eq_nil_iff.mp hempty] at hsum
          cases hsum
  | applying h hs =>
      rcases h with ⟨rfl, rfl⟩ | ⟨rfl | rfl, rfl⟩
      · simp [Client.op] at hc
      · simp [Client.op] at hc
      · rcases hs with rfl | rfl | ⟨_, rfl⟩ <;> simp [Server.op, hroom]
  | @downloading c left toClient h =>
      cases left with
      | zero => simp [Server.op]
      | succ n =>
          intro hs
          have hfull : ¬ room toClient := stuck_send.mp hs
          -- The client waits for a message only where the stream to it is empty.
          suffices hempty : toClient = [] by
            rw [hempty] at hfull
            exact hfull hroom
          rcases hc with ⟨-, hempty⟩ | ⟨⟨next, hop⟩, -⟩
          · exact hempty
          · cases c with
            | sendUploads left => cases h; cases hop
            | receiveDownloads left => cases left <;> cases hop
            | readReady | readTransferResponse | lockReceive _ | lockApply | apply => cases hop
            | _ => cases h

omit [DecidableEq δ] in
/-- While the client holds `receive_lock`, the server does not wait for its own. -/
theorem Agree.client_holds (h : Agree c s toClient toServer) (hc : c.holds .receive = true) :
    s ≠ .lockReceive := by
  rintro rfl
  cases h with
  | clientClosed => cases hc
  | serverEnding h => rcases h with h | h <;> cases h
  | answering h => rcases h with h | h | ⟨_, h⟩ <;> cases h
  | preparing _ => cases hc
  | applying _ h => rcases h with h | h | ⟨_, h⟩ <;> cases h

omit [DecidableEq δ] in
theorem Agree.server_holds {bytes : Nat} (h : Agree c s toClient toServer)
    (hs : s.holds .receive = true) : c ≠ .lockReceive bytes := by
  rintro rfl
  cases h with
  | serverEnding h => rcases h with rfl | rfl <;> cases hs
  | changed h => rcases h with h | h | h <;> cases h
  | planning h => rcases h with h | h | h <;> cases h
  | applying h _ => rcases h with ⟨h, -⟩ | ⟨h | h, -⟩ <;> cases h
  | downloading _ => cases hs

end Agreement

/-! ## Ranks -/

section Rank

variable {D S ι κ δ : Type}

abbrev Configuration (D S ι κ δ : Type) := Config (Agent ι κ) (Lock D S) (Msg δ) (fun a => a.State δ)

/-- The two sides of every session agree. -/
def Agreeing (c : Configuration D S ι κ δ) : Prop :=
  ∀ i, Agree (c.state (.client i)) (c.state (.server i)) (c.inbox (.client i)) (c.inbox (.server i))

variable [DecidableEq δ] {layout : Layout D S ι κ} {room : List (Msg δ) → Prop}
  {c : Configuration D S ι κ δ}

/-- A process waits for its peer. -/
def StuckAt (layout : Layout D S ι κ) (room : List (Msg δ) → Prop) (c : Configuration D S ι κ δ)
    (a : Agent ι κ) : Prop :=
  Stuck room (a.op (layout.site a) (c.state a)) (c.inbox a) (c.inbox a.peer)

/-- The peer that a process waits for moves, or waits for a lock — for `operation_lock`, where
the process holds `receive_lock`. -/
theorem Agreeing.peer {a : Agent ι κ} (h : Agreeing c) (hroom : room [])
    (hstuck : StuckAt layout room c a) :
    ¬ StuckAt layout room c a.peer
      ∧ ∀ {l : Lock D S} {s'}, a.holds (c.state a) .receive = true →
        a.peer.op (layout.site a.peer) (c.state a.peer) = .acquire l s' → l.2.2 = .operation := by
  cases a with
  | client i =>
      refine ⟨(h i).not_both_stuck hroom hstuck, fun hholds hop => ?_⟩
      rcases Server.acquire_eq hop with rfl | ⟨-, hs⟩
      · rfl
      · exact absurd hs ((h i).client_holds hholds)
  | server i =>
      refine ⟨fun hpeer => (h i).not_both_stuck hroom hpeer hstuck, fun hholds hop => ?_⟩
      rcases Client.acquire_eq hop with rfl | ⟨-, bytes, hs⟩
      · rfl
      · exact absurd hs ((h i).server_holds hholds)
  | scan k =>
      rcases hstuck with ⟨⟨next, hop⟩, -⟩ | ⟨⟨next, hop⟩, -⟩
      all_goals
        change Scan.op _ (c.state (.scan k)) = _ at hop
        cases hs : c.state (.scan k) <;> rw [hs] at hop <;> cases hop

open Classical in
/-- How far a process is from one that moves. -/
noncomputable def rank (layout : Layout D S ι κ) (room : List (Msg δ) → Prop)
    (c : Configuration D S ι κ δ) (a : Agent ι κ) : Nat :=
  match a.op (layout.site a) (c.state a) with
  | .acquire (_, _, .operation) _ => 1
  | .acquire (_, _, .receive) _ => 3
  | _ => if StuckAt layout room c a then if a.holds (c.state a) .receive then 2 else 4 else 0

theorem rank_acquire {a : Agent ι κ} {l : Lock D S} {s' : a.State δ}
    (hop : a.op (layout.site a) (c.state a) = .acquire l s') :
    rank layout room c a = if l.2.2 = .operation then 1 else 3 := by
  obtain ⟨d, s, kind⟩ := l
  unfold rank
  rw [hop]
  cases kind <;> rfl

theorem rank_stuck {a : Agent ι κ} (hstuck : StuckAt layout room c a) :
    rank layout room c a = if a.holds (c.state a) .receive then 2 else 4 := by
  unfold rank
  split
  · rename_i h
    rw [StuckAt, h] at hstuck
    exact absurd hstuck stuck_acquire
  · rename_i h
    rw [StuckAt, h] at hstuck
    exact absurd hstuck stuck_acquire
  · rw [if_pos hstuck]

theorem rank_free {a : Agent ι κ} (hfree : ¬ StuckAt layout room c a) :
    (∃ l s', a.op (layout.site a) (c.state a) = .acquire l s') ∨ rank layout room c a = 0 := by
  unfold rank
  split
  · exact .inl ⟨_, _, ‹_›⟩
  · exact .inl ⟨_, _, ‹_›⟩
  · exact .inr (if_neg hfree)

theorem Agreeing.rank_peer {a : Agent ι κ} (h : Agreeing c) (hroom : room [])
    (hstuck : StuckAt layout room c a) : rank layout room c a.peer < rank layout room c a := by
  obtain ⟨hfree, hwants⟩ := h.peer hroom hstuck
  rw [rank_stuck hstuck]
  rcases rank_free hfree with ⟨l, s', hop⟩ | hzero
  · rw [rank_acquire hop]
    cases hholds : a.holds (c.state a) .receive with
    | true => simp [hwants hholds hop]
    | false => split <;> simp
  · rw [hzero]
    split <;> simp

theorem rank_holds_operation {a : Agent ι κ} (hholds : a.holds (c.state a) .operation = true) :
    rank layout room c a = 0 := by
  obtain ⟨next, hop⟩ : ∃ next, a.op (layout.site a) (c.state a) = .work next :=
    Agent.holds_operation hholds
  have hfree : ¬ StuckAt layout room c a := by
    rw [StuckAt, hop]
    exact stuck_work
  rcases rank_free hfree with ⟨l, s', hop'⟩ | hzero
  · cases hop.symm.trans hop'
  · exact hzero

/-- Who holds `receive_lock` waits for its peer at most. -/
theorem rank_holds_receive {a : Agent ι κ} (hholds : a.holds (c.state a) .receive = true) :
    rank layout room c a < 3 := by
  by_cases hstuck : StuckAt layout room c a
  · simp [rank_stuck hstuck, hholds]
  · rcases rank_free hstuck with ⟨l, s', hop⟩ | hzero
    · have hl : l.2.2 = .operation := congrArg (fun l => l.2.2) (Agent.holds_receive hholds hop)
      simp [rank_acquire hop, hl]
    · simp [hzero]

end Rank

/-! ## All sessions and scans -/

section Deadlock

variable {D S ι κ δ : Type} [DecidableEq ι] [DecidableEq κ] [DecidableEq D] [DecidableEq S]
  [DecidableEq δ] [Nonempty δ]

/-- Nothing has begun. -/
def Configuration.initial : Configuration D S ι κ δ where
  state := Agent.closed
  inbox := fun _ => []
  owner := fun _ => none

/-- What can happen: sessions and scans begin, take their steps, and fail at any place. -/
inductive Reachable (layout : Layout D S ι κ) (room : List (Msg δ) → Prop) :
    Configuration D S ι κ δ → Prop
  | initial : Reachable layout room .initial
  | session {c} (i : ι) (hc : Reachable layout room c) (hclient : c.state (.client i) = Client.closed)
      (hserver : c.state (.server i) = Server.closed) :
      Reachable layout room
        ((((c.move layout.code (.client i) Client.sendHello).move layout.code (.server i)
          Server.readHello).setInbox (.client i) []).setInbox (.server i) [])
  | scan {c} (k : κ) (hc : Reachable layout room c) (hscan : c.state (.scan k) = Scan.closed) :
      Reachable layout room (c.move layout.code (.scan k) Scan.lockScan)
  | step {c c'} (a : Agent ι κ) (hc : Reachable layout room c)
      (hstep : Config.Step layout.code room a c c') : Reachable layout room c'
  | fail {c} (a : Agent ι κ) (hc : Reachable layout room c) :
      Reachable layout room (c.move layout.code a a.closed)

variable {layout : Layout D S ι κ} {room : List (Msg δ) → Prop} {c c' : Configuration D S ι κ δ}

omit [DecidableEq ι] [DecidableEq κ] in
@[simp]
theorem Layout.code_peer (a : Agent ι κ) : (layout.code (δ := δ)).peer a = a.peer := rfl

theorem Agreeing.step {a : Agent ι κ} (h : Agreeing c) (hstep : Config.Step layout.code room a c c') :
    Agreeing c' := by
  intro i
  cases hstep with
  | @act x input output hact =>
      cases a with
      | client j =>
          by_cases hij : i = j
          · subst hij
            have hnext := (h i).client_step Server.closed_of_halted hact
            simpa [Config.move, Config.setInbox, Agent.peer] using hnext
          · simpa [Config.move, Config.setInbox, Agent.peer, hij] using h i
      | server j =>
          by_cases hij : i = j
          · subst hij
            have hnext := (h i).server_step Client.closed_of_halted hact
            simpa [Config.move, Config.setInbox, Agent.peer] using hnext
          · simpa [Config.move, Config.setInbox, Agent.peer, hij] using h i
      | scan k => simpa [Config.move, Config.setInbox, Agent.peer] using h i

theorem Agreeing.session {i : ι} (h : Agreeing c) :
    Agreeing ((((c.move layout.code (.client i) Client.sendHello).move layout.code (.server i)
      Server.readHello).setInbox (.client i) []).setInbox (.server i) []) := by
  intro j
  by_cases hij : j = i
  · subst hij
    simpa [Config.move, Config.setInbox] using Agree.start
  · simpa [Config.move, Config.setInbox, hij] using h j

theorem Agreeing.fail {a : Agent ι κ} (h : Agreeing c) : Agreeing (c.move layout.code a a.closed) := by
  intro i
  cases a with
  | client j =>
      by_cases hij : i = j
      · subst hij
        simpa [Config.move, Agent.closed] using Agree.clientClosed
      · simpa [Config.move, hij] using h i
  | server j =>
      by_cases hij : i = j
      · subst hij
        simpa [Config.move, Agent.closed] using Agree.serverEnding (.inr rfl)
      · simpa [Config.move, hij] using h i
  | scan k => simpa [Config.move] using h i

theorem Reachable.agreeing (hc : Reachable layout room c) : Agreeing c := by
  induction hc with
  | initial => exact fun i => .clientClosed
  | session i _ _ _ ih => exact ih.session
  | scan k _ _ ih =>
      intro i
      simpa [Config.move] using ih i
  | step a _ hstep ih => exact ih.step hstep
  | fail a _ ih => exact ih.fail

/-- A lock is owned by the process in its scope. -/
theorem Reachable.owned (hc : Reachable layout room c) : Config.Owned layout.code c := by
  have hnone : ∀ {c : Configuration D S ι κ δ} {a : Agent ι κ} {s : a.State δ},
      (∀ kind, a.holds s kind = false) → Config.Owned layout.code c →
      Config.Owned layout.code (c.move layout.code a s) := by
    intro c a s hs ho
    refine ho.move fun l hholds => ?_
    have hholds' := (Bool.and_eq_true_iff.mp hholds).2
    rw [hs] at hholds'
    cases hholds'
  induction hc with
  | initial =>
      intro l a
      have hclosed : (layout.code (δ := δ)).holds a a.closed l = false :=
        layout.code.holds_halted (layout.code.op_halt a)
      simp [Configuration.initial, hclosed]
  | session i _ _ _ ih =>
      refine (hnone (fun kind => ?_) (hnone (fun kind => ?_) ih)).setInbox.setInbox
      · cases kind <;> rfl
      · cases kind <;> rfl
  | scan k _ _ ih => exact hnone (fun kind => by cases kind <;> rfl) ih
  | step a _ hstep ih => exact ih.step hstep
  | fail a _ ih => exact ih.halt

/-- Whoever waits has a higher rank than whom it waits for. -/
theorem Reachable.ranked (hroom : room []) (hc : Reachable layout room c) :
    Config.Ranked layout.code room c := by
  refine ⟨rank layout room c, ?_⟩
  intro a b hw
  cases hw with
  | recv hop hempty _ => exact hc.agreeing.rank_peer hroom (.inl ⟨⟨_, hop⟩, hempty⟩)
  | send hop hfull _ => exact hc.agreeing.rank_peer hroom (.inr ⟨⟨_, hop⟩, hfull⟩)
  | @lock l next _ hop howner =>
      have hholds := (Bool.and_eq_true_iff.mp ((hc.owned l b).mp howner)).2
      rw [rank_acquire hop]
      cases hkind : l.2.2 with
      | operation =>
          rw [hkind] at hholds
          simp [rank_holds_operation hholds]
      | receive =>
          rw [hkind] at hholds
          simpa using rank_holds_receive hholds

/-- Whatever happens, some session or scan can go on as long as one of them has not ended,
and nothing waits in a circle. -/
theorem no_deadlock (hroom : room []) (hc : Reachable layout room c) :
    (∀ a, c.state a ≠ a.closed → ∃ b c', Config.Step layout.code room b c c')
      ∧ ∀ a, ¬ Relation.TransGen (Config.WaitsFor layout.code room c) a a := by
  have hranked := hc.ranked hroom
  refine ⟨fun a hopen => ?_, fun a => hranked.no_cycle⟩
  have hnot : ¬ c.Halted layout.code a := by
    intro hhalted
    refine hopen ?_
    cases a with
    | client i => exact Client.closed_of_halted hhalted
    | server i => exact Server.closed_of_halted hhalted
    | scan k => exact Scan.closed_of_halted hhalted
  exact hranked.exists_step hc.owned hnot

end Deadlock

/-- Two devices, each of which synchronises with the other. -/
def bothWays : Layout Bool Unit Bool Empty := ⟨id, not, fun _ => (), Empty.elim, Empty.elim⟩

set_option maxRecDepth 2000 in
/-- Two devices that synchronise with each other, both ways at once: each may come to hold its
`receive_lock` for the session that the other has begun. -/
theorem no_deadlock_both_ways :
    ∃ c : Configuration Bool Unit Bool Empty Nat, Reachable bothWays (fun _ => True) c
      ∧ (∀ d, c.owner (d, (), .receive) = some (.server !d))
      ∧ (∃ b c', Config.Step bothWays.code (fun _ => True) b c c')
      ∧ ∀ a, ¬ Relation.TransGen (Config.WaitsFor bothWays.code (fun _ => True) c) a a := by
  have hnone : Reachable bothWays (fun _ => True) (.initial : Configuration Bool Unit Bool Empty Nat) :=
    .initial
  -- The digests are 0 and 1, so the manifests are exchanged and a transfer is asked for.
  have hbegun := hnone.session true rfl rfl
  have hgreeted := hbegun
    |>.step (.client true) (.act (.send rfl ⟨rfl, rfl⟩ trivial))
    |>.step (.server true) (.act (.recv rfl rfl ⟨rfl, rfl⟩))
    |>.step (.server true) (.act (.send rfl ⟨rfl, rfl⟩ trivial))
    |>.step (.client true) (.act (.recv rfl rfl ⟨rfl, rfl⟩))
  have hasked := hgreeted
    |>.step (.client true) (.act (.send rfl ⟨0, rfl, rfl⟩ trivial))
    |>.step (.server true) (.act (.recv rfl rfl ⟨0, rfl, rfl⟩))
    |>.step (.server true) (.act (.acquire rfl rfl))
    |>.step (.server true) (.act (.work rfl ⟨1, rfl⟩))
  have hanswered := hasked
    |>.step (.server true) (.act (.send rfl ⟨rfl, rfl⟩ trivial))
    |>.step (.client true) (.act (.recv rfl rfl ⟨1, rfl, rfl⟩))
    |>.step (.client true) (.act (.acquire rfl rfl)) |>.step (.client true) (.act (.work rfl rfl))
  have hexchanged := hanswered
    |>.step (.client true) (.act (.send rfl ⟨rfl, rfl⟩ trivial))
    |>.step (.server true) (.act (.recv rfl rfl ⟨rfl, rfl⟩))
    |>.step (.server true) (.act (.send rfl ⟨rfl, rfl⟩ trivial))
    |>.step (.client true) (.act (.recv rfl rfl ⟨rfl, rfl⟩))
  have hserved := hexchanged
    |>.step (.client true) (.act (.acquire rfl rfl)) |>.step (.client true) (.act (.work rfl rfl))
    |>.step (.client true) (.act (.send rfl ⟨rfl, rfl⟩ trivial))
    |>.step (.server true) (.act (.recv rfl rfl ⟨rfl, rfl⟩))
    |>.step (.server true) (.act (.acquire rfl rfl))
  -- The other way in the meantime.
  have hbegun' := hserved.session false rfl rfl
  have hgreeted' := hbegun'
    |>.step (.client false) (.act (.send rfl ⟨rfl, rfl⟩ trivial))
    |>.step (.server false) (.act (.recv rfl rfl ⟨rfl, rfl⟩))
    |>.step (.server false) (.act (.send rfl ⟨rfl, rfl⟩ trivial))
    |>.step (.client false) (.act (.recv rfl rfl ⟨rfl, rfl⟩))
  have hasked' := hgreeted'
    |>.step (.client false) (.act (.send rfl ⟨0, rfl, rfl⟩ trivial))
    |>.step (.server false) (.act (.recv rfl rfl ⟨0, rfl, rfl⟩))
    |>.step (.server false) (.act (.acquire rfl rfl))
    |>.step (.server false) (.act (.work rfl ⟨1, rfl⟩))
  have hanswered' := hasked'
    |>.step (.server false) (.act (.send rfl ⟨rfl, rfl⟩ trivial))
    |>.step (.client false) (.act (.recv rfl rfl ⟨1, rfl, rfl⟩))
    |>.step (.client false) (.act (.acquire rfl rfl)) |>.step (.client false) (.act (.work rfl rfl))
  have hexchanged' := hanswered'
    |>.step (.client false) (.act (.send rfl ⟨rfl, rfl⟩ trivial))
    |>.step (.server false) (.act (.recv rfl rfl ⟨rfl, rfl⟩))
    |>.step (.server false) (.act (.send rfl ⟨rfl, rfl⟩ trivial))
    |>.step (.client false) (.act (.recv rfl rfl ⟨rfl, rfl⟩))
  have hserved' := hexchanged'
    |>.step (.client false) (.act (.acquire rfl rfl)) |>.step (.client false) (.act (.work rfl rfl))
    |>.step (.client false) (.act (.send rfl ⟨rfl, rfl⟩ trivial))
    |>.step (.server false) (.act (.recv rfl rfl ⟨rfl, rfl⟩))
    |>.step (.server false) (.act (.acquire rfl rfl))
  obtain ⟨hstep, hcircle⟩ := no_deadlock trivial hserved'
  refine ⟨_, hserved', fun d => by cases d <;> rfl, ?_, hcircle⟩
  exact hstep (.client true) fun hclosed => by cases hclosed

end Syncbox.Sync

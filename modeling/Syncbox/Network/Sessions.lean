/-
# `Syncbox.Network.Sessions` — what sessions and scans wait for

Any number of devices synchronise any number of shares, in all directions at once.  Of a
session only what it waits for is kept: the messages it exchanges, the locks it takes, and
the data its way through the code depends on — the two digests that are compared and the
bytes of file content still to come.  `Client` is `sync_with_peer` of `src/network/client.rs`,
`Server` is `handle_sync_stream` of `src/network/incoming.rs`, and `Scan` is
`scan_active_share` of `src/network/lifecycle.rs`; each constructor is a place in that code
where something is awaited, or a stretch of code under a lock.
-/
import Syncbox.Lib.Process

namespace Syncbox.Sync

open Process

/-! ## The code of a session -/

section Code

variable {δ : Type}

/-- The frames of a session.  `ready` and `transferResponse` tell how much content follows. -/
inductive Msg (δ : Type) where
  | clientHello
  | serverHello
  | request (digest : δ)
  | response (digest : δ)
  | manifest
  | transfer
  | ready (bytes : Nat)
  | transferResponse (bytes : Nat)
  | chunk (bytes : Nat)

inductive LockKind where
  | receive
  | operation
  deriving DecidableEq

inductive Client (δ : Type) where
  | sendHello
  | readHello
  | sendRequest
  | readResponse (digest : δ)
  | lockPeers (unchanged : Bool)
  | mergePeers (unchanged : Bool)
  | lockComplete
  | complete
  | sendManifest
  | readManifest
  | lockPlan
  | plan
  | sendTransfer
  | readReady
  | sendUploads (remaining : Nat)
  | readTransferResponse
  | lockReceive (bytes : Nat)
  | receiveDownloads (remaining : Nat)
  | lockApply
  | apply
  | closed

inductive Server (δ : Type) where
  | readHello
  | sendHello
  | readRequest
  | lockSnapshot (request : δ)
  | snapshot (request : δ)
  | sendResponse (request digest : δ)
  | readManifest
  | sendManifest
  | readTransfer
  | lockReceive
  | makeReady
  | sendReady (bytes : Nat)
  | receiveUploads (remaining : Nat)
  | lockApply
  | apply
  | sendTransferResponse (bytes : Nat)
  | sendDownloads (remaining : Nat)
  /-- Waits for the client to take what was sent, for five seconds at most. -/
  | stopped
  | closed

inductive Scan where
  | lockScan
  | scan
  | closed

variable {L : Type}

/-- A chunk of the content that remains. -/
def sendChunk {σ : Type} (next : Nat → σ) (remaining : Nat) : Op L (Msg δ) σ :=
  .send fun m s => ∃ bytes, 0 < bytes ∧ bytes ≤ remaining ∧ m = .chunk bytes ∧ s = next (remaining - bytes)

def recvChunk {σ : Type} (next : Nat → σ) (remaining : Nat) : Op L (Msg δ) σ :=
  .recv fun m s => ∃ bytes, 0 < bytes ∧ bytes ≤ remaining ∧ m = .chunk bytes ∧ s = next (remaining - bytes)

def Client.op [DecidableEq δ] (site : LockKind → L) : Client δ → Op L (Msg δ) (Client δ)
  | sendHello => .send fun m s => m = .clientHello ∧ s = readHello
  | readHello => .recv fun m s => m = .serverHello ∧ s = sendRequest
  | sendRequest => .send fun m s => ∃ digest, m = .request digest ∧ s = readResponse digest
  | readResponse digest => .recv fun m s => ∃ theirs, m = .response theirs ∧ s = lockPeers (theirs = digest)
  | lockPeers unchanged => .acquire (site .operation) (mergePeers unchanged)
  | mergePeers true => .work fun s => s = lockComplete ∨ s = closed
  | mergePeers false => .work fun s => s = sendManifest
  | lockComplete => .acquire (site .operation) complete
  | complete => .work fun s => s = closed
  | sendManifest => .send fun m s => m = .manifest ∧ s = readManifest
  | readManifest => .recv fun m s => m = .manifest ∧ s = lockPlan
  | lockPlan => .acquire (site .operation) plan
  | plan => .work fun s => s = sendTransfer
  | sendTransfer => .send fun m s => m = .transfer ∧ s = readReady
  | readReady => .recv fun m s => ∃ bytes, m = .ready bytes ∧ s = sendUploads bytes
  | sendUploads 0 => .work fun s => s = readTransferResponse
  | sendUploads (n + 1) => sendChunk sendUploads (n + 1)
  | readTransferResponse => .recv fun m s => ∃ bytes, m = .transferResponse bytes ∧ s = lockReceive bytes
  | lockReceive bytes => .acquire (site .receive) (receiveDownloads bytes)
  | receiveDownloads 0 => .work fun s => s = lockApply
  | receiveDownloads (n + 1) => recvChunk receiveDownloads (n + 1)
  | lockApply => .acquire (site .operation) apply
  | apply => .work fun s => s = closed
  | closed => .halted

def Client.holds : Client δ → LockKind → Bool
  | mergePeers _, .operation | complete, .operation | plan, .operation => true
  | receiveDownloads _, .receive | lockApply, .receive | apply, _ => true
  | _, _ => false

def Server.op [DecidableEq δ] (site : LockKind → L) : Server δ → Op L (Msg δ) (Server δ)
  | readHello => .recv fun m s => m = .clientHello ∧ s = sendHello
  | sendHello => .send fun m s => m = .serverHello ∧ s = readRequest
  | readRequest => .recv fun m s => ∃ digest, m = .request digest ∧ s = lockSnapshot digest
  | lockSnapshot request => .acquire (site .operation) (snapshot request)
  | snapshot request => .work fun s => ∃ digest, s = sendResponse request digest
  | sendResponse request digest => .send fun m s =>
      m = .response digest ∧ s = if request = digest then stopped else readManifest
  | readManifest => .recv fun m s => m = .manifest ∧ s = sendManifest
  | sendManifest => .send fun m s => m = .manifest ∧ s = readTransfer
  | readTransfer => .recv fun m s => m = .transfer ∧ s = lockReceive
  | lockReceive => .acquire (site .receive) makeReady
  | makeReady => .work fun s => ∃ bytes, s = sendReady bytes
  | sendReady bytes => .send fun m s => m = .ready bytes ∧ s = receiveUploads bytes
  | receiveUploads 0 => .work fun s => s = lockApply
  | receiveUploads (n + 1) => recvChunk receiveUploads (n + 1)
  | lockApply => .acquire (site .operation) apply
  | apply => .work fun s => ∃ bytes, s = sendTransferResponse bytes
  | sendTransferResponse bytes => .send fun m s => m = .transferResponse bytes ∧ s = sendDownloads bytes
  | sendDownloads 0 => .work fun s => s = stopped
  | sendDownloads (n + 1) => sendChunk sendDownloads (n + 1)
  | stopped => .work fun s => s = closed
  | closed => .halted

def Server.holds : Server δ → LockKind → Bool
  | snapshot _, .operation => true
  | makeReady, .receive | sendReady _, .receive | receiveUploads _, .receive => true
  | lockApply, .receive | apply, _ => true
  | _, _ => false

def Scan.op (site : LockKind → L) : Scan → Op L (Msg δ) Scan
  | lockScan => .acquire (site .operation) scan
  | scan => .work fun s => s = closed
  | closed => .halted

def Scan.holds : Scan → LockKind → Bool
  | scan, .operation => true
  | _, _ => false

end Code

/-! ## Devices -/

/-- The processes: sessions `ι` have two sides, scans `κ` have one. -/
inductive Agent (ι κ : Type) where
  | client (i : ι)
  | server (i : ι)
  | scan (k : κ)
  deriving DecidableEq

/-- Which devices and which share a session or a scan is about. -/
structure Layout (D S ι κ : Type) where
  clientOn : ι → D
  serverOn : ι → D
  share : ι → S
  scanOn : κ → D
  scanShare : κ → S

section System

variable {D S ι κ : Type}

/-- Each share of a device has its locks. -/
abbrev Lock (D S : Type) := D × S × LockKind

def Layout.place (layout : Layout D S ι κ) : Agent ι κ → D × S
  | .client i => (layout.clientOn i, layout.share i)
  | .server i => (layout.serverOn i, layout.share i)
  | .scan k => (layout.scanOn k, layout.scanShare k)

def Layout.site (layout : Layout D S ι κ) (a : Agent ι κ) (kind : LockKind) : Lock D S :=
  ((layout.place a).1, (layout.place a).2, kind)

namespace Agent

abbrev State (δ : Type) : Agent ι κ → Type
  | client _ => Client δ
  | server _ => Server δ
  | scan _ => Scan

def peer : Agent ι κ → Agent ι κ
  | client i => server i
  | server i => client i
  | scan k => scan k

variable {δ : Type} [DecidableEq δ] {L : Type}

def op (site : LockKind → L) : ∀ a : Agent ι κ, a.State δ → Op L (Msg δ) (a.State δ)
  | client _, s => Client.op site s
  | server _, s => Server.op site s
  | scan _, s => Scan.op site s

omit [DecidableEq δ] in
/-- The kinds of locks in whose scope a place is. -/
def holds : ∀ a : Agent ι κ, a.State δ → LockKind → Bool
  | client _, s => Client.holds s
  | server _, s => Server.holds s
  | scan _, s => Scan.holds s

def closed : ∀ a : Agent ι κ, a.State δ
  | client _ => Client.closed
  | server _ => Server.closed
  | scan _ => Scan.closed

end Agent

end System

/-! ## The laws of the code -/

section Laws

variable {δ L : Type} {site : LockKind → L} {kind : LockKind}

theorem sendChunk_live {σ : Type} {next : Nat → σ} {n : Nat} :
    (sendChunk next (n + 1) : Op L (Msg δ) σ).Live :=
  ⟨_, _, n + 1, Nat.succ_pos n, le_rfl, rfl, rfl⟩

variable [DecidableEq δ]

theorem Client.live [Nonempty δ] (s : Client δ) : (s.op site).Live := by
  unfold Client.op
  split
  all_goals first
    | exact sendChunk_live
    | simp [Op.Live, recvChunk]

theorem Client.holds_next {s s' : Client δ} (hnext : (s.op site).Next s') (hholds : s'.holds kind = true) :
    s.holds kind = true ∨ s.op site = .acquire (site kind) s' := by
  cases kind <;> fun_cases Client.op site s <;>
    grind [Client.op, Client.holds, Op.Next, sendChunk, recvChunk]

theorem Server.live [Nonempty δ] (s : Server δ) : (s.op site).Live := by
  unfold Server.op
  split
  all_goals first
    | exact sendChunk_live
    | simp [Op.Live, recvChunk]

theorem Server.holds_next {s s' : Server δ} (hnext : (s.op site).Next s') (hholds : s'.holds kind = true) :
    s.holds kind = true ∨ s.op site = .acquire (site kind) s' := by
  cases kind <;> fun_cases Server.op site s <;>
    grind [Server.op, Server.holds, Op.Next, sendChunk, recvChunk]

/-- Under `operation_lock` nothing is awaited. -/
theorem Client.holds_operation {s : Client δ} (hholds : s.holds .operation = true) :
    ∃ next, s.op site = .work next := by
  cases s with
  | mergePeers unchanged => cases unchanged <;> exact ⟨_, rfl⟩
  | complete | plan | apply => exact ⟨_, rfl⟩
  | _ => cases hholds

theorem Server.holds_operation {s : Server δ} (hholds : s.holds .operation = true) :
    ∃ next, s.op site = .work next := by
  cases s with
  | snapshot _ | apply => exact ⟨_, rfl⟩
  | _ => cases hholds

theorem Client.closed_of_halted {s : Client δ} (hop : s.op site = .halted) : s = closed := by
  fun_cases Client.op site s <;> first | rfl | cases hop

theorem Server.closed_of_halted {s : Server δ} (hop : s.op site = .halted) : s = closed := by
  fun_cases Server.op site s <;> first | rfl | cases hop

theorem Client.acquire_eq {s s' : Client δ} {l : L} (hop : s.op site = .acquire l s') :
    l = site .operation ∨ l = site .receive ∧ ∃ bytes, s = lockReceive bytes := by
  fun_cases Client.op site s <;> cases hop
  case case19 bytes => exact .inr ⟨rfl, bytes, rfl⟩
  all_goals exact .inl rfl

theorem Server.acquire_eq {s s' : Server δ} {l : L} (hop : s.op site = .acquire l s') :
    l = site .operation ∨ l = site .receive ∧ s = lockReceive := by
  fun_cases Server.op site s <;> cases hop
  case case10 => exact .inr ⟨rfl, rfl⟩
  all_goals exact .inl rfl

omit [DecidableEq δ] in
theorem Scan.closed_of_halted {s : Scan} (hop : s.op site = (.halted : Op L (Msg δ) Scan)) : s = closed := by
  cases s with
  | closed => rfl
  | _ => cases hop

/-- Under `receive_lock` no lock is awaited but `operation_lock`. -/
theorem Client.holds_receive {s s' : Client δ} {l : L} (hholds : s.holds .receive = true)
    (hop : s.op site = .acquire l s') : l = site .operation := by
  cases s with
  | receiveDownloads n => cases n <;> cases hop
  | lockApply => cases hop; rfl
  | apply => cases hop
  | _ => cases hholds

theorem Server.holds_receive {s s' : Server δ} {l : L} (hholds : s.holds .receive = true)
    (hop : s.op site = .acquire l s') : l = site .operation := by
  cases s with
  | receiveUploads n => cases n <;> cases hop
  | lockApply => cases hop; rfl
  | makeReady | sendReady _ | apply => cases hop
  | _ => cases hholds

end Laws

theorem Agent.holds_operation {ι κ δ L : Type} [DecidableEq δ] {site : LockKind → L} {a : Agent ι κ}
    {s : a.State δ} (hholds : a.holds s .operation = true) : ∃ next, a.op site s = .work next := by
  cases a with
  | client i => exact Client.holds_operation hholds
  | server i => exact Server.holds_operation hholds
  | scan k =>
      cases s with
      | scan => exact ⟨_, rfl⟩
      | _ => cases hholds

theorem Agent.holds_receive {ι κ δ L : Type} [DecidableEq δ] {site : LockKind → L} {a : Agent ι κ}
    {s s' : a.State δ} {l : L} (hholds : a.holds s .receive = true) (hop : a.op site s = .acquire l s') :
    l = site .operation := by
  cases a with
  | client i => exact Client.holds_receive hholds hop
  | server i => exact Server.holds_receive hholds hop
  | scan k => cases s <;> cases hholds

section Laws

variable {D S ι κ δ : Type} [DecidableEq δ] [Nonempty δ] [DecidableEq D] [DecidableEq S]

/-- The code of all sessions and scans. -/
def Layout.code (layout : Layout D S ι κ) :
    Code (Agent ι κ) (Lock D S) (Msg δ) (fun a => a.State δ) where
  op := fun a s => a.op (layout.site a) s
  holds := fun a s l => l = layout.site a l.2.2 && a.holds s l.2.2
  peer := Agent.peer
  halt := Agent.closed
  op_halt := by
    intro a
    cases a <;> rfl
  live := by
    intro a s
    cases a with
    | client i => exact Client.live s
    | server i => exact Server.live s
    | scan k =>
        cases s with
        | scan => exact ⟨_, rfl⟩
        | _ => trivial
  holds_halted := by
    intro a s l hop
    rw [Bool.and_eq_false_iff]
    refine .inr ?_
    cases a with
    | client i => cases Client.closed_of_halted hop; rfl
    | server i => cases Server.closed_of_halted hop; rfl
    | scan k =>
        cases s with
        | closed => rfl
        | _ => cases hop
  holds_next := by
    intro a s s' l hnext hholds
    rw [Bool.and_eq_true, decide_eq_true_eq] at hholds
    obtain ⟨hsite, hholds⟩ := hholds
    suffices h : a.holds s l.2.2 = true ∨ a.op (layout.site a) s = .acquire (layout.site a l.2.2) s' by
      rw [← hsite] at h
      rcases h with h | h
      · exact .inl (by simp [← hsite, h])
      · exact .inr h
    cases a with
    | client i => exact Client.holds_next hnext hholds
    | server i => exact Server.holds_next hnext hholds
    | scan k =>
        cases s with
        | lockScan =>
            cases hnext
            refine .inr ?_
            cases hkind : l.2.2 with
            | operation => rfl
            | receive => rw [hkind] at hholds; cases hholds
        | scan =>
            cases hnext
            cases hholds
        | closed => cases hnext

end Laws

end Syncbox.Sync

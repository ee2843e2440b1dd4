/-
# `Syncbox.Network.Exchange` — one exchange between two devices

`sync_with_peer` of `src/network/client.rs` and `handle_sync_stream` of
`src/network/incoming.rs`, after the handshake.  Each of the two waits several times for a
message of the other; what it does between two waits is a *leg* here, a program that is
given what has arrived.  A leg checks what it is given, so it can be run on anything a peer
may send.

`exchange` is a session in which the messages arrive as they were sent: the legs of both
sides in the only order the waiting allows.  It describes sessions that run to their end.
When a leg fails the session is given up, and how much the other side has read by then is
not recorded here.

The lists of known peers, which travel in the first two messages, are left to
`Network.Gossip`, and the handshake to `Network.Auth`.
-/
import Syncbox.Network.Plan
import Syncbox.Network.Realized
import Syncbox.Network.Schedule

namespace Syncbox

open Rust Unix Prog

/-! ## A share in memory -/

section Running

variable [Crypto]

/-- A share as the process that runs it has it.  The configuration in memory is replaced after
the file was saved, so a save that failed can leave the two different. -/
structure RunningShare where
  state : ShareState
  /-- `initial_sync_complete` of the configuration in memory. -/
  initialSyncComplete : Bool

/-- A program on a share and its configuration in memory. -/
abbrev Running := Prog Host Error RunningShare

theorem wp_getRunning (h : Host) (s : RunningShare) (Q : RunningShare → RunningShare → Prop)
    (E : Error → RunningShare → Prop) : (get : Running RunningShare).wp h s Q E ↔ Q s s := Iff.rfl

def onShare {α : Type} (m : App α) : Running α :=
  Prog.zoom RunningShare.state (fun s state => { s with state }) m

@[simp] theorem wp_onShare {α : Type} (m : App α) (h : Host) (s : RunningShare)
    (Q : α → RunningShare → Prop) (E : Error → RunningShare → Prop) :
    (onShare m).wp h s Q E ↔ m.wp h s.state (fun a state => Q a { s with state })
      fun e state => E e { s with state } :=
  wp_zoom ..

/-- A program on a connection, with what is going to arrive on it; the result is accompanied by
what was sent. -/
def connected {α : Type} (recv : List Byte) (m : Net α) : App (α × List Byte) := fun h s =>
  match m h ⟨s.world, recv, []⟩ with
  | .ok a l => .ok (a, l.sent) { s with world := l.world }
  | .error e l => .error e { s with world := l.world }

@[simp] theorem wp_connected {α : Type} (recv : List Byte) (m : Net α) (h : Host) (s : ShareState)
    (Q : α × List Byte → ShareState → Prop) (E : Error → ShareState → Prop) :
    (connected recv m).wp h s Q E
      ↔ m.wp h ⟨s.world, recv, []⟩ (fun a l => Q (a, l.sent) { s with world := l.world })
        fun e l => E e { s with world := l.world } := by
  unfold Prog.wp connected
  cases m h ⟨s.world, recv, []⟩ <;> rfl

end Running

/-! ## What was checked -/

section Checked

theorem record_empty (shareId : ShareId) (nowMs : U64) (q : Str) :
    (Manifest.empty shareId nowMs).record q = none :=
  (Manifest.holds_empty shareId nowMs).record_eq q

variable [Crypto]

theorem forShare_ok {validated : ValidatedManifest} {shareId : ShareId} {m : Manifest}
    (hok : validated.forShare shareId = .ok m) : m = validated.manifest ∧ m.Valid shareId := by
  simp only [ValidatedManifest.forShare, Check.bind_eq_ok, Check.rejectIf_eq_ok] at hok
  obtain ⟨_, hshare, hm⟩ := hok
  cases hm
  obtain ⟨shareId', hvalid⟩ := validated.valid
  have hid : validated.manifest.shareId = shareId := by simpa using hshare
  rw [hvalid.share] at hid
  exact ⟨rfl, hid ▸ hvalid⟩

theorem validateTransferResponse_ok {response : TransferResponse} {shareId : ShareId}
    {validated : ValidatedManifest}
    (hok : validateTransferResponse response shareId = .ok validated) :
    validated.manifest = response.manifest ∧ Shaped response.files
      ∧ ∀ file ∈ response.files, file.Of response.manifest := by
  simp only [validateTransferResponse, Check.bind_eq_ok, ValidatedManifest.validate_eq_ok] at hok
  obtain ⟨-, -, validated', ⟨-, hsame⟩, _, hfiles, hresult⟩ := hok
  cases hresult
  exact ⟨hsame, validateTransferFiles_eq_ok.mp hfiles⟩

end Checked

/-! ## Applying what was received -/

section Staged

variable [Crypto] (share : ActiveShare)

/-- The files by their paths, as `apply_validated_remote_staged_transfer` collects them. -/
def stagedFiles (files : List CompletedFile) : BTreeMap Str IncomingFile :=
  files.foldl (fun data file => data.insert file.file.path (.staged file.stagedPath)) ∅

/-- `let _ = fs::remove_file(..)` for each file. -/
def removeStaged (files : List CompletedFile) : Fs Unit :=
  files.forM fun file => do
    let _ ← unlink file.stagedPath
    pure ()

def applyValidatedRemoteStagedTransfer (remote : ValidatedManifest) (files : List CompletedFile) :
    App ApplyOutcome := do
  let remote ← Prog.ofExcept (remote.forShare share.shareId)
  Prog.ofExcept (validateTransferFiles (files.map CompletedFile.file) remote)
  let result ← applyRemoteTransferImpl share remote (stagedFiles files)
  onDisk (removeStaged files)
  pure result

end Staged

/-! ## The legs of the client -/

section Client

variable [Crypto] (share : ActiveShare)

/-- What a client opens a session with. -/
structure Offer where
  /-- `config.initial_sync_complete`, read when the session started. -/
  initialSyncComplete : Bool
  snapshot : Option ManifestSnapshot
  digest : Digest

/-- What is offered after the configuration was read. -/
def offerAfter (initialSyncComplete : Bool) : App Offer := do
  updateRuntime share
  if initialSyncComplete then do
    let snapshot ← manifestSnapshot share
    pure ⟨initialSyncComplete, some snapshot, snapshot.digest⟩
  else do
    let nowMs ← onDisk currentTimeMs
    let digest ← Prog.ofExcept ((Manifest.empty share.shareId nowMs).syncDigest share.shareId)
    pure ⟨initialSyncComplete, none, digest⟩

def makeOffer : Running Offer := do
  onShare (offerAfter share (← get).initialSyncComplete)

/-- The configuration is saved and replaced, and only then the tree is scanned. -/
def completeInitialSync : Running Unit := do
  onShare (atomicWriteJson (share.sharePath "config.json") fun s => { s with initialSyncComplete := true })
  modify fun s => { s with initialSyncComplete := true }
  onShare (scanAndSave share)

/-- The peer has what was offered. -/
def finishUnchanged (offer : Offer) : Running PeerSyncOutcome := do
  if offer.initialSyncComplete = false ∧ (← get).initialSyncComplete = false then
    completeInitialSync share
  pure ⟨0, 0⟩

/-- The manifest that is sent. -/
def Offer.outbound (offer : Offer) : App Manifest := do
  let nowMs ← onDisk currentTimeMs
  pure (offer.snapshot.elim (Manifest.empty share.shareId nowMs) ManifestSnapshot.manifest)

def planTransfer (outbound : Manifest) (answered : Digest) (message : ManifestMessage) :
    App (TransferRequest × Nat) := do
  let _ ← Prog.ofExcept (validateManifestMessage message share.shareId answered)
  onDisk (makeTransferRequest share.shareTmpDir share.shareId outbound message.manifest)

/-- `send_upload_chunks`. -/
def sendUploads (transfer : TransferRequest) (ready : TransferReady) : App (List Byte) := do
  Prog.ofExcept (validateTransferReady ready share.shareId transfer.uploads)
  Prog.ofExcept (checkUploadResumes transfer.uploads ready.uploads)
  let ((), sent) ← connected [] (sendFileChunksFromRoot share.localDirectory ready.uploads)
  pure sent

/-- What is done under the operation lock with the files that were received. -/
def takeDownloads (remote : ValidatedManifest) (completed : List CompletedFile) :
    Running ApplyOutcome := do
  let applied ← onShare (applyValidatedRemoteStagedTransfer share remote completed)
  Prog.when (applied.appliedRecords > 0) (onShare (updateRuntime share))
  if (← get).initialSyncComplete = false ∧ applied.pendingDownloads = 0 then
    completeInitialSync share
  pure applied

def finishTransfer (response : TransferResponse) (recv : List Byte) : Running ApplyOutcome := do
  let remote ← Prog.ofExcept (validateTransferResponse response share.shareId)
  let (completed, _) ← onShare (connected recv (receiveFileChunks share.shareTmpDir response.files))
  takeDownloads share remote completed

end Client

/-! ## The legs of the server -/

section Server

variable [Crypto] (share : ActiveShare)

def answerTransfer (remote : ValidatedManifest) (transfer : TransferRequest) : App TransferReady := do
  Prog.ofExcept (validateTransferRequestWithValidatedManifest transfer share.shareId remote)
  onDisk (makeTransferReady share.shareTmpDir transfer remote.manifest)

/-- The manifest and the files that the response announces, with what was applied. -/
structure Served where
  applied : ApplyOutcome
  final : ManifestSnapshot
  files : List TransferFile

/-- The application of what was uploaded and the choice of the files to send back, under the
operation lock. -/
def applyUploads (remote : ValidatedManifest) (transfer : TransferRequest)
    (uploaded : List CompletedFile) : App Served := do
  let applied ← applyValidatedRemoteStagedTransfer share remote uploaded
  let final ← manifestSnapshot share
  let files ← Prog.ofExcept
    (buildTransferFiles final.manifest transfer.downloadPaths transfer.downloadResumes)
  pure ⟨applied, final, files⟩

/-- `receive_upload_chunks` and what follows under the lock. -/
def takeUploads (remote : ValidatedManifest) (transfer : TransferRequest) (ready : TransferReady)
    (recv : List Byte) : App Served := do
  Prog.ofExcept (checkUploadReady share.shareId transfer.uploads ready.uploads)
  let (uploaded, _) ← connected recv (receiveFileChunks share.shareTmpDir ready.uploads)
  applyUploads share remote transfer uploaded

def sendDownloads (files : List TransferFile) : App (List Byte) := do
  let ((), sent) ← connected [] (sendFileChunksFromRoot share.localDirectory files)
  updateRuntime share
  pure sent

end Server

/-! ## A session -/

section Session

variable [Crypto]

/-- The two sides of a session. -/
structure Pair where
  client : RunningShare
  server : RunningShare

/-- A program on both sides, each with its own host. -/
abbrev Paired := Prog (Host × Host) Error Pair

def atClient {α : Type} (m : Running α) : Paired α := fun h p =>
  match m h.1 p.client with
  | .ok a client => .ok a { p with client }
  | .error e client => .error e { p with client }

def atServer {α : Type} (m : App α) : Paired α := fun h p =>
  match onShare m h.2 p.server with
  | .ok a server => .ok a { p with server }
  | .error e server => .error e { p with server }

@[simp] theorem wp_atClient {α : Type} (m : Running α) (h : Host × Host) (p : Pair)
    (Q : α → Pair → Prop) (E : Error → Pair → Prop) :
    (atClient m).wp h p Q E ↔ m.wp h.1 p.client (fun a client => Q a { p with client })
      fun e client => E e { p with client } := by
  unfold Prog.wp atClient
  cases m h.1 p.client <;> rfl

@[simp] theorem wp_atServer {α : Type} (m : App α) (h : Host × Host) (p : Pair)
    (Q : α → Pair → Prop) (E : Error → Pair → Prop) :
    (atServer m).wp h p Q E
      ↔ m.wp h.2 p.server.state (fun a state => Q a { p with server := { p.server with state } })
        fun e state => E e { p with server := { p.server with state } } := by
  rw [← wp_onShare m h.2 p.server (fun a server => Q a { p with server })
    fun e server => E e { p with server }]
  unfold Prog.wp atServer
  cases onShare m h.2 p.server <;> rfl

variable (client server : ActiveShare)

/-- The part of a session that follows when the digests differ. -/
def exchangeManifests (offer : Offer) (answer : ManifestSnapshot) : Paired PeerSyncOutcome := do
  let outbound ← atClient (onShare (offer.outbound client))
  let remote ← atServer (Prog.ofExcept
    (validateManifestMessage ⟨PROTOCOL_VERSION, client.shareId, outbound⟩ server.shareId offer.digest))
  let (transfer, pendingUpdates) ← atClient (onShare
    (planTransfer client outbound answer.digest ⟨PROTOCOL_VERSION, server.shareId, answer.manifest⟩))
  let ready ← atServer (answerTransfer server remote transfer)
  let uploads ← atClient (onShare (sendUploads client transfer ready))
  let served ← atServer (takeUploads server remote transfer ready uploads)
  let downloads ← atServer (sendDownloads server served.files)
  let applied ← atClient (finishTransfer client
    ⟨PROTOCOL_VERSION, server.shareId, served.final.manifest, served.files⟩ downloads)
  pure ⟨applied.pendingDownloads, pendingUpdates⟩

def exchange : Paired PeerSyncOutcome := do
  let offer ← atClient (makeOffer client)
  let answer ← atServer (manifestSnapshot server)
  if answer.digest = offer.digest then do
    atServer (updateRuntime server)
    atClient (finishUnchanged client offer)
  else exchangeManifests client server offer answer

end Session

end Syncbox

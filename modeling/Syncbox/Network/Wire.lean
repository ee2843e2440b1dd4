/-
# `Syncbox.Network.Wire` — messages and their checks

The messages of `src/network/wire.rs` and the validators that the other side runs on them.
JSON is left out: a message arrives as it was sent.

A validator is described by the conditions under which it accepts.  Four of them are the
same loop — each element is checked, and no key comes twice — and differ in the check, the
key and the texts: `Check.distinct`.
-/
import Syncbox.Manifest.Digest

namespace Syncbox

open Rust Check

def MAX_TRANSFER_FILES : Nat := 256

/-! ## Messages -/

section Messages

variable [Crypto]

structure SyncRequest where
  protocolVersion : U16
  shareId : ShareId
  manifestDigest : Digest
  knownPeers : List Str

structure SyncResponse where
  protocolVersion : U16
  shareId : ShareId
  manifestDigest : Digest
  knownPeers : List Str

end Messages

structure ManifestMessage where
  protocolVersion : U16
  shareId : ShareId
  manifest : Manifest

structure TransferFile where
  path : Str
  sha256 : Str
  size : U64
  offset : U64
  deriving DecidableEq

structure TransferRequest where
  protocolVersion : U16
  shareId : ShareId
  downloadPaths : List Str
  downloadResumes : List TransferFile
  uploads : List TransferFile

structure TransferReady where
  protocolVersion : U16
  shareId : ShareId
  uploads : List TransferFile

structure TransferResponse where
  protocolVersion : U16
  shareId : ShareId
  manifest : Manifest
  files : List TransferFile

/-! ## Lists of files, paths and peers -/

def validateSha256 (value : Str) : Except Error Unit :=
  rejectIf (utf8Len value ≠ 64 ∨ value.all isLowerHex = false)
    (.bail "network transfer hash must be 64 lowercase hexadecimal characters")

/-- The checks on one file in `validate_transfer_file_shapes`. -/
def checkTransferFile (file : TransferFile) : Except Error Unit := do
  validateManifestPath file.path
  validateSha256 file.sha256
  rejectIf (file.offset > file.size)
    (.bail "network transfer resume offset exceeds file size")

def validateTransferFileShapes (files : List TransferFile) : Except Error Unit := do
  rejectIf (files.length > MAX_TRANSFER_FILES) (.bail "network transfer contains too many files")
  let _ ← Check.distinct checkTransferFile TransferFile.path
    (.bail "network transfer contains duplicate file paths") files
  .ok ()

/-- The comparison of one file with its entry in `validate_transfer_files_iter`. -/
def checkAgainstManifest (manifest : Manifest) (file : TransferFile) : Except Error Unit :=
  match manifest.entries[file.path]? with
  | none => .error (.bail "network transfer file is not present in its manifest")
  | some entry =>
      rejectIf (entry.sha256 ≠ file.sha256 ∨ entry.size ≠ file.size)
        (.bail "network transfer file metadata does not match its manifest")

/-- `validate_transfer_files_iter`, and `validate_transfer_files` on a slice. -/
def validateTransferFiles (files : List TransferFile) (manifest : Manifest) : Except Error Unit := do
  validateTransferFileShapes files
  files.forM (checkAgainstManifest manifest)

/-- `validate_path_list_unique`; the set it answers is a list. -/
def validatePathListUnique (paths : List Str) : Except Error (List Str) := do
  rejectIf (paths.length > MAX_TRANSFER_FILES)
    (.bail "network file request contains too many paths")
  Check.distinct validateManifestPath id (.bail "network file request contains duplicate paths") paths

def validatePathList (paths : List Str) : Except Error Unit :=
  (validatePathListUnique paths).map fun _ => ()

/-! ## The validators -/

section Validators

variable [Crypto]

def validateWirePeers (peers : List Str) : Except Error Unit := do
  rejectIf (peers.length > 256) (.bail "network peer list is too large")
  let _ ← Check.distinct (fun peer => (parseEndpointId peer).map fun _ => ()) id
    (.bail "network peer list contains duplicates") peers
  .ok ()

def validateSyncRequest (request : SyncRequest) (shareId : ShareId) : Except Error Unit := do
  rejectIf (request.protocolVersion ≠ PROTOCOL_VERSION ∨ request.shareId ≠ shareId)
    (.bail "sync request has an incompatible protocol or share ID")
  validateWirePeers request.knownPeers

def validateSyncResponse (response : SyncResponse) (shareId : ShareId) : Except Error Unit := do
  rejectIf (response.protocolVersion ≠ PROTOCOL_VERSION ∨ response.shareId ≠ shareId)
    (.bail "sync response has an incompatible protocol or share ID")
  validateWirePeers response.knownPeers

/-- A manifest that `Manifest::validate` accepted. -/
structure ValidatedManifest where
  manifest : Manifest
  valid : ∃ shareId, manifest.Valid shareId

namespace ValidatedManifest

def validate (manifest : Manifest) (shareId : ShareId) : Except Error ValidatedManifest :=
  match h : manifest.validate shareId with
  | .ok () => .ok ⟨manifest, shareId, Manifest.validate_eq_ok.mp h⟩
  | .error e => .error e

def forShare (validated : ValidatedManifest) (shareId : ShareId) : Except Error Manifest := do
  rejectIf (validated.manifest.shareId ≠ shareId)
    (.bail "manifest share ID does not match its directory")
  .ok validated.manifest

end ValidatedManifest

def validateManifestMessage (message : ManifestMessage) (shareId : ShareId) (expectedDigest : Digest) :
    Except Error ValidatedManifest := do
  rejectIf (message.protocolVersion ≠ PROTOCOL_VERSION ∨ message.shareId ≠ shareId)
    (.bail "manifest message has an incompatible protocol or share ID")
  let validated ← ValidatedManifest.validate message.manifest shareId
  rejectIf (message.manifest.syncDigestAfterValidation ≠ expectedDigest)
    (.bail "manifest message does not match its advertised digest")
  .ok validated

def validateTransferRequestWithValidatedManifest (request : TransferRequest) (shareId : ShareId)
    (manifest : ValidatedManifest) : Except Error Unit := do
  rejectIf (request.protocolVersion ≠ PROTOCOL_VERSION ∨ request.shareId ≠ shareId)
    (.bail "file transfer request has an incompatible protocol or share ID")
  let manifest ← manifest.forShare shareId
  let requestedDownloads ← validatePathListUnique request.downloadPaths
  validateTransferFiles request.uploads manifest
  validateTransferFileShapes request.downloadResumes
  request.downloadResumes.forM fun resume =>
    rejectIf (resume.path ∉ requestedDownloads)
      (.bail "network transfer resume path was not requested")

/-- The comparison of one file with what was asked for. -/
def checkAsked (message : String) (actual expected : TransferFile) : Except Error Unit :=
  rejectIf (actual.path ≠ expected.path ∨ actual.sha256 ≠ expected.sha256
      ∨ actual.size ≠ expected.size)
    (.bail message)

def validateTransferReady (ready : TransferReady) (shareId : ShareId) (requested : List TransferFile) :
    Except Error Unit := do
  rejectIf (ready.protocolVersion ≠ PROTOCOL_VERSION ∨ ready.shareId ≠ shareId)
    (.bail "file transfer ready message has an incompatible protocol or share ID")
  validateTransferFileShapes ready.uploads
  rejectIf (ready.uploads.length ≠ requested.length)
    (.bail "file transfer ready message has an unexpected upload count")
  (ready.uploads.zip requested).forM fun x =>
    checkAsked "file transfer ready message does not match the request" x.1 x.2

def validateTransferResponse (response : TransferResponse) (shareId : ShareId) :
    Except Error ValidatedManifest := do
  rejectIf (response.protocolVersion ≠ PROTOCOL_VERSION ∨ response.shareId ≠ shareId)
    (.bail "file transfer response has an incompatible protocol or share ID")
  let validated ← ValidatedManifest.validate response.manifest shareId
  validateTransferFiles response.files response.manifest
  .ok validated

end Validators

/-! ## What they accept -/

/-- What `validate_transfer_file_shapes` asks of one file. -/
structure TransferFile.Shaped (file : TransferFile) : Prop where
  path : Accepted file.path
  sha256 : utf8Len file.sha256 = 64 ∧ file.sha256.all isLowerHex = true
  offset : file.offset ≤ file.size

theorem checkTransferFile_eq_ok {file : TransferFile} :
    checkTransferFile file = .ok () ↔ file.Shaped := by
  simp only [checkTransferFile, andThen_eq_ok, validateManifestPath_eq_ok, validateSha256,
    rejectIf_eq_ok, not_or, Decidable.not_not, ne_eq, Bool.not_eq_false, gt_iff_lt, not_lt]
  exact ⟨fun ⟨h₁, h₂, h₃⟩ => ⟨h₁, h₂, h₃⟩, fun h => ⟨h.path, h.sha256, h.offset⟩⟩

/-- What `validate_transfer_file_shapes` asks of a list. -/
structure Shaped (files : List TransferFile) : Prop where
  count : files.length ≤ MAX_TRANSFER_FILES
  each : ∀ file ∈ files, file.Shaped
  distinct : (files.map TransferFile.path).Nodup

theorem validateTransferFileShapes_eq_ok {files : List TransferFile} :
    validateTransferFileShapes files = .ok () ↔ Shaped files := by
  rw [validateTransferFileShapes, andThen_eq_ok, Check.distinct_andThen]
  simp only [rejectIf_eq_ok, checkTransferFile_eq_ok, gt_iff_lt, not_lt, and_true]
  exact ⟨fun ⟨h₁, h₂, h₃⟩ => ⟨h₁, h₂, h₃⟩, fun h => ⟨h.count, h.each, h.distinct⟩⟩

/-- The file is one of the manifest. -/
def TransferFile.Of (manifest : Manifest) (file : TransferFile) : Prop :=
  ∃ entry, manifest.entries[file.path]? = some entry ∧ entry.sha256 = file.sha256
    ∧ entry.size = file.size

theorem checkAgainstManifest_eq_ok {manifest : Manifest} {file : TransferFile} :
    checkAgainstManifest manifest file = .ok () ↔ file.Of manifest := by
  unfold checkAgainstManifest TransferFile.Of
  cases manifest.entries[file.path]? with
  | none => simp
  | some entry => simp [not_or]

theorem validateTransferFiles_eq_ok {files : List TransferFile} {manifest : Manifest} :
    validateTransferFiles files manifest = .ok () ↔
      Shaped files ∧ ∀ file ∈ files, file.Of manifest := by
  rw [validateTransferFiles, andThen_eq_ok, validateTransferFileShapes_eq_ok,
    forM_eq_ok]
  simp only [checkAgainstManifest_eq_ok]

/-- What `validate_path_list` asks. -/
structure Listed (paths : List Str) : Prop where
  count : paths.length ≤ MAX_TRANSFER_FILES
  each : ∀ path ∈ paths, Accepted path
  distinct : paths.Nodup

theorem validatePathListUnique_eq_ok {paths unique : List Str} :
    validatePathListUnique paths = .ok unique ↔ Listed paths ∧ unique = paths.reverse := by
  simp only [validatePathListUnique, andThen_eq_ok, rejectIf_eq_ok,
    Check.distinct_eq_ok, validateManifestPath_eq_ok, List.map_id, gt_iff_lt, not_lt]
  constructor
  · rintro ⟨hcount, heach, hdistinct, rfl⟩
    exact ⟨⟨hcount, heach, hdistinct⟩, rfl⟩
  · rintro ⟨⟨hcount, heach, hdistinct⟩, rfl⟩
    exact ⟨hcount, heach, hdistinct, rfl⟩

theorem validatePathList_eq_ok {paths : List Str} :
    validatePathList paths = .ok () ↔ Listed paths := by
  simp only [validatePathList, map_eq_ok, validatePathListUnique_eq_ok]
  constructor
  · rintro ⟨_, ⟨h, -⟩, -⟩
    exact h
  · intro h
    exact ⟨_, ⟨h, rfl⟩, trivial⟩

/-- The file is the one asked for, but for its offset. -/
def TransferFile.Answers (actual expected : TransferFile) : Prop :=
  actual.path = expected.path ∧ actual.sha256 = expected.sha256 ∧ actual.size = expected.size

theorem checkAsked_eq_ok {message : String} {actual expected : TransferFile} :
    checkAsked message actual expected = .ok () ↔ actual.Answers expected := by
  simp only [checkAsked, rejectIf_eq_ok, not_or, Decidable.not_not, ne_eq,
    TransferFile.Answers]

theorem validateTransferReady_eq_ok {ready : TransferReady} {shareId : ShareId}
    {requested : List TransferFile} : validateTransferReady ready shareId requested = .ok () ↔
      (ready.protocolVersion = PROTOCOL_VERSION ∧ ready.shareId = shareId) ∧ Shaped ready.uploads
        ∧ List.Forall₂ TransferFile.Answers ready.uploads requested := by
  simp only [validateTransferReady, andThen_eq_ok, rejectIf_eq_ok,
    validateTransferFileShapes_eq_ok, forM_eq_ok, checkAsked_eq_ok, not_or,
    Decidable.not_not, ne_eq, List.forall₂_iff_zip]
  refine and_congr_right fun _ => and_congr_right fun _ => and_congr_right fun _ => ?_
  exact ⟨fun h a b hab => h (a, b) hab, fun h x hx => h hx⟩

section Accept

variable [Crypto]

theorem ValidatedManifest.validate_eq_ok {manifest : Manifest} {shareId : ShareId}
    {validated : ValidatedManifest} : ValidatedManifest.validate manifest shareId = .ok validated ↔
      manifest.Valid shareId ∧ validated.manifest = manifest := by
  unfold ValidatedManifest.validate
  constructor
  · intro h
    split at h
    · rename_i hvalid
      cases h
      exact ⟨Manifest.validate_eq_ok.mp hvalid, rfl⟩
    · cases h
  · rintro ⟨hvalid, heq⟩
    split
    · obtain ⟨m, hm⟩ := validated
      subst heq
      rfl
    · rename_i e he
      rw [Manifest.validate_eq_ok.mpr hvalid] at he
      cases he

theorem validateWirePeers_eq_ok {peers : List Str} : validateWirePeers peers = .ok () ↔
    peers.length ≤ 256 ∧ (∀ peer ∈ peers, ∃ id, parseEndpointId peer = .ok id) ∧ peers.Nodup := by
  rw [validateWirePeers, andThen_eq_ok, Check.distinct_andThen]
  simp only [rejectIf_eq_ok, map_eq_ok, List.map_id, gt_iff_lt, not_lt, and_true]

end Accept

end Syncbox

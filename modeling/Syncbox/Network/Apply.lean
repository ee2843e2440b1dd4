/-
# `Syncbox.Network.Apply` — applying a remote manifest

`apply_remote_transfer_impl` of `src/network/transfer.rs` and what it calls.  Five
loops change the tree — deletions, directories, links, files, directory modes — and
keep a candidate manifest beside it; only after the last of them is the candidate
validated, the clock moved past it and the candidate saved.

Each of the first four loops skips the records that do not win against the local
record, so it is a loop over `winners`.  The `Cow` of the source is `owned`: it is
borrowed until a record is applied.
-/
import Syncbox.Manifest.Merge
import Syncbox.Network.State
import Syncbox.Network.Local

namespace Syncbox

open Rust Unix

/-- Data delivered for a file. -/
inductive IncomingFile where
  | bytes (data : List Byte)
  | staged (path : PathBuf)

structure ApplyOutcome where
  pendingDownloads : Nat
  appliedRecords : Nat
  unsupportedItems : Nat
  deriving DecidableEq

def remoteRecordWins : Option ManifestRecord → Option ManifestRecord → Bool
  | none, some _ => true
  | some local_, some remote =>
      remote.version > local_.version
        || (remote.version = local_.version && remote.isTombstone && !local_.isTombstone)
  | _, _ => false

/-- The records of one map of the remote manifest that win. -/
def winners {V : Type} (local_ : Manifest) (records : BTreeMap Str V) (wrap : V → ManifestRecord) :
    List (Str × V) :=
  records.toList.filter fun x => remoteRecordWins (local_.record x.1) (some (wrap x.2))

/-- The order of deletions and of directory modes: what is deeper comes first. -/
def deeperFirst {V : Type} (x y : Str × V) : Prop :=
  manifestPathDepth y.1 < manifestPathDepth x.1
    ∨ manifestPathDepth y.1 = manifestPathDepth x.1 ∧ y.1 ≤ x.1

instance {V : Type} : DecidableRel (deeperFirst (V := V)) :=
  fun _ _ => inferInstanceAs (Decidable (_ ∨ _))

/-- What the loops carry. -/
structure Applying where
  candidate : Manifest
  owned : Bool
  pendingDownloads : Nat
  appliedRecords : Nat

/-- `candidate.to_mut()`, one update of it, and the count. -/
def Applying.record (s : Applying) (update : Manifest → Manifest) : Applying :=
  { s with candidate := update s.candidate, owned := true, appliedRecords := s.appliedRecords + 1 }

/-! ## The loops -/

section Loops

variable [Crypto] (tmp root : PathBuf)

def applyDeletion (s : Applying) (x : Str × Tombstone) : Fs Applying := do
  removeLocalPath root x.1
  pure (s.record fun m => { m with
    entries := m.entries.erase x.1
    directories := m.directories.erase x.1
    symlinks := m.symlinks.erase x.1
    tombstones := m.tombstones.insert x.1 x.2 })

def applyDirectory (s : Applying) (x : Str × DirectoryEntry) : Fs Applying := do
  ensureLocalDirectory root x.1
  pure (s.record fun m => { m with
    entries := m.entries.erase x.1
    symlinks := m.symlinks.erase x.1
    tombstones := m.tombstones.erase x.1
    directories := m.directories.insert x.1 x.2 })

def applySymlink (s : Applying) (x : Str × SymlinkEntry) : Fs Applying := do
  writeLocalSymlink tmp root x.1 x.2.target
  pure (s.record fun m => { m with
    entries := m.entries.erase x.1
    directories := m.directories.erase x.1
    tombstones := m.tombstones.erase x.1
    symlinks := m.symlinks.insert x.1 x.2 })

/-- A file that was delivered. -/
def installFile (path : Str) (entry : ManifestEntry) : IncomingFile → Fs Unit
  | .bytes data => writeLocalFile tmp root path data entry.permissions
  | .staged stagedPath => writeLocalStagedFile root path stagedPath entry.permissions

/-- `local_content_matches`. -/
def localContentMatches (local_ : Manifest) (path : Str) (entry : ManifestEntry) : Bool :=
  local_.entries[path]?.any fun e => e.size = entry.size && e.sha256 = entry.sha256

/-- A file that was not delivered: the local file may already have its contents. -/
def adoptFile (local_ : Manifest) (path : Str) (entry : ManifestEntry) : Fs Bool :=
  if localContentMatches local_ path entry then do
    let same ← localFileMatchesEntry root path entry.size entry.sha256
    if same then do
      setLocalFilePermissions root path entry.permissions
      pure true
    else pure false
  else pure false

/-- The body of the loop over files; `incoming` is `file_data.get(path)`. -/
def applyFile (local_ : Manifest) (incoming : Option IncomingFile) (s : Applying)
    (x : Str × ManifestEntry) : Fs Applying :=
  match incoming with
  | some incoming => do
      installFile tmp root x.1 x.2 incoming
      pure (s.record fun m => { m with
        directories := m.directories.erase x.1
        tombstones := m.tombstones.erase x.1
        symlinks := m.symlinks.erase x.1
        entries := (m.entries.erase x.1).insert x.1 x.2 })
  | none => do
      if ← adoptFile root local_ x.1 x.2 then
        -- the links keep their entry here, unlike above
        pure (s.record fun m => { m with
          directories := m.directories.erase x.1
          tombstones := m.tombstones.erase x.1
          entries := m.entries.insert x.1 x.2 })
      else pure { s with pendingDownloads := s.pendingDownloads + 1 }

def applyMode (s : Applying) (x : Str × Option U16) : Fs Applying := do
  setLocalDirectoryPermissions root x.1 x.2
  pure s

def deletions (local_ remote : Manifest) : List (Str × Tombstone) :=
  (winners local_ remote.tombstones .tombstone).insertionSort deeperFirst

def directoryPermissions (local_ remote : Manifest) : List (Str × Option U16) :=
  ((winners local_ remote.directories .directory).map fun x => (x.1, x.2.permissions)).insertionSort
    deeperFirst

/-- Everything up to the last loop. -/
def applyTree (local_ remote : Manifest) (fileData : BTreeMap Str IncomingFile) : Fs Applying := do
  let s ← (deletions local_ remote).foldlM (applyDeletion root) ⟨local_, false, 0, 0⟩
  let s ← (winners local_ remote.directories .directory).foldlM (applyDirectory root) s
  let s ← (winners local_ remote.symlinks .symlink).foldlM (applySymlink tmp root) s
  let s ← (winners local_ remote.entries .file).foldlM
    (fun s x => applyFile tmp root local_ fileData[x.1]? s x) s
  (directoryPermissions local_ remote).foldlM (applyMode root) s

end Loops

/-! ## The candidate -/

section Save

variable [Crypto] (share : ActiveShare)

/-- The versions `observe_manifest_clock` looks at: those of the links are not among them. -/
def observedVersions (m : Manifest) : List HlcTimestamp :=
  m.entries.values.map ManifestEntry.version ++ m.directories.values.map DirectoryEntry.version
    ++ m.tombstones.values.map Tombstone.version

def observeAll (nowMs : U64) (versions : List HlcTimestamp) (clock : ClockState) :
    Except Error ClockState :=
  versions.foldlM (fun clock version => clock.observe version nowMs) clock

def observeManifestClock (manifest : Manifest) : App Unit := do
  let clock ← loadClock share
  let nowMs ← onDisk currentTimeMs
  let clock ← Prog.ofExcept (observeAll nowMs (observedVersions manifest) clock)
  saveClock share clock

/-- The two manifests differ in one of the four maps. -/
def mapsDiffer (m m' : Manifest) : Bool :=
  m.entries ≠ m'.entries || m.directories ≠ m'.directories || m.symlinks ≠ m'.symlinks
    || m.tombstones ≠ m'.tombstones

/-- What follows the loops when the candidate is owned. -/
def saveCandidate (local_ candidate : Manifest) : App Unit := do
  let nowMs ← onDisk currentTimeMs
  let candidate := { candidate with scannedAtMs := nowMs }
  Prog.ofExcept (candidate.validate share.shareId)
  Prog.when (mapsDiffer candidate local_) do
    observeManifestClock share candidate
    saveManifest share candidate

/-- `unsupported_symlink_count` is 0 where links are supported. -/
def applyRemoteTransferImpl (remote : Manifest) (fileData : BTreeMap Str IncomingFile) :
    App ApplyOutcome := do
  let root ← localRoot share
  let snapshot ← manifestSnapshot share
  let local_ := snapshot.manifest
  let s ← onDisk (applyTree share.shareTmpDir root local_ remote fileData)
  Prog.when s.owned (saveCandidate share local_ s.candidate)
  pure ⟨s.pendingDownloads, s.appliedRecords, 0⟩

end Save

end Syncbox

/-
# `Syncbox.Manifest.Scan` — scanning the shared tree

`src/manifest/scan.rs`, the Unix side.  A scan has two halves.  `discoverEntries`
walks the tree and describes every node; it reads the disk and changes nothing.
`rescan` compares the description with the previous manifest, keeps the records that
still fit and stamps the others with a tick of the clock.

The three loops over files, directories and links differ in what makes a record fit
and in the map they insert into.  Both are functions of what was seen (`retained`,
`Manifest.place`), so the loops share one step.
-/
import Syncbox.Manifest.Model
import Syncbox.Fs

namespace Syncbox

open Rust Unix

structure DiscoveredFile where
  size : U64
  modifiedAtNs : U64
  sha256 : Str
  permissions : Option U16
  deriving DecidableEq

structure DiscoveredDirectory where
  permissions : Option U16

structure DiscoveredSymlink where
  target : Str

structure DiscoveredEntries where
  files : BTreeMap Str DiscoveredFile
  directories : BTreeMap Str DiscoveredDirectory
  symlinks : BTreeMap Str DiscoveredSymlink

/-! ## Metadata -/

def permissionsFromMetadata (metadata : Node) : Option U16 := some (metadata.mode.setWidth 16)

def permissionsMatch (left right : Option U16) (unknownMatches : Bool) : Bool :=
  (unknownMatches && (left.isNone || right.isNone)) || left == right

def selectedPermissions (_previous discovered : Option U16) : Option U16 := discovered

/-! ## Discovery -/

section Discovery

variable [Crypto]

/-- The loop of `hash_stable_file`, with the attempts that are left. -/
def hashAttempts (path : PathBuf) (expectedMetadata : Node) : Nat → Fs DiscoveredFile
  | 0 => throw (.bail ("local file changed while it was being scanned: " ++ display path))
  | attempts + 1 => do
      let file ← context ("unable to open local file " ++ display path) (openRead path)
      let content ← context ("unable to read local file " ++ display path) (readAll file)
      let after ← context ("unable to inspect local file " ++ display path) (fstat file)
      if after.len = expectedMetadata.len ∧ after.modified = expectedMetadata.modified
          ∧ permissionsMatch (permissionsFromMetadata expectedMetadata)
            (permissionsFromMetadata after) false = true then
        pure ⟨expectedMetadata.len, expectedMetadata.modified, sha256Hex content.val,
          selectedPermissions none (permissionsFromMetadata expectedMetadata)⟩
      else hashAttempts path expectedMetadata attempts

def hashStableFile (path : PathBuf) (expectedMetadata : Node) : Fs DiscoveredFile :=
  hashAttempts path expectedMetadata 3

/-- The previous entry still describes a file with this metadata. -/
def stillDescribes (metadata : Node) (unknownPermissionsMatch : Bool) (old : ManifestEntry) : Bool :=
  old.size = metadata.len && metadata.modified = old.modifiedAtNs
    && permissionsMatch (permissionsFromMetadata metadata) old.permissions unknownPermissionsMatch

/-- A file, by the digest already known or by a new one. -/
def discoverFile (path : PathBuf) (metadata : Node) (known : Option ManifestEntry)
    (unknownPermissionsMatch : Bool) : Fs DiscoveredFile :=
  match known.filter (stillDescribes metadata unknownPermissionsMatch) with
  | some old => pure ⟨old.size, old.modifiedAtNs, old.sha256, old.permissions⟩
  | none => hashStableFile path metadata

/-- The loop body of `discover_entries` for an entry that is recorded; `names` lead to it
from the root. -/
def recordEntry (root : PathBuf) (previous : Manifest) (unknownPermissionsMatch : Bool)
    (found : DiscoveredEntries) (names : List Str) (fileType : Node) : Fs DiscoveredEntries := do
  if found.files.size + found.directories.size + found.symlinks.size ≥ MAX_MANIFEST_ENTRIES then
    throw (.bail "local directory exceeds the maximum supported file count")
  else
    let path ← Prog.ofExcept (relativeManifestPath names)
    if fileType.isSymlink then do
      let target ← context ("unable to read symlink " ++ display (root ++ names))
        (readLink (root ++ names))
      Prog.ofExcept (validateSymlinkTarget target)
      pure { found with symlinks := found.symlinks.insert path ⟨target⟩ }
    else do
      let metadata ← context ("unable to inspect local path " ++ display (root ++ names))
        (lstat (root ++ names))
      if fileType.isDir then
        pure { found with
          directories := found.directories.insert path ⟨permissionsFromMetadata metadata⟩ }
      else do
        let file ← discoverFile (root ++ names) metadata previous.entries[path]?
          unknownPermissionsMatch
        pure { found with files := found.files.insert path file }

/-- The loop body of `discover_entries`. -/
def discoverEntry (root : PathBuf) (previous : Manifest) (unknownPermissionsMatch : Bool)
    (found : DiscoveredEntries) (entry : List Str × Node) : Fs DiscoveredEntries :=
  match entry.2 with
  | .special => pure found
  | fileType => recordEntry root previous unknownPermissionsMatch found entry.1 fileType

def discoverEntries (root : PathBuf) (previous : Manifest) (unknownPermissionsMatch : Bool) :
    Fs DiscoveredEntries := do
  let metadata ← context ("unable to inspect local directory " ++ display root) (stat root)
  if metadata.isDir = false then
    throw (.bail ("local path " ++ display root ++ " is not a directory"))
  else do
    let entries ← context ("unable to scan local directory " ++ display root) (walkDir root)
    entries.foldlM (discoverEntry root previous unknownPermissionsMatch) ⟨∅, ∅, ∅⟩

end Discovery

/-! ## Comparison with the previous manifest -/

/-- `zip` of two maps of the same size, and a test on every pair. -/
def mapsMatch {V W : Type} (old : BTreeMap Str V) (new : BTreeMap Str W) (test : V → W → Bool) : Bool :=
  old.size = new.size && (old.toList.zip new.toList).all fun (o, n) => o.1 = n.1 && test o.2 n.2

def fileMatches (unknownPermissionsMatch : Bool) (old : ManifestEntry) (file : DiscoveredFile) : Bool :=
  old.size = file.size && old.sha256 = file.sha256
    && permissionsMatch old.permissions file.permissions unknownPermissionsMatch

def directoryMatches (unknownPermissionsMatch : Bool) (old : DirectoryEntry)
    (directory : DiscoveredDirectory) : Bool :=
  permissionsMatch old.permissions directory.permissions unknownPermissionsMatch

def symlinkMatches (old : SymlinkEntry) (link : DiscoveredSymlink) : Bool := old.target = link.target

def matchesPrevious (discovered : DiscoveredEntries) (previous : Manifest)
    (unknownPermissionsMatch : Bool) : Bool :=
  previous.formatVersion = MANIFEST_FORMAT_VERSION
    && mapsMatch previous.entries discovered.files (fun old file =>
      fileMatches unknownPermissionsMatch old file && old.modifiedAtNs = file.modifiedAtNs)
    && mapsMatch previous.directories discovered.directories (directoryMatches unknownPermissionsMatch)
    && mapsMatch previous.symlinks discovered.symlinks symlinkMatches

/-- What a scan sees at one path. -/
inductive Seen where
  | file (file : DiscoveredFile)
  | directory (directory : DiscoveredDirectory)
  | symlink (link : DiscoveredSymlink)

/-- The previous record, if it still fits what is seen.  Only the modification time of a
file is refreshed. -/
def retained (previous : Manifest) (unknownPermissionsMatch : Bool) (path : Str) :
    Seen → Option ManifestRecord
  | .file f => (previous.entries[path]?.filter fun old => fileMatches unknownPermissionsMatch old f).map
      fun old => .file { old with modifiedAtNs := f.modifiedAtNs, sha256 := f.sha256 }
  | .directory d => (previous.directories[path]?.filter fun old =>
      directoryMatches unknownPermissionsMatch old d).map .directory
  | .symlink l => (previous.symlinks[path]?.filter fun old => symlinkMatches old l).map .symlink

/-- The record of what is seen under a new version. -/
def authored (previous : Manifest) (path : Str) (version : HlcTimestamp) : Seen → ManifestRecord
  | .file f => .file ⟨f.size, f.modifiedAtNs, f.sha256,
      selectedPermissions (previous.entries[path]?.bind fun old => old.permissions) f.permissions, version⟩
  | .directory d => .directory
      ⟨selectedPermissions (previous.directories[path]?.bind fun old => old.permissions) d.permissions,
        version⟩
  | .symlink l => .symlink ⟨l.target, version⟩

/-- Insert a record where it belongs, and remove what it replaces. -/
def Manifest.place (m : Manifest) (path : Str) : ManifestRecord → Manifest
  | .file e => { m with
      tombstones := m.tombstones.erase path
      symlinks := m.symlinks.erase path
      entries := m.entries.insert path e }
  | .directory e => { m with
      tombstones := m.tombstones.erase path
      symlinks := m.symlinks.erase path
      directories := m.directories.insert path e }
  | .symlink e => { m with
      tombstones := m.tombstones.erase path
      symlinks := m.symlinks.insert path e }
  | .tombstone e => { m with tombstones := m.tombstones.insert path e }

/-- The variables the loops share; the four maps are those of the manifest to be. -/
structure Rescan where
  manifest : Manifest
  changes : Nat
  clock : ClockState

/-- A tick of the clock for one more change. -/
def Rescan.author (s : Rescan) (endpointId : EndpointId) (nowMs : U64) (path : Str)
    (record : HlcTimestamp → ManifestRecord) : Except Error Rescan := do
  let (version, clock) ← s.clock.tick nowMs endpointId
  .ok ⟨s.manifest.place path (record version), s.changes + 1, clock⟩

/-- The body of the loops over what was discovered. -/
def rescanSeen (previous : Manifest) (endpointId : EndpointId) (nowMs : U64)
    (unknownPermissionsMatch : Bool) (s : Rescan) (path : Str) (seen : Seen) : Except Error Rescan :=
  match retained previous unknownPermissionsMatch path seen with
  | some record => .ok { s with manifest := s.manifest.place path record }
  | none => s.author endpointId nowMs path fun version => authored previous path version seen

/-- The body of the loop over the paths that were live before. -/
def rescanMissing (endpointId : EndpointId) (nowMs : U64) (s : Rescan) (path : Str) :
    Except Error Rescan :=
  if path ∉ s.manifest.entries ∧ path ∉ s.manifest.directories ∧ path ∉ s.manifest.symlinks then
    s.author endpointId nowMs path fun version => .tombstone ⟨version⟩
  else .ok s

/-- Everything discovered, in the order of the loops. -/
def DiscoveredEntries.seen (discovered : DiscoveredEntries) : List (Str × Seen) :=
  discovered.files.toList.map (fun x => (x.1, .file x.2))
    ++ discovered.directories.toList.map (fun x => (x.1, .directory x.2))
    ++ discovered.symlinks.toList.map fun x => (x.1, .symlink x.2)

/-- The four loops. -/
def rescan (previous : Manifest) (clock : ClockState) (endpointId : EndpointId) (nowMs : U64)
    (unknownPermissionsMatch : Bool) (discovered : DiscoveredEntries) : Except Error Rescan := do
  let s ← discovered.seen.foldlM
    (fun s x => rescanSeen previous endpointId nowMs unknownPermissionsMatch s x.1 x.2)
    ⟨⟨MANIFEST_FORMAT_VERSION, previous.shareId, nowMs, ∅, ∅, ∅, previous.tombstones⟩, 0, clock⟩
  previous.livePaths.foldlM (rescanMissing endpointId nowMs) s

structure ScanResult where
  manifest : Manifest
  clock : ClockState
  files : Nat
  tombstones : Nat
  changes : Nat
  changed : Bool
  manifestChanged : Bool

section Scan

variable [Crypto]

/-- The loops, and the check of the manifest they build. -/
def fullDiff (previous : Manifest) (clock : ClockState) (endpointId : EndpointId)
    (nowMs : U64) (unknownPermissionsMatch : Bool) (discovered : DiscoveredEntries) :
    Except Error ScanResult := do
  let s ← rescan previous clock endpointId nowMs unknownPermissionsMatch discovered
  s.manifest.validate previous.shareId
  .ok ⟨s.manifest, s.clock, s.manifest.entries.size, s.manifest.tombstones.size, s.changes,
    s.changes > 0, previous.formatVersion ≠ MANIFEST_FORMAT_VERSION
      ∨ previous.entries ≠ s.manifest.entries ∨ previous.directories ≠ s.manifest.directories
      ∨ previous.symlinks ≠ s.manifest.symlinks ∨ previous.tombstones ≠ s.manifest.tombstones⟩

/-- What follows the discovery. -/
def compareWithPrevious (previous : Manifest) (clock : ClockState) (endpointId : EndpointId)
    (nowMs : U64) (unknownPermissionsMatch : Bool) (discovered : DiscoveredEntries) :
    Except Error ScanResult :=
  if matchesPrevious discovered previous unknownPermissionsMatch then
    .ok ⟨previous, clock, previous.entries.size, previous.tombstones.size, 0, false, false⟩
  else fullDiff previous clock endpointId nowMs unknownPermissionsMatch discovered

def scanManifestCachedAfterValidation (root : PathBuf) (previous : Manifest) (clock : ClockState)
    (endpointId : EndpointId) (nowMs : U64) : Fs ScanResult := do
  Prog.ofExcept clock.validate
  -- only legacy manifests synthesise permissions
  let unknownPermissionsMatch := previous.formatVersion ≠ LEGACY_MANIFEST_FORMAT_VERSION
  let discovered ← discoverEntries root previous unknownPermissionsMatch
  Prog.ofExcept (compareWithPrevious previous clock endpointId nowMs unknownPermissionsMatch discovered)

end Scan

end Syncbox

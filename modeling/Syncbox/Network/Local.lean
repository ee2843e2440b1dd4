/-
# `Syncbox.Network.Local` — changing the shared tree

`src/network/local.rs`, the Unix side.  Every operation on a manifest path walks
the parents of the path twice: `withWritableParents` looks at each of them, makes it
writable and remembers its mode, and inside it `safeLocalPath` looks at each of them
again.  Both refuse a parent that is a symbolic link or not a directory.  The modes
are put back in reverse order, whatever the operation answered.

`tmp` is the share's staging directory, `DataPaths::share_tmp_dir`.
-/
import Syncbox.Manifest.Path
import Syncbox.Fs

namespace Syncbox

open Rust Unix

/-! ## Parents -/

/-- One parent in `safe_local_path`. -/
def safeParent (writing : Bool) (parent : PathBuf) (component : Str) : Fs PathBuf := do
  let parent := parent ++ [component]
  match ← lstat parent with
  | .ok (.symlink _) =>
      throw (.bail ("shared path contains a symbolic link: " ++ display parent))
  | .ok (.dir _) => pure parent
  | .ok _ => throw (.bail ("shared path parent is not a directory: " ++ display parent))
  | .error .notFound =>
      if writing then do
        context ("unable to create shared directory " ++ display parent) (mkdir parent)
        pure parent
      else pure parent
  | .error kind => throw (.io ("unable to inspect " ++ display parent) kind)

def safeLocalPath (root : PathBuf) (manifestPath : Str) (writing : Bool) : Fs PathBuf := do
  let target ← Prog.ofExcept (pathForManifest root manifestPath)
  let _ ← (split manifestPath).dropLast.foldlM (safeParent writing) root
  pure target

structure PermissionRestore where
  path : PathBuf
  permissions : Mode

def directoryModeAllowsNonOwnerWrites (permissions : Mode) : Bool :=
  permissions &&& 0o030 == 0o030 || permissions &&& 0o003 == 0o003

def prepareInspectedDirectoryForWrite (path : PathBuf) (metadata : Node)
    (restoreExistingPermissions : Bool) (restores : List PermissionRestore) :
    Fs (List PermissionRestore) :=
  match metadata with
  | .symlink _ => throw (.bail ("shared path contains a symbolic link: " ++ display path))
  | .dir permissions =>
      if permissions &&& 0o300 = 0o300 then pure restores
      else do
        match ← chmod path (permissions ||| 0o300) with
        | .ok () =>
            if restoreExistingPermissions then pure (restores ++ [⟨path, permissions⟩])
            else pure restores
        | .error kind =>
            if directoryModeAllowsNonOwnerWrites permissions then pure restores
            else throw (.io ("unable to make shared directory writable " ++ display path) kind)
  | _ => throw (.bail ("shared path parent is not a directory: " ++ display path))

def prepareDirectoryForWrite (path : PathBuf) (restoreExistingPermissions : Bool)
    (restores : List PermissionRestore) : Fs (List PermissionRestore) := do
  let metadata ← context ("unable to inspect shared directory " ++ display path) (lstat path)
  prepareInspectedDirectoryForWrite path metadata restoreExistingPermissions restores

/-- One parent in `with_writable_parents`. -/
def prepareParent (createMissingParents : Bool) (parent : PathBuf)
    (restores : List PermissionRestore) : Fs (List PermissionRestore) := do
  match ← lstat parent with
  | .ok metadata => prepareInspectedDirectoryForWrite parent metadata true restores
  | .error .notFound =>
      if createMissingParents then do
        context ("unable to create shared directory " ++ display parent) (mkdir parent)
        prepareDirectoryForWrite parent false restores
      else pure restores
  | .error kind => throw (.io ("unable to inspect " ++ display parent) kind)

/-- The rest of the preparation.  The modes to restore are kept when it fails: a parent is
added to them by the last thing its step does. -/
def prepareParents (createMissingParents : Bool) :
    List Str → PathBuf → List PermissionRestore → Fs (List PermissionRestore × Except Error Unit)
  | [], _, restores => pure (restores, .ok ())
  | component :: components, parent, restores => do
      let parent := parent ++ [component]
      match ← Prog.attempt (prepareParent createMissingParents parent restores) with
      | .error e => pure (restores, .error e)
      | .ok restores => prepareParents createMissingParents components parent restores

/-- The preparation: the root, then every parent. -/
def preparation (root : PathBuf) (manifestPath : Str) (createMissingParents : Bool) :
    Fs (List PermissionRestore × Except Error Unit) := do
  match ← Prog.attempt (prepareDirectoryForWrite root true []) with
  | .error e => pure ([], .error e)
  | .ok restores =>
      prepareParents createMissingParents (split manifestPath).dropLast root restores

def restoreParentPermission (restore : PermissionRestore) : Fs Unit :=
  context ("unable to restore permissions on shared directory " ++ display restore.path)
    (chmod restore.path restore.permissions)

def restoreParentPermissions (restores : List PermissionRestore) : Fs Unit :=
  restores.reverse.foldlM (fun _ restore => restoreParentPermission restore) ()

/-- The result of an operation and of the clean-up after it. -/
def settle {α : Type} : Except Error α → Except Error Unit → Fs α
  | .error e, _ => throw e
  | .ok _, .error e => throw e
  | .ok value, .ok () => pure value

def withWritableParents {α : Type} (root : PathBuf) (manifestPath : Str)
    (createMissingParents : Bool) (operation : Fs α) : Fs α := do
  Prog.ofExcept (validateManifestPath manifestPath)
  let (restores, prepared) ← preparation root manifestPath createMissingParents
  match prepared with
  | .error e => do
      let _ ← (Prog.attempt (restoreParentPermissions restores) : Fs (Except Error Unit))
      throw e
  | .ok () => do
      let result ← Prog.attempt operation
      let restoreResult ← Prog.attempt (restoreParentPermissions restores)
      settle result restoreResult

/-! ## Directories -/

def createSharedDirectory (target : PathBuf) : Fs Unit :=
  context ("unable to create shared directory " ++ display target) (mkdir target)

def ensureLocalDirectory (root : PathBuf) (manifestPath : Str) : Fs Unit :=
  withWritableParents root manifestPath true do
    let target ← safeLocalPath root manifestPath true
    match ← lstat target with
    | .ok (.symlink _) => do
        context ("unable to replace shared symlink " ++ display target) (unlink target)
        createSharedDirectory target
    | .ok (.dir _) => pure ()
    | .ok (.file ..) => do
        context ("unable to replace shared file " ++ display target) (unlink target)
        createSharedDirectory target
    | .ok .special => throw (.bail ("refusing to replace non-directory " ++ display target))
    | .error .notFound => createSharedDirectory target
    | .error kind => throw (.io ("unable to inspect shared directory " ++ display target) kind)

def removeLocalPath (root : PathBuf) (manifestPath : Str) : Fs Unit :=
  withWritableParents root manifestPath false do
    let target ← safeLocalPath root manifestPath false
    match ← lstat target with
    | .ok (.file ..) | .ok (.symlink _) =>
        context ("unable to remove shared path " ++ display target) (unlink target)
    | .ok (.dir _) =>
        context ("unable to remove empty shared directory " ++ display target) (rmdir target)
    | .ok .special => pure ()
    | .error .notFound => pure ()
    | .error kind => throw (.io ("unable to inspect " ++ display target) kind)

/-! ## Modes -/

def setPermissions (target : PathBuf) (permissions : U16) (directory : Bool) : Fs Unit := do
  let metadata ← context ("unable to inspect shared path " ++ display target) (lstat target)
  let set (mode : Mode) : Fs Unit :=
    if mode.setWidth 16 = permissions then pure ()
    else context ("unable to set permissions on " ++ display target)
      (chmod target (permissions.setWidth 12))
  match metadata, directory with
  | .symlink _, _ =>
      throw (.bail ("refusing to change permissions on symbolic link " ++ display target))
  | .dir mode, true => set mode
  | .file _ mode _, false => set mode
  | _, _ => throw (.bail ("shared path has an unexpected type: " ++ display target))

/-- The body of `set_local_file_permissions` and `set_local_directory_permissions`. -/
def setLocalPermissions (directory : Bool) (root : PathBuf) (manifestPath : Str) :
    Option U16 → Fs Unit
  | none => pure ()
  | some permissions =>
      withWritableParents root manifestPath false do
        let target ← safeLocalPath root manifestPath false
        setPermissions target permissions directory

def setLocalFilePermissions (root : PathBuf) (manifestPath : Str) (permissions : Option U16) :
    Fs Unit :=
  setLocalPermissions false root manifestPath permissions

def setLocalDirectoryPermissions (root : PathBuf) (manifestPath : Str)
    (permissions : Option U16) : Fs Unit :=
  setLocalPermissions true root manifestPath permissions

/-! ## Reading -/

/-- Make a file readable; the answer is the mode to restore. -/
def makeReadable (target : PathBuf) (permissions : Mode) : Fs (Option Mode) :=
  if permissions &&& 0o400 = 0 then do
    match ← chmod target (permissions ||| 0o400) with
    | .ok () => pure (some permissions)
    | .error kind =>
        if permissions &&& 0o044 ≠ 0 then pure none
        else throw (.io ("unable to make shared file readable " ++ display target) kind)
  else pure none

def restoreFilePermissions (target : PathBuf) : Option Mode → Fs Unit
  | none => pure ()
  | some permissions =>
      context ("unable to restore permissions on shared file " ++ display target)
        (chmod target permissions)

/-- `with_readable_file`, whose two type checks its caller has made. -/
def withReadableFile {α : Type} (target : PathBuf) (permissions : Mode) (operation : Fs α) :
    Fs α := do
  let restorePermissions ← makeReadable target permissions
  let result ← Prog.attempt operation
  let restoreResult ← Prog.attempt (restoreFilePermissions target restorePermissions)
  settle result restoreResult

section Files

variable [Crypto]

/-- The hash loop of `local_file_matches_entry` and the comparison after it. -/
def hashMatches (target : PathBuf) (expectedSize : U64) (expectedSha256 : Str) (modified : U64) :
    Fs Bool := do
  let file ← context ("unable to read shared file " ++ display target) (openRead target)
  let content ← context ("unable to read shared file " ++ display target) (readAll file)
  let after ← context ("unable to inspect shared file " ++ display target) (fstat file)
  match after with
  | .file c _ mtime =>
      pure (c.len = expectedSize && mtime = modified && sha256Hex content.val = expectedSha256)
  | _ => pure false

def localFileMatchesEntry (root : PathBuf) (manifestPath : Str) (expectedSize : U64)
    (expectedSha256 : Str) : Fs Bool :=
  withWritableParents root manifestPath false do
    let target ← safeLocalPath root manifestPath false
    match ← lstat target with
    | .ok (.symlink _) => throw (.bail ("refusing to use symbolic link " ++ display target))
    | .ok (.file content permissions mtime) =>
        if content.len = expectedSize then
          withReadableFile target permissions
            (hashMatches target expectedSize expectedSha256 mtime)
        else pure false
    | .ok _ => pure false
    | .error .notFound => pure false
    | .error kind => throw (.io ("unable to inspect shared file " ++ display target) kind)

end Files

/-! ## Writing -/

/-- `fs::write`. -/
def writeFile (path : PathBuf) (bytes : List Byte) : Fs (Except IoKind Unit) :=
  Prog.attempt do
    let file ← Prog.check (openTruncate path 0o666)
    Prog.check (writeAt file 0 bytes)

/-- `fs::copy`: the mode of the source is set before its bytes are copied. -/
def copyFile (source target : PathBuf) : Fs (Except IoKind Unit) :=
  Prog.attempt do
    let reader ← Prog.check (openRead source)
    match ← Prog.check (fstat reader) with
    | .file _ mode _ => do
        let writer ← Prog.check (openTruncate target mode)
        let _ ← Prog.check (fstat writer)
        Prog.check (fchmod writer mode)
        let content ← Prog.check (readAll reader)
        Prog.check (writeAt writer 0 content.val)
    | _ => throw .invalidInput

/-- Make an existing file writable; the answer is the mode to restore. -/
def makeWritable (target : PathBuf) : Fs (Option Mode) := do
  match ← lstat target with
  | .ok (.symlink _) => throw (.bail ("refusing to replace symbolic link " ++ display target))
  | .ok (.file _ permissions _) =>
      if permissions &&& 0o200 = 0 then do
        match ← chmod target (permissions ||| 0o200) with
        | .ok () => pure (some permissions)
        | .error kind =>
            if permissions &&& 0o022 ≠ 0 then pure none
            else throw (.io ("unable to make shared file writable " ++ display target) kind)
      else pure none
  | .ok _ => throw (.bail ("refusing to replace non-file " ++ display target))
  | .error .notFound => pure none
  | .error kind => throw (.io ("unable to inspect shared file " ++ display target) kind)

/-- `with_writable_cross_device_target`: the old mode comes back when the operation failed
or no mode follows. -/
def withWritableCrossDeviceTarget (target : PathBuf) (finalPermissions : Option U16)
    (operation : Fs Unit) : Fs Unit := do
  let restorePermissions ← makeWritable target
  let operationResult ← Prog.attempt operation
  if operationResult matches .error _ ∨ finalPermissions = none then
    restoreFilePermissions target restorePermissions
  Prog.ofExcept operationResult

/-- What stands at the target of a file makes way: an empty directory or a link. -/
def clearForFile (inspect : String) (target : PathBuf) : Fs Unit := do
  match ← lstat target with
  | .ok (.dir _) =>
      context ("unable to replace shared directory " ++ display target) (rmdir target)
  | .ok (.symlink _) =>
      context ("unable to replace shared symlink " ++ display target) (unlink target)
  | .ok (.file ..) => pure ()
  | .ok .special => throw (.bail ("refusing to replace non-file " ++ display target))
  | .error .notFound => pure ()
  | .error kind => throw (.io (inspect ++ display target) kind)

/-- `fs::rename` onto the target, or `crossing` when it is on another device. -/
def install (text : String) (staged target : PathBuf) (crossing : Fs Unit) : Fs Unit := do
  match ← rename staged target with
  | .ok () => pure ()
  | .error .crossesDevices => crossing
  | .error kind => throw (.io text kind)

/-- `"{kind}-{pid}-{random}.tmp"`. -/
def temporaryName (kind : Str) (pid random : Nat) : Str :=
  kind ++ "-".toList ++ (Nat.repr pid).toList ++ "-".toList ++ (Nat.repr random).toList
    ++ ".tmp".toList

/-- A temporary name in the staging directory. -/
def temporary (tmp : PathBuf) (kind : Str) : Fs PathBuf := do
  let value ← random
  let host ← read
  pure (tmp ++ [temporaryName kind host.pid value.val])

def writeLocalFile (tmp root : PathBuf) (manifestPath : Str) (bytes : List Byte)
    (permissions : Option U16) : Fs Unit :=
  withWritableParents root manifestPath true do
    let target ← safeLocalPath root manifestPath true
    clearForFile "unable to inspect shared file " target
    let temp ← temporary tmp "transfer".toList
    orRemove temp do
      context ("unable to stage downloaded file " ++ display temp) (writeFile temp bytes)
      install ("unable to install downloaded file " ++ display target) temp target do
        withWritableCrossDeviceTarget target permissions
          (context ("unable to install downloaded file " ++ display target)
            (writeFile target bytes))
        context ("unable to remove transfer staging file " ++ display temp) (unlink temp)
    setLocalFilePermissions root manifestPath permissions

/-- The operation of `write_local_staged_file`. -/
def stagedOperation (root : PathBuf) (manifestPath : Str) (stagedPath : PathBuf)
    (permissions : Option U16) : Fs Unit := do
  let target ← safeLocalPath root manifestPath true
  clearForFile "unable to inspect shared path " target
  match ← context ("unable to inspect staged file " ++ display stagedPath) (lstat stagedPath) with
  | .file .. => pure ()
  | _ => throw (.bail "staged transfer is not a regular file")
  install ("unable to install staged file " ++ display target) stagedPath target do
    withWritableCrossDeviceTarget target permissions
      (context ("unable to install staged file " ++ display target)
        (copyFile stagedPath target))
    context ("unable to remove staged file " ++ display stagedPath) (unlink stagedPath)
  setLocalFilePermissions root manifestPath permissions

def writeLocalStagedFile (root : PathBuf) (manifestPath : Str) (stagedPath : PathBuf)
    (permissions : Option U16) : Fs Unit :=
  withWritableParents root manifestPath true (stagedOperation root manifestPath stagedPath permissions)

/-- What stands at the target of a link makes way. -/
def clearForSymlink (target : PathBuf) : Fs Unit := do
  match ← lstat target with
  | .ok (.dir _) =>
      context ("unable to replace shared directory " ++ display target) (rmdir target)
  | .ok (.file ..) | .ok (.symlink _) =>
      context ("unable to replace shared path " ++ display target) (unlink target)
  | .ok .special => throw (.bail ("refusing to replace non-file " ++ display target))
  | .error .notFound => pure ()
  | .error kind => throw (.io ("unable to inspect shared path " ++ display target) kind)

def writeLocalSymlink (tmp root : PathBuf) (manifestPath : Str) (target : Str) : Fs Unit := do
  Prog.ofExcept (validateManifestPath manifestPath)
  Prog.ofExcept (Check.rejectIf (target = [] ∨ utf8Len target > 4096 ∨ '\x00' ∈ target)
    (.bail "remote symlink target is invalid"))
  withWritableParents root manifestPath true do
    let localTarget ← safeLocalPath root manifestPath true
    clearForSymlink localTarget
    let temp ← temporary tmp "symlink".toList
    orRemove temp do
      context ("unable to stage symlink target " ++ String.ofList target) (symlink target temp)
      install ("unable to install symlink " ++ display localTarget) temp localTarget do
        let _ ← unlink temp
        context ("unable to install symlink " ++ display localTarget) (symlink target localTarget)

end Syncbox

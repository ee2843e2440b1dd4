/-
# `Unix.Calls` — the system calls

Each call is a program on a `World`: it counts itself, may fail by a fault of the
host, and otherwise resolves its path and acts on the place it finds.  A call
answers with an `Except IoKind`, because programs look at the kind of an error
before they decide whether it is one.

`World.log` lists every node a call created, wrote, removed, changed the mode of or
read, by its location after all links were resolved.  It is a ghost: no call reads
it.
-/
import Syncbox.Lib.Prog
import Syncbox.Lib.Unix.Walk

namespace Unix

open Rust

inductive Access where
  | create
  | write
  | remove
  | chmod
  | read
  deriving DecidableEq

structure World where
  disk : Disk
  /-- How many calls were made. -/
  calls : Nat
  log : List (Access × Loc)

abbrev Log := List (Access × Loc)

/-- What a call does when no fault prevents it. -/
abbrev Core (α : Type) := Host → Nat → Disk → Except IoKind (α × Disk × Log)

section Calls

variable {ε α : Type}

def call (core : Core α) : Prog Host ε World (Except IoKind α) := fun h w =>
  if h.fault w.calls then .ok (.error .other) { w with calls := w.calls + 1 }
  else
    match core h w.calls w.disk with
    | .ok (a, d, log) => .ok (.ok a) ⟨d, w.calls + 1, log ++ w.log⟩
    | .error kind => .ok (.error kind) { w with calls := w.calls + 1 }

/-- A call on the place a path leads to. -/
def callAt (follow : Follow) (path : PathBuf)
    (core : Host → Nat → Disk → Place → Except IoKind (α × Disk × Log)) :
    Prog Host ε World (Except IoKind α) :=
  call fun h n d => resolve h d follow path >>= core h n d

/-! ## Looking -/

/-- The node at a place; a trailing slash asks for a directory. -/
def Disk.nodeAt (d : Disk) (place : Place) : Except IoKind Node :=
  match d.get place.loc, place with
  | none, _ => .error .notFound
  | some node, .entry _ _ true => if node.isDir then .ok node else .error .notADirectory
  | some node, _ => .ok node

/-- `fs::symlink_metadata`. -/
def lstat (path : PathBuf) : Prog Host ε World (Except IoKind Node) :=
  callAt .slash path fun _ _ d place => (d.nodeAt place).map fun node => (node, d, [])

/-- `fs::metadata`. -/
def stat (path : PathBuf) : Prog Host ε World (Except IoKind Node) :=
  callAt .always path fun _ _ d place => (d.nodeAt place).map fun node => (node, d, [])

/-- `fs::canonicalize`. -/
def canonicalize (path : PathBuf) : Prog Host ε World (Except IoKind Loc) :=
  callAt .always path fun _ _ d place => (d.nodeAt place).map fun _ => (place.loc, d, [])

/-- `fs::read_link`. -/
def readLink (path : PathBuf) : Prog Host ε World (Except IoKind Str) :=
  callAt .slash path fun _ _ d place =>
    match d.nodeAt place with
    | .ok (.symlink target) => .ok (target, d, [])
    | .ok _ => .error .invalidInput
    | .error kind => .error kind

/-! ## Directory entries -/

/-- The directory `loc` may be changed. -/
def Disk.writable (d : Disk) (h : Host) (loc : Loc) : Bool :=
  match d.get loc with
  | some (.dir mode) => h.canWrite mode
  | _ => false

/-- Put a new node into a directory. -/
def Disk.create (d : Disk) (h : Host) (parent : Loc) (name : Str) (node : Node) :
    Except IoKind (Unit × Disk × Log) :=
  if d.writable h parent = false then .error .permissionDenied
  else if hp : d.CanPut parent name then
    .ok ((), d.put parent name node hp, [(.create, parent ++ [name])])
  else .error .invalidInput

/-- Take a node out of a directory. -/
def Disk.delete (d : Disk) (parent : Loc) (name : Str) : Except IoKind (Unit × Disk × Log) :=
  if hr : d.CanRemove parent name then
    .ok ((), d.remove parent name hr, [(.remove, parent ++ [name])])
  else .error .directoryNotEmpty

/-- `fs::create_dir`. -/
def mkdir (path : PathBuf) : Prog Host ε World (Except IoKind Unit) :=
  callAt .never path fun h _ d place =>
    match place with
    | .dir _ => .error .alreadyExists
    | .entry parent name _ =>
        match d.get (parent ++ [name]) with
        | some _ => .error .alreadyExists
        | none => d.create h parent name (.dir (0o777 &&& ~~~h.umask))

/-- `Path::is_dir`. -/
def pathIsDir (path : PathBuf) : Prog Host ε World Bool := do
  match ← stat path with
  | .ok node => pure node.isDir
  | .error _ => pure false

/-- A directory that could not be made because there is one. -/
def unlessDir (path : PathBuf) (kind : IoKind) : Prog Host ε World (Except IoKind Unit) := do
  if ← pathIsDir path then pure (.ok ()) else pure (.error kind)

/-- `fs::create_dir_all`. -/
def createDirAll (path : PathBuf) : Prog Host ε World (Except IoKind Unit) := do
  match ← mkdir path with
  | .ok () => pure (.ok ())
  | .error .notFound =>
      if _ : path = [] then pure (.error .notFound)
      else do
        match ← createDirAll path.dropLast with
        | .error kind => pure (.error kind)
        | .ok () =>
            match ← mkdir path with
            | .ok () => pure (.ok ())
            | .error kind => unlessDir path kind
  | .error kind => unlessDir path kind
termination_by path.length
decreasing_by
  have := List.length_pos_iff.mpr ‹path ≠ []›
  rw [List.length_dropLast]
  omega

/-- `std::os::unix::fs::symlink`. -/
def symlink (target : Str) (path : PathBuf) : Prog Host ε World (Except IoKind Unit) :=
  callAt .never path fun h _ d place =>
    match place with
    | .dir _ => .error .alreadyExists
    | .entry parent name slash =>
        match d.get (parent ++ [name]) with
        | some _ => .error .alreadyExists
        | none => if slash then .error .notFound else d.create h parent name (.symlink target)

/-- `fs::remove_file`. -/
def unlink (path : PathBuf) : Prog Host ε World (Except IoKind Unit) :=
  callAt .never path fun h _ d place =>
    match place with
    | .dir _ => .error .isADirectory
    | .entry parent name slash =>
        match d.get (parent ++ [name]) with
        | none => .error .notFound
        | some node =>
            if slash then .error (if node.isDir then .isADirectory else .notADirectory)
            else if d.writable h parent = false then .error .permissionDenied
            else if node.isDir then .error .isADirectory
            else d.delete parent name

/-- `fs::remove_dir`. -/
def rmdir (path : PathBuf) : Prog Host ε World (Except IoKind Unit) :=
  callAt .never path fun h _ d place =>
    match place with
    | .dir _ => .error .invalidInput
    | .entry parent name _ =>
        match d.get (parent ++ [name]) with
        | none => .error .notFound
        | some node =>
            if d.writable h parent = false then .error .permissionDenied
            else if node.isDir = false then .error .notADirectory
            else d.delete parent name

/-- Move a node that is not a directory. -/
def Disk.move (d : Disk) (source : Loc) (sourceName : Str) (target : Loc) (targetName : Str)
    (node : Node) : Except IoKind (Unit × Disk × Log) :=
  if hr : d.CanRemove source sourceName then
    let d' := d.remove source sourceName hr
    if hp : d'.CanPut target targetName then
      .ok ((), d'.put target targetName node hp,
        [(.create, target ++ [targetName]), (.remove, source ++ [sourceName])])
    else .error .isADirectory
  else .error .directoryNotEmpty

/-- `fs::rename` of anything but a directory. -/
def rename (source target : PathBuf) : Prog Host ε World (Except IoKind Unit) :=
  callAt .never source fun h _ d from_ =>
    match from_, resolve h d .never target with
    | _, .error kind => .error kind
    | .entry sp sn sourceSlash, .ok (.entry tp tn targetSlash) =>
        if h.crossDevice then .error .crossesDevices
        else
          match d.get (sp ++ [sn]) with
          | none => .error .notFound
          | some node =>
              if node.isDir then .error .other
              else if sourceSlash || targetSlash then .error .notADirectory
              else if d.writable h sp = false ∨ d.writable h tp = false then
                .error .permissionDenied
              else d.move sp sn tp tn node
    | _, .ok _ => .error .other

/-! ## Modes and contents -/

def Node.withMode (mode : Mode) : Node → Node
  | .file content _ mtime => .file content mode mtime
  | .dir _ => .dir mode
  | node => node

/-- Change a node in place. -/
def Disk.update (d : Disk) (loc : Loc) (node : Node) (access : Access) :
    Except IoKind (Unit × Disk × Log) :=
  if hm : d.CanModify loc node then .ok ((), d.modify loc node hm, [(access, loc)])
  else .error .invalidInput

/-- `fs::set_permissions`. -/
def chmod (path : PathBuf) (mode : Mode) : Prog Host ε World (Except IoKind Unit) :=
  callAt .always path fun _ _ d place => do
    let node ← d.nodeAt place
    d.update place.loc (node.withMode mode) .chmod

/-- `File::open`; an open file is known by its location. -/
def openRead (path : PathBuf) : Prog Host ε World (Except IoKind Loc) :=
  callAt .always path fun h _ d place => do
    match ← d.nodeAt place with
    | .file _ mode _ | .dir mode =>
        if h.canRead mode then .ok (place.loc, d, []) else .error .permissionDenied
    | _ => .ok (place.loc, d, [])

/-- Read an open file to its end. -/
def readAll (file : Loc) : Prog Host ε World (Except IoKind Content) :=
  call fun _ _ d =>
    match d.get file with
    | some (.file content _ _) => .ok (content, d, [(.read, file)])
    | some (.dir _) => .error .isADirectory
    | _ => .error .other

/-- `File::read`: some of the next `wanted` bytes.  There is one at least, unless the file
ends there. -/
def readAt (file : Loc) (position wanted : Nat) : Prog Host ε World (Except IoKind (List Byte)) :=
  call fun h n d =>
    match d.get file with
    | some (.file content _ _) =>
        .ok (((content.val.drop position).take wanted).take (max 1 (h.readable n)), d, [(.read, file)])
    | some (.dir _) => .error .isADirectory
    | _ => .error .other

/-- `File::seek`; the position is the program's to keep. -/
def seek : Prog Host ε World (Except IoKind Unit) := call fun _ _ d => .ok ((), d, [])

/-- `File::metadata`. -/
def fstat (file : Loc) : Prog Host ε World (Except IoKind Node) :=
  call fun _ _ d =>
    match d.get file with
    | some node => .ok (node, d, [])
    | none => .error .other

/-- The contents of a new file. -/
def Content.empty : Content := ⟨[], by decide⟩

/-- Open for writing from the start, creating the file if there is none. -/
def openTruncate (path : PathBuf) (mode : Mode) : Prog Host ε World (Except IoKind Loc) :=
  callAt .always path fun h n d place =>
    match place with
    | .dir _ => .error .isADirectory
    | .entry parent name slash =>
        match d.get (parent ++ [name]) with
        | none =>
            if slash then .error .isADirectory
            else (d.create h parent name (.file .empty (mode &&& ~~~h.umask) (h.clockNs n))).map
              fun (_, d', log) => (parent ++ [name], d', log)
        | some (.file _ old _) =>
            if slash then .error .notADirectory
            else if h.canWrite old = false then .error .permissionDenied
            else (d.update (parent ++ [name]) (.file .empty old (h.clockNs n)) .write).map
              fun (_, d', log) => (parent ++ [name], d', log)
        | some (.dir _) => .error .isADirectory
        | some _ => .error .other

/-- `bytes` at `offset`, over what was there. -/
def overwrite (old : List Byte) (offset : Nat) (bytes : List Byte) : List Byte :=
  old.take offset ++ List.replicate (offset - old.length) 0 ++ bytes
    ++ old.drop (offset + bytes.length)

/-- The contents of an open file become `bytes`. -/
def Disk.rewrite (d : Disk) (file : Loc) (bytes : List Byte) (now : U64) :
    Except IoKind (Unit × Disk × Log) :=
  match d.get file with
  | some (.file _ mode _) =>
      if hlen : bytes.length < 2 ^ 64 then d.update file (.file ⟨bytes, hlen⟩ mode now) .write
      else .error .fileTooLarge
  | _ => .error .other

/-- What an open file holds. -/
def Disk.bytes (d : Disk) (file : Loc) : List Byte :=
  match d.get file with
  | some (.file content _ _) => content.val
  | _ => []

/-- Write all of `bytes` at `offset`.  A write that fails has written some of them. -/
def writeAt (file : Loc) (offset : Nat) (bytes : List Byte) :
    Prog Host ε World (Except IoKind Unit) := fun h w =>
  let put (bytes : List Byte) :=
    w.disk.rewrite file (overwrite (w.disk.bytes file) offset bytes) (h.clockNs w.calls)
  if h.fault w.calls then
    match put (bytes.take (h.written w.calls)) with
    | .ok (_, d, log) => .ok (.error .other) ⟨d, w.calls + 1, log ++ w.log⟩
    | .error _ => .ok (.error .other) { w with calls := w.calls + 1 }
  else
    match put bytes with
    | .ok (_, d, log) => .ok (.ok ()) ⟨d, w.calls + 1, log ++ w.log⟩
    | .error kind => .ok (.error kind) { w with calls := w.calls + 1 }

/-- `File::set_len`. -/
def setLen (file : Loc) (len : Nat) : Prog Host ε World (Except IoKind Unit) :=
  call fun h n d =>
    let old := d.bytes file
    d.rewrite file (old.take len ++ List.replicate (len - old.length) 0) (h.clockNs n)

/-- `File::set_permissions`. -/
def fchmod (file : Loc) (mode : Mode) : Prog Host ε World (Except IoKind Unit) :=
  call fun _ _ d =>
    match d.get file with
    | some node => d.update file (node.withMode mode) .chmod
    | none => .error .other

/-- Open for reading and writing: an existing file, or a new one and only a new one. -/
def openReadWrite (path : PathBuf) (createNew : Bool) : Prog Host ε World (Except IoKind Loc) :=
  callAt (if createNew then .never else .always) path fun h n d place =>
    if createNew then
      match place with
      | .dir _ => .error .alreadyExists
      | .entry parent name slash =>
          match d.get (parent ++ [name]) with
          | some _ => .error .alreadyExists
          | none =>
              if slash then .error .isADirectory
              else (d.create h parent name
                (.file .empty (0o666 &&& ~~~h.umask) (h.clockNs n))).map
                  fun (_, d', log) => (parent ++ [name], d', log)
    else
      match d.nodeAt place with
      | .ok (.file _ mode _) =>
          if h.canRead mode && h.canWrite mode then .ok (place.loc, d, [])
          else .error .permissionDenied
      | .ok (.dir _) => .error .isADirectory
      | .ok _ => .error .other
      | .error kind => .error kind

/-- `File::sync_all`. -/
def syncAll : Prog Host ε World (Except IoKind Unit) := call fun _ _ d => .ok ((), d, [])

/-- A walk may pass the node: a directory can be listed and entered. -/
def Host.canList (h : Host) : Node → Bool
  | .dir mode => h.canRead mode && h.canSearch mode
  | _ => true

/-- Every node below a directory, without following links, in the order of `walkdir`.
Directories that cannot be listed or entered end the walk with an error. -/
def walkDir (path : PathBuf) : Prog Host ε World (Except IoKind (List (List Str × Node))) :=
  callAt .always path fun h _ d place =>
    match d.nodeAt place with
    | .error kind => .error kind
    | .ok node =>
        if h.canList node ∧ ∀ entry ∈ d.below place.loc, h.canList entry.2 = true then
          .ok (h.walkOrder (d.below place.loc), d, [])
        else .error .permissionDenied

/-- `SystemTime::now`, in milliseconds. -/
def currentTimeMs : Prog Host ε World U64 := fun h w =>
  .ok (h.clockMs w.calls) { w with calls := w.calls + 1 }

/-- `rand::rng().random::<u64>()`. -/
def random : Prog Host ε World U64 := fun h w =>
  .ok (h.random w.calls) { w with calls := w.calls + 1 }

end Calls

end Unix

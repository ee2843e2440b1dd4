/-
# `Syncbox.Network.Chunk` — files as a stream of chunks

`src/chunk/mod.rs`, and `send_file_chunks_from_root`, `ensure_partial_file`,
`verify_partial` and `receive_file_chunks` of `src/network/transfer.rs`.

A file is sent from its offset on, in chunks whose header repeats the index of the file and
the offset.  Neither side says how long a chunk will be: the sender sends what a read gave
it.  `Frames` says which streams are a file cut into chunks, and `Streams` which are a list
of files; both sides are measured against them.  A stream determines what it carries
(`Frames.unique`), so the receiver needs to know no more than the sizes.

Left out are the buffers of the receiver, whose contents are never read again; the buffer of
the sender is its length, which bounds what is read at once.
-/
import Syncbox.Lib.Cursor
import Syncbox.Network.Transfer
import Syncbox.Lib.Unix.Files

namespace Syncbox

open Rust Unix Encode Check

/-! ## One end of a connection -/

/-- A device, what will arrive on the stream, and what was sent. -/
structure Link where
  world : World
  recv : List Byte
  sent : List Byte

/-- A program on one end of a connection. -/
abbrev Net := Prog Host Error Link

/-- A program on the file system of the device. -/
def locally {α : Type} (m : Fs α) : Net α := Prog.zoom Link.world (fun l w => { l with world := w }) m

/-- `AsyncWriteExt::write_all`.  A write that fails has written some of the bytes. -/
def writeAll (text : String) (bytes : List Byte) : Net Unit := fun h l =>
  let world := { l.world with calls := l.world.calls + 1 }
  if h.fault l.world.calls then
    .error (.io text .other) { l with
      world, sent := l.sent ++ bytes.take (h.written l.world.calls) }
  else .ok () { l with world, sent := l.sent ++ bytes }

/-- `AsyncReadExt::read_exact`. -/
def readExact (text : String) (count : Nat) : Net (Cursor.Field Byte count) := fun h l =>
  let l' := { l with
    world := { l.world with calls := l.world.calls + 1 }, recv := l.recv.drop count }
  if hshort : h.fault l.world.calls = true ∨ l.recv.length < count then .error (.io text .other) l'
  else .ok ⟨l.recv.take count, by rw [List.length_take]; omega⟩ l'

/-! ## Chunks -/

def MAX_CHUNK_BYTES : Nat := 1024 * 1024

/-- The header of a chunk. -/
def chunkHeader (fileIndex : U32) (offset length : Nat) : List Byte :=
  toBe 4 fileIndex ++ toBe 8 offset ++ toBe 4 length

def writeChunk (fileIndex : U32) (offset : Nat) (data : List Byte) : Net Unit := do
  Prog.ofExcept (rejectIf (data = [] ∨ data.length > MAX_CHUNK_BYTES)
    (.bail "chunk frame has an invalid payload length"))
  writeAll "unable to write chunk header" (chunkHeader fileIndex offset data.length)
  writeAll "unable to write chunk payload" data

/-- `read_chunk`; the answer is what it put into the buffer, which is never empty. -/
def readChunk (fileIndex : U32) (offset remaining : Nat) : Net {data : List Byte // data ≠ []} := do
  let header ← readExact "unable to read chunk header" 16
  Prog.ofExcept (rejectIf
    (header.val.take 4 ≠ toBe 4 fileIndex ∨ (header.val.drop 4).take 8 ≠ toBe 8 offset)
    (.bail "chunk frame does not match the requested transfer"))
  let length := ofBe (header.val.drop 12)
  if hbad : length = 0 ∨ length > remaining ∨ length > MAX_CHUNK_BYTES then
    throw (.bail "chunk frame has an invalid payload length")
  else do
    let data ← readExact "unable to read chunk payload" length
    pure ⟨data.val, fun hnil => hbad (.inl (by rw [← data.property, hnil, List.length_nil]))⟩

/-- `u32::try_from(file_index)`. -/
def toFileIndex (i : Nat) : Except Error U32 :=
  if hi : i < 2 ^ 32 then .ok ⟨i, hi⟩ else .error (.bail "transfer file index overflow")

/-- A file is opened at its start; the offset is sought where it is another. -/
def seekTo (text : String) (offset : U64) : Net Unit :=
  Prog.when (offset ≠ 0) (locally (context text seek))

/-! ## Sending -/

/-- The loop over the chunks of a file.  What is read at once is bounded by the buffer. -/
def sendChunks (target : PathBuf) (source : Loc) (fileIndex : U32) (size buffer offset : Nat) :
    Net Unit :=
  if _ : offset < size then do
    let wanted := min (size - offset) buffer
    let piece ← locally (context ("unable to read shared file " ++ display target)
      (readAt source offset wanted))
    if _ : piece = [] then
      throw (.bail ("shared file ended during chunk transfer: " ++ display target))
    else do
      writeChunk fileIndex offset piece
      sendChunks target source fileIndex size buffer (offset + piece.length)
  else pure ()
termination_by size - offset
decreasing_by
  have := List.length_pos_iff.mpr ‹piece ≠ []›
  omega

/-- One file; the answer is the new length of the buffer, which never shrinks. -/
def sendFile (root : PathBuf) (i : Nat) (buffer : Nat) (file : TransferFile) : Net Nat := do
  let fileIndex ← Prog.ofExcept (toFileIndex i)
  let target ← locally (safeLocalPath root file.path false)
  let metadata ← locally (context ("unable to inspect shared file " ++ display target) (lstat target))
  Prog.ofExcept (rejectIf
    (metadata.isFile = false ∨ metadata.isSymlink = true ∨ metadata.len ≠ file.size)
    (.bail ("shared file changed before chunk transfer: " ++ display target)))
  let source ← locally (context ("unable to open shared file " ++ display target) (openRead target))
  seekTo ("unable to seek shared file " ++ display target) file.offset
  let buffer := max buffer (min (file.size.val - file.offset.val) MAX_CHUNK_BYTES)
  sendChunks target source fileIndex file.size buffer file.offset
  let after ← locally (context ("unable to inspect shared file " ++ display target) (lstat target))
  Prog.ofExcept (rejectIf (after.isFile = false ∨ after.len ≠ file.size)
    (.bail ("shared file changed during chunk transfer: " ++ display target)))
  pure buffer

/-- The loop over the files, from the `i`-th on. -/
def sendFiles (root : PathBuf) : Nat → Nat → List TransferFile → Net Unit
  | _, _, [] => pure ()
  | i, buffer, file :: files => do
      let buffer ← sendFile root i buffer file
      sendFiles root (i + 1) buffer files

/-- `send_file_chunks_from_root`, of the directory the share is registered with. -/
def sendFileChunksFromRoot (directory : PathBuf) (files : List TransferFile) : Net Unit := do
  let root ← locally (directoryRoot directory)
  sendFiles root 0 0 files

/-! ## Receiving -/

/-- The open of `ensure_partial_file`: a missing directory is made, and the open repeated. -/
def openPartial (path : PathBuf) (createNew : Bool) : Fs Loc :=
  context ("unable to open transfer partial " ++ display path) do
    match ← openReadWrite path createNew with
    | .error .notFound =>
        if createNew then do
          context ("unable to create transfer state " ++ display path.dropLast)
            (createDirAll path.dropLast)
          openReadWrite path createNew
        else pure (.error .notFound)
    | result => pure result

/-- The length of a partial file that is there. -/
def previousLength (path : PathBuf) : Fs (Option U64) := do
  match ← lstat path with
  | .ok (.file content _ _) => pure (some content.len)
  | .ok _ => throw (.bail "transfer partial path is not a regular file")
  | .error .notFound => pure none
  | .error kind => throw (.io ("unable to inspect transfer partial " ++ display path) kind)

def ensurePartialFile (path : PathBuf) (offset : U64) : Fs Loc := do
  let previous ← previousLength path
  let file ← openPartial path previous.isNone
  Prog.when (previous.getD 0 ≠ offset)
    (context ("unable to resize transfer partial " ++ display path) (setLen file offset))
  pure file

/-- The loop over the chunks of a file. -/
def receiveChunks (path : PathBuf) (destination : Loc) (fileIndex : U32) (size offset : Nat) :
    Net Unit :=
  if _ : offset < size then do
    let data ← readChunk fileIndex offset (size - offset)
    locally (context ("unable to write transfer partial " ++ display path)
      (writeAt destination offset data.val))
    receiveChunks path destination fileIndex size (offset + data.val.length)
  else pure ()
termination_by size - offset
decreasing_by
  have := List.length_pos_iff.mpr data.property
  omega

structure CompletedFile where
  file : TransferFile
  stagedPath : PathBuf

section Receive

variable [Crypto]

def verifyPartial (path : PathBuf) (file : TransferFile) : Fs Unit := do
  let metadata ← context ("unable to inspect transfer partial " ++ display path) (lstat path)
  Prog.ofExcept (rejectIf (metadata.isFile = false ∨ metadata.len ≠ file.size)
    (.bail "transfer partial has an invalid size"))
  let source ← context ("unable to open transfer partial " ++ display path) (openRead path)
  let content ← context ("unable to read transfer partial " ++ display path) (readAll source)
  Prog.when (sha256Hex content.val ≠ file.sha256) do
    context ("transfer partial hash does not match its manifest for " ++ String.ofList file.path
      ++ "; unable to remove invalid transfer partial") (unlink path)
    throw (.bail ("transfer partial hash does not match its manifest for "
      ++ String.ofList file.path))

def receiveFile (tmp : PathBuf) (i : Nat) (file : TransferFile) : Net CompletedFile := do
  let fileIndex ← Prog.ofExcept (toFileIndex i)
  let path := partialPath tmp file.path file.sha256
  let destination ← locally (within ("unable to prepare transfer for " ++ String.ofList file.path)
    (ensurePartialFile path file.offset))
  seekTo ("unable to seek transfer partial " ++ display path) file.offset
  receiveChunks path destination fileIndex file.size file.offset
  locally (context ("unable to flush transfer partial " ++ display path) syncAll)
  locally (verifyPartial path file)
  pure ⟨file, path⟩

/-- The loop over the files, from the `i`-th on. -/
def receiveFiles (tmp : PathBuf) : Nat → List TransferFile → Net (List CompletedFile)
  | _, [] => pure []
  | i, file :: files => do
      let completed ← receiveFile tmp i file
      let rest ← receiveFiles tmp (i + 1) files
      pure (completed :: rest)

def receiveFileChunks (tmp : PathBuf) (files : List TransferFile) : Net (List CompletedFile) := do
  Prog.ofExcept (validateTransferFileShapes files)
  receiveFiles tmp 0 files

end Receive

/-! ## Streams -/

/-- The stream is the data, cut into chunks of the file that start at the offset. -/
inductive Frames (fileIndex : U32) : Nat → List Byte → List Byte → Prop
  | done (offset : Nat) : Frames fileIndex offset [] []
  | chunk {offset : Nat} {piece data stream : List Byte} (hne : piece ≠ [])
      (hle : piece.length ≤ MAX_CHUNK_BYTES) (hrest : Frames fileIndex (offset + piece.length) data stream) :
      Frames fileIndex offset (piece ++ data)
        (chunkHeader fileIndex offset piece.length ++ piece ++ stream)

/-- The stream is the files with these contents, each from its offset on. -/
inductive Streams : Nat → List TransferFile → List Content → List Byte → Prop
  | nil (i : Nat) : Streams i [] [] []
  | cons {i : Nat} {fileIndex : U32} {file : TransferFile} {content : Content}
      {files : List TransferFile} {contents : List Content} {frames stream : List Byte}
      (hindex : toFileIndex i = .ok fileIndex)
      (hframes : Frames fileIndex file.offset (content.val.drop file.offset) frames)
      (hrest : Streams (i + 1) files contents stream) :
      Streams i (file :: files) (content :: contents) (frames ++ stream)

@[simp] theorem length_chunkHeader (fileIndex : U32) (offset length : Nat) :
    (chunkHeader fileIndex offset length).length = 16 := by
  simp [chunkHeader]

theorem eq_chunkHeader_iff {header : Cursor.Field Byte 16} {fileIndex : U32} {offset length : Nat}
    (hlength : length < 256 ^ 4) : header.val = chunkHeader fileIndex offset length ↔
      header.val.take 4 = toBe 4 fileIndex ∧ (header.val.drop 4).take 8 = toBe 8 offset
        ∧ ofBe (header.val.drop 12) = length := by
  constructor
  · intro heq
    have hdrop : header.val.drop 12 = toBe 4 length := by
      rw [heq, chunkHeader]
      exact List.drop_left' (by simp)
    refine ⟨?_, ?_, by rw [hdrop, ofBe_toBe hlength]⟩ <;> simp [heq, chunkHeader]
  · rintro ⟨hindex, hoffset, rfl⟩
    have hlast : toBe 4 (ofBe (header.val.drop 12)) = header.val.drop 12 :=
      toBe_ofBe_field ⟨header.val.drop 12, by rw [List.length_drop, header.property]⟩
    calc header.val
        = header.val.take 4 ++ ((header.val.drop 4).take 8 ++ (header.val.drop 4).drop 8) := by
          rw [List.take_append_drop, List.take_append_drop]
      _ = chunkHeader fileIndex offset (ofBe (header.val.drop 12)) := by
          rw [hindex, hoffset, List.drop_drop, chunkHeader, hlast, List.append_assoc]

/-- What has arrived begins with a chunk of the file at the offset. -/
def Chunked (fileIndex : U32) (offset remaining : Nat) (recv piece rest : List Byte) : Prop :=
  recv = chunkHeader fileIndex offset piece.length ++ piece ++ rest ∧ piece ≠ []
    ∧ piece.length ≤ remaining ∧ piece.length ≤ MAX_CHUNK_BYTES

theorem Chunked.unique {fileIndex : U32} {offset remaining remaining' : Nat}
    {recv piece piece' rest rest' : List Byte} (hc : Chunked fileIndex offset remaining recv piece rest)
    (hc' : Chunked fileIndex offset remaining' recv piece' rest') : piece = piece' ∧ rest = rest' := by
  have hmax : MAX_CHUNK_BYTES < 256 ^ 4 := by decide
  have heq := hc.1.symm.trans hc'.1
  simp only [List.append_assoc] at heq
  obtain ⟨hheader, hpayload⟩ := List.append_inj heq (by simp)
  have hlength : piece.length = piece'.length := by
    have := congrArg ofBe (List.append_inj_right hheader (by simp))
    rwa [ofBe_toBe (lt_of_le_of_lt hc.2.2.2 hmax), ofBe_toBe (lt_of_le_of_lt hc'.2.2.2 hmax)] at this
  exact List.append_inj hpayload hlength

/-- A stream determines the data it starts with, once their length is known. -/
theorem Frames.unique {fileIndex : U32} {offset : Nat} {data stream : List Byte}
    (hf : Frames fileIndex offset data stream) :
    ∀ {data' stream' rest rest' : List Byte}, Frames fileIndex offset data' stream' →
      data.length = data'.length → stream ++ rest = stream' ++ rest' →
      data = data' ∧ stream = stream' ∧ rest = rest' := by
  induction hf with
  | done offset =>
      intro data' stream' rest rest' hf' hlen heq
      cases hf' with
      | done => exact ⟨rfl, rfl, heq⟩
      | chunk hne _ _ =>
          have hpos := List.length_pos_iff.mpr hne
          rw [List.length_append, List.length_nil] at hlen
          omega
  | @chunk offset piece data stream hne hle _ ih =>
      intro data' stream' rest rest' hf' hlen heq
      cases hf' with
      | done =>
          have hpos := List.length_pos_iff.mpr hne
          rw [List.length_append, List.length_nil] at hlen
          omega
      | @chunk _ piece' data' stream' hne' hle' hrest' =>
          rw [List.append_assoc _ stream, List.append_assoc _ stream'] at heq
          have hc : Chunked fileIndex offset piece.length _ piece (stream ++ rest) :=
            ⟨rfl, hne, le_rfl, hle⟩
          have hc' : Chunked fileIndex offset piece'.length _ piece' (stream' ++ rest') :=
            ⟨heq, hne', le_rfl, hle'⟩
          obtain ⟨rfl, hrest⟩ := hc.unique hc'
          rw [List.length_append, List.length_append] at hlen
          obtain ⟨rfl, rfl, rfl⟩ := ih hrest' (by omega) hrest
          exact ⟨rfl, rfl, rfl⟩

end Syncbox

/-
# `Syncbox.Network.Send` — the sending side of a transfer

A sender that can read the files produces a stream of them, whatever pieces its reads come
in (`sendFileChunksFromRoot_spec`).  The file that is opened is the one that was looked at:
`Serves` says that the path leads to it, through directories.

The error side of a rule says what was not given: a step fails only for lack of one of the
conditions under which it is promised to succeed.
-/
import Syncbox.Network.Chunk

namespace Syncbox

open Rust Unix Encode Prog

/-! ## The connection -/

section Connection

variable {h : Host} {l : Link} {text : String}

@[simp] theorem wp_locally {α : Type} (m : Fs α) (h : Host) (l : Link) (Q : α → Link → Prop)
    (E : Error → Link → Prop) : (locally m).wp h l Q E ↔
      m.wp h l.world (fun a w => Q a { l with world := w }) fun e w => E e { l with world := w } :=
  wp_zoom ..

theorem writeAll_spec {bytes : List Byte} (hno : ∀ n, h.fault n = false) :
    (writeAll text bytes).wp h l (fun _ l' => l'.world.disk = l.world.disk
      ∧ l'.sent = l.sent ++ bytes) fun _ _ => False := by
  unfold Prog.wp writeAll
  rw [hno]
  exact ⟨rfl, rfl⟩

theorem readExact_spec {count : Nat} : (readExact text count).wp h l
    (fun part l' => l'.world.disk = l.world.disk ∧ l.recv = part.val ++ l'.recv)
    fun _ _ => ¬ ((∀ n, h.fault n = false) ∧ count ≤ l.recv.length) := by
  unfold Prog.wp readExact
  by_cases hshort : h.fault l.world.calls = true ∨ l.recv.length < count
  · simp only [dif_pos hshort]
    rintro ⟨hno, hle⟩
    rcases hshort with hfault | hlt
    · rw [hno] at hfault
      cases hfault
    · omega
  · simp only [dif_neg hshort]
    exact ⟨trivial, (List.take_append_drop count l.recv).symm⟩

theorem seekTo_spec {offset : U64} : (seekTo text offset).wp h l
    (fun _ l' => l'.world.disk = l.world.disk ∧ l'.recv = l.recv ∧ l'.sent = l.sent)
    fun _ _ => ¬ ∀ n, h.fault n = false := by
  refine wp_when (fun _ => ?_) fun _ => ⟨rfl, rfl, rfl⟩
  rw [wp_locally, wp_context]
  refine wp_conseq seek_spec fun r w ⟨hsame, hr⟩ => ?_
  rcases hr with rfl | ⟨kind, rfl, hfault⟩
  · exact ⟨hsame.disk, rfl, rfl⟩
  · exact hfault

theorem writeChunk_spec {fileIndex : U32} {offset : Nat} {data : List Byte}
    (hno : ∀ n, h.fault n = false) (hne : data ≠ []) (hle : data.length ≤ MAX_CHUNK_BYTES) :
    (writeChunk fileIndex offset data).wp h l (fun _ l' => l'.world.disk = l.world.disk
      ∧ l'.sent = l.sent ++ chunkHeader fileIndex offset data.length ++ data)
      fun _ _ => False := by
  unfold writeChunk
  rw [wp_bind]
  refine wp_rejectIf (fun hbad => ?_) fun _ => ?_
  · rcases hbad with hnil | hlong
    · exact hne hnil
    · omega
  refine wp_then (writeAll_spec hno) fun _ l₁ ⟨hdisk, hsent⟩ => ?_
  refine wp_conseq (writeAll_spec hno) fun _ l₂ ⟨hdisk', hsent'⟩ => ?_
  exact ⟨hdisk'.trans hdisk, by rw [hsent', hsent]⟩

/-- Nothing is taken for a chunk but a chunk of the file at the offset. -/
theorem readChunk_spec {fileIndex : U32} {offset remaining : Nat} :
    (readChunk fileIndex offset remaining).wp h l
      (fun data l' => l'.world.disk = l.world.disk
        ∧ Chunked fileIndex offset remaining l.recv data.val l'.recv)
      fun _ _ => ¬ ((∀ n, h.fault n = false)
        ∧ ∃ piece rest, Chunked fileIndex offset remaining l.recv piece rest) := by
  have hmax : MAX_CHUNK_BYTES < 256 ^ 4 := by decide
  unfold readChunk
  refine wp_seq readExact_spec ?_ ?_
  · intro header l₁ ⟨hdisk, hrecv⟩
    -- what a chunk would say about the header
    have hgiven : ∀ {piece rest}, Chunked fileIndex offset remaining l.recv piece rest →
        header.val = chunkHeader fileIndex offset piece.length ∧ l₁.recv = piece ++ rest := by
      intro piece rest hc
      rw [hc.1, List.append_assoc] at hrecv
      obtain ⟨h₁, h₂⟩ := List.append_inj hrecv (by rw [length_chunkHeader, header.property])
      exact ⟨h₁.symm, h₂.symm⟩
    have hfields : ∀ {piece rest}, Chunked fileIndex offset remaining l.recv piece rest → _ :=
      fun hc => (eq_chunkHeader_iff (lt_of_le_of_lt hc.2.2.2 hmax)).mp (hgiven hc).1
    rw [wp_bind]
    refine wp_rejectIf ?_ fun hmatch => ?_
    · rintro hbad ⟨-, piece, rest, hc⟩
      obtain ⟨hindex, hoffset, -⟩ := hfields hc
      exact hbad.elim (fun hne => hne hindex) fun hne => hne hoffset
    obtain ⟨hindex, hoffset⟩ := not_or.mp hmatch
    rw [Decidable.not_not] at hindex hoffset
    dsimp only
    split
    · rename_i hbad
      rintro ⟨-, piece, rest, hc⟩
      have hpos := List.length_pos_iff.mpr hc.2.1
      have hlen := (hfields hc).2.2
      have := hc.2.2
      omega
    · rename_i hgood
      refine wp_seq readExact_spec ?_ ?_
      · intro data l₂ ⟨hdisk', hrecv'⟩
        have hlen := data.property
        have hheader := (eq_chunkHeader_iff (by omega)).mpr ⟨hindex, hoffset, hlen.symm⟩
        have hsplit : l.recv = header.val ++ data.val ++ l₂.recv := by
          rw [hrecv, hrecv', List.append_assoc]
        refine ⟨hdisk'.trans hdisk, hsplit.trans (congrArg (· ++ data.val ++ l₂.recv) hheader), ?_⟩
        show data.val ≠ [] ∧ data.val.length ≤ remaining ∧ data.val.length ≤ MAX_CHUNK_BYTES
        refine ⟨fun hnil => hgood (.inl ?_), by omega⟩
        rw [← hlen, hnil, List.length_nil]
      · rintro e l' hshort ⟨hno, piece, rest, hc⟩
        refine hshort ⟨hno, ?_⟩
        rw [(hfields hc).2.2, (hgiven hc).2, List.length_append]
        omega
  · rintro e l' hshort ⟨hno, piece, rest, hc⟩
    refine hshort ⟨hno, ?_⟩
    rw [hc.1, List.length_append, List.length_append, length_chunkHeader]
    omega

end Connection

/-! ## Sending -/

/-- A readable file with these contents stands at the path of the file below the root. -/
structure Serves (h : Host) (d : Disk) (root : PathBuf) (file : TransferFile) (content : Content) :
    Prop where
  parents : ∀ {init}, init ≠ [] → init <+: (split file.path).dropLast →
    ∃ mode, Leads h d .slash (root ++ init) (.dir mode)
  target : ∃ m t, Leads h d .slash (root ++ split file.path) (.file content m t)
    ∧ Leads h d .always (root ++ split file.path) (.file content m t) ∧ h.canRead m = true

section Send

variable {h : Host} {w : World} {l : Link} {root path : PathBuf} {file : TransferFile}
  {content : Content}

theorem safeParent_spec {component : Str} {parent : PathBuf} {mode : Mode}
    (hno : ∀ n, h.fault n = false) (hleads : Leads h w.disk .slash (parent ++ [component]) (.dir mode)) :
    (safeParent false parent component).wp h w
      (fun path w' => path = parent ++ [component] ∧ w'.disk = w.disk) fun _ _ => False := by
  unfold safeParent
  refine wp_then (lstat_leads hno hleads) fun r w' ⟨hr, hdisk⟩ => ?_
  subst hr
  exact ⟨rfl, hdisk⟩

theorem safeLocalPath_serves (hno : ∀ n, h.fault n = false) (hpath : Accepted file.path)
    (hserves : Serves h w.disk root file content) :
    (safeLocalPath root file.path false).wp h w
      (fun path w' => path = root ++ split file.path ∧ w'.disk = w.disk) fun _ _ => False := by
  have hok : pathForManifest root file.path = .ok (root ++ split file.path) := by
    rw [pathForManifest, validateManifestPath_eq_ok.mpr hpath]
    rfl
  unfold safeLocalPath
  rw [hok, wp_bind, wp_ofExcept_ok, wp_bind]
  refine wp_conseq (wp_foldlM (I := fun done parent w' => parent = root ++ done
      ∧ w'.disk = w.disk) _ [] root w ⟨by simp, rfl⟩ ?_) fun _ w' ⟨_, hdisk⟩ => ⟨rfl, hdisk⟩
  rintro done component rest parent w' hsplit ⟨rfl, hdisk⟩
  have hinit : done ++ [component] <+: (split file.path).dropLast :=
    ⟨rest, by rw [List.append_assoc, List.singleton_append, ← hsplit, List.nil_append]⟩
  obtain ⟨mode, hleads⟩ := hserves.parents (by simp) hinit
  rw [← List.append_assoc, ← hdisk] at hleads
  refine wp_conseq (safeParent_spec hno hleads) fun path w'' ⟨hp, hdisk'⟩ => ?_
  exact ⟨by rw [hp, List.append_assoc], hdisk'.trans hdisk⟩

theorem sendChunks_spec {target : PathBuf} {source : Loc} {fileIndex : U32} {buffer : Nat}
    {m : Mode} {t : U64} (hno : ∀ n, h.fault n = false) (hmax : buffer ≤ MAX_CHUNK_BYTES)
    {offset : Nat} :
    ∀ {l : Link}, (offset < content.val.length → 0 < buffer) →
      l.world.disk.get source = some (.file content m t) →
      (sendChunks target source fileIndex content.val.length buffer offset).wp h l
        (fun _ l' => l'.world.disk = l.world.disk ∧ ∃ stream, l'.sent = l.sent ++ stream
          ∧ Frames fileIndex offset (content.val.drop offset) stream) fun _ _ => False := by
  induction hn : content.val.length - offset using Nat.strong_induction_on generalizing offset with
  | h n ih =>
      intro l hbuffer hget
      unfold sendChunks
      split
      · rename_i hlt
        have hwanted : min (content.val.length - offset) buffer ≠ 0 :=
          Nat.ne_of_gt (lt_min (Nat.sub_pos_of_lt hlt) (hbuffer hlt))
        dsimp only
        rw [wp_bind, wp_locally, wp_context]
        refine wp_conseq readAt_spec fun r w₁ ⟨hdisk, hr⟩ => ?_
        rcases hr with ⟨c, m', t', piece, rfl, hget', hpiece, hsome⟩ | ⟨kind, rfl, hnot⟩
        · rw [hget] at hget'
          cases hget'
          have hne : piece ≠ [] := hsome hwanted hlt
          have hlen : piece.length ≤ buffer :=
            (hpiece.length_le.trans (List.length_take_le _ _)).trans (min_le_right _ _)
          obtain ⟨rest, hrest⟩ := hpiece.trans (List.take_prefix _ _)
          have hdrop : content.val.drop (offset + piece.length) = rest := by
            rw [← List.drop_drop, ← hrest, List.drop_left]
          have hless : content.val.length - (offset + piece.length) < n :=
            hn ▸ Nat.sub_lt_sub_left hlt (Nat.lt_add_of_pos_right (List.length_pos_iff.mpr hne))
          dsimp only
          rw [dif_neg hne, wp_bind]
          refine wp_conseq (writeChunk_spec hno hne (hlen.trans hmax))
            fun _ l₂ ⟨hdisk₂, hsent₂⟩ => ?_
          have hsame : l₂.world.disk = l.world.disk := hdisk₂.trans hdisk
          refine wp_conseq (ih _ hless rfl (fun _ => hbuffer hlt) (hsame ▸ hget))
            fun _ l₃ ⟨hdisk₃, stream, hsent₃, hframes⟩ => ?_
          refine ⟨hdisk₃.trans hsame, chunkHeader fileIndex offset piece.length ++ piece ++ stream,
            ?_, ?_⟩
          · rw [hsent₃, hsent₂]
            simp only [List.append_assoc]
          · rw [← hrest]
            exact .chunk hne (hlen.trans hmax) (hdrop ▸ hframes)
        · exact absurd ⟨hno, _, _, _, hget⟩ hnot
      · rename_i hge
        refine ⟨rfl, [], (List.append_nil _).symm, ?_⟩
        rw [List.drop_of_length_le (by omega)]
        exact .done offset

theorem sendFile_spec {i buffer : Nat} {fileIndex : U32} (hno : ∀ n, h.fault n = false)
    (hindex : toFileIndex i = .ok fileIndex) (hshaped : file.Shaped) (hsize : content.len = file.size)
    (hmax : buffer ≤ MAX_CHUNK_BYTES) (hserves : Serves h l.world.disk root file content) :
    (sendFile root i buffer file).wp h l (fun buffer' l' => buffer' ≤ MAX_CHUNK_BYTES
      ∧ l'.world.disk = l.world.disk ∧ ∃ stream, l'.sent = l.sent ++ stream
        ∧ Frames fileIndex file.offset (content.val.drop file.offset) stream) fun _ _ => False := by
  obtain ⟨m, t, hlooks, hopens, hread⟩ := hserves.target
  have hlength : file.size.val = content.val.length := by rw [← hsize]; rfl
  unfold sendFile
  rw [hindex, wp_bind, wp_ofExcept_ok, wp_bind, wp_locally]
  refine wp_mono (safeLocalPath_serves hno hshaped.path hserves) ?_ fun _ _ hf => hf
  rintro target w₁ ⟨rfl, hdisk₁⟩
  rw [wp_bind, wp_locally, wp_context]
  refine wp_conseq (lstat_leads hno (hdisk₁ ▸ hlooks)) ?_
  rintro _ w₂ ⟨rfl, hdisk₂⟩
  replace hdisk₂ := hdisk₂.trans hdisk₁
  dsimp only
  rw [wp_bind]
  refine wp_rejectIf (fun hbad => ?_) fun _ => ?_
  · simp [Node.isFile, Node.isSymlink, Node.len, hsize] at hbad
  rw [wp_bind, wp_locally, wp_context]
  refine wp_conseq (openRead_leads hno (hdisk₂ ▸ hopens) hread) ?_
  rintro _ w₃ ⟨hdisk₃, source, rfl, hsource⟩
  replace hdisk₃ := hdisk₃.trans hdisk₂
  dsimp only at hsource ⊢
  rw [hdisk₂] at hsource
  refine wp_seq seekTo_spec ?_ fun _ _ hfault => hfault hno
  rintro _ l₄ ⟨hdisk₄, -, hsent₄⟩
  replace hdisk₄ := hdisk₄.trans hdisk₃
  have hlarge : max buffer (min (file.size.val - file.offset.val) MAX_CHUNK_BYTES)
      ≤ MAX_CHUNK_BYTES := max_le hmax (min_le_right _ _)
  rw [wp_bind, hlength]
  refine wp_mono (sendChunks_spec hno (hlength ▸ hlarge) (fun hlt => ?_) (hdisk₄ ▸ hsource))
    ?_ fun _ _ hf => hf
  · exact lt_max_of_lt_right (lt_min (Nat.sub_pos_of_lt hlt) (by decide))
  rintro _ l₅ ⟨hdisk₅, stream, hsent₅, hframes⟩
  replace hdisk₅ := hdisk₅.trans hdisk₄
  rw [wp_bind, wp_locally, wp_context]
  refine wp_conseq (lstat_leads hno (hdisk₅ ▸ hlooks)) ?_
  rintro _ w₆ ⟨rfl, hdisk₆⟩
  dsimp only
  rw [wp_bind]
  refine wp_rejectIf (fun hbad => ?_) fun _ => ?_
  · simp [Node.isFile, Node.len, hsize] at hbad
  · exact ⟨hlength ▸ hlarge, hdisk₆.trans hdisk₅, stream, hsent₅.trans (by rw [hsent₄]), hframes⟩

theorem sendFiles_spec (hno : ∀ n, h.fault n = false) : ∀ {files : List TransferFile}
    {contents : List Content} {i buffer : Nat} {l : Link}, (∀ file ∈ files, file.Shaped) →
    i + files.length ≤ MAX_TRANSFER_FILES → buffer ≤ MAX_CHUNK_BYTES →
    List.Forall₂ (fun file content => content.len = file.size) files contents →
    List.Forall₂ (Serves h l.world.disk root) files contents →
    (sendFiles root i buffer files).wp h l (fun _ l' => l'.world.disk = l.world.disk
      ∧ ∃ stream, l'.sent = l.sent ++ stream ∧ Streams i files contents stream)
      fun _ _ => False := by
  intro files
  induction files with
  | nil =>
      intro contents i buffer l _ _ _ _ hserves
      cases hserves
      exact ⟨rfl, [], (List.append_nil _).symm, .nil i⟩
  | cons file files ih =>
      intro contents i buffer l hshaped hcount hbuffer hsizes hserves
      cases hserves with
      | @cons _ content _ contents hfile hfiles =>
          have hlt : i < 2 ^ 32 := by
            rw [List.length_cons] at hcount
            have : MAX_TRANSFER_FILES < 2 ^ 32 := by decide
            omega
          have hindex : toFileIndex i = .ok ⟨i, hlt⟩ := dif_pos hlt
          unfold sendFiles
          rw [wp_bind]
          obtain ⟨hsize, hsizes⟩ := List.forall₂_cons.mp hsizes
          refine wp_mono (sendFile_spec hno hindex (hshaped file List.mem_cons_self) hsize
            hbuffer hfile) ?_ fun _ _ hf => hf
          rintro buffer₁ l₁ ⟨hbuffer₁, hdisk₁, frames, hsent₁, hframes⟩
          refine wp_conseq (ih (fun f hf => hshaped f (List.mem_cons_of_mem _ hf))
            (by rw [List.length_cons] at hcount; omega) hbuffer₁ hsizes (hdisk₁ ▸ hfiles)) ?_
          rintro _ l₂ ⟨hdisk₂, stream, hsent₂, hstream⟩
          refine ⟨hdisk₂.trans hdisk₁, frames ++ stream, ?_, .cons hindex hframes hstream⟩
          rw [hsent₂, hsent₁, List.append_assoc]

/-- A sender that can read the files produces a stream of them. -/
theorem sendFileChunksFromRoot_spec {files : List TransferFile} {contents : List Content}
    (hshaped : Shaped files) (hroot : l.world.disk.IsDir root) (hreach : Reach h l.world.disk root)
    (hsizes : List.Forall₂ (fun file content => content.len = file.size) files contents)
    (hserves : List.Forall₂ (Serves h l.world.disk root) files contents) :
    (sendFileChunksFromRoot root files).wp h l (fun _ l' => l'.world.disk = l.world.disk
      ∧ ∃ stream, l'.sent = l.sent ++ stream ∧ Streams 0 files contents stream)
      fun _ _ => False := by
  unfold sendFileChunksFromRoot
  rw [wp_bind, wp_locally]
  refine wp_mono (directoryRoot_spec hroot) ?_ fun _ _ hbad => hbad.2 hreach
  rintro r w₁ ⟨rfl, hsame⟩
  have hdisk := hsame.disk
  refine wp_conseq (sendFiles_spec hreach.noFault hshaped.each (by have := hshaped.count; omega)
    (Nat.zero_le _) hsizes (hdisk ▸ hserves)) ?_
  rintro _ l₂ ⟨hdisk₂, hstream⟩
  exact ⟨hdisk₂.trans hdisk, hstream⟩

end Send

end Syncbox

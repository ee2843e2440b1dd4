/-
# `Syncbox.Network.Receive` — the receiving side of a transfer

What arrives is appended to the partial file (`receiveChunks_spec`).  A receiver that answers
has taken a stream of the files off the connection, and they stand in the staging directory;
where the files that were announced arrive, and the partial files begin as they do, it does
answer (`receiveFileChunks_spec`).  Together with the sender this is the round trip.
-/
import Syncbox.Network.Send
import Syncbox.Network.Partial

namespace Syncbox

open Rust Unix Encode Prog

/-! ## Receiving -/

section Receive

variable {h : Host} {w : World} {l : Link}

theorem overwrite_at_end {old bytes : List Byte} {offset : Nat} (hlen : old.length = offset) :
    overwrite old offset bytes = old ++ bytes := by
  subst hlen
  simp [overwrite, List.drop_of_length_le]

theorem receiveChunks_spec (dir : Loc) {path : PathBuf} {file : Loc} {fileIndex : U32} {size : Nat} {m : Mode}
    (hsize : size < 2 ^ 64) {offset : Nat} : ∀ {l : Link} {c : Content} {t : U64},
    l.world.disk.get file = some (.file c m t) → c.val.length = offset → offset ≤ size →
    (receiveChunks path file fileIndex size offset).wp h l
      (fun _ l' => Grown {file} dir (0o777 &&& ~~~h.umask) l.world.disk l'.world.disk
        ∧ ∃ data stream c' t', l.recv = stream ++ l'.recv ∧ Frames fileIndex offset data stream
          ∧ l'.world.disk.get file = some (.file c' m t') ∧ c'.val = c.val ++ data
          ∧ c'.val.length = size)
      fun _ _ => ¬ ((∀ n, h.fault n = false) ∧ ∃ data stream rest, l.recv = stream ++ rest
        ∧ Frames fileIndex offset data stream ∧ data.length = size - offset) := by
  induction hn : size - offset using Nat.strong_induction_on generalizing offset with
  | h n ih =>
      intro l c t hget hlen hle
      unfold receiveChunks
      split
      · rename_i hlt
        -- what the connection holds begins with a chunk
        have hgiven : ∀ {data stream rest}, l.recv = stream ++ rest →
            Frames fileIndex offset data stream → data.length = n →
            ∃ piece data' stream', Chunked fileIndex offset (size - offset) l.recv piece (stream' ++ rest)
              ∧ Frames fileIndex (offset + piece.length) data' stream'
              ∧ data'.length = size - (offset + piece.length) := by
          intro data stream rest hrecv hframes hdata
          cases hframes with
          | done => rw [List.length_nil] at hdata; omega
          | @chunk _ piece data' stream' hne hmax hrest =>
              rw [List.length_append] at hdata
              refine ⟨piece, data', stream', ⟨?_, hne, by omega, hmax⟩, hrest, by omega⟩
              rw [hrecv, List.append_assoc]
        refine wp_seq readChunk_spec ?_ ?_
        · intro data l₁ ⟨hdisk₁, hchunk⟩
          have hpos := List.length_pos_iff.mpr hchunk.2.1
          have hfit := hchunk.2.2.1
          rw [← hdisk₁] at hget
          rw [wp_bind, wp_locally, wp_context]
          refine wp_conseq (writeAt_spec hget) fun r w₂ hr => ?_
          rw [overwrite_at_end hlen] at hr
          rcases hr with ⟨rfl, c₂, t₂, hc₂, hdid⟩ | ⟨kind, rfl, -, hnot⟩
          · have hlen₂ : c₂.val.length = offset + data.val.length := by
              rw [hc₂, List.length_append, hlen]
            have hgrown₂ : Grown {file} dir (0o777 &&& ~~~h.umask) l.world.disk w₂.disk :=
              hdisk₁ ▸ .of_sets hdid.sets rfl
            refine wp_mono (ih _ (by omega) rfl hdid.sets.at hlen₂ (by omega)) ?_ ?_
            · rintro _ l₃ ⟨hgrown₃, data', stream, c', t', hrecv, hframes, hget', hc', hsize'⟩
              refine ⟨hgrown₂.trans hgrown₃, data.val ++ data', _, c', t', ?_,
                .chunk hchunk.2.1 hchunk.2.2.2 hframes, hget', ?_, hsize'⟩
              · rw [hchunk.1, show l₁.recv = stream ++ l₃.recv from hrecv]
                simp only [List.append_assoc]
              · rw [hc', hc₂, List.append_assoc]
            · rintro _ _ hbad ⟨hno, data', stream, rest, hrecv, hframes, hdata⟩
              obtain ⟨piece, data'', stream', hchunk', hframes', hlen'⟩ := hgiven hrecv hframes hdata
              obtain ⟨rfl, hrest⟩ := hchunk.unique hchunk'
              exact hbad ⟨hno, data'', stream', rest, hrest, hframes', hlen'⟩
          · rintro ⟨hno, -⟩
            refine hnot ⟨hno, ?_⟩
            rw [List.length_append]
            omega
        · rintro _ _ hbad ⟨hno, data, stream, rest, hrecv, hframes, hdata⟩
          obtain ⟨piece, _, stream', hchunk, -⟩ := hgiven hrecv hframes hdata
          exact hbad ⟨hno, piece, _, hchunk⟩
      · exact ⟨.refl _ _ _ _, [], [], c, t, rfl, .done offset, hget, (List.append_nil _).symm, by omega⟩

variable [Crypto] {file : TransferFile} {content : Content}

/-- The content is the one that was announced. -/
def TransferFile.Announces (file : TransferFile) (content : Content) : Prop :=
  content.len = file.size ∧ sha256Hex content.val = file.sha256

theorem verifyPartial_spec {path : PathBuf} {c : Content} {m : Mode} {t : U64}
    (hd : Direct w.disk path) (hget : w.disk.get (names path) = some (.file c m t)) :
    (verifyPartial path file).wp h w
      (fun _ w' => w'.disk = w.disk ∧ c.len = file.size ∧ sha256Hex c.val = file.sha256)
      fun _ w' => (file.Announces c → w'.disk = w.disk)
        ∧ ¬ (Smooth h w.disk path ∧ h.canRead m = true ∧ file.Announces c) := by
  have hlast : ¬ w.disk.IsLink (names path) := by
    rintro ⟨target, htarget⟩
    rw [hget] at htarget
    cases htarget
  unfold verifyPartial
  refine wp_context_then (lstat_spec hd) fun r w₁ hlook => ?_
  cases r with
  | error kind =>
      refine ⟨fun _ => hlook.same.disk, ?_⟩
      rintro ⟨hs, -⟩
      by_cases hkind : kind = .notFound
      · subst hkind
        rw [hlook.missing rfl] at hget
        cases hget
      · exact hlook.blocked rfl hkind hs
  | ok node =>
      have hnode := hlook.ok rfl
      rw [hget] at hnode
      cases hnode
      have hdisk₁ := hlook.same.disk
      dsimp only
      rw [wp_bind]
      refine wp_rejectIf (fun hbad => ⟨fun _ => hdisk₁, fun hgood => ?_⟩) fun hsize => ?_
      · rcases hbad with hfile | hsize
        · cases hfile
        · exact hsize hgood.2.2.1
      simp only [Node.isFile, Node.len, not_or, Decidable.not_not, Bool.true_eq_false,
        not_false_eq_true, true_and, ne_eq] at hsize
      rw [← hdisk₁] at hd hget hlast
      refine wp_context_then (openRead_spec hd hlast) fun r w₂ hr => ?_
      rcases hr with ⟨rfl, hsame₂⟩ | ⟨kind, rfl, hsame₂, hnot⟩
      · rw [← hsame₂.disk] at hget
        dsimp only
        refine wp_context_then readAll_spec fun r w₃ hr => ?_
        rcases hr with ⟨c', m', t', rfl, hget', hdisk₃, -⟩ | ⟨kind, rfl, hsame₃, hnot⟩
        · rw [hget] at hget'
          cases hget'
          refine wp_when (fun hbad => ?_) fun hhash => ?_
          · have hfail : ∀ w' : World, (file.Announces c → w'.disk = w.disk)
                ∧ ¬ (Smooth h w.disk path ∧ h.canRead m = true ∧ file.Announces c) :=
              fun _ => ⟨fun hgood => absurd hgood.2 hbad, fun hgood => hbad hgood.2.2.2⟩
            rw [wp_bind, wp_context]
            refine wp_of_forall (fun r w' => ?_) fun _ w' => hfail w'
            cases r with
            | ok _ => exact hfail w'
            | error _ => exact hfail w'
          · refine ⟨?_, hsize, Decidable.not_not.mp hhash⟩
            rw [hdisk₃, hsame₂.disk, hdisk₁]
        · refine ⟨fun _ => ?_, fun hgood => hnot ⟨hgood.1.noFault, c, m, t, hget⟩⟩
          rw [hsame₃.disk, hsame₂.disk, hdisk₁]
      · refine ⟨fun _ => hsame₂.disk.trans hdisk₁, ?_⟩
        rintro ⟨hs, hread, -⟩
        exact hnot ⟨hdisk₁ ▸ hs, c, m, t, hget, hread⟩

/-- Where a file is staged. -/
def stagedAt (tmp : PathBuf) (file : TransferFile) : Loc :=
  names (partialPath tmp file.path file.sha256)

theorem stagedAt_eq (tmp : PathBuf) (file : TransferFile) :
    stagedAt tmp file = names tmp ++ [partialName file.path file.sha256] := by
  have hname := Disk.isName_of_isFileName (isFileName_partialName file.path file.sha256)
  rw [stagedAt, partialPath, names_append, names_cons_name hname]
  rfl

theorem names_ne_stagedAt {tmp init : PathBuf} (hi : init <+: tmp) :
    names init ≠ stagedAt tmp file := by
  intro heq
  have hle := (hi.filter isName).length_le
  change (names init).length ≤ (names tmp).length at hle
  rw [heq, stagedAt_eq, List.length_append, List.length_singleton] at hle
  omega

/-- The partial file is of use for the content: what is there up to the offset is its
beginning. -/
structure Resumable (h : Host) (d : Disk) (tmp : PathBuf) (file : TransferFile) (content : Content) :
    Prop where
  usable : Usable h d (stagedAt tmp file)
  begins : file.offset = 0 ∨ file.offset.val ≤ (d.bytes (stagedAt tmp file)).length
    ∧ (d.bytes (stagedAt tmp file)).take file.offset = content.val.take file.offset

/-- What receiving one file does. -/
structure Received (h : Host) (tmp : PathBuf) (fileIndex : U32) (file : TransferFile)
    (content : Content) (stream : List Byte) (l l' : Link) : Prop where
  recv : l.recv = stream ++ l'.recv
  frames : Frames fileIndex file.offset (content.val.drop file.offset) stream
  announced : file.Announces content
  begins : content.val.take file.offset = resized (l.world.disk.bytes (stagedAt tmp file)) file.offset
  staged : ∃ m t, l'.world.disk.get (stagedAt tmp file) = some (.file content m t)
  frame : Grown {stagedAt tmp file} (names tmp) (0o777 &&& ~~~h.umask) l.world.disk l'.world.disk

theorem Resumable.resized {d : Disk} {tmp : PathBuf} (hr : Resumable h d tmp file content) :
    resized (d.bytes (stagedAt tmp file)) file.offset = content.val.take file.offset := by
  rcases hr.begins with hzero | ⟨hle, hbegins⟩
  · simp [Syncbox.resized, hzero]
  · rw [Syncbox.resized, Nat.sub_eq_zero_of_le hle, List.replicate_zero, List.append_nil, hbegins]

theorem receiveFile_spec {tmp : PathBuf} {i : Nat} {fileIndex : U32}
    (hindex : toFileIndex i = .ok fileIndex) (hoffset : file.offset ≤ file.size)
    (hd : Direct l.world.disk (partialPath tmp file.path file.sha256)) :
    (receiveFile tmp i file).wp h l
      (fun completed l' => completed = ⟨file, partialPath tmp file.path file.sha256⟩
        ∧ ∃ content stream, Received h tmp fileIndex file content stream l l')
      fun _ _ => ¬ (Stage h l.world.disk tmp ∧ ∃ content stream rest,
        Resumable h l.world.disk tmp file content ∧ file.Announces content
          ∧ l.recv = stream ++ rest
          ∧ Frames fileIndex file.offset (content.val.drop file.offset) stream) := by
  have hname := isFileName_partialName file.path file.sha256
  have hle : file.offset.val ≤ file.size.val := hoffset
  unfold receiveFile
  rw [hindex, wp_bind, wp_ofExcept_ok]
  dsimp only
  rw [wp_bind, wp_locally, wp_within]
  refine wp_mono (ensurePartialFile_spec hd hname) ?_ ?_
  · rintro destination w₁ ⟨rfl, hgrown₁, c₁, m, t₁, hget₁, hc₁, hmode⟩
    have hlen₁ : c₁.val.length = file.offset := by rw [hc₁, length_resized]
    refine wp_seq seekTo_spec ?_ fun _ _ hfault hgood => hfault hgood.1.smooth.noFault
    rintro _ l₂ ⟨hdisk₂, hrecv₂, -⟩
    dsimp only at hdisk₂ hrecv₂
    rw [← hdisk₂] at hget₁ hgrown₁
    refine wp_seq (receiveChunks_spec (names tmp) file.size.isLt hget₁ hlen₁ hle) ?_ ?_
    · rintro _ l₃ ⟨hgrown₃, data, stream, c₃, t₃, hrecv₃, hframes, hget₃, hc₃, hsize₃⟩
      have hgrown : Grown {stagedAt tmp file} (names tmp) (0o777 &&& ~~~h.umask)
          l.world.disk l₃.world.disk := hgrown₁.trans hgrown₃
      have hdrop : c₃.val.drop file.offset = data := by rw [hc₃, List.drop_left' hlen₁]
      have htake : c₃.val.take file.offset = c₁.val := by rw [hc₃, List.take_left' hlen₁]
      have hd₃ : Direct l₃.world.disk (partialPath tmp file.path file.sha256) :=
        hgrown.direct hd fun hi hne => names_ne_stagedAt (prefix_of_proper hi hne)
      rw [wp_bind, wp_locally, wp_context]
      refine wp_conseq syncAll_spec fun r w₄ ⟨hsame₄, hr⟩ => ?_
      rcases hr with rfl | ⟨kind, rfl, hfault⟩
      · have hdisk₄ := hsame₄.disk
        rw [← hdisk₄] at hget₃ hd₃ hgrown
        dsimp only
        rw [wp_bind, wp_locally]
        refine wp_mono (verifyPartial_spec hd₃ hget₃) ?_ ?_
        · rintro _ w₅ ⟨hdisk₅, hsize, hhash⟩
          refine ⟨rfl, c₃, stream, hrecv₂.symm.trans hrecv₃, hdrop ▸ hframes, ⟨hsize, hhash⟩,
            htake.trans hc₁, ⟨m, t₃, hdisk₅ ▸ hget₃⟩, hdisk₅ ▸ hgrown⟩
        · rintro _ _ ⟨-, hbad⟩ ⟨hstage, content, stream', rest, hresumable, hannounced, hrecv, hframes'⟩
          have hs := hstage.smooth_entry hname
          -- the stream that was taken is the one that was expected
          have hlen : data.length = (content.val.drop file.offset).length := by
            have hsize : content.val.length = file.size := congrArg Fin.val hannounced.1
            rw [hc₃, List.length_append] at hsize₃
            rw [List.length_drop]
            omega
          have hdata := (hframes.unique hframes' hlen (hrecv₃.symm.trans (hrecv₂.trans hrecv))).1
          have hcontent : c₃ = content := Subtype.ext (by
            rw [hc₃, hc₁.trans hresumable.resized, hdata, List.take_append_drop])
          subst hcontent
          refine hbad ⟨hgrown.smooth hs hstage.searchable fun hi hne heq => hne ?_, ?_, hannounced⟩
          · exact heq.trans hs.named.names
          · rcases hmode with rfl | ⟨c₀, t₀, hget₀⟩
            · exact hstage.readable
            · rcases hresumable.usable with hnone | ⟨_, _, _, hget, hread, _⟩
              · cases hget₀.symm.trans hnone
              · cases hget₀.symm.trans hget
                exact hread
      · exact fun hgood => hfault hgood.1.smooth.noFault
    · rintro _ _ hbad ⟨hstage, content, stream, rest, -, ⟨hsize, -⟩, hrecv, hframes⟩
      refine hbad ⟨hstage.smooth.noFault, _, stream, rest, hrecv₂.trans hrecv, hframes, ?_⟩
      rw [List.length_drop, ← hsize]
      rfl
  · rintro _ _ ⟨-, -, hbad⟩ ⟨hstage, content, -, -, hresumable, -⟩
    exact hbad ⟨hstage, hresumable.usable⟩

/-- The staging directory is reached without following links. -/
def Reachable (d : Disk) (tmp : PathBuf) : Prop :=
  ['.', '.'] ∉ tmp ∧ ∀ {init}, init <+: tmp → ¬ d.IsLink (names init)

theorem Reachable.direct {d : Disk} {tmp : PathBuf} (hr : Reachable d tmp) (file : TransferFile) :
    Direct d (partialPath tmp file.path file.sha256) := by
  have hname := isFileName_partialName file.path file.sha256
  refine ⟨fun hmem => ?_, fun hi hne => hr.2 (prefix_of_proper hi hne)⟩
  rcases List.mem_append.mp hmem with hmem | hmem
  · exact hr.1 hmem
  · rw [← List.mem_singleton.mp hmem] at hname
    revert hname
    decide

theorem Reachable.grown {d d' : Disk} {tmp : PathBuf} {dir : Loc} {mode : Mode}
    (hr : Reachable d tmp) (hg : Grown {stagedAt tmp file} dir mode d d') : Reachable d' tmp :=
  ⟨hr.1, fun hi => hg.notLink (names_ne_stagedAt hi) (hr.2 hi)⟩

/-- Different files are staged in different places. -/
def StagedApart (tmp : PathBuf) (files : List TransferFile) : Prop :=
  files.Pairwise fun a b => stagedAt tmp a ≠ stagedAt tmp b

theorem stagedApart_of_injOn {tmp : PathBuf} {files : List TransferFile} (hshaped : Shaped files)
    (hinj : Set.InjOn Crypto.sha256 {key | ∃ file ∈ files, key = partialKey file.path file.sha256}) :
    StagedApart tmp files := by
  refine List.Pairwise.imp_of_mem (fun {a b} ha hb hne heq => hne ?_)
    (List.pairwise_map.mp hshaped.distinct)
  rw [stagedAt_eq, stagedAt_eq] at heq
  exact partialName_injective (hshaped.each a ha).sha256.1 (hshaped.each b hb).sha256.1
    (fun hsha => hinj ⟨a, ha, rfl⟩ ⟨b, hb, rfl⟩ hsha)
    (List.singleton_injective (List.append_cancel_left heq))

/-- The partial files of a list. -/
def stagedSet (tmp : PathBuf) (files : List TransferFile) : Set Loc :=
  {loc | ∃ file ∈ files, loc = stagedAt tmp file}

/-- The file is staged with the content. -/
def Staged (d : Disk) (tmp : PathBuf) (file : TransferFile) (content : Content) : Prop :=
  ∃ m t, d.get (stagedAt tmp file) = some (.file content m t)

theorem not_prefix_stagedAt (tmp : PathBuf) (file : TransferFile) :
    ¬ stagedAt tmp file <+: names tmp := by
  intro hi
  have hle := hi.length_le
  rw [stagedAt_eq, List.length_append, List.length_singleton] at hle
  omega

/-- What receiving a list of files does. -/
structure ReceivedAll (h : Host) (tmp : PathBuf) (i : Nat) (files : List TransferFile)
    (contents : List Content) (stream : List Byte) (l l' : Link) : Prop where
  recv : l.recv = stream ++ l'.recv
  streams : Streams i files contents stream
  announced : List.Forall₂ TransferFile.Announces files contents
  begins : List.Forall₂ (fun file content => content.val.take file.offset =
    resized (l.world.disk.bytes (stagedAt tmp file)) file.offset) files contents
  staged : List.Forall₂ (Staged l'.world.disk tmp) files contents
  frame : Grown (stagedSet tmp files) (names tmp) (0o777 &&& ~~~h.umask) l.world.disk l'.world.disk

theorem Received.keeps {tmp : PathBuf} {fileIndex : U32} {stream : List Byte} {l' : Link}
    (hr : Received h tmp fileIndex file content stream l l') {other : TransferFile}
    (hne : stagedAt tmp file ≠ stagedAt tmp other) :
    l'.world.disk.get (stagedAt tmp other) = l.world.disk.get (stagedAt tmp other) :=
  hr.frame.off (Ne.symm hne) (not_prefix_stagedAt tmp other)

theorem Resumable.congr {d d' : Disk} {tmp : PathBuf} (hr : Resumable h d tmp file content)
    (hget : d'.get (stagedAt tmp file) = d.get (stagedAt tmp file)) :
    Resumable h d' tmp file content where
  usable := by
    unfold Usable
    rw [hget]
    exact hr.usable
  begins := by
    rw [Disk.bytes_congr hget]
    exact hr.begins

theorem Received.cons {tmp : PathBuf} {i : Nat} {fileIndex : U32} {files : List TransferFile}
    {contents : List Content} {frames stream : List Byte} {l₁ l' : Link}
    (hindex : toFileIndex i = .ok fileIndex) (hapart : StagedApart tmp (file :: files))
    (hr : Received h tmp fileIndex file content frames l l₁)
    (hrs : ReceivedAll h tmp (i + 1) files contents stream l₁ l') :
    ReceivedAll h tmp i (file :: files) (content :: contents) (frames ++ stream) l l' := by
  have hne := (List.pairwise_cons.mp hapart).1
  have hfirst : stagedSet tmp files ⊆ stagedSet tmp (file :: files) :=
    fun _ ⟨f, hf, heq⟩ => ⟨f, List.mem_cons_of_mem _ hf, heq⟩
  have hsecond : {stagedAt tmp file} ⊆ stagedSet tmp (file :: files) :=
    fun _ heq => ⟨file, List.mem_cons_self, heq⟩
  refine ⟨?_, .cons hindex hr.frames hrs.streams, .cons hr.announced hrs.announced,
    .cons hr.begins ?_, .cons ?_ hrs.staged, ?_⟩
  · rw [hr.recv, hrs.recv, List.append_assoc]
  · refine ((List.forall₂_and_left _ _).mpr ⟨hne, hrs.begins⟩).imp fun other _ ⟨hother, hbegins⟩ => ?_
    rw [hbegins, Disk.bytes_congr (hr.keeps hother)]
  · obtain ⟨m, t, hget⟩ := hr.staged
    refine ⟨m, t, hrs.frame.get ?_ hget⟩
    rintro ⟨f, hf, heq⟩
    exact hne f hf heq
  · exact (hr.frame.mono hsecond (List.prefix_refl _)).trans
      (hrs.frame.mono hfirst (List.prefix_refl _))

/-- A transfer that will succeed: the files that were announced arrive, and the partial files
are of use for them. -/
structure Expected (h : Host) (tmp : PathBuf) (i : Nat) (files : List TransferFile)
    (contents : List Content) (stream rest : List Byte) (l : Link) : Prop where
  stage : Stage h l.world.disk tmp
  resumable : List.Forall₂ (Resumable h l.world.disk tmp) files contents
  announced : List.Forall₂ TransferFile.Announces files contents
  recv : l.recv = stream ++ rest
  streams : Streams i files contents stream

theorem Expected.tail {tmp : PathBuf} {i : Nat} {fileIndex : U32} {files : List TransferFile}
    {contents : List Content} {stream rest frames : List Byte} {content' : Content} {l₁ : Link}
    (he : Expected h tmp i (file :: files) (content :: contents) stream rest l)
    (hindex : toFileIndex i = .ok fileIndex) (hapart : StagedApart tmp (file :: files))
    (hr : Received h tmp fileIndex file content' frames l l₁) :
    ∃ stream', Expected h tmp (i + 1) files contents stream' rest l₁ := by
  have hne := (List.pairwise_cons.mp hapart).1
  obtain ⟨hstage, hresumable, hannounced, hrecv, hstreams⟩ := he
  cases hstreams with
  | @cons _ index' _ _ _ _ frames' stream' hindex' hframes hrest =>
      rw [hindex] at hindex'
      cases hindex'
      have hlen : (content'.val.drop file.offset).length = (content.val.drop file.offset).length := by
        have h₁ : content'.val.length = file.size := congrArg Fin.val hr.announced.1
        have h₂ : content.val.length = file.size := congrArg Fin.val (List.forall₂_cons.mp hannounced).1.1
        rw [List.length_drop, List.length_drop, h₁, h₂]
      rw [List.append_assoc] at hrecv
      obtain ⟨-, -, hrecv₁⟩ := hr.frames.unique hframes hlen (hr.recv.symm.trans hrecv)
      refine ⟨stream', hstage.grown hr.frame ?_, ?_, (List.forall₂_cons.mp hannounced).2, hrecv₁, hrest⟩
      · intro init hi heq
        refine absurd (.trans ?_ heq) (names_ne_stagedAt hi)
        exact Named.names fun part hpart => hstage.smooth.named part (hi.subset hpart)
      · refine ((List.forall₂_and_left _ _).mpr ⟨hne, (List.forall₂_cons.mp hresumable).2⟩).imp ?_
        exact fun other _ ⟨hother, hres⟩ => hres.congr (hr.keeps hother)

theorem receiveFiles_spec {tmp : PathBuf} : ∀ {files : List TransferFile} {i : Nat} {l : Link},
    i + files.length ≤ MAX_TRANSFER_FILES → (∀ file ∈ files, file.offset ≤ file.size) →
    StagedApart tmp files → Reachable l.world.disk tmp →
    (receiveFiles tmp i files).wp h l
      (fun completed l' =>
        completed = files.map (fun file => ⟨file, partialPath tmp file.path file.sha256⟩)
        ∧ ∃ contents stream, ReceivedAll h tmp i files contents stream l l')
      fun _ _ => ¬ ∃ contents stream rest, Expected h tmp i files contents stream rest l := by
  intro files
  induction files with
  | nil =>
      intro i l _ _ _ _
      exact ⟨rfl, [], [], rfl, .nil i, .nil, .nil, .nil, .refl _ _ _ _⟩
  | cons file files ih =>
      intro i l hcount hoffset hapart hreach
      have hlt : i < 2 ^ 32 := by
        have : MAX_TRANSFER_FILES < 2 ^ 32 := by decide
        rw [List.length_cons] at hcount
        omega
      have hindex : toFileIndex i = .ok ⟨i, hlt⟩ := dif_pos hlt
      unfold receiveFiles
      refine wp_seq (receiveFile_spec hindex (hoffset file List.mem_cons_self)
        (hreach.direct file)) ?_ ?_
      · rintro completed l₁ ⟨rfl, content, frames, hr⟩
        refine wp_seq (ih (by rw [List.length_cons] at hcount; omega)
          (fun f hf => hoffset f (List.mem_cons_of_mem _ hf)) (List.pairwise_cons.mp hapart).2
          (hreach.grown hr.frame)) ?_ ?_
        · rintro rest l₂ ⟨rfl, contents, stream, hrs⟩
          exact ⟨rfl, content :: contents, frames ++ stream, hr.cons hindex hapart hrs⟩
        · rintro _ _ hbad ⟨contents, stream, rest, he⟩
          cases contents with
          | nil => cases he.resumable
          | cons content' contents =>
              obtain ⟨stream', he'⟩ := he.tail hindex hapart hr
              exact hbad ⟨contents, stream', rest, he'⟩
      · rintro _ _ hbad ⟨contents, stream, rest, he⟩
        obtain ⟨hstage, hresumable, hannounced, hrecv, hstreams⟩ := he
        cases hstreams with
        | @cons _ index' _ content' _ _ frames' stream' hindex' hframes _ =>
            rw [hindex] at hindex'
            cases hindex'
            rw [List.append_assoc] at hrecv
            exact hbad ⟨hstage, content', frames', _, (List.forall₂_cons.mp hresumable).1,
              (List.forall₂_cons.mp hannounced).1, hrecv, hframes⟩

/-! ## The round trip -/

/-- A stream determines the files it carries, where their sizes and beginnings are known. -/
theorem Streams.unique {begins : TransferFile → List Byte} {i : Nat} {files : List TransferFile}
    {contents : List Content} {stream : List Byte} (hs : Streams i files contents stream) :
    ∀ {contents' : List Content} {stream' rest rest' : List Byte},
      Streams i files contents' stream' →
      List.Forall₂ TransferFile.Announces files contents →
      List.Forall₂ TransferFile.Announces files contents' →
      List.Forall₂ (fun file content => content.val.take file.offset = begins file) files contents →
      List.Forall₂ (fun file content => content.val.take file.offset = begins file) files contents' →
      stream ++ rest = stream' ++ rest' → contents = contents' ∧ rest = rest' := by
  induction hs with
  | nil i =>
      intro contents' stream' rest rest' hs' _ _ _ _ heq
      cases hs'
      exact ⟨rfl, heq⟩
  | @cons i fileIndex file content files contents frames stream hindex hframes _ ih =>
      intro contents' stream' rest rest' hs' hann hann' hbeg hbeg' heq
      cases hs' with
      | @cons _ index' _ content' _ contents' frames' stream' hindex' hframes' hrest' =>
          obtain ⟨ha, hann⟩ := List.forall₂_cons.mp hann
          obtain ⟨ha', hann'⟩ := List.forall₂_cons.mp hann'
          obtain ⟨hb, hbeg⟩ := List.forall₂_cons.mp hbeg
          obtain ⟨hb', hbeg'⟩ := List.forall₂_cons.mp hbeg'
          rw [hindex] at hindex'
          cases hindex'
          have hlen : (content.val.drop file.offset).length
              = (content'.val.drop file.offset).length := by
            have h₁ : content.val.length = file.size := congrArg Fin.val ha.1
            have h₂ : content'.val.length = file.size := congrArg Fin.val ha'.1
            rw [List.length_drop, List.length_drop, h₁, h₂]
          rw [List.append_assoc, List.append_assoc] at heq
          obtain ⟨hdrop, -, heq⟩ := hframes.unique hframes' hlen heq
          obtain ⟨rfl, hrest⟩ := ih hrest' hann hann' hbeg hbeg' heq
          have hcontent : content = content' := Subtype.ext (by
            rw [← List.take_append_drop file.offset content.val, hb, hdrop, ← hb',
              List.take_append_drop])
          exact ⟨by rw [hcontent], hrest⟩

/-- What the receiver answers for a list of files. -/
def completedFiles (tmp : PathBuf) (files : List TransferFile) : List CompletedFile :=
  files.map fun file => ⟨file, partialPath tmp file.path file.sha256⟩

theorem receiveFileChunks_spec {tmp : PathBuf} {files : List TransferFile} (hshaped : Shaped files)
    (hapart : StagedApart tmp files) (hreach : Reachable l.world.disk tmp) :
    (receiveFileChunks tmp files).wp h l (fun completed l' => completed = completedFiles tmp files
        ∧ ∃ contents stream, ReceivedAll h tmp 0 files contents stream l l')
      fun _ _ => ¬ ∃ contents stream rest, Expected h tmp 0 files contents stream rest l := by
  unfold receiveFileChunks
  rw [validateTransferFileShapes_eq_ok.mpr hshaped, wp_bind, wp_ofExcept_ok]
  have hcount := hshaped.count
  exact receiveFiles_spec (by omega) (fun file hfile => (hshaped.each file hfile).offset) hapart hreach

end Receive

/-- Chunks carry files.  What a sender that holds the files produces, a receiver that is
ready for them takes off the connection and stages; and whatever a receiver accepts is a
stream of files as they were announced. -/
theorem chunk_stream_round_trip [Crypto] {files : List TransferFile}
    (haccepted : validateTransferFileShapes files = .ok ())
    (hcollision : Set.InjOn Crypto.sha256
      {key | ∃ file ∈ files, key = partialKey file.path file.sha256}) :
    (∀ (contents : List Content) (sender receiver : Host) (root tmp : PathBuf) (source target : Link),
      List.Forall₂ TransferFile.Announces files contents →
      source.world.disk.IsDir root → Reach sender source.world.disk root →
      List.Forall₂ (Serves sender source.world.disk root) files contents →
      Stage receiver target.world.disk tmp →
      List.Forall₂ (Resumable receiver target.world.disk tmp) files contents →
      ∃ stream source', sendFileChunksFromRoot root files sender source = .ok () source'
        ∧ source'.sent = source.sent ++ stream
        ∧ ∀ rest, ∃ target', receiveFileChunks tmp files receiver { target with recv := stream ++ rest }
            = .ok (completedFiles tmp files) target'
          ∧ target'.recv = rest ∧ List.Forall₂ (Staged target'.world.disk tmp) files contents)
    ∧ ∀ (receiver : Host) (tmp : PathBuf) (target : Link), Reachable target.world.disk tmp →
      (∃ e target', receiveFileChunks tmp files receiver target = .error e target')
      ∨ ∃ target' contents' stream, receiveFileChunks tmp files receiver target
          = .ok (completedFiles tmp files) target'
        ∧ target.recv = stream ++ target'.recv ∧ Streams 0 files contents' stream
        ∧ List.Forall₂ TransferFile.Announces files contents'
        ∧ List.Forall₂ (Staged target'.world.disk tmp) files contents' := by
  have hshaped := validateTransferFileShapes_eq_ok.mp haccepted
  have hreceive : ∀ (receiver : Host) {tmp : PathBuf} (target : Link),
      Reachable target.world.disk tmp → _ := fun receiver _ target hreach =>
    receiveFileChunks_spec (h := receiver) (l := target) hshaped
      (stagedApart_of_injOn hshaped hcollision) hreach
  constructor
  · intro contents sender receiver root tmp source target hannounced hroot hreach hserves hstage
      hresumable
    have hsend := sendFileChunksFromRoot_spec hshaped hroot hreach (hannounced.imp fun _ _ ha => ha.1)
      hserves
    cases hrun : sendFileChunksFromRoot root files sender source with
    | error e source' => exact (wp_error hsend hrun).elim
    | ok _ source' =>
        obtain ⟨-, stream, hsent, hstreams⟩ := wp_ok hsend hrun
        refine ⟨stream, source', rfl, hsent, fun rest => ?_⟩
        have hspec := hreceive receiver { target with recv := stream ++ rest }
          ⟨fun hdots => (hstage.smooth.named _ hdots).2 rfl, hstage.reachable⟩
        cases hrun' : receiveFileChunks tmp files receiver { target with recv := stream ++ rest } with
        | error e target' =>
            exact absurd ⟨contents, stream, rest, hstage, hresumable, hannounced, rfl, hstreams⟩
              (wp_error hspec hrun')
        | ok completed target' =>
            obtain ⟨rfl, contents', stream', hall⟩ := wp_ok hspec hrun'
            obtain ⟨rfl, hrest⟩ := hstreams.unique hall.streams hannounced hall.announced
              (hresumable.imp fun _ _ hr => hr.resized.symm) hall.begins hall.recv
            exact ⟨target', rfl, hrest.symm, hall.staged⟩
  · intro receiver tmp target hreach
    cases hrun : receiveFileChunks tmp files receiver target with
    | error e target' => exact .inl ⟨e, target', rfl⟩
    | ok completed target' =>
        obtain ⟨rfl, contents', stream, hall⟩ := wp_ok (hreceive receiver target hreach) hrun
        exact .inr ⟨target', contents', stream, rfl, hall.recv, hall.streams, hall.announced,
          hall.staged⟩

/-- Two files of three bytes, of one of which the receiver has the first byte already. -/
theorem chunk_stream_round_trip_twoFiles :
    let _ := Crypto.plain
    let content : Content := ⟨[1, 2, 3], by decide⟩
    let other : Content := ⟨[4, 5, 6], by decide⟩
    let resumed : TransferFile := ⟨['f'], sha256Hex content.val, 3, 1⟩
    let whole : TransferFile := ⟨['g'], sha256Hex other.val, 3, 0⟩
    let files := [resumed, whole]
    let source : Link := ⟨⟨(Disk.bare.put [] ['f'] (.file content 0o644 0) (by decide +kernel)).put [] ['g']
      (.file other 0o644 0) (by decide +kernel), 0, []⟩, [], []⟩
    let target : Link := ⟨⟨Disk.bare.put [] (partialName resumed.path resumed.sha256)
      (.file ⟨[1], by decide⟩ 0o644 0) (by decide +kernel), 0, []⟩, [], []⟩
    ∃ stream source' target', sendFileChunksFromRoot [] files .quiet source = .ok () source'
      ∧ source'.sent = stream
      ∧ receiveFileChunks [] files .quiet { target with recv := stream }
          = .ok (completedFiles [] files) target'
      ∧ Staged target'.world.disk [] resumed content ∧ Staged target'.world.disk [] whole other := by
  intro _ content other resumed whole files source target
  have hcollision : Set.InjOn Crypto.sha256
      {key | ∃ file ∈ files, key = partialKey file.path file.sha256} := by
    have hne : Crypto.sha256 (partialKey resumed.path resumed.sha256)
        ≠ Crypto.sha256 (partialKey whole.path whole.sha256) := by decide +kernel
    rintro _ ⟨a, ha, rfl⟩ _ ⟨b, hb, rfl⟩ heq
    simp only [files, List.mem_cons, List.not_mem_nil, or_false] at ha hb
    rcases ha with rfl | rfl <;> rcases hb with rfl | rfl
    · rfl
    · exact absurd heq hne
    · exact absurd heq.symm hne
    · rfl
  have hserves : List.Forall₂ (Serves .quiet source.world.disk []) files [content, other] :=
    .cons ⟨fun hne hi => absurd (List.prefix_nil.mp hi) hne, 0o644, 0,
      ⟨.entry [] ['f'] false, by decide +kernel, by decide +kernel⟩,
      ⟨.entry [] ['f'] false, by decide +kernel, by decide +kernel⟩, rfl⟩
    (.cons ⟨fun hne hi => absurd (List.prefix_nil.mp hi) hne, 0o644, 0,
      ⟨.entry [] ['g'] false, by decide +kernel, by decide +kernel⟩,
      ⟨.entry [] ['g'] false, by decide +kernel, by decide +kernel⟩, rfl⟩ .nil)
  have hresumable : List.Forall₂ (Resumable .quiet target.world.disk []) files [content, other] :=
    .cons ⟨.inr ⟨⟨[1], by decide⟩, 0o644, 0, by decide +kernel, rfl, rfl⟩, .inr (by decide +kernel)⟩
      (.cons ⟨.inl (by decide +kernel), .inl rfl⟩ .nil)
  have hroot : target.world.disk.get [] = some (.dir 0o755) := by decide +kernel
  obtain ⟨stream, source', hsend, hsent, hreceive⟩ := (@chunk_stream_round_trip _ files (by decide +kernel)
    hcollision).1 [content, other] .quiet .quiet [] [] source target
    (.cons ⟨rfl, rfl⟩ (.cons ⟨rfl, rfl⟩ .nil)) ⟨0o755, by decide +kernel⟩
    ⟨fun _ => rfl, fun hi hne => absurd (List.prefix_nil.mp hi) hne⟩ hserves
    ⟨⟨fun _ => rfl, by simp [Named], fun hi hne => absurd (List.prefix_nil.mp hi) hne⟩,
      .there hroot rfl rfl, rfl, rfl, rfl⟩ hresumable
  obtain ⟨target', hreceived, -, hstaged⟩ := hreceive []
  rw [List.append_nil] at hreceived
  obtain ⟨hfirst, hstaged⟩ := List.forall₂_cons.mp hstaged
  exact ⟨stream, source', target', hsend, hsent, hreceived, hfirst, (List.forall₂_cons.mp hstaged).1⟩

end Syncbox

/-
# `Syncbox.Network.Transfer` — planning a transfer

The functions of `src/network/transfer.rs` by which one side says what it wants and the
other what it has, and `known_peer_strings` of `src/network/state.rs`.  They are run on
one side and their results are checked on the other, by the validators of `Network.Wire`.

A partially received file is kept in the staging directory, under a name made from its
path and its hash.  How much of it is there decides the offset at which a transfer resumes;
`partialSize_spec` says the one thing about it that a peer depends on: the offset is within
the file.
-/
import Syncbox.Lib.Sort
import Syncbox.Network.Apply
import Syncbox.Network.Wire

namespace Syncbox

open Rust Unix Prog Check

/-! ## Known peers -/

section Peers

variable [Crypto]

/-- `known_peer_strings`, on the peers that were loaded. -/
def knownPeerStrings (known : KnownPeers) (localId remote : EndpointId) : List Str :=
  let values := (known.peers.filter fun peer =>
      peer.endpointId ≠ endpointIdString localId && peer.endpointId ≠ endpointIdString remote).map
    PeerRecord.endpointId
  ((values.insertionSort (· ≤ ·)).destutter (· ≠ ·)).take 256

end Peers

/-! ## Partial files -/

section Partial

variable [Crypto]

/-- What the name of a partial file is the hash of. -/
def partialKey (manifestPath sha256 : Str) : List Byte := asBytes manifestPath ++ [0] ++ asBytes sha256

def partialName (manifestPath sha256 : Str) : Str :=
  "chunk-".toList ++ sha256Hex (partialKey manifestPath sha256) ++ ".part".toList

def partialPath (tmp : PathBuf) (manifestPath sha256 : Str) : PathBuf :=
  tmp ++ [partialName manifestPath sha256]

def partialSize (tmp : PathBuf) (manifestPath sha256 : Str) (size : U64) : Fs U64 := do
  let path := partialPath tmp manifestPath sha256
  match ← lstat path with
  | .ok (.file content _ _) =>
      if content.len ≤ size then pure content.len
      else do
        context ("unable to remove oversized transfer partial " ++ display path) (unlink path)
        pure 0
  | .ok _ => throw (.bail "transfer partial path is not a regular file")
  | .error .notFound => pure 0
  | .error kind => throw (.io ("unable to inspect transfer partial " ++ display path) kind)

end Partial

/-! ## The request -/

section Request

/-- The remote record is the selected one. -/
def remoteSelected (localRecord : Option ManifestRecord) (remoteRecord : ManifestRecord) : Bool :=
  match selectRecord localRecord (some remoteRecord) with
  | some selected =>
      selected.version = remoteRecord.version && selected.isTombstone = remoteRecord.isTombstone
  | none => false

/-- The local record is the selected one. -/
def localSelected (localRecord : ManifestRecord) (remoteRecord : Option ManifestRecord) : Bool :=
  match selectRecord (some localRecord) remoteRecord with
  | some winner => winner.version = localRecord.version && !winner.isTombstone
  | none => false

/-- The record is a file with the contents of the entry. -/
def contentMatches (record : Option ManifestRecord) (entry : ManifestEntry) : Bool :=
  match record with
  | some (.file e) => e.size = entry.size && e.sha256 = entry.sha256
  | _ => false

variable [Crypto] (tmp : PathBuf)

/-- The loop over the remote files.  It stops when the list is full. -/
def planDownloads (local_ : Manifest) :
    List (Str × ManifestEntry) → List Str × List TransferFile → Fs (List Str × List TransferFile)
  | [], plan => pure plan
  | (path, remoteEntry) :: rest, plan =>
      if remoteSelected (local_.record path) (.file remoteEntry)
          && !contentMatches (local_.record path) remoteEntry then do
        let offset ← partialSize tmp path remoteEntry.sha256 remoteEntry.size
        let plan := (plan.1 ++ [path],
          plan.2 ++ [⟨path, remoteEntry.sha256, remoteEntry.size, offset⟩])
        if plan.1.length = MAX_TRANSFER_FILES then pure plan
        else planDownloads local_ rest plan
      else planDownloads local_ rest plan

/-- The local files that the other side lacks, of which the first ones are offered. -/
def uploadCandidates (local_ remote : Manifest) : List (Str × ManifestEntry) :=
  local_.entries.toList.filter fun x =>
    localSelected (.file x.2) (remote.record x.1) && !contentMatches (remote.record x.1) x.2

def makeTransferRequest (shareId : ShareId) (local_ remote : Manifest) :
    Fs (TransferRequest × Nat) := do
  let (downloadPaths, downloadResumes) ← planDownloads tmp local_ remote.entries.toList ([], [])
  let candidates := uploadCandidates local_ remote
  let uploads := (candidates.take MAX_TRANSFER_FILES).map fun x => ⟨x.1, x.2.sha256, x.2.size, 0⟩
  let pendingUpdates := candidates.length - uploads.length
  pure (⟨PROTOCOL_VERSION, shareId, downloadPaths, downloadResumes, uploads⟩, pendingUpdates)

/-! ## The manifest that is sent -/

/-- The manifest that `sync_with_peer` offers: an empty one before the first complete sync. -/
def outboundManifest (initialSyncComplete : Bool) (snapshot : Manifest) (shareId : ShareId)
    (nowMs : U64) : Manifest :=
  if initialSyncComplete then snapshot else Manifest.empty shareId nowMs

/-- The digest that it advertises. -/
def outboundDigest (initialSyncComplete : Bool) (snapshot : Manifest) (shareId : ShareId)
    (nowMs : U64) : Except Error Digest :=
  if initialSyncComplete then .ok snapshot.syncDigestAfterValidation
  else (Manifest.empty shareId nowMs).syncDigest shareId

/-! ## The answers -/

def makeTransferReady (request : TransferRequest) (manifest : Manifest) : Fs TransferReady := do
  Prog.ofExcept (validateTransferFiles request.uploads manifest)
  let uploads ← request.uploads.mapM fun file => do
    let offset ← partialSize tmp file.path file.sha256 file.size
    pure { file with offset }
  pure ⟨PROTOCOL_VERSION, request.shareId, uploads⟩

def MIN_BINARY_SEARCH_RESUMES : Nat := 64

/-- `slice::binary_search_by` for the path, and the resume at the index it gives. -/
def binarySearch (resumes : List TransferFile) (path : Str) : Option TransferFile :=
  (Sorting.binarySearch TransferFile.path resumes path).bind fun i => resumes[i]?

/-- The resume offer for a path.  Long lists that are sorted are searched by halves. -/
def findResume (paths : List Str) (resumes : List TransferFile) (path : Str) : Option TransferFile :=
  if paths.length ≥ MIN_BINARY_SEARCH_RESUMES ∧ resumes.length ≥ MIN_BINARY_SEARCH_RESUMES
      ∧ (resumes.map TransferFile.path).Pairwise (· ≤ ·) then
    binarySearch resumes path
  else resumes.find? fun resume => resume.path = path

/-- The file for a path of the request. -/
def transferFileFor (manifest : Manifest) (paths : List Str) (resumes : List TransferFile)
    (path : Str) : Option TransferFile :=
  manifest.entries[path]?.map fun entry =>
    let resume := (findResume paths resumes path).filter fun resume =>
      resume.sha256 = entry.sha256 && resume.size = entry.size
    ⟨path, entry.sha256, entry.size, resume.elim 0 fun resume => min resume.offset entry.size⟩

def buildTransferFiles (manifest : Manifest) (paths : List Str) (resumes : List TransferFile) :
    Except Error (List TransferFile) := do
  validatePathList paths
  validateTransferFileShapes resumes
  let files := paths.filterMap (transferFileFor manifest paths resumes)
  .ok ((files.insertionSort fun left right => left.path ≤ right.path).destutter
    fun left right => left.path ≠ right.path)

/-- The checks of `send_upload_chunks`, before it sends. -/
def checkUploadResumes (requested ready : List TransferFile) : Except Error Unit := do
  validateTransferFileShapes requested
  validateTransferFileShapes ready
  rejectIf (requested.length ≠ ready.length)
    (.bail "upload resume list has an unexpected length")
  (requested.zip ready).forM fun x =>
    checkAsked "upload resume metadata does not match the request" x.1 x.2

/-- The check of `receive_upload_chunks`, before it receives. -/
def checkUploadReady (shareId : ShareId) (requested ready : List TransferFile) : Except Error Unit :=
  validateTransferReady ⟨PROTOCOL_VERSION, shareId, ready⟩ shareId requested

end Request

/-! ## What the builders answer -/

theorem Shaped.of_answers {files requested : List TransferFile} (hrequested : Shaped requested)
    (hanswers : List.Forall₂ TransferFile.Answers files requested)
    (hoffset : ∀ file ∈ files, file.offset ≤ file.size) : Shaped files := by
  have hpaths : files.map TransferFile.path = requested.map TransferFile.path := by
    refine List.forall₂_eq_eq_eq ▸ List.forall₂_map_left_iff.mpr (List.forall₂_map_right_iff.mpr ?_)
    exact hanswers.imp fun _ _ hab => hab.1
  refine ⟨hanswers.length_eq ▸ hrequested.count, fun file hfile => ?_, hpaths ▸ hrequested.distinct⟩
  obtain ⟨asked, hasked, hpath, hsha, hsize⟩ :
      ∃ asked ∈ requested, file.Answers asked := by
    obtain ⟨i, hi, rfl⟩ := List.mem_iff_getElem.mp hfile
    have hi' : i < requested.length := hanswers.length_eq ▸ hi
    exact ⟨requested[i], List.getElem_mem hi', hanswers.get hi hi'⟩
  have hshaped := hrequested.each asked hasked
  exact ⟨hpath ▸ hshaped.path, hsha ▸ hshaped.sha256, hoffset file hfile⟩

/-- The entry is offered under its own path and hash, from an offset within it. -/
def Offered (remote : Manifest) (file : TransferFile) : Prop :=
  file.Of remote ∧ file.offset ≤ file.size

/-- Every file that is built is one of the manifest, from an offset within it. -/
theorem transferFileFor_eq_some {manifest : Manifest} {paths : List Str}
    {resumes : List TransferFile} {path : Str} {file : TransferFile}
    (hfile : transferFileFor manifest paths resumes path = some file) :
    file.path = path ∧ Offered manifest file := by
  obtain ⟨entry, hentry, rfl⟩ := Option.map_eq_some_iff.mp hfile
  refine ⟨rfl, ⟨entry, hentry, rfl, rfl⟩, ?_⟩
  show Option.elim _ _ _ ≤ entry.size
  cases (findResume paths resumes path).filter _ with
  | none => exact Nat.zero_le _
  | some resume => exact min_le_right _ _

theorem transferFileFor_sublist (manifest : Manifest) (paths : List Str) (resumes : List TransferFile)
    (asked : List Str) :
    ((asked.filterMap (transferFileFor manifest paths resumes)).map TransferFile.path).Sublist asked := by
  induction asked with
  | nil => exact .slnil
  | cons path asked ih =>
      cases hfor : transferFileFor manifest paths resumes path with
      | none =>
          rw [List.filterMap_cons_none hfor]
          exact ih.cons _
      | some file =>
          rw [List.filterMap_cons_some hfor, List.map_cons, (transferFileFor_eq_some hfor).1]
          exact ih.cons_cons _

theorem checkUploadResumes_eq_ok {requested ready : List TransferFile} (hrequested : Shaped requested)
    (hready : Shaped ready) (hanswers : List.Forall₂ TransferFile.Answers ready requested) :
    checkUploadResumes requested ready = .ok () := by
  simp only [checkUploadResumes, andThen_eq_ok, validateTransferFileShapes_eq_ok,
    rejectIf_eq_ok, Decidable.not_not, ne_eq, forM_eq_ok, checkAsked_eq_ok]
  refine ⟨hrequested, hready, hanswers.length_eq.symm, ?_⟩
  have hflip : List.Forall₂ TransferFile.Answers requested ready :=
    (hanswers.imp fun _ _ h => ⟨h.1.symm, h.2.1.symm, h.2.2.symm⟩).flip
  exact fun x hx => (List.forall₂_iff_zip.mp hflip).2 hx

section Answers

variable [Crypto] {tmp : PathBuf} {h : Host} {w : World}

theorem partialSize_spec {manifestPath sha256 : Str} {size : U64} :
    (partialSize tmp manifestPath sha256 size).wp h w (fun offset _ => offset ≤ size)
      fun _ _ => True := by
  unfold partialSize
  rw [wp_bind]
  refine wp_of_forall (fun looked w₁ => ?_) fun _ _ => trivial
  split
  · refine wp_ite (fun hle => hle) fun _ => ?_
    rw [wp_bind]
    exact wp_of_forall (fun _ _ => Nat.zero_le _) fun _ _ => trivial
  · trivial
  · exact Nat.zero_le _
  · trivial

theorem planDownloads_spec {local_ remote : Manifest} :
    ∀ (rest : List (Str × ManifestEntry)) (plan : List Str × List TransferFile) (w : World),
      (∀ x ∈ rest, remote.entries[x.1]? = some x.2) → (plan.1 ++ rest.map Prod.fst).Nodup →
      plan.1.length < MAX_TRANSFER_FILES → plan.2.map TransferFile.path = plan.1 →
      (∀ file ∈ plan.2, Offered remote file) →
      (planDownloads tmp local_ rest plan).wp h w
        (fun plan _ => plan.1.Nodup ∧ plan.1.length ≤ MAX_TRANSFER_FILES
          ∧ plan.2.map TransferFile.path = plan.1 ∧ ∀ file ∈ plan.2, Offered remote file)
        fun _ _ => True := by
  intro rest
  induction rest with
  | nil =>
      intro plan w _ hnodup hlen hpaths hfiles
      rw [List.map_nil, List.append_nil] at hnodup
      exact ⟨hnodup, hlen.le, hpaths, hfiles⟩
  | cons x rest ih =>
      obtain ⟨path, entry⟩ := x
      intro plan w hrest hnodup hlen hpaths hfiles
      have hrest' : ∀ x ∈ rest, remote.entries[x.1]? = some x.2 :=
        fun x hx => hrest x (List.mem_cons_of_mem _ hx)
      refine wp_ite (fun _ => ?_) fun _ => ?_
      · refine wp_then partialSize_spec fun offset w₁ hoffset => ?_
        have hnodup' : (plan.1 ++ [path] ++ rest.map Prod.fst).Nodup := by
          simpa using hnodup
        have hpaths' : (plan.2 ++ [TransferFile.mk path entry.sha256 entry.size offset]).map
            TransferFile.path = plan.1 ++ [path] := by
          rw [List.map_append, hpaths]
          rfl
        have hfiles' : ∀ file ∈ plan.2 ++ [TransferFile.mk path entry.sha256 entry.size offset],
            Offered remote file := by
          intro file hfile
          rcases List.mem_append.mp hfile with hfile | hfile
          · exact hfiles file hfile
          · rw [List.mem_singleton.mp hfile]
            exact ⟨⟨entry, hrest _ List.mem_cons_self, rfl, rfl⟩, hoffset⟩
        have hlen' : (plan.1 ++ [path]).length ≤ MAX_TRANSFER_FILES := by
          rw [List.length_append]
          exact hlen
        refine wp_ite (fun _ => ?_) fun hmore => ?_
        · exact ⟨hnodup'.of_append_left, hlen', hpaths', hfiles'⟩
        · exact ih _ _ hrest' hnodup' (lt_of_le_of_ne hlen' hmore) hpaths' hfiles'
      · refine ih _ _ hrest' (hnodup.sublist ?_) hlen hpaths hfiles
        exact List.Sublist.append_left (List.sublist_cons_self _ _) _

theorem Offered.shaped {remote : Manifest} {shareId : ShareId} (hremote : remote.Valid shareId)
    {file : TransferFile} (hfile : Offered remote file) : file.Shaped := by
  obtain ⟨⟨entry, hentry, hsha, hsize⟩, hoffset⟩ := hfile
  have hrecord := Manifest.record_file_iff.mpr hentry
  have hvalid := hremote.record_valid hrecord
  simp only [ManifestRecord.validate, ManifestEntry.validate, andThen_eq_ok,
    rejectIf_eq_ok, not_or, Decidable.not_not, ne_eq, Bool.not_eq_false] at hvalid
  exact ⟨hremote.accepted hrecord, hsha ▸ hvalid.1, hoffset⟩

theorem shaped_of_offered {remote : Manifest} {shareId : ShareId} (hremote : remote.Valid shareId)
    {files : List TransferFile} (hcount : files.length ≤ MAX_TRANSFER_FILES)
    (hdistinct : (files.map TransferFile.path).Nodup) (hfiles : ∀ file ∈ files, Offered remote file) :
    Shaped files :=
  ⟨hcount, fun file hfile => (hfiles file hfile).shaped hremote, hdistinct⟩

/-- What a request holds, whatever the partial files of the client are. -/
structure Requested (shareId : ShareId) (local_ remote : Manifest) (request : TransferRequest) :
    Prop where
  version : request.protocolVersion = PROTOCOL_VERSION
  share : request.shareId = shareId
  paths : Listed request.downloadPaths
  resumes : Shaped request.downloadResumes
  asked : request.downloadResumes.map TransferFile.path = request.downloadPaths
  uploads : Shaped request.uploads
  offered : ∀ file ∈ request.uploads, file.Of local_

theorem makeTransferRequest_spec {shareId : ShareId} {local_ remote : Manifest}
    (hlocal : local_.Valid shareId) (hremote : remote.Valid shareId) :
    (makeTransferRequest tmp shareId local_ remote).wp h w
      (fun r _ => Requested shareId local_ remote r.1) fun _ _ => True := by
  have hlookup : ∀ (t : BTreeMap Str ManifestEntry), ∀ x ∈ t.toList, t[x.1]? = some x.2 :=
    fun t x hx => Std.ExtTreeMap.mem_toList_iff_getElem?_eq_some.mp hx
  have hkeys : ∀ (t : BTreeMap Str ManifestEntry), (t.toList.map Prod.fst).Nodup := by
    intro t
    rw [Std.ExtTreeMap.map_fst_toList_eq_keys]
    exact Std.ExtTreeMap.nodup_keys
  unfold makeTransferRequest
  refine wp_then (planDownloads_spec _ ([], []) w (hlookup remote.entries)
    (hkeys remote.entries) (by decide) rfl (by simp)) ?_
  rintro ⟨paths, resumes⟩ w₁ ⟨hnodup, hcount, hasked, hoffered⟩
  obtain rfl : resumes.map TransferFile.path = paths := hasked
  have hresumes : Shaped resumes := by
    refine shaped_of_offered hremote ?_ hnodup hoffered
    rwa [List.length_map] at hcount
  have hfiles : ∀ file ∈ ((uploadCandidates local_ remote).take MAX_TRANSFER_FILES).map
      (fun x => TransferFile.mk x.1 x.2.sha256 x.2.size 0), Offered local_ file := by
    intro file hfile
    obtain ⟨x, hx, rfl⟩ := List.mem_map.mp hfile
    have hx := hlookup _ x (List.mem_filter.mp (List.mem_of_mem_take hx)).1
    exact ⟨⟨x.2, hx, rfl, rfl⟩, Nat.zero_le _⟩
  refine ⟨rfl, rfl, ⟨hcount, ?_, hnodup⟩, hresumes, rfl, ?_, fun file hfile => (hfiles file hfile).1⟩
  · intro path hpath
    obtain ⟨file, hfile, rfl⟩ := List.mem_map.mp hpath
    exact (hresumes.each file hfile).path
  · refine shaped_of_offered hlocal ?_ ?_ hfiles
    · rw [List.length_map, List.length_take]
      exact min_le_left _ _
    · rw [List.map_map]
      refine (hkeys local_.entries).sublist (List.Sublist.map Prod.fst ?_)
      exact (List.take_sublist _ _).trans List.filter_sublist

theorem makeTransferReady_spec {request : TransferRequest} {manifest : Manifest}
    (hshaped : Shaped request.uploads) :
    (makeTransferReady tmp request manifest).wp h w
      (fun ready _ => ready.protocolVersion = PROTOCOL_VERSION ∧ ready.shareId = request.shareId
        ∧ Shaped ready.uploads ∧ List.Forall₂ TransferFile.Answers ready.uploads request.uploads)
      fun _ _ => True := by
  unfold makeTransferReady
  rw [wp_bind]
  refine wp_of_forall (fun _ w₁ => ?_) fun _ _ => trivial
  rw [wp_bind]
  refine wp_conseq (Q := fun uploads _ => List.Forall₂ (fun asked file : TransferFile =>
    file.Answers asked ∧ file.offset ≤ file.size) request.uploads uploads) ?_ ?_
  · refine wp_mapM fun file _ w => ?_
    exact wp_then partialSize_spec fun offset _ hoffset => ⟨⟨rfl, rfl, rfl⟩, hoffset⟩
  · intro uploads w₂ huploads
    have hanswers : List.Forall₂ TransferFile.Answers uploads request.uploads :=
      (huploads.imp fun _ _ hab => hab.1).flip
    refine ⟨rfl, rfl, hshaped.of_answers hanswers fun file hfile => ?_, hanswers⟩
    obtain ⟨i, hi, rfl⟩ := List.mem_iff_getElem.mp hfile
    exact (huploads.get (huploads.length_eq ▸ hi) hi).2

theorem buildTransferFiles_ok {manifest : Manifest} {shareId : ShareId} {paths : List Str}
    {resumes : List TransferFile} (hvalid : manifest.Valid shareId) (hpaths : Listed paths)
    (hresumes : Shaped resumes) : ∃ files, buildTransferFiles manifest paths resumes = .ok files
      ∧ Shaped files ∧ ∀ file ∈ files, file.Of manifest := by
  let files := paths.filterMap (transferFileFor manifest paths resumes)
  let sorted := (files.insertionSort fun left right => left.path ≤ right.path).destutter
    fun left right => left.path ≠ right.path
  have hsorted : sorted.Subperm files :=
    (List.destutter_sublist _ _).subperm.trans (List.perm_insertionSort _ _).subperm
  have hfrom : ∀ file ∈ files, Offered manifest file := by
    intro file hfile
    obtain ⟨path, -, hpath⟩ := List.mem_filterMap.mp hfile
    exact (transferFileFor_eq_some hpath).2
  have hsub := transferFileFor_sublist manifest paths resumes paths
  refine ⟨sorted, ?_, ?_, fun file hfile => (hfrom file (hsorted.subset hfile)).1⟩
  · simp only [buildTransferFiles, andThen_eq_ok]
    exact ⟨validatePathList_eq_ok.mpr hpaths, validateTransferFileShapes_eq_ok.mpr hresumes, rfl⟩
  · refine shaped_of_offered hvalid ?_ ?_ fun file hfile => hfrom file (hsorted.subset hfile)
    · have hlen := hsub.length_le
      rw [List.length_map] at hlen
      exact hsorted.length_le.trans (hlen.trans hpaths.count)
    · obtain ⟨l, hperm, hl⟩ := hsorted
      refine (hperm.map TransferFile.path).nodup_iff.mp ?_
      exact hpaths.distinct.sublist ((hl.map _).trans hsub)

theorem knownPeerStrings_accepted {known : KnownPeers} (hknown : known.validate = .ok ())
    (localId remote : EndpointId) : validateWirePeers (knownPeerStrings known localId remote) = .ok () := by
  obtain ⟨-, -, heach, hdistinct⟩ := KnownPeers.validate_eq_ok.mp hknown
  let values := (known.peers.filter fun peer => peer.endpointId ≠ endpointIdString localId
    && peer.endpointId ≠ endpointIdString remote).map PeerRecord.endpointId
  have hvalues : values.Sublist (known.peers.map PeerRecord.endpointId) := List.filter_sublist.map _
  have hsub : (knownPeerStrings known localId remote).Subperm values :=
    ((List.take_sublist _ _).trans (List.destutter_sublist _ _)).subperm.trans
      (List.perm_insertionSort _ _).subperm
  refine validateWirePeers_eq_ok.mpr ⟨?_, fun peer hpeer => ?_, ?_⟩
  · rw [knownPeerStrings, List.length_take]
    exact min_le_left _ _
  · obtain ⟨record, hrecord, rfl⟩ := List.mem_map.mp (hvalues.subset (hsub.subset hpeer))
    exact heach record hrecord
  · obtain ⟨l, hperm, hl⟩ := hsub
    exact hperm.nodup_iff.mp (hdistinct.sublist (hl.trans hvalues))

theorem outboundManifest_valid {complete : Bool} {snapshot : Manifest} {shareId : ShareId}
    (hsnapshot : snapshot.Valid shareId) (nowMs : U64) :
    (outboundManifest complete snapshot shareId nowMs).Valid shareId := by
  unfold outboundManifest
  split
  · exact hsnapshot
  · exact Manifest.valid_empty shareId nowMs

/-- The digest that was advertised is that of the manifest that is sent, although an empty
manifest is made anew at a later time. -/
theorem outboundDigest_eq {complete : Bool} {snapshot : Manifest} {shareId : ShareId}
    (advertisedMs sentMs : U64) : outboundDigest complete snapshot shareId advertisedMs
      = .ok (outboundManifest complete snapshot shareId sentMs).syncDigestAfterValidation := by
  unfold outboundDigest outboundManifest
  split
  · rfl
  · have hvalid := Manifest.validate_eq_ok.mpr (Manifest.valid_empty shareId advertisedMs)
    show ((Manifest.empty shareId advertisedMs).validate shareId >>= fun _ => _) = _
    rw [hvalid]
    rfl

theorem validateManifestMessage_ok {manifest : Manifest} {shareId : ShareId}
    (hvalid : manifest.Valid shareId) :
    validateManifestMessage ⟨PROTOCOL_VERSION, shareId, manifest⟩ shareId
      manifest.syncDigestAfterValidation = .ok ⟨manifest, shareId, hvalid⟩ := by
  simp only [validateManifestMessage, bind_eq_ok, rejectIf_eq_ok,
    ValidatedManifest.validate_eq_ok, not_or, Decidable.not_not, ne_eq, true_and, exists_const]
  exact ⟨_, ⟨hvalid, rfl⟩, rfl⟩

theorem Requested.accepted {shareId : ShareId} {local_ remote : Manifest} {request : TransferRequest}
    (hrequest : Requested shareId local_ remote request) (hlocal : local_.Valid shareId) :
    validateTransferRequestWithValidatedManifest request shareId ⟨local_, shareId, hlocal⟩ = .ok () := by
  simp only [validateTransferRequestWithValidatedManifest, ValidatedManifest.forShare,
    bind_eq_ok, rejectIf_eq_ok, not_or, Decidable.not_not, ne_eq, Except.ok.injEq,
    validatePathListUnique_eq_ok, forM_eq_ok, exists_and_left, exists_const]
  refine ⟨⟨hrequest.version, hrequest.share⟩, local_, ⟨hlocal.share, rfl⟩, _, ⟨hrequest.paths, rfl⟩,
    (), validateTransferFiles_eq_ok.mpr ⟨hrequest.uploads, hrequest.offered⟩,
    (), validateTransferFileShapes_eq_ok.mpr hrequest.resumes, fun resume hresume => ?_⟩
  rw [List.mem_reverse, ← hrequest.asked]
  exact List.mem_map_of_mem hresume

/-- Honest peers accept each other's messages.  `client`, `server` and `final` are saved
manifests — the client's, the server's, and the server's after it applied the transfer —
and nothing is assumed of the partial files on either disk. -/
theorem messages_accepted {shareId : ShareId} {complete : Bool} {client server final : Manifest}
    {clientPeers serverPeers : KnownPeers} (hclient : client.Valid shareId)
    (hserver : server.Valid shareId) (hfinal : final.Valid shareId)
    (hclientPeers : clientPeers.validate = .ok ()) (hserverPeers : serverPeers.validate = .ok ())
    (clientId serverId : EndpointId) (advertisedMs sentMs : U64) :
    ∃ digest, outboundDigest complete client shareId advertisedMs = .ok digest
      ∧ validateSyncRequest ⟨PROTOCOL_VERSION, shareId, digest,
          knownPeerStrings clientPeers clientId serverId⟩ shareId = .ok ()
      ∧ validateSyncResponse ⟨PROTOCOL_VERSION, shareId, server.syncDigestAfterValidation,
          knownPeerStrings serverPeers serverId clientId⟩ shareId = .ok ()
      ∧ (∃ validated, validateManifestMessage ⟨PROTOCOL_VERSION, shareId, server⟩ shareId
          server.syncDigestAfterValidation = .ok validated)
      ∧ ∃ validated, validateManifestMessage
          ⟨PROTOCOL_VERSION, shareId, outboundManifest complete client shareId sentMs⟩ shareId digest
            = .ok validated
        ∧ ∀ {clientTmp : PathBuf} {h : Host} {w w' : World} {request : TransferRequest} {pending : Nat},
          makeTransferRequest clientTmp shareId (outboundManifest complete client shareId sentMs) server
            h w = .ok (request, pending) w' →
          validateTransferRequestWithValidatedManifest request shareId validated = .ok ()
          ∧ (∀ {serverTmp : PathBuf} {h : Host} {w w' : World} {ready : TransferReady},
              makeTransferReady serverTmp request (outboundManifest complete client shareId sentMs) h w
                = .ok ready w' →
              validateTransferReady ready shareId request.uploads = .ok ()
              ∧ checkUploadResumes request.uploads ready.uploads = .ok ()
              ∧ checkUploadReady shareId request.uploads ready.uploads = .ok ()
              ∧ validateTransferFiles ready.uploads
                  (outboundManifest complete client shareId sentMs) = .ok ())
          ∧ ∃ files, buildTransferFiles final request.downloadPaths request.downloadResumes = .ok files
            ∧ (∃ validated, validateTransferResponse ⟨PROTOCOL_VERSION, shareId, final, files⟩ shareId
                = .ok validated)
            ∧ validateTransferFiles files final = .ok () := by
  have hsent := @outboundManifest_valid _ complete _ _ hclient sentMs
  have hpeers : ∀ {known : KnownPeers}, known.validate = .ok () → ∀ here there,
      validateWirePeers (knownPeerStrings known here there) = .ok () :=
    fun hknown => knownPeerStrings_accepted hknown
  refine ⟨_, outboundDigest_eq advertisedMs sentMs, ?_, ?_, ⟨_, validateManifestMessage_ok hserver⟩, _,
    validateManifestMessage_ok hsent, ?_⟩
  · simp only [validateSyncRequest, andThen_eq_ok, rejectIf_eq_ok]
    exact ⟨by simp, hpeers hclientPeers clientId serverId⟩
  · simp only [validateSyncResponse, andThen_eq_ok, rejectIf_eq_ok]
    exact ⟨by simp, hpeers hserverPeers serverId clientId⟩
  intro clientTmp h w w' request pending hrun
  have hrequest := wp_ok (makeTransferRequest_spec hsent hserver) hrun
  refine ⟨hrequest.accepted hsent, ?_, ?_⟩
  · intro serverTmp h w w' ready hready
    obtain ⟨hversion, hshare, hshaped, hanswers⟩ :=
      wp_ok (makeTransferReady_spec hrequest.uploads) hready
    refine ⟨validateTransferReady_eq_ok.mpr ⟨⟨hversion, hshare.trans hrequest.share⟩, hshaped, hanswers⟩,
      checkUploadResumes_eq_ok hrequest.uploads hshaped hanswers,
      validateTransferReady_eq_ok.mpr ⟨⟨rfl, rfl⟩, hshaped, hanswers⟩,
      validateTransferFiles_eq_ok.mpr ⟨hshaped, fun file hfile => ?_⟩⟩
    obtain ⟨i, hi, rfl⟩ := List.mem_iff_getElem.mp hfile
    have hi' : i < request.uploads.length := hanswers.length_eq ▸ hi
    obtain ⟨entry, hentry, hsha, hsize⟩ := hrequest.offered _ (List.getElem_mem hi')
    obtain ⟨hpath, hsha', hsize'⟩ := hanswers.get hi hi'
    exact ⟨entry, hpath ▸ hentry, hsha.trans hsha'.symm, hsize.trans hsize'.symm⟩
  · obtain ⟨files, hbuild, hshaped, hof⟩ :=
      buildTransferFiles_ok hfinal hrequest.paths hrequest.resumes
    have hfiles := validateTransferFiles_eq_ok.mpr ⟨hshaped, hof⟩
    refine ⟨files, hbuild, ⟨⟨final, shareId, hfinal⟩, ?_⟩, hfiles⟩
    simp only [validateTransferResponse, bind_eq_ok, rejectIf_eq_ok,
      ValidatedManifest.validate_eq_ok]
    exact ⟨(), by simp, _, ⟨hfinal, rfl⟩, (), hfiles, rfl⟩

end Answers

/-- A client that has the file `a` and a server that has `b`, which both know a third device: the
client offers the one and asks for the other, and every message is accepted. -/
theorem messages_accepted_twoFiles :
    let _ := Crypto.hex
    let third : PeerRecord := ⟨hexText (List.replicate 32 3), 0, none⟩
    let known : KnownPeers := ⟨FORMAT_VERSION, [third]⟩
    let clientId : EndpointId := ⟨List.replicate 32 1, rfl⟩
    let serverId : EndpointId := ⟨List.replicate 32 2, rfl⟩
    let client := Manifest.oneFile 1 2
    let server := Manifest.fileUse "b".toList
    let asked : TransferFile := ⟨"b".toList, List.replicate 64 '0', 0, 0⟩
    ∃ digest validated request pending w ready w',
      knownPeerStrings known clientId serverId = [third.endpointId]
      ∧ validateSyncRequest ⟨PROTOCOL_VERSION, client.shareId, digest, [third.endpointId]⟩ client.shareId
        = .ok ()
      ∧ makeTransferRequest plainShare.shareTmpDir client.shareId client server .quiet ⟨plainDisk, 0, []⟩
        = .ok (request, pending) w
      ∧ request.uploads.map TransferFile.path = ["a".toList] ∧ request.downloadPaths = ["b".toList]
      ∧ validateTransferRequestWithValidatedManifest request client.shareId validated = .ok ()
      ∧ makeTransferReady plainShare.shareTmpDir request client .quiet w = .ok ready w'
      ∧ ready.uploads = request.uploads
      ∧ validateTransferReady ready client.shareId request.uploads = .ok ()
      ∧ buildTransferFiles server request.downloadPaths request.downloadResumes = .ok [asked]
      ∧ ∃ response, validateTransferResponse ⟨PROTOCOL_VERSION, client.shareId, server, [asked]⟩
        client.shareId = .ok response := by
  intro _ third known clientId serverId client server asked
  have hclient : client.Valid client.shareId := by decide +kernel
  have hserver : server.Valid client.shareId := by decide +kernel
  have hknown : known.validate = .ok () := by decide +kernel
  have hstrings : knownPeerStrings known clientId serverId = [third.endpointId] := by decide +kernel
  obtain ⟨digest, -, hsync, -, -, validated, -, hrun⟩ := @messages_accepted _ client.shareId true client
    server server known known hclient hserver hserver hknown hknown clientId serverId 3 4
  have hplan : (makeTransferRequest plainShare.shareTmpDir client.shareId client server).wp .quiet
      ⟨plainDisk, 0, []⟩ (fun r w => r.1.uploads.map TransferFile.path = ["a".toList]
        ∧ r.1.downloadPaths = ["b".toList]
        ∧ buildTransferFiles server r.1.downloadPaths r.1.downloadResumes = .ok [asked]
        ∧ (makeTransferReady plainShare.shareTmpDir r.1 client).wp .quiet w
          (fun ready _ => ready.uploads = r.1.uploads) fun _ _ => False) fun _ _ => False := by
    decide +kernel
  obtain ⟨⟨request, pending⟩, w, hrequest, huploads, hdownloads, hfiles, hwait⟩ := exists_ok_of_wp hplan
  obtain ⟨ready, w', hready, hsame⟩ := exists_ok_of_wp hwait
  obtain ⟨haccepted, hanswer, files, hbuild, hresponse, -⟩ := hrun hrequest
  obtain rfl := Except.ok.inj (hfiles.symm.trans hbuild)
  exact ⟨digest, validated, request, pending, w, ready, w', hstrings, hstrings ▸ hsync, hrequest,
    huploads, hdownloads, haccepted, hready, hsame, (hanswer hready).1, hbuild, hresponse⟩

end Syncbox

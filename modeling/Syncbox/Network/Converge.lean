/-
# `Syncbox.Network.Converge` — two replicas that exchange end up equal

An exchange moves at most 256 files in each direction, and everything else at once.  At
each path one of the two replicas is ahead, or they are level.  The server takes what the
client is ahead with, as far as it was uploaded; the client then takes what the server was
ahead with, as far as it was downloaded.  What is left is the rest of the two lists, and
the merge of the two manifests is what it was: `Forwards` is this account of one exchange.

The number of exchanges needed follows by induction.  Nothing in the argument depends on
the merge being valid, or on what the sender does: a file that does not arrive as announced
makes the exchange fail, and so does an outcome that is not valid.

## The account

  * `Exchanged`: what one exchange does to the two manifests, from the specifications of its
    legs; `Forwards` and `Moved` are the same path by path;
  * `Account`: what a run of exchanges has done so far.  The merge of the start is the merge of
    the end, and the two lists have lost their first entries, 256 for each exchange.  How many
    exchanges it takes, and what they report, is read off it.

What is assumed of the hashes stands in the hypotheses: no two files to be staged share a name
(`Replicas.apart`), and manifests with one digest agree (`Pair.Told`).
-/
import Syncbox.Network.Containment
import Syncbox.Network.Response
import Syncbox.Network.Settled
import Syncbox.Network.Unchanged

namespace Syncbox

open Rust Unix Prog Check

/-! ## The legs of a session -/

section Legs

variable [Crypto] {share : ActiveShare} {h : Host} {s s' s'' : ShareState}

/-- The replica is settled, with the manifest it had. -/
structure Still (share : ActiveShare) (s s' : ShareState) : Prop where
  settled : Settled share s'
  manifest : s'.manifestFile = s.manifestFile

theorem Still.refl (hs : Settled share s) : Still share s s := ⟨hs, rfl⟩

theorem Still.trans (h₁ : Still share s s') (h₂ : Still share s' s'') : Still share s s'' :=
  ⟨h₂.settled, h₂.manifest.trans h₁.manifest⟩

theorem Still.of_stored {c : ClockState} (hs : Settled share s)
    (hst : Stored share s s.manifestFile c s') : Still share s s' :=
  ⟨hs.stored hst, hst.manifest⟩

theorem Still.of_aside (hs : Settled share s) {w : World}
    (ha : Aside share.shareTmpDir s.world.disk w.disk) : Still share s { s with world := w } :=
  ⟨hs.world ha, rfl⟩

theorem updateRuntime_still (hs : Settled share s) :
    (updateRuntime share).wp h s (fun _ s' => Still share s s') fun _ _ => True :=
  wp_mono (updateRuntime_spec hs.consistent) (fun _ _ hst => .of_stored hs hst) fun _ _ _ => trivial

theorem manifestSnapshot_still (hs : Settled share s) :
    (manifestSnapshot share).wp h s (fun snapshot s' => snapshot = .fromValidated s.manifestFile
      ∧ Still share s s') fun _ _ => True :=
  wp_mono (manifestSnapshot_spec hs.consistent) (fun _ _ hs₁ => ⟨hs₁.1, .of_stored hs hs₁.2⟩)
    fun _ _ _ => trivial

theorem currentTimeMs_still (hs : Settled share s) :
    (onDisk currentTimeMs).wp h s (fun _ s' => Still share s s') fun _ _ => True := by
  rw [wp_onDisk, wp_currentTimeMs]
  exact .of_aside hs (.refl _ _)

theorem send_still (hs : Settled share s) (files : List TransferFile) :
    (connected [] (sendFileChunksFromRoot share.localDirectory files)).wp h s
      (fun _ s' => Still share s s') fun _ _ => True := by
  rw [wp_connected]
  have hreads := @sendFileChunksFromRoot_reads h ⟨s.world, [], []⟩ share.localDirectory
    share.shareTmpDir files hs.realizes.isDir
  exact wp_mono hreads (fun _ _ hl => .of_aside hs (.of_eq hl.disk)) fun _ _ _ => trivial

/-- A client offers the manifest it has, or none before its first complete synchronization. -/
structure Offers (share : ActiveShare) (complete : Bool) (m : Manifest) (offer : Offer) : Prop where
  flag : offer.initialSyncComplete = complete
  snapshot : offer.snapshot = if complete then some (.fromValidated m) else none
  digest : ∀ nowMs, offer.digest
    = (outboundManifest complete m share.shareId nowMs).syncDigestAfterValidation

theorem makeOffer_spec {s : RunningShare} (hs : Settled share s.state) :
    (makeOffer share).wp h s (fun offer s' => Still share s.state s'.state
      ∧ s'.initialSyncComplete = s.initialSyncComplete
      ∧ Offers share s.initialSyncComplete s.state.manifestFile offer) fun _ _ => True := by
  unfold makeOffer offerAfter
  rw [wp_bind, wp_getRunning, wp_onShare, wp_bind]
  refine wp_conseq (updateRuntime_still hs) fun _ s₁ h₁ => ?_
  refine wp_ite (fun hcomplete => ?_) fun hincomplete => ?_
  · refine wp_then (manifestSnapshot_still h₁.settled) ?_
    rintro snapshot s₂ ⟨rfl, h₂⟩
    refine ⟨h₁.trans h₂, rfl, ?_⟩
    rw [h₁.manifest, hcomplete]
    exact ⟨rfl, rfl, fun _ => rfl⟩
  · rw [Bool.not_eq_true] at hincomplete
    refine wp_then (currentTimeMs_still h₁.settled) fun nowMs s₂ h₂ => ?_
    rw [wp_bind]
    refine wp_ofExcept (fun digest hdigest => ?_) fun _ _ => trivial
    refine ⟨h₁.trans h₂, rfl, ?_⟩
    rw [hincomplete]
    refine ⟨rfl, rfl, fun sentMs => ?_⟩
    have heq := @outboundDigest_eq _ false s.state.manifestFile share.shareId nowMs sentMs
    rw [show outboundDigest false s.state.manifestFile share.shareId nowMs = .ok digest from hdigest] at heq
    exact Except.ok.inj heq

theorem outbound_spec {complete : Bool} {m : Manifest} {offer : Offer} (hs : Settled share s)
    (ho : Offers share complete m offer) :
    (offer.outbound share).wp h s (fun outbound s' => Still share s s'
      ∧ ∃ nowMs, outbound = outboundManifest complete m share.shareId nowMs) fun _ _ => True := by
  unfold Offer.outbound
  refine wp_then (currentTimeMs_still hs) fun nowMs s₁ h₁ => ⟨h₁, nowMs, ?_⟩
  rw [ho.snapshot]
  cases complete <;> rfl

/-- A request lists the first candidates in both directions. -/
structure Plans (outbound remote : Manifest) (transfer : TransferRequest) (pendingUpdates : Nat) :
    Prop where
  downloads : transfer.downloadPaths = (planned outbound remote).map Prod.fst
  resumes : Shaped transfer.downloadResumes
  uploads : transfer.uploads.map TransferFile.path = (planned remote outbound).map Prod.fst
  pending : pendingUpdates = (candidates remote outbound).length - (planned remote outbound).length

theorem planTransfer_spec {outbound : Manifest} {answered : Digest} {message : ManifestMessage}
    (hs : Settled share s) (ho : outbound.Valid share.shareId) :
    (planTransfer share outbound answered message).wp h s (fun r s' => Still share s s'
      ∧ Plans outbound message.manifest r.1 r.2) fun _ _ => True := by
  unfold planTransfer
  rw [wp_bind]
  refine wp_ofExcept (fun validated hvalidated => ?_) fun _ _ => trivial
  have hremote : message.manifest.Valid share.shareId := by
    simp only [validateManifestMessage, bind_eq_ok, ValidatedManifest.validate_eq_ok] at hvalidated
    obtain ⟨_, -, _, ⟨hvalid, -⟩, -⟩ := hvalidated
    exact hvalid
  rw [wp_onDisk]
  refine wp_mono (wp_both (makeTransferRequest_aside hs.staging)
    (wp_both (makeTransferRequest_spec ho hremote) makeTransferRequest_lists)) ?_ fun _ _ _ => trivial
  rintro r w ⟨haside, hspec, hdown, hup, hpending⟩
  exact ⟨.of_aside hs haside, hdown, hspec.resumes, hup, hpending⟩

theorem answerTransfer_spec {remote : ValidatedManifest} {transfer : TransferRequest}
    (hs : Settled share s) :
    (answerTransfer share remote transfer).wp h s (fun ready s' => Still share s s'
      ∧ (∀ file ∈ ready.uploads, file.Of remote.manifest)
      ∧ ready.uploads.map TransferFile.path = transfer.uploads.map TransferFile.path)
      fun _ _ => True := by
  unfold answerTransfer
  rw [wp_bind]
  refine wp_ofExcept (fun _ hrequest => ?_) fun _ _ => trivial
  have hfiles : Shaped transfer.uploads ∧ ∀ file ∈ transfer.uploads, file.Of remote.manifest := by
    simp only [validateTransferRequestWithValidatedManifest, ValidatedManifest.forShare,
      bind_eq_ok] at hrequest
    obtain ⟨-, -, _, ⟨-, -, hmanifest⟩, _, -, _, hfiles, -⟩ := hrequest
    cases hmanifest
    exact validateTransferFiles_eq_ok.mp hfiles
  rw [wp_onDisk]
  refine wp_mono (wp_both (makeTransferReady_aside hs.staging)
    (makeTransferReady_spec hfiles.1)) ?_ fun _ _ _ => trivial
  rintro ready w ⟨haside, -, -, -, hanswers⟩
  refine ⟨.of_aside hs haside, fun file hfile => ?_, ?_⟩
  · obtain ⟨asked, hasked, hpath, hsha, hsize⟩ := exists_of_forall₂ hanswers hfile
    obtain ⟨e, he, hesha, hesize⟩ := hfiles.2 asked hasked
    exact ⟨e, by rw [hpath]; exact he, by rw [hsha]; exact hesha, by rw [hsize]; exact hesize⟩
  · refine List.forall₂_eq_eq_eq ▸ List.forall₂_map_left_iff.mpr (List.forall₂_map_right_iff.mpr ?_)
    exact hanswers.imp fun _ _ hab => hab.1

theorem sendUploads_still {transfer : TransferRequest} {ready : TransferReady} (hs : Settled share s) :
    (sendUploads share transfer ready).wp h s (fun _ s' => Still share s s') fun _ _ => True := by
  unfold sendUploads
  rw [wp_bind]
  refine wp_ofExcept (fun _ _ => ?_) fun _ _ => trivial
  rw [wp_bind]
  refine wp_ofExcept (fun _ _ => ?_) fun _ _ => trivial
  exact wp_then (send_still hs _) fun _ _ h₁ => h₁

theorem sendDownloads_still {files : List TransferFile} (hs : Settled share s) :
    (sendDownloads share files).wp h s (fun _ s' => Still share s s') fun _ _ => True := by
  unfold sendDownloads
  refine wp_then (send_still hs _) fun _ s₁ h₁ => ?_
  exact wp_then (updateRuntime_still h₁.settled) fun _ _ h₂ => h₁.trans h₂

/-- What a replica receives for a manifest, it takes. -/
theorem receive_and_apply {validated : ValidatedManifest} {files : List TransferFile}
    (hs : Settled share s) (recv : List Byte) (hshaped : Shaped files)
    (hof : ∀ file ∈ files, file.Of validated.manifest) (hu : Unclashing validated.manifest)
    (hcanonical : validated.manifest.CanonicalPaths)
    (hrecorded : validated.manifest.AncestorsRecorded) :
    (do
      let (completed, _) ← connected recv (receiveFileChunks share.shareTmpDir files)
      applyValidatedRemoteStagedTransfer share validated completed : App ApplyOutcome).wp h s
      (fun outcome s' => Settled share s'
        ∧ s'.manifestFile.formatVersion = s.manifestFile.formatVersion
        ∧ ∃ pending, outcome.pendingDownloads = pending.length
          ∧ Takes s.manifestFile validated.manifest (· ∈ files.map TransferFile.path) pending
            s'.manifestFile)
      fun _ _ => True := by
  refine wp_then (hs.receive recv hshaped hof hu) ?_
  rintro ⟨completed, sent⟩ s₁ ⟨rfl, hs₁, hm, hv⟩
  rw [← hm]
  exact hs₁.applyStaged hcanonical hrecorded hv

omit [Crypto] in
theorem sent_of_build {manifest : Manifest} {paths : List Str} {resumes files : List TransferFile}
    (hbuild : buildTransferFiles manifest paths resumes = .ok files) :
    Sent manifest paths resumes files := by
  have hbuild' := hbuild
  rw [buildTransferFiles, andThen_eq_ok, andThen_eq_ok, validatePathList_eq_ok,
    validateTransferFileShapes_eq_ok] at hbuild'
  obtain ⟨files', hok, hsent⟩ := buildTransferFiles_sent manifest hbuild'.1 hbuild'.2.1
  rw [hbuild] at hok
  cases hok
  exact hsent

/-- The server takes the client's manifest and lists what it sends back. -/
structure ServedBy (remote : Manifest) (transfer : TransferRequest) (served : Served) (s s' : ShareState) :
    Prop where
  format : s'.manifestFile.formatVersion = s.manifestFile.formatVersion
  takes : ∃ pending, Takes s.manifestFile remote (· ∈ transfer.uploads.map TransferFile.path) pending
    s'.manifestFile
  final : served.final = .fromValidated s'.manifestFile
  files : Sent s'.manifestFile transfer.downloadPaths transfer.downloadResumes served.files

theorem takeUploads_spec {remote : ValidatedManifest} {transfer : TransferRequest}
    {ready : TransferReady} {recv : List Byte} (hs : Settled share s)
    (hof : ∀ file ∈ ready.uploads, file.Of remote.manifest)
    (hpaths : ready.uploads.map TransferFile.path = transfer.uploads.map TransferFile.path)
    (hu : Unclashing remote.manifest)
    (hcanonical : remote.manifest.CanonicalPaths) (hrecorded : remote.manifest.AncestorsRecorded) :
    (takeUploads share remote transfer ready recv).wp h s (fun served s' => Settled share s'
      ∧ ServedBy remote.manifest transfer served s s') fun _ _ => True := by
  unfold takeUploads applyUploads
  rw [wp_bind]
  refine wp_ofExcept (fun _ hready => ?_) fun _ _ => trivial
  have hshaped : Shaped ready.uploads := (validateTransferReady_eq_ok.mp hready).2.1
  have happly := receive_and_apply (h := h) hs recv hshaped hof hu hcanonical hrecorded
  rw [wp_bind] at happly ⊢
  refine wp_conseq happly ?_
  rintro ⟨completed, sent⟩ s₁ hrest
  refine wp_then hrest ?_
  rintro applied s₂ ⟨hs₂, hformat, pending, -, htakes⟩
  refine wp_then (manifestSnapshot_still hs₂) ?_
  rintro final s₃ ⟨rfl, h₃⟩
  rw [wp_bind]
  refine wp_ofExcept (fun files hfiles => ?_) fun _ _ => trivial
  refine ⟨h₃.settled, ?_, ⟨pending, ?_⟩, ?_, ?_⟩
  · rw [h₃.manifest, hformat]
  · rw [h₃.manifest, ← hpaths]
    exact htakes
  · rw [h₃.manifest]
  · rw [h₃.manifest]
    exact sent_of_build hfiles

/-- What a session leaves once the manifest was applied.  The first complete application ends the
initial synchronization, and the tree is scanned. -/
structure Concludes (share : ActiveShare) (h : Host) (complete : Bool) (applied : ApplyOutcome)
    (s : ShareState) (s' : RunningShare) : Prop where
  otherwise : complete = true ∨ applied.pendingDownloads ≠ 0 →
    Still share s s'.state ∧ s'.initialSyncComplete = complete
  first : complete = false → applied.pendingDownloads = 0 → s'.initialSyncComplete = true
    ∧ ∃ s₁, Still share s s₁ ∧ scanAndSave share h s₁ = .ok () s'.state

theorem completeInitialSync_spec {s : RunningShare} (hs : Settled share s.state) :
    (completeInitialSync share).wp h s (fun _ s' => s'.initialSyncComplete = true
      ∧ ∃ s₁, Still share s.state s₁ ∧ scanAndSave share h s₁ = .ok () s'.state) fun _ _ => True := by
  unfold completeInitialSync
  rw [wp_bind, wp_onShare]
  have hsave : (atomicWriteJson (share.sharePath "config.json") fun s =>
      { s with initialSyncComplete := true }).wp h s.state (fun _ s₁ => Still share s.state s₁)
      fun _ _ => True := by
    unfold Prog.wp atomicWriteJson
    by_cases hfault : h.fault s.state.world.calls = true
    · rw [if_pos hfault]
      trivial
    · rw [if_neg hfault]
      exact ⟨hs.aside ⟨hs.consistent.valid, hs.consistent.cache⟩ rfl (.refl _ _), rfl⟩
  refine wp_conseq hsave fun _ s₁ h₁ => ?_
  show Prog.wp (modify _ >>= fun _ => onShare (scanAndSave share)) _ _ _ _
  rw [wp_bind]
  show (onShare (scanAndSave share)).wp h _ _ _
  rw [wp_onShare]
  exact wp_mono (wp_self _ _ _) (fun _ _ hrun => ⟨rfl, s₁, h₁, hrun⟩) fun _ _ _ => trivial

theorem finishTransfer_spec {s : RunningShare} {response : TransferResponse} {recv : List Byte}
    (hs : Settled share s.state) (hu : Unclashing response.manifest)
    (hcanonical : response.manifest.CanonicalPaths) (hrecorded : response.manifest.AncestorsRecorded) :
    (finishTransfer share response recv).wp h s (fun applied s' => ∃ s₁, Settled share s₁
      ∧ s₁.manifestFile.formatVersion = s.state.manifestFile.formatVersion
      ∧ (∃ pending, applied.pendingDownloads = pending.length
        ∧ Takes s.state.manifestFile response.manifest (· ∈ response.files.map TransferFile.path) pending
          s₁.manifestFile)
      ∧ Concludes share h s.initialSyncComplete applied s₁ s') fun _ _ => True := by
  unfold finishTransfer takeDownloads
  rw [wp_bind]
  refine wp_ofExcept (fun validated hvalidated => ?_) fun _ _ => trivial
  obtain ⟨hsame, hshaped, hof⟩ := validateTransferResponse_ok hvalidated
  rw [← hsame] at hof hu hcanonical hrecorded ⊢
  have happly := receive_and_apply (h := h) hs recv hshaped hof hu hcanonical hrecorded
  rw [wp_bind] at happly ⊢
  rw [wp_onShare]
  refine wp_conseq happly ?_
  rintro ⟨completed, sent⟩ s₁ hrest
  rw [wp_bind, wp_onShare]
  refine wp_conseq hrest ?_
  rintro applied s₂ ⟨hs₂, hformat, htakes⟩
  rw [wp_bind]
  have hupdated : (Prog.when (applied.appliedRecords > 0) (onShare (updateRuntime share))).wp h
      { s with state := s₂ } (fun _ s₃ => Still share s₂ s₃.state
        ∧ s₃.initialSyncComplete = s.initialSyncComplete) fun _ _ => True := by
    refine wp_when (fun _ => ?_) fun _ => ⟨.refl hs₂, rfl⟩
    rw [wp_onShare]
    exact wp_conseq (updateRuntime_still hs₂) fun _ _ h₃ => ⟨h₃, rfl⟩
  refine wp_conseq hupdated ?_
  rintro _ s₃ ⟨h₃, hflag⟩
  rw [wp_bind, wp_getRunning]
  dsimp only
  by_cases hfirst : s₃.initialSyncComplete = false ∧ applied.pendingDownloads = 0
  · rw [if_pos hfirst, wp_bind]
    refine wp_conseq (completeInitialSync_spec h₃.settled) ?_
    rintro _ s₄ ⟨htrue, s₁', h₁', hscan⟩
    refine ⟨s₂, hs₂, hformat, htakes, fun hno => ?_, fun _ _ => ⟨htrue, s₁', h₃.trans h₁', hscan⟩⟩
    rw [← hflag, hfirst.1] at hno
    exact absurd hfirst.2 (hno.resolve_left Bool.false_ne_true)
  · rw [if_neg hfirst]
    refine ⟨s₂, hs₂, hformat, htakes, fun _ => ⟨h₃, hflag⟩, fun hf hp => ?_⟩
    exact absurd ⟨hflag.trans hf, hp⟩ hfirst

end Legs

/-! ## A session -/

section Outbound

theorem record_outbound (complete : Bool) (m : Manifest) (shareId : ShareId) (nowMs : U64) (q : Str) :
    (outboundManifest complete m shareId nowMs).record q = if complete then m.record q else none := by
  cases complete with
  | true => rfl
  | false => exact record_empty shareId nowMs q

theorem canonical_outbound {complete : Bool} {m : Manifest} {shareId : ShareId} {nowMs : U64}
    (hm : m.CanonicalPaths) : (outboundManifest complete m shareId nowMs).CanonicalPaths := by
  intro q r hr
  rw [record_outbound] at hr
  split at hr
  · exact hm hr
  · cases hr

theorem recorded_outbound {complete : Bool} {m : Manifest} {shareId : ShareId} {nowMs : U64}
    (hm : m.AncestorsRecorded) : (outboundManifest complete m shareId nowMs).AncestorsRecorded := by
  cases complete with
  | true => exact hm
  | false =>
      rintro q a ⟨r, hr, -⟩ -
      rw [record_outbound] at hr
      cases hr

theorem fileKeys_outbound (complete : Bool) (m : Manifest) (shareId : ShareId) (nowMs : U64) :
    fileKeys (outboundManifest complete m shareId nowMs) ⊆ fileKeys m := by
  rintro key ⟨q, e, hrecord, rfl⟩
  rw [record_outbound] at hrecord
  split at hrecord
  · exact ⟨q, e, hrecord, rfl⟩
  · cases hrecord

theorem Takes.fileKeys {local_ remote new : Manifest} {delivered : Str → Prop} {pending : List Str}
    (ht : Takes local_ remote delivered pending new) :
    fileKeys new ⊆ fileKeys local_ ∪ fileKeys remote := by
  rintro key ⟨q, e, hrecord, rfl⟩
  rcases ht.record_or q with heq | heq
  · exact .inl ⟨q, e, heq ▸ hrecord, rfl⟩
  · exact .inr ⟨q, e, heq ▸ hrecord, rfl⟩

theorem Sent.path_iff {manifest : Manifest} {paths : List Str} {resumes files : List TransferFile}
    (hs : Sent manifest paths resumes files) (hresumes : Shaped resumes) {q : Str} :
    q ∈ files.map TransferFile.path ↔ q ∈ paths ∧ ∃ e, manifest.record q = some (.file e) := by
  constructor
  · intro hq
    obtain ⟨file, hfile, rfl⟩ := List.mem_map.mp hq
    obtain ⟨hpath, ⟨e, he, -⟩, -⟩ := (hs.mem_iff file).mp hfile
    exact ⟨hpath, e, Manifest.record_file_iff.mpr he⟩
  · rintro ⟨hq, e, he⟩
    have hentry := Manifest.record_file_iff.mp he
    obtain ⟨file, hfile⟩ : ∃ file, transferFileFor manifest paths resumes q = some file := by
      rw [transferFileFor, hentry]
      exact ⟨_, rfl⟩
    obtain ⟨rfl, hof, hres⟩ := (transferFileFor_eq_some_iff hresumes).mp hfile
    exact List.mem_map.mpr ⟨file, (hs.mem_iff file).mpr ⟨hq, hof, hres⟩, rfl⟩

end Outbound

section Session

variable [Crypto] {client server : ActiveShare} {h : Host × Host} {p : Pair}

/-- The account of a session in which the digests differ: `outbound` is what the client sent, the
server takes it with the files that were uploaded, and the client takes what the server then has,
with the files that were downloaded. -/
structure Exchanged (outbound c s c' s' : Manifest) (outcome : PeerSyncOutcome) : Prop where
  server : ∃ pending, Takes s outbound (· ∈ (planned s outbound).map Prod.fst) pending s'
  client : ∃ pending, outcome.pendingDownloads = pending.length
    ∧ Takes c s' (fun q => q ∈ (planned outbound s).map Prod.fst ∧ ∃ e, s'.record q = some (.file e))
      pending c'
  updates : outcome.pendingUpdates = (candidates s outbound).length - (planned s outbound).length
  clientFormat : c'.formatVersion = c.formatVersion
  serverFormat : s'.formatVersion = s.formatVersion

theorem exchangeManifests_spec {offer : Offer} {answer : ManifestSnapshot}
    (hc : Settled client p.client.state) (hs : Settled server p.server.state)
    (hkeys : Set.InjOn Crypto.sha256
      (fileKeys p.client.state.manifestFile ∪ fileKeys p.server.state.manifestFile))
    (ho : Offers client p.client.initialSyncComplete p.client.state.manifestFile offer)
    (ha : answer = .fromValidated p.server.state.manifestFile) :
    (exchangeManifests client server offer answer).wp h p (fun outcome p' => ∃ nowMs applied s₁,
      Settled server p'.server.state ∧ Settled client s₁
      ∧ p'.server.initialSyncComplete = p.server.initialSyncComplete
      ∧ Exchanged (outboundManifest p.client.initialSyncComplete p.client.state.manifestFile
          client.shareId nowMs) p.client.state.manifestFile p.server.state.manifestFile
          s₁.manifestFile p'.server.state.manifestFile outcome
      ∧ outcome.pendingDownloads = applied.pendingDownloads
      ∧ Concludes client h.1 p.client.initialSyncComplete applied s₁ p'.client) fun _ _ => True := by
  subst ha
  unfold exchangeManifests
  rw [wp_bind, wp_atClient, wp_onShare]
  refine wp_conseq (outbound_spec hc ho) ?_
  rintro outbound c₁ ⟨hc₁, nowMs, hout⟩
  have hvalid : outbound.Valid client.shareId := hout ▸ outboundManifest_valid hc.consistent.valid nowMs
  have hcanonical : outbound.CanonicalPaths := hout ▸ canonical_outbound hc.canonical
  have hrecorded : outbound.AncestorsRecorded := hout ▸ recorded_outbound hc.recorded
  have hsub : fileKeys outbound ⊆ fileKeys p.client.state.manifestFile :=
    hout ▸ fileKeys_outbound _ _ _ _
  rw [wp_bind, wp_atServer]
  refine wp_ofExcept (fun remote hremote => ?_) fun _ _ => trivial
  have hsame : remote.manifest = outbound := by
    simp only [validateManifestMessage, bind_eq_ok, ValidatedManifest.validate_eq_ok] at hremote
    obtain ⟨-, -, _, ⟨-, hsame⟩, -, -, hresult⟩ := hremote
    cases hresult
    exact hsame
  subst hsame
  rw [wp_bind, wp_atClient, wp_onShare]
  refine wp_conseq (planTransfer_spec hc₁.settled hvalid) ?_
  rintro ⟨transfer, pendingUpdates⟩ c₂ ⟨hc₂, hplans⟩
  rw [wp_bind, wp_atServer]
  refine wp_conseq (answerTransfer_spec hs) ?_
  rintro ready s₁ ⟨hs₁, hof, hpaths⟩
  rw [wp_bind, wp_atClient, wp_onShare]
  refine wp_conseq (sendUploads_still hc₂.settled) fun uploads c₃ hc₃ => ?_
  rw [wp_bind, wp_atServer]
  have hu : Unclashing remote.manifest := hkeys.mono (hsub.trans Set.subset_union_left)
  refine wp_conseq (takeUploads_spec hs₁.settled hof hpaths hu hcanonical hrecorded) ?_
  rintro served s₂ ⟨hs₂, hformat, ⟨pending, htakes⟩, hfinal, hsent⟩
  rw [hs₁.manifest] at hformat htakes
  rw [wp_bind, wp_atServer]
  refine wp_conseq (sendDownloads_still hs₂) fun downloads s₃ hs₃ => ?_
  rw [wp_bind, wp_atClient, hfinal]
  have hc' : Still client p.client.state c₃ := (hc₁.trans hc₂).trans hc₃
  have hu' : Unclashing s₂.manifestFile := by
    refine hkeys.mono (htakes.fileKeys.trans (Set.union_subset Set.subset_union_right ?_))
    exact hsub.trans Set.subset_union_left
  refine wp_conseq (finishTransfer_spec hc'.settled hu' hs₂.canonical hs₂.recorded) ?_
  rintro applied c' ⟨c₄, hc₄, hformat', ⟨pending', hpending', htakes'⟩, hconcludes⟩
  rw [hc'.manifest] at hformat' htakes'
  have hdelivered : ∀ q, q ∈ served.files.map TransferFile.path ↔
      q ∈ (planned remote.manifest p.server.state.manifestFile).map Prod.fst
        ∧ ∃ e, s₂.manifestFile.record q = some (.file e) := fun q => by
    rw [hsent.path_iff hplans.resumes, hplans.downloads]
    rfl
  simp only [hdelivered] at htakes'
  refine ⟨nowMs, applied, c₄, hs₃.settled, hc₄, rfl, ?_, rfl, hconcludes⟩
  rw [← hout, hs₃.manifest]
  refine ⟨⟨pending, ?_⟩, ⟨pending', hpending', htakes'⟩, hplans.pending, hformat', hformat⟩
  rw [hplans.uploads] at htakes
  exact htakes

theorem exchange_spec (hc : Settled client p.client.state) (hs : Settled server p.server.state)
    (hkeys : Set.InjOn Crypto.sha256
      (fileKeys p.client.state.manifestFile ∪ fileKeys p.server.state.manifestFile))
    (hcomplete : p.client.initialSyncComplete = true) :
    (exchange client server).wp h p (fun outcome p' => Settled client p'.client.state
      ∧ Settled server p'.server.state ∧ p'.client.initialSyncComplete = true
      ∧ p'.server.initialSyncComplete = p.server.initialSyncComplete
      ∧ ((p.server.state.manifestFile.syncDigestAfterValidation
            = p.client.state.manifestFile.syncDigestAfterValidation
          ∧ p'.client.state.manifestFile = p.client.state.manifestFile
          ∧ p'.server.state.manifestFile = p.server.state.manifestFile ∧ outcome = ⟨0, 0⟩)
        ∨ Exchanged p.client.state.manifestFile p.client.state.manifestFile
          p.server.state.manifestFile p'.client.state.manifestFile p'.server.state.manifestFile outcome))
      fun _ _ => True := by
  unfold exchange
  rw [wp_bind, wp_atClient]
  refine wp_conseq (makeOffer_spec hc) ?_
  rintro offer c₁ ⟨hc₁, hflag, ho⟩
  rw [wp_bind, wp_atServer]
  refine wp_conseq (manifestSnapshot_still hs) ?_
  rintro answer s₁ ⟨rfl, hs₁⟩
  refine wp_ite (fun hsame => ?_) fun _ => ?_
  · rw [wp_bind, wp_atServer]
    refine wp_conseq (updateRuntime_still hs₁.settled) fun _ s₂ hs₂ => ?_
    rw [wp_atClient]
    unfold finishUnchanged
    rw [wp_bind, wp_getRunning, if_neg (by simp [ho.flag, hcomplete])]
    refine ⟨hc₁.settled, hs₂.settled, hflag.trans hcomplete, rfl,
      .inl ⟨?_, hc₁.manifest, ?_, rfl⟩⟩
    · rw [ho.digest 0, hcomplete] at hsame
      exact hsame
    · exact hs₂.manifest.trans hs₁.manifest
  · rw [← hflag, ← hc₁.manifest] at ho
    rw [← hc₁.manifest, ← hs₁.manifest] at hkeys
    refine wp_conseq (exchangeManifests_spec (p := ⟨c₁, { p.server with state := s₁ }⟩) hc₁.settled
      hs₁.settled hkeys ho (by rw [hs₁.manifest])) ?_
    rintro outcome p' ⟨nowMs, applied, c₂, hs', hc₂, hserver, hexchanged, -, hconcludes⟩
    obtain ⟨hstill, htrue⟩ := hconcludes.otherwise (.inl (hflag.trans hcomplete))
    refine ⟨hstill.settled, hs', htrue.trans (hflag.trans hcomplete), hserver, .inr ?_⟩
    rw [hflag, hcomplete] at hexchanged
    rw [← hc₁.manifest, ← hs₁.manifest, hstill.manifest]
    exact hexchanged

end Session

/-! ## Who is ahead -/

section Ahead

variable {x y : Option ManifestRecord} {receiver sender : Manifest} {q : Str} {e : ManifestEntry}

theorem wins_iff : remoteRecordWins x y = true ↔ rankAt x < rankAt y := by
  rcases x with _ | a <;> rcases y with _ | b
  · simp [remoteRecordWins]
  · simp [remoteRecordWins, rankAt]
  · simp [remoteRecordWins, rankAt]
  · rw [← not_le, show rankAt (some b) ≤ rankAt (some a) ↔ b.rank ≤ a.rank from WithBot.coe_le_coe,
      rank_le_iff]
    rcases lt_trichotomy a.version b.version with hlt | heq | hgt
    · simp [remoteRecordWins, hlt, hlt.ne', hlt.le]
    · cases ha : a.isTombstone <;> cases hb : b.isTombstone <;> simp [remoteRecordWins, heq, ha, hb]
    · simp [remoteRecordWins, hgt, hgt.ne, hgt.le]

theorem Level.rank (h : Level x y) : rankAt x = rankAt y := by
  cases y with
  | none => rw [Option.map_eq_none_iff.mp h]
  | some b =>
      obtain ⟨a, rfl, hsynced⟩ := h.some_right
      have hrank : a.rank = b.rank := by
        rw [ManifestRecord.rank, ← a.version_synced, ← a.isTombstone_synced, hsynced, b.version_synced,
          b.isTombstone_synced, ManifestRecord.rank]
      exact congrArg WithBot.some hrank

theorem Level.not_wins (h : Level x y) : remoteRecordWins x y = false :=
  Bool.eq_false_iff.mpr fun hwins => (wins_iff.mp hwins).ne h.rank

theorem wins_asymm (h : remoteRecordWins x y = true) : remoteRecordWins y x = false :=
  Bool.eq_false_iff.mpr fun hwins => (wins_iff.mp h).asymm (wins_iff.mp hwins)

theorem Level.contentMatches (h : Level x (some (.file e))) : contentMatches x e = true := by
  obtain ⟨r, rfl, hsynced⟩ := h.some_right
  rcases eq_of_synced hsynced with rfl | ⟨e', e'', he, rfl, hsize, hsha, -⟩
  · simp [Syncbox.contentMatches]
  · cases he
    simp [Syncbox.contentMatches, hsize, hsha]

theorem selectRecord_behind (h : remoteRecordWins x y = false) : selectRecord x y = x := by
  rw [selectRecord_eq_ite, h]
  rfl

theorem selectRecord_ahead (h : remoteRecordWins x y = true) : selectRecord x y = y := by
  rw [selectRecord_eq_ite, if_pos h]

theorem Level.select (h : Level x y) : Level x (selectRecord x y) ∧ Level y (selectRecord x y) := by
  rw [selectRecord_behind h.not_wins]
  exact ⟨rfl, h.symm⟩

theorem compatible_symm (h : receiver.Compatible sender) : sender.Compatible receiver := by
  intro p a b ha hb hversion
  rcases h p b a hb ha hversion.symm with hsynced | hb | ha
  · exact .inl hsynced.symm
  · exact .inr (.inr hb)
  · exact .inr (.inl ha)

theorem level_or_wins (h : receiver.Compatible sender) (q : Str) :
    Level (receiver.record q) (sender.record q)
      ∨ remoteRecordWins (sender.record q) (receiver.record q) = true
      ∨ remoteRecordWins (receiver.record q) (sender.record q) = true := by
  rcases lt_trichotomy (rankAt (receiver.record q)) (rankAt (sender.record q)) with hlt | heq | hgt
  · exact .inr (.inr (wins_iff.mpr hlt))
  · exact .inl (h.synced heq)
  · exact .inr (.inl (wins_iff.mpr hgt))

end Ahead

/-! ## The lists -/

section Lists

variable {receiver sender : Manifest} {q : Str} {e : ManifestEntry}

/-- Where the manifests are compatible, nothing stands in a stalemate. -/
theorem mem_candidates_iff (h : receiver.Compatible sender) :
    (q, e) ∈ candidates receiver sender
      ↔ Wins receiver sender q (.file e) ∧ contentMatches (receiver.record q) e = false := by
  rw [mem_candidates, remoteSelected_iff]
  constructor
  · rintro ⟨hrecord, hselected, hcontent⟩
    refine ⟨⟨hrecord, hselected.resolve_right ?_⟩, hcontent⟩
    rintro ⟨a, b, ha, hb, hversion, hlive, hlive'⟩
    cases hb
    have hsynced := (h q a _ ha hrecord hversion).resolve_right (by simp [hlive, hlive'])
    have hlevel : Level (receiver.record q) (some (.file e)) := ha ▸ congrArg some hsynced
    cases hcontent.symm.trans hlevel.contentMatches
  · rintro ⟨hwins, hcontent⟩
    exact ⟨hwins.1, .inl hwins.2, hcontent⟩

theorem not_mem_candidates (h : receiver.Compatible sender)
    (hbehind : remoteRecordWins (receiver.record q) (sender.record q) = false) :
    (q, e) ∉ candidates receiver sender := by
  intro hmem
  obtain ⟨⟨hrecord, hwins⟩, -⟩ := (mem_candidates_iff h).mp hmem
  rw [← hrecord, hbehind] at hwins
  cases hwins

theorem candidates_sorted (receiver sender : Manifest) :
    (candidates receiver sender).Pairwise fun a b => compare a.1 b.1 = .lt :=
  List.Pairwise.filter _ Std.ExtTreeMap.ordered_keys_toList

theorem candidates_nodup (receiver sender : Manifest) :
    ((candidates receiver sender).map Prod.fst).Nodup :=
  List.pairwise_map.mpr ((candidates_sorted receiver sender).imp fun {a b} hlt heq => by
    rw [heq, Std.ReflOrd.compare_self] at hlt
    cases hlt)

theorem mem_rest_iff : (q, e) ∈ (candidates receiver sender).drop MAX_TRANSFER_FILES
    ↔ (q, e) ∈ candidates receiver sender ∧ q ∉ (planned receiver sender).map Prod.fst := by
  have hnodup := candidates_nodup receiver sender
  have hsplit := List.take_append_drop MAX_TRANSFER_FILES (candidates receiver sender)
  rw [← hsplit, List.map_append, List.nodup_append] at hnodup
  constructor
  · intro hmem
    refine ⟨List.mem_of_mem_drop hmem, fun hq => ?_⟩
    exact hnodup.2.2 q hq q (List.mem_map_of_mem hmem) rfl
  · rintro ⟨hmem, hq⟩
    rw [← hsplit, List.mem_append] at hmem
    exact hmem.resolve_left fun htake => hq (List.mem_map_of_mem htake)

theorem candidates_eq_rest {receiver' sender' : Manifest}
    (h : ∀ q e, (q, e) ∈ candidates receiver' sender'
      ↔ (q, e) ∈ (candidates receiver sender).drop MAX_TRANSFER_FILES) :
    candidates receiver' sender' = (candidates receiver sender).drop MAX_TRANSFER_FILES := by
  let before (a b : Str × ManifestEntry) : Prop := compare a.1 b.1 = .lt
  have : Std.Irrefl before := ⟨fun a (hlt : compare a.1 a.1 = .lt) => by
    rw [Std.ReflOrd.compare_self] at hlt
    cases hlt⟩
  have : Std.Antisymm before := ⟨fun a b (hlt : compare a.1 b.1 = .lt) (hgt : compare b.1 a.1 = .lt) => by
    rw [Std.OrientedCmp.gt_of_lt hlt] at hgt
    cases hgt⟩
  refine List.Pairwise.eq_of_mem_iff (r := before) (candidates_sorted _ _)
    ((candidates_sorted _ _).sublist (List.drop_sublist _ _)) fun x => h x.1 x.2

end Lists

/-! ## One exchange, path by path -/

section Paths

variable {c s c' s' : Manifest} {q : Str} {outcome : PeerSyncOutcome}

/-- The candidate at `q` was not listed. -/
def Unlisted (receiver sender : Manifest) (q : Str) : Prop :=
  q ∈ ((candidates receiver sender).drop MAX_TRANSFER_FILES).map Prod.fst

/-- What an exchange did at a path: nothing, or one side has taken over what the other was ahead
with. -/
inductive Moved (c s c' s' : Manifest) (q : Str) : Prop
  | stayed (hc : c'.record q = c.record q) (hs : s'.record q = s.record q)
      (why : Level (c.record q) (s.record q) ∨ Unlisted c s q ∨ Unlisted s c q)
  | merged (same : c'.record q = s'.record q)
      (select : c'.record q = selectRecord (c.record q) (s.record q))
      (select' : c'.record q = selectRecord (s.record q) (c.record q))
      (listed : ¬ Unlisted c s q ∧ ¬ Unlisted s c q)

theorem Moved.symm (h : Moved c s c' s' q) : Moved s c s' c' q := by
  cases h with
  | stayed hc hs why => exact .stayed hs hc (why.imp Level.symm Or.symm)
  | merged same select select' listed =>
      exact .merged same.symm (same ▸ select') (same ▸ select) listed.symm

theorem unlisted_iff (h : c.Compatible s) : Unlisted c s q
    ↔ q ∉ (planned c s).map Prod.fst
      ∧ ∃ e, Wins c s q (.file e) ∧ contentMatches (c.record q) e = false := by
  constructor
  · intro hq
    obtain ⟨⟨_, e⟩, hmem, rfl⟩ := List.mem_map.mp hq
    obtain ⟨hcandidate, hlisted⟩ := mem_rest_iff.mp hmem
    exact ⟨hlisted, e, (mem_candidates_iff h).mp hcandidate⟩
  · rintro ⟨hlisted, e, hcandidate⟩
    exact List.mem_map.mpr ⟨(q, e), mem_rest_iff.mpr ⟨(mem_candidates_iff h).mpr hcandidate, hlisted⟩, rfl⟩

theorem Unlisted.wins (h : c.Compatible s) (hq : Unlisted c s q) :
    remoteRecordWins (c.record q) (s.record q) = true := by
  obtain ⟨-, e, hwins, -⟩ := (unlisted_iff h).mp hq
  exact hwins.1 ▸ hwins.2

theorem Takes.at {delivered : Str → Prop} {pending : List Str} (ht : Takes s c delivered pending s')
    (q : Str) : q ∈ pending ∧ s'.record q = s.record q
      ∨ q ∉ pending ∧ s'.record q = selectRecord (s.record q) (c.record q) := by
  by_cases hq : q ∈ pending
  · exact .inl ⟨hq, by rw [ht.record, if_pos hq]⟩
  · exact .inr ⟨hq, by rw [ht.record, if_neg hq]⟩

theorem not_wins {r : ManifestRecord} (h : remoteRecordWins (c.record q) (s.record q) = false) :
    ¬ Wins c s q r := by
  rintro ⟨hr, hwins⟩
  rw [← hr, h] at hwins
  cases hwins

/-- The server can only have come to the client's record, so what it was ahead with it still has. -/
theorem Takes.wins_iff {delivered : Str → Prop} {pending : List Str}
    (ht : Takes s c delivered pending s') {r : ManifestRecord} : Wins c s' q r ↔ Wins c s q r := by
  have hsame : s'.record q = s.record q → (Wins c s' q r ↔ Wins c s q r) := fun heq => by
    rw [Wins, Wins, heq]
  rcases ht.at q with ⟨-, heq⟩ | ⟨-, heq⟩
  · exact hsame heq
  · cases hwins : remoteRecordWins (s.record q) (c.record q) with
    | false => exact hsame (heq.trans (selectRecord_behind hwins))
    | true =>
        rw [selectRecord_ahead hwins] at heq
        exact iff_of_false (not_wins (Level.not_wins (congrArg _ heq.symm))) (not_wins (wins_asymm hwins))

theorem Takes.pending_back_iff {delivered : Str → Prop} {pending pending' : List Str}
    (ht : Takes s c delivered pending s')
    (ht' : Takes c s' (fun q => q ∈ (planned c s).map Prod.fst ∧ ∃ e, s'.record q = some (.file e))
      pending' c')
    (h : c.Compatible s) : q ∈ pending' ↔ Unlisted c s q := by
  rw [ht'.mem_iff, unlisted_iff h]
  constructor
  · rintro ⟨hn, e, hwins, hmatches⟩
    exact ⟨fun hq => hn ⟨hq, e, hwins.1⟩, e, ht.wins_iff.mp hwins, hmatches⟩
  · rintro ⟨hn, e, hwins, hmatches⟩
    exact ⟨fun hq => hn hq.1, e, ht.wins_iff.mpr hwins, hmatches⟩

theorem Exchanged.moved (hx : Exchanged c c s c' s' outcome) (h : c.Compatible s) : Moved c s c' s' q := by
  obtain ⟨⟨pending, hserver⟩, ⟨pending', -, hclient⟩, -⟩ := hx
  have hs := hserver.at q
  have hc := hclient.at q
  rw [hserver.mem_iff, ← unlisted_iff (compatible_symm h)] at hs
  rw [hserver.pending_back_iff hclient h] at hc
  rcases level_or_wins h q with hlevel | hsent | hfetched
  · rw [selectRecord_behind hlevel.symm.not_wins] at hs
    have hs' : s'.record q = s.record q := hs.elim And.right And.right
    rw [hs', selectRecord_behind hlevel.not_wins] at hc
    exact .stayed (hc.elim And.right And.right) hs' (.inl hlevel)
  · rw [selectRecord_ahead hsent] at hs
    have hbehind : remoteRecordWins (c.record q) (s'.record q) = false := by
      rcases hs with ⟨-, hs⟩ | ⟨-, hs⟩ <;> rw [hs]
      · exact wins_asymm hsent
      · exact Level.not_wins rfl
    rw [selectRecord_behind hbehind] at hc
    have hc' : c'.record q = c.record q := hc.elim And.right And.right
    rcases hs with ⟨hq, hs⟩ | ⟨hq, hs⟩
    · exact .stayed hc' hs (.inr (.inr hq))
    · refine .merged (hc'.trans hs.symm) ?_ ?_ ⟨fun hq' => ?_, hq⟩
      · rw [hc', selectRecord_behind (wins_asymm hsent)]
      · rw [hc', selectRecord_ahead hsent]
      · cases (hq'.wins h).symm.trans (wins_asymm hsent)
  · rw [selectRecord_behind (wins_asymm hfetched)] at hs
    have hs' : s'.record q = s.record q := hs.elim And.right And.right
    rw [hs', selectRecord_ahead hfetched] at hc
    rcases hc with ⟨hq, hc⟩ | ⟨hq, hc⟩
    · exact .stayed hc hs' (.inr (.inl hq))
    · refine .merged (hc.trans hs'.symm) ?_ ?_ ⟨hq, fun hq' => ?_⟩
      · rw [hc, selectRecord_ahead hfetched]
      · rw [hc, selectRecord_behind (wins_asymm hfetched)]
      · cases (hq'.wins (compatible_symm h)).symm.trans (wins_asymm hfetched)

theorem Moved.select_eq (h : Moved c s c' s' q) :
    selectRecord (c'.record q) (s'.record q) = selectRecord (c.record q) (s.record q) := by
  cases h with
  | stayed hc hs _ => rw [hc, hs]
  | merged same select _ _ => rw [← same, selectRecord_behind (Level.not_wins rfl), select]

theorem Moved.level_or (h : Moved c s c' s' q) :
    Level (c'.record q) (s'.record q) ∨ Unlisted c s q ∨ Unlisted s c q := by
  cases h with
  | stayed hc hs why => rwa [hc, hs]
  | merged same _ _ _ => exact .inl (congrArg _ same)

theorem compatible_of_moved (hmoved : ∀ q, Moved c s c' s' q) (h : c.Compatible s) :
    c'.Compatible s' := by
  intro p a b ha hb hversion
  cases hmoved p with
  | stayed hc hs _ => exact h p a b (hc ▸ ha) (hs ▸ hb) hversion
  | merged same _ _ _ =>
      rw [same, hb] at ha
      rw [Option.some.inj ha]
      exact .inl rfl

theorem Moved.mem_candidates (hmoved : Moved c s c' s' q) (h : c.Compatible s)
    (h' : c'.Compatible s') (e : ManifestEntry) :
    (q, e) ∈ candidates c' s' ↔ (q, e) ∈ (candidates c s).drop MAX_TRANSFER_FILES := by
  rw [mem_rest_iff]
  cases hmoved with
  | stayed hc hs why =>
      have hsame : (q, e) ∈ candidates c' s' ↔ (q, e) ∈ candidates c s := by
        rw [Syncbox.mem_candidates, Syncbox.mem_candidates, hc, hs]
      have hbehind : remoteRecordWins (c.record q) (s.record q) = false → (q, e) ∉ candidates c s :=
        not_mem_candidates h
      rw [hsame]
      rcases why with hlevel | hlater | hlater
      · exact iff_of_false (hbehind hlevel.not_wins) fun hmem => hbehind hlevel.not_wins hmem.1
      · exact (and_iff_left ((unlisted_iff h).mp hlater).1).symm
      · have hno := hbehind (wins_asymm (hlater.wins (compatible_symm h)))
        exact iff_of_false hno fun hmem => hno hmem.1
  | merged same _ _ listed =>
      refine iff_of_false (not_mem_candidates h' (Level.not_wins (congrArg _ same))) fun hmem => listed.1 ?_
      exact List.mem_map_of_mem (mem_rest_iff.mpr hmem)

end Paths

/-! ## Exchange after exchange -/

section Rounds

/-- The account of one exchange: what it did at each path, and what was reported. -/
structure Forwards (c s c' s' : Manifest) (outcome : PeerSyncOutcome) : Prop where
  moved : ∀ q, Moved c s c' s' q
  outcome : outcome = ⟨(candidates c' s').length, (candidates s' c').length⟩

/-- The outcome as the other side would report it. -/
def PeerSyncOutcome.swap (outcome : PeerSyncOutcome) : PeerSyncOutcome :=
  ⟨outcome.pendingUpdates, outcome.pendingDownloads⟩

variable {c s c' s' : Manifest} {outcome : PeerSyncOutcome}

theorem Forwards.swap (ha : Forwards c s c' s' outcome) : Forwards s c s' c' outcome.swap := by
  refine ⟨fun q => (ha.moved q).symm, ?_⟩
  rw [ha.outcome]
  rfl

theorem rest_of_moved (hmoved : ∀ q, Moved c s c' s' q) (h : c.Compatible s) :
    candidates c' s' = (candidates c s).drop MAX_TRANSFER_FILES :=
  candidates_eq_rest fun q e => (hmoved q).mem_candidates h (compatible_of_moved hmoved h) e

theorem Forwards.rest (ha : Forwards c s c' s' outcome) (h : c.Compatible s) :
    candidates c' s' = (candidates c s).drop MAX_TRANSFER_FILES :=
  rest_of_moved ha.moved h

theorem Forwards.level_or (ha : Forwards c s c' s' outcome) (h : c.Compatible s) (q : Str) :
    Level (c'.record q) (s'.record q) ∨ q ∈ (candidates c' s').map Prod.fst
      ∨ q ∈ (candidates s' c').map Prod.fst := by
  rw [ha.rest h, ha.swap.rest (compatible_symm h)]
  exact (ha.moved q).level_or

theorem Exchanged.forwards (hx : Exchanged c c s c' s' outcome) (h : c.Compatible s) :
    Forwards c s c' s' outcome := by
  have hmoved : ∀ q, Moved c s c' s' q := fun _ => hx.moved h
  have hdownloads := rest_of_moved hmoved h
  have huploads := rest_of_moved (fun q => (hmoved q).symm) (compatible_symm h)
  obtain ⟨⟨_, hserver⟩, ⟨pending, hlength, hclient⟩, hupdates, -⟩ := hx
  have hperm : pending.Perm ((candidates c' s').map Prod.fst) := by
    rw [List.perm_ext_iff_of_nodup hclient.nodup (candidates_nodup c' s'), hdownloads]
    exact fun q => hserver.pending_back_iff hclient h
  refine ⟨hmoved, ?_⟩
  rcases outcome with ⟨pendingDownloads, pendingUpdates⟩
  congr 1
  · rw [show pendingDownloads = pending.length from hlength, hperm.length_eq, List.length_map]
  · rw [planned, List.length_take] at hupdates
    rw [huploads, List.length_drop]
    exact hupdates.trans (by omega)

theorem forwards_of_syncEq (h : c.SyncEq s) : Forwards c s c s ⟨0, 0⟩ := by
  refine ⟨fun q => .stayed rfl rfl (.inl (h q)), ?_⟩
  rw [h.candidates_eq_nil, h.symm.candidates_eq_nil]
  rfl

end Rounds

/-! ## The two replicas -/

section Replicas

variable [Crypto] {a b : ActiveShare} {p q r : Pair} {outcome : PeerSyncOutcome}

abbrev Pair.ours (p : Pair) : Manifest := p.client.state.manifestFile

abbrev Pair.theirs (p : Pair) : Manifest := p.server.state.manifestFile

def Pair.swap (p : Pair) : Pair := ⟨p.server, p.client⟩

/-- Two replicas of one share that have completed their initial synchronization.  Each tree is as
its manifest says, and the names of the files they may have to stage are apart. -/
structure Replicas (a b : ActiveShare) (p : Pair) : Prop where
  left : Settled a p.client.state
  right : Settled b p.server.state
  leftComplete : p.client.initialSyncComplete = true
  rightComplete : p.server.initialSyncComplete = true
  compatible : p.ours.Compatible p.theirs
  apart : Set.InjOn Crypto.sha256
    (fileKeys p.ours ∪ fileKeys p.theirs)
  share : a.shareId = b.shareId
  format : p.ours.formatVersion = p.theirs.formatVersion

theorem Replicas.swap (h : Replicas a b p) : Replicas b a p.swap where
  left := h.right
  right := h.left
  leftComplete := h.rightComplete
  rightComplete := h.leftComplete
  compatible := compatible_symm h.compatible
  apart := Set.union_comm _ _ ▸ h.apart
  share := h.share.symm
  format := h.format.symm

/-- What the digests tell about the two manifests is true. -/
def Pair.Told (p : Pair) : Prop :=
  p.ours.syncDigestAfterValidation
      = p.theirs.syncDigestAfterValidation →
    p.ours.SyncEq p.theirs

/-- What an exchange did to the two manifests. -/
abbrev Pair.Advanced (p q : Pair) (outcome : PeerSyncOutcome) : Prop :=
  Forwards p.ours p.theirs q.ours
    q.theirs outcome

theorem Replicas.exchange (h : Replicas a b p) (ht : p.Told) {host : Host × Host}
    (hok : Syncbox.exchange a b host p = .ok outcome q) :
    Replicas a b q ∧ p.Advanced q outcome ∧ q.ours.formatVersion = p.ours.formatVersion := by
  obtain ⟨hleft, hright, hcomplete, hcomplete', hmanifests⟩ :=
    (wp_ok (exchange_spec h.left h.right h.apart h.leftComplete) hok :)
  rcases hmanifests with ⟨hdigest, hclient, hserver, rfl⟩ | hexchanged
  · have hc : q.ours = p.ours := hclient
    have hs : q.theirs = p.theirs := hserver
    refine ⟨⟨hleft, hright, hcomplete, hcomplete'.trans h.rightComplete, ?_, ?_, h.share, ?_⟩, ?_⟩
    · rw [hc, hs]
      exact h.compatible
    · rw [hc, hs]
      exact h.apart
    · rw [hc, hs]
      exact h.format
    · rw [Pair.Advanced, hc, hs]
      exact ⟨forwards_of_syncEq (ht hdigest.symm), rfl⟩
  · have hadvances := hexchanged.forwards h.compatible
    obtain ⟨⟨_, hserver⟩, ⟨_, -, hclient⟩, -, hformat, hformat'⟩ := hexchanged
    have hkeys : fileKeys q.theirs
        ⊆ fileKeys p.ours ∪ fileKeys p.theirs :=
      Set.union_comm _ _ ▸ hserver.fileKeys
    have hkeys' : fileKeys q.ours
        ⊆ fileKeys p.ours ∪ fileKeys p.theirs :=
      hclient.fileKeys.trans (Set.union_subset Set.subset_union_left hkeys)
    refine ⟨⟨hleft, hright, hcomplete, hcomplete'.trans h.rightComplete, ?_, ?_, h.share, ?_⟩, hadvances,
      hformat⟩
    · exact compatible_of_moved hadvances.moved h.compatible
    · exact h.apart.mono (Set.union_subset hkeys' hkeys)
    · rw [hformat, hformat', h.format]

/-- Exchanges that succeeded one after another, whichever side opened them, with their outcomes as
the client of `p` sees them. -/
inductive Exchanges (a b : ActiveShare) (p : Pair) : List PeerSyncOutcome → Pair → Prop
  | none : Exchanges a b p [] p
  | opens {reports : List PeerSyncOutcome} {q r : Pair} {host : Host × Host} {outcome : PeerSyncOutcome}
      (before : Exchanges a b p reports q) (told : q.Told)
      (ok : Syncbox.exchange a b host q = .ok outcome r) : Exchanges a b p (reports ++ [outcome]) r
  | answers {reports : List PeerSyncOutcome} {q r : Pair} {host : Host × Host} {outcome : PeerSyncOutcome}
      (before : Exchanges a b p reports q) (told : q.Told)
      (ok : Syncbox.exchange b a host q.swap = .ok outcome r.swap) :
      Exchanges a b p (reports ++ [outcome.swap]) r

theorem Pair.Told.swap (h : p.Told) : p.swap.Told := fun hdigest q => (h hdigest.symm q).symm

/-- Every exchange is an advance, so what advances keep holds after every run. -/
theorem Exchanges.advances {P : List PeerSyncOutcome → Pair → Prop} {reports : List PeerSyncOutcome}
    (hrun : Exchanges a b p reports q) (h : Replicas a b p) (hnone : P [] p)
    (hstep : ∀ {reports q r outcome}, P reports q → Replicas a b q → q.Advanced r outcome →
      P (reports ++ [outcome]) r) : Replicas a b q ∧ P reports q := by
  induction hrun with
  | none => exact ⟨h, hnone⟩
  | opens _ told ok ih =>
      obtain ⟨hr, hadvanced, -⟩ := ih.1.exchange told ok
      exact ⟨hr, hstep ih.2 ih.1 hadvanced⟩
  | answers _ told ok ih =>
      obtain ⟨hr, hadvanced, -⟩ := ih.1.swap.exchange told.swap ok
      exact ⟨hr.swap, hstep ih.2 ih.1 hadvanced.swap⟩

/-- The account of a whole run. -/
structure Account (p : Pair) (reports : List PeerSyncOutcome) (q : Pair) : Prop where
  select : ∀ path, selectRecord (q.ours.record path) (q.theirs.record path)
    = selectRecord (p.ours.record path) (p.theirs.record path)
  downloads : candidates q.ours q.theirs
    = (candidates p.ours p.theirs).drop (reports.length * MAX_TRANSFER_FILES)
  uploads : candidates q.theirs q.ours
    = (candidates p.theirs p.ours).drop (reports.length * MAX_TRANSFER_FILES)
  reported : reports = (List.range reports.length).map fun i =>
    ⟨(candidates p.ours p.theirs).length - (i + 1) * MAX_TRANSFER_FILES,
      (candidates p.theirs p.ours).length - (i + 1) * MAX_TRANSFER_FILES⟩
  level_or : reports ≠ [] → ∀ path,
    Level (q.ours.record path) (q.theirs.record path)
    ∨ path ∈ (candidates q.ours q.theirs).map Prod.fst
    ∨ path ∈ (candidates q.theirs q.ours).map Prod.fst

theorem Account.step {reports : List PeerSyncOutcome} (h : Account p reports q) (hq : Replicas a b q)
    (ha : q.Advanced r outcome) : Account p (reports ++ [outcome]) r := by
  have hdownloads := ha.rest hq.compatible
  have huploads := ha.swap.rest (compatible_symm hq.compatible)
  rw [h.downloads, List.drop_drop] at hdownloads
  rw [h.uploads, List.drop_drop] at huploads
  have hlength : reports.length * MAX_TRANSFER_FILES + MAX_TRANSFER_FILES
      = (reports ++ [outcome]).length * MAX_TRANSFER_FILES := by
    rw [List.length_append, List.length_singleton, Nat.succ_mul]
  rw [hlength] at hdownloads huploads
  refine ⟨fun path => ?_, hdownloads, huploads, ?_, fun _ => ha.level_or hq.compatible⟩
  · exact (ha.moved path).select_eq.trans (h.select path)
  · rw [ha.outcome, hdownloads, huploads]
    simp only [List.length_append, List.length_singleton, List.range_succ, List.map_append,
      List.map_singleton, List.length_drop]
    rw [← h.reported]

theorem Account.init (p : Pair) : Account p [] p where
  select _ := rfl
  downloads := by simp
  uploads := by simp
  reported := rfl
  level_or h := absurd rfl h

theorem Account.level {reports : List PeerSyncOutcome} (h : Account p reports q) (hsome : reports ≠ [])
    (hdownloads : (candidates p.ours p.theirs).length ≤ reports.length * MAX_TRANSFER_FILES)
    (huploads : (candidates p.theirs p.ours).length ≤ reports.length * MAX_TRANSFER_FILES) (path : Str) :
    Level (q.ours.record path) (q.theirs.record path) := by
  have hor := h.level_or hsome path
  rw [h.downloads, h.uploads, List.drop_eq_nil_of_le hdownloads, List.drop_eq_nil_of_le huploads] at hor
  simpa using hor

theorem Replicas.digest_eq (h : Replicas a b p)
    (hlevel : ∀ path, Level (p.ours.record path) (p.theirs.record path)) :
    p.ours.syncDigestAfterValidation = p.theirs.syncDigestAfterValidation := by
  have hvalid : p.theirs.Valid a.shareId := h.share ▸ h.right.consistent.valid
  exact Manifest.SyncEq.digest hlevel h.left.consistent.valid hvalid h.format

/-- Two replicas that exchange over and over converge.  Each exchange takes 256 files off each of
the two lists, and no exchange changes the merge.  When the lists are used up both replicas have
it, with equal digests, and report nothing pending. -/
theorem exchanges_converge {reports : List PeerSyncOutcome} (h : Replicas a b p)
    (hrun : Exchanges a b p reports q) :
    Settled a q.client.state ∧ Settled b q.server.state
    ∧ candidates q.ours q.theirs = (candidates p.ours p.theirs).drop (reports.length * MAX_TRANSFER_FILES)
    ∧ candidates q.theirs q.ours = (candidates p.theirs p.ours).drop (reports.length * MAX_TRANSFER_FILES)
    ∧ (reports = (List.range reports.length).map fun i =>
      ⟨(candidates p.ours p.theirs).length - (i + 1) * MAX_TRANSFER_FILES,
        (candidates p.theirs p.ours).length - (i + 1) * MAX_TRANSFER_FILES⟩)
    ∧ (∀ path, selectRecord (q.ours.record path) (q.theirs.record path)
      = selectRecord (p.ours.record path) (p.theirs.record path))
    ∧ (reports ≠ [] →
      (candidates p.ours p.theirs).length ≤ reports.length * MAX_TRANSFER_FILES →
      (candidates p.theirs p.ours).length ≤ reports.length * MAX_TRANSFER_FILES →
      (∀ path, Level (q.ours.record path) (selectRecord (p.ours.record path) (p.theirs.record path))
        ∧ Level (q.theirs.record path) (selectRecord (p.ours.record path) (p.theirs.record path)))
      ∧ q.ours.syncDigestAfterValidation = q.theirs.syncDigestAfterValidation) := by
  obtain ⟨hq, haccount⟩ := hrun.advances h (Account.init p) Account.step
  refine ⟨hq.left, hq.right, haccount.downloads, haccount.uploads, haccount.reported,
    haccount.select, fun hsome hdownloads huploads => ?_⟩
  have hlevel := haccount.level hsome hdownloads huploads
  constructor
  · intro path
    rw [← haccount.select]
    exact (hlevel path).select
  · exact hq.digest_eq hlevel

/-! ## Each batch leaves less -/

end Replicas

/-! ## An owner and a guest -/

section Witness

variable [Crypto]

/-- A replica with one file. -/
def owner : ShareState :=
  { joined with
    world := ⟨plainDisk.put plainShare.localDirectory ['a']
      (.file ⟨List.replicate 3 0, zeros_fit⟩ 0o644 1) canPut_link, 0, []⟩
    manifestFile := .oneFile 1 2 }

def ownerAndGuest : Pair := ⟨⟨owner, true⟩, ⟨joined, true⟩⟩

theorem owner_get (loc : Loc) : owner.world.disk.get loc =
    if [['s'], ['a']] = loc then some (.file ⟨List.replicate 3 0, zeros_fit⟩ 0o644 1)
    else plainDisk.get loc :=
  Disk.get_put _ _ _ _ canPut_link loc

omit [Crypto] in
theorem oneFile_record (p : Str) : (Manifest.oneFile 1 2).record p =
    if ['a'] = p then some (.file ⟨3, 1, List.replicate 64 '0', some 0o644, .ofWall 7⟩) else none := by
  have hentries : (Manifest.oneFile 1 2).entries[p]? =
      if ['a'] = p then some ⟨3, 1, List.replicate 64 '0', some 0o644, .ofWall 7⟩ else none := by
    rw [show (Manifest.oneFile 1 2).entries = (∅ : BTreeMap Str ManifestEntry).insert ['a']
      ⟨3, 1, List.replicate 64 '0', some 0o644, .ofWall 7⟩ from rfl, lookup_insert]
    simp
  rw [Manifest.record, hentries]
  split_ifs <;> rfl

theorem realizes_owner (hsha : sha256Hex (List.replicate 3 0) = List.replicate 64 '0') :
    Realizes plainShare.localDirectory owner.manifestFile owner.world.disk := by
  refine ⟨⟨0o755, (owner_get _).trans (by decide +kernel)⟩, fun {p} _ => ?_⟩
  rw [show plainShare.localDirectory ++ split p = ['s'] :: split p from rfl, owner_get,
    show owner.manifestFile = .oneFile 1 2 from rfl, oneFile_record]
  by_cases ha : ['a'] = p
  · subst ha
    exact .file rfl hsha fun mode hmode => by cases hmode; rfl
  · have hne : [['s'], ['a']] ≠ ['s'] :: split p := fun heq =>
      ha (split_injective (List.cons.inj heq).2)
    rw [if_neg ha, if_neg hne, plainDisk_share]
    exact .absent

theorem realizes_joined : Realizes plainShare.localDirectory joined.manifestFile joined.world.disk := by
  refine ⟨⟨0o755, show plainDisk.get _ = _ by decide +kernel⟩, fun {p} _ => ?_⟩
  rw [show plainShare.localDirectory ++ split p = ['s'] :: split p from rfl,
    show joined.world.disk = plainDisk from rfl, plainDisk_share]
  exact .absent

end Witness

theorem replicas_ownerAndGuest :
    let _ := Crypto.plain
    Replicas plainShare plainShare ownerAndGuest := by
  intro _
  refine ⟨⟨⟨by decide +kernel, fun _ hsome => by cases hsome⟩, by decide +kernel,
    ⟨⟨0o755, by decide +kernel⟩, by decide, by decide⟩, realizes_owner (by decide +kernel)⟩,
    ⟨⟨Manifest.valid_empty _ _, fun _ hsome => by cases hsome⟩, by decide +kernel,
      ⟨⟨0o755, by decide +kernel⟩, by decide, by decide⟩, realizes_joined⟩, rfl, rfl, ?_, ?_, rfl, rfl⟩
  · intro p x y hx hy
    cases hy
  · refine Set.Subsingleton.injOn (fun x hx y hy => ?_) _
    have hkey : ∀ key ∈ fileKeys ownerAndGuest.ours ∪ fileKeys ownerAndGuest.theirs,
        key = partialKey ['a'] (List.replicate 64 '0') := by
      rintro _ (⟨p, e, hrecord, rfl⟩ | ⟨p, e, hrecord, rfl⟩)
      · rw [show ownerAndGuest.ours = .oneFile 1 2 from rfl, oneFile_record] at hrecord
        split_ifs at hrecord with hp
        cases hrecord
        rw [← hp]
      · cases hrecord
    rw [hkey x hx, hkey y hy]

/-- The owner, who has one file to send, opens one exchange. -/
theorem ownerAndGuest_run :
    let _ := Crypto.plain
    (candidates ownerAndGuest.theirs ownerAndGuest.ours).length = 1
      ∧ (candidates ownerAndGuest.ours ownerAndGuest.theirs).length = 0
      ∧ ∃ outcome q, Exchanges plainShare plainShare ownerAndGuest [outcome] q := by
  intro _
  have htold : ownerAndGuest.Told := fun hdigest => absurd hdigest (by decide +kernel)
  obtain ⟨outcome, q, hok, -⟩ : ∃ outcome q,
      exchange plainShare plainShare (.quiet, .quiet) ownerAndGuest = .ok outcome q ∧ True := by
    apply exists_ok_of_wp
    decide +kernel
  exact ⟨by decide +kernel, by decide +kernel, outcome, q, .opens .none htold hok⟩

/-- The owner opens one exchange, and the guest has the file. -/
theorem exchanges_converge_owner :
    let _ := Crypto.plain
    Replicas plainShare plainShare ownerAndGuest
      ∧ (candidates ownerAndGuest.theirs ownerAndGuest.ours).length = 1
      ∧ ∃ q, Exchanges plainShare plainShare ownerAndGuest [⟨0, 0⟩] q
        ∧ ∀ p, Level (q.theirs.record p) ((Manifest.oneFile 1 2).record p) := by
  intro _
  have hreplicas : Replicas plainShare plainShare ownerAndGuest := replicas_ownerAndGuest
  have hmerge : ∀ p, selectRecord (ownerAndGuest.ours.record p) (ownerAndGuest.theirs.record p)
      = (Manifest.oneFile 1 2).record p := fun p => by
    rw [show ownerAndGuest.theirs.record p = none from record_empty _ _ p,
      show ownerAndGuest.ours = .oneFile 1 2 from rfl]
    cases (Manifest.oneFile 1 2).record p <;> rfl
  obtain ⟨hups, hdowns, outcome, q, hrun⟩ := ownerAndGuest_run
  -- nothing else is used of the two replicas
  generalize ownerAndGuest = start at hreplicas hups hdowns hmerge hrun ⊢
  obtain ⟨-, -, -, -, hreports, -, hlevel⟩ := exchanges_converge hreplicas hrun
  rw [hups, hdowns] at hreports hlevel
  obtain ⟨hmerged, -⟩ := hlevel (List.cons_ne_nil _ _) (Nat.zero_le _) (show 1 ≤ 1 * MAX_TRANSFER_FILES by decide)
  have hnone : outcome = ⟨0, 0⟩ := (List.cons.inj hreports).1
  refine ⟨hreplicas, hups, q, hnone ▸ hrun, fun p => ?_⟩
  rw [← hmerge]
  exact (hmerged p).2

end Syncbox

/-
# `Syncbox.Network.Settled` — a replica at rest

A replica is settled when its tree, its manifest and its staging directory fit together.
Looking at partial files, receiving into them and removing them concerns the entries of the
staging directory only (`Aside`) and leaves it settled; an application of a remote manifest
leaves it settled as well.

At a settled replica the result of an application is a matter of records alone
(`Takes`): every path takes the record that is selected, except for the files that were
neither delivered nor there already.
-/
import Syncbox.Manifest.Tour
import Syncbox.Network.Exchange
import Syncbox.Network.Feasible
import Syncbox.Network.Receive

namespace Syncbox

open Rust Unix Prog

/-! ## The staging directory -/

/-- The disk is as it was, but for the entries of the staging directory. -/
def Aside (tmp : Loc) (d d' : Disk) : Prop := ∀ loc, loc ∉ inTmp tmp → d'.get loc = d.get loc

namespace Aside

variable {root tmp : Loc} {d d' d'' : Disk}

theorem refl (tmp : Loc) (d : Disk) : Aside tmp d d := fun _ _ => rfl

theorem of_eq (heq : d' = d) : Aside tmp d d' := fun _ _ => by rw [heq]

theorem trans (h : Aside tmp d d') (h' : Aside tmp d' d'') : Aside tmp d d'' := fun loc hloc =>
  (h' loc hloc).trans (h loc hloc)

theorem of_sets {name : Str} {o : Option Node} (hs : Sets d (tmp ++ [name]) o d') : Aside tmp d d' := by
  intro loc hloc
  refine hs.off ?_
  rintro rfl
  exact hloc ⟨name, rfl⟩

theorem notMem_above {loc : Loc} (h : loc <+: tmp) : loc ∉ inTmp tmp := by
  rintro ⟨name, rfl⟩
  have := h.length_le
  simp at this

theorem staging (h : Aside tmp d d') (hs : Staging root tmp d) : Staging root tmp d' where
  dir := by rw [Disk.IsDir, h tmp (notMem_above List.prefix_rfl)]; exact hs.dir
  notBelow := hs.notBelow
  notAbove := hs.notAbove

theorem get_root (h : Aside tmp d d') (hs : Staging root tmp d) (rest : Loc) :
    d'.get (root ++ rest) = d.get (root ++ rest) := by
  refine h _ fun hin => ?_
  exact (hs.apart le_rfl _ hin).1 (List.prefix_append _ _)

theorem realizes [Crypto] {m : Manifest} (h : Aside tmp d d') (hs : Staging root tmp d)
    (hr : Realizes root m d) : Realizes root m d' where
  isDir := by
    have hroot := h.get_root hs []
    rw [List.append_nil] at hroot
    rw [Disk.IsDir, hroot]
    exact hr.isDir
  each := fun hp => by rw [h.get_root hs]; exact hr.each hp

end Aside

theorem names_staging {root tmp : Loc} {d : Disk} (hs : Staging root tmp d) : names tmp = tmp := by
  obtain ⟨m, hm⟩ := hs.dir
  exact Disk.names_of_get hm

section Entry

variable {h : Host} {w : World} {root tmp : Loc} {name : Str}

theorem names_entry (hs : Staging root tmp w.disk) (hname : isFileName name = true) :
    names (tmp ++ [name]) = tmp ++ [name] := by
  rw [names_append, names_staging hs, names_cons_name (Disk.isName_of_isFileName hname)]
  rfl

theorem unlink_aside (hs : Staging root tmp w.disk) (hname : isFileName name = true)
    {E : Error → World → Prop} :
    (unlink (tmp ++ [name]) : Fs _).wp h w (fun _ w' => Aside tmp w.disk w'.disk) E := by
  refine wp_conseq (unlink_spec (hs.direct hname)) ?_
  rintro r w' (⟨-, -, hdid⟩ | ⟨kind, -, hsame, -⟩)
  · exact .of_sets (names_entry hs hname ▸ hdid.sets)
  · exact .of_eq hsame.disk

end Entry

/-! ## Partial files -/

section Partial

variable [Crypto] {h : Host} {w : World} {root tmp : Loc}

theorem partialSize_aside {p sha256 : Str} {size : U64} (hs : Staging root tmp w.disk) :
    (partialSize tmp p sha256 size).wp h w (fun _ w' => Aside tmp w.disk w'.disk) fun _ _ => True := by
  have hname := isFileName_partialName p sha256
  unfold partialSize
  dsimp only
  refine wp_then (lstat_spec (hs.direct hname)) fun r w₁ hlook => ?_
  have hsame : Aside tmp w.disk w₁.disk := .of_eq hlook.same.disk
  split
  · refine wp_ite (fun _ => hsame) fun _ => ?_
    refine wp_context_then (unlink_aside (hsame.staging hs) hname) fun r w₂ haside => ?_
    cases r with
    | ok _ => exact hsame.trans haside
    | error kind => trivial
  · trivial
  · exact hsame
  · trivial

theorem planDownloads_aside {local_ : Manifest} (rest : List (Str × ManifestEntry)) :
    ∀ {plan : List Str × List TransferFile} {w : World}, Staging root tmp w.disk →
      (planDownloads tmp local_ rest plan).wp h w (fun _ w' => Aside tmp w.disk w'.disk)
        fun _ _ => True := by
  induction rest with
  | nil => exact fun {_ w} _ => .refl tmp w.disk
  | cons x rest ih =>
      intro plan w hs
      refine wp_ite (fun _ => ?_) fun _ => ih hs
      refine wp_then (partialSize_aside hs) fun offset w₁ h₁ => ?_
      refine wp_ite (fun _ => h₁) fun _ => ?_
      exact wp_conseq (ih (h₁.staging hs)) fun _ _ h₂ => h₁.trans h₂

theorem makeTransferRequest_aside {shareId : ShareId} {local_ remote : Manifest}
    (hs : Staging root tmp w.disk) :
    (makeTransferRequest tmp shareId local_ remote).wp h w (fun _ w' => Aside tmp w.disk w'.disk)
      fun _ _ => True := by
  unfold makeTransferRequest
  exact wp_then (planDownloads_aside _ hs) fun _ _ h₁ => h₁

theorem makeTransferReady_aside {request : TransferRequest} {manifest : Manifest}
    (hs : Staging root tmp w.disk) :
    (makeTransferReady tmp request manifest).wp h w (fun _ w' => Aside tmp w.disk w'.disk)
      fun _ _ => True := by
  have hsizes : ∀ (files : List TransferFile) {w : World}, Staging root tmp w.disk →
      (files.mapM fun file => do
        let offset ← partialSize tmp file.path file.sha256 file.size
        pure { file with offset } : Fs (List TransferFile)).wp h w
        (fun _ w' => Aside tmp w.disk w'.disk) fun _ _ => True := by
    intro files
    induction files with
    | nil => exact fun {w} _ => .refl tmp w.disk
    | cons file files ih =>
        intro w hs
        rw [List.mapM_cons, wp_bind, wp_bind]
        refine wp_conseq (partialSize_aside hs) fun offset w₁ h₁ => ?_
        rw [wp_pure, wp_bind]
        exact wp_conseq (ih (h₁.staging hs)) fun _ _ h₂ => h₁.trans h₂
  unfold makeTransferReady
  rw [wp_bind]
  refine wp_ofExcept (fun _ _ => ?_) fun _ _ => trivial
  exact wp_then (hsizes _ hs) fun _ _ h₁ => h₁

end Partial

/-! ## What a replica takes -/

/-- The records after a remote manifest was applied; `pending` is left as it was. -/
structure Takes (local_ remote : Manifest) (delivered : Str → Prop) (pending : List Str)
    (new : Manifest) : Prop where
  record : ∀ p, new.record p = if p ∈ pending then local_.record p
    else selectRecord (local_.record p) (remote.record p)
  mem_iff : ∀ p, p ∈ pending ↔ ¬ delivered p ∧ ∃ e, Wins local_ remote p (.file e)
    ∧ contentMatches (local_.record p) e = false
  nodup : pending.Nodup

theorem contentMatches_record (m : Manifest) (p : Str) (e : ManifestEntry) :
    contentMatches (m.record p) e = localContentMatches m p e := by
  unfold localContentMatches
  cases hentry : m.entries[p]? with
  | some e' => rw [Manifest.record_file_iff.mpr hentry]; rfl
  | none =>
      unfold contentMatches
      split
      · rename_i e' hrecord
        rw [Manifest.record_file_iff.mp hrecord] at hentry
        cases hentry
      · rfl

section Takes

variable {local_ remote new : Manifest} {delivered : Str → Prop} {pending : List Str}

theorem Takes.record_or (ht : Takes local_ remote delivered pending new) (p : Str) :
    new.record p = local_.record p ∨ new.record p = remote.record p := by
  rw [ht.record]
  split
  · exact .inl rfl
  · exact selectRecord_or _ _

theorem Takes.canonical (ht : Takes local_ remote delivered pending new)
    (hlocal : local_.CanonicalPaths) (hremote : remote.CanonicalPaths) : new.CanonicalPaths := by
  intro p r hr
  rcases ht.record_or p with heq | heq
  · exact hlocal (heq ▸ hr)
  · exact hremote (heq ▸ hr)

end Takes

/-! ## Settled replicas -/

/-- The tree, the manifest and the staging directory fit together. -/
structure Settled [Crypto] (share : ActiveShare) (s : ShareState) : Prop where
  consistent : s.Consistent share
  canonical : s.manifestFile.CanonicalPaths
  staging : Staging share.localDirectory share.shareTmpDir s.world.disk
  realizes : Realizes share.localDirectory s.manifestFile s.world.disk

section Settled

variable [Crypto] {share : ActiveShare} {h : Host} {s s' : ShareState} {remote : Manifest}
  {fileData : BTreeMap Str IncomingFile}

theorem Settled.tidy (hs : Settled share s) :
    Tidy share.shareTmpDir share.localDirectory s.world.disk :=
  ⟨hs.realizes.isDir, hs.staging⟩

theorem Settled.recorded (hs : Settled share s) : s.manifestFile.AncestorsRecorded :=
  hs.realizes.recorded hs.consistent.valid hs.canonical

theorem Settled.aside (hs : Settled share s) (hc : s'.Consistent share)
    (hm : s'.manifestFile = s.manifestFile) (ha : Aside share.shareTmpDir s.world.disk s'.world.disk) :
    Settled share s' :=
  ⟨hc, hm ▸ hs.canonical, ha.staging hs.staging, hm ▸ ha.realizes hs.staging hs.realizes⟩

theorem Settled.stored {c : ClockState} (hs : Settled share s)
    (hst : Stored share s s.manifestFile c s') : Settled share s' :=
  hs.aside hst.consistent hst.manifest (.of_eq hst.same.disk)

theorem Settled.world (hs : Settled share s) {w : World}
    (ha : Aside share.shareTmpDir s.world.disk w.disk) : Settled share { s with world := w } :=
  hs.aside ⟨hs.consistent.valid, hs.consistent.cache⟩ rfl ha

theorem Standing.file {l : List (Planned × Bool)} {p : Str} {e : ManifestEntry} {o : Option Node}
    (hs : Standing l p (some (.file e)) o) :
    ∃ c m t, o = some (.file c m t) ∧ c.len = e.size ∧ sha256Hex c.val = e.sha256 := by
  cases hs with
  | fits hd => cases hd with | file hsize hsha _ => exact ⟨_, _, _, rfl, hsize, hsha⟩
  | made hdead => cases hdead _ rfl
  | unset _ hrecord => cases hrecord

/-- Which files an application leaves pending: at a settled replica the record tells what the file
has. -/
theorem Run.pending_iff {tmp root : Loc} {local_ : Manifest} {l : List (Planned × Bool)} {w₀ w : World}
    {shareId : ShareId} (hr : Run h tmp root local_ w₀ l w)
    (hl : l.map Prod.fst = plan local_ remote fileData) (hremote : remote.Valid shareId)
    (hcanonical : remote.CanonicalPaths) (hv : Verified tmp remote fileData w₀.disk)
    (ht : Tidy tmp root w₀.disk) (hreal : Realizes root local_ w₀.disk) (p : Str) :
    p ∈ pendingPaths l ↔ fileData[p]? = none ∧ ∃ e, Wins local_ remote p (.file e)
      ∧ contentMatches (local_.record p) e = false := by
  have hsep := hremote.separated
  have hsound : ∀ op ∈ plan local_ remote fileData, op.Sound tmp ∧ op.usesBytes = false :=
    plan_sound hremote hv.delivers
  have hproper : ∀ op ∈ plan local_ remote fileData, Proper op.path := by
    intro op hop
    obtain ⟨r, hr, -⟩ := plan_wins hsep hop
    exact proper_of_canonical (hremote.accepted hr) (hcanonical hr)
  constructor
  · intro hp
    obtain ⟨e, hwins, hnone, hmem⟩ := wins_of_pending hsep hl hp
    refine ⟨hnone, e, hwins, ?_⟩
    obtain ⟨l₁, l₂, rfl⟩ := List.append_of_mem hmem
    obtain ⟨w₁, w₂, hrun₁, hdid⟩ := hr.split
    have hplan : plan local_ remote fileData
        = l₁.map Prod.fst ++ .file p e none :: l₂.map Prod.fst := by rw [← hl]; simp
    rw [contentMatches_record]
    rcases hdid with ⟨hno, -⟩ | ⟨hmatch, -, hcontent, -⟩
    · exact hno
    · -- the file that the local manifest describes is still there, and has the contents
      have hprop : Proper p := hproper (.file p e none) (by simp [hplan])
      have hstands := hrun₁.standing hplan hsep hsound (fun op hop => (hproper op hop).canonical) hv ht
        hreal hprop
      rw [localContentMatches, Option.any_eq_true] at hmatch
      obtain ⟨e', he', hsame⟩ := hmatch
      simp only [Bool.and_eq_true, decide_eq_true_eq] at hsame
      have hover : overlay local_.record l₁ p = some (.file e') :=
        (overlay_at_next hsep hplan (Option.some_ne_none _)).trans (Manifest.record_file_iff.mpr he')
      obtain ⟨c, m, t, hget, hsize, hsha⟩ := (hover ▸ hstands).file
      rw [← target_eq hprop.canonical] at hget
      cases hcontent.mpr ⟨c, m, t, hget, hsize.trans hsame.1, hsha.trans hsame.2⟩
  · rintro ⟨hnone, e, hwins, hcontent⟩
    obtain ⟨b, hmem⟩ := exists_step hl hwins
    rw [plannedStep, hnone] at hmem
    rw [mem_pendingPaths_iff (hl ▸ plan_distinct hsep) hmem]
    obtain ⟨w₁, w₂, hdid⟩ := hr.exists_did hmem
    rw [contentMatches_record] at hcontent
    rcases hdid with ⟨-, hb, -⟩ | ⟨hmatch, -⟩
    · exact hb
    · rw [hcontent] at hmatch
      cases hmatch

/-- An application leaves a replica settled, with the records it takes. -/
theorem Settled.apply (hs : Settled share s) (hremote : remote.Valid share.shareId)
    (hcanonical : remote.CanonicalPaths) (hrecorded : remote.AncestorsRecorded)
    (hv : Verified share.shareTmpDir remote fileData s.world.disk) :
    (applyRemoteTransferImpl share remote fileData).wp h s (fun outcome s' => Settled share s'
        ∧ s'.manifestFile.formatVersion = s.manifestFile.formatVersion
        ∧ ∃ pending, outcome.pendingDownloads = pending.length
          ∧ Takes s.manifestFile remote (fun p => fileData[p]? ≠ none) pending s'.manifestFile)
      fun _ _ => True := by
  refine wp_mono (wp_self _ _ _) (fun outcome s' hrun => ?_) fun _ _ _ => trivial
  obtain ⟨l, candidate, w, w', hw, hw', hl, hr, hholds, hvalid, hc, hformat, hrecord, hpending⟩ :=
    apply_ok_spec hs.consistent hremote hv.delivers hs.tidy hrun
  have hv' := hw ▸ hv
  have ht := hw ▸ hs.tidy
  have hreal := hw ▸ hs.realizes
  have htakes : Takes s.manifestFile remote (fun p => fileData[p]? ≠ none) (pendingPaths l)
      s'.manifestFile := by
    refine ⟨fun p => ?_, fun p => ?_, nodup_pendingPaths (hl ▸ plan_distinct hremote.separated)⟩
    · rw [hrecord, hholds.record_eq, overlay_eq hremote.separated hl]
    · rw [not_not]
      exact hr.pending_iff hl hremote hcanonical hv' ht hreal p
  have hend := hr.realizes hl hremote hcanonical hrecorded hholds hvalid hv' ht hreal
  have hsound : ∀ x ∈ l, x.1.Sound share.shareTmpDir := fun x hx =>
    (plan_sound hremote hv.delivers _ (hl ▸ List.mem_map_of_mem hx)).1
  refine ⟨⟨hc, htakes.canonical hs.canonical hcanonical, ?_, ?_⟩, hformat, _, hpending, htakes⟩
  · rw [← hw']
    exact (hr.tidy hsound ht).staging
  · rw [← hw']
    exact ⟨hend.isDir, fun {p} hp => hrecord p ▸ hend.each hp⟩

end Settled

/-! ## Received files -/

section Received

variable [Crypto] {share : ActiveShare} {h : Host} {s : ShareState} {remote : Manifest} {tmp : Loc}

/-- What the names of partial files are the hashes of, for the files of a manifest. -/
def fileKeys (m : Manifest) : Set (List Byte) :=
  {key | ∃ p e, m.record p = some (.file e) ∧ key = partialKey p e.sha256}

/-- No two files of the manifest have one name in the staging directory. -/
def Unclashing (remote : Manifest) : Prop := Set.InjOn Crypto.sha256 (fileKeys remote)

theorem Unclashing.stagedApart {files : List TransferFile} (hu : Unclashing remote)
    (hshaped : Shaped files) (hof : ∀ file ∈ files, file.Of remote) : StagedApart tmp files := by
  refine stagedApart_of_injOn hshaped (hu.mono ?_)
  rintro key ⟨file, hfile, rfl⟩
  obtain ⟨e, he, hsha, -⟩ := hof file hfile
  exact ⟨file.path, e, Manifest.record_file_iff.mpr he, by rw [hsha]⟩

theorem lookup_stagedFiles (files : List TransferFile) (p : Str) :
    (stagedFiles (completedFiles tmp files))[p]? = ((files.reverse.find? fun file => file.path = p).map
      fun file => .staged (partialPath tmp file.path file.sha256)) := by
  unfold stagedFiles completedFiles
  induction files using List.reverseRecOn with
  | nil => simp
  | append_singleton files file ih =>
      rw [List.map_append, List.foldl_append, List.map_singleton, List.foldl_cons, List.foldl_nil,
        lookup_insert, ih, List.reverse_append, List.reverse_singleton, List.singleton_append,
        List.find?_cons]
      by_cases hp : file.path = p <;> simp [hp]

theorem delivered_iff {files : List TransferFile} {p : Str} :
    (stagedFiles (completedFiles tmp files))[p]? ≠ none ↔ p ∈ files.map TransferFile.path := by
  rw [lookup_stagedFiles, Ne, Option.map_eq_none_iff, List.find?_eq_none]
  simp

theorem ReceivedAll.verified {files : List TransferFile} {contents : List Content}
    {stream : List Byte} {i : Nat} {root : Loc} {l l' : Link}
    (hr : ReceivedAll h tmp i files contents stream l l')
    (hs : Staging root tmp l.world.disk) (hof : ∀ file ∈ files, file.Of remote) :
    Verified tmp remote (stagedFiles (completedFiles tmp files)) l'.world.disk := by
  intro p incoming hp
  rw [lookup_stagedFiles, Option.map_eq_some_iff] at hp
  obtain ⟨file, hfind, rfl⟩ := hp
  have hmem : file ∈ files := List.mem_reverse.mp (List.mem_of_find?_eq_some hfind)
  obtain rfl : file.path = p := by simpa using List.find?_some hfind
  obtain ⟨e, he, hsha, hsize⟩ := hof file hmem
  refine ⟨e, Manifest.record_file_iff.mpr he, by rw [hsha], ?_⟩
  have hboth := hr.staged.mp (fun _ _ hstaged hannounced => And.intro hstaged hannounced) hr.announced
  obtain ⟨content, -, ⟨m, t, hget⟩, hlen, hhash⟩ := exists_of_forall₂ hboth hmem
  refine ⟨content, m, t, ?_, hlen.trans hsize.symm, hhash.trans hsha.symm⟩
  rw [stagedAt_eq, names_staging hs, ← hsha] at hget
  exact hget

theorem ReceivedAll.aside {files : List TransferFile} {contents : List Content}
    {stream : List Byte} {i : Nat} {root : Loc} {l l' : Link}
    (hr : ReceivedAll h tmp i files contents stream l l') (hs : Staging root tmp l.world.disk) :
    Aside tmp l.world.disk l'.world.disk := by
  intro loc hloc
  refine (hr.frame fun hin => ?_).resolve_right fun hnew => ?_
  · obtain ⟨file, -, rfl⟩ := hin
    rw [stagedAt_eq, names_staging hs] at hloc
    exact hloc ⟨_, rfl⟩
  · -- the staging directory is there, and so is all that leads to it
    obtain ⟨hinit, hnone, -⟩ := hnew
    rw [names_staging hs] at hinit
    obtain ⟨m, hm⟩ := Disk.isDir_of_isPrefix hs.dir hinit
    rw [hm] at hnone
    cases hnone

omit [Crypto] in
theorem Staging.reachable {root : Loc} {d : Disk} (hs : Staging root tmp d) : Reachable d tmp := by
  obtain ⟨m, hm⟩ := hs.dir
  refine ⟨(direct_of_get hm).noDotDot, fun {init} hi => ?_⟩
  rintro ⟨target, htarget⟩
  obtain ⟨m', hm'⟩ := Disk.isDir_of_isPrefix hs.dir hi
  rw [Disk.names_of_get hm', hm'] at htarget
  cases htarget

theorem Settled.receive (hs : Settled share s) {files : List TransferFile} (recv : List Byte)
    (hshaped : Shaped files) (hof : ∀ file ∈ files, file.Of remote) (hu : Unclashing remote) :
    (connected recv (receiveFileChunks share.shareTmpDir files)).wp h s
      (fun r s' => r.1 = completedFiles share.shareTmpDir files ∧ Settled share s'
        ∧ s'.manifestFile = s.manifestFile
        ∧ Verified share.shareTmpDir remote (stagedFiles r.1) s'.world.disk) fun _ _ => True := by
  rw [wp_connected]
  refine wp_mono (receiveFileChunks_spec hshaped (hu.stagedApart hshaped hof)
    hs.staging.reachable) ?_ fun _ _ _ => trivial
  rintro completed l' ⟨rfl, contents, stream, hr⟩
  exact ⟨rfl, hs.world (hr.aside hs.staging), rfl, hr.verified hs.staging hof⟩

theorem removeStaged_aside {root : Loc} (files : List TransferFile) :
    ∀ {w : World}, Staging root tmp w.disk → (removeStaged (completedFiles tmp files)).wp h w
      (fun _ w' => Aside tmp w.disk w'.disk) fun _ _ => True := by
  induction files with
  | nil => exact fun {w} _ => .refl tmp w.disk
  | cons file files ih =>
      intro w hs
      show Prog.wp ((unlink (partialPath tmp file.path file.sha256) >>= fun _ => pure ()) >>= fun _ =>
        removeStaged (completedFiles tmp files)) _ _ _ _
      rw [wp_bind, wp_bind]
      refine wp_conseq (unlink_aside hs (isFileName_partialName _ _)) fun _ w₁ h₁ => ?_
      rw [wp_pure]
      exact wp_conseq (ih (h₁.staging hs)) fun _ _ h₂ => h₁.trans h₂

/-- A replica that was offered a manifest and has received some of its files takes it over. -/
theorem Settled.applyStaged (hs : Settled share s) {validated : ValidatedManifest}
    {files : List TransferFile} (hcanonical : validated.manifest.CanonicalPaths)
    (hrecorded : validated.manifest.AncestorsRecorded)
    (hv : Verified share.shareTmpDir validated.manifest
      (stagedFiles (completedFiles share.shareTmpDir files)) s.world.disk) :
    (applyValidatedRemoteStagedTransfer share validated (completedFiles share.shareTmpDir files)).wp h s
      (fun outcome s' => Settled share s'
        ∧ s'.manifestFile.formatVersion = s.manifestFile.formatVersion
        ∧ ∃ pending, outcome.pendingDownloads = pending.length
          ∧ Takes s.manifestFile validated.manifest (· ∈ files.map TransferFile.path) pending
            s'.manifestFile)
      fun _ _ => True := by
  unfold applyValidatedRemoteStagedTransfer
  rw [wp_bind]
  refine wp_ofExcept (fun remote hremote => ?_) fun _ _ => trivial
  obtain ⟨rfl, hvalid⟩ := forShare_ok hremote
  rw [wp_bind]
  refine wp_ofExcept (fun _ _ => ?_) fun _ _ => trivial
  refine wp_then (hs.apply hvalid hcanonical hrecorded hv) ?_
  rintro outcome s₁ ⟨hs₁, hformat, pending, hpending, htakes⟩
  rw [wp_bind, wp_onDisk]
  refine wp_conseq (removeStaged_aside files hs₁.staging) fun _ w haside => ?_
  refine ⟨hs₁.world haside, hformat, pending, hpending, ?_⟩
  simpa only [delivered_iff] using htakes

end Received

end Syncbox

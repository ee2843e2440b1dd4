/-
# `Syncbox.Network.Containment` — a peer does not leave the share

A peer chooses the paths, the link targets and the order of what it sends.  Whatever it
chooses, applying its manifests and serving its requests touches only nodes at or below
the root of the share and in the staging directory.

The log of the file system records the nodes themselves: a location in it is where a path
leads once every link on the way has been followed.  So it is enough to bound the log and
the places where the disk changes.  For a step of an application this is its `Effect`.  A
file that is sent is opened by a path whose parents have just been looked at, and which was
itself found to be a file: no part of the path is a link, and the file is the one the
path spells below the root.
-/
import Syncbox.Network.Merged
import Syncbox.Network.Send

namespace Syncbox

open Rust Unix Prog

/-- The nodes of a share: at or below its root, or in its staging directory. -/
def inside (root tmp : Loc) : Set Loc := {loc | root <+: loc ∨ tmp <+: loc}

/-- The disk stays as it is, and only nodes in `S` are read. -/
structure Reads (S : Set Loc) (w w' : World) : Prop where
  disk : w'.disk = w.disk
  changes : Changes S w w'

namespace Reads

variable {S : Set Loc} {w w' w'' : World}

theorem of_same (h : Same w w') : Reads S w w' := ⟨h.disk, .of_same h⟩

theorem refl (S : Set Loc) (w : World) : Reads S w w := .of_same (.refl w)

theorem trans (h : Reads S w w') (h' : Reads S w' w'') : Reads S w w'' :=
  ⟨h'.disk.trans h.disk, h.changes.trans h'.changes⟩

end Reads

/-! ## Serving -/

section Send

variable {h : Host} {w : World} {l : Link} {root tmp : Loc} {p : Str} {S : Set Loc}

theorem writeAll_same {text : String} {bytes : List Byte} :
    (writeAll text bytes).wp h l (fun _ l' => Same l.world l'.world) fun _ l' => Same l.world l'.world := by
  unfold Prog.wp writeAll
  by_cases hfault : h.fault l.world.calls = true
  · rw [if_pos hfault]
    exact ⟨rfl, rfl⟩
  · rw [if_neg hfault]
    exact ⟨rfl, rfl⟩

theorem writeChunk_same {fileIndex : U32} {offset : Nat} {data : List Byte} :
    (writeChunk fileIndex offset data).wp h l (fun _ l' => Same l.world l'.world)
      fun _ l' => Same l.world l'.world := by
  unfold writeChunk
  rw [wp_bind]
  refine wp_rejectIf (fun _ => .refl _) fun _ => ?_
  refine wp_seq writeAll_same ?_ fun _ _ hsame => hsame
  intro _ l₁ hsame
  exact wp_mono writeAll_same (fun _ _ h₂ => hsame.trans h₂) fun _ _ h₂ => hsame.trans h₂

theorem seekTo_same {text : String} {offset : U64} :
    (seekTo text offset).wp h l (fun _ l' => Same l.world l'.world) fun _ l' => Same l.world l'.world := by
  refine wp_when (fun _ => ?_) fun _ => .refl _
  rw [wp_locally, wp_context]
  refine wp_conseq seek_spec ?_
  rintro (kind | _) w₁ ⟨hsame, -⟩ <;> exact hsame

/-- The walk along the parents of a path looks at each of them, and goes on only where none is
a link. -/
theorem safeLocalPath_looks (hroot : w.disk.IsDir root) :
    (safeLocalPath root p false).wp h w
      (fun path w' => path = root ++ split p ∧ Same w w' ∧ Direct w.disk path)
      (fun _ w' => Same w w') := by
  unfold safeLocalPath
  rw [wp_bind]
  by_cases hacc : Accepted p
  swap
  · cases hv : validateManifestPath p with
    | ok u => exact absurd (validateManifestPath_eq_ok.mp hv) hacc
    | error e =>
        rw [pathForManifest, hv]
        exact Same.refl w
  have hpath : pathForManifest root p = .ok (root ++ split p) := by
    rw [pathForManifest, validateManifestPath_eq_ok.mpr hacc]
    rfl
  -- what has been looked at is no link, so the next look is at the place the path spells
  have hdirect : ∀ {parts : List Str}, parts <+: split p →
      (∀ {init}, init <+: parts.dropLast → ¬ w.disk.IsLink (root ++ names init)) →
      Direct w.disk (root ++ parts) := by
    intro parts hparts hlink
    refine direct_below hroot (fun hm => hacc.noDotDot (hparts.subset hm)) fun {init} hi hne => ?_
    refine hlink ?_
    rcases List.eq_nil_or_concat parts with rfl | ⟨front, last, rfl⟩
    · exact absurd (List.prefix_nil.mp hi) hne
    · rw [List.concat_eq_append] at hi hne ⊢
      rw [List.dropLast_concat]
      exact (List.prefix_concat_iff.mp hi).resolve_left hne
  rw [hpath, wp_ofExcept_ok, wp_bind]
  refine wp_conseq (wp_foldlM (I := fun done parent w' => parent = root ++ done ∧ Same w w'
    ∧ ∀ {init}, init <+: done → ¬ w.disk.IsLink (root ++ names init)) _ [] root w ⟨by simp, .refl w, ?_⟩ ?_)
    ?_
  · intro init hi
    rw [List.prefix_nil.mp hi]
    rintro ⟨t, ht⟩
    obtain ⟨mode, hmode⟩ := hroot
    rw [show root ++ names [] = root from List.append_nil root, hmode] at ht
    cases ht
  · rintro done component rest parent w' hsplit ⟨rfl, hsame, hlink⟩
    have hinit : done ++ [component] <+: split p := by
      refine List.IsPrefix.trans ⟨rest, ?_⟩ (List.dropLast_prefix _)
      rw [List.append_assoc, List.singleton_append]
      exact hsplit.symm
    have hd : Direct w'.disk (root ++ (done ++ [component])) := by
      rw [hsame.disk]
      exact hdirect hinit (by rwa [List.dropLast_concat])
    -- nothing that is found or missing here is a link
    have hnext : ∀ {w'' : World}, Same w' w'' → ¬ w.disk.IsLink (root ++ names (done ++ [component])) →
        root ++ (done ++ [component]) = root ++ (done ++ [component]) ∧ Same w w''
          ∧ ∀ {init}, init <+: done ++ [component] → ¬ w.disk.IsLink (root ++ names init) := by
      intro w'' hsame' hnot
      refine ⟨rfl, hsame.trans hsame', fun {init} hi => ?_⟩
      rcases List.prefix_concat_iff.mp hi with rfl | hi
      · exact hnot
      · exact hlink hi
    unfold safeParent
    rw [wp_bind, List.append_assoc]
    refine wp_conseq (lstat_spec hd) ?_
    rintro (kind | node) w₁ hlook
    · cases kind with
      | notFound =>
          refine hnext hlook.same ?_
          rintro ⟨t, ht⟩
          have hmissing := hlook.missing rfl
          rw [names_below (hsame.disk ▸ hroot), hsame.disk, ht] at hmissing
          cases hmissing
      | _ => exact hsame.trans hlook.same
    · have hget := hlook.ok rfl
      rw [names_below (hsame.disk ▸ hroot), hsame.disk] at hget
      cases node with
      | dir mode =>
          refine hnext hlook.same ?_
          rintro ⟨t, ht⟩
          rw [hget] at ht
          cases ht
      | _ => exact hsame.trans hlook.same
  · rintro _ w' ⟨-, hsame, hlink⟩
    exact ⟨rfl, hsame, hdirect List.prefix_rfl hlink⟩

theorem sendChunks_reads {target : PathBuf} {source : Loc} {fileIndex : U32} {size buffer offset : Nat} :
    (sendChunks target source fileIndex size buffer offset).wp h l
      (fun _ l' => Reads {source} l.world l'.world) fun _ l' => Reads {source} l.world l'.world := by
  induction hn : size - offset using Nat.strong_induction_on generalizing offset l with
  | h n ih =>
      unfold sendChunks
      split
      · rename_i hlt
        dsimp only
        rw [wp_bind, wp_locally, wp_context]
        refine wp_conseq readAt_changes ?_
        rintro (kind | piece) w₁ ⟨hdisk, hchanges⟩
        · exact ⟨hdisk, hchanges⟩
        have hread : Reads {source} l.world w₁ := ⟨hdisk, hchanges⟩
        dsimp only
        split
        · exact hread
        · rename_i hne
          have hless : size - (offset + piece.length) < n := by
            have := List.length_pos_iff.mpr hne
            omega
          refine wp_seq writeChunk_same ?_ fun _ _ hsame => hread.trans (.of_same hsame)
          intro _ l₂ hsame
          have htwo := hread.trans (.of_same hsame)
          exact wp_mono (ih _ hless rfl) (fun _ _ h₃ => htwo.trans h₃) fun _ _ h₃ => htwo.trans h₃
      · exact Reads.refl _ _

theorem sendFile_reads {i buffer : Nat} {file : TransferFile} (hroot : l.world.disk.IsDir root) :
    (sendFile root i buffer file).wp h l (fun _ l' => Reads (inside root tmp) l.world l'.world)
      fun _ l' => Reads (inside root tmp) l.world l'.world := by
  unfold sendFile
  rw [wp_bind]
  cases hindex : toFileIndex i with
  | error e => exact Reads.refl _ _
  | ok fileIndex =>
  rw [wp_ofExcept_ok, wp_bind, wp_locally]
  refine wp_mono (safeLocalPath_looks hroot) ?_ fun _ _ hsame => .of_same hsame
  rintro path w₁ ⟨rfl, hsame₁, hdirect⟩
  rw [wp_bind, wp_locally, wp_context]
  refine wp_conseq (lstat_spec (hsame₁.disk ▸ hdirect)) ?_
  rintro (kind | node) w₂ hlook
  · exact .of_same (hsame₁.trans hlook.same)
  have hget : l.world.disk.get (names (root ++ split file.path)) = some node := hsame₁.disk ▸ hlook.ok rfl
  have hsame₂ := hsame₁.trans hlook.same
  dsimp only
  rw [wp_bind]
  refine wp_rejectIf (fun _ => .of_same hsame₂) fun hfile => ?_
  -- a file is not a link: what is opened is what was looked at
  have hlast : ¬ l.world.disk.IsLink (names (root ++ split file.path)) := by
    rintro ⟨t, ht⟩
    rw [hget] at ht
    cases ht
    exact hfile (.inl rfl)
  rw [wp_bind, wp_locally, wp_context]
  refine wp_conseq (openRead_spec (hsame₂.disk ▸ hdirect) (hsame₂.disk ▸ hlast)) ?_
  rintro r w₃ (⟨rfl, hsame⟩ | ⟨kind, rfl, hsame, -⟩)
  swap
  · exact .of_same (hsame₂.trans hsame)
  have hsame₃ := hsame₂.trans hsame
  dsimp only
  refine wp_seq seekTo_same ?_ fun _ _ hsame => .of_same (hsame₃.trans hsame)
  intro _ l₄ hsame
  have hsame₄ := hsame₃.trans hsame
  have hsub : ({names (root ++ split file.path)} : Set Loc) ⊆ inside root tmp := by
    rw [Set.singleton_subset_iff, names_below hroot]
    exact .inl (List.prefix_append _ _)
  have hsent : ∀ {l' : Link}, Reads {names (root ++ split file.path)} l₄.world l'.world →
      Reads (inside root tmp) l.world l'.world := fun h₅ =>
    (Reads.of_same hsame₄).trans ⟨h₅.disk, h₅.changes.mono hsub⟩
  refine wp_seq sendChunks_reads ?_ fun _ _ h₅ => hsent h₅
  intro _ l₅ h₅
  have hreads := hsent h₅
  rw [wp_bind, wp_locally, wp_context]
  refine wp_conseq (lstat_spec (hreads.disk ▸ hdirect)) ?_
  rintro (kind | after) w₆ hlook'
  · exact hreads.trans (.of_same hlook'.same)
  dsimp only
  rw [wp_bind]
  exact wp_rejectIf (fun _ => hreads.trans (.of_same hlook'.same)) fun _ =>
    hreads.trans (.of_same hlook'.same)

theorem sendFiles_reads {files : List TransferFile} {i buffer : Nat} (hroot : l.world.disk.IsDir root) :
    (sendFiles root i buffer files).wp h l (fun _ l' => Reads (inside root tmp) l.world l'.world)
      fun _ l' => Reads (inside root tmp) l.world l'.world := by
  induction files generalizing i buffer l with
  | nil => exact Reads.refl _ _
  | cons file files ih =>
      unfold sendFiles
      refine wp_seq (sendFile_reads hroot) ?_ fun _ _ h₁ => h₁
      intro buffer₁ l₁ h₁
      exact wp_mono (ih (h₁.disk ▸ hroot)) (fun _ _ h₂ => h₁.trans h₂) fun _ _ h₂ => h₁.trans h₂

theorem sendFileChunksFromRoot_reads {files : List TransferFile} (hroot : l.world.disk.IsDir root) :
    (sendFileChunksFromRoot root files).wp h l (fun _ l' => Reads (inside root tmp) l.world l'.world)
      fun _ l' => Reads (inside root tmp) l.world l'.world := by
  unfold sendFileChunksFromRoot
  rw [wp_bind, wp_locally]
  refine wp_mono (directoryRoot_spec hroot) ?_ fun _ _ hbad => .of_same hbad.1
  rintro found w₁ ⟨hfound, hsame⟩
  subst hfound
  have hfirst : Reads (inside found tmp) l.world w₁ := .of_same hsame
  exact wp_mono (sendFiles_reads (l := { l with world := w₁ }) (hfirst.disk ▸ hroot))
    (fun _ _ h₂ => hfirst.trans h₂) fun _ _ h₂ => hfirst.trans h₂

end Send

/-! ## Applying -/

section Apply

variable [Crypto] {h : Host} {root tmp : Loc} {local_ remote : Manifest}
  {fileData : BTreeMap Str IncomingFile} {w w' : World}

omit [Crypto] in
theorem Effect.inside {p : Str} {X : Set Loc} (hX : X ⊆ inTmp tmp) (heff : Effect root p X w w') :
    Changes (inside root tmp) w w' := by
  refine heff.changes.mono ?_
  rintro loc ((⟨init, -, rfl⟩ | rfl) | hin)
  · exact .inl (List.prefix_append _ _)
  · exact .inl (List.prefix_append _ _)
  · obtain ⟨name, rfl⟩ := hX hin
    exact .inr (List.prefix_append _ _)

theorem Run.inside {l : List (Planned × Bool)} (hrun : Run h tmp root local_ w l w')
    (hsound : ∀ x ∈ l, x.1.Sound tmp) : Changes (inside root tmp) w w' := by
  induction hrun with
  | nil => exact .refl _ _
  | snoc run did ih =>
      have hbefore := ih fun x hx => hsound x (List.mem_append_left _ hx)
      have hlast := hsound _ (List.mem_append_right _ (List.mem_singleton_self _))
      exact hbefore.trans (did.effect.inside (Planned.staging_subset hlast.delivered))

theorem Run.tidy {l : List (Planned × Bool)} (hrun : Run h tmp root local_ w l w')
    (hsound : ∀ x ∈ l, x.1.Sound tmp) (ht : Tidy tmp root w.disk) : Tidy tmp root w'.disk :=
  (@Run.ready _ h tmp root local_ w w' l False hrun hsound ⟨ht, False.elim⟩).tidy

/-- What stays inside the share, and leaves it as it is needed for the next request. -/
structure Contained (root tmp : Loc) (w w' : World) : Prop where
  changes : Changes (inside root tmp) w w'
  tidy : Tidy tmp root w.disk → Tidy tmp root w'.disk

omit [Crypto] in
theorem Contained.trans {w'' : World} (hc : Contained root tmp w w') (hc' : Contained root tmp w' w'') :
    Contained root tmp w w'' :=
  ⟨hc.changes.trans hc'.changes, fun ht => hc'.tidy (hc.tidy ht)⟩

omit [Crypto] in
theorem Contained.of_reads (hr : Reads (inside root tmp) w w') : Contained root tmp w w' :=
  ⟨hr.changes, fun ht => hr.disk ▸ ht⟩

theorem applyTree_contained {shareId : ShareId} (hremote : remote.Valid shareId)
    (hdata : Delivers tmp fileData) (ht : Tidy tmp root w.disk) :
    (applyTree tmp root local_ remote fileData).wp h w (fun _ w' => Contained root tmp w w')
      fun _ w' => Contained root tmp w w' := by
  have hsound : ∀ op ∈ plan local_ remote fileData, op.Sound tmp ∧ op.usesBytes = false :=
    plan_sound hremote hdata
  refine wp_mono (applyTree_run hremote hdata ht) ?_ ?_
  · rintro _ w' ⟨l, hl, hrun, -⟩
    have hof : ∀ x ∈ l, x.1.Sound tmp := fun x hx =>
      (hsound x.1 (hl ▸ List.mem_map_of_mem hx)).1
    exact ⟨hrun.inside hof, fun ht => hrun.tidy hof ht⟩
  · rintro _ w' ⟨l, op, post, w₁, hl, hrun, heff, -⟩
    have hof : ∀ x ∈ l, x.1.Sound tmp := fun x hx =>
      (hsound x.1 (hl ▸ List.mem_append_left _ (List.mem_map_of_mem hx))).1
    have hop := (hsound op (hl ▸ List.mem_append_right _ List.mem_cons_self)).1
    refine ⟨(hrun.inside hof).trans (heff.inside (Planned.staging_subset hop.delivered)), fun ht => ?_⟩
    exact (hrun.tidy hof ht).of_effect hop heff

theorem apply_contained {share : ActiveShare} {s : ShareState} (hs : s.Consistent share)
    (ht : Tidy share.shareTmpDir share.localDirectory s.world.disk)
    (hremote : remote.Valid share.shareId) (hdata : Delivers share.shareTmpDir fileData) :
    (applyRemoteTransferImpl share remote fileData).wp h s
      (fun _ s' => s'.Consistent share
        ∧ Contained share.localDirectory share.shareTmpDir s.world s'.world)
      (fun _ s' => s'.Consistent share
        ∧ Contained share.localDirectory share.shareTmpDir s.world s'.world) := by
  have hsame : ∀ {w w' : World}, Same w w' → Contained share.localDirectory share.shareTmpDir w w' :=
    fun hsame => .of_reads (.of_same hsame)
  refine apply_rule hs (fun hst hdone => hdone.trans (hsame hst)) (hsame (.refl _)) fun {root s₁} hopen => ?_
  -- the loops run from the root the share is registered with
  obtain rfl := hopen.root_eq ht.dir
  have hfirst := hsame hopen.stored.same
  exact wp_mono (applyTree_contained hremote hdata (hfirst.tidy ht)) (fun _ _ h₂ => hfirst.trans h₂)
    fun _ _ h₂ => hfirst.trans h₂

end Apply

/-! ## Sequences of requests -/

/-- What a peer can make a share do to its tree. -/
inductive Request where
  | apply (remote : Manifest) (fileData : BTreeMap Str IncomingFile)
  | serve (files : List TransferFile)

namespace Request

variable [Crypto] (share : ActiveShare)

/-- Every request is served on a connection of its own. -/
def run : Request → App Unit
  | apply remote fileData => do
      let _ ← applyRemoteTransferImpl share remote fileData
      pure ()
  | serve files => Prog.zoom (fun s : ShareState => (⟨s.world, [], []⟩ : Link))
      (fun s l => { s with world := l.world }) (sendFileChunksFromRoot share.localDirectory files)

def after (h : Host) (s : ShareState) (r : Request) : ShareState :=
  match r.run share h s with
  | .ok _ s' => s'
  | .error _ s' => s'

/-- The state after a sequence of requests. -/
def afterAll (s : ShareState) (requests : List (Host × Request)) : ShareState :=
  requests.foldl (fun s x => x.2.after share x.1 s) s

/-- What is checked before a manifest is applied; a request for files is not restricted. -/
def Allowed : Request → Prop
  | apply remote fileData => remote.Valid share.shareId ∧ Delivers share.shareTmpDir fileData
  | serve _ => True

variable {share} {h : Host} {s : ShareState}

theorem after_contained {r : Request} (hs : s.Consistent share)
    (ht : Tidy share.shareTmpDir share.localDirectory s.world.disk) (hr : r.Allowed share) :
    (r.after share h s).Consistent share
      ∧ Contained share.localDirectory share.shareTmpDir s.world (r.after share h s).world := by
  have hrun : (r.run share).wp h s
      (fun _ s' => s'.Consistent share
        ∧ Contained share.localDirectory share.shareTmpDir s.world s'.world)
      (fun _ s' => s'.Consistent share
        ∧ Contained share.localDirectory share.shareTmpDir s.world s'.world) := by
    cases r with
    | apply remote fileData =>
        show (applyRemoteTransferImpl share remote fileData >>= fun _ => pure ()).wp h s _ _
        rw [wp_bind]
        exact apply_contained hs ht hr.1 hr.2
    | serve files =>
        have hkept : ∀ {l : Link}, Reads (inside share.localDirectory share.shareTmpDir) s.world l.world →
            ShareState.Consistent share { s with world := l.world }
              ∧ Contained share.localDirectory share.shareTmpDir s.world l.world :=
          fun hl => ⟨⟨hs.valid, hs.cache⟩, .of_reads hl⟩
        have hsend := @sendFileChunksFromRoot_reads h ⟨s.world, [], []⟩ share.localDirectory
          share.shareTmpDir files ht.dir
        exact (wp_zoom ..).mpr (wp_mono hsend (fun _ _ hl => hkept hl) fun _ _ hl => hkept hl)
  unfold Prog.wp at hrun
  unfold after
  cases hout : r.run share h s with
  | ok a s' => rwa [hout] at hrun
  | error e s' => rwa [hout] at hrun

end Request

section Runs

variable [Crypto] {share : ActiveShare} {s : ShareState} {requests : List (Host × Request)}

/-- Whatever a peer asks for, and in whatever order: outside the root of the share and its staging
directory no node changes, and every node that is created, written, removed, chmod-ed or read is
inside. -/
theorem requests_contained (hs : s.Consistent share)
    (hroot : s.world.disk.IsDir share.localDirectory)
    (hstaging : Staging share.localDirectory share.shareTmpDir s.world.disk)
    (hrequests : ∀ x ∈ requests, x.2.Allowed share) :
    (∀ loc, loc ∉ inside share.localDirectory share.shareTmpDir →
      (Request.afterAll share s requests).world.disk.get loc = s.world.disk.get loc)
    ∧ ∃ new, (Request.afterAll share s requests).world.log = new ++ s.world.log
      ∧ ∀ a ∈ new, a.2 ∈ inside share.localDirectory share.shareTmpDir := by
  have hchanges : Changes (inside share.localDirectory share.shareTmpDir) s.world
      (Request.afterAll share s requests).world := by
    have ht : Tidy share.shareTmpDir share.localDirectory s.world.disk := ⟨hroot, hstaging⟩
    clear hroot hstaging
    induction requests generalizing s with
    | nil => exact .refl _ _
    | cons x requests ih =>
        obtain ⟨hs', hc⟩ := Request.after_contained (h := x.1) hs ht (hrequests x List.mem_cons_self)
        exact hc.changes.trans (ih hs' (fun y hy => hrequests y (List.mem_cons_of_mem _ hy)) (hc.tidy ht))
  exact ⟨fun _ hloc => hchanges.frame hloc, hchanges.log⟩

end Runs

/-! ## A link out of the share -/

def linkOut : Manifest :=
  { Manifest.empty plainShare.shareId 0 with
    symlinks := (∅ : BTreeMap Str SymlinkEntry).insert ['a'] ⟨['/'], .ofWall 1⟩ }

/-- A removal on the other side of the link, of the data directory. -/
def removalBeyond : Manifest :=
  { Manifest.empty plainShare.shareId 0 with
    tombstones := (∅ : BTreeMap Str Tombstone).insert "a/d".toList ⟨.ofWall 2⟩ }

/-- A link out of the share is installed, and then used for a removal and for a download. -/
def throughLink : List (Host × Request) :=
  [(.quiet, .apply linkOut ∅), (.quiet, .apply removalBeyond ∅),
    (.quiet, .serve [⟨"a/d".toList, [], 0, 0⟩])]

theorem requests_contained_link :
    let _ := Crypto.plain
    joined.Consistent plainShare ∧ joined.world.disk.IsDir plainShare.localDirectory
      ∧ Staging plainShare.localDirectory plainShare.shareTmpDir joined.world.disk
      ∧ (∀ x ∈ throughLink, x.2.Allowed plainShare)
      ∧ (Request.afterAll plainShare joined throughLink).world.disk.get [['s'], ['a']]
        = some (.symlink ['/'])
      ∧ (Request.afterAll plainShare joined throughLink).world.disk.get [['d']]
        = joined.world.disk.get [['d']] := by
  intro _
  have hs : joined.Consistent plainShare :=
    ⟨Manifest.valid_empty _ _, fun _ hsome => by cases hsome⟩
  have hroot : joined.world.disk.IsDir plainShare.localDirectory := ⟨0o755, by decide +kernel⟩
  have hstaging : Staging plainShare.localDirectory plainShare.shareTmpDir joined.world.disk :=
    ⟨⟨0o755, by decide +kernel⟩, by decide, by decide⟩
  have hnone : Delivers plainShare.shareTmpDir ∅ := fun p incoming hp => by
    rw [Std.ExtTreeMap.getElem?_empty] at hp
    cases hp
  have hallowed : ∀ x ∈ throughLink, x.2.Allowed plainShare := by
    intro x hx
    simp only [throughLink, List.mem_cons, List.not_mem_nil, or_false] at hx
    rcases hx with rfl | rfl | rfl
    · exact ⟨by decide +kernel, hnone⟩
    · exact ⟨by decide +kernel, hnone⟩
    · trivial
  exact ⟨hs, hroot, hstaging, hallowed, by decide +kernel,
    (requests_contained hs hroot hstaging hallowed).1 _ (show ¬ (_ ∨ _) from by decide)⟩

end Syncbox

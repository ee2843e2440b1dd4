/-
# `Syncbox.Network.Spared` — what applying a manifest destroys

The loops of `apply_remote_transfer_impl` decide from the saved manifest and act on the tree
as it is now.  So an edit that no scan has seen yet is overwritten or removed without
notice.  This file says what is spared all the same: a step replaces at most the node at
its own path, the steps that only adopt a file or set a mode replace nothing, and a
directory is never replaced by a directory.

A node that is lost was therefore at the path of a record that won, and if every such node
was described by the saved manifest before, nothing is lost that was not versioned.
-/
import Syncbox.Lib.Unix.Dirs
import Syncbox.Network.Dominance

namespace Syncbox

open Rust Unix Prog

/-! ## Operations that replace nothing -/

section Stays

variable {all : Bool} {α : Type} {root path : PathBuf} {p : Str}

theorem context_moves {R : World → World → Prop} {text : String} {m : Fs (Except IoKind α)}
    (hm : m.Moves R) : (context text m).Moves R := by
  intro h w
  rw [wp_context]
  refine wp_mono (hm h w) ?_ fun _ _ he => he
  rintro (kind | a) w' hR <;> exact hR

theorem safeLocalPath_stays {writing : Bool} : (safeLocalPath root p writing).Moves (Stays all) := by
  refine .bind (.ofExcept _) fun target => .bind (.foldlM ?_ _ _) fun _ => .pure _
  intro parent component
  refine .bind lstat_stays fun r => ?_
  rcases r with kind | node
  · cases kind with
    | notFound =>
        cases writing with
        | true => exact .bind (context_moves mkdir_stays) fun _ => .pure _
        | false => exact .pure _
    | _ => exact .throw _
  · cases node with
    | dir mode => exact .pure _
    | _ => exact .throw _

theorem prepareInspected_stays {metadata : Node} {keep : Bool} {restores : List PermissionRestore} :
    (prepareInspectedDirectoryForWrite path metadata keep restores).Moves (Stays all) := by
  cases metadata with
  | dir permissions =>
      refine .ite (.pure _) (.bind chmod_stays fun r => ?_)
      rcases r with kind | _
      · exact .ite (.pure _) (.throw _)
      · exact .ite (.pure _) (.pure _)
  | _ => exact .throw _

theorem prepareDirectory_stays {keep : Bool} {restores : List PermissionRestore} :
    (prepareDirectoryForWrite path keep restores).Moves (Stays all) :=
  .bind (context_moves lstat_stays) fun _ => prepareInspected_stays

theorem prepareParents_stays {create : Bool} {parts : List Str} :
    ∀ {parent : PathBuf} {restores : List PermissionRestore},
      (prepareParents create parts parent restores).Moves (Stays all) := by
  induction parts with
  | nil => exact .pure _
  | cons component parts ih =>
      intro parent restores
      refine .bind (.attempt (.bind lstat_stays fun r => ?_)) fun r => ?_
      · rcases r with kind | node
        · cases kind with
          | notFound =>
              exact .ite (.bind (context_moves mkdir_stays) fun _ => prepareDirectory_stays) (.pure _)
          | _ => exact .throw _
        · exact prepareInspected_stays
      · rcases r with e | restores
        · exact .pure _
        · exact ih

theorem preparation_stays {create : Bool} : (preparation root p create).Moves (Stays all) := by
  refine .bind (.attempt prepareDirectory_stays) fun r => ?_
  rcases r with e | restores
  · exact .pure _
  · exact prepareParents_stays

theorem restoreParents_stays {restores : List PermissionRestore} :
    (restoreParentPermissions restores).Moves (Stays all) :=
  .foldlM (fun _ _ => context_moves chmod_stays) _ _

/-- An operation between the two walks, which only look, make directories and set modes. -/
theorem withWritableParents_stays {create : Bool} {operation : Fs α} (hop : operation.Moves (Stays all)) :
    (withWritableParents root p create operation).Moves (Stays all) := by
  refine .bind (.ofExcept _) fun _ => .bind preparation_stays fun x => ?_
  obtain ⟨restores, prepared⟩ := x
  rcases prepared with e | _
  · exact .bind (.attempt restoreParents_stays) fun _ => .throw _
  · refine .bind (.attempt hop) fun result => .bind (.attempt restoreParents_stays) fun restored => ?_
    rcases result with e | value
    · exact .throw _
    · rcases restored with e | _
      · exact .throw _
      · exact .pure _

theorem setLocalPermissions_stays {directory : Bool} {permissions : Option U16} :
    (setLocalPermissions directory root p permissions).Moves (Stays all) := by
  cases permissions with
  | none => exact .pure _
  | some permissions =>
      refine withWritableParents_stays (.bind safeLocalPath_stays fun target =>
        .bind (context_moves lstat_stays) fun metadata => ?_)
      have hset : ∀ mode : Mode, (if mode.setWidth 16 = permissions then pure ()
          else context ("unable to set permissions on " ++ display target)
            (chmod target (permissions.setWidth 12)) : Fs Unit).Moves (Stays all) :=
        fun _ => .ite (.pure _) (context_moves chmod_stays)
      cases metadata with
      | dir mode =>
          cases directory with
          | true => exact hset mode
          | false => exact .throw _
      | file content mode mtime =>
          cases directory with
          | true => exact .throw _
          | false => exact hset mode
      | symlink t => exact .throw _
      | special => exact .throw _

theorem restoreFile_stays {o : Option Mode} : (restoreFilePermissions path o).Moves (Stays all) := by
  cases o with
  | none => exact .pure _
  | some permissions => exact context_moves chmod_stays

theorem ensureLocalDirectory_stays : (ensureLocalDirectory root p).Moves (Stays false) := by
  refine withWritableParents_stays (.bind safeLocalPath_stays fun target => .bind lstat_stays fun r => ?_)
  rcases r with kind | node
  · cases kind with
    | notFound => exact context_moves mkdir_stays
    | _ => exact .throw _
  · cases node with
    | file content mode mtime =>
        exact .bind (context_moves unlink_stays) fun _ => context_moves mkdir_stays
    | symlink t => exact .bind (context_moves unlink_stays) fun _ => context_moves mkdir_stays
    | dir mode => exact .pure _
    | special => exact .throw _

variable [Crypto]

theorem localFileMatchesEntry_stays {size : U64} {sha256 : Str} :
    (localFileMatchesEntry root p size sha256).Moves (Stays all) := by
  refine withWritableParents_stays (.bind safeLocalPath_stays fun target => .bind lstat_stays fun r => ?_)
  have hhash : ∀ mtime, (hashMatches target size sha256 mtime).Moves (Stays all) := by
    intro mtime
    refine .bind (context_moves openRead_stays) fun file => .bind (context_moves readAll_stays)
      fun content => .bind (context_moves fstat_stays) fun after => ?_
    cases after <;> exact .pure _
  rcases r with kind | node
  · cases kind with
    | notFound => exact .pure _
    | _ => exact .throw _
  · cases node with
    | file content permissions mtime =>
        refine .ite (.bind (.ite (.bind chmod_stays fun r => ?_) (.pure _)) fun _ =>
          .bind (.attempt (hhash mtime)) fun result => .bind (.attempt restoreFile_stays) fun restored => ?_)
          (.pure _)
        · rcases r with kind | _
          · exact .ite (.pure _) (.throw _)
          · exact .pure _
        · rcases result with e | value
          · exact .throw _
          · rcases restored with e | _
            · exact .throw _
            · exact .pure _
    | symlink t => exact .throw _
    | dir mode => exact .pure _
    | special => exact .pure _

theorem adoptFile_stays {local_ : Manifest} {e : ManifestEntry} :
    (adoptFile root local_ p e).Moves (Stays all) :=
  .ite (.bind localFileMatchesEntry_stays fun _ =>
    .ite (.bind setLocalPermissions_stays fun _ => .pure _) (.pure _)) (.pure _)

end Stays

/-! ## One step -/

namespace Planned

/-- The step may take the place of a node at its path. -/
def Replaces : Planned → Node → Prop
  | delete .., _ => True
  | directory .., node => node.isDir = false
  | symlink .., _ => True
  | file _ _ incoming, _ => incoming ≠ none
  | mode .., _ => False

end Planned

section Step

variable [Crypto] {h : Host} {tmp root : Loc} {local_ : Manifest} {w w' : World} {s : Applying}
  {op : Planned}

omit [Crypto] in
theorem replaces_withMode {node : Node} {mode : Mode} :
    op.Replaces (node.withMode mode) ↔ op.Replaces node := by
  cases op with
  | directory p e => cases node <;> rfl
  | _ => rfl

/-- The node is still there, but for its mode. -/
def NodeKept (w w' : World) (loc : Loc) (node : Node) : Prop :=
  w.disk.get loc = some node → ∃ mode, w'.disk.get loc = some (node.withMode mode)

theorem execute_keeps : (execute tmp root local_ s op).Moves fun w w' =>
    ∀ loc node, ¬ op.Replaces node → NodeKept w w' loc node := by
  -- the steps that may replace any node are asked for nothing
  have hany : (∀ node, op.Replaces node) → (execute tmp root local_ s op).Moves fun w w' =>
      ∀ loc node, ¬ op.Replaces node → NodeKept w w' loc node := fun hall h w =>
    wp_of_forall (fun _ _ _ node hno => absurd (hall node) hno) fun _ _ _ node hno =>
      absurd (hall node) hno
  have hstays : ∀ {all : Bool} {w w' : World}, (∀ node, ¬ op.Replaces node → all = true ∨ node.isDir = true) →
      Stays all w w' → ∀ loc node, ¬ op.Replaces node → NodeKept w w' loc node :=
    fun hkind hst loc node hno hget => hst loc node (hkind node hno) hget
  have hof : ∀ {all : Bool}, (∀ node, ¬ op.Replaces node → all = true ∨ node.isDir = true) →
      (execute tmp root local_ s op).Moves (Stays all) → (execute tmp root local_ s op).Moves
        fun w w' => ∀ loc node, ¬ op.Replaces node → NodeKept w w' loc node :=
    fun hkind hm h w => wp_mono (hm h w) (fun _ _ hst => hstays hkind hst) fun _ _ hst => hstays hkind hst
  cases op with
  | delete p t => exact hany fun _ => trivial
  | symlink p e => exact hany fun _ => trivial
  | directory p e =>
      exact hof (fun node hno => .inr (by simpa [Planned.Replaces] using hno))
        (Prog.Moves.bind (R := Stays false) ensureLocalDirectory_stays fun _ => .pure _)
  | file p e incoming =>
      cases incoming with
      | some incoming => exact hany fun _ => Option.some_ne_none incoming
      | none =>
          refine hof (fun _ _ => .inl rfl)
            (Prog.Moves.bind (R := Stays true) adoptFile_stays fun b => ?_)
          cases b <;> exact .pure _
  | mode p permissions =>
      exact hof (fun _ _ => .inl rfl)
        (Prog.Moves.bind (R := Stays true) setLocalPermissions_stays fun _ => .pure _)

omit [Crypto] in
theorem Effect.keeps {p : Str} {X : Set Loc} (heff : Effect root p X w w') (hX : X ⊆ inTmp tmp) {loc : Loc}
    (hloc : loc ∉ inTmp tmp) (hne : loc ≠ target root p) (node : Node) : NodeKept w w' loc node := by
  intro hget
  by_cases hc : loc ∈ chain root p
  · exact heff.held hc hne hget
  · refine Node.held_of_eq ?_
    rw [heff.changes.frame, hget]
    rintro ((hin | hin) | hin)
    · exact hc hin
    · exact hne hin
    · exact hloc (hX hin)

/-- A step loses at most the node at its path, and only one that it may replace. -/
theorem execute_spares (ht : Tidy tmp root w.disk) (hop : op.Sound tmp) (hbytes : op.usesBytes = false) :
    (execute tmp root local_ s op).wp h w
      (fun _ w' => Tidy tmp root w'.disk ∧ ∀ loc node, loc ∉ inTmp tmp →
        (loc = target root op.path → ¬ op.Replaces node) → NodeKept w w' loc node)
      (fun _ w' => Tidy tmp root w'.disk ∧ ∀ loc node, loc ∉ inTmp tmp →
        (loc = target root op.path → ¬ op.Replaces node) → NodeKept w w' loc node) := by
  have hstaging := Planned.staging_subset (h := h) hop.delivered
  have hboth : ∀ {w'}, Effect root op.path (op.staging h tmp) w w' →
      (∀ loc node, ¬ op.Replaces node → NodeKept w w' loc node) → Tidy tmp root w'.disk
        ∧ ∀ loc node, loc ∉ inTmp tmp → (loc = target root op.path → ¬ op.Replaces node) →
          NodeKept w w' loc node := by
    intro w' heff hkeeps
    refine ⟨ht.of_effect hop heff, fun loc node hloc hno => ?_⟩
    by_cases he : loc = target root op.path
    · exact hkeeps loc node (hno he)
    · exact heff.keeps hstaging hloc he node
  refine wp_mono (wp_both (execute_spec ht hop.delivered fun hb => ?_) (execute_keeps h w)) ?_ ?_
  · rw [hbytes] at hb
    cases hb
  · rintro _ w' ⟨⟨b, hdid, -⟩, hkeeps⟩
    exact hboth hdid.effect hkeeps
  · rintro _ w' ⟨hfailed, hkeeps⟩
    exact hboth hfailed.1 hkeeps

end Step

/-! ## Applying -/

section Apply

variable [Crypto] {h : Host} {tmp root : Loc} {local_ remote : Manifest}
  {fileData : BTreeMap Str IncomingFile} {w : World}

/-- The manifest records a node at the path, of its kind and with its content. -/
def Manifest.Describes (m : Manifest) (p : Str) (node : Node) : Prop :=
  match m.record p, node with
  | some (.file e), .file content _ _ => e.size = content.len ∧ e.sha256 = sha256Hex content.val
  | some (.directory _), .dir _ => True
  | some (.symlink e), .symlink t => e.target = t
  | _, _ => False

instance (m : Manifest) (p : Str) (node : Node) : Decidable (m.Describes p node) := by
  unfold Manifest.Describes
  split <;> infer_instance

theorem Manifest.not_describes {m : Manifest} {p : Str} {node : Node} (hnone : m.record p = none) :
    ¬ m.Describes p node := by
  simp [Describes, hnone]

/-- Applying a record may take the place of a node: a file only if it was delivered, a directory only
if the node is none. -/
def MayReplace (fileData : BTreeMap Str IncomingFile) (p : Str) : ManifestRecord → Node → Prop
  | .file _, _ => fileData[p]? ≠ none
  | .directory _, node => node.isDir = false
  | _, _ => True

/-- At the paths where remote records win there is nothing to be replaced but what the manifest
describes. -/
def NoEdits (root : Loc) (d : Disk) (local_ remote : Manifest) (fileData : BTreeMap Str IncomingFile) :
    Prop :=
  ∀ p r node, Wins local_ remote p r → d.get (target root p) = some node →
    MayReplace fileData p r node → local_.Describes p node

theorem NoEdits.describes {shareId : ShareId} {d : Disk} (hno : NoEdits root d local_ remote fileData)
    (hremote : remote.Valid shareId) {op : Planned} (hop : op ∈ plan local_ remote fileData) {node : Node}
    (hget : d.get (target root op.path) = some node) (hr : op.Replaces node) :
    local_.Describes op.path node := by
  have hwins : ∀ {r}, op.record = some r → Wins local_ remote op.path r := fun hr =>
    wins_of_mem_plan hremote.separated hop hr
  cases op with
  | delete p t => exact hno p _ node (hwins rfl) hget trivial
  | directory p e => exact hno p _ node (hwins rfl) hget hr
  | symlink p e => exact hno p _ node (hwins rfl) hget trivial
  | file p e incoming =>
      obtain ⟨-, hincoming⟩ := mem_plan.mp hop
      refine hno p _ node (hwins rfl) hget ?_
      show fileData[p]? ≠ none
      rw [← hincoming]
      exact hr
  | mode p permissions => exact hr.elim

/-- A node of the tree is kept, or the manifest describes it. -/
def Versioned (local_ : Manifest) (tmp root : Loc) (w w' : World) : Prop :=
  ∀ loc node, loc ∉ inTmp tmp → w.disk.get loc = some node →
    (∃ mode, w'.disk.get loc = some (node.withMode mode))
      ∨ ∃ p, loc = target root p ∧ local_.Describes p node

theorem applyTree_spares {shareId : ShareId} (hremote : remote.Valid shareId)
    (hdata : Delivers tmp fileData) (ht : Tidy tmp root w.disk)
    (hno : NoEdits root w.disk local_ remote fileData) :
    (applyTree tmp root local_ remote fileData).wp h w
      (fun _ w' => Versioned local_ tmp root w w') fun _ w' => Versioned local_ tmp root w w' := by
  rw [applyTree_eq]
  refine wp_conseq (wp_foldlM (I := fun _ _ w' => Tidy tmp root w'.disk
    ∧ Versioned local_ tmp root w w') _ [] _ w ⟨ht, fun _ _ _ hget => .inl (Node.held_of_eq hget)⟩ ?_)
    fun _ _ hI => hI.2
  rintro before op after acc w₁ hsplit ⟨ht₁, hI⟩
  have hop : op ∈ plan local_ remote fileData := by
    rw [show plan local_ remote fileData = before ++ op :: after from hsplit]
    exact List.mem_append_right _ List.mem_cons_self
  obtain ⟨hsound, hbytes⟩ := plan_sound hremote hdata op hop
  -- what is lost in this step was at its path all along
  have hnext : ∀ {w₂ : World}, (∀ loc node, loc ∉ inTmp tmp →
      (loc = target root op.path → ¬ op.Replaces node) → NodeKept w₁ w₂ loc node) →
      Versioned local_ tmp root w w₂ := by
    intro w₂ hkept loc node hloc hget
    rcases hI loc node hloc hget with ⟨mode, hmode⟩ | hdescribed
    swap
    · exact .inr hdescribed
    by_cases hlost : loc = target root op.path ∧ op.Replaces node
    · obtain ⟨rfl, hr⟩ := hlost
      exact .inr ⟨op.path, rfl, hno.describes hremote hop hget hr⟩
    · obtain ⟨mode', hmode'⟩ := hkept loc (node.withMode mode) hloc
        (fun he hr => hlost ⟨he, replaces_withMode.mp hr⟩) hmode
      exact .inl ⟨mode', by rw [hmode', Node.withMode_withMode]⟩
  exact wp_mono (execute_spares ht₁ hsound hbytes) (fun _ _ hw₂ => ⟨hw₂.1, hnext hw₂.2⟩)
    fun _ _ hw₂ => hnext hw₂.2

/-- A node of the tree is kept, or the saved manifest describes it at its path. -/
def Spares (share : ActiveShare) (h : Host) (s : ShareState) (w' : World) : Prop :=
  ∀ loc node, loc ∉ inTmp share.shareTmpDir → s.world.disk.get loc = some node →
    (∃ mode, w'.disk.get loc = some (node.withMode mode))
      ∨ ∃ root p, (∃ s₀, localRoot share h s = .ok root s₀) ∧ loc = target root p
        ∧ s.manifestFile.Describes p node

theorem apply_spares {share : ActiveShare} {s : ShareState} (hs : s.Consistent share)
    (hremote : remote.Valid share.shareId) (hdata : Delivers share.shareTmpDir fileData)
    (hstaging : ∀ {root s₀}, localRoot share h s = .ok root s₀ →
      Staging root share.shareTmpDir s.world.disk)
    (hno : ∀ {root s₀}, localRoot share h s = .ok root s₀ →
      NoEdits root s.world.disk s.manifestFile remote fileData) :
    (applyRemoteTransferImpl share remote fileData).wp h s
      (fun _ s' => s'.Consistent share ∧ Spares share h s s'.world)
      (fun _ s' => s'.Consistent share ∧ Spares share h s s'.world) := by
  refine apply_rule hs (fun hsame hdone loc node hloc hget => ?_)
    (fun _ _ _ hget => .inl (Node.held_of_eq hget)) fun {root s₁} hopen => ?_
  · rw [hsame.disk]
    exact hdone loc node hloc hget
  · obtain ⟨s₀, hfound⟩ := hopen.found
    have hdisk := hopen.stored.same.disk
    have ht : Tidy share.shareTmpDir root s₁.world.disk := by
      rw [hdisk]
      exact ⟨hopen.dir, hstaging hfound⟩
    have hspared : ∀ {w'}, Versioned s.manifestFile share.shareTmpDir root s₁.world w' →
        Spares share h s w' := by
      intro w' hv loc node hloc hget
      rcases hv loc node hloc (by rwa [hdisk]) with hkept | ⟨p, hp, hdescribed⟩
      · exact .inl hkept
      · exact .inr ⟨root, p, ⟨s₀, hfound⟩, hp, hdescribed⟩
    exact wp_mono (applyTree_spares hremote hdata ht (by rw [hdisk]; exact hno hfound))
      (fun _ _ hv => hspared hv) fun _ _ hv => hspared hv

end Apply

/-! ## Runs -/

namespace Turn

variable [Crypto] (share : ActiveShare)

/-- Files are delivered to the staging directory, and that is apart from the tree. -/
def Staged (x : Turn) : Prop :=
  match x.round with
  | .apply _ fileData => Delivers share.shareTmpDir fileData
      ∧ ∀ {root s₀}, localRoot share x.host x.before = .ok root s₀ →
        Staging root share.shareTmpDir x.before.world.disk
  | _ => True

/-- Where an application is about to replace a node, no edit has been made since the last scan. -/
def NoEdits (x : Turn) : Prop :=
  match x.round with
  | .apply remote fileData => ∀ {root s₀}, localRoot share x.host x.before = .ok root s₀ →
      Syncbox.NoEdits root x.before.world.disk x.before.manifestFile remote fileData
  | _ => True

end Turn

section Runs

variable [Crypto] {share : ActiveShare} {s : ShareState} {rounds : List (Host × Round)}

theorem Turn.consistent_after {x : Turn} (hs : x.before.Consistent share) :
    (x.after share).Consistent share := by
  obtain ⟨s, h, round⟩ := x
  cases round with
  | scan =>
      refine Round.after_of_wp (P := ShareState.Consistent share) ?_
      have hscanned : ∀ {s'}, ScanStored share s s' → s'.Consistent share := by
        rintro s' ⟨w, m, c, hst, -⟩
        exact hst.consistent
      exact wp_mono (scanAndSave_stored hs) (fun _ _ h' => hscanned h') fun _ _ h' => hscanned h'
  | apply remote fileData =>
      refine Round.after_of_wp (P := ShareState.Consistent share) ?_
      show (applyRemoteTransferImpl share remote fileData >>= fun _ => pure ()).wp h s _ _
      exact wp_seq (apply_rule (Q := fun _ => True) hs (fun _ _ => trivial) trivial
        fun _ => wp_of_forall (fun _ _ => trivial) fun _ _ => trivial) (fun _ _ h' => h'.1)
        fun _ _ h' => h'.1
  | edit world => exact ⟨hs.valid, hs.cache⟩

theorem consistent_turns (hs : s.Consistent share) :
    ∀ x ∈ turns share s rounds, x.before.Consistent share := by
  induction rounds generalizing s with
  | nil => exact fun _ hx => by cases hx
  | cons r rounds ih =>
      intro x hx
      rcases List.mem_cons.mp hx with rfl | hx
      · exact hs
      · exact ih (Turn.consistent_after (x := ⟨s, r.1, r.2⟩) hs) x hx

/-- In a run whose applications meet no edit, a node that an application destroys has the kind and the
content that the saved manifest records for its path. -/
theorem applies_destroy_versioned (hs : s.Consistent share)
    (hremote : ∀ x ∈ rounds, ∀ remote ∈ x.2.remote?, remote.Valid share.shareId)
    (hstaged : ∀ x ∈ turns share s rounds, x.Staged share)
    (hno : ∀ x ∈ turns share s rounds, x.NoEdits share) :
    ∀ x ∈ turns share s rounds, ∀ remote fileData, x.round = .apply remote fileData →
      ∀ loc node, loc ∉ inTmp share.shareTmpDir → x.before.world.disk.get loc = some node →
        (∃ mode, (x.after share).world.disk.get loc = some (node.withMode mode))
          ∨ ∃ root p, (∃ s₀, localRoot share x.host x.before = .ok root s₀) ∧ loc = target root p
            ∧ x.before.manifestFile.Describes p node := by
  intro x hx remote fileData hround
  have hbefore : x.before.Consistent share := consistent_turns hs x hx
  have hvalid : remote.Valid share.shareId :=
    hremote _ (round_mem_of_mem_turns hx) remote (by rw [hround]; rfl)
  have hs' := hstaged x hx
  have hn := hno x hx
  obtain ⟨s, h, round⟩ := x
  dsimp only at hround
  subst hround
  have hspares : Spares share h s (Round.after share h s (.apply remote fileData)).world := by
    refine Round.after_of_wp (P := fun s' => Spares share h s s'.world) ?_
    show (applyRemoteTransferImpl share remote fileData >>= fun _ => pure ()).wp h s _ _
    exact wp_seq (apply_spares hbefore hvalid hs'.1 hs'.2 hn) (fun _ _ h' => h'.2) fun _ _ h' => h'.2
  exact hspares

end Runs

/-! ## A file that was never scanned -/

def removal : Manifest :=
  { Manifest.empty plainShare.shareId 0 with
    tombstones := (∅ : BTreeMap Str Tombstone).insert ['a'] ⟨.ofWall 1⟩ }

theorem noEdits_removal [Crypto] {d : Disk} {m : Manifest} {node : Node}
    (hget : d.get [['s'], ['a']] = some node) (hdescribed : m.Describes ['a'] node) :
    NoEdits [['s']] d m removal ∅ := by
  intro p r node' hw hnode' _
  have hp : p = ['a'] := by
    by_contra hne
    have hnone : removal.record p = none := by
      simp [removal, Manifest.record, Manifest.empty, Ne.symm hne]
    rw [hw.1] at hnone
    cases hnone
  subst hp
  rw [show target [['s']] ['a'] = [['s'], ['a']] from rfl, hget] at hnode'
  cases hnode'
  exact hdescribed

/-- A file that someone puts into the share. -/
def written : Node := .file Content.empty 0o644 0

def writtenDisk : Disk := plainDisk.put [['s']] ['a'] written (by decide +kernel)

def writing : Host × Round := (.quiet, .edit ⟨writtenDisk, 0, []⟩)

/-- The file is written, scanned, and then removed by a peer. -/
def scannedFirst : List (Host × Round) := [writing, (.quiet, .scan), (.quiet, .apply removal ∅)]

/-- The state in which the removal arrives. -/
def scannedState [Crypto] : ShareState :=
  Round.after plainShare .quiet (Round.after plainShare .quiet joined writing.2) .scan

theorem turns_scannedFirst [Crypto] : turns plainShare joined scannedFirst =
    [⟨joined, .quiet, writing.2⟩, ⟨Round.after plainShare .quiet joined writing.2, .quiet, .scan⟩,
      ⟨scannedState, .quiet, .apply removal ∅⟩] := rfl

theorem applies_destroy_versioned_scanned :
    let _ := Crypto.plain
    joined.Consistent plainShare
      ∧ (∀ x ∈ scannedFirst, ∀ remote ∈ x.2.remote?, remote.Valid plainShare.shareId)
      ∧ (∀ x ∈ turns plainShare joined scannedFirst, x.Staged plainShare)
      ∧ (∀ x ∈ turns plainShare joined scannedFirst, x.NoEdits plainShare)
      ∧ ∃ x ∈ turns plainShare joined scannedFirst, x.round = .apply removal ∅
        ∧ x.before.world.disk.get [['s'], ['a']] = some written
        ∧ (x.after plainShare).world.disk.get [['s'], ['a']] = none
        ∧ ∃ root p, [['s'], ['a']] = target root p ∧ x.before.manifestFile.Describes p written := by
  intro _
  have hs : joined.Consistent plainShare :=
    ⟨Manifest.valid_empty _ _, fun _ hsome => by cases hsome⟩
  have hremote : ∀ x ∈ scannedFirst, ∀ remote ∈ x.2.remote?, remote.Valid plainShare.shareId := by
    intro x hx remote hr
    simp only [scannedFirst, writing, List.mem_cons, List.not_mem_nil, or_false] at hx
    rcases hx with rfl | rfl | rfl
    · cases hr
    · cases hr
    · cases hr
      decide +kernel
  have hdir : scannedState.world.disk.IsDir plainShare.localDirectory := ⟨0o755, by decide +kernel⟩
  have hstaging : Staging [['s']] plainShare.shareTmpDir scannedState.world.disk :=
    ⟨⟨0o755, by decide +kernel⟩, by decide, by decide⟩
  have hget : scannedState.world.disk.get [['s'], ['a']] = some written := by decide +kernel
  have hdescribed : scannedState.manifestFile.Describes ['a'] written := by decide +kernel
  have hafter : (Turn.after plainShare ⟨scannedState, .quiet, .apply removal ∅⟩).world.disk.get
      [['s'], ['a']] = none := by decide +kernel
  have hturns := turns_scannedFirst
  -- nothing else is used of that state
  generalize scannedState = state at hdir hstaging hget hdescribed hafter hturns
  have hroot : ∀ {root s₀}, localRoot plainShare .quiet state = .ok root s₀ → root = [['s']] :=
    fun hfound => localRoot_eq hfound hdir
  have hlast : ⟨state, .quiet, .apply removal ∅⟩ ∈ turns plainShare joined scannedFirst := by
    rw [hturns]
    exact List.mem_cons_of_mem _ (List.mem_cons_of_mem _ List.mem_cons_self)
  have hstaged : ∀ x ∈ turns plainShare joined scannedFirst, x.Staged plainShare := by
    intro x hx
    simp only [hturns, List.mem_cons, List.not_mem_nil, or_false] at hx
    rcases hx with rfl | rfl | rfl
    · trivial
    · trivial
    · refine ⟨fun p incoming hp => ?_, fun {root s₀} hfound => ?_⟩
      · rw [Std.ExtTreeMap.getElem?_empty] at hp
        cases hp
      · rw [hroot hfound]
        exact hstaging
  have hno : ∀ x ∈ turns plainShare joined scannedFirst, x.NoEdits plainShare := by
    intro x hx
    simp only [hturns, List.mem_cons, List.not_mem_nil, or_false] at hx
    rcases hx with rfl | rfl | rfl
    · trivial
    · trivial
    · intro root s₀ hfound
      rw [hroot hfound]
      exact noEdits_removal hget hdescribed
  refine ⟨hs, hremote, hstaged, hno, _, hlast, rfl, hget, hafter, ?_⟩
  rcases applies_destroy_versioned hs hremote hstaged hno _ hlast removal ∅ rfl [['s'], ['a']] written
    (by rintro ⟨name, hname⟩; cases hname) hget with ⟨mode, hmode⟩ | ⟨root, p, -, hp, hd⟩
  · rw [hafter] at hmode
    cases hmode
  · exact ⟨root, p, hp, hd⟩

/-- Without the scan the file is removed all the same, and nothing has recorded it. -/
theorem unscanned_file_destroyed :
    let _ := Crypto.plain
    let rounds := [writing, (.quiet, .apply removal ∅)]
    joined.Consistent plainShare ∧ removal.Valid plainShare.shareId
      ∧ ∃ x ∈ turns plainShare joined rounds, x.round = .apply removal ∅
        ∧ x.before.world.disk.get [['s'], ['a']] = some written
        ∧ (x.after plainShare).world.disk.get [['s'], ['a']] = none
        ∧ ∀ p, ¬ x.before.manifestFile.Describes p written := by
  intro _ rounds
  refine ⟨⟨Manifest.valid_empty _ _, fun _ hsome => by cases hsome⟩, by decide +kernel, _,
    List.mem_cons_of_mem _ List.mem_cons_self, rfl, by decide +kernel, by decide +kernel, fun p hd => ?_⟩
  exact Manifest.not_describes ((Manifest.holds_empty _ _).record_eq p) hd

end Syncbox

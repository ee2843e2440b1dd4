/-
# `Syncbox.Network.LocalSpec` — what each operation does to the tree

One triple for each operation of `Syncbox.Network.Local`.  On success it says what
stands at the target afterwards; what happens to the parents is `Finished`, the same
for all.  On failure it says that the effect stayed within the parents, the target
and the staging area, and that the condition under which the operation succeeds was
not met.  `Clean` is the part of that condition that all operations share; the rest
says which node may stand at the target.

The parents are the same for all operations because all go through
`with_writable_parents`: they are opened one after another, the operation runs, and they
are given their modes back whether it succeeded or not.
-/
import Syncbox.Network.Writable

namespace Syncbox

open Rust Unix Prog

section Operations

variable {h : Host} {create : Bool} {root : Loc} {p : Str} {X : Set Loc} {w w₁ w₂ : World}
  {restores : List PermissionRestore}

theorem Prepared.get_target (hp : Prepared h create root (split p).dropLast w w₁ restores)
    (hc : Clean h w.disk root p) : w₁.disk.get (target root p) = w.disk.get (target root p) :=
  hp.changes.frame hc.target_notMem

/-! ## Looking at the target -/

theorem lstatTarget_spec {E : Error → World → Prop} (hi : Inside h create root p X w w₁ restores) :
    (lstat (root ++ split p)).wp h w₁ (fun r w₂ => Same w₁ w₂
        ∧ (∀ node, r = .ok node → w₁.disk.get (target root p) = some node)
        ∧ (r = .error .notFound → w₁.disk.get (target root p) = none)
        ∧ ∀ kind, r = .error kind → kind ≠ .notFound → ¬ Clean h w.disk root p) E := by
  refine wp_conseq (lstat_spec (hi.direct_after .refl)) ?_
  intro r w₂ hlook
  rw [← names_target hi.isDir]
  refine ⟨hlook.same, fun node hr => hlook.ok hr, hlook.missing, fun kind hr hk hc => ?_⟩
  exact hlook.blocked hr hk (hi.smooth_after hc .refl (.of_same (.refl w₁)))

/-! ## Directories -/

theorem createTarget_spec {G : Prop} (hi : Inside h true root p X w w₁ restores)
    (hgood : G → Clean h w.disk root p) (heff : Effect root p X w₁ w₂) (hst : Steady root p w₁ w₂)
    (hnone : w₂.disk.get (target root p) = none) :
    (createSharedDirectory (root ++ split p)).wp h w₂
      (fun _ w₃ => Effect root p X w₁ w₃ ∧ Steady root p w₁ w₃
        ∧ w₃.disk.get (target root p) = some (.dir (0o777 &&& ~~~h.umask)))
      (fun _ w₃ => Effect root p X w₁ w₃ ∧ ¬ G) := by
  unfold createSharedDirectory
  rw [wp_context]
  refine wp_conseq (mkdir_spec (hi.direct_after heff)) ?_
  rw [names_target hi.isDir]
  rintro r w₃ (⟨rfl, -, hdid⟩ | ⟨kind, rfl, hsame, hno⟩)
  · exact ⟨heff.trans (.of_target hdid fun _ t ht => by cases ht), hst.trans (.of_target hdid.sets),
      hdid.sets.at⟩
  · refine ⟨heff.trans (.of_same hsame), fun hg => hno ⟨?_, hnone⟩⟩
    have hc := hgood hg
    exact hi.ready_after hc heff hst (hi.prepared.parent_isDir hc hst)

theorem unlinkTarget_spec {text : String} {node : Node} {G : Prop}
    (hi : Inside h create root p X w w₁ restores) (hgood : G → Clean h w.disk root p)
    (hs : Same w₁ w₂) (hnode : w₁.disk.get (target root p) = some node) (hdir : node.isDir = false) :
    (context text (unlink (root ++ split p))).wp h w₂
      (fun _ w₃ => Effect root p X w₁ w₃ ∧ Steady root p w₁ w₃
        ∧ Sets w₁.disk (target root p) none w₃.disk)
      (fun _ w₃ => Effect root p X w₁ w₃ ∧ ¬ G) := by
  have heff : Effect root p X w₁ w₂ := .of_same hs
  have hst : Steady root p w₁ w₂ := .of_same hs
  rw [← hs.disk] at hnode
  rw [wp_context]
  refine wp_conseq (unlink_spec (hi.direct_after heff)) ?_
  rw [names_target hi.isDir]
  rintro r w₃ (⟨rfl, -, hdid⟩ | ⟨kind, rfl, hsame, hno⟩)
  · have hdid := hdid.after_same hs
    exact ⟨.of_target hdid (fun _ t ht => by cases ht), .of_target hdid.sets, hdid.sets⟩
  · refine ⟨heff.trans (.of_same hsame), fun hg => hno ⟨?_, node, hnode, hdir⟩⟩
    have hc := hgood hg
    exact hi.ready_after hc heff hst (parent_isDir_of_target hc hnode)

theorem rmdirTarget_spec {text : String} {G : Prop} (hi : Inside h create root p X w w₁ restores)
    (hgood : G → Clean h w.disk root p ∧ ∀ child, w.disk.get (target root p ++ [child]) = none)
    (hs : Same w₁ w₂) (hdir : w₁.disk.IsDir (target root p)) :
    (context text (rmdir (root ++ split p))).wp h w₂
      (fun _ w₃ => Effect root p X w₁ w₃ ∧ Steady root p w₁ w₃
        ∧ Sets w₁.disk (target root p) none w₃.disk)
      (fun _ w₃ => Effect root p X w₁ w₃ ∧ ¬ G) := by
  have heff : Effect root p X w₁ w₂ := .of_same hs
  have hst : Steady root p w₁ w₂ := .of_same hs
  rw [← hs.disk] at hdir
  rw [wp_context]
  refine wp_conseq (rmdir_spec (hi.direct_after heff)) ?_
  rw [names_target hi.isDir]
  rintro r w₃ (⟨rfl, -, hdid⟩ | ⟨kind, rfl, hsame, hno⟩)
  · have hdid := hdid.after_same hs
    exact ⟨.of_target hdid (fun _ t ht => by cases ht), .of_target hdid.sets, hdid.sets⟩
  · refine ⟨heff.trans (.of_same hsame), fun hg => hno ⟨?_, hdir, fun child => ?_⟩⟩
    · obtain ⟨m, hm⟩ := hdir
      have hc := (hgood hg).1
      exact hi.ready_after hc heff hst (parent_isDir_of_target hc hm)
    · obtain ⟨hc, hempty⟩ := hgood hg
      rw [hs.disk, hi.prepared.changes.frame, hempty]
      -- a child of the target is no parent of it
      rintro ⟨init, hi, he⟩
      have hlen := congrArg List.length he
      have hle := hi.length_le
      have hn : (names init).length ≤ init.length := List.length_filter_le _ _
      simp only [target, hc.canonical.names_split, List.length_append, List.length_singleton,
        List.length_dropLast] at hlen hle
      omega

/-- The node that `ensureLocalDirectory` leaves at its target. -/
def DirectoryEnsured (h : Host) (loc : Loc) (d d' : Disk) : Prop :=
  (∃ m, d.get loc = some (.dir m) ∧ d'.get loc = some (.dir m))
    ∨ (¬ d.IsDir loc ∧ d'.get loc = some (.dir (0o777 &&& ~~~h.umask)))

/-- A node that is not a directory makes way for one. -/
theorem replaceTarget_spec {text : String} {node : Node} {G : Prop}
    (hi : Inside h true root p ∅ w w₁ restores) (hgood : G → Clean h w.disk root p)
    (hs : Same w₁ w₂) (hnode : w₁.disk.get (target root p) = some node) (hdir : node.isDir = false) :
    (do context text (unlink (root ++ split p)); createSharedDirectory (root ++ split p) :
      Fs Unit).wp h w₂
      (fun _ w₃ => Effect root p ∅ w₁ w₃ ∧ Steady root p w₁ w₃
        ∧ DirectoryEnsured h (target root p) w₁.disk w₃.disk)
      (fun _ w₃ => Effect root p ∅ w₁ w₃ ∧ ¬ G) := by
  refine wp_then (unlinkTarget_spec hi hgood hs hnode hdir) ?_
  rintro _ w₃ ⟨heff, hst, hsets⟩
  refine wp_conseq (createTarget_spec hi hgood heff hst hsets.at) ?_
  rintro _ w₄ ⟨heff, hst, hget⟩
  refine ⟨heff, hst, .inr ⟨?_, hget⟩⟩
  rintro ⟨m, hm⟩
  rw [hnode] at hm
  cases hm
  cases hdir

theorem ensureLocalDirectory_spec (hroot : w.disk.IsDir root) :
    (ensureLocalDirectory root p).wp h w
      (fun _ w' => Finished true root p ∅ w w' ∧ (target root p ∉ chain root p →
        DirectoryEnsured h (target root p) w.disk w'.disk))
      (fun _ w' => Effect root p ∅ w w'
        ∧ ¬ (Clean h w.disk root p ∧ w.disk.get (target root p) ≠ some .special)) := by
  refine wp_conseq (onTarget_spec
    (R := fun _ w₁ w₂ => DirectoryEnsured h (target root p) w₁.disk w₂.disk)
    apart_empty hroot And.left fun {w₁ restores} hi => ?_) ?_
  · refine wp_then (lstatTarget_spec hi) ?_
    rintro r w₂ ⟨hsame, hok, hmissing, hblocked⟩
    rcases r with kind | (⟨c, m, t⟩ | m | t | _)
    · cases kind with
      | notFound =>
          have hnone := hmissing rfl
          refine wp_conseq (createTarget_spec hi And.left
            (.of_same hsame) (.of_same hsame) (by rw [hsame.disk]; exact hnone)) ?_
          rintro _ w₃ ⟨heff, hst, hget⟩
          refine ⟨heff, hst, .inr ⟨?_, hget⟩⟩
          rintro ⟨m, hm⟩
          rw [hnone] at hm
          cases hm
      | _ => exact ⟨.of_same hsame, fun hg => hblocked _ rfl (by decide) hg.1⟩
    · exact replaceTarget_spec hi And.left hsame (hok _ rfl) rfl
    · exact ⟨.of_same hsame, .of_same hsame, .inl ⟨m, hok _ rfl, by rw [hsame.disk]; exact hok _ rfl⟩⟩
    · exact replaceTarget_spec hi And.left hsame (hok _ rfl) rfl
    · refine ⟨.of_same hsame, fun hg => hg.2 ?_⟩
      rw [← hi.prepared.get_target hg.1]
      exact hok _ rfl
  · rintro _ w' ⟨hfin, w₁, w₂, hstart, hR, hend⟩
    refine ⟨hfin, fun ht => ?_⟩
    rw [DirectoryEnsured, hend _ ht, Disk.IsDir, ← hstart _ ht]
    exact hR

/-- Nothing is left at the target of `removeLocalPath`, unless it was a special node. -/
def Removed (loc : Loc) (d d' : Disk) : Prop :=
  d'.get loc = none ∨ (d.get loc = some .special ∧ d'.get loc = some .special)

theorem removeLocalPath_spec (hroot : w.disk.IsDir root) :
    (removeLocalPath root p).wp h w
      (fun _ w' => Finished false root p ∅ w w' ∧ (target root p ∉ chain root p →
        Removed (target root p) w.disk w'.disk))
      (fun _ w' => Effect root p ∅ w w' ∧ ¬ (Clean h w.disk root p
        ∧ (w.disk.IsDir (target root p) → ∀ child, w.disk.get (target root p ++ [child]) = none))) := by
  refine wp_conseq (onTarget_spec
    (R := fun _ w₁ w₂ => Removed (target root p) w₁.disk w₂.disk)
    apart_empty hroot And.left fun {w₁ restores} hi => ?_) ?_
  · refine wp_then (lstatTarget_spec hi) ?_
    rintro r w₂ ⟨hsame, hok, hmissing, hblocked⟩
    rcases r with kind | (⟨c, m, t⟩ | m | t | _)
    · cases kind with
      | notFound =>
          exact ⟨.of_same hsame, .of_same hsame, .inl (by rw [hsame.disk]; exact hmissing rfl)⟩
      | _ => exact ⟨.of_same hsame, fun hg => hblocked _ rfl (by decide) hg.1⟩
    · exact wp_conseq
        (unlinkTarget_spec hi And.left hsame (hok _ rfl) rfl)
        fun _ _ ⟨heff, hst, hsets⟩ => ⟨heff, hst, .inl hsets.at⟩
    · refine wp_conseq
        (rmdirTarget_spec hi (fun hg => ⟨hg.1, hg.2 ⟨m, ?_⟩⟩) hsame
          ⟨m, hok _ rfl⟩) fun _ _ ⟨heff, hst, hsets⟩ => ⟨heff, hst, .inl hsets.at⟩
      rw [← hi.prepared.get_target hg.1]
      exact hok _ rfl
    · exact wp_conseq
        (unlinkTarget_spec hi And.left hsame (hok _ rfl) rfl)
        fun _ _ ⟨heff, hst, hsets⟩ => ⟨heff, hst, .inl hsets.at⟩
    · exact ⟨.of_same hsame, .of_same hsame, .inr ⟨hok _ rfl, by rw [hsame.disk]; exact hok _ rfl⟩⟩
  · rintro _ w' ⟨hfin, w₁, w₂, hstart, hR, hend⟩
    refine ⟨hfin, fun ht => ?_⟩
    rw [Removed, hend _ ht, ← hstart _ ht]
    exact hR

/-! ## Modes -/

/-- A node of the kind whose mode is to be set. -/
def ofKind (directory : Bool) (node : Node) : Bool := if directory then node.isDir else node.isFile

/-- What setting a mode leaves at the target. -/
def ModeSet (directory : Bool) (permissions : Option U16) (loc : Loc) (d d' : Disk) : Prop :=
  match permissions with
  | none => d'.get loc = d.get loc
  | some mode => ∃ node, d.get loc = some node ∧ ofKind directory node = true
      ∧ d'.get loc = some (node.withMode (mode.setWidth 12))

theorem ParentsKept.steady (hk : ParentsKept false root p w.disk w₁.disk) : Steady root p w w₁ := by
  intro c hc hne
  rcases hk c hc hne with ⟨m, hm, hm'⟩ | ⟨-, hcreate, -⟩ | ⟨hn, -, hn'⟩
  · rw [hm, hm']
  · cases hcreate
  · rw [hn, hn']

theorem setWidth_of_eq {mode : Mode} {permissions : U16} (he : mode.setWidth 16 = permissions) :
    permissions.setWidth 12 = mode := by
  rw [← he, BitVec.setWidth_setWidth_of_le _ (by omega), BitVec.setWidth_eq]

/-- `set` of `setPermissions`: nothing to do when the mode is already there. -/
theorem chmodTarget_spec {text : String} {node : Node} {mode : Mode} {permissions : U16} {G : Prop}
    (hi : Inside h create root p X w w₁ restores) (hgood : G → Clean h w.disk root p)
    (hs : Same w₁ w₂) (hnode : w₁.disk.get (target root p) = some node)
    (hmode : node.withMode mode = node) (hlink : node.isSymlink = false) :
    (if mode.setWidth 16 = permissions then pure ()
      else context text (chmod (root ++ split p) (permissions.setWidth 12)) : Fs Unit).wp h w₂
      (fun _ w₃ => Effect root p X w₁ w₃ ∧ Steady root p w₁ w₃
        ∧ w₃.disk.get (target root p) = some (node.withMode (permissions.setWidth 12)))
      (fun _ w₃ => Effect root p X w₁ w₃ ∧ ¬ G) := by
  have heff : Effect root p X w₁ w₂ := .of_same hs
  refine wp_ite (fun he => ?_) (fun _ => ?_)
  · refine ⟨heff, .of_same hs, ?_⟩
    rw [hs.disk, hnode, setWidth_of_eq he, hmode]
  · have hlast : ¬ w₂.disk.IsLink (names (root ++ split p)) := by
      rintro ⟨t, ht⟩
      rw [names_target hi.isDir, hs.disk, hnode] at ht
      cases ht
      cases hlink
    rw [wp_context]
    refine wp_conseq (chmod_spec (hi.direct_after heff) hlast) ?_
    rw [names_target hi.isDir, hs.disk]
    rintro r w₃ (⟨rfl, node', hnode', hdid⟩ | ⟨kind, rfl, hsame, hno⟩)
    · rw [hnode] at hnode'
      cases hnode'
      have hdid := hdid.after_same hs
      refine ⟨.of_target hdid fun _ t ht => ?_, .of_target hdid.sets, hdid.sets.at⟩
      cases node <;> cases ht
      cases hlink
    · refine ⟨heff.trans (.of_same hsame), fun hg => hno ⟨?_, node, hnode⟩⟩
      have := hi.smooth_after (hgood hg) heff (.of_same hs)
      rwa [hs.disk] at this

theorem setPermissions_spec {permissions : U16} {directory : Bool}
    (hi : Inside h create root p ∅ w w₁ restores) :
    (setPermissions (root ++ split p) permissions directory).wp h w₁
      (fun _ w₂ => Effect root p ∅ w₁ w₂ ∧ Steady root p w₁ w₂
        ∧ ModeSet directory (some permissions) (target root p) w₁.disk w₂.disk)
      (fun _ w₂ => Effect root p ∅ w₁ w₂ ∧ ¬ (Clean h w.disk root p
        ∧ ∃ node, w.disk.get (target root p) = some node ∧ ofKind directory node = true)) := by
  unfold setPermissions
  refine wp_context_then (lstatTarget_spec hi) ?_
  rintro r w₂ ⟨hsame, hok, hmissing, hblocked⟩
  rcases r with kind | node
  · refine ⟨.of_same hsame, ?_⟩
    rintro ⟨hc, node, hnode, -⟩
    by_cases hk : kind = .notFound
    · subst hk
      rw [← hi.prepared.get_target hc, hmissing rfl] at hnode
      cases hnode
    · exact hblocked _ rfl hk hc
  · have hnode := hok _ rfl
    -- a node of another kind is refused
    have refused : ofKind directory node = false → Effect root p ∅ w₁ w₂
        ∧ ¬ (Clean h w.disk root p
          ∧ ∃ node, w.disk.get (target root p) = some node ∧ ofKind directory node = true) := by
      intro hkind
      refine ⟨.of_same hsame, ?_⟩
      rintro ⟨hc, node', hnode', hkind'⟩
      rw [← hi.prepared.get_target hc, hnode] at hnode'
      cases hnode'
      rw [hkind] at hkind'
      cases hkind'
    cases node with
    | symlink t => cases directory <;> exact refused rfl
    | special => cases directory <;> exact refused rfl
    | dir m =>
        cases directory with
        | false => exact refused rfl
        | true =>
            refine wp_conseq (chmodTarget_spec hi And.left hsame hnode
              rfl rfl) ?_
            exact fun _ w₃ ⟨heff, hst, hget⟩ => ⟨heff, hst, _, hnode, rfl, hget⟩
    | file c m t =>
        cases directory with
        | true => exact refused rfl
        | false =>
            refine wp_conseq (chmodTarget_spec hi And.left hsame hnode
              rfl rfl) ?_
            exact fun _ w₃ ⟨heff, hst, hget⟩ => ⟨heff, hst, _, hnode, rfl, hget⟩

theorem setLocalPermissions_spec {directory : Bool} {permissions : Option U16}
    (hroot : w.disk.IsDir root) :
    (setLocalPermissions directory root p permissions).wp h w
      (fun _ w' => Effect root p ∅ w w' ∧ Steady root p w w' ∧ (target root p ∉ chain root p →
        ModeSet directory permissions (target root p) w.disk w'.disk))
      (fun _ w' => Effect root p ∅ w w' ∧ ¬ (Clean h w.disk root p
        ∧ ∃ node, w.disk.get (target root p) = some node ∧ ofKind directory node = true)) := by
  cases permissions with
  | none => exact ⟨.refl, fun _ _ _ => rfl, fun _ => rfl⟩
  | some permissions =>
      refine wp_conseq (onTarget_spec
        (R := fun _ w₁ w₂ => ModeSet directory (some permissions) (target root p) w₁.disk w₂.disk)
        apart_empty hroot And.left setPermissions_spec) ?_
      rintro _ w' ⟨hfin, w₁, w₂, hstart, ⟨node, hnode, hkind, hget⟩, hend⟩
      refine ⟨hfin.effect, hfin.parents.steady, fun ht => ⟨node, ?_, hkind, ?_⟩⟩
      · rw [← hstart _ ht, hnode]
      · rw [hend _ ht, hget]

/-! ## Reading -/

theorem read_bit {m : Mode} (hm : m &&& 0o400 ≠ 0) : m &&& 0o400 = 0o400 := by
  have hand : m &&& 0o400 = if m.getLsbD 8 then 0o400 else 0 := BitVec.and_twoPow m 8
  rw [hand] at hm ⊢
  split
  · rfl
  · rename_i hbit
    rw [if_neg hbit] at hm
    exact absurd rfl hm

theorem canRead_of_bit {m : Mode} (hm : m &&& 0o400 = 0o400) : h.canRead m = true := by
  rw [Host.canRead, hm, beq_self_eq_true, Bool.or_true]

theorem Effect.of_read {node : Node} {access : Access} (hd : w₁.disk = w.disk)
    (hlog : w₁.log = (access, target root p) :: w.log)
    (hnode : w.disk.get (target root p) = some node) (hlink : node.isSymlink = false) :
    Effect root p X w w₁ := by
  refine .of_target (o := some node) ⟨fun l => ?_, hlog⟩ fun _ t ht => ?_
  · rw [hd]
    split
    · rename_i he
      rw [← he, hnode]
    · rfl
  · cases ht
    cases hlink

theorem chmodFile_spec {E : Error → World → Prop} {c : Content} {m mode : Mode} {t : U64}
    (hi : Inside h create root p X w w₁ restores) (heff : Effect root p X w₁ w₂)
    (hst : Steady root p w₁ w₂) (hnode : w₂.disk.get (target root p) = some (.file c m t)) :
    (chmod (root ++ split p) mode).wp h w₂ (fun r w₃ => Effect root p X w₁ w₃
      ∧ Steady root p w₁ w₃
      ∧ ((r = .ok () ∧ Sets w₂.disk (target root p) (some (.file c mode t)) w₃.disk)
        ∨ ∃ kind, r = .error kind ∧ w₃.disk = w₂.disk ∧ ¬ Clean h w.disk root p)) E := by
  have hlast : ¬ w₂.disk.IsLink (names (root ++ split p)) := by
    rintro ⟨t, ht⟩
    rw [names_target hi.isDir, hnode] at ht
    cases ht
  refine wp_conseq (chmod_spec (hi.direct_after heff) hlast) ?_
  rw [names_target hi.isDir]
  rintro r w₃ (⟨rfl, node', hnode', hdid⟩ | ⟨kind, rfl, hsame, hno⟩)
  · rw [hnode] at hnode'
    cases hnode'
    exact ⟨heff.trans (.of_target hdid fun _ t ht => by cases ht), hst.trans (.of_target hdid.sets),
      .inl ⟨rfl, hdid.sets⟩⟩
  · exact ⟨heff.trans (.of_same hsame), hst.trans (.of_same hsame), .inr ⟨kind, rfl, hsame.disk,
      fun hc => hno ⟨hi.smooth_after hc heff hst, _, hnode⟩⟩⟩

theorem makeReadable_spec {c : Content} {m : Mode} {t : U64}
    (hi : Inside h create root p X w w₁ restores) (hs : Same w₁ w₂)
    (hnode : w₁.disk.get (target root p) = some (.file c m t)) :
    (makeReadable (root ++ split p) m).wp h w₂
      (fun r w₃ => Effect root p X w₁ w₃ ∧ Steady root p w₁ w₃
        ∧ ((r = none ∧ w₃.disk = w₁.disk ∧ (Clean h w.disk root p → h.canRead m = true))
          ∨ (r = some m ∧ Sets w₁.disk (target root p) (some (.file c (m ||| 0o400) t)) w₃.disk)))
      (fun _ w₃ => Effect root p X w₁ w₃ ∧ ¬ Clean h w.disk root p) := by
  unfold makeReadable
  refine wp_ite (fun hm => ?_) (fun hm => ?_)
  · refine wp_then (chmodFile_spec hi (.of_same hs) (.of_same hs)
      (by rw [hs.disk]; exact hnode)) ?_
    rintro r w₃ ⟨heff, hst, ⟨rfl, hsets⟩ | ⟨kind, rfl, hdisk, hno⟩⟩
    · rw [hs.disk] at hsets
      exact ⟨heff, hst, .inr ⟨rfl, hsets⟩⟩
    · refine wp_ite (fun _ => ?_) (fun _ => ⟨heff, hno⟩)
      exact ⟨heff, hst, .inl ⟨rfl, hdisk.trans hs.disk, fun hc => absurd hc hno⟩⟩
  · exact ⟨.of_same hs, .of_same hs, .inl ⟨rfl, hs.disk, fun _ => canRead_of_bit (read_bit hm)⟩⟩

section Hash

variable [Crypto] {size : U64} {sha : Str}

/-- The target is a regular file with this content. -/
def HasContent (d : Disk) (loc : Loc) (size : U64) (sha : Str) : Prop :=
  ∃ c m t, d.get loc = some (.file c m t) ∧ c.len = size ∧ sha256Hex c.val = sha

theorem hashMatches_spec {c : Content} {m : Mode} {t : U64}
    (hi : Inside h create root p X w w₁ restores) (heff : Effect root p X w₁ w₂)
    (hst : Steady root p w₁ w₂) (hnode : w₂.disk.get (target root p) = some (.file c m t)) :
    (hashMatches (root ++ split p) size sha t).wp h w₂
      (fun b w₃ => Effect root p X w₁ w₃ ∧ Steady root p w₁ w₃ ∧ w₃.disk = w₂.disk
        ∧ (b = true ↔ c.len = size ∧ sha256Hex c.val = sha))
      (fun _ w₃ => Effect root p X w₁ w₃ ∧ Steady root p w₁ w₃ ∧ w₃.disk = w₂.disk
        ∧ ¬ (Clean h w.disk root p ∧ h.canRead m = true)) := by
  have hlast : ¬ w₂.disk.IsLink (names (root ++ split p)) := by
    rintro ⟨t, ht⟩
    rw [names_target hi.isDir, hnode] at ht
    cases ht
  unfold hashMatches
  refine wp_context_then (openRead_spec (hi.direct_after heff) hlast) ?_
  rw [names_target hi.isDir]
  rintro r w₃ (⟨rfl, hs₃⟩ | ⟨kind, rfl, hs₃, hno⟩)
  · have hnode₃ : w₃.disk.get (target root p) = some (.file c m t) := by rw [hs₃.disk]; exact hnode
    have heff₃ := heff.trans (.of_same hs₃)
    have hst₃ := hst.trans (.of_same hs₃)
    dsimp only
    refine wp_context_then readAll_spec ?_
    rintro r w₄ (⟨c', m', t', rfl, hget, hd₄, hlog⟩ | ⟨kind, rfl, hs₄, hno⟩)
    · rw [hnode₃] at hget
      cases hget
      have heff₄ : Effect root p X w₁ w₄ := heff₃.trans (.of_read hd₄ hlog hnode₃ rfl)
      have hd₄' : w₄.disk = w₂.disk := hd₄.trans hs₃.disk
      have hst₄ : Steady root p w₁ w₄ := fun c hc hne => by rw [hd₄']; exact hst c hc hne
      dsimp only
      refine wp_context_then fstat_spec ?_
      rintro r w₅ (⟨node, rfl, hget, hs₅⟩ | ⟨kind, rfl, hs₅, hno⟩)
      · rw [hd₄', hnode] at hget
        cases hget
        refine ⟨heff₄.trans (.of_same hs₅), hst₄.trans (.of_same hs₅), hs₅.disk.trans hd₄', ?_⟩
        simp only [Bool.and_eq_true, decide_eq_true_eq, and_true]
      · refine ⟨heff₄.trans (.of_same hs₅), hst₄.trans (.of_same hs₅), hs₅.disk.trans hd₄', ?_⟩
        exact fun hc => hno ⟨hc.1.reach.noFault, _, by rw [hd₄']; exact hnode⟩
    · refine ⟨heff₃.trans (.of_same hs₄), hst₃.trans (.of_same hs₄), hs₄.disk.trans hs₃.disk, ?_⟩
      exact fun hc => hno ⟨hc.1.reach.noFault, _, _, _, hnode₃⟩
  · refine ⟨heff.trans (.of_same hs₃), hst.trans (.of_same hs₃), hs₃.disk, ?_⟩
    exact fun hc => hno ⟨hi.smooth_after hc.1 heff hst, _, _, _, hnode, hc.2⟩

/-- Reading between two changes of the mode: the file is as before. -/
theorem withReadableFile_spec {c : Content} {m : Mode} {t : U64}
    (hi : Inside h create root p X w w₁ restores) (hs : Same w₁ w₂)
    (hnode : w₁.disk.get (target root p) = some (.file c m t)) :
    (withReadableFile (root ++ split p) m (hashMatches (root ++ split p) size sha t)).wp h w₂
      (fun b w₃ => Effect root p X w₁ w₃ ∧ Steady root p w₁ w₃
        ∧ w₃.disk.get (target root p) = w₁.disk.get (target root p)
        ∧ (b = true ↔ c.len = size ∧ sha256Hex c.val = sha))
      (fun _ w₃ => Effect root p X w₁ w₃ ∧ ¬ Clean h w.disk root p) := by
  unfold withReadableFile
  refine wp_then (makeReadable_spec hi hs hnode) ?_
  rintro r w₃ ⟨heff₃, hst₃, ⟨rfl, hd₃, hread⟩ | ⟨rfl, hsets⟩⟩
  · have hnode₃ : w₃.disk.get (target root p) = some (.file c m t) := by rw [hd₃]; exact hnode
    rw [wp_bind, wp_attempt]
    refine wp_mono (hashMatches_spec hi heff₃ hst₃ hnode₃) ?_ ?_
    · rintro b w₄ ⟨heff₄, hst₄, hd₄, hb⟩
      exact ⟨heff₄, hst₄, by rw [hd₄, hd₃], hb⟩
    · rintro e w₄ ⟨heff₄, hst₄, hd₄, hno⟩
      exact ⟨heff₄, fun hc => hno ⟨hc, hread hc⟩⟩
  · have hread : h.canRead (m ||| 0o400) = true := canRead_of_bit (or_and_bits m)
    have hrestore : ∀ {w₄ : World}, Effect root p X w₁ w₄ → Steady root p w₁ w₄ →
        w₄.disk = w₃.disk → (restoreFilePermissions (root ++ split p) (some m)).wp h w₄
          (fun _ w₅ => Effect root p X w₁ w₅ ∧ Steady root p w₁ w₅
            ∧ w₅.disk.get (target root p) = some (.file c m t))
          (fun _ w₅ => Effect root p X w₁ w₅ ∧ ¬ Clean h w.disk root p) := by
      intro w₄ heff₄ hst₄ hd₄
      unfold restoreFilePermissions
      rw [wp_context]
      refine wp_conseq (chmodFile_spec hi heff₄ hst₄
        (by rw [hd₄]; exact hsets.at)) ?_
      rintro r w₅ ⟨heff₅, hst₅, ⟨rfl, hsets₅⟩ | ⟨kind, rfl, -, hno⟩⟩
      · exact ⟨heff₅, hst₅, hsets₅.at⟩
      · exact ⟨heff₅, hno⟩
    rw [wp_bind, wp_attempt]
    refine wp_mono (hashMatches_spec hi heff₃ hst₃ hsets.at) ?_ ?_
    · rintro b w₄ ⟨heff₄, hst₄, hd₄, hb⟩
      rw [wp_bind, wp_attempt]
      refine wp_mono (hrestore heff₄ hst₄ hd₄) ?_ ?_
      · rintro _ w₅ ⟨heff₅, hst₅, hget⟩
        exact ⟨heff₅, hst₅, by rw [hget, hnode], hb⟩
      · exact fun e w₅ hf => hf
    · rintro e w₄ ⟨heff₄, hst₄, hd₄, hno⟩
      rw [wp_bind, wp_attempt]
      refine wp_mono (hrestore heff₄ hst₄ hd₄) ?_ ?_
      · exact fun _ w₅ hr => ⟨hr.1, fun hc => hno ⟨hc, hread⟩⟩
      · exact fun e w₅ hf => hf

theorem Prepared.no_content (hp : Prepared h create root (split p).dropLast w w₁ restores)
    (hin : target root p ∈ chain root p) : ¬ HasContent w.disk (target root p) size sha := by
  rintro ⟨c, m, t, hget, -⟩
  rcases hp.each hin with ⟨m', hb, -, -⟩ | ⟨r, -, -, hb, -⟩ | ⟨-, hb, -⟩ | ⟨-, hb, -⟩ <;>
    rw [hget] at hb <;> cases hb

theorem localFileMatchesEntry_spec (hroot : w.disk.IsDir root) :
    (localFileMatchesEntry root p size sha).wp h w
      (fun b w' => Finished false root p ∅ w w'
        ∧ (target root p ∉ chain root p → w'.disk.get (target root p) = w.disk.get (target root p))
        ∧ (b = true → target root p ∉ chain root p)
        ∧ (b = true ↔ HasContent w.disk (target root p) size sha))
      (fun _ w' => Effect root p ∅ w w'
        ∧ ¬ (Clean h w.disk root p ∧ ¬ w.disk.IsLink (target root p))) := by
  refine wp_conseq (onTarget_spec
    (R := fun b w₁ w₂ => (w₂.disk.get (target root p) = w₁.disk.get (target root p)
      ∧ (b = true → target root p ∉ chain root p)
      ∧ (b = true ↔ HasContent w₁.disk (target root p) size sha))
      ∧ (target root p ∈ chain root p → ¬ HasContent w.disk (target root p) size sha))
    apart_empty hroot And.left fun {w₁ restores} hi => ?_) ?_
  · refine wp_conseq (Q := fun b w₂ => Effect root p ∅ w₁ w₂ ∧ Steady root p w₁ w₂
      ∧ w₂.disk.get (target root p) = w₁.disk.get (target root p)
      ∧ (b = true → target root p ∉ chain root p)
      ∧ (b = true ↔ HasContent w₁.disk (target root p) size sha)) ?_
      fun b w₂ ⟨heff, hst, hr⟩ => ⟨heff, hst, hr, hi.prepared.no_content⟩
    refine wp_then (lstatTarget_spec hi) ?_
    rintro r w₂ ⟨hsame, hok, hmissing, hblocked⟩
    -- nothing but a file has content
    have other : (∀ c m t, w₁.disk.get (target root p) ≠ some (.file c m t)) →
        Effect root p ∅ w₁ w₂ ∧ Steady root p w₁ w₂
          ∧ w₂.disk.get (target root p) = w₁.disk.get (target root p)
          ∧ (false = true → target root p ∉ chain root p)
          ∧ (false = true ↔ HasContent w₁.disk (target root p) size sha) := fun hno =>
      ⟨.of_same hsame, .of_same hsame, by rw [hsame.disk], fun hf => (by cases hf),
        fun hf => (by cases hf), fun ⟨c, m, t, hget, _⟩ => absurd hget (hno c m t)⟩
    rcases r with kind | (⟨c, m, t⟩ | m | t | _)
    · cases kind with
      | notFound => exact other fun c m t hget => by rw [hmissing rfl] at hget; cases hget
      | _ => exact ⟨.of_same hsame, fun hg => hblocked _ rfl (by decide) hg.1⟩
    · have hnode := hok _ rfl
      have hchain : target root p ∉ chain root p := fun hin => by
        rcases hi.prepared.dir_or_none hin with hnone | ⟨m', hm'⟩
        · rw [hnode] at hnone; cases hnone
        · rw [hnode] at hm'; cases hm'
      refine wp_ite (fun hlen => ?_) (fun hlen => ?_)
      · refine wp_mono (withReadableFile_spec hi hsame hnode) ?_ ?_
        · rintro b w₃ ⟨heff, hst, hget, hb⟩
          refine ⟨heff, hst, hget, fun _ => hchain, hb.trans ⟨fun hc => ⟨c, m, t, hnode, hc⟩, ?_⟩⟩
          rintro ⟨c', m', t', hget', hc⟩
          rw [hnode] at hget'
          cases hget'
          exact hc
        · exact fun e w₃ hf => ⟨hf.1, fun hg => hf.2 hg.1⟩
      · refine ⟨.of_same hsame, .of_same hsame, by rw [hsame.disk], fun hf => (by cases hf),
          fun hf => (by cases hf), ?_⟩
        rintro ⟨c', m', t', hget, hlen', -⟩
        rw [hnode] at hget
        cases hget
        exact absurd hlen' hlen
    · exact other fun c m t hget => by rw [hok _ rfl] at hget; cases hget
    · refine ⟨.of_same hsame, fun hg => hg.2 ⟨t, ?_⟩⟩
      rw [← hi.prepared.get_target hg.1]
      exact hok _ rfl
    · exact other fun c m t hget => by rw [hok _ rfl] at hget; cases hget
  · rintro b w' ⟨hfin, w₁, w₂, hstart, ⟨⟨hget, hchain, hb⟩, hno⟩, hend⟩
    refine ⟨hfin, fun ht => ?_, hchain, ?_⟩
    · rw [hend _ ht, hget, hstart _ ht]
    · by_cases ht : target root p ∈ chain root p
      · exact ⟨fun hbt => absurd ht (hchain hbt), fun hc => absurd hc (hno ht)⟩
      · rw [hb, HasContent, HasContent, hstart _ ht]

end Hash

end Operations

end Syncbox

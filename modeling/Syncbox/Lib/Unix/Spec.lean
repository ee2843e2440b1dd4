/-
# `Unix.Spec` — what the calls do on direct paths

One triple for each call, about a path none of whose proper prefixes is a link.
The location is then `names path`, and the triple says what the call finds there,
what it leaves there and that it leaves everything else alone.  On the side of
errors it says two things: nothing changed, and some condition under which the call
cannot fail was not met.  `Ready` is the part of that condition that all calls on
directory entries share.

That condition is stated negatively, on the error side, on purpose.  A proof about what a
program may destroy ignores it and holds for every host; a proof that a program succeeds
supplies it, and the error side becomes absurd.  One triple serves both.
-/
import Syncbox.Lib.Check
import Syncbox.Lib.Unix.Calls

namespace Unix

open Rust Check

/-! ## Effects -/

/-- `d'` is `d` with `o` at `loc`. -/
def Sets (d : Disk) (loc : Loc) (o : Option Node) (d' : Disk) : Prop :=
  ∀ l, d'.get l = if loc = l then o else d.get l

theorem Sets.at {d d' : Disk} {loc : Loc} {o : Option Node} (h : Sets d loc o d') :
    d'.get loc = o := by rw [h, if_pos rfl]

theorem Sets.off {d d' : Disk} {loc l : Loc} {o : Option Node} (h : Sets d loc o d')
    (hne : loc ≠ l) : d'.get l = d.get l := by rw [h, if_neg hne]

/-- Nothing but the number of calls changed. -/
structure Same (w w' : World) : Prop where
  disk : w'.disk = w.disk
  log : w'.log = w.log

theorem Same.refl (w : World) : Same w w := ⟨rfl, rfl⟩

theorem Same.trans {w w' w'' : World} (h : Same w w') (h' : Same w' w'') : Same w w'' :=
  ⟨h'.disk.trans h.disk, h'.log.trans h.log⟩

/-- Only nodes in `S` changed, and only nodes in `S` were touched. -/
structure Changes (S : Set Loc) (w w' : World) : Prop where
  frame : ∀ {loc}, loc ∉ S → w'.disk.get loc = w.disk.get loc
  log : ∃ new, w'.log = new ++ w.log ∧ ∀ a ∈ new, a.2 ∈ S

namespace Changes

variable {S T : Set Loc} {w w' w'' : World}

theorem refl (S : Set Loc) (w : World) : Changes S w w := ⟨fun _ => rfl, [], rfl, by simp⟩

theorem trans (h : Changes S w w') (h' : Changes S w' w'') : Changes S w w'' := by
  obtain ⟨new, hlog, hnew⟩ := h.log
  obtain ⟨new', hlog', hnew'⟩ := h'.log
  refine ⟨fun hl => (h'.frame hl).trans (h.frame hl), new' ++ new, ?_, fun a ha => ?_⟩
  · rw [hlog', hlog, List.append_assoc]
  · rcases List.mem_append.mp ha with ha | ha
    · exact hnew' a ha
    · exact hnew a ha

theorem mono (h : Changes S w w') (hsub : S ⊆ T) : Changes T w w' :=
  ⟨fun hl => h.frame fun hs => hl (hsub hs),
    h.log.imp fun _ hnew => ⟨hnew.1, fun a ha => hsub (hnew.2 a ha)⟩⟩

theorem of_same (h : Same w w') : Changes S w w' :=
  ⟨fun _ => by rw [h.disk], [], by simpa using h.log, by simp⟩

theorem of_sets {loc : Loc} {o : Option Node} {access : Access} (h : Sets w.disk loc o w'.disk)
    (hlog : w'.log = (access, loc) :: w.log) (hloc : loc ∈ S) : Changes S w w' :=
  ⟨fun hl => h.off fun he => hl (he ▸ hloc), [(access, loc)], by rw [hlog]; rfl, by simpa using hloc⟩

end Changes

/-! ## Modes -/

namespace Node

variable {node : Node}

@[simp] theorem withMode_withMode (m m' : Mode) : (node.withMode m).withMode m' = node.withMode m' := by
  cases node <;> rfl

theorem held_of_eq {o : Option Node} (h : o = some node) : ∃ mode, o = some (node.withMode mode) := by
  subst h
  cases node with
  | file c m t => exact ⟨m, rfl⟩
  | dir m => exact ⟨m, rfl⟩
  | symlink t => exact ⟨0, rfl⟩
  | special => exact ⟨0, rfl⟩

end Node

/-! ## Conditions -/

/-- An entry that the process may create, replace or remove. -/
def Ready (h : Host) (d : Disk) (path : PathBuf) : Prop :=
  ∃ parent name, path = parent ++ [name] ∧ Smooth h d path ∧ d.writable h parent = true
    ∧ isFileName name = true

theorem Ready.smooth {h : Host} {d : Disk} {path : PathBuf} (hr : Ready h d path) :
    Smooth h d path := by
  obtain ⟨_, _, _, hs, _⟩ := hr
  exact hs

theorem isDir_of_writable {h : Host} {d : Disk} {loc : Loc} (hw : d.writable h loc = true) :
    d.IsDir loc := by
  unfold Disk.writable at hw
  split at hw
  · exact ⟨_, by assumption⟩
  · cases hw

theorem Direct.of_sets_dir {d d' : Disk} {path : PathBuf} {loc : Loc} {mode : Mode}
    (hd : Direct d path) (hs : Sets d loc (some (.dir mode)) d') : Direct d' path where
  noDotDot := hd.noDotDot
  noLink := by
    intro init hi hne
    by_cases he : loc = names init
    · rintro ⟨t, ht⟩
      rw [← he, hs.at] at ht
      cases ht
    · rw [Disk.IsLink, hs.off he]
      exact hd.noLink hi hne

theorem Smooth.of_sets {h : Host} {d d' : Disk} {path : PathBuf} {o : Option Node}
    (hsm : Smooth h d path) (hs : Sets d (names path) o d') : Smooth h d' path where
  noFault := hsm.noFault
  named := hsm.named
  passable := fun hi hne => by
    rw [hs.off (by rw [hsm.named.names]; exact Ne.symm hne)]
    exact hsm.passable hi hne

/-! ## Rules -/

section Rules

variable {ε α : Type} {h : Host} {w : World} {path : PathBuf} {follow : Follow}
  {Q : Except IoKind α → World → Prop} {E : ε → World → Prop}

theorem wp_call {core : Core α}
    (hok : ∀ a d log, core h w.calls w.disk = .ok (a, d, log) →
      Q (.ok a) ⟨d, w.calls + 1, log ++ w.log⟩)
    (herr : ∀ kind, (h.fault w.calls = true ∧ kind = .other
        ∨ core h w.calls w.disk = .error kind) → Q (.error kind) { w with calls := w.calls + 1 }) :
    (call core : Prog Host ε World _).wp h w Q E := by
  unfold Prog.wp call
  by_cases hf : h.fault w.calls = true
  · simp only [hf, if_true]
    exact herr _ (.inl ⟨hf, rfl⟩)
  · simp only [hf]
    rcases hc : core h w.calls w.disk with kind | ⟨a, d, log⟩
    · exact herr _ (.inr hc)
    · exact hok a d log hc

/-- Why a call on a path failed. -/
inductive Failed (h : Host) (w : World) (follow : Follow) (path : PathBuf)
    (core : Host → Nat → Disk → Place → Except IoKind (α × Disk × Log)) (kind : IoKind) : Prop
  | fault (hf : h.fault w.calls = true) (hk : kind = .other) : Failed h w follow path core kind
  | path (hr : resolve h w.disk follow path = .error kind) : Failed h w follow path core kind
  | core (place : Place) (hr : resolve h w.disk follow path = .ok place)
      (hc : core h w.calls w.disk place = .error kind) : Failed h w follow path core kind

/-- The rule for calls on a path: the two ways out, and no unfolding of `callAt` after it. -/
theorem wp_callAt {core : Host → Nat → Disk → Place → Except IoKind (α × Disk × Log)}
    (hd : Direct w.disk path) (hlast : follow = .always → ¬ w.disk.IsLink (names path))
    (hok : ∀ place a d log, Reached w.disk [] path place →
      core h w.calls w.disk place = .ok (a, d, log) → Q (.ok a) ⟨d, w.calls + 1, log ++ w.log⟩)
    (herr : ∀ kind, Failed h w follow path core kind →
      Q (.error kind) { w with calls := w.calls + 1 }) :
    (callAt follow path core : Prog Host ε World _).wp h w Q E := by
  refine wp_call ?_ ?_
  · intro a d log hc
    obtain ⟨place, hr, hc⟩ := bind_eq_ok.mp hc
    exact hok place a d log (reached_of_resolve hd hlast hr) hc
  · rintro kind (⟨hf, hk⟩ | hc)
    · exact herr kind (.fault hf hk)
    · cases hr : resolve h w.disk follow path with
      | error kind' =>
          rw [hr] at hc
          cases hc
          exact herr _ (.path hr)
      | ok place =>
          rw [hr] at hc
          exact herr _ (.core place hr hc)

theorem Failed.at_entry {core : Host → Nat → Disk → Place → Except IoKind (α × Disk × Log)}
    {kind : IoKind} {parent : Loc} {name : Str} (hf : Failed h w follow (parent ++ [name]) core kind)
    (hs : Smooth h w.disk (parent ++ [name]))
    (hlast : follow = .always → ¬ w.disk.IsLink (parent ++ [name])) (hdir : w.disk.IsDir parent) :
    core h w.calls w.disk (.entry parent name false) = .error kind := by
  have hres := hs.resolve hlast
  rw [if_pos hdir] at hres
  cases hf with
  | fault hf _ => rw [hs.noFault] at hf; cases hf
  | path hr => rw [hres] at hr; cases hr
  | core place hr hc =>
      rw [hres] at hr
      cases hr
      exact hc

/-- On a smooth path a call fails because nothing is there, or in its core, at the place the
path spells. -/
theorem Failed.of_smooth {core : Host → Nat → Disk → Place → Except IoKind (α × Disk × Log)}
    {kind : IoKind} (hf : Failed h w follow path core kind) (hs : Smooth h w.disk path)
    (hlast : follow = .always → ¬ w.disk.IsLink (names path)) :
    (kind = .notFound ∧ w.disk.get (names path) = none)
      ∨ ∃ place, place.loc = names path ∧ (∀ {p n s}, place = .entry p n s → s = false)
        ∧ core h w.calls w.disk place = .error kind := by
  rcases List.eq_nil_or_concat path with rfl | ⟨parent, name, hpath⟩
  · refine .inr ⟨.dir [], rfl, fun he => (by cases he), ?_⟩
    cases hf with
    | fault hf _ => rw [hs.noFault] at hf; cases hf
    | path hr => cases hr
    | core place hr hc => cases hr; exact hc
  · rw [List.concat_eq_append] at hpath
    subst hpath
    rw [hs.named.names] at hlast ⊢
    by_cases hdir : w.disk.IsDir parent
    · exact .inr ⟨.entry parent name false, rfl, fun he => (by cases he; rfl),
        hf.at_entry hs hlast hdir⟩
    · have hres := hs.resolve hlast
      rw [if_neg hdir] at hres
      cases hf with
      | fault hf _ => rw [hs.noFault] at hf; cases hf
      | path hr =>
          rw [hres] at hr
          cases hr
          refine .inl ⟨rfl, Option.eq_none_iff_forall_ne_some.mpr fun node hnode => ?_⟩
          exact hdir (Disk.isDir_of_child hnode)
      | core place hr hc => rw [hres] at hr; cases hr

/-- A ready path fails only in its core, at the entry it spells. -/
theorem Failed.of_ready {core : Host → Nat → Disk → Place → Except IoKind (α × Disk × Log)}
    {kind : IoKind} (hf : Failed h w .never path core kind) (hr : Ready h w.disk path) :
    ∃ parent name, names path = parent ++ [name] ∧ w.disk.writable h parent = true
      ∧ isFileName name = true ∧ w.disk.IsDir parent
      ∧ core h w.calls w.disk (.entry parent name false) = .error kind := by
  obtain ⟨parent, name, rfl, hs, hw, hn⟩ := hr
  have hdir := isDir_of_writable hw
  exact ⟨parent, name, hs.named.names, hw, hn, hdir, hf.at_entry hs (by simp) hdir⟩

end Rules

/-! ## Looking -/

/-- The answer of a call that looks at a node. -/
structure Looked (h : Host) (w : World) (path : PathBuf) (r : Except IoKind Node) (w' : World) :
    Prop where
  same : Same w w'
  ok : ∀ {node}, r = .ok node → w.disk.get (names path) = some node
  missing : r = .error .notFound → w.disk.get (names path) = none
  blocked : ∀ {kind}, r = .error kind → kind ≠ .notFound → ¬ Smooth h w.disk path

section Look

variable {ε : Type} {E : ε → World → Prop} {h : Host} {w : World} {path : PathBuf}

theorem nodeAt_ok {d : Disk} {place : Place} {node : Node} (hn : d.nodeAt place = .ok node) :
    d.get place.loc = some node := by
  unfold Disk.nodeAt at hn
  split at hn
  · cases hn
  · split at hn
    · cases hn; assumption
    · cases hn
  · cases hn; assumption

theorem nodeAt_notFound {d : Disk} {place : Place} (hn : d.nodeAt place = .error .notFound) :
    d.get place.loc = none := by
  unfold Disk.nodeAt at hn
  split at hn
  · assumption
  · split at hn <;> cases hn
  · cases hn

theorem nodeAt_error {d : Disk} {place : Place} {kind : IoKind}
    (hplace : ∀ {p n s}, place = .entry p n s → s = false) (hn : d.nodeAt place = .error kind) :
    kind = .notFound ∧ d.get place.loc = none := by
  unfold Disk.nodeAt at hn
  split at hn
  · rename_i hget
    cases hn
    exact ⟨rfl, hget⟩
  · cases hplace rfl
  · cases hn

/-- On a smooth path to something that is there, a call fails in its core, which sees the node. -/
theorem Failed.of_there {α : Type} {follow : Follow}
    {core : Host → Nat → Disk → Place → Except IoKind (α × Disk × Log)} {kind : IoKind} {node : Node}
    (hf : Failed h w follow path core kind) (hs : Smooth h w.disk path)
    (hlast : follow = .always → ¬ w.disk.IsLink (names path))
    (hget : w.disk.get (names path) = some node) :
    ∃ place, place.loc = names path ∧ w.disk.nodeAt place = .ok node
      ∧ core h w.calls w.disk place = .error kind := by
  rcases hf.of_smooth hs hlast with ⟨-, hnone⟩ | ⟨place, hloc, hplace, hc⟩
  · rw [hget] at hnone
    cases hnone
  · rw [← hloc] at hget
    refine ⟨place, hloc, ?_, hc⟩
    cases hn : w.disk.nodeAt place with
    | error kind' =>
        rw [(nodeAt_error hplace hn).2] at hget
        cases hget
    | ok node' =>
        rw [nodeAt_ok hn] at hget
        cases hget
        rfl

theorem looked {follow : Follow} (hd : Direct w.disk path)
    (hlast : follow = .always → ¬ w.disk.IsLink (names path)) :
    (callAt follow path fun _ _ d place => (d.nodeAt place).map fun node => (node, d, []) :
      Prog Host ε World _).wp h w (Looked h w path) E := by
  refine wp_callAt hd hlast ?_ ?_
  · intro place node d log hreach hc
    obtain ⟨node', hnode, heq⟩ := map_eq_ok.mp hc
    cases heq
    refine ⟨⟨rfl, rfl⟩, fun he => ?_, fun he => (by cases he), fun he => (by cases he)⟩
    cases he
    have := nodeAt_ok hnode
    rwa [hreach.loc, List.nil_append] at this
  · intro kind hf
    refine ⟨⟨rfl, rfl⟩, fun he => (by cases he), fun he => ?_, fun he hne hs => ?_⟩
    · cases he
      cases hf with
      | fault _ hk => cases hk
      | path hr => exact get_none_of_resolve hd hlast hr
      | core place hr hc =>
          have hreach := reached_of_resolve hd hlast hr
          cases hn : w.disk.nodeAt place with
          | ok node => rw [hn] at hc; cases hc
          | error kind =>
              rw [hn] at hc
              cases hc
              have := nodeAt_notFound hn
              rwa [hreach.loc, List.nil_append] at this
    · cases he
      rcases hf.of_smooth hs hlast with ⟨hk, -⟩ | ⟨place, -, hplace, hc⟩
      · exact hne hk
      · cases hn : w.disk.nodeAt place with
        | ok node => rw [hn] at hc; cases hc
        | error kind' =>
            rw [hn] at hc
            cases hc
            exact hne (nodeAt_error hplace hn).1

theorem lstat_spec (hd : Direct w.disk path) :
    (lstat path : Prog Host ε World _).wp h w (Looked h w path) E :=
  looked hd (by simp)

theorem stat_spec (hd : Direct w.disk path) (hlast : ¬ w.disk.IsLink (names path)) :
    (stat path : Prog Host ε World _).wp h w (Looked h w path) E :=
  looked hd fun _ => hlast

theorem direct_of_get {d : Disk} {loc : Loc} {node : Node} (hget : d.get loc = some node) :
    Direct d loc where
  noDotDot := fun hm => by
    have := Disk.isFileName_of_get hget _ hm
    simp [isFileName] at this
  noLink := by
    rintro init ⟨rest, rfl⟩ hne ⟨t, ht⟩
    obtain ⟨m, hm⟩ := Disk.isDir_of_prefix hget (by rintro rfl; exact hne (by simp))
    rw [Disk.names_of_get hm, hm] at ht
    cases ht

theorem readLink_spec (hd : Direct w.disk path) :
    (readLink path : Prog Host ε World _).wp h w (fun r w' => Same w w'
      ∧ ((∃ target, r = .ok target ∧ w.disk.get (names path) = some (.symlink target))
        ∨ ∃ kind, r = .error kind ∧ ¬ (Smooth h w.disk path ∧ w.disk.IsLink (names path)))) E := by
  refine wp_callAt hd (by simp) ?_ ?_
  · intro place target d log hreach hc
    split at hc
    · rename_i t hnode
      cases hc
      have hget := nodeAt_ok hnode
      rw [hreach.loc, List.nil_append] at hget
      exact ⟨⟨rfl, rfl⟩, .inl ⟨target, rfl, hget⟩⟩
    · cases hc
    · cases hc
  · intro kind hf
    refine ⟨⟨rfl, rfl⟩, .inr ⟨kind, rfl, ?_⟩⟩
    rintro ⟨hs, target, hget⟩
    obtain ⟨place, -, hn, hc⟩ := hf.of_there hs (by simp) hget
    rw [hn] at hc
    cases hc

/-- Every directory at or below `loc` may be listed and entered. -/
def Disk.Listable (d : Disk) (h : Host) (loc : Loc) : Prop :=
  ∀ rest node, d.get (loc ++ rest) = some node → h.canList node = true

theorem walkDir_spec (hd : Direct w.disk path) (hdir : w.disk.IsDir (names path)) :
    (walkDir path : Prog Host ε World _).wp h w (fun r w' => Same w w'
      ∧ (r = .ok (h.walkOrder (w.disk.below (names path)))
        ∨ ∃ kind, r = .error kind
          ∧ ¬ (Smooth h w.disk path ∧ w.disk.Listable h (names path)))) E := by
  have hlast := hdir.not_link
  obtain ⟨mode, hmode⟩ := hdir
  refine wp_callAt hd (fun _ => hlast) ?_ ?_
  · intro place entries d log hreach hc
    have hloc : place.loc = names path := hreach.loc
    split at hc
    · cases hc
    · split at hc
      · cases hc
        exact ⟨⟨rfl, rfl⟩, .inl (by rw [hloc])⟩
      · cases hc
  · intro kind hf
    refine ⟨⟨rfl, rfl⟩, .inr ⟨kind, rfl, ?_⟩⟩
    rintro ⟨hs, hopen⟩
    obtain ⟨place, hloc, hn, hc⟩ := hf.of_there hs (fun _ => hlast) hmode
    rw [hn] at hc
    dsimp only at hc
    rw [if_pos] at hc
    · cases hc
    · refine ⟨hopen [] _ (by simpa using hmode), ?_⟩
      rintro ⟨s, node⟩ hmem
      rw [hloc] at hmem
      exact hopen s node (Disk.mem_below.mp hmem).2

end Look

/-! ## Directory entries -/

/-- The one change a call made. -/
structure Did (w w' : World) (loc : Loc) (o : Option Node) (access : Access) : Prop where
  sets : Sets w.disk loc o w'.disk
  log : w'.log = (access, loc) :: w.log

theorem Did.changes {w w' : World} {loc : Loc} {o : Option Node} {access : Access} {S : Set Loc}
    (h : Did w w' loc o access) (hloc : loc ∈ S) : Changes S w w' :=
  Changes.of_sets h.sets h.log hloc

theorem Did.after_same {w w₁ w' : World} {loc : Loc} {o : Option Node} {access : Access}
    (hs : Same w w₁) (h : Did w₁ w' loc o access) : Did w w' loc o access :=
  ⟨by rw [← hs.disk]; exact h.sets, by rw [← hs.log]; exact h.log⟩

theorem Did.then_same {w w₁ w' : World} {loc : Loc} {o : Option Node} {access : Access}
    (h : Did w w₁ loc o access) (hs : Same w₁ w') : Did w w' loc o access :=
  ⟨by rw [hs.disk]; exact h.sets, by rw [hs.log]; exact h.log⟩

theorem Sets.trans {d d' d'' : Disk} {loc : Loc} {o o' : Option Node} (h : Sets d loc o d')
    (h' : Sets d' loc o' d'') : Sets d loc o' d'' := fun l => by
  rw [h' l]
  split
  · rfl
  · exact h.off ‹_›

section Primitives

variable {d d' : Disk} {h : Host} {parent loc : Loc} {name : Str} {node : Node} {log : Log}
  {access : Access} {kind : IoKind}

theorem create_ok (hc : d.create h parent name node = .ok ((), d', log)) :
    Sets d (parent ++ [name]) (some node) d' ∧ log = [(.create, parent ++ [name])] := by
  unfold Disk.create at hc
  split at hc
  · cases hc
  · split at hc
    · cases hc
      exact ⟨fun l => by simp, rfl⟩
    · cases hc

theorem create_error (hc : d.create h parent name node = .error kind)
    (hw : d.writable h parent = true) (hn : isFileName name = true) :
    d.IsDir (parent ++ [name]) := by
  unfold Disk.create at hc
  rw [if_neg (by simp [hw])] at hc
  split at hc
  · cases hc
  · rename_i hput
    by_contra hdir
    exact hput ⟨hn, isDir_of_writable hw, hdir⟩

theorem delete_ok (hc : d.delete parent name = .ok ((), d', log)) :
    Sets d (parent ++ [name]) none d' ∧ log = [(.remove, parent ++ [name])] := by
  unfold Disk.delete at hc
  split at hc
  · cases hc
    exact ⟨fun l => by simp, rfl⟩
  · cases hc

theorem delete_error (hc : d.delete parent name = .error kind) :
    ∃ child, d.get (parent ++ [name] ++ [child]) ≠ none := by
  unfold Disk.delete at hc
  split at hc
  · cases hc
  · rename_i hr
    by_contra hno
    exact hr (Disk.hasChild_eq_false_iff.mpr fun child => by_contra fun hne => hno ⟨child, hne⟩)

theorem get_child_of_not_dir (hget : d.get loc = some node) (hdir : node.isDir = false)
    (child : Str) : d.get (loc ++ [child]) = none := by
  refine Option.eq_none_iff_forall_ne_some.mpr fun n hn => ?_
  obtain ⟨mode, hmode⟩ := Disk.isDir_of_child hn
  rw [hget] at hmode
  cases hmode
  cases hdir

theorem update_ok (hc : d.update loc node access = .ok ((), d', log)) :
    Sets d loc (some node) d' ∧ log = [(access, loc)] := by
  unfold Disk.update at hc
  split at hc
  · cases hc
    exact ⟨fun l => by simp, rfl⟩
  · cases hc

theorem update_error (hc : d.update loc node access = .error kind) {old : Node}
    (hget : d.get loc = some old) : old.isDir ≠ node.isDir := by
  unfold Disk.update at hc
  split at hc
  · cases hc
  · rename_i hm
    intro he
    exact hm (by simp [Disk.CanModify, hget, he])

end Primitives

section Entries

variable {ε : Type} {E : ε → World → Prop} {h : Host} {w : World} {path : PathBuf}

theorem Reached.entry_loc {d : Disk} {parent : Loc} {name : Str} {slash : Bool}
    (hr : Reached d [] path (.entry parent name slash)) : parent ++ [name] = names path :=
  hr.loc

/-- Without a trailing slash the last part is the name, and no prefix spells the same place. -/
theorem Reached.last {d : Disk} {parent : Loc} {name : Str}
    (hr : Reached d [] path (.entry parent name false)) :
    ∃ init, path = init ++ [name] ∧ isName name = true := by
  obtain ⟨init, hpath, -, hn⟩ := (hr.entry rfl).2 rfl
  exact ⟨init, hpath, hn⟩

theorem mkdir_spec (hd : Direct w.disk path) :
    (mkdir path : Prog Host ε World _).wp h w (fun r w' =>
      (r = .ok () ∧ w.disk.get (names path) = none
        ∧ Did w w' (names path) (some (.dir (0o777 &&& ~~~h.umask))) .create)
      ∨ ∃ kind, r = .error kind ∧ Same w w'
        ∧ ¬ (Ready h w.disk path ∧ w.disk.get (names path) = none)) E := by
  refine wp_callAt hd (by simp) ?_ ?_
  · intro place _ d log hreach hc
    rcases place with _ | ⟨parent, name, slash⟩
    · cases hc
    · dsimp only at hc
      rw [hreach.entry_loc] at hc
      split at hc
      · cases hc
      · rename_i hnone
        obtain ⟨hsets, rfl⟩ := create_ok hc
        rw [hreach.entry_loc] at hsets
        exact .inl ⟨rfl, hnone, hsets, by rw [hreach.entry_loc]; rfl⟩
  · intro kind hf
    refine .inr ⟨kind, rfl, ⟨rfl, rfl⟩, ?_⟩
    rintro ⟨hr, hnone⟩
    obtain ⟨parent, name, hloc, hw, hn, -, hc⟩ := hf.of_ready hr
    rw [hloc] at hnone
    simp only [hnone] at hc
    obtain ⟨mode, hdir⟩ := create_error hc hw hn
    rw [hnone] at hdir
    cases hdir

theorem symlink_spec {target : Str} (hd : Direct w.disk path) :
    (symlink target path : Prog Host ε World _).wp h w (fun r w' =>
      (r = .ok () ∧ w.disk.get (names path) = none
        ∧ (∃ init name, path = init ++ [name] ∧ isName name = true)
        ∧ Did w w' (names path) (some (.symlink target)) .create)
      ∨ ∃ kind, r = .error kind ∧ Same w w'
        ∧ ¬ (Ready h w.disk path ∧ w.disk.get (names path) = none)) E := by
  refine wp_callAt hd (by simp) ?_ ?_
  · intro place _ d log hreach hc
    rcases place with _ | ⟨parent, name, slash⟩
    · cases hc
    · dsimp only at hc
      rw [hreach.entry_loc] at hc
      split at hc
      · cases hc
      · rename_i hnone
        cases slash with
        | true => cases hc
        | false =>
            obtain ⟨hsets, rfl⟩ := create_ok hc
            rw [hreach.entry_loc] at hsets
            obtain ⟨init, hpath, hn⟩ := hreach.last
            exact .inl ⟨rfl, hnone, ⟨init, name, hpath, hn⟩, hsets,
              by rw [hreach.entry_loc]; rfl⟩
  · intro kind hf
    refine .inr ⟨kind, rfl, ⟨rfl, rfl⟩, ?_⟩
    rintro ⟨hr, hnone⟩
    obtain ⟨parent, name, hloc, hw, hn, -, hc⟩ := hf.of_ready hr
    rw [hloc] at hnone
    simp only [hnone] at hc
    obtain ⟨mode, hdir⟩ := create_error hc hw hn
    rw [hnone] at hdir
    cases hdir

theorem unlink_spec (hd : Direct w.disk path) :
    (unlink path : Prog Host ε World _).wp h w (fun r w' =>
      (r = .ok () ∧ (∃ node, w.disk.get (names path) = some node ∧ node.isDir = false)
        ∧ Did w w' (names path) none .remove)
      ∨ ∃ kind, r = .error kind ∧ Same w w' ∧ ¬ (Ready h w.disk path
        ∧ ∃ node, w.disk.get (names path) = some node ∧ node.isDir = false)) E := by
  refine wp_callAt hd (by simp) ?_ ?_
  · intro place _ d log hreach hc
    rcases place with _ | ⟨parent, name, slash⟩
    · cases hc
    · dsimp only at hc
      rw [hreach.entry_loc] at hc
      cases hget : w.disk.get (names path) with
      | none => rw [hget] at hc; cases hc
      | some node =>
          rw [hget] at hc
          dsimp only at hc
          split_ifs at hc with _ _ hdir
          obtain ⟨hsets, rfl⟩ := delete_ok hc
          rw [hreach.entry_loc] at hsets
          exact .inl ⟨rfl, ⟨node, rfl, by simpa using hdir⟩, hsets, by rw [hreach.entry_loc]; rfl⟩
  · intro kind hf
    refine .inr ⟨kind, rfl, ⟨rfl, rfl⟩, ?_⟩
    rintro ⟨hr, node, hget, hdir⟩
    obtain ⟨parent, name, hloc, hw, hn, -, hc⟩ := hf.of_ready hr
    rw [hloc] at hget
    simp only [hget, hw, hdir, Bool.false_eq_true, Bool.true_eq_false, if_false] at hc
    obtain ⟨child, hchild⟩ := delete_error hc
    exact hchild (get_child_of_not_dir hget hdir child)

theorem rmdir_spec (hd : Direct w.disk path) :
    (rmdir path : Prog Host ε World _).wp h w (fun r w' =>
      (r = .ok () ∧ w.disk.IsDir (names path) ∧ Did w w' (names path) none .remove)
      ∨ ∃ kind, r = .error kind ∧ Same w w' ∧ ¬ (Ready h w.disk path
        ∧ w.disk.IsDir (names path) ∧ ∀ child, w.disk.get (names path ++ [child]) = none)) E := by
  refine wp_callAt hd (by simp) ?_ ?_
  · intro place _ d log hreach hc
    rcases place with _ | ⟨parent, name, slash⟩
    · cases hc
    · dsimp only at hc
      rw [hreach.entry_loc] at hc
      cases hget : w.disk.get (names path) with
      | none => rw [hget] at hc; cases hc
      | some node =>
          rw [hget] at hc
          dsimp only at hc
          split_ifs at hc with _ hdir
          obtain ⟨hsets, rfl⟩ := delete_ok hc
          rw [hreach.entry_loc] at hsets
          refine .inl ⟨rfl, ?_, hsets, by rw [hreach.entry_loc]; rfl⟩
          cases node <;> simp [Node.isDir] at hdir
          exact ⟨_, hget⟩
  · intro kind hf
    refine .inr ⟨kind, rfl, ⟨rfl, rfl⟩, ?_⟩
    rintro ⟨hr, ⟨mode, hget⟩, hempty⟩
    obtain ⟨parent, name, hloc, hw, hn, -, hc⟩ := hf.of_ready hr
    rw [hloc] at hget hempty
    simp only [hget, hw, Node.isDir, Bool.true_eq_false, if_false] at hc
    obtain ⟨child, hchild⟩ := delete_error hc
    exact hchild (hempty child)

theorem move_ok {d d' : Disk} {sp tp : Loc} {sn tn : Str} {node : Node} {log : Log}
    (hc : d.move sp sn tp tn node = .ok ((), d', log)) (hnode : d.get (sp ++ [sn]) = some node)
    (hdir : node.isDir = false) :
    (∀ l, d'.get l = if tp ++ [tn] = l then some node else if sp ++ [sn] = l then none else d.get l)
      ∧ ¬ d.IsDir (tp ++ [tn]) ∧ log = [(.create, tp ++ [tn]), (.remove, sp ++ [sn])] := by
  unfold Disk.move at hc
  split at hc
  · dsimp only at hc
    split at hc
    · rename_i hput
      cases hc
      refine ⟨fun l => by simp, fun ⟨mode, hmode⟩ => hput.2.2 ⟨mode, ?_⟩, rfl⟩
      rw [Disk.get_remove, if_neg]
      · exact hmode
      · intro he
        rw [he, hmode] at hnode
        cases hnode
        cases hdir
    · cases hc
  · cases hc

theorem move_error {d : Disk} {h : Host} {sp tp : Loc} {sn tn : Str} {node : Node} {kind : IoKind}
    (hc : d.move sp sn tp tn node = .error kind) (hnode : d.get (sp ++ [sn]) = some node)
    (hdir : node.isDir = false) (hw : d.writable h tp = true) (hn : isFileName tn = true) :
    d.IsDir (tp ++ [tn]) := by
  have hnochild := get_child_of_not_dir hnode hdir
  unfold Disk.move at hc
  split at hc
  · dsimp only at hc
    split at hc
    · cases hc
    · rename_i hput
      by_contra hno
      refine hput ⟨hn, ?_, ?_⟩
      · obtain ⟨mode, hmode⟩ := isDir_of_writable hw
        refine ⟨mode, ?_⟩
        rw [Disk.get_remove, if_neg]
        · exact hmode
        · intro he
          rw [he, hmode] at hnode
          cases hnode
          cases hdir
      · rintro ⟨mode, hmode⟩
        rw [Disk.get_remove] at hmode
        split at hmode
        · cases hmode
        · exact hno ⟨mode, hmode⟩
  · rename_i hr
    exact absurd (Disk.hasChild_eq_false_iff.mpr hnochild) hr

theorem rename_spec {target : PathBuf} (hd : Direct w.disk path) (hd' : Direct w.disk target) :
    (rename path target : Prog Host ε World _).wp h w (fun r w' =>
      (r = .ok () ∧ ∃ node, w.disk.get (names path) = some node ∧ node.isDir = false
        ∧ (∃ init name, target = init ++ [name] ∧ isName name = true)
        ∧ ¬ w.disk.IsDir (names target)
        ∧ (∀ l, w'.disk.get l = if names target = l then some node
            else if names path = l then none else w.disk.get l)
        ∧ w'.log = (.create, names target) :: (.remove, names path) :: w.log)
      ∨ ∃ kind, r = .error kind ∧ Same w w' ∧ (kind ≠ .crossesDevices →
        ¬ (Ready h w.disk path ∧ Ready h w.disk target
          ∧ (∃ node, w.disk.get (names path) = some node ∧ node.isDir = false)
          ∧ ¬ w.disk.IsDir (names target)))) E := by
  refine wp_callAt hd (by simp) ?_ ?_
  · intro place _ d log hreach hc
    split at hc
    · cases hc
    · rename_i sp sn ss tp tn ts hres
      have hreach' := reached_of_resolve hd' (by simp) hres
      cases hnode : w.disk.get (sp ++ [sn]) with
      | none => simp only [hnode] at hc; split_ifs at hc
      | some node =>
        simp only [hnode] at hc
        split_ifs at hc with _ hdir hslash
        obtain ⟨rfl, rfl⟩ : ss = false ∧ ts = false := by simpa using hslash
        obtain ⟨hget, hnot, rfl⟩ := move_ok hc hnode (by simpa using hdir)
        rw [hreach.entry_loc] at hnode
        rw [hreach'.entry_loc] at hnot
        simp only [hreach.entry_loc, hreach'.entry_loc] at hget
        obtain ⟨init, hpath, hn⟩ := hreach'.last
        refine .inl ⟨rfl, node, hnode, by simpa using hdir, ⟨init, tn, hpath, hn⟩, hnot, hget, ?_⟩
        rw [hreach.entry_loc, hreach'.entry_loc]
        rfl
    · cases hc
  · intro kind hf
    refine .inr ⟨kind, rfl, ⟨rfl, rfl⟩, ?_⟩
    rintro hkind ⟨hr, hr', ⟨node, hget, hdir⟩, hnot⟩
    obtain ⟨sp, sn, hloc, hw, hn, -, hc⟩ := hf.of_ready hr
    obtain ⟨tp, tn, rfl, hs', hw', hn'⟩ := hr'
    rw [hs'.named.names] at hnot
    have hres := @Smooth.resolve _ _ .never _ _ hs' (by simp)
    rw [if_pos (isDir_of_writable hw')] at hres
    rw [hloc] at hget
    simp only [hres, hget, hdir, hw, hw', Bool.or_false, Bool.false_eq_true, Bool.true_eq_false,
      or_false, if_false] at hc
    split_ifs at hc
    · cases hc
      exact hkind rfl
    · exact hnot (move_error hc hget hdir hw' hn')

theorem chmod_spec {mode : Mode} (hd : Direct w.disk path)
    (hlast : ¬ w.disk.IsLink (names path)) :
    (chmod path mode : Prog Host ε World _).wp h w (fun r w' =>
      (r = .ok () ∧ ∃ node, w.disk.get (names path) = some node
        ∧ Did w w' (names path) (some (node.withMode mode)) .chmod)
      ∨ ∃ kind, r = .error kind ∧ Same w w'
        ∧ ¬ (Smooth h w.disk path ∧ ∃ node, w.disk.get (names path) = some node)) E := by
  refine wp_callAt hd (fun _ => hlast) ?_ ?_
  · intro place _ d log hreach hc
    obtain ⟨node, hnode, hc⟩ := bind_eq_ok.mp hc
    obtain ⟨hsets, rfl⟩ := update_ok hc
    have hloc : place.loc = names path := hreach.loc
    have hget := nodeAt_ok hnode
    rw [hloc] at hsets hget
    exact .inl ⟨rfl, node, hget, hsets, by rw [hloc]; rfl⟩
  · intro kind hf
    refine .inr ⟨kind, rfl, ⟨rfl, rfl⟩, ?_⟩
    rintro ⟨hs, node, hget⟩
    obtain ⟨place, -, hn, hc⟩ := hf.of_there hs (fun _ => hlast) hget
    rw [hn] at hc
    exact update_error hc (nodeAt_ok hn) (by cases node <;> rfl)

end Entries

/-! ## Contents -/

section Contents

variable {ε : Type} {E : ε → World → Prop} {h : Host} {w : World} {path : PathBuf} {file : Loc}

theorem openRead_spec (hd : Direct w.disk path) (hlast : ¬ w.disk.IsLink (names path)) :
    (openRead path : Prog Host ε World _).wp h w (fun r w' =>
      (r = .ok (names path) ∧ Same w w')
      ∨ ∃ kind, r = .error kind ∧ Same w w' ∧ ¬ (Smooth h w.disk path
        ∧ ∃ c m t, w.disk.get (names path) = some (.file c m t) ∧ h.canRead m = true)) E := by
  refine wp_callAt hd (fun _ => hlast) ?_ ?_
  · intro place loc d log hreach hc
    obtain ⟨node, hnode, hc⟩ := bind_eq_ok.mp hc
    have hloc : place.loc = names path := hreach.loc
    left
    split at hc
    · split at hc
      · cases hc; exact ⟨by rw [hloc], rfl, rfl⟩
      · cases hc
    · split at hc
      · cases hc; exact ⟨by rw [hloc], rfl, rfl⟩
      · cases hc
    · cases hc; exact ⟨by rw [hloc], rfl, rfl⟩
  · intro kind hf
    refine .inr ⟨kind, rfl, ⟨rfl, rfl⟩, ?_⟩
    rintro ⟨hs, c, m, t, hget, hread⟩
    obtain ⟨place, -, hn, hc⟩ := hf.of_there hs (fun _ => hlast) hget
    rw [hn] at hc
    simp only [Bind.bind, Except.bind, hread, if_true] at hc
    cases hc

theorem readAll_spec :
    (readAll file : Prog Host ε World _).wp h w (fun r w' =>
      (∃ c m t, r = .ok c ∧ w.disk.get file = some (.file c m t) ∧ w'.disk = w.disk
        ∧ w'.log = (.read, file) :: w.log)
      ∨ ∃ kind, r = .error kind ∧ Same w w' ∧ ¬ ((∀ n, h.fault n = false)
        ∧ ∃ c m t, w.disk.get file = some (.file c m t))) E := by
  refine wp_call ?_ ?_
  · intro c d log hc
    split at hc
    · rename_i c' m t hget
      cases hc
      exact .inl ⟨c, m, t, rfl, hget, rfl, rfl⟩
    · cases hc
    · cases hc
  · intro kind hf
    refine .inr ⟨kind, rfl, ⟨rfl, rfl⟩, ?_⟩
    rintro ⟨hno, c, m, t, hget⟩
    rcases hf with ⟨hf, -⟩ | hc
    · rw [hno] at hf; cases hf
    · rw [hget] at hc; cases hc

theorem fstat_spec :
    (fstat file : Prog Host ε World _).wp h w (fun r w' =>
      (∃ node, r = .ok node ∧ w.disk.get file = some node ∧ Same w w')
      ∨ ∃ kind, r = .error kind ∧ Same w w' ∧ ¬ ((∀ n, h.fault n = false)
        ∧ ∃ node, w.disk.get file = some node)) E := by
  refine wp_call ?_ ?_
  · intro node d log hc
    split at hc
    · rename_i node' hget
      cases hc
      exact .inl ⟨node, rfl, hget, rfl, rfl⟩
    · cases hc
  · intro kind hf
    refine .inr ⟨kind, rfl, ⟨rfl, rfl⟩, ?_⟩
    rintro ⟨hno, node, hget⟩
    rcases hf with ⟨hf, -⟩ | hc
    · rw [hno] at hf; cases hf
    · rw [hget] at hc; cases hc

theorem fchmod_spec {mode : Mode} :
    (fchmod file mode : Prog Host ε World _).wp h w (fun r w' =>
      (r = .ok () ∧ ∃ node, w.disk.get file = some node
        ∧ Did w w' file (some (node.withMode mode)) .chmod)
      ∨ ∃ kind, r = .error kind ∧ Same w w' ∧ ¬ ((∀ n, h.fault n = false)
        ∧ ∃ node, w.disk.get file = some node)) E := by
  refine wp_call ?_ ?_
  · intro _ d log hc
    split at hc
    · rename_i node hget
      obtain ⟨hsets, rfl⟩ := update_ok hc
      exact .inl ⟨rfl, node, hget, hsets, rfl⟩
    · cases hc
  · intro kind hf
    refine .inr ⟨kind, rfl, ⟨rfl, rfl⟩, ?_⟩
    rintro ⟨hno, node, hget⟩
    rcases hf with ⟨hf, -⟩ | hc
    · rw [hno] at hf; cases hf
    · rw [hget] at hc
      exact update_error hc hget (by cases node <;> rfl)

theorem openTruncate_spec {mode : Mode} (hd : Direct w.disk path)
    (hlast : ¬ w.disk.IsLink (names path)) :
    (openTruncate path mode : Prog Host ε World _).wp h w (fun r w' =>
      (r = .ok (names path)
        ∧ (w.disk.get (names path) = none ∨ ∃ c m t, w.disk.get (names path) = some (.file c m t))
        ∧ (∃ init name, path = init ++ [name] ∧ isName name = true)
        ∧ ∃ m t access, Did w w' (names path) (some (.file .empty m t)) access)
      ∨ ∃ kind, r = .error kind ∧ Same w w' ∧ ¬ (Ready h w.disk path
        ∧ (w.disk.get (names path) = none
          ∨ ∃ c m t, w.disk.get (names path) = some (.file c m t) ∧ h.canWrite m = true))) E := by
  refine wp_callAt hd (fun _ => hlast) ?_ ?_
  · intro place loc d log hreach hc
    rcases place with _ | ⟨parent, name, slash⟩
    · cases hc
    · have hloc := hreach.entry_loc
      dsimp only at hc
      rw [hloc] at hc
      split at hc
      · rename_i hnone
        cases slash with
        | true => cases hc
        | false =>
            obtain ⟨⟨_, d', log'⟩, hcreate, heq⟩ := map_eq_ok.mp hc
            cases heq
            obtain ⟨hsets, rfl⟩ := create_ok hcreate
            rw [hloc] at hsets
            obtain ⟨init, hpath, hn⟩ := hreach.last
            exact .inl ⟨rfl, .inl hnone, ⟨init, name, hpath, hn⟩, _, _, .create, hsets,
              by rw [hloc]; rfl⟩
      · rename_i c old t hget
        cases slash with
        | true => cases hc
        | false =>
            rw [if_neg Bool.false_ne_true] at hc
            split_ifs at hc
            obtain ⟨⟨_, d', log'⟩, hupdate, heq⟩ := map_eq_ok.mp hc
            cases heq
            obtain ⟨hsets, rfl⟩ := update_ok hupdate
            obtain ⟨init, hpath, hn⟩ := hreach.last
            exact .inl ⟨rfl, .inr ⟨c, old, t, hget⟩, ⟨init, name, hpath, hn⟩, _, _, .write, hsets,
              rfl⟩
      · cases hc
      · cases hc
  · intro kind hf
    refine .inr ⟨kind, rfl, ⟨rfl, rfl⟩, ?_⟩
    rintro ⟨⟨parent, name, rfl, hs, hw, hn⟩, hget⟩
    have hc := hf.at_entry hs (fun _ => by rwa [hs.named.names] at hlast) (isDir_of_writable hw)
    rw [hs.named.names] at hget
    rcases hget with hget | ⟨c, m, t, hget, hwrite⟩
    · simp only [hget, Bool.false_eq_true, if_false] at hc
      cases hcreate : w.disk.create h parent name
          (.file .empty (mode &&& ~~~h.umask) (h.clockNs w.calls)) with
      | ok r => rw [hcreate] at hc; cases hc
      | error kind' =>
          obtain ⟨m, hdir⟩ := create_error hcreate hw hn
          rw [hget] at hdir
          cases hdir
    · simp only [hget, hwrite, Bool.false_eq_true, Bool.true_eq_false, if_false] at hc
      cases hupdate : w.disk.update (parent ++ [name]) (.file .empty m (h.clockNs w.calls)) .write with
      | ok r => rw [hupdate] at hc; cases hc
      | error kind' => exact update_error hupdate hget rfl

theorem rewrite_ok {d d' : Disk} {bytes : List Byte} {now : U64} {log : Log} {u : Unit} {c : Content}
    {m : Mode} {t : U64} (hget : d.get file = some (.file c m t))
    (hc : d.rewrite file bytes now = .ok (u, d', log)) :
    (∃ c', c'.val = bytes ∧ Sets d file (some (.file c' m now)) d') ∧ log = [(.write, file)] := by
  unfold Disk.rewrite at hc
  rw [hget] at hc
  dsimp only at hc
  split at hc
  · rename_i hlen
    obtain ⟨hsets, rfl⟩ := update_ok hc
    exact ⟨⟨⟨bytes, hlen⟩, rfl, hsets⟩, rfl⟩
  · cases hc

theorem rewrite_error {d : Disk} {bytes : List Byte} {now : U64} {kind : IoKind} {c : Content}
    {m : Mode} {t : U64} (hget : d.get file = some (.file c m t))
    (hc : d.rewrite file bytes now = .error kind) : ¬ bytes.length < 2 ^ 64 := by
  unfold Disk.rewrite at hc
  rw [hget] at hc
  dsimp only at hc
  split at hc
  · exact fun _ => update_error hc hget rfl
  · assumption

/-- A write changes the contents of its file; one that fails leaves some of its bytes. -/
theorem writeAt_spec {offset : Nat} {bytes : List Byte} {c : Content} {m : Mode} {t : U64}
    (hget : w.disk.get file = some (.file c m t)) :
    (writeAt file offset bytes : Prog Host ε World _).wp h w (fun r w' =>
      (r = .ok () ∧ ∃ c' t', c'.val = overwrite c.val offset bytes
        ∧ Did w w' file (some (.file c' m t')) .write)
      ∨ ∃ kind, r = .error kind
        ∧ (Same w w' ∨ ∃ c' t' k, c'.val = overwrite c.val offset (bytes.take k)
            ∧ Did w w' file (some (.file c' m t')) .write)
        ∧ ¬ ((∀ n, h.fault n = false) ∧ (overwrite c.val offset bytes).length < 2 ^ 64)) E := by
  have hbytes : w.disk.bytes file = c.val := by simp [Disk.bytes, hget]
  unfold Prog.wp writeAt
  by_cases hf : h.fault w.calls = true
  · have hno : ¬ ((∀ n, h.fault n = false) ∧ (overwrite c.val offset bytes).length < 2 ^ 64) :=
      fun hc => by rw [hc.1] at hf; cases hf
    rcases hr : w.disk.rewrite file (overwrite c.val offset (bytes.take (h.written w.calls)))
      (h.clockNs w.calls) with kind | ⟨_, d, log⟩ <;> simp only [hf, if_true, hbytes, hr]
    · exact .inr ⟨.other, rfl, .inl ⟨rfl, rfl⟩, hno⟩
    · obtain ⟨⟨c', hc', hsets⟩, rfl⟩ := rewrite_ok hget hr
      exact .inr ⟨.other, rfl, .inr ⟨c', _, h.written w.calls, hc', hsets, rfl⟩, hno⟩
  · rcases hr : w.disk.rewrite file (overwrite c.val offset bytes) (h.clockNs w.calls)
      with kind | ⟨_, d, log⟩ <;> simp only [hf, hbytes, hr]
    · exact .inr ⟨kind, rfl, .inl ⟨rfl, rfl⟩, fun hc => rewrite_error hget hr hc.2⟩
    · obtain ⟨⟨c', hc', hsets⟩, rfl⟩ := rewrite_ok hget hr
      exact .inl ⟨rfl, c', _, hc', hsets, rfl⟩

@[simp] theorem wp_currentTimeMs {Q : U64 → World → Prop} :
    (currentTimeMs : Prog Host ε World _).wp h w Q E
      ↔ Q (h.clockMs w.calls) { w with calls := w.calls + 1 } := Iff.rfl

end Contents

end Unix

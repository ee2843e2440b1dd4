/-
# `Unix.Dirs` — calls that leave the directories alone

Most calls neither make nor remove a directory nor change the mode of one, whatever their
path leads to: a file that is created, written, moved or removed is no directory, and
nothing of the kind may take the place of one.  `DirsFixed` says this of two disks, and the
lemmas say it of the calls, for every path and on every host.  A write is tamer still: all
that differs after it is a file (`FilesOnly`).  A change of mode may hit a directory, but
makes none and removes none (`DirsStay`).  `NodesStay` allows for new nodes: what there is
stays, but for its mode.
-/
import Syncbox.Lib.Unix.Spec

namespace Unix

open Rust Prog

/-! ## Three frames -/

/-- The same directories. -/
def DirsStay (d d' : Disk) : Prop := ∀ l, d'.IsDir l ↔ d.IsDir l

/-- The same directories, with the same modes. -/
def DirsFixed (d d' : Disk) : Prop := ∀ l m, d'.get l = some (.dir m) ↔ d.get l = some (.dir m)

/-- Where the disks differ there is a file now, and no directory was there. -/
def FilesOnly (d d' : Disk) : Prop :=
  ∀ l, d'.get l = d.get l ∨ ¬ d.IsDir l ∧ ∃ c m t, d'.get l = some (.file c m t)

/-- Every node, or every directory, is still there, but for its mode. -/
def NodesStay (all : Bool) (d d' : Disk) : Prop :=
  ∀ l node, (all = true ∨ node.isDir = true) → d.get l = some node →
    ∃ mode, d'.get l = some (node.withMode mode)

section Frames

variable {d d' d'' : Disk} {loc : Loc} {o : Option Node}

theorem DirsStay.trans (h : DirsStay d d') (h' : DirsStay d' d'') : DirsStay d d'' :=
  fun l => (h' l).trans (h l)

theorem DirsStay.of_eq (h : d' = d) : DirsStay d d' := fun _ => by rw [h]

theorem DirsStay.of_mode {node : Node} {mode : Mode} (hget : d.get loc = some node)
    (hs : Sets d loc (some (node.withMode mode)) d') : DirsStay d d' := by
  intro l
  by_cases he : loc = l
  · subst he
    rw [Disk.IsDir, Disk.IsDir, hs.at, hget]
    cases node <;> simp [Node.withMode]
  · rw [Disk.IsDir, Disk.IsDir, hs.off he]

theorem NodesStay.of_eq {all : Bool} (h : d' = d) : NodesStay all d d' :=
  fun _ _ _ hget => Node.held_of_eq (h ▸ hget)

theorem NodesStay.trans {all : Bool} (h : NodesStay all d d') (h' : NodesStay all d' d'') :
    NodesStay all d d'' := by
  intro l node hnode hget
  obtain ⟨mode, hmode⟩ := h l node hnode hget
  have hkind : all = true ∨ (node.withMode mode).isDir = true := by
    cases node <;> exact hnode
  obtain ⟨mode', hmode'⟩ := h' l _ hkind hmode
  exact ⟨mode', by rw [hmode', Node.withMode_withMode]⟩

theorem NodesStay.of_mode {all : Bool} {node : Node} {mode : Mode} (hget : d.get loc = some node)
    (hs : Sets d loc (some (node.withMode mode)) d') : NodesStay all d d' := by
  intro l node' _ hnode'
  by_cases he : loc = l
  · subst he
    rw [hget] at hnode'
    cases hnode'
    exact ⟨mode, hs.at⟩
  · exact Node.held_of_eq (by rwa [hs.off he])

theorem NodesStay.of_new {all : Bool} (hnone : d.get loc = none) (hs : Sets d loc o d') :
    NodesStay all d d' := by
  intro l node _ hnode
  by_cases he : loc = l
  · subst he
    rw [hnone] at hnode
    cases hnode
  · exact Node.held_of_eq (by rwa [hs.off he])

theorem DirsFixed.nodesStay (h : DirsFixed d d') : NodesStay false d d' := by
  intro l node hkind hnode
  cases node with
  | dir m => exact ⟨m, (h l m).mpr hnode⟩
  | _ => simp [Node.isDir] at hkind

theorem DirsFixed.refl (d : Disk) : DirsFixed d d := fun _ _ => Iff.rfl

theorem DirsFixed.of_eq (h : d' = d) : DirsFixed d d' := h ▸ refl d

theorem DirsFixed.trans (h : DirsFixed d d') (h' : DirsFixed d' d'') : DirsFixed d d'' :=
  fun l m => (h' l m).trans (h l m)

theorem DirsFixed.stay (h : DirsFixed d d') : DirsStay d d' := fun l => exists_congr fun m => h l m

theorem DirsFixed.of_sets (hs : Sets d loc o d') (hbefore : ¬ d.IsDir loc)
    (hafter : ∀ m, o ≠ some (.dir m)) : DirsFixed d d' := by
  intro l m
  by_cases he : loc = l
  · subst he
    rw [hs.at]
    exact ⟨fun h => absurd h (hafter m), fun h => absurd ⟨m, h⟩ hbefore⟩
  · rw [hs.off he]

theorem FilesOnly.refl (d : Disk) : FilesOnly d d := fun _ => .inl rfl

theorem FilesOnly.of_eq (h : d' = d) : FilesOnly d d' := h ▸ refl d

theorem FilesOnly.fixed (h : FilesOnly d d') : DirsFixed d d' := by
  intro l m
  rcases h l with he | ⟨hdir, c, mode, t, hfile⟩
  · rw [he]
  · rw [hfile]
    exact ⟨fun h => (by cases h), fun h => absurd ⟨m, h⟩ hdir⟩

theorem FilesOnly.trans (h : FilesOnly d d') (h' : FilesOnly d' d'') : FilesOnly d d'' := by
  intro l
  rcases h' l with he | ⟨hdir, hfile⟩
  · rw [he]
    exact h l
  · exact .inr ⟨fun hd => hdir ((h.fixed.stay l).mpr hd), hfile⟩

theorem FilesOnly.of_sets {c : Content} {m : Mode} {t : U64}
    (hs : Sets d loc (some (.file c m t)) d') (hbefore : ¬ d.IsDir loc) : FilesOnly d d' := by
  intro l
  by_cases he : loc = l
  · subst he
    exact .inr ⟨hbefore, c, m, t, hs.at⟩
  · exact .inl (hs.off he)

theorem FilesOnly.link (h : FilesOnly d d') (hl : d'.IsLink loc) : d.IsLink loc := by
  obtain ⟨target, ht⟩ := hl
  rcases h loc with he | ⟨-, c, m, t, hfile⟩
  · exact ⟨target, he ▸ ht⟩
  · rw [hfile] at ht
    cases ht

end Frames

/-! ## The calls -/

section Calls

variable {ε α : Type} {E : ε → World → Prop} {h : Host} {w : World} {path : PathBuf} {file : Loc}
  {Q : Disk → Disk → Prop}

theorem callAt_disk {follow : Follow}
    {core : Host → Nat → Disk → Place → Except IoKind (α × Disk × Log)}
    (hcore : ∀ {place a d log}, resolve h w.disk follow path = .ok place →
      core h w.calls w.disk place = .ok (a, d, log) → Q w.disk d) :
    (callAt follow path core : Prog Host ε World _).wp h w
      (fun r w' => (∃ a, r = .ok a ∧ Q w.disk w'.disk) ∨ ∃ kind, r = .error kind ∧ w'.disk = w.disk)
      E := by
  refine wp_call (fun a d log hc => .inl ⟨a, rfl, ?_⟩) fun kind _ => .inr ⟨kind, rfl, rfl⟩
  cases hr : resolve h w.disk follow path with
  | error kind => rw [hr] at hc; cases hc
  | ok place => rw [hr] at hc; exact hcore hr hc

theorem callAt_same {follow : Follow}
    {core : Host → Nat → Disk → Place → Except IoKind (α × Disk × Log)}
    (hcore : ∀ {place a d log}, core h w.calls w.disk place = .ok (a, d, log) → d = w.disk) :
    (callAt follow path core : Prog Host ε World _).wp h w (fun _ w' => w'.disk = w.disk) E := by
  refine wp_conseq (callAt_disk (Q := fun d d' => d' = d) fun _ hc => hcore hc) ?_
  rintro r w' (⟨a, -, hd⟩ | ⟨kind, -, hd⟩)
  · exact hd
  · exact hd

theorem lstat_disk : (lstat path : Prog Host ε World _).wp h w (fun _ w' => w'.disk = w.disk) E := by
  refine callAt_same fun {place a d log} hc => ?_
  cases hn : w.disk.nodeAt place with
  | error kind => rw [hn] at hc; cases hc
  | ok node => rw [hn] at hc; cases hc; rfl

theorem openRead_disk :
    (openRead path : Prog Host ε World _).wp h w (fun _ w' => w'.disk = w.disk) E := by
  refine callAt_same fun {place a d log} hc => ?_
  cases hn : w.disk.nodeAt place with
  | error kind => rw [hn] at hc; cases hc
  | ok node =>
      rw [hn] at hc
      cases node <;> simp only [bind, Except.bind] at hc <;> (try split at hc) <;> cases hc <;> rfl

theorem fstat_disk :
    (fstat file : Prog Host ε World _).wp h w (fun _ w' => w'.disk = w.disk) E := by
  refine wp_call (fun a d log hc => ?_) fun _ _ => rfl
  split at hc
  · cases hc; rfl
  · cases hc

theorem readAll_disk :
    (readAll file : Prog Host ε World _).wp h w (fun _ w' => w'.disk = w.disk) E := by
  refine wp_call (fun a d log hc => ?_) fun _ _ => rfl
  split at hc
  · cases hc; rfl
  · cases hc
  · cases hc

theorem unlink_fixed : (unlink path : Prog Host ε World _).wp h w
    (fun _ w' => DirsFixed w.disk w'.disk) E := by
  refine wp_conseq (callAt_disk (Q := DirsFixed) fun {place a d log} _ hc => ?_) ?_
  · split at hc
    · cases hc
    · rename_i parent name slash
      split at hc
      · cases hc
      · rename_i node hnode
        split at hc
        · cases hc
        · split at hc
          · cases hc
          · split at hc
            · cases hc
            · rename_i hdir
              refine .of_sets (delete_ok hc).1 ?_ fun m hm => by cases hm
              rintro ⟨m, hm⟩
              rw [hnode] at hm
              cases hm
              exact hdir rfl
  · rintro r w' (⟨a, -, hd⟩ | ⟨kind, -, hd⟩)
    · exact hd
    · exact .of_eq hd

/-- A move that succeeds has a target whose path ends in a name: after a slash there would
have to be a directory. -/
theorem rename_fixed {target : PathBuf} (hd : Direct w.disk target) :
    (rename path target : Prog Host ε World _).wp h w
      (fun r w' => (r = .ok () ∧ DirsFixed w.disk w'.disk
          ∧ ∃ init name, target = init ++ [name] ∧ isName name = true)
        ∨ ∃ kind, r = .error kind ∧ w'.disk = w.disk) E := by
  refine wp_conseq (callAt_disk (Q := fun d d' => DirsFixed d d'
    ∧ ∃ init name, target = init ++ [name] ∧ isName name = true) fun {place a d log} _ hc => ?_) ?_
  · split at hc
    · cases hc
    · rename_i sp sn sourceSlash tp tn targetSlash hr _
      split at hc
      · cases hc
      · split at hc
        · cases hc
        · rename_i node hnode
          split_ifs at hc with hdir hslash hwrite
          have hkind : node.isDir = false := by simpa using hdir
          obtain ⟨hget, hfree, -⟩ := move_ok hc hnode hkind
          constructor
          · intro l m
            rw [hget]
            -- neither the source nor the target was a directory, and what moved is none
            by_cases ht : tp ++ [tn] = l
            · rw [if_pos ht]
              refine ⟨fun hm => ?_, fun hm => absurd ⟨m, ht ▸ hm⟩ hfree⟩
              cases hm
              cases hkind
            · rw [if_neg ht]
              by_cases hs : sp ++ [sn] = l
              · rw [if_pos hs]
                refine ⟨fun hm => (by cases hm), fun hm => ?_⟩
                rw [← hs, hnode] at hm
                cases hm
                cases hkind
              · rw [if_neg hs]
          · obtain rfl : targetSlash = false := by
              cases targetSlash
              · rfl
              · simp at hslash
            obtain ⟨init, hpath, hname⟩ := (reached_of_resolve hd (by simp) hr).last
            exact ⟨init, tn, hpath, hname⟩
    · cases hc
  · rintro r w' (⟨a, rfl, hd⟩ | hfail)
    · exact .inl ⟨rfl, hd⟩
    · exact .inr hfail

theorem chmod_stay {mode : Mode} :
    (chmod path mode : Prog Host ε World _).wp h w (fun _ w' => DirsStay w.disk w'.disk) E := by
  refine wp_conseq (callAt_disk (Q := DirsStay) fun {place a d log} _ hc => ?_) ?_
  · cases hn : w.disk.nodeAt place with
    | error kind => rw [hn] at hc; cases hc
    | ok node =>
        rw [hn] at hc
        exact .of_mode (nodeAt_ok hn) (update_ok hc).1
  · rintro r w' (⟨a, -, hd⟩ | ⟨kind, -, hd⟩)
    · exact hd
    · exact .of_eq hd

/-! ## Calls under which nodes stay -/

/-- `NodesStay`, of the disks of two worlds. -/
def Stays (all : Bool) (w w' : World) : Prop := NodesStay all w.disk w'.disk

instance {all : Bool} : Std.Refl (Stays all) := ⟨fun _ => NodesStay.of_eq rfl⟩

instance {all : Bool} : IsTrans World (Stays all) := ⟨fun _ _ _ h h' => NodesStay.trans h h'⟩

theorem chmod_stays {all : Bool} {mode : Mode} : (chmod path mode : Prog Host ε World _).Moves (Stays all) := by
  intro h w
  refine wp_conseq (callAt_disk (Q := NodesStay all) fun {place a d log} _ hc => ?_) ?_
  · cases hn : w.disk.nodeAt place with
    | error kind => rw [hn] at hc; cases hc
    | ok node =>
        rw [hn] at hc
        exact .of_mode (nodeAt_ok hn) (update_ok hc).1
  · rintro r w' (⟨a, -, hd⟩ | ⟨kind, -, hd⟩)
    · exact hd
    · exact NodesStay.of_eq hd

theorem mkdir_stays {all : Bool} : (mkdir path : Prog Host ε World _).Moves (Stays all) := by
  intro h w
  refine wp_conseq (callAt_disk (Q := NodesStay all) fun {place a d log} _ hc => ?_) ?_
  · split at hc
    · cases hc
    · split at hc
      · cases hc
      · rename_i hnone
        exact .of_new hnone (create_ok hc).1
  · rintro r w' (⟨a, -, hd⟩ | ⟨kind, -, hd⟩)
    · exact hd
    · exact NodesStay.of_eq hd

theorem unlink_stays : (unlink path : Prog Host ε World _).Moves (Stays false) :=
  fun _ _ => wp_conseq unlink_fixed fun _ _ hd => hd.nodesStay

theorem lstat_stays {all : Bool} : (lstat path : Prog Host ε World _).Moves (Stays all) :=
  fun _ _ => wp_conseq lstat_disk fun _ _ hd => NodesStay.of_eq hd

theorem openRead_stays {all : Bool} : (openRead path : Prog Host ε World _).Moves (Stays all) :=
  fun _ _ => wp_conseq openRead_disk fun _ _ hd => NodesStay.of_eq hd

theorem readAll_stays {all : Bool} : (readAll file : Prog Host ε World _).Moves (Stays all) :=
  fun _ _ => wp_conseq readAll_disk fun _ _ hd => NodesStay.of_eq hd

theorem fstat_stays {all : Bool} : (fstat file : Prog Host ε World _).Moves (Stays all) :=
  fun _ _ => wp_conseq fstat_disk fun _ _ hd => NodesStay.of_eq hd

end Calls

end Unix

/-
# `Unix.Disk` — a directory tree

A disk is a finite map from locations to nodes that is a tree: the empty location
is a directory, and every other node has a directory above it and a proper name.
Both are fields of `Disk`, so that the three ways to change one — `put`, `modify`
and `remove` — ask for what keeps them, and no proof about a program has to.

Everything a program sees of a disk is `get`; each update has one lemma about it.
-/
import Syncbox.Lib.Unix.Path

namespace Unix

open Rust

/-- A location: the names from the root directory down. -/
abbrev Loc := List Str

instance locTransOrd : Std.TransOrd Loc := inferInstanceAs (Std.TransOrd (List Str))

/-- The permission bits `0o7777`. -/
abbrev Mode := BitVec 12

/-- What a file holds; its length is a `u64`. -/
abbrev Content := {bytes : List Byte // bytes.length < 2 ^ 64}

/-- `Metadata::len`. -/
def Content.len (c : Content) : U64 := ⟨c.val.length, c.property⟩

/-- `special` stands for devices, pipes and sockets. -/
inductive Node where
  | file (content : Content) (mode : Mode) (mtime : U64)
  | dir (mode : Mode)
  | symlink (target : Str)
  | special
  deriving DecidableEq

namespace Node

def isDir : Node → Bool
  | dir _ => true
  | _ => false

def isFile : Node → Bool
  | file .. => true
  | _ => false

def isSymlink : Node → Bool
  | symlink _ => true
  | _ => false

/-- `Metadata::len`, of a file. -/
def len : Node → U64
  | file content _ _ => content.len
  | _ => 0

/-- `Metadata::modified`, of a file. -/
def modified : Node → U64
  | file _ _ mtime => mtime
  | _ => 0

/-- `Metadata::permissions`. -/
def mode : Node → Mode
  | file _ mode _ => mode
  | dir mode => mode
  | symlink _ => 0o777
  | special => 0

end Node

/-- A name that a directory entry can have. -/
def isFileName (name : Str) : Bool :=
  isName name && name ≠ ['.', '.'] && !name.contains '/' && !name.contains '\x00'

theorem isFileName_of_long {name : Str} (hlen : 3 ≤ name.length) (hsep : '/' ∉ name)
    (hnul : '\x00' ∉ name) : isFileName name = true := by
  have hne : ∀ l : Str, l.length < 3 → name ≠ l := by
    rintro l hl rfl
    omega
  simp only [isFileName, isName, ne_eq, hne _ (by decide : ([] : Str).length < 3),
    hne _ (by decide : ['.'].length < 3), hne _ (by decide : ['.', '.'].length < 3)]
  simpa using ⟨hsep, hnul⟩

theorem split_join_of_isFileName {parts : List Str} (h : ∀ part ∈ parts, isFileName part = true)
    (hne : parts ≠ []) : split (join parts) = parts := by
  refine split_join (fun part hp hsl => ?_) hne
  have := h part hp
  simp only [isFileName, Bool.and_eq_true, Bool.not_eq_true', List.contains_eq_mem,
    decide_eq_false_iff_not] at this
  exact this.1.2 hsl

structure Disk where
  nodes : BTreeMap Loc Node
  root : ∃ mode, nodes[([] : Loc)]? = some (.dir mode)
  tree : ∀ {loc name node}, nodes[loc ++ [name]]? = some node →
    isFileName name = true ∧ ∃ mode, nodes[loc]? = some (.dir mode)

namespace Disk

def get (d : Disk) (loc : Loc) : Option Node := d.nodes[loc]?

def IsDir (d : Disk) (loc : Loc) : Prop := ∃ mode, d.get loc = some (.dir mode)

def IsLink (d : Disk) (loc : Loc) : Prop := ∃ target, d.get loc = some (.symlink target)

theorem IsDir.not_link {d : Disk} {loc : Loc} (h : d.IsDir loc) : ¬ d.IsLink loc := by
  obtain ⟨m, hm⟩ := h
  rintro ⟨t, ht⟩
  rw [hm] at ht
  cases ht

def isDir (d : Disk) (loc : Loc) : Bool := (d.get loc).elim false Node.isDir

theorem isDir_iff {d : Disk} {loc : Loc} : d.isDir loc = true ↔ d.IsDir loc := by
  unfold isDir IsDir
  rcases d.get loc with _ | (_ | _ | _ | _) <;> simp [Node.isDir]

instance (d : Disk) (loc : Loc) : Decidable (d.IsDir loc) := decidable_of_iff _ isDir_iff

/-- A disk with nothing on it. -/
def bare : Disk where
  nodes := (∅ : BTreeMap Loc Node).insert [] (.dir 0o755)
  root := ⟨0o755, by simp⟩
  tree := by
    intro loc name node hget
    simp at hget

/-! ## The tree -/

theorem isDir_nil (d : Disk) : d.IsDir [] := d.root

theorem isDir_of_child {d : Disk} {loc : Loc} {name : Str} {node : Node}
    (h : d.get (loc ++ [name]) = some node) : d.IsDir loc := (d.tree h).2

theorem get_append_of_none {d : Disk} {loc : Loc} (h : d.get loc = none) :
    ∀ rest, d.get (loc ++ rest) = none := by
  intro rest
  induction rest using List.reverseRecOn with
  | nil => simpa using h
  | append_singleton rest name ih =>
      cases hget : d.get (loc ++ (rest ++ [name])) with
      | none => rfl
      | some node =>
          rw [← List.append_assoc] at hget
          obtain ⟨mode, hdir⟩ := isDir_of_child hget
          rw [ih] at hdir
          cases hdir

theorem isDir_of_prefix {d : Disk} {loc rest : Loc} {node : Node}
    (h : d.get (loc ++ rest) = some node) (hne : rest ≠ []) : d.IsDir loc := by
  obtain ⟨name, rest, rfl⟩ := List.exists_cons_of_ne_nil hne
  cases hchild : d.get (loc ++ [name]) with
  | some child => exact isDir_of_child hchild
  | none =>
      have := get_append_of_none hchild rest
      rw [List.append_assoc, List.singleton_append, h] at this
      cases this

theorem isDir_of_isPrefix {d : Disk} {l l' : Loc} (hdir : d.IsDir l') (hl : l <+: l') : d.IsDir l := by
  obtain ⟨rest, rfl⟩ := hl
  by_cases hne : rest = []
  · rwa [hne, List.append_nil] at hdir
  · obtain ⟨m, hm⟩ := hdir
    exact isDir_of_prefix hm hne

theorem isFileName_of_get {d : Disk} : ∀ {loc : Loc} {node : Node}, d.get loc = some node →
    ∀ name ∈ loc, isFileName name = true := by
  intro loc
  induction loc using List.reverseRecOn with
  | nil => intro _ _ name hname; cases hname
  | append_singleton loc last ih =>
      intro node h name hname
      obtain ⟨mode, hdir⟩ := isDir_of_child h
      rcases List.mem_append.mp hname with hname | hname
      · exact ih hdir name hname
      · rw [List.mem_singleton.mp hname]
        exact (d.tree h).1

theorem isName_of_isFileName {name : Str} (h : isFileName name = true) : isName name = true := by
  simp only [isFileName, Bool.and_eq_true] at h
  exact h.1.1.1

theorem names_of_get {d : Disk} {loc : Loc} {node : Node} (h : d.get loc = some node) :
    names loc = loc :=
  List.filter_eq_self.mpr fun name hname => isName_of_isFileName (isFileName_of_get h name hname)

/-! ## Updates -/

/-- A directory entry that may be created or replaced. -/
def CanPut (d : Disk) (parent : Loc) (name : Str) : Prop :=
  isFileName name = true ∧ d.IsDir parent ∧ ¬ d.IsDir (parent ++ [name])

instance (d : Disk) (parent : Loc) (name : Str) : Decidable (d.CanPut parent name) :=
  inferInstanceAs (Decidable (_ ∧ _ ∧ _))

/-- Create or replace a directory entry. -/
def put (d : Disk) (parent : Loc) (name : Str) (node : Node) (h : d.CanPut parent name) : Disk where
  nodes := d.nodes.insert (parent ++ [name]) node
  root := by
    obtain ⟨mode, hroot⟩ := d.root
    exact ⟨mode, by rw [lookup_insert]; simpa using hroot⟩
  tree := by
    intro loc name' node' hget
    rw [lookup_insert] at hget
    have above : ∀ {l}, d.IsDir l → ∃ mode,
        (d.nodes.insert (parent ++ [name]) node)[l]? = some (.dir mode) := fun {l} hl => by
      obtain ⟨mode, hmode⟩ := hl
      refine ⟨mode, ?_⟩
      rw [lookup_insert, if_neg]
      · exact hmode
      · rintro rfl
        exact h.2.2 ⟨mode, hmode⟩
    split at hget
    · rename_i heq
      obtain ⟨rfl, hname⟩ := List.append_inj_left' heq rfl, List.append_inj_right' heq rfl
      cases List.cons.inj hname |>.1
      exact ⟨h.1, above h.2.1⟩
    · exact ⟨(d.tree hget).1, above (d.tree hget).2⟩

@[simp] theorem get_put (d : Disk) (parent : Loc) (name : Str) (node : Node)
    (h : d.CanPut parent name) (loc : Loc) :
    (d.put parent name node h).get loc = if parent ++ [name] = loc then some node else d.get loc :=
  lookup_insert ..

/-- A node that may become `node` in place. -/
def CanModify (d : Disk) (loc : Loc) (node : Node) : Prop :=
  ((d.get loc).any fun old => old.isDir == node.isDir) = true

instance (d : Disk) (loc : Loc) (node : Node) : Decidable (d.CanModify loc node) :=
  inferInstanceAs (Decidable (_ = _))

/-- Change a node in place. -/
def modify (d : Disk) (loc : Loc) (node : Node) (h : d.CanModify loc node) : Disk where
  nodes := d.nodes.insert loc node
  root := by
    rw [lookup_insert]
    split
    · rename_i heq
      subst heq
      obtain ⟨mode, hroot⟩ := d.isDir_nil
      simp only [CanModify, hroot, Option.any] at h
      cases node <;> simp [Node.isDir] at h ⊢
    · exact d.root
  tree := by
    intro loc' name' node' hget
    rw [lookup_insert] at hget
    have htree : isFileName name' = true ∧ d.IsDir loc' := by
      split at hget
      · rename_i heq
        subst heq
        cases hold : d.get (loc' ++ [name']) with
        | none => simp [CanModify, hold] at h
        | some old => exact d.tree hold
      · exact d.tree hget
    refine ⟨htree.1, ?_⟩
    rw [lookup_insert]
    split
    · rename_i heq
      subst heq
      obtain ⟨mode, hdir⟩ := htree.2
      simp only [CanModify, hdir, Option.any] at h
      cases node <;> simp [Node.isDir] at h ⊢
    · exact htree.2

@[simp] theorem get_modify (d : Disk) (loc : Loc) (node : Node) (h : d.CanModify loc node)
    (loc' : Loc) : (d.modify loc node h).get loc' = if loc = loc' then some node else d.get loc' :=
  lookup_insert ..

/-- Some node lies directly below. -/
def hasChild (d : Disk) (loc : Loc) : Bool := d.nodes.keys.any fun k => k ≠ [] && k.dropLast = loc

theorem hasChild_eq_false_iff {d : Disk} {loc : Loc} :
    d.hasChild loc = false ↔ ∀ name, d.get (loc ++ [name]) = none := by
  simp only [hasChild, List.any_eq_false, Std.ExtTreeMap.mem_keys, mem_iff_lookup, forall_exists_index,
    Bool.and_eq_true, decide_eq_true_eq, not_and]
  constructor
  · intro h name
    refine Option.eq_none_iff_forall_ne_some.mpr fun node hget => ?_
    exact h (loc ++ [name]) node hget (by simp) (by simp)
  · intro h k node hk hne hloc
    have := h (k.getLast hne)
    rw [← hloc, List.dropLast_append_getLast] at this
    exact absurd (this.symm.trans hk) (by simp)

/-- A directory entry that may be removed. -/
def CanRemove (d : Disk) (parent : Loc) (name : Str) : Prop := d.hasChild (parent ++ [name]) = false

instance (d : Disk) (parent : Loc) (name : Str) : Decidable (d.CanRemove parent name) :=
  inferInstanceAs (Decidable (_ = _))

/-- Remove a directory entry. -/
def remove (d : Disk) (parent : Loc) (name : Str) (h : d.CanRemove parent name) : Disk where
  nodes := d.nodes.erase (parent ++ [name])
  root := by
    obtain ⟨mode, hroot⟩ := d.root
    exact ⟨mode, by rw [lookup_erase]; simpa using hroot⟩
  tree := by
    intro loc name' node' hget
    rw [lookup_erase] at hget
    split at hget
    · cases hget
    · refine ⟨(d.tree hget).1, ?_⟩
      rw [lookup_erase, if_neg]
      · exact (d.tree hget).2
      · rintro rfl
        have := hasChild_eq_false_iff.mp h name'
        exact absurd (this.symm.trans hget) (by simp)

@[simp] theorem get_remove (d : Disk) (parent : Loc) (name : Str) (h : d.CanRemove parent name)
    (loc : Loc) :
    (d.remove parent name h).get loc = if parent ++ [name] = loc then none else d.get loc :=
  lookup_erase ..

/-- The nodes below a directory, each with the names that lead to it. -/
def below (d : Disk) (loc : Loc) : List (List Str × Node) :=
  d.nodes.toList.filterMap fun (k, node) =>
    (k.dropPrefix? loc).bind fun s => if s = [] then none else some (s, node)

theorem mem_below {d : Disk} {loc : Loc} {s : List Str} {node : Node} :
    (s, node) ∈ d.below loc ↔ s ≠ [] ∧ d.get (loc ++ s) = some node := by
  simp only [below, List.mem_filterMap, Prod.exists, Std.ExtTreeMap.mem_toList_iff_getElem?_eq_some,
    Option.bind_eq_some_iff, List.dropPrefix?_eq_some_iff, Option.ite_none_left_eq_some,
    Option.some.injEq, Prod.mk.injEq]
  constructor
  · rintro ⟨k, node, hk, s, ⟨p, rfl, hp⟩, hne, rfl, rfl⟩
    rw [eq_of_beq hp] at hk
    exact ⟨hne, hk⟩
  · rintro ⟨hne, hget⟩
    exact ⟨loc ++ s, node, hget, s, ⟨loc, rfl, beq_self_eq_true _⟩, hne, rfl, rfl⟩

end Disk

end Unix

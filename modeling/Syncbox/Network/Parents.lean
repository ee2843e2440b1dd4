/-
# `Syncbox.Network.Parents` — the parents of a path

What the two walks along the parents of a manifest path do to the tree.

`chain root p` are the locations of the parents of `p`, from the root of the share
down, and `target root p` is the location `p` itself spells.  For a path with empty
or `.` parts at its end the target is one of the chain; for a canonical path it
never is.

Every operation is described on both exits by `Effect`: outside the chain, the target
and the staging area nothing changes; a parent that is a directory stays one; a
parent that is missing stays missing or becomes a directory; and no link appears
among the parents.  The last clause is what keeps an operation inside the root: the
paths it uses stay direct while it runs.
-/
import Syncbox.Network.Local

namespace Syncbox

open Rust Unix Prog

/-! ## Places -/

/-- The locations that the prefixes of `parts` spell below `root`. -/
def above (root : Loc) (parts : List Str) : Set Loc :=
  {loc | ∃ init, init <+: parts ∧ loc = root ++ names init}

/-- The locations of the parents of a manifest path. -/
def chain (root : Loc) (p : Str) : Set Loc := above root (split p).dropLast

/-- The location a manifest path spells. -/
def target (root : Loc) (p : Str) : Loc := root ++ names (split p)

section Places

variable {d : Disk} {root : Loc} {parts : List Str}

theorem mem_above {init : List Str} (h : init <+: parts) : root ++ names init ∈ above root parts :=
  ⟨init, h, rfl⟩

theorem above_mono {parts' : List Str} (h : parts <+: parts') :
    above root parts ⊆ above root parts' := by
  rintro _ ⟨init, hi, rfl⟩
  exact mem_above (hi.trans h)

theorem root_mem_above : root ∈ above root parts := ⟨[], List.nil_prefix, by simp [names]⟩

theorem root_mem_chain {p : Str} : root ∈ chain root p := root_mem_above

theorem names_root (hroot : d.IsDir root) : names root = root := by
  obtain ⟨mode, hget⟩ := hroot
  exact Disk.names_of_get hget

theorem names_below (hroot : d.IsDir root) : names (root ++ parts) = root ++ names parts := by
  rw [names_append, names_root hroot]

theorem prefix_within_or_beyond {init a b : List Str} (h : init <+: a ++ b) :
    init <+: a ∨ ∃ q, q <+: b ∧ init = a ++ q := by
  by_cases hlen : init.length ≤ a.length
  · exact .inl (List.prefix_of_prefix_length_le h (List.prefix_append a b) hlen)
  · obtain ⟨q, rfl⟩ := List.prefix_of_prefix_length_le (List.prefix_append a b) h (by omega)
    exact .inr ⟨q, (List.prefix_append_right_inj a).mp h, rfl⟩

/-- A path below the root is direct when none of its parents is a link. -/
theorem direct_below (hroot : d.IsDir root) (hdd : ['.', '.'] ∉ parts)
    (hlink : ∀ {init}, init <+: parts → init ≠ parts → ¬ d.IsLink (root ++ names init)) :
    Direct d (root ++ parts) where
  noDotDot := by
    obtain ⟨mode, hget⟩ := hroot
    intro hmem
    rcases List.mem_append.mp hmem with hmem | hmem
    · have := Disk.isFileName_of_get hget _ hmem
      simp [isFileName, isName] at this
    · exact hdd hmem
  noLink := by
    intro init hinit hne
    rcases prefix_within_or_beyond hinit with hpre | ⟨q, hq, rfl⟩
    · obtain ⟨rest, hrest⟩ := hpre
      by_cases hnil : rest = []
      · subst hnil
        rw [List.append_nil] at hrest
        subst hrest
        have := @hlink [] List.nil_prefix (by rintro rfl; exact hne (by simp))
        rw [names_root hroot]
        simpa [names] using this
      · obtain ⟨mode, hget⟩ := hroot
        rw [← hrest] at hget
        obtain ⟨mode', hdir⟩ := Disk.isDir_of_prefix hget hnil
        rintro ⟨t, ht⟩
        rw [Disk.names_of_get hdir, hdir] at ht
        cases ht
    · rw [names_below hroot]
      exact hlink hq (by rintro rfl; exact hne rfl)

end Places

/-! ## Effects -/

/-- What an operation on `p` may do, whatever it answers.  `X` is its part of the staging
area. -/
structure Effect (root : Loc) (p : Str) (X : Set Loc) (w w' : World) : Prop where
  changes : Changes (chain root p ∪ {target root p} ∪ X) w w'
  dir : ∀ {c}, c ∈ chain root p → c ≠ target root p → w.disk.IsDir c → w'.disk.IsDir c
  held : ∀ {c node}, c ∈ chain root p → c ≠ target root p → w.disk.get c = some node →
    ∃ mode, w'.disk.get c = some (node.withMode mode)
  missing : ∀ {c}, c ∈ chain root p → c ≠ target root p → w.disk.get c = none →
    w'.disk.get c = none ∨ w'.disk.IsDir c
  noLink : ∀ {c}, c ∈ chain root p → ¬ w.disk.IsLink c → ¬ w'.disk.IsLink c

namespace Effect

variable {root : Loc} {p : Str} {X Y : Set Loc} {w w' w'' : World}

theorem of_same (h : Same w w') : Effect root p X w w' where
  changes := .of_same h
  dir := fun _ _ hd => by rwa [Disk.IsDir, h.disk]
  held := fun _ _ hn => Node.held_of_eq (by rwa [h.disk])
  missing := fun _ _ hn => .inl (by rwa [h.disk])
  noLink := fun _ hl => by rwa [Disk.IsLink, h.disk]

theorem refl : Effect root p X w w := of_same (.refl w)

theorem trans (h : Effect root p X w w') (h' : Effect root p X w' w'') : Effect root p X w w'' where
  changes := h.changes.trans h'.changes
  dir := fun hc ht hd => h'.dir hc ht (h.dir hc ht hd)
  held := fun hc ht hn => by
    obtain ⟨mode, hmode⟩ := h.held hc ht hn
    obtain ⟨mode', hmode'⟩ := h'.held hc ht hmode
    exact ⟨mode', by rw [hmode', Node.withMode_withMode]⟩
  missing := fun hc ht hn => by
    rcases h.missing hc ht hn with hn | hd
    · exact h'.missing hc ht hn
    · exact .inr (h'.dir hc ht hd)
  noLink := fun hc hl => h'.noLink hc (h.noLink hc hl)

theorem mono (h : Effect root p X w w') (hsub : X ⊆ Y) : Effect root p Y w w' :=
  ⟨h.changes.mono (Set.union_subset_union_right _ hsub), h.dir, h.held, h.missing,
    h.noLink⟩

/-- Changing the target; a link may appear there only if it is not one of the parents. -/
theorem of_target {o : Option Node} {access : Access}
    (h : Did w w' (target root p) o access)
    (hlink : target root p ∈ chain root p → ∀ t, o ≠ some (.symlink t)) :
    Effect root p X w w' where
  changes := h.changes (.inl (.inr rfl))
  dir := fun _ ht hd => by rwa [Disk.IsDir, h.sets.off (Ne.symm ht)]
  held := fun _ ht hn => Node.held_of_eq (by rwa [h.sets.off (Ne.symm ht)])
  missing := fun _ ht hn => .inl (by rw [h.sets.off (Ne.symm ht), hn])
  noLink := by
    intro c hc hl
    by_cases he : target root p = c
    · subst he
      rintro ⟨t, ht⟩
      rw [h.sets.at] at ht
      exact hlink hc t ht
    · rwa [Disk.IsLink, h.sets.off he]

theorem of_outside {S : Set Loc} (h : Changes S w w') (hS : S ⊆ X)
    (hX : ∀ {x}, x ∈ X → ¬ root <+: x) : Effect root p X w w' := by
  have hchain : ∀ {c}, c ∈ chain root p → w'.disk.get c = w.disk.get c := fun {c} hc => by
    refine h.frame fun hs => hX (hS hs) ?_
    obtain ⟨init, -, rfl⟩ := hc
    exact List.prefix_append _ _
  refine ⟨h.mono (hS.trans Set.subset_union_right), fun hc _ hd => ?_, fun hc _ hn => ?_,
    fun hc _ hn => ?_, fun hc hl => ?_⟩
  · rwa [Disk.IsDir, hchain hc]
  · exact Node.held_of_eq (by rwa [hchain hc])
  · exact .inl (by rw [hchain hc, hn])
  · rwa [Disk.IsLink, hchain hc]

end Effect

/-! ## One parent -/

section Parent

variable {h : Host} {w : World} {path : PathBuf} {restores : List PermissionRestore}

theorem prepareInspected_spec {metadata : Node} {keep : Bool} (hd : Direct w.disk path)
    (hget : w.disk.get (names path) = some metadata) :
    (prepareInspectedDirectoryForWrite path metadata keep restores).wp h w
      (fun restores' w' => ∃ m, metadata = .dir m
        ∧ ((restores' = restores ∧ Same w w' ∧ (Smooth h w.disk path → m &&& 0o300 = 0o300))
          ∨ (restores' = (if keep then restores ++ [⟨path, m⟩] else restores)
            ∧ m &&& 0o300 ≠ 0o300
            ∧ Did w w' (names path) (some (.dir (m ||| 0o300))) .chmod)))
      (fun _ w' => Same w w' ∧ ¬ (Smooth h w.disk path ∧ metadata.isDir = true)) := by
  cases metadata with
  | file c m t => exact ⟨.refl w, fun hc => by cases hc.2⟩
  | symlink t => exact ⟨.refl w, fun hc => by cases hc.2⟩
  | special => exact ⟨.refl w, fun hc => by cases hc.2⟩
  | dir m =>
      refine wp_ite (fun hm => ?_) (fun hm => ?_)
      · exact ⟨m, rfl, .inl ⟨rfl, .refl w, fun _ => hm⟩⟩
      · rw [wp_bind]
        have hlast : ¬ w.disk.IsLink (names path) := by
          rintro ⟨t, ht⟩
          rw [hget] at ht
          cases ht
        refine wp_conseq (chmod_spec hd hlast) ?_
        rintro r w' (⟨rfl, node, hnode, hdid⟩ | ⟨kind, rfl, hsame, hno⟩)
        · rw [hget] at hnode
          cases hnode
          cases keep <;> exact ⟨m, rfl, .inr ⟨rfl, hm, hdid⟩⟩
        · have hno' : ¬ Smooth h w.disk path := fun hs => hno ⟨hs, _, hget⟩
          refine wp_ite (fun _ => ?_) (fun _ => ?_)
          · exact ⟨m, rfl, .inl ⟨rfl, hsame, fun hs => absurd hs hno'⟩⟩
          · exact ⟨hsame, fun hc => hno' hc.1⟩

/-- What preparing one parent does when it succeeds. -/
inductive ParentStep (h : Host) (create : Bool) (path : PathBuf) (restores : List PermissionRestore)
    (w : World) : List PermissionRestore → World → Prop
  | kept {w' : World} (m : Mode) (hget : w.disk.get (names path) = some (.dir m))
      (same : Same w w') (hm : Smooth h w.disk path → m &&& 0o300 = 0o300) :
      ParentStep h create path restores w restores w'
  | opened {w' : World} (m : Mode) (hget : w.disk.get (names path) = some (.dir m))
      (hm : m &&& 0o300 ≠ 0o300) (did : Did w w' (names path) (some (.dir (m ||| 0o300))) .chmod) :
      ParentStep h create path restores w (restores ++ [⟨path, m⟩]) w'
  | created {w' : World} (m : Mode) (hnone : w.disk.get (names path) = none)
      (hcreate : create = true) (sets : Sets w.disk (names path) (some (.dir m)) w'.disk)
      (changes : Changes {names path} w w') (hm : Smooth h w.disk path → m &&& 0o300 = 0o300) :
      ParentStep h create path restores w restores w'
  | skipped {w' : World} (hnone : w.disk.get (names path) = none) (hcreate : create = false)
      (same : Same w w') : ParentStep h create path restores w restores w'

/-- What preparing one parent may have done when it fails. -/
def ParentFailure (path : PathBuf) (w w' : World) : Prop :=
  Same w w' ∨ (w.disk.get (names path) = none ∧ Changes {names path} w w'
    ∧ ∃ m, Sets w.disk (names path) (some (.dir m)) w'.disk)

/-- A parent that can be prepared. -/
def Preparable (h : Host) (create : Bool) (d : Disk) (path : PathBuf) : Prop :=
  Smooth h d path ∧ (d.IsDir (names path)
    ∨ (d.get (names path) = none ∧ (create = true → Ready h d path)))

theorem or_and_bits {bits : Mode} (m : Mode) : (m ||| bits) &&& bits = bits := by
  ext i hi
  simp only [BitVec.getElem_and, BitVec.getElem_or, Bool.and_eq_right_iff_imp]
  exact fun hbit => by rw [hbit, Bool.or_true]

theorem prepareCreated_spec {create : Bool} {w₁ : World} {m : Mode} (hd : Direct w.disk path)
    (hnone : w.disk.get (names path) = none) (hcreate : create = true)
    (hdid : Did w w₁ (names path) (some (.dir m)) .create) :
    (prepareDirectoryForWrite path false restores).wp h w₁ (ParentStep h create path restores w)
      (fun _ w' => ParentFailure path w w' ∧ ¬ Preparable h create w.disk path) := by
  unfold prepareDirectoryForWrite
  refine wp_context_then (lstat_spec (hd.of_sets_dir hdid.sets)) ?_
  have failure : ∀ {w'}, Same w₁ w' → ParentFailure path w w' := fun hs =>
    .inr ⟨hnone, (hdid.then_same hs).changes rfl, m, (hdid.then_same hs).sets⟩
  rintro (kind | node) w₂ hlook
  · refine ⟨failure hlook.same, ?_⟩
    rintro ⟨hsm, -⟩
    by_cases hk : kind = .notFound
    · subst hk
      have := hlook.missing rfl
      rw [hdid.sets.at] at this
      cases this
    · exact hlook.blocked rfl hk (hsm.of_sets hdid.sets)
  · have hnode := hlook.ok rfl
    rw [hdid.sets.at] at hnode
    cases hnode
    have hdid₂ := hdid.then_same hlook.same
    refine wp_mono (prepareInspected_spec (hd.of_sets_dir hdid₂.sets) hdid₂.sets.at) ?_ ?_
    · rintro restores' w₃ ⟨m', hm', ⟨rfl, hsame, hbits⟩ | ⟨rfl, -, hdid₃⟩⟩ <;> cases hm'
      · exact .created m hnone hcreate (hdid₂.then_same hsame).sets
          ((hdid₂.then_same hsame).changes rfl) fun hsm => hbits (hsm.of_sets hdid₂.sets)
      · exact .created _ hnone hcreate (hdid₂.sets.trans hdid₃.sets)
          ((hdid₂.changes (Set.mem_singleton _)).trans (hdid₃.changes (Set.mem_singleton _))) fun _ => or_and_bits m
    · rintro _ w₃ ⟨hsame, hno⟩
      refine ⟨failure (hlook.same.trans hsame), ?_⟩
      rintro ⟨hsm, -⟩
      exact hno ⟨hsm.of_sets hdid₂.sets, rfl⟩

theorem prepareParent_spec {create : Bool} (hd : Direct w.disk path) :
    (prepareParent create path restores).wp h w (ParentStep h create path restores w)
      (fun _ w' => ParentFailure path w w' ∧ ¬ Preparable h create w.disk path) := by
  unfold prepareParent
  refine wp_then (lstat_spec hd) ?_
  rintro (kind | node) w₁ hlook
  · cases kind with
    | notFound =>
        have hnone := hlook.missing rfl
        show (if create then _ else _ : Fs _).wp h w₁ _ _
        refine wp_ite (fun hcreate => ?_) (fun hcreate => ?_)
        · refine wp_context_then (mkdir_spec (by rw [hlook.same.disk]; exact hd)) ?_
          rintro r w₂ (⟨rfl, -, hdid⟩ | ⟨kind, rfl, hsame, hno⟩)
          · exact prepareCreated_spec hd hnone hcreate (hdid.after_same hlook.same)
          · refine ⟨.inl (hlook.same.trans hsame), ?_⟩
            rintro ⟨-, ⟨m, hm⟩ | ⟨-, hready⟩⟩
            · rw [hnone] at hm
              cases hm
            · rw [hlook.same.disk] at hno
              exact hno ⟨hready hcreate, hnone⟩
        · exact .skipped hnone (by simpa using hcreate) hlook.same
    | _ => exact ⟨.inl hlook.same, fun hp => hlook.blocked rfl (by decide) hp.1⟩
  · have hnode := hlook.ok rfl
    have hd₁ : Direct w₁.disk path := by rw [hlook.same.disk]; exact hd
    refine wp_mono (prepareInspected_spec hd₁ (by rw [hlook.same.disk]; exact hnode)) ?_ ?_
    · rintro restores' w₂ ⟨m, rfl, ⟨rfl, hsame, hm⟩ | ⟨rfl, hm, hdid⟩⟩
      · rw [hlook.same.disk] at hm
        exact .kept m hnode (hlook.same.trans hsame) hm
      · exact .opened m hnode hm (hdid.after_same hlook.same)
    · rintro _ w₂ ⟨hsame, hno⟩
      refine ⟨.inl (hlook.same.trans hsame), ?_⟩
      rintro ⟨hsm, ⟨m, hm⟩ | ⟨hnone, -⟩⟩
      · rw [hnode] at hm
        cases hm
        rw [hlook.same.disk] at hno
        exact hno ⟨hsm, rfl⟩
      · rw [hnode] at hnone
        cases hnone

end Parent

/-! ## All parents -/

/-- One parent before and after the preparation. -/
inductive PreparedAt (create : Bool) (d d' : Disk) (restores : List PermissionRestore) (c : Loc) :
    Prop
  | kept (m : Mode) (before : d.get c = some (.dir m)) (after : d'.get c = some (.dir m))
      (hr : ∀ r ∈ restores, names r.path ≠ c) : PreparedAt create d d' restores c
  | opened (r : PermissionRestore) (hr : r ∈ restores) (hc : names r.path = c)
      (before : d.get c = some (.dir r.permissions))
      (after : d'.get c = some (.dir (r.permissions ||| 0o300))) : PreparedAt create d d' restores c
  | created (hcreate : create = true) (before : d.get c = none) (after : d'.IsDir c) :
      PreparedAt create d d' restores c
  | absent (hcreate : create = false) (before : d.get c = none) (after : d'.get c = none) :
      PreparedAt create d d' restores c

theorem PreparedAt.of_eq {create : Bool} {d d' d'' : Disk} {restores new : List PermissionRestore}
    {c : Loc} (h : PreparedAt create d d' restores c) (he : d''.get c = d'.get c)
    (hnew : ∀ r ∈ new, names r.path ≠ c) : PreparedAt create d d'' (restores ++ new) c := by
  cases h with
  | kept m before after hr =>
      exact .kept m before (he.trans after) fun r hmem =>
        (List.mem_append.mp hmem).elim (hr r) (hnew r)
  | opened r hr hc before after =>
      exact .opened r (List.mem_append_left _ hr) hc before (he.trans after)
  | created hcreate before after => exact .created hcreate before (by rwa [Disk.IsDir, he])
  | absent hcreate before after => exact .absent hcreate before (he.trans after)

theorem PreparedAt.of_eq_same {create : Bool} {d d' d'' : Disk} {restores : List PermissionRestore}
    {c : Loc} (h : PreparedAt create d d' restores c) (he : d''.get c = d'.get c) :
    PreparedAt create d d'' restores c := by
  have := h.of_eq he (List.forall_mem_nil fun r : PermissionRestore => names r.path ≠ c)
  rwa [List.append_nil] at this

/-- The state after the parents `parts` were prepared. -/
structure Prepared (h : Host) (create : Bool) (root : Loc) (parts : List Str) (w w' : World)
    (restores : List PermissionRestore) : Prop where
  changes : Changes (above root parts) w w'
  each : ∀ {c}, c ∈ above root parts → PreparedAt create w.disk w'.disk restores c
  paths : ∀ {r}, r ∈ restores → ∃ init, init <+: parts ∧ r.path = root ++ init
  opened : ∀ {r}, r ∈ restores → w'.disk.get (names r.path) = some (.dir (r.permissions ||| 0o300))
  nodup : (restores.map fun r => names r.path).Nodup
  sorted : restores.Pairwise fun r r' => r.path.length < r'.path.length
  bits : Reach h w.disk root → Named parts → ∀ {c m}, c ∈ above root parts →
    w'.disk.get c = some (.dir m) → m &&& 0o300 = 0o300

theorem canSearch_of_bits {h : Host} {m : Mode} (hb : m &&& 0o300 = 0o300) :
    h.canSearch m = true := by
  have : m &&& 0o100 = 0o100 := by
    rw [show (0o100 : Mode) = 0o300 &&& 0o100 by decide, ← BitVec.and_assoc, hb]
  rw [Host.canSearch, this, beq_self_eq_true, Bool.or_true]

theorem canWrite_of_bits {h : Host} {m : Mode} (hb : m &&& 0o300 = 0o300) :
    h.canWrite m = true := by
  have : m &&& 0o200 = 0o200 := by
    rw [show (0o200 : Mode) = 0o300 &&& 0o200 by decide, ← BitVec.and_assoc, hb]
  rw [Host.canWrite, this, beq_self_eq_true, Bool.or_true]

section Loop

variable {h : Host} {create : Bool} {root : Loc} {parts : List Str} {w w₁ : World}
  {restores : List PermissionRestore}

theorem notMem_above_of_proper {init : List Str} (hi : init <+: root) (hne : init ≠ root) :
    init ∉ above root parts := by
  rintro ⟨q, -, rfl⟩
  exact hne (hi.eq_of_length_le (by simp))

/-- The way to a path below the root is smooth when every parent that exists is open. -/
theorem smooth_below {d d' : Disk} {parts : List Str} (hreach : Reach h d root)
    (hframe : ∀ {init}, init <+: root → init ≠ root → d'.get init = d.get init)
    (hroot : Named root) (hn : Named parts)
    (hopen : ∀ {init}, init <+: parts → init ≠ parts → d'.get (root ++ init) = none
      ∨ ∃ m, d'.get (root ++ init) = some (.dir m) ∧ m &&& 0o300 = 0o300) :
    Smooth h d' (root ++ parts) where
  noFault := hreach.noFault
  named := fun part hp => (List.mem_append.mp hp).elim (hroot part) (hn part)
  passable := by
    intro init hi hne
    rcases prefix_within_or_beyond hi with hpre | ⟨q, hq, rfl⟩
    · by_cases he : init = root
      · subst he
        have := @hopen [] List.nil_prefix (by rintro rfl; exact hne (by simp))
        rw [List.append_nil] at this
        exact this.imp id fun ⟨m, hm, hb⟩ => ⟨m, hm, canSearch_of_bits hb⟩
      · rw [hframe hpre he]
        exact .inr (hreach.search hpre he)
    · exact (hopen hq (by rintro rfl; exact hne rfl)).imp id
        fun ⟨m, hm, hb⟩ => ⟨m, hm, canSearch_of_bits hb⟩

theorem mem_above_concat {c : Loc} {component : Str} :
    c ∈ above root (parts ++ [component]) ↔
      c ∈ above root parts ∨ c = root ++ names (parts ++ [component]) := by
  constructor
  · rintro ⟨init, hi, rfl⟩
    rcases List.prefix_concat_iff.mp hi with rfl | hi
    · exact .inr rfl
    · exact .inl (mem_above hi)
  · rintro (⟨init, hi, rfl⟩ | rfl)
    · exact mem_above (hi.trans (List.prefix_append _ _))
    · exact mem_above List.prefix_rfl

variable {p : Str} {X : Set Loc}

namespace Prepared

variable {component : Str} {w₂ : World} (hp : Prepared h create root parts w w₁ restores)
include hp

theorem dir_or_none {c : Loc}
    (hc : c ∈ above root parts) : w₁.disk.get c = none ∨ w₁.disk.IsDir c := by
  cases hp.each hc with
  | kept m before after hr => exact .inr ⟨m, after⟩
  | opened r hr hc before after => exact .inr ⟨_, after⟩
  | created hcreate before after => exact .inr after
  | absent hcreate before after => exact .inl after

theorem root_isDir (hroot : w.disk.IsDir root) : w₁.disk.IsDir root := by
  obtain ⟨m, hm⟩ := hroot
  cases hp.each root_mem_above with
  | kept m before after hr => exact ⟨m, after⟩
  | opened r hr hc before after => exact ⟨_, after⟩
  | created hcreate before after => exact after
  | absent hcreate before after => rw [hm] at before; cases before

theorem noLink {c : Loc}
    (hc : c ∈ above root parts) : ¬ w₁.disk.IsLink c := by
  rintro ⟨t, ht⟩
  rcases hp.dir_or_none hc with hnone | ⟨m, hm⟩
  · rw [ht] at hnone; cases hnone
  · rw [ht] at hm; cases hm

theorem direct (hdd : ['.', '.'] ∉ parts ++ [component]) (hroot : w.disk.IsDir root) :
    Direct w₁.disk (root ++ (parts ++ [component])) :=
  direct_below (hp.root_isDir hroot) hdd fun {init} hi hne => by
    rcases List.prefix_concat_iff.mp hi with rfl | hi
    · exact absurd rfl hne
    · exact hp.noLink (mem_above hi)

/-- The way to what comes after the prepared parents is smooth. -/
theorem smooth_next (hroot : w.disk.IsDir root) (hreach : Reach h w.disk root)
    (hn : Named (parts ++ [component])) : Smooth h w₁.disk (root ++ (parts ++ [component])) := by
  refine smooth_below hreach (fun hi hne => hp.changes.frame (notMem_above_of_proper hi hne))
    (named_root hroot) hn fun {init} hi hne => ?_
  rcases List.prefix_concat_iff.mp hi with rfl | hi
  · exact absurd rfl hne
  · have hin : root ++ init ∈ above root parts :=
      ⟨init, hi, by rw [Named.names fun part hpart =>
        hn part (List.mem_append_left _ (hi.subset hpart))]⟩
    rcases hp.dir_or_none hin with hnone | ⟨m, hm⟩
    · exact .inl hnone
    · exact .inr ⟨m, hm, hp.bits hreach (fun part hpart =>
        hn part (List.mem_append_left _ hpart)) hin hm⟩

/-- What comes after the prepared parents may be created there. -/
theorem ready_next (hroot : w.disk.IsDir root) (hreach : Reach h w.disk root)
    (hn : Named (parts ++ [component])) (hfile : isFileName component = true)
    (hdir : w₁.disk.IsDir (root ++ parts)) :
    Ready h w₁.disk (root ++ (parts ++ [component])) := by
  refine ⟨root ++ parts, component, by simp, hp.smooth_next hroot hreach hn, ?_, hfile⟩
  have hnp : Named parts := fun part hpart => hn part (List.mem_append_left _ hpart)
  obtain ⟨m, hm⟩ := hdir
  have hbits := hp.bits hreach hnp ⟨parts, List.prefix_rfl, by rw [hnp.names]⟩ hm
  simp only [Disk.writable, hm]
  exact canWrite_of_bits hbits

theorem restores_above (hroot : w.disk.IsDir root) {r : PermissionRestore} (hr : r ∈ restores) :
    names r.path ∈ above root parts := by
  obtain ⟨init, hi, he⟩ := hp.paths hr
  rw [he, names_below hroot]
  exact mem_above hi

/-- One more parent, without another mode to restore: it is enough to say what became of it. -/
theorem extend (hroot : w.disk.IsDir root) (hchanges : Changes (above root (parts ++ [component])) w₁ w₂)
    (hoff : ∀ {c}, c ∈ above root parts → w₂.disk.get c = w₁.disk.get c)
    (hat : root ++ names (parts ++ [component]) ∉ above root parts →
      PreparedAt create w.disk w₂.disk restores (root ++ names (parts ++ [component])))
    (hbits : Smooth h w₁.disk (root ++ (parts ++ [component])) →
      ∀ m, w₂.disk.get (root ++ names (parts ++ [component])) = some (.dir m) → m &&& 0o300 = 0o300) :
    Prepared h create root (parts ++ [component]) w w₂ restores where
  changes := (hp.changes.mono (above_mono (List.prefix_append _ _))).trans hchanges
  each := by
    intro c hc
    by_cases hin : c ∈ above root parts
    · exact (hp.each hin).of_eq_same (hoff hin)
    · obtain rfl := (mem_above_concat.mp hc).resolve_left hin
      exact hat hin
  paths := fun hr => by
    obtain ⟨init, hi, he⟩ := hp.paths hr
    exact ⟨init, hi.trans (List.prefix_append _ _), he⟩
  opened := fun hr => (hoff (hp.restores_above hroot hr)).trans (hp.opened hr)
  nodup := hp.nodup
  sorted := hp.sorted
  bits := by
    intro hreach hn c m hc hm
    rcases mem_above_concat.mp hc with hc | rfl
    · rw [hoff hc] at hm
      exact hp.bits hreach (fun part hpart => hn part (List.mem_append_left _ hpart)) hc hm
    · exact hbits (hp.smooth_next hroot hreach hn) m hm

theorem open_next {m : Mode} (hroot : w.disk.IsDir root)
    (hget : w₁.disk.get (root ++ names (parts ++ [component])) = some (.dir m))
    (hm : m &&& 0o300 ≠ 0o300)
    (did : Did w₁ w₂ (root ++ names (parts ++ [component])) (some (.dir (m ||| 0o300))) .chmod) :
    Prepared h create root (parts ++ [component]) w w₂
      (restores ++ [⟨root ++ (parts ++ [component]), m⟩]) := by
  have hloc : names (root ++ (parts ++ [component])) = root ++ names (parts ++ [component]) :=
    names_below hroot
  set loc := root ++ names (parts ++ [component]) with hdef
  -- what has been opened already is open, so it is not opened twice
  have hfresh : ∀ r ∈ restores, names r.path ≠ loc := fun r hr he => by
    have := hp.opened hr
    rw [he, hget] at this
    cases this
    exact hm (or_and_bits _)
  refine ⟨(hp.changes.mono (above_mono (List.prefix_append _ _))).trans
      (did.changes (mem_above List.prefix_rfl)), fun {c} hc => ?_, fun {r} hr => ?_, fun {r} hr => ?_,
    ?_, ?_, fun hreach hn c m' hc hm' => ?_⟩
  · by_cases he : c = loc
    · subst he
      have hnew : (⟨root ++ (parts ++ [component]), m⟩ : PermissionRestore)
          ∈ restores ++ [⟨root ++ (parts ++ [component]), m⟩] := by simp
      by_cases hin : loc ∈ above root parts
      · cases hp.each hin with
        | kept m' before after hr =>
            rw [hget] at after
            cases after
            exact .opened _ hnew hloc before did.sets.at
        | opened r hr hc before after => exact absurd hc (hfresh r hr)
        | created hcreate before after => exact .created hcreate before ⟨_, did.sets.at⟩
        | absent hcreate before after => rw [hget] at after; cases after
      · exact .opened _ hnew hloc ((hp.changes.frame hin).symm.trans hget) did.sets.at
    · have hin : c ∈ above root parts := (mem_above_concat.mp hc).resolve_right he
      refine (hp.each hin).of_eq (did.sets.off (Ne.symm he)) fun r hr => ?_
      rw [List.mem_singleton.mp hr, hloc]
      exact Ne.symm he
  · rcases List.mem_append.mp hr with hr | hr
    · obtain ⟨init, hi, he⟩ := hp.paths hr
      exact ⟨init, hi.trans (List.prefix_append _ _), he⟩
    · rw [List.mem_singleton.mp hr]
      exact ⟨_, List.prefix_rfl, rfl⟩
  · rcases List.mem_append.mp hr with hr | hr
    · rw [did.sets.off (Ne.symm (hfresh r hr))]
      exact hp.opened hr
    · rw [List.mem_singleton.mp hr, hloc]
      exact did.sets.at
  · rw [List.map_append, List.nodup_append]
    refine ⟨hp.nodup, by simp, ?_⟩
    intro a ha b hb
    obtain ⟨r, hr, rfl⟩ := List.mem_map.mp ha
    simp only [List.map_cons, List.map_nil, List.mem_singleton] at hb
    rw [hb, hloc]
    exact hfresh r hr
  · refine List.pairwise_append.mpr ⟨hp.sorted, by simp, fun r hr r' hr' => ?_⟩
    obtain ⟨init, hi, he⟩ := hp.paths hr
    rw [List.mem_singleton.mp hr', he]
    have := hi.length_le
    simp only [List.length_append, List.length_singleton]
    omega
  · by_cases he : loc = c
    · rw [← he, did.sets.at] at hm'
      cases hm'
      exact or_and_bits m
    · rw [did.sets.off he] at hm'
      exact hp.bits hreach (fun part hpart => hn part (List.mem_append_left _ hpart))
        ((mem_above_concat.mp hc).resolve_right (Ne.symm he)) hm'

/-- Where parents are created, one that is missing was not prepared before. -/
theorem notMem_of_missing (hcreate : create = true) {c : Loc} (hnone : w₁.disk.get c = none) :
    c ∉ above root parts := by
  intro hin
  cases hp.each hin with
  | kept m before after hr => rw [hnone] at after; cases after
  | opened r hr hc before after => rw [hnone] at after; cases after
  | created hcreate before after =>
      obtain ⟨m, hm⟩ := after
      rw [hnone] at hm
      cases hm
  | absent hcreate' before after => rw [hcreate] at hcreate'; cases hcreate'

theorem step {restores' : List PermissionRestore} (hroot : w.disk.IsDir root)
    (hstep : ParentStep h create (root ++ (parts ++ [component])) restores w₁ restores' w₂) :
    Prepared h create root (parts ++ [component]) w w₂ restores' := by
  have hloc : names (root ++ (parts ++ [component])) = root ++ names (parts ++ [component]) :=
    names_below hroot
  have hmem : root ++ names (parts ++ [component]) ∈ above root (parts ++ [component]) :=
    mem_above List.prefix_rfl
  cases hstep with
  | kept m hget same hm =>
      rw [hloc] at hget
      refine hp.extend hroot (.of_same same) (fun _ => by rw [same.disk]) (fun hin => ?_) fun hs m' hm' => ?_
      · exact .kept m ((hp.changes.frame hin).symm.trans hget) (by rw [same.disk]; exact hget)
          fun r hr he => hin (he ▸ hp.restores_above hroot hr)
      · rw [same.disk, hget] at hm'
        cases hm'
        exact hm hs
  | opened m hget hm did =>
      rw [hloc] at hget did
      exact hp.open_next hroot hget hm did
  | created m hnone hcreate sets changes hm =>
      rw [hloc] at hnone sets changes
      have hin := hp.notMem_of_missing hcreate hnone
      refine hp.extend hroot (changes.mono (by simpa using hmem))
        (fun hc => sets.off (by rintro rfl; exact hin hc)) (fun _ => ?_) fun hs m' hm' => ?_
      · exact .created hcreate ((hp.changes.frame hin).symm.trans hnone) ⟨m, sets.at⟩
      · rw [sets.at] at hm'
        cases hm'
        exact hm hs
  | skipped hnone hcreate same =>
      rw [hloc] at hnone
      refine hp.extend hroot (.of_same same) (fun _ => by rw [same.disk]) (fun hin => ?_) fun _ m' hm' => ?_
      · exact .absent hcreate ((hp.changes.frame hin).symm.trans hnone) (by rw [same.disk]; exact hnone)
      · rw [same.disk, hnone] at hm'
        cases hm'

theorem effect (hsub : parts <+: (split p).dropLast) : Effect root p X w w₁ := by
  have hout : ∀ {c}, c ∉ above root parts → w₁.disk.get c = w.disk.get c := hp.changes.frame
  refine ⟨hp.changes.mono ((above_mono hsub).trans
    (Set.subset_union_left.trans Set.subset_union_left)), fun {c} _ _ hd => ?_,
    fun {c node} _ _ hn => ?_, fun {c} _ _ hn => ?_, fun {c} _ hl => ?_⟩
  · by_cases hin : c ∈ above root parts
    · rcases hp.dir_or_none hin with hnone | hdir
      · obtain ⟨m, hm⟩ := hd
        cases hp.each hin with
        | kept m' before after hr => exact ⟨m', after⟩
        | opened r hr hc before after => exact ⟨_, after⟩
        | created hcreate before after => exact after
        | absent hcreate before after => rw [hm] at before; cases before
      · exact hdir
    · rwa [Disk.IsDir, hout hin]
  · by_cases hin : c ∈ above root parts
    · cases hp.each hin with
      | kept m before after hr => exact Node.held_of_eq (after.trans (before.symm.trans hn))
      | opened r hr hc before after =>
          rw [before] at hn
          cases hn
          exact ⟨_, after⟩
      | created hcreate before after => rw [hn] at before; cases before
      | absent hcreate before after => rw [hn] at before; cases before
    · exact Node.held_of_eq (by rwa [hout hin])
  · by_cases hin : c ∈ above root parts
    · exact hp.dir_or_none hin
    · exact .inl (by rw [hout hin, hn])
  · by_cases hin : c ∈ above root parts
    · exact hp.noLink hin
    · rwa [Disk.IsLink, hout hin]

end Prepared

theorem ParentFailure.effect {path : PathBuf} {w' : World} (hf : ParentFailure path w w')
    (hc : names path ∈ chain root p) : Effect root p X w w' := by
  rcases hf with hsame | ⟨hnone, hchanges, m, hsets⟩
  · exact .of_same hsame
  · refine ⟨hchanges.mono (by simpa using .inl (.inr hc)), fun {c} _ _ hd => ?_,
      fun {c node} _ _ hn => ?_, fun {c} _ _ hn => ?_, fun {c} _ hl => ?_⟩
    all_goals by_cases he : names path = c
    · subst he; exact ⟨m, hsets.at⟩
    · rwa [Disk.IsDir, hsets.off he]
    · subst he; rw [hn] at hnone; cases hnone
    · exact Node.held_of_eq (by rwa [hsets.off he])
    · subst he; exact .inr ⟨m, hsets.at⟩
    · exact .inl (by rw [hsets.off he, hn])
    · subst he
      rintro ⟨t, ht⟩
      rw [hsets.at] at ht
      cases ht
    · rwa [Disk.IsLink, hsets.off he]

/-- The parents of `p` can be prepared: nothing is in the way, and each of them is missing or a
directory. -/
structure Clean (h : Host) (d : Disk) (root : Loc) (p : Str) : Prop where
  accepted : Accepted p
  canonical : Canonical p
  reach : Reach h d root
  parents : ∀ {c}, c ∈ chain root p → d.get c = none ∨ d.IsDir c

theorem isFileName_of_canonical (hp : Accepted p) (hc : Canonical p) {part : Str}
    (hpart : part ∈ split p) : isFileName part = true := by
  have hname := hc part hpart
  have hdd : part ≠ ['.', '.'] := by rintro rfl; exact hp.noDotDot hpart
  have hsep : '/' ∉ part := sep_notMem_of_mem_split part hpart
  have hnul : '\x00' ∉ part := fun hmem => hp.noNul (mem_of_mem_split hpart hmem)
  simp [isFileName, hname, hdd, hsep, hnul]

theorem named_of_canonical (hp : Accepted p) (hc : Canonical p) : Named (split p) :=
  fun part hpart => ⟨hc part hpart, by rintro rfl; exact hp.noDotDot hpart⟩

/-- The paths whose modes are to be restored are direct. -/
structure Restorable (root : Loc) (p : Str) (d : Disk) (restores : List PermissionRestore) : Prop where
  paths : ∀ {r}, r ∈ restores → ∃ init, init <+: (split p).dropLast ∧ r.path = root ++ init
    ∧ ∀ {q}, q <+: init → ¬ d.IsLink (root ++ names q)

theorem Prepared.restorable (hp : Prepared h create root parts w w₁ restores)
    (hsub : parts <+: (split p).dropLast) : Restorable root p w₁.disk restores := by
  refine ⟨fun {r} hr => ?_⟩
  obtain ⟨init, hi, he⟩ := hp.paths hr
  exact ⟨init, hi.trans hsub, he, fun hq => hp.noLink (mem_above (hq.trans hi))⟩

theorem Restorable.of_effect {w w' : World} (hr : Restorable root p w.disk restores)
    (he : Effect root p X w w') : Restorable root p w'.disk restores := by
  refine ⟨fun {r} hmem => ?_⟩
  obtain ⟨init, hi, hpath, hlink⟩ := hr.paths hmem
  exact ⟨init, hi, hpath, fun hq => he.noLink (mem_above (hq.trans hi)) (hlink hq)⟩

theorem prepareParents_spec (hroot : w.disk.IsDir root) :
    ∀ {rest parts : List Str} {restores : List PermissionRestore} {w₁ : World},
      parts ++ rest = (split p).dropLast → ['.', '.'] ∉ split p →
      Prepared h create root parts w w₁ restores →
      (prepareParents create rest (root ++ parts) restores).wp h w₁
        (fun x w' => match x.2 with
          | .ok () => Prepared h create root (split p).dropLast w w' x.1
          | .error _ => Effect root p X w w' ∧ Restorable root p w'.disk x.1
            ∧ ¬ Clean h w.disk root p)
        (fun _ _ => False)
  | [], parts, restores, w₁, heq, _, hp => by
      rw [List.append_nil] at heq
      subst heq
      exact hp
  | component :: rest, parts, restores, w₁, heq, hdd, hp => by
      have hpre : parts ++ [component] <+: (split p).dropLast := by
        rw [← heq]
        exact ⟨rest, by simp⟩
      have hsub : parts <+: (split p).dropLast := (List.prefix_append _ _).trans hpre
      have hmem : ∀ part ∈ parts ++ [component], part ∈ split p := fun part hpart =>
        List.dropLast_subset _ (hpre.subset hpart)
      have hdir := hp.direct (fun hm : ['.', '.'] ∈ parts ++ [component] => hdd (hmem _ hm)) hroot
      unfold prepareParents
      rw [wp_bind, wp_attempt, List.append_assoc]
      refine wp_mono (prepareParent_spec hdir) ?_ ?_
      · intro restores' w₂ hstep
        exact prepareParents_spec hroot (by simpa using heq) hdd (hp.step hroot hstep)
      · rintro e w₂ ⟨hfail, hno⟩
        have hloc : names (root ++ (parts ++ [component])) ∈ chain root p := by
          rw [names_below hroot]
          exact mem_above hpre
        have heff : Effect root p X w₁ w₂ := hfail.effect hloc
        refine ⟨(hp.effect hsub).trans heff, (hp.restorable hsub).of_effect heff, fun hclean => hno ?_⟩
        have hn : Named (parts ++ [component]) := fun part hpart =>
          named_of_canonical hclean.accepted hclean.canonical part (hmem part hpart)
        have hnp : Named parts := fun part hpart => hn part (List.mem_append_left _ hpart)
        refine ⟨hp.smooth_next hroot hclean.reach hn, ?_⟩
        have hcur : w₁.disk.get (names (root ++ (parts ++ [component]))) = none
            ∨ w₁.disk.IsDir (names (root ++ (parts ++ [component]))) := by
          by_cases hin : names (root ++ (parts ++ [component])) ∈ above root parts
          · exact hp.dir_or_none hin
          · rw [Disk.IsDir, hp.changes.frame hin]
            exact hclean.parents hloc
        rcases hcur with hnone | hd
        · refine .inr ⟨hnone, fun hcreate => hp.ready_next hroot hclean.reach hn
            (isFileName_of_canonical hclean.accepted hclean.canonical
              (hmem _ (by simp))) ?_⟩
          have hin : root ++ parts ∈ above root parts :=
            ⟨parts, List.prefix_rfl, by rw [hnp.names]⟩
          cases hp.each hin with
          | kept m before after hr => exact ⟨m, after⟩
          | opened r hr hc before after => exact ⟨_, after⟩
          | created _ before after => exact after
          | absent hcreate' before after => rw [hcreate] at hcreate'; cases hcreate'
        · exact .inl hd

end Loop

end Syncbox

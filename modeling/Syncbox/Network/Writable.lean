/-
# `Syncbox.Network.Writable` — an operation between two walks

`with_writable_parents` around an operation, and `safe_local_path` inside it.

The triple for `withWritableParents` is stated once, for any operation that keeps
the parents as the preparation left them (`Steady`).  It says what the operation
saw and what became of it: every parent that was a directory has its old mode back,
every parent that was missing is a directory or still missing, and the operation's
own result stands between.  On the other exit it says that some condition which the
operation's triple names was not met.
-/
import Syncbox.Network.Parents

namespace Syncbox

open Rust Unix Prog

section Writable

variable {h : Host} {create : Bool} {root : Loc} {p : Str} {X : Set Loc} {w : World}
  {restores : List PermissionRestore}

/-! ## The preparation -/

theorem prepareRoot_spec (create : Bool) (hroot : w.disk.IsDir root) :
    (prepareDirectoryForWrite root true []).wp h w
      (fun restores w' => Prepared h create root [] w w' restores)
      (fun _ w' => Same w w' ∧ ¬ Reach h w.disk root) := by
  have hd := direct_root hroot
  have hn := names_root hroot
  have hone : ∀ {c}, c ∈ above root [] → c = root := by
    rintro c ⟨init, hi, rfl⟩
    rw [List.prefix_nil.mp hi]
    simp [names]
  unfold prepareDirectoryForWrite
  refine wp_context_then (lstat_spec hd) ?_
  rintro (kind | node) w₁ hlook
  · refine ⟨hlook.same, fun hreach => ?_⟩
    by_cases hk : kind = .notFound
    · subst hk
      obtain ⟨m, hm⟩ := hroot
      have := hlook.missing rfl
      rw [hn, hm] at this
      cases this
    · exact hlook.blocked rfl hk (smooth_root hroot hreach)
  · have hnode := hlook.ok rfl
    have hd₁ : Direct w₁.disk root := by rw [hlook.same.disk]; exact hd
    refine wp_mono (prepareInspected_spec hd₁ (by rw [hlook.same.disk]; exact hnode)) ?_ ?_
    · rw [hn] at hnode
      rintro restores' w₂ ⟨m, rfl, ⟨rfl, hsame, hm⟩ | ⟨rfl, hm, hdid⟩⟩
      · have hs := hlook.same.trans hsame
        refine ⟨.of_same hs, fun {c} hc => ?_, by simp, by simp, by simp, by simp,
          fun hreach _ c m' hc hm' => ?_⟩
        · rw [hone hc]
          exact .kept m hnode (by rw [hs.disk]; exact hnode) (by simp)
        · rw [hone hc, hs.disk, hnode] at hm'
          cases hm'
          rw [hlook.same.disk] at hm
          exact hm (smooth_root hroot hreach)
      · have hdid := hdid.after_same hlook.same
        rw [hn] at hdid
        have hmem : (⟨root, m⟩ : PermissionRestore) ∈ [(⟨root, m⟩ : PermissionRestore)] := by simp
        refine ⟨hdid.changes root_mem_above, fun {c} hc => ?_, fun {r} hr => ?_, fun {r} hr => ?_,
          by simp, by simp, fun hreach _ c m' hc hm' => ?_⟩
        · rw [hone hc]
          exact .opened ⟨root, m⟩ hmem hn hnode hdid.sets.at
        · exact ⟨[], List.prefix_rfl, by rw [List.mem_singleton.mp hr]; simp⟩
        · rw [List.mem_singleton.mp hr, hn]
          exact hdid.sets.at
        · rw [hone hc, hdid.sets.at] at hm'
          cases hm'
          exact or_and_bits m
    · rintro _ w₂ ⟨hsame, hno⟩
      refine ⟨hlook.same.trans hsame, fun hreach => hno ?_⟩
      rw [hlook.same.disk]
      refine ⟨smooth_root hroot hreach, ?_⟩
      obtain ⟨m, hm⟩ := hroot
      rw [hn, hm] at hnode
      cases hnode
      rfl

theorem preparation_spec (hroot : w.disk.IsDir root) (hdd : ['.', '.'] ∉ split p) :
    (preparation root p create).wp h w
      (fun x w' => match x.2 with
        | .ok () => Prepared h create root (split p).dropLast w w' x.1
        | .error _ => Effect root p X w w' ∧ Restorable root p w'.disk x.1
          ∧ ¬ Clean h w.disk root p)
      (fun _ _ => False) := by
  unfold preparation
  rw [wp_bind, wp_attempt]
  refine wp_mono (prepareRoot_spec create hroot) ?_ ?_
  · intro restores w₁ hp
    have := prepareParents_spec (X := X) hroot (List.nil_append (split p).dropLast) hdd hp
    rwa [List.append_nil] at this
  · rintro e w₁ ⟨hsame, hno⟩
    exact ⟨.of_same hsame, ⟨by simp⟩, fun hc => hno hc.reach⟩

/-! ## The modes put back -/

/-- The modes of `restores` are back, and nothing else changed. -/
structure Restored (restores : List PermissionRestore) (d d' : Disk) : Prop where
  on : ∀ {r}, r ∈ restores →
    d'.get (names r.path) = (d.get (names r.path)).map (Node.withMode r.permissions)
  off : ∀ {c}, (∀ r ∈ restores, names r.path ≠ c) → d'.get c = d.get c

theorem Effect.of_chmod {c : Loc} {node : Node} {mode : Mode} {w' : World} (hc : c ∈ chain root p)
    (hnode : w.disk.get c = some node) (h : Did w w' c (some (node.withMode mode)) .chmod) :
    Effect root p X w w' where
  changes := h.changes (.inl (.inl hc))
  dir := by
    intro c' _ _ hd
    by_cases he : c = c'
    · subst he
      obtain ⟨m, hm⟩ := hd
      rw [hnode] at hm
      cases hm
      exact ⟨mode, h.sets.at⟩
    · rwa [Disk.IsDir, h.sets.off he]
  held := by
    intro c' node' _ _ hn
    by_cases he : c = c'
    · subst he
      rw [hnode] at hn
      cases hn
      exact ⟨mode, h.sets.at⟩
    · exact Node.held_of_eq (by rwa [h.sets.off he])
  missing := by
    intro c' _ _ hn
    by_cases he : c = c'
    · subst he; rw [hnode] at hn; cases hn
    · exact .inl (by rw [h.sets.off he, hn])
  noLink := by
    intro c' _ hl
    by_cases he : c = c'
    · subst he
      rintro ⟨t, ht⟩
      rw [h.sets.at] at ht
      cases node <;> cases ht
      exact hl ⟨t, hnode⟩
    · rwa [Disk.IsLink, h.sets.off he]

theorem Restorable.direct (hroot : w.disk.IsDir root) (hdd : ['.', '.'] ∉ split p)
    (hr : Restorable root p w.disk restores) {r : PermissionRestore} (hmem : r ∈ restores) :
    Direct w.disk r.path ∧ ¬ w.disk.IsLink (names r.path) ∧ names r.path ∈ chain root p := by
  obtain ⟨init, hi, hpath, hlink⟩ := hr.paths hmem
  rw [hpath, names_below hroot]
  refine ⟨direct_below hroot (fun hm => hdd ?_) fun hq _ => hlink hq, hlink List.prefix_rfl,
    mem_above hi⟩
  exact List.dropLast_subset _ (hi.subset hm)

/-- The loop, in the order in which it runs: longer paths first. -/
theorem restoreLoop_spec (hdd : ['.', '.'] ∉ split p) :
    ∀ {restores : List PermissionRestore} {w : World}, w.disk.IsDir root →
      Restorable root p w.disk restores →
      (restores.foldlM (fun _ r => restoreParentPermission r) ()).wp h w
        (fun _ w' => Effect root p X w w' ∧ ((restores.map fun r => names r.path).Nodup →
          Restored restores w.disk w'.disk))
        (fun _ w' => Effect root p X w w' ∧
          ¬ ((restores.Pairwise fun r r' => r'.path.length < r.path.length)
            ∧ ∀ r ∈ restores, Smooth h w.disk r.path ∧ ∃ node, w.disk.get (names r.path) = some node))
  | [], w, _, _ => ⟨.refl, fun _ => ⟨by simp, fun _ => rfl⟩⟩
  | r :: restores, w, hroot, hr => by
      obtain ⟨hd, hlast, hchain⟩ := hr.direct hroot hdd List.mem_cons_self
      rw [List.foldlM_cons, wp_bind, restoreParentPermission, wp_context]
      refine wp_conseq (chmod_spec hd hlast) ?_
      rintro _ w₁ (⟨rfl, node, hnode, hdid⟩ | ⟨kind, rfl, hsame, hno⟩)
      · have heff : Effect root p X w w₁ := .of_chmod hchain hnode hdid
        have hroot₁ : w₁.disk.IsDir root := by
          by_cases he : names r.path = root
          · obtain ⟨m, hm⟩ := hroot
            rw [he, hm] at hnode
            cases hnode
            exact ⟨_, by rw [← he]; exact hdid.sets.at⟩
          · rwa [Disk.IsDir, hdid.sets.off he]
        have hr₁ : Restorable root p w₁.disk restores :=
          Restorable.of_effect ⟨fun hm => hr.paths (List.mem_cons_of_mem _ hm)⟩ heff
        refine wp_mono (restoreLoop_spec hdd hroot₁ hr₁) ?_ ?_
        · rintro _ w₂ ⟨heff₂, hres⟩
          refine ⟨heff.trans heff₂, fun hnd => ?_⟩
          rw [List.map_cons, List.nodup_cons] at hnd
          have hrest := hres hnd.2
          have hfresh : ∀ r' ∈ restores, names r'.path ≠ names r.path := fun r' hr' he =>
            hnd.1 (he ▸ List.mem_map_of_mem hr')
          refine ⟨fun {r'} hr' => ?_, fun {c} hc => ?_⟩
          · rcases List.mem_cons.mp hr' with rfl | hr'
            · rw [hrest.off hfresh, hdid.sets.at, hnode]
              rfl
            · rw [hrest.on hr', hdid.sets.off (Ne.symm (hfresh r' hr'))]
          · rw [hrest.off fun r' hr' => hc r' (List.mem_cons_of_mem _ hr'),
              hdid.sets.off (hc r List.mem_cons_self)]
        · rintro e w₂ ⟨heff₂, hno⟩
          refine ⟨heff.trans heff₂, ?_⟩
          rintro ⟨hlen, hall⟩
          obtain ⟨hlen, hlens⟩ := List.pairwise_cons.mp hlen
          refine hno ⟨hlens, fun r' hr' => ?_⟩
          obtain ⟨hsm, node', hnode'⟩ := hall r' (List.mem_cons_of_mem _ hr')
          have hnamed := (hall r List.mem_cons_self).1.named.names
          -- the deeper directory is not on the way to the shallower one
          have hoff : ∀ {l : Loc}, l.length ≤ r'.path.length → w₁.disk.get l = w.disk.get l :=
            fun {l} hl => hdid.sets.off (by
              rintro rfl
              have := hlen r' hr'
              rw [hnamed] at hl
              omega)
          refine ⟨⟨hsm.noFault, hsm.named, fun hi hne => ?_⟩, node', ?_⟩
          · rw [hoff hi.length_le]
            exact hsm.passable hi hne
          · rw [hoff (by rw [hsm.named.names]), hnode']
      · refine ⟨.of_same hsame, fun hc => hno (hc.2 r List.mem_cons_self)⟩

theorem restoreParentPermissions_spec (hdd : ['.', '.'] ∉ split p) (hroot : w.disk.IsDir root)
    (hr : Restorable root p w.disk restores) :
    (restoreParentPermissions restores).wp h w
      (fun _ w' => Effect root p X w w' ∧ ((restores.map fun r => names r.path).Nodup →
        Restored restores w.disk w'.disk))
      (fun _ w' => Effect root p X w w' ∧
        ¬ ((restores.Pairwise fun r r' => r.path.length < r'.path.length)
          ∧ ∀ r ∈ restores, Smooth h w.disk r.path ∧ ∃ node, w.disk.get (names r.path) = some node)) := by
  have hr' : Restorable root p w.disk restores.reverse :=
    ⟨fun hm => hr.paths (List.mem_reverse.mp hm)⟩
  refine wp_mono (restoreLoop_spec (X := X) hdd hroot hr') ?_ ?_
  · rintro _ w' ⟨heff, hres⟩
    refine ⟨heff, fun hnd => ?_⟩
    have := hres (by rw [List.map_reverse, List.nodup_reverse]; exact hnd)
    exact ⟨fun hm => this.on (List.mem_reverse.mpr hm),
      fun hc => this.off fun r hm => hc r (List.mem_reverse.mp hm)⟩
  · rintro e w' ⟨heff, hno⟩
    refine ⟨heff, fun hc => hno ⟨List.pairwise_reverse.mpr hc.1, fun r hm => ?_⟩⟩
    exact hc.2 r (List.mem_reverse.mp hm)

/-! ## The operation between -/

/-- The parents are as the preparation left them. -/
def Steady (root : Loc) (p : Str) (w₁ w₂ : World) : Prop :=
  ∀ c ∈ chain root p, c ≠ target root p → w₂.disk.get c = w₁.disk.get c

/-- Every parent that was a directory is one again with its old mode; every other was missing,
and is a directory now if the operation creates parents. -/
def ParentsKept (create : Bool) (root : Loc) (p : Str) (d d' : Disk) : Prop :=
  ∀ c ∈ chain root p, c ≠ target root p →
    (∃ m, d.get c = some (.dir m) ∧ d'.get c = some (.dir m))
      ∨ (d.get c = none ∧ create = true ∧ d'.IsDir c)
      ∨ (d.get c = none ∧ create = false ∧ d'.get c = none)

/-- The staging area is neither below the root nor above it. -/
def Apart (root : Loc) (X : Set Loc) : Prop := ∀ x ∈ X, ¬ root <+: x ∧ ¬ x <+: root

/-- A path whose last part is a name does not spell one of its own parents. -/
theorem target_notMem_chain {init : List Str} {name : Str} (hs : split p = init ++ [name])
    (hn : isName name = true) : target root p ∉ chain root p := by
  rintro ⟨q, hq, he⟩
  rw [hs, List.dropLast_concat] at hq
  have hlen : (names q).length ≤ (names init).length := (hq.sublist.filter _).length_le
  have := congrArg List.length he
  simp only [target, hs, names_append, names_cons_name hn, List.length_append, List.length_cons]
    at this
  omega

theorem exists_split_concat (p : Str) : ∃ init name, split p = init ++ [name] := by
  rcases List.eq_nil_or_concat (split p) with hnil | ⟨init, name, hs⟩
  · exact absurd hnil (split_ne_nil p)
  · exact ⟨init, name, by rw [hs, List.concat_eq_append]⟩

theorem Clean.target_notMem (hc : Clean h w.disk root p) : target root p ∉ chain root p := by
  obtain ⟨init, name, hs⟩ := exists_split_concat p
  exact target_notMem_chain hs (hc.canonical name (by rw [hs]; simp))

theorem target_ne_root (hp : Accepted p) : target root p ≠ root := by
  obtain ⟨first, rest, hs, hn⟩ := hp.head_isName
  intro he
  have := congrArg List.length he
  simp [target, hs, names_cons_name hn] at this

section Parents

variable {w₁ w₂ : World}

theorem named_parents (hc : Clean h w.disk root p) : Named (split p).dropLast := fun part hpart =>
  named_of_canonical hc.accepted hc.canonical part (List.dropLast_subset _ hpart)

theorem Prepared.open_parent (hp : Prepared h create root (split p).dropLast w w₁ restores)
    (hc : Clean h w.disk root p) (hst : Steady root p w₁ w₂) {q : List Str}
    (hq : q <+: (split p).dropLast) : w₂.disk.get (root ++ q) = none
      ∨ ∃ m, w₂.disk.get (root ++ q) = some (.dir m) ∧ m &&& 0o300 = 0o300 := by
  have hin : root ++ q ∈ chain root p :=
    ⟨q, hq, by rw [Named.names fun part hpart => named_parents hc part (hq.subset hpart)]⟩
  rw [hst _ hin (by rintro he; exact hc.target_notMem (he ▸ hin))]
  rcases hp.dir_or_none hin with hnone | ⟨m, hm⟩
  · exact .inl hnone
  · exact .inr ⟨m, hm, hp.bits hc.reach (named_parents hc) hin hm⟩

theorem Prepared.frame_above (hX : Apart root X)
    (hp : Prepared h create root (split p).dropLast w w₁ restores) (hacc : Accepted p)
    (heff : Effect root p X w₁ w₂) {l : Loc} (hl : l <+: root) (hne : l ≠ root) :
    w₂.disk.get l = w.disk.get l := by
  rw [heff.changes.frame, hp.changes.frame (notMem_above_of_proper hl hne)]
  rintro ((hin | hin) | hin)
  · exact notMem_above_of_proper hl hne hin
  · have hlen := congrArg List.length (Set.mem_singleton_iff.mp hin)
    have hle := hl.length_le
    simp only [target, List.length_append] at hlen
    have hzero : names (split p) = [] := List.eq_nil_of_length_eq_zero (by omega)
    have htarget : target root p = root := by rw [target, hzero, List.append_nil]
    exact target_ne_root hacc htarget
  · exact (hX _ hin).2 hl

theorem Prepared.smooth_parent (hX : Apart root X)
    (hp : Prepared h create root (split p).dropLast w w₁ restores) (hroot : w.disk.IsDir root)
    (hc : Clean h w.disk root p) (heff : Effect root p X w₁ w₂) (hst : Steady root p w₁ w₂)
    {init : List Str} (hi : init <+: (split p).dropLast) : Smooth h w₂.disk (root ++ init) :=
  smooth_below hc.reach (hp.frame_above hX hc.accepted heff) (named_root hroot)
    (fun part hpart => named_parents hc part (hi.subset hpart)) fun hq _ =>
      hp.open_parent hc hst (hq.trans hi)

end Parents

theorem Prepared.kept {w₁ w₂ w₃ : World}
    (hp : Prepared h create root (split p).dropLast w w₁ restores) (hst : Steady root p w₁ w₂)
    (hres : Restored restores w₂.disk w₃.disk) : ParentsKept create root p w.disk w₃.disk := by
  intro c hc hne
  have hsame := hst c hc hne
  by_cases hr : ∃ r ∈ restores, names r.path = c
  · obtain ⟨r, hr, rfl⟩ := hr
    have hon := hres.on hr
    rw [hsame, hp.opened hr] at hon
    cases hp.each hc with
    | kept m before after hno => exact absurd rfl (hno r hr)
    | opened r' hr' he before after =>
        have := hp.opened hr
        rw [after] at this
        have hrr : r' = r := List.inj_on_of_nodup_map hp.nodup hr' hr he
        subst hrr
        exact .inl ⟨_, before, hon⟩
    | created hcreate before after => exact .inr (.inl ⟨before, hcreate, _, hon⟩)
    | absent hcreate before after =>
        have := hp.opened hr
        rw [after] at this
        cases this
  · have hoff := hres.off fun r hr' he => hr ⟨r, hr', he⟩
    rw [hsame] at hoff
    cases hp.each hc with
    | kept m before after hno => exact .inl ⟨m, before, hoff.trans after⟩
    | opened r' hr' he before after => exact absurd ⟨r', hr', he⟩ hr
    | created hcreate before after => exact .inr (.inl ⟨before, hcreate, by rwa [Disk.IsDir, hoff]⟩)
    | absent hcreate before after => exact .inr (.inr ⟨before, hcreate, hoff.trans after⟩)

/-- What `withWritableParents` makes of an operation that relates the state it starts in to
the state it ends in by `R` and does not fail when `G` holds. -/
theorem withWritableParents_spec {α : Type} {op : Fs α} {R : α → World → World → Prop}
    {G : Prop} (hX : Apart root X) (hroot : w.disk.IsDir root)
    (hgood : G → Clean h w.disk root p)
    (hop : ∀ {w₁ restores}, Accepted p → Prepared h create root (split p).dropLast w w₁ restores →
      op.wp h w₁ (fun a w₂ => Effect root p X w₁ w₂ ∧ Steady root p w₁ w₂ ∧ R a w₁ w₂)
        (fun _ w₂ => Effect root p X w₁ w₂ ∧ ¬ G)) :
    (withWritableParents root p create op).wp h w
      (fun a w' => Effect root p X w w' ∧ ParentsKept create root p w.disk w'.disk ∧ Accepted p
        ∧ ∃ w₁ w₂ restores, Prepared h create root (split p).dropLast w w₁ restores ∧ R a w₁ w₂
          ∧ ∀ c, c ∉ chain root p → w'.disk.get c = w₂.disk.get c)
      (fun _ w' => Effect root p X w w' ∧ ¬ G) := by
  unfold withWritableParents
  rw [wp_bind]
  cases hv : validateManifestPath p with
  | error e =>
      refine ⟨.refl, fun hg => ?_⟩
      rw [validateManifestPath_eq_ok.mpr (hgood hg).accepted] at hv
      cases hv
  | ok u =>
      have hacc : Accepted p := validateManifestPath_eq_ok.mp hv
      rw [wp_ofExcept_ok, wp_bind]
      refine wp_mono (preparation_spec (X := X) hroot hacc.noDotDot) ?_ (fun _ _ hf => hf.elim)
      rintro ⟨restores, prepared⟩ w₁ hprep
      cases prepared with
      | error e =>
          obtain ⟨heff, hr, hno⟩ := hprep
          have hroot₁ := heff.dir root_mem_chain (Ne.symm (target_ne_root hacc)) hroot
          dsimp only
          rw [wp_bind, wp_attempt]
          have herr : ∀ {w₂ : World}, Effect root p X w₁ w₂ →
              Effect root p X w w₂ ∧ ¬ G := fun he =>
            ⟨heff.trans he, fun hg => hno (hgood hg)⟩
          exact wp_mono (restoreParentPermissions_spec (X := X) hacc.noDotDot hroot₁ hr)
            (fun _ _ hr => herr hr.1) (fun _ _ hr => herr hr.1)
      | ok u =>
          have hp : Prepared h create root (split p).dropLast w w₁ restores := hprep
          have heff₁ : Effect root p X w w₁ := hp.effect List.prefix_rfl
          have hroot₁ := hp.root_isDir hroot
          dsimp only
          rw [wp_bind, wp_attempt]
          have hrestore : ∀ {w₂ : World}, Effect root p X w₁ w₂ →
              (restoreParentPermissions restores).wp h w₂ _ _ := fun {w₂} he =>
            restoreParentPermissions_spec (X := X) hacc.noDotDot
              (he.dir root_mem_chain (Ne.symm (target_ne_root hacc)) hroot₁)
              ((hp.restorable List.prefix_rfl).of_effect he)
          refine wp_mono (hop hacc hp) ?_ ?_
          · rintro a w₂ ⟨heff₂, hst, hR⟩
            rw [wp_bind, wp_attempt]
            refine wp_mono (hrestore heff₂) ?_ ?_
            · rintro _ w₃ ⟨heff₃, hres⟩
              have hres := hres hp.nodup
              refine ⟨(heff₁.trans heff₂).trans heff₃, hp.kept hst hres, hacc, w₁, w₂, restores, hp,
                hR, fun c hc => hres.off fun r hr he => hc ?_⟩
              obtain ⟨init, hi, hpath⟩ := hp.paths hr
              rw [← he, hpath, names_below hroot]
              exact mem_above hi
            · rintro e w₃ ⟨heff₃, hno⟩
              refine ⟨(heff₁.trans heff₂).trans heff₃, fun hg => hno ⟨hp.sorted, fun r hr => ?_⟩⟩
              have hclean := hgood hg
              obtain ⟨init, hi, hpath⟩ := hp.paths hr
              have hin : names r.path ∈ chain root p := by
                rw [hpath, names_below hroot]
                exact mem_above hi
              rw [hst _ hin (by rintro he; exact hclean.target_notMem (he ▸ hin)), hp.opened hr, hpath]
              exact ⟨hp.smooth_parent hX hroot hclean heff₂ hst hi, _, rfl⟩
          · rintro e w₂ ⟨heff₂, hno⟩
            rw [wp_bind, wp_attempt]
            exact wp_mono (hrestore heff₂)
              (fun _ _ hr => ⟨(heff₁.trans heff₂).trans hr.1, hno⟩)
              (fun _ _ hr => ⟨(heff₁.trans heff₂).trans hr.1, hno⟩)

/-! ## Inside the operation -/

theorem names_target (hroot : w.disk.IsDir root) : names (root ++ split p) = target root p :=
  names_below hroot

section Inside

variable {w₁ w₂ : World}

/-- The state in which an operation runs: the parents of its path are prepared, below a root that
is a directory, and the locations it may touch besides are apart from them. -/
structure Inside (h : Host) (create : Bool) (root : Loc) (p : Str) (X : Set Loc) (w w₁ : World)
    (restores : List PermissionRestore) : Prop where
  prepared : Prepared h create root (split p).dropLast w w₁ restores
  isDir : w.disk.IsDir root
  accepted : Accepted p
  apart : Apart root X

theorem apart_empty : Apart root ∅ := fun _ hx => hx.elim

theorem prefix_dropLast {init parts : List Str} (hi : init <+: parts) (hne : init ≠ parts) :
    init <+: parts.dropLast := by
  rcases List.eq_nil_or_concat parts with rfl | ⟨front, last, hp⟩
  · exact absurd (List.prefix_nil.mp hi) hne
  · rw [hp, List.concat_eq_append] at hi hne ⊢
    rw [List.dropLast_concat]
    exact (List.prefix_concat_iff.mp hi).resolve_left hne

theorem Inside.direct_after (hi : Inside h create root p X w w₁ restores)
    (heff : Effect root p X w₁ w₂) : Direct w₂.disk (root ++ split p) := by
  have hroot₂ := heff.dir root_mem_chain (Ne.symm (target_ne_root hi.accepted))
    (hi.prepared.root_isDir hi.isDir)
  refine direct_below hroot₂ hi.accepted.noDotDot fun hinit hne => ?_
  have hin : root ++ names _ ∈ chain root p := mem_above (prefix_dropLast hinit hne)
  exact heff.noLink hin (hi.prepared.noLink hin)

theorem Inside.smooth_after (hi : Inside h create root p X w w₁ restores)
    (hc : Clean h w.disk root p) (heff : Effect root p X w₁ w₂) (hst : Steady root p w₁ w₂) :
    Smooth h w₂.disk (root ++ split p) :=
  smooth_below hc.reach (hi.prepared.frame_above hi.apart hc.accepted heff) (named_root hi.isDir)
    (named_of_canonical hc.accepted hc.canonical) fun hq hne =>
      hi.prepared.open_parent hc hst (prefix_dropLast hq hne)

/-- The target may be created, replaced or removed, if its directory is there. -/
theorem Inside.ready_after (hi : Inside h create root p X w w₁ restores)
    (hc : Clean h w.disk root p) (heff : Effect root p X w₁ w₂) (hst : Steady root p w₁ w₂)
    (hdir : w₂.disk.IsDir (root ++ (split p).dropLast)) : Ready h w₂.disk (root ++ split p) := by
  obtain ⟨init, name, hs⟩ := exists_split_concat p
  have hsm := hi.smooth_after hc heff hst
  have hopen := hi.prepared.open_parent hc hst (List.prefix_refl _)
  obtain ⟨m, hm⟩ := hdir
  rw [hs, List.dropLast_concat] at hm hopen
  refine ⟨root ++ init, name, by rw [hs, List.append_assoc], hsm, ?_,
    isFileName_of_canonical hc.accepted hc.canonical (by rw [hs]; simp)⟩
  rcases hopen with hnone | ⟨m', hm', hb⟩
  · rw [hm] at hnone; cases hnone
  · simp only [Disk.writable, hm']
    exact canWrite_of_bits hb

theorem Prepared.parent_isDir (hp : Prepared h true root (split p).dropLast w w₁ restores)
    (hc : Clean h w.disk root p) (hst : Steady root p w₁ w₂) :
    w₂.disk.IsDir (root ++ (split p).dropLast) := by
  have hin : root ++ (split p).dropLast ∈ chain root p :=
    ⟨_, List.prefix_rfl, by rw [(named_parents hc).names]⟩
  rw [Disk.IsDir, hst _ hin (by rintro he; exact hc.target_notMem (he ▸ hin))]
  cases hp.each hin with
  | kept m before after hr => exact ⟨m, after⟩
  | opened r hr hc before after => exact ⟨_, after⟩
  | created _ before after => exact after
  | absent hcreate before after => cases hcreate

theorem parent_isDir_of_target (hc : Clean h w.disk root p) {node : Node}
    (hget : w₂.disk.get (target root p) = some node) :
    w₂.disk.IsDir (root ++ (split p).dropLast) := by
  obtain ⟨init, name, hs⟩ := exists_split_concat p
  rw [target, hc.canonical.names_split, hs, ← List.append_assoc] at hget
  rw [hs, List.dropLast_concat]
  exact Disk.isDir_of_child hget

theorem Steady.of_same (hs : Same w₁ w₂) : Steady root p w₁ w₂ := fun _ _ _ => by rw [hs.disk]

theorem Steady.trans {w₃ : World} (h₁ : Steady root p w₁ w₂) (h₂ : Steady root p w₂ w₃) :
    Steady root p w₁ w₃ := fun c hc hne => (h₂ c hc hne).trans (h₁ c hc hne)

theorem Steady.of_target {o : Option Node} (hs : Sets w₁.disk (target root p) o w₂.disk) :
    Steady root p w₁ w₂ := fun _ _ hne => hs.off (Ne.symm hne)

/-- `safe_local_path` finds the parents as the preparation left them. -/
theorem safeLocalPath_spec (hi : Inside h create root p X w w₁ restores) :
    (safeLocalPath root p create).wp h w₁ (fun path w₂ => path = root ++ split p ∧ Same w₁ w₂)
      (fun _ w₂ => Same w₁ w₂ ∧ ¬ Clean h w.disk root p) := by
  obtain ⟨hp, hroot, hacc, hX⟩ := hi
  have hpath : pathForManifest root p = .ok (root ++ split p) := by
    rw [pathForManifest, validateManifestPath_eq_ok.mpr hacc]
    rfl
  unfold safeLocalPath
  rw [wp_bind, hpath, wp_ofExcept_ok, wp_bind]
  -- the walk looks and changes nothing: with `create` no parent is missing
  refine wp_conseq (wp_foldlM
    (I := fun done parent w₂ => parent = root ++ done ∧ Same w₁ w₂) _ [] root w₁ ⟨by simp, .refl w₁⟩ ?_)
    (fun _ w₂ hI => ⟨rfl, hI.2⟩)
  rintro pre x post parent w₂ heq ⟨rfl, hsame⟩
  have hpre : pre ++ [x] <+: (split p).dropLast := ⟨post, by simpa using heq.symm⟩
  have hin : root ++ names (pre ++ [x]) ∈ chain root p := mem_above hpre
  have hd : Direct w₂.disk (root ++ (pre ++ [x])) := by
    rw [hsame.disk]
    refine direct_below (hp.root_isDir hroot) (fun hm => hacc.noDotDot ?_) fun hinit _ =>
      hp.noLink (mem_above (hinit.trans hpre))
    exact List.dropLast_subset _ (hpre.subset hm)
  unfold safeParent
  rw [wp_bind, List.append_assoc]
  refine wp_conseq (lstat_spec hd) ?_
  have hnames : names (root ++ (pre ++ [x])) = root ++ names (pre ++ [x]) := names_below hroot
  have hclean : Clean h w.disk root p → Smooth h w₂.disk (root ++ (pre ++ [x])) := fun hc =>
    hp.smooth_parent hX hroot hc (.of_same hsame) (.of_same hsame) hpre
  rintro (kind | node) w₃ hlook
  · have hs := hsame.trans hlook.same
    cases kind with
    | notFound =>
        have hnone := hlook.missing rfl
        rw [hnames, hsame.disk] at hnone
        refine wp_ite (fun hcreate => ?_) (fun _ => ⟨rfl, hs⟩)
        cases hp.each hin with
        | kept m before after hr => rw [hnone] at after; cases after
        | opened r hr hc before after => rw [hnone] at after; cases after
        | created _ before after =>
            obtain ⟨m, hm⟩ := after
            rw [hnone] at hm
            cases hm
        | absent hcreate' before after => rw [hcreate] at hcreate'; cases hcreate'
    | _ => exact ⟨hs, fun hc => hlook.blocked rfl (by decide) (hclean hc)⟩
  · have hnode := hlook.ok rfl
    rw [hnames, hsame.disk] at hnode
    rcases hp.dir_or_none hin with hnone | ⟨m, hm⟩
    · rw [hnode] at hnone; cases hnone
    · rw [hnode] at hm
      cases hm
      exact ⟨rfl, hsame.trans hlook.same⟩

theorem Prepared.then_same (hp : Prepared h create root (split p).dropLast w w₁ restores)
    (hs : Same w₁ w₂) : Prepared h create root (split p).dropLast w w₂ restores where
  changes := hp.changes.trans (.of_same hs)
  each := fun hc => (hp.each hc).of_eq_same (by rw [hs.disk])
  paths := hp.paths
  opened := fun hr => by rw [hs.disk]; exact hp.opened hr
  nodup := hp.nodup
  sorted := hp.sorted
  bits := fun hreach hn {c m} hc hm => by rw [hs.disk] at hm; exact hp.bits hreach hn hc hm

end Inside

/-- What every operation on `p` leaves behind when it succeeds, its own work apart. -/
structure Finished (create : Bool) (root : Loc) (p : Str) (X : Set Loc) (w w' : World) : Prop where
  effect : Effect root p X w w'
  parents : ParentsKept create root p w.disk w'.disk
  accepted : Accepted p

/-- An operation that looks for its target first.  `R` relates the target and everything
else but the parents before and after the operation. -/
theorem onTarget_spec {α : Type} {body : PathBuf → Fs α} {R : α → World → World → Prop}
    {G : Prop} (hX : Apart root X) (hroot : w.disk.IsDir root)
    (hgood : G → Clean h w.disk root p)
    (hbody : ∀ {w₁ restores}, Inside h create root p X w w₁ restores →
      (body (root ++ split p)).wp h w₁
        (fun a w₂ => Effect root p X w₁ w₂ ∧ Steady root p w₁ w₂ ∧ R a w₁ w₂)
        (fun _ w₂ => Effect root p X w₁ w₂ ∧ ¬ G)) :
    (withWritableParents root p create (safeLocalPath root p create >>= body)).wp h w
      (fun a w' => Finished create root p X w w' ∧ ∃ w₁ w₂,
        (∀ c, c ∉ chain root p → w₁.disk.get c = w.disk.get c) ∧ R a w₁ w₂
          ∧ ∀ c, c ∉ chain root p → w'.disk.get c = w₂.disk.get c)
      (fun _ w' => Effect root p X w w' ∧ ¬ G) := by
  refine wp_conseq (withWritableParents_spec hX hroot hgood
    (R := fun a w₁ w₂ => ∃ w₁', Same w₁ w₁' ∧ R a w₁' w₂) fun {w₁ restores} hacc hp => ?_) ?_
  · refine wp_seq (safeLocalPath_spec ⟨hp, hroot, hacc, hX⟩) ?_ ?_
    · rintro path w₂ ⟨rfl, hsame⟩
      refine wp_mono (hbody ⟨hp.then_same hsame, hroot, hacc, hX⟩) ?_ ?_
      · rintro a w₃ ⟨heff, hst, hR⟩
        exact ⟨(Effect.of_same hsame).trans heff, (Steady.of_same hsame).trans hst, w₂, hsame, hR⟩
      · rintro e w₃ ⟨heff, hno⟩
        exact ⟨(Effect.of_same hsame).trans heff, hno⟩
    · rintro e w₂ ⟨hsame, hno⟩
      exact ⟨.of_same hsame, fun hg => hno (hgood hg)⟩
  · rintro a w' ⟨heff, hkept, hacc, w₁, w₂, restores, hp, ⟨w₁', hsame, hR⟩, hend⟩
    refine ⟨⟨heff, hkept, hacc⟩, w₁', w₂, fun c hc => ?_, hR, hend⟩
    rw [hsame.disk]
    exact hp.changes.frame hc

end Writable

end Syncbox

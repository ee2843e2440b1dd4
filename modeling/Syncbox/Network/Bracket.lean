/-
# `Syncbox.Network.Bracket` — what `with_writable_parents` gives and takes back

`Writable` describes the walks around an operation for canonical paths, on any host.  Here
the host is calm — no call fails for a reason of its own — and the path is any that the
validator accepts, with doubled slashes and dots in it.  On such a host a failure is the
tree's doing, and then everything about the modes is certain: the operation is either not
run at all, or it finds every parent open, and in every case each parent that was a
directory ends with the mode it had.

The order of the two walks carries this.  The parents are opened from the root down, so
each is reached through open ones; they are closed from the deepest up, so none is closed
before those below it (`Unlocked.restore`).
-/
import Syncbox.Lib.Unix.Files
import Syncbox.Lib.Unix.Passage
import Syncbox.Network.Writable

namespace Syncbox

open Rust Unix Prog

/-! ## Places and what is kept there -/

/-- The directories on the way: those above the root of the share, the root, the parents. -/
def way (root : Loc) (parts : List Str) : Set Loc := {l | l <+: root} ∪ above root parts

/-- What was a directory on the way in `d` is in `d₂` as it is in `d₁`. -/
def WayKept (root : Loc) (parts : List Str) (d d₁ d₂ : Disk) : Prop :=
  ∀ l ∈ way root parts, d.IsDir l → d₂.get l = d₁.get l

/-- Every parent that was a directory has the mode it had. -/
def ModesKept (root : Loc) (p : Str) (d d' : Disk) : Prop :=
  ∀ c ∈ chain root p, ∀ m, d.get c = some (.dir m) → d'.get c = some (.dir m)

/-- What an operation finds: no parent is a link or anything else but a directory, those that
are there may be searched and written to, and the rest of the disk is as it was. -/
structure ParentsOpen (root : Loc) (p : Str) (d d₁ : Disk) : Prop where
  parents : ∀ c ∈ chain root p, d.get c = none ∨ d.IsDir c
  kept : ∀ c ∈ chain root p, d.IsDir c → d₁.IsDir c
  writable : ∀ c ∈ chain root p, d₁.get c = none
    ∨ ∃ m, d₁.get c = some (.dir m) ∧ m &&& 0o300 = 0o300
  off : ∀ l, l ∉ chain root p → d₁.get l = d.get l

theorem names_isPrefix {init parts : List Str} (hi : init <+: parts) : names init <+: names parts :=
  hi.filter _

section Opening

variable {h : Host} {create : Bool} {root : Loc} {p : Str} {parts : List Str} {w w₁ w₂ : World}
  {path : PathBuf} {restores : List PermissionRestore} {m : Mode}

/-! ## One parent -/

section One

variable (hno : ∀ n, h.fault n = false)
include hno

theorem prepareInspected_open {keep : Bool} (hp : Passable h w.disk path)
    (hget : w.disk.get (names path) = some (.dir m)) :
    (prepareInspectedDirectoryForWrite path (.dir m) keep restores).wp h w
      (fun _ w' => ∃ m', w'.disk.get (names path) = some (.dir m') ∧ m' &&& 0o300 = 0o300)
      (fun _ _ => False) := by
  refine wp_ite (fun hm => ⟨m, hget, hm⟩) fun hm => ?_
  refine wp_then (chmod_dir hno hp hget) ?_
  rintro r w' ⟨rfl, hdid⟩
  cases keep <;> exact ⟨_, hdid.sets.at, or_and_bits m⟩

theorem prepareDirectory_open {keep : Bool} (hp : Passable h w.disk path)
    (hget : w.disk.get (names path) = some (.dir m)) :
    (prepareDirectoryForWrite path keep restores).wp h w
      (fun _ w' => ∃ m', w'.disk.get (names path) = some (.dir m') ∧ m' &&& 0o300 = 0o300)
      (fun _ _ => False) := by
  unfold prepareDirectoryForWrite
  refine wp_context_then (lstat_dir hno hp hget) ?_
  rintro r w₁ ⟨rfl, hsame⟩
  exact prepareInspected_open hno (by rw [hsame.disk]; exact hp) (by rw [hsame.disk]; exact hget)

/-- A parent is open once it is prepared.  When it has to be created, the path ends in its
name: `hlast` excludes a dot behind a directory that is missing. -/
theorem prepareParent_open (hp : Passable h w.disk path)
    (hlast : w.disk.get (names path) = none → create = true →
      ∀ {init}, init <+: path → init ≠ path → names init ≠ names path) :
    (prepareParent create path restores).wp h w
      (fun _ w' => ∀ m, w'.disk.get (names path) = some (.dir m) → m &&& 0o300 = 0o300)
      (fun _ _ => True) := by
  have hopen : ∀ {w' : World}, (∃ m', w'.disk.get (names path) = some (.dir m') ∧ m' &&& 0o300 = 0o300) →
      ∀ m, w'.disk.get (names path) = some (.dir m) → m &&& 0o300 = 0o300 := by
    rintro w' ⟨m', hm', hb⟩ m hm
    rw [hm'] at hm
    cases hm
    exact hb
  unfold prepareParent
  refine wp_then (lstat_spec hp.direct) ?_
  rintro (kind | node) w₁ hlook
  · cases kind with
    | notFound =>
        have hnone := hlook.missing rfl
        show (if create then _ else _ : Fs _).wp h w₁ _ _
        refine wp_ite (fun hcreate => ?_) fun _ => ?_
        · refine wp_context_then (mkdir_spec (by rw [hlook.same.disk]; exact hp.direct)) ?_
          rintro r w₂ (⟨rfl, -, hdid⟩ | ⟨kind, rfl, -, -⟩)
          · have hp₂ : Passable h w₂.disk path := ⟨hp.noDotDot, fun {init} hi hne => by
              rw [hdid.sets.off (Ne.symm (hlast hnone hcreate hi hne)), hlook.same.disk]
              exact hp.passable hi hne⟩
            exact wp_mono (prepareDirectory_open hno hp₂ hdid.sets.at)
              (fun _ _ ho => hopen ho) fun _ _ hf => hf.elim
          · trivial
        · intro m hm
          rw [hlook.same.disk, hnone] at hm
          cases hm
    | _ => trivial
  · have hnode := hlook.ok rfl
    cases node with
    | dir m =>
        exact wp_mono (prepareInspected_open hno (by rw [hlook.same.disk]; exact hp)
          (by rw [hlook.same.disk]; exact hnode)) (fun _ _ ho => hopen ho) fun _ _ hf => hf.elim
    | _ => trivial

theorem prepareParent_dir (hp : Passable h w.disk path) (hdir : w.disk.IsDir (names path)) :
    (prepareParent create path restores).wp h w (fun _ _ => True) (fun _ _ => False) := by
  obtain ⟨m, hm⟩ := hdir
  unfold prepareParent
  refine wp_then (lstat_dir hno hp hm) ?_
  rintro r w₁ ⟨rfl, hsame⟩
  exact wp_mono (prepareInspected_open hno (by rw [hsame.disk]; exact hp)
    (by rw [hsame.disk]; exact hm)) (fun _ _ _ => trivial) fun _ _ hf => hf

end One

/-! ## All parents -/

/-- The state after the parents `parts` were prepared on a calm host. -/
structure Unlocked (h : Host) (create : Bool) (root : Loc) (parts : List Str) (w w' : World)
    (restores : List PermissionRestore) : Prop where
  prepared : Prepared h create root parts w w' restores
  reach : Reach h w.disk root
  bits : ∀ {c m}, c ∈ above root parts → w'.disk.get c = some (.dir m) → m &&& 0o300 = 0o300
  before : ∀ {r}, r ∈ restores → w.disk.get (names r.path) = some (.dir r.permissions)

theorem ParentStep.frame {restores' : List PermissionRestore}
    (hstep : ParentStep h create path restores w restores' w₁) {l : Loc} (hl : names path ≠ l) :
    w₁.disk.get l = w.disk.get l := by
  cases hstep with
  | kept m hget same hm => rw [same.disk]
  | opened m hget hm did => exact did.sets.off hl
  | created m hnone hcreate sets changes hm => exact sets.off hl
  | skipped hnone hcreate same => rw [same.disk]

/-- Nothing bars the way to a path below the root when every parent that is there is open. -/
theorem passable_below {d' : Disk} (hroot : Named root) (hdd : ['.', '.'] ∉ parts)
    (habove : ∀ {init}, init <+: root → init ≠ root →
      ∃ mode, d'.get init = some (.dir mode) ∧ h.canSearch mode = true)
    (hopen : ∀ {init}, init <+: parts → init ≠ parts → d'.get (root ++ names init) = none
      ∨ ∃ m, d'.get (root ++ names init) = some (.dir m) ∧ m &&& 0o300 = 0o300) :
    Passable h d' (root ++ parts) where
  noDotDot := by
    intro hmem
    rcases List.mem_append.mp hmem with hmem | hmem
    · exact (hroot _ hmem).2 rfl
    · exact hdd hmem
  passable := by
    have hsearch : ∀ {init}, init <+: parts → init ≠ parts → d'.get (root ++ names init) = none
        ∨ ∃ mode, d'.get (root ++ names init) = some (.dir mode) ∧ h.canSearch mode = true :=
      fun hi hne => (hopen hi hne).imp id fun ⟨m, hm, hb⟩ => ⟨m, hm, canSearch_of_bits hb⟩
    intro init hi hne
    rcases prefix_within_or_beyond hi with hpre | ⟨q, hq, rfl⟩
    · rw [Named.names fun part hp => hroot part (hpre.subset hp)]
      by_cases he : init = root
      · subst he
        have := @hsearch [] List.nil_prefix (by rintro rfl; exact hne (by simp))
        simpa [names] using this
      · exact .inr (habove hpre he)
    · rw [names_append, hroot.names]
      exact hsearch hq (by rintro rfl; exact hne rfl)

namespace Unlocked

variable {component : Str} {c : Loc} (ho : Unlocked h create root parts w w₁ restores)
include ho

theorem dir_or_none (hc : c ∈ above root parts) :
    w₁.disk.get c = none ∨ ∃ m, w₁.disk.get c = some (.dir m) ∧ m &&& 0o300 = 0o300 :=
  (ho.prepared.dir_or_none hc).imp id fun ⟨m, hm⟩ => ⟨m, hm, ho.bits hc hm⟩

theorem search {init : Loc} (hi : init <+: root) (hne : init ≠ root) :
    ∃ mode, w₁.disk.get init = some (.dir mode) ∧ h.canSearch mode = true := by
  rw [ho.prepared.changes.frame (notMem_above_of_proper hi hne)]
  exact ho.reach.search hi hne

theorem passable_next (hroot : w.disk.IsDir root) (hdd : ['.', '.'] ∉ parts ++ [component]) :
    Passable h w₁.disk (root ++ (parts ++ [component])) := by
  refine passable_below (named_root hroot) hdd ho.search fun {init} hi hne => ?_
  rcases List.prefix_concat_iff.mp hi with rfl | hi
  · exact absurd rfl hne
  · exact ho.dir_or_none (mem_above hi)

theorem step {restores' : List PermissionRestore} (hroot : w.disk.IsDir root)
    (hstep : ParentStep h create (root ++ (parts ++ [component])) restores w₁ restores' w₂)
    (hbits : ∀ m, w₂.disk.get (names (root ++ (parts ++ [component]))) = some (.dir m) →
      m &&& 0o300 = 0o300) :
    Unlocked h create root (parts ++ [component]) w w₂ restores' := by
  have hloc : names (root ++ (parts ++ [component])) = root ++ names (parts ++ [component]) :=
    names_below hroot
  refine ⟨ho.prepared.step hroot hstep, ho.reach, fun {c m} hc hm => ?_, ?_⟩
  · by_cases he : names (root ++ (parts ++ [component])) = c
    · subst he
      exact hbits m hm
    · rw [hstep.frame he] at hm
      refine ho.bits ((mem_above_concat.mp hc).resolve_right fun hc => he ?_) hm
      rw [hloc, hc]
  · -- only a parent that was not open yet is added, so it is met for the first time
    cases hstep with
    | kept m hget same hm => exact ho.before
    | created m hnone hcreate sets changes hm => exact ho.before
    | skipped hnone hcreate same => exact ho.before
    | opened m hget hm did =>
        intro r hr
        rcases List.mem_append.mp hr with hr | hr
        · exact ho.before hr
        · rw [List.mem_singleton.mp hr]
          have hnew : names (root ++ (parts ++ [component])) ∉ above root parts := fun hin =>
            hm (ho.bits hin hget)
          rw [← ho.prepared.changes.frame hnew]
          exact hget

end Unlocked

/-- The preparation stopped at some parent, with the ones before it open. -/
def Stranded (h : Host) (create : Bool) (root : Loc) (p : Str) (w : World)
    (restores : List PermissionRestore) (w' : World) : Prop :=
  ∃ parts w₁, parts <+: (split p).dropLast ∧ Unlocked h create root parts w w₁ restores
    ∧ ∀ l, w₁.disk.IsDir l → w'.disk.get l = w₁.disk.get l

/-- The root can be reached and every parent is a directory: nothing stops the preparation. -/
def Openable (h : Host) (root : Loc) (p : Str) (d : Disk) : Prop :=
  Reach h d root ∧ ∀ c ∈ chain root p, d.IsDir c

theorem Unlocked.dir (ho : Unlocked h create root parts w w₁ restores) {c : Loc}
    (hdir : w.disk.IsDir c) : w₁.disk.IsDir c := by
  by_cases hc : c ∈ above root parts
  · obtain ⟨m, hm⟩ := hdir
    cases ho.prepared.each hc with
    | kept m before after hr => exact ⟨m, after⟩
    | opened r hr heq before after => exact ⟨_, after⟩
    | created hcreate before after => exact after
    | absent hcreate before after => rw [hm] at before; cases before
  · rwa [Disk.IsDir, ho.prepared.changes.frame hc]

theorem ParentFailure.keeps {w' : World} (hf : ParentFailure path w w') {l : Loc}
    (hl : w.disk.IsDir l) : w'.disk.get l = w.disk.get l := by
  rcases hf with hsame | ⟨hnone, -, m, hsets⟩
  · rw [hsame.disk]
  · refine hsets.off ?_
    rintro rfl
    obtain ⟨m', hm'⟩ := hl
    rw [hnone] at hm'
    cases hm'

theorem prepareParents_opened (hno : ∀ n, h.fault n = false) (hroot : w.disk.IsDir root)
    (hdd : ['.', '.'] ∉ split p) :
    ∀ {rest parts : List Str} {restores : List PermissionRestore} {w₁ : World},
      parts ++ rest = (split p).dropLast → Unlocked h create root parts w w₁ restores →
      (prepareParents create rest (root ++ parts) restores).wp h w₁
        (fun x w' => match x.2 with
          | .ok () => Unlocked h create root (split p).dropLast w w' x.1
          | .error _ => Stranded h create root p w x.1 w' ∧ ¬ Openable h root p w.disk)
        (fun _ _ => False)
  | [], parts, restores, w₁, heq, ho => by
      rw [List.append_nil] at heq
      subst heq
      exact ho
  | component :: rest, parts, restores, w₁, heq, ho => by
      have hpre : parts ++ [component] <+: (split p).dropLast := by
        rw [← heq]
        exact ⟨rest, by simp⟩
      have hnodd : ['.', '.'] ∉ parts ++ [component] := fun hm =>
        hdd (List.dropLast_subset _ (hpre.subset hm))
      have hpass := ho.passable_next hroot hnodd
      -- a part that names nothing stands for a parent that is already there
      have hlast : w₁.disk.get (names (root ++ (parts ++ [component]))) = none → create = true →
          ∀ {init}, init <+: root ++ (parts ++ [component]) → init ≠ root ++ (parts ++ [component]) →
            names init ≠ names (root ++ (parts ++ [component])) := by
        intro hnone hcreate init hi hne he
        have hshort : init <+: root ++ parts := by
          rw [← List.append_assoc] at hi hne
          exact (List.prefix_concat_iff.mp hi).resolve_left hne
        have hsame : names (root ++ parts) = names (root ++ (parts ++ [component])) := by
          refine (names_isPrefix ⟨[component], by simp⟩).eq_of_length_le ?_
          rw [← he]
          exact (names_isPrefix hshort).length_le
        rw [← hsame, names_below hroot] at hnone
        have hown : root ++ names parts ∈ above root parts := mem_above List.prefix_rfl
        cases ho.prepared.each hown with
        | kept m before after hr => rw [hnone] at after; cases after
        | opened r hr hc before after => rw [hnone] at after; cases after
        | created hcreate before after =>
            obtain ⟨m, hm⟩ := after
            rw [hnone] at hm
            cases hm
        | absent hcreate' before after => rw [hcreate] at hcreate'; cases hcreate'
      have hblame : (prepareParent create (root ++ (parts ++ [component])) restores).wp h w₁
          (fun _ _ => True) (fun _ _ => ¬ Openable h root p w.disk) := by
        by_cases hdir : w.disk.IsDir (root ++ names (parts ++ [component]))
        · refine wp_mono (prepareParent_dir hno hpass ?_) (fun _ _ hx => hx) fun _ _ hf => hf.elim
          rw [names_below hroot]
          exact ho.dir hdir
        · exact wp_of_forall (fun _ _ => trivial) fun _ _ hopen => hdir (hopen.2 _ (mem_above hpre))
      unfold prepareParents
      rw [wp_bind, wp_attempt, List.append_assoc]
      refine wp_mono (wp_both (wp_both (prepareParent_spec hpass.direct)
        (prepareParent_open hno hpass hlast)) hblame) ?_ ?_
      · rintro restores' w₂ ⟨⟨hstep, hbits⟩, -⟩
        exact prepareParents_opened hno hroot hdd (by simpa using heq) (ho.step hroot hstep hbits)
      · rintro e w₂ ⟨⟨⟨hfail, -⟩, -⟩, hblame⟩
        exact ⟨⟨parts, w₁, (List.prefix_append _ _).trans hpre, ho, fun l hl => hfail.keeps hl⟩, hblame⟩

theorem prepareRoot_opened (create : Bool) (hno : ∀ n, h.fault n = false)
    (hroot : w.disk.IsDir root) :
    (prepareDirectoryForWrite root true []).wp h w
      (fun restores w' => Unlocked h create root [] w w' restores)
      (fun _ w' => Same w w' ∧ ¬ Reach h w.disk root) := by
  have hnames := names_root hroot
  have hone : ∀ {c}, c ∈ above root [] → c = root := by
    rintro c ⟨init, hi, rfl⟩
    rw [List.prefix_nil.mp hi]
    simp [names]
  by_cases hreach : Reach h w.disk root
  · obtain ⟨m, hm⟩ := hroot
    have hpass : Passable h w.disk root :=
      ⟨(direct_root ⟨m, hm⟩).noDotDot, fun {init} hi hne => by
        rw [Named.names fun part hp => named_root ⟨m, hm⟩ part (hi.subset hp)]
        exact .inr (hreach.search hi hne)⟩
    refine wp_mono (wp_both (prepareRoot_spec create ⟨m, hm⟩)
      (prepareDirectory_open hno hpass (by rw [hnames]; exact hm))) ?_ fun _ _ hs => hs.2.elim
    rintro restores w₁ ⟨hprepared, m', hm', hb⟩
    refine ⟨hprepared, hreach, fun {c m₁} hc hm₁ => ?_, fun {r} hr => ?_⟩
    · rw [hone hc, ← hnames, hm'] at hm₁
      cases hm₁
      exact hb
    · obtain ⟨init, hi, hpath⟩ := hprepared.paths hr
      rw [List.prefix_nil.mp hi, List.append_nil] at hpath
      rw [hpath, hnames]
      cases hprepared.each root_mem_above with
      | kept m₁ before after hr' => exact absurd (by rw [hpath, hnames]) (hr' r hr)
      | opened r' hr' hc before after =>
          obtain rfl : r' = r := List.inj_on_of_nodup_map hprepared.nodup hr' hr (by
            rw [hc, hpath, hnames])
          exact before
      | created hcreate before after => rw [hm] at before; cases before
      | absent hcreate before after => rw [hm] at before; cases before
  · unfold prepareDirectoryForWrite
    rw [wp_bind, wp_context]
    refine wp_mono (wp_both (lstat_spec (E := fun _ _ => False) (direct_root hroot))
      (callAt_searched (E := fun _ _ => False) (named_root hroot) (direct_root hroot) (by simp))) ?_
      fun _ _ hf => hf.1.elim
    rintro (kind | node) w₁ ⟨hlook, hsearched⟩
    · exact ⟨hlook.same, hreach⟩
    · exact absurd ⟨hno, fun hi hne => hsearched rfl hi hne⟩ hreach

theorem preparation_opened (create : Bool) (hno : ∀ n, h.fault n = false)
    (hroot : w.disk.IsDir root) (hdd : ['.', '.'] ∉ split p) :
    (preparation root p create).wp h w
      (fun x w' => match x.2 with
        | .ok () => Unlocked h create root (split p).dropLast w w' x.1
        | .error _ => (Stranded h create root p w x.1 w' ∨ x.1 = [] ∧ Same w w')
            ∧ ¬ Openable h root p w.disk)
      (fun _ _ => False) := by
  unfold preparation
  rw [wp_bind, wp_attempt]
  refine wp_mono (prepareRoot_opened create hno hroot) ?_ fun e w₁ hfail =>
    ⟨.inr ⟨rfl, hfail.1⟩, fun hopen => hfail.2 hopen.1⟩
  intro restores w₁ ho
  have := prepareParents_opened hno hroot hdd (List.nil_append (split p).dropLast) ho
  rw [List.append_nil] at this
  refine wp_conseq this ?_
  rintro ⟨restores', prepared⟩ w₂ hx
  cases prepared with
  | ok u => exact hx
  | error e => exact ⟨.inl hx.1, hx.2⟩

/-! ## The modes put back -/

/-- The loop, in the order in which it runs: no directory is closed before one below it. -/
theorem restoreLoop_calm (hno : ∀ n, h.fault n = false) :
    ∀ {restores : List PermissionRestore} {w : World},
      (restores.Pairwise fun r r' => ¬ names r.path <+: names r'.path) →
      (∀ r ∈ restores, Passable h w.disk r.path ∧ w.disk.IsDir (names r.path)) →
      (restores.foldlM (fun _ r => restoreParentPermission r) ()).wp h w
        (fun _ w' => Restored restores w.disk w'.disk) (fun _ _ => False)
  | [], w, _, _ => ⟨by simp, fun _ => rfl⟩
  | r :: restores, w, horder, hall => by
      obtain ⟨hfirst, horder⟩ := List.pairwise_cons.mp horder
      obtain ⟨hpass, m, hm⟩ := hall r List.mem_cons_self
      rw [List.foldlM_cons, wp_bind, restoreParentPermission, wp_context]
      refine wp_conseq (chmod_dir hno hpass hm) ?_
      rintro _ w₁ ⟨rfl, hdid⟩
      have hne : ∀ r' ∈ restores, names r.path ≠ names r'.path := fun r' hr' he =>
        hfirst r' hr' (he ▸ List.prefix_rfl)
      have hrest : ∀ r' ∈ restores, Passable h w₁.disk r'.path ∧ w₁.disk.IsDir (names r'.path) := by
        intro r' hr'
        obtain ⟨hpass', hdir'⟩ := hall r' (List.mem_cons_of_mem _ hr')
        refine ⟨⟨hpass'.noDotDot, fun {init} hi hni => ?_⟩, ?_⟩
        · rw [hdid.sets.off fun he => hfirst r' hr' (he ▸ names_isPrefix hi)]
          exact hpass'.passable hi hni
        · rwa [Disk.IsDir, hdid.sets.off (hne r' hr')]
      refine wp_conseq (restoreLoop_calm hno horder hrest) fun _ w₂ hres => ?_
      refine ⟨fun {r'} hr' => ?_, fun {c} hc => ?_⟩
      · rcases List.mem_cons.mp hr' with rfl | hr'
        · rw [hres.off fun r'' hr'' => Ne.symm (hne r'' hr''), hdid.sets.at, hm]
          rfl
        · rw [hres.on hr', hdid.sets.off (hne r' hr')]
      · rw [hres.off fun r' hr' => hc r' (List.mem_cons_of_mem _ hr'),
          hdid.sets.off (hc r List.mem_cons_self)]

/-- The modes come back when the way to the parents is as the preparation left it. -/
theorem Unlocked.restore (ho : Unlocked h create root parts w w₁ restores) (hroot : w.disk.IsDir root)
    (hdd : ['.', '.'] ∉ parts) (hkept : WayKept root parts w.disk w₁.disk w₂.disk) :
    (restoreParentPermissions restores).wp h w₂
      (fun _ w₃ => (∀ c ∈ above root parts, ∀ m, w.disk.get c = some (.dir m) →
          w₃.disk.get c = some (.dir m))
        ∧ ∀ c, c ∉ above root parts → w₃.disk.get c = w₂.disk.get c)
      (fun _ _ => False) := by
  have hloc : ∀ {init}, names (root ++ init) = root ++ names init := names_below hroot
  have hin : ∀ {r}, r ∈ restores → names r.path ∈ above root parts := fun hr => by
    obtain ⟨init, hi, hpath⟩ := ho.prepared.paths hr
    rw [hpath, hloc]
    exact mem_above hi
  have horder : restores.reverse.Pairwise fun r r' => ¬ names r.path <+: names r'.path := by
    rw [List.pairwise_reverse]
    have hne : restores.Pairwise fun r r' => names r.path ≠ names r'.path :=
      List.pairwise_map.mp ho.prepared.nodup
    refine (ho.prepared.sorted.and hne).imp_of_mem fun {r r'} hr hr' hlt hpre => hlt.2 ?_
    obtain ⟨init, hi, hpath⟩ := ho.prepared.paths hr
    obtain ⟨init', hi', hpath'⟩ := ho.prepared.paths hr'
    have hlen := hlt.1
    rw [hpath, hpath'] at hlen hpre ⊢
    have hshort : root ++ init <+: root ++ init' := (List.prefix_append_right_inj root).mpr
      (List.prefix_of_prefix_length_le hi hi' (by simp only [List.length_append] at hlen; omega))
    exact (names_isPrefix hshort).eq_of_length_le hpre.length_le
  have hready : ∀ r ∈ restores.reverse, Passable h w₂.disk r.path ∧ w₂.disk.IsDir (names r.path) := by
    intro r hr
    have hr := List.mem_reverse.mp hr
    have hdir : w.disk.IsDir (names r.path) := ⟨_, ho.before hr⟩
    obtain ⟨init, hi, hpath⟩ := ho.prepared.paths hr
    constructor
    · rw [hpath]
      refine passable_below (named_root hroot) (fun hm => hdd (hi.subset hm)) ?_ ?_
      · intro l hl hne
        rw [hkept l (.inl hl) (Disk.isDir_of_isPrefix hroot hl)]
        exact ho.search hl hne
      · intro q hq _
        have hqin : root ++ names q ∈ above root parts := mem_above (hq.trans hi)
        rw [hkept _ (.inr hqin) (Disk.isDir_of_isPrefix hdir (by
          rw [hpath, hloc]
          exact (List.prefix_append_right_inj root).mpr (names_isPrefix hq)))]
        exact ho.dir_or_none hqin
    · rw [Disk.IsDir, hkept _ (.inr (hin hr)) hdir]
      exact ⟨_, ho.prepared.opened hr⟩
  refine wp_conseq (restoreLoop_calm ho.reach.noFault horder hready) fun _ w₃ hres => ?_
  have hoff : ∀ {c}, (∀ r ∈ restores, names r.path ≠ c) → w₃.disk.get c = w₂.disk.get c :=
    fun hc => hres.off fun r hr => hc r (List.mem_reverse.mp hr)
  refine ⟨fun c hc m hm => ?_, fun c hc => hoff fun r hr he => hc (he ▸ hin hr)⟩
  have hkc := hkept c (.inr hc) ⟨m, hm⟩
  cases ho.prepared.each hc with
  | kept m' before after hr =>
      rw [hm] at before
      cases before
      rw [hoff hr, hkc, after]
  | opened r hr heq before after =>
      rw [hm] at before
      cases before
      rw [← heq, hres.on (List.mem_reverse.mpr hr), heq, hkc, after]
      rfl
  | created hcreate before after => rw [hm] at before; cases before
  | absent hcreate before after => rw [hm] at before; cases before

theorem Unlocked.parentsOpen (ho : Unlocked h create root (split p).dropLast w w₁ restores) :
    ParentsOpen root p w.disk w₁.disk where
  parents := by
    intro c hc
    cases ho.prepared.each hc with
    | kept m before after hr => exact .inr ⟨m, before⟩
    | opened r hr heq before after => exact .inr ⟨_, before⟩
    | created hcreate before after => exact .inl before
    | absent hcreate before after => exact .inl before
  kept := fun _ _ hdir => ho.dir hdir
  writable := fun c hc => ho.dir_or_none hc
  off := fun _ hl => ho.prepared.changes.frame hl

theorem Stranded.restore {w' : World} (hs : Stranded h create root p w restores w')
    (hroot : w.disk.IsDir root) (hdd : ['.', '.'] ∉ split p) :
    (restoreParentPermissions restores).wp h w' (fun _ w₃ => ModesKept root p w.disk w₃.disk)
      (fun _ _ => False) := by
  obtain ⟨parts, w₁, hpre, ho, hkeeps⟩ := hs
  have hframe : ∀ {l}, l ∉ above root parts → w₁.disk.get l = w.disk.get l := ho.prepared.changes.frame
  have hkept : WayKept root parts w.disk w₁.disk w'.disk := fun l _ hdir => hkeeps l (ho.dir hdir)
  refine wp_conseq (ho.restore hroot (fun hm => hdd (List.dropLast_subset _ (hpre.subset hm)))
    hkept) ?_
  rintro _ w₃ ⟨hon, hoff⟩ c hc m hm
  by_cases hin : c ∈ above root parts
  · exact hon c hin m hm
  · rw [hoff c hin, hkeeps c ⟨m, by rw [hframe hin]; exact hm⟩, hframe hin]
    exact hm

end Opening

/-! ## The bracket -/

section Bracket

variable {h : Host} {root : Loc} {w : World}

/-- What is left of `with_writable_parents` once the parents are prepared. -/
def closing {α : Type} (op : Fs α) (restores : List PermissionRestore) : Fs α := do
  let result ← Prog.attempt op
  let restoreResult ← Prog.attempt (restoreParentPermissions restores)
  settle result restoreResult

/-- The modes come back when the operation leaves the way as it found it. -/
theorem Unlocked.closing_spec {create : Bool} {p : Str} {restores : List PermissionRestore} {w₁ : World}
    (ho : Unlocked h create root (split p).dropLast w w₁ restores) (hroot : w.disk.IsDir root)
    (hacc : Accepted p) {α : Type} {op : Fs α}
    (hop : op.wp h w₁ (fun _ w₂ => WayKept root (split p).dropLast w.disk w₁.disk w₂.disk)
      (fun _ w₂ => WayKept root (split p).dropLast w.disk w₁.disk w₂.disk)) :
    (closing op restores).wp h w₁
      (fun a w' => ModesKept root p w.disk w'.disk ∧ ∃ w₂, op h w₁ = .ok a w₂)
      (fun e w' => ModesKept root p w.disk w'.disk ∧ ∃ w₂, op h w₁ = .error e w₂) := by
  have hdd : ['.', '.'] ∉ (split p).dropLast := fun hm => hacc.noDotDot (List.dropLast_subset _ hm)
  have hclose : ∀ {w₂ : World}, WayKept root (split p).dropLast w.disk w₁.disk w₂.disk →
      (Prog.attempt (restoreParentPermissions restores) : Fs (Except Error Unit)).wp h w₂
        (fun r w₃ => r = .ok () ∧ ModesKept root p w.disk w₃.disk) (fun _ _ => False) := by
    intro w₂ hkept
    rw [wp_attempt]
    exact wp_mono (ho.restore hroot hdd hkept) (fun _ w₃ hres => ⟨rfl, hres.1⟩)
      fun _ _ hf => hf.elim
  unfold closing
  rw [wp_bind, wp_attempt]
  refine wp_mono (wp_both hop (wp_self op h w₁)) ?_ ?_
  · rintro a w₂ ⟨hkept, hop⟩
    refine wp_seq (hclose hkept) ?_ fun _ _ hf => hf.elim
    rintro r w₃ ⟨rfl, hmodes⟩
    exact ⟨hmodes, w₂, hop⟩
  · rintro e w₂ ⟨hkept, hop⟩
    refine wp_seq (hclose hkept) ?_ fun _ _ hf => hf.elim
    rintro r w₃ ⟨rfl, hmodes⟩
    exact ⟨hmodes, w₂, hop⟩

/-- The two ways `with_writable_parents` may go on a calm host, with the state in which the
operation is run. -/
theorem withWritableParents_cases (hno : ∀ n, h.fault n = false) (hroot : w.disk.IsDir root)
    (p : Str) (create : Bool) :
    (∃ e w', ModesKept root p w.disk w'.disk ∧ ¬ (Accepted p ∧ Openable h root p w.disk)
        ∧ ∀ {α : Type} (op : Fs α), withWritableParents root p create op h w = .error e w')
      ∨ Accepted p ∧ ∃ restores w₁, Unlocked h create root (split p).dropLast w w₁ restores
        ∧ ∀ {α : Type} (op : Fs α),
          withWritableParents root p create op h w = closing op restores h w₁ := by
  cases hv : validateManifestPath p with
  | error e =>
      refine .inl ⟨e, w, fun c hc m hm => hm, fun hgood => ?_, fun op => ?_⟩
      · rw [validateManifestPath_eq_ok.mpr hgood.1] at hv
        cases hv
      · unfold withWritableParents
        rw [run_bind, hv]
        rfl
  | ok u =>
      have hacc := validateManifestPath_eq_ok.mp hv
      obtain ⟨⟨restores, prepared⟩, w₁, hrun, hprep⟩ :=
        exists_ok_of_wp (preparation_opened create hno hroot hacc.noDotDot)
      cases prepared with
      | ok u =>
          refine .inr ⟨hacc, restores, w₁, hprep, fun op => ?_⟩
          unfold withWritableParents
          rw [run_bind, hv]
          show (preparation root p create >>= fun _ => _) h w = _
          rw [run_bind, hrun]
          rfl
      | error e =>
          obtain ⟨hprep, hblame⟩ := hprep
          obtain ⟨_, w', hback, hmodes⟩ : ∃ u w', restoreParentPermissions restores h w₁ = .ok u w'
              ∧ ModesKept root p w.disk w'.disk := by
            rcases hprep with hstuck | ⟨hnil, hsame⟩
            · exact exists_ok_of_wp (hstuck.restore hroot hacc.noDotDot)
            · obtain rfl : restores = [] := hnil
              exact ⟨(), w₁, rfl, fun c _ m hm => by rw [hsame.disk]; exact hm⟩
          refine .inl ⟨e, w', hmodes, fun hgood => hblame hgood.2, fun op => ?_⟩
          unfold withWritableParents
          rw [run_bind, hv]
          show (preparation root p create >>= fun _ => _) h w = _
          rw [run_bind, hrun]
          show (Prog.attempt (restoreParentPermissions restores) >>= fun _ => _) h w₁ = _
          rw [run_bind, Prog.attempt, hback]
          rfl

/-- On a calm host `with_writable_parents` does one of two things.  Either it fails without
running the operation — its result does not depend on it.  Or the operation is run with
every parent open, and its own result is the result: no mode fails to be put back.  In both
cases every parent that was a directory has the mode it had. -/
theorem withWritableParents_bracket (hno : ∀ n, h.fault n = false) (hroot : w.disk.IsDir root)
    (p : Str) (create : Bool) :
    (∃ e w', ModesKept root p w.disk w'.disk ∧ ∀ {α : Type} (op : Fs α),
        withWritableParents root p create op h w = .error e w')
      ∨ ∃ w₁, ParentsOpen root p w.disk w₁.disk ∧ ∀ {α : Type} (op : Fs α),
        op.wp h w₁ (fun _ w₂ => WayKept root (split p).dropLast w.disk w₁.disk w₂.disk)
          (fun _ w₂ => WayKept root (split p).dropLast w.disk w₁.disk w₂.disk) →
        (withWritableParents root p create op).wp h w
          (fun a w' => ModesKept root p w.disk w'.disk ∧ ∃ w₂, op h w₁ = .ok a w₂)
          (fun e w' => ModesKept root p w.disk w'.disk ∧ ∃ w₂, op h w₁ = .error e w₂) := by
  rcases withWritableParents_cases hno hroot p create with
    ⟨e, w', hmodes, -, hrun⟩ | ⟨hacc, restores, w₁, ho, hrun⟩
  · exact .inl ⟨e, w', hmodes, hrun⟩
  · refine .inr ⟨w₁, ho.parentsOpen, fun op hop => ?_⟩
    rw [wp_congr (hrun op)]
    exact ho.closing_spec hroot hacc hop

end Bracket

end Syncbox

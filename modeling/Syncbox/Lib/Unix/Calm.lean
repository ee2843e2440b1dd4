/-
# `Unix.Calm` — calls that nothing prevents

On a host without faults a call does what its path and the disk say, so that its outcome can
be computed (`wp_callAt_calm`).  The rules here are for a directory that is there and can be
reached (`Searched`) and for the entries in it.
-/
import Syncbox.Lib.Unix.Files

namespace Unix

open Rust Prog

/-- Every directory on the way to the entries of `dir` is there and can be searched. -/
def Searched (h : Host) (d : Disk) (dir : Loc) : Prop :=
  ∀ {init}, init <+: dir → ∃ mode, d.get init = some (.dir mode) ∧ h.canSearch mode = true

variable {ε α : Type} {E : ε → World → Prop} {h : Host} {w : World} {dir : Loc} {name : Str}

theorem Searched.isDir {d : Disk} (hs : Searched h d dir) : d.IsDir dir := by
  obtain ⟨mode, hm, -⟩ := hs List.prefix_rfl
  exact ⟨mode, hm⟩

theorem Searched.named {d : Disk} (hs : Searched h d dir) : Named dir := by
  obtain ⟨mode, hm, -⟩ := hs List.prefix_rfl
  intro part hp
  have := Disk.isFileName_of_get hm part hp
  refine ⟨Disk.isName_of_isFileName this, ?_⟩
  rintro rfl
  cases this

theorem Searched.smooth {d : Disk} (hs : Searched h d dir) (hno : ∀ n, h.fault n = false)
    (hname : isFileName name = true) : Smooth h d (dir ++ [name]) where
  noFault := hno
  named := by
    intro part hp
    rcases List.mem_append.mp hp with hp | hp
    · exact hs.named part hp
    · rw [List.mem_singleton.mp hp]
      refine ⟨Disk.isName_of_isFileName hname, ?_⟩
      rintro rfl
      cases hname
  passable := by
    intro init hi hne
    rcases List.prefix_concat_iff.mp hi with rfl | hi
    · exact absurd rfl hne
    · exact .inr (hs hi)

theorem Searched.resolve_entry {d : Disk} (hs : Searched h d dir) (hno : ∀ n, h.fault n = false)
    (hname : isFileName name = true) :
    Unix.resolve h d .never (dir ++ [name]) = .ok (.entry dir name false) := by
  have hres := @Smooth.resolve h d .never dir name (hs.smooth hno hname) (by simp)
  rwa [if_pos hs.isDir] at hres

theorem Searched.resolve {d : Disk} {follow : Follow} (hs : Searched h d dir)
    (hno : ∀ n, h.fault n = false) : ∃ place, resolve h d follow dir = .ok place
      ∧ place.loc = dir ∧ (∀ {parent last slash}, place = .entry parent last slash → slash = false)
      ∧ ∃ mode, d.nodeAt place = .ok (.dir mode) := by
  obtain ⟨mode, hm, -⟩ := hs List.prefix_rfl
  rcases List.eq_nil_or_concat' dir with rfl | ⟨parent, last, rfl⟩
  · refine ⟨.dir [], rfl, rfl, fun he => (by cases he), mode, ?_⟩
    unfold Disk.nodeAt
    rw [Place.loc, hm]
  · have habove : Searched h d parent := fun hi => hs (hi.trans (List.prefix_append ..))
    have hlink : ¬ d.IsLink (parent ++ [last]) := by
      rintro ⟨target, ht⟩
      rw [hm] at ht
      cases ht
    have hname := (d.tree hm).1
    have hres := @Smooth.resolve h d follow parent last (habove.smooth hno hname) fun _ => hlink
    rw [if_pos habove.isDir] at hres
    refine ⟨_, hres, rfl, ?_, mode, ?_⟩
    · intro p n s he
      cases he
      rfl
    · unfold Disk.nodeAt
      rw [Place.loc, hm]

theorem wp_callAt_calm {follow : Follow} {path : PathBuf} {place : Place}
    {core : Host → Nat → Disk → Place → Except IoKind (α × Disk × Log)}
    {Q : Except IoKind α → World → Prop} (hno : ∀ n, h.fault n = false)
    (hr : resolve h w.disk follow path = .ok place)
    (hok : ∀ {a d log}, core h w.calls w.disk place = .ok (a, d, log) →
      Q (.ok a) ⟨d, w.calls + 1, log ++ w.log⟩)
    (herr : ∀ {kind}, core h w.calls w.disk place = .error kind →
      Q (.error kind) { w with calls := w.calls + 1 }) :
    (callAt follow path core : Prog Host ε World _).wp h w Q E := by
  refine wp_call (fun a d log hc => ?_) fun kind hc => ?_
  · rw [hr] at hc
    exact hok hc
  · rcases hc with ⟨hf, -⟩ | hc
    · rw [hno] at hf
      cases hf
    · rw [hr] at hc
      exact herr hc

/-! ## A directory that is there -/

section Directory

variable (hs : Searched h w.disk dir) (hno : ∀ n, h.fault n = false)
include hs hno

theorem mkdir_there : (mkdir dir : Prog Host ε World _).wp h w
    (fun r w' => r = .error .alreadyExists ∧ w'.disk = w.disk) E := by
  obtain ⟨place, hr, hloc, -, mode, hnode⟩ := @Searched.resolve h dir w.disk .never hs hno
  have hget := nodeAt_ok hnode
  refine wp_callAt_calm hno hr (fun hc => ?_) fun hc => ?_
  · rcases place with _ | ⟨parent, last, slash⟩
    · cases hc
    · rw [Place.loc] at hget
      simp only [hget] at hc
      cases hc
  · rcases place with _ | ⟨parent, last, slash⟩
    · cases hc
      exact ⟨rfl, rfl⟩
    · rw [Place.loc] at hget
      simp only [hget] at hc
      cases hc
      exact ⟨rfl, rfl⟩

theorem stat_there : (stat dir : Prog Host ε World _).wp h w
    (fun r w' => (∃ mode, r = .ok (.dir mode)) ∧ w'.disk = w.disk) E := by
  obtain ⟨place, hr, -, -, mode, hnode⟩ := @Searched.resolve h dir w.disk .always hs hno
  refine wp_callAt_calm hno hr (fun hc => ?_) fun hc => ?_
  · rw [hnode] at hc
    cases hc
    exact ⟨⟨mode, rfl⟩, rfl⟩
  · rw [hnode] at hc
    cases hc

theorem createDirAll_there : (createDirAll dir : Prog Host ε World _).wp h w
    (fun r w' => r = .ok () ∧ w'.disk = w.disk) E := by
  unfold createDirAll
  refine wp_then (mkdir_there hs hno) ?_
  rintro r w₁ ⟨rfl, hdisk⟩
  dsimp only
  unfold unlessDir pathIsDir
  rw [wp_bind, wp_bind]
  refine wp_conseq (@stat_there _ _ _ w₁ _ (by rw [hdisk]; exact hs) hno) ?_
  rintro r w₂ ⟨⟨mode, rfl⟩, hdisk₂⟩
  exact ⟨rfl, hdisk₂.trans hdisk⟩

theorem openRead_there {mode : Mode} (hget : w.disk.get dir = some (.dir mode))
    (hread : h.canRead mode = true) : (openRead dir : Prog Host ε World _).wp h w
    (fun r w' => r = .ok dir ∧ w'.disk = w.disk) E := by
  obtain ⟨place, hr, hloc, -, old, hnode⟩ := @Searched.resolve h dir w.disk .always hs hno
  have hthere := nodeAt_ok hnode
  rw [hloc, hget] at hthere
  cases hthere
  refine wp_callAt_calm hno hr (fun hc => ?_) fun hc => ?_
  · rw [hnode] at hc
    simp only [Bind.bind, Except.bind, hread, if_true] at hc
    cases hc
    rw [hloc]
    exact ⟨rfl, rfl⟩
  · rw [hnode] at hc
    simp only [Bind.bind, Except.bind, hread, if_true] at hc
    cases hc

theorem rename_there {source target : Str} {node : Node} (hx : h.crossDevice = false)
    (hwrite : w.disk.writable h dir = true) (hsource : isFileName source = true)
    (htarget : isFileName target = true) (hnode : w.disk.get (dir ++ [source]) = some node)
    (hkind : node.isDir = false) (hfree : ¬ w.disk.IsDir (dir ++ [target])) :
    (rename (dir ++ [source]) (dir ++ [target]) : Prog Host ε World _).wp h w
      (fun r _ => r = .ok ()) E := by
  refine wp_callAt_calm hno (hs.resolve_entry hno hsource) (fun _ => rfl) fun {kind} hc => ?_
  rw [hs.resolve_entry hno htarget] at hc
  simp only [hx, hnode, hkind, hwrite, Bool.or_self, Bool.false_eq_true, if_false, or_self,
    Bool.true_eq_false] at hc
  exact absurd (move_error hc hnode hkind hwrite htarget) hfree

end Directory

/-! ## A directory that can be made -/

/-- The directory is there, or it is missing from one in which it can be made. -/
def Obtainable (h : Host) (d : Disk) (dir : Loc) : Prop :=
  Searched h d dir ∨ ∃ parent name, dir = parent ++ [name] ∧ Searched h d parent
    ∧ d.writable h parent = true ∧ isFileName name = true ∧ d.get dir = none

theorem Obtainable.above {d : Disk} {init : Loc} (ho : Obtainable h d dir) (hi : init <+: dir)
    (hne : init ≠ dir) : ∃ mode, d.get init = some (.dir mode) ∧ h.canSearch mode = true := by
  rcases ho with hs | ⟨parent, name, rfl, hs, -⟩
  · exact hs hi
  · rcases List.prefix_concat_iff.mp hi with rfl | hi
    · exact absurd rfl hne
    · exact hs hi

theorem createDirAll_obtainable (hm : Obtainable h w.disk dir) (hno : ∀ n, h.fault n = false) :
    (createDirAll dir : Prog Host ε World _).wp h w (fun r _ => r = .ok ()) E := by
  rcases hm with hs | ⟨parent, name, rfl, hs, hwrite, hname, hnone⟩
  · exact wp_conseq (createDirAll_there hs hno) fun _ _ hr => hr.1
  · have hsmooth := hs.smooth hno hname
    unfold createDirAll
    refine wp_then (mkdir_spec hsmooth.direct) ?_
    rw [hsmooth.named.names]
    rintro r w₁ (⟨rfl, -, -⟩ | ⟨kind, rfl, -, hbad⟩)
    · rfl
    · exact absurd ⟨⟨parent, name, rfl, hsmooth, hwrite, hname⟩, hnone⟩ hbad

end Unix

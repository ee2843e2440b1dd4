/-
# `Unix.Passage` — paths that nothing bars

A `Smooth` path consists of names.  Programs also use paths with parts that name nothing —
a doubled slash, a dot, a slash at the end — and on these the kernel walks the same way:
what bars it is a location on the way that is no directory, or one it may not search.  On a
`Passable` path no location does, so a walk that stops early has found something missing,
and a call on a directory that is there succeeds.

Where the parts after the last name are all empty, the path ends in slashes.  The walk then
still ends at an entry of a directory, which `rmdir` takes for a directory to remove
(`rmdir_slashed`); after a dot it does not.
-/
import Syncbox.Lib.Unix.Calm

namespace Unix

open Rust

/-- Every location before the last part is missing, or a directory that may be searched. -/
structure Passable (h : Host) (d : Disk) (path : PathBuf) : Prop where
  noDotDot : ['.', '.'] ∉ path
  passable : ∀ {init}, init <+: path → init ≠ path → d.get (names init) = none
    ∨ ∃ mode, d.get (names init) = some (.dir mode) ∧ h.canSearch mode = true

/-- The path ends in a name and at least one slash. -/
def Slashed (path : PathBuf) : Prop :=
  ∃ init name k, path = init ++ name :: List.replicate (k + 1) [] ∧ isName name = true

theorem Slashed.append {path : PathBuf} (hs : Slashed path) (base : PathBuf) : Slashed (base ++ path) := by
  obtain ⟨init, name, k, rfl, hname⟩ := hs
  exact ⟨base ++ init, name, k, by simp, hname⟩

section Walk

variable {h : Host} {d : Disk}

/-- A walk that nothing bars stops early only where something is missing. -/
theorem Straight.notFound {rest : List Str} {b : Loc} {r : Except IoKind Place} {kind : IoKind}
    (hw : Straight h d b rest r) (hb : d.get b ≠ none)
    (hpass : ∀ {init}, init <+: rest → init ≠ rest → d.get (b ++ names init) = none
      ∨ ∃ mode, d.get (b ++ names init) = some (.dir mode) ∧ h.canSearch mode = true)
    (hr : r = .error kind) : kind = .notFound := by
  induction hw with
  | done => cases hr
  | last => cases hr
  | missing => exact (Except.error.inj hr).symm
  | stuck _ hno =>
      have hhere := @hpass [] List.nil_prefix (by simp)
      simp only [names, List.filter_nil, List.append_nil] at hhere
      obtain ⟨mode, hget, hs⟩ := hhere.resolve_left hb
      rw [hno hget] at hs
      cases hs
  | skip _ hname _ ih =>
      exact ih hb (way_skip (P := fun l => d.get l = none
        ∨ ∃ mode, d.get l = some (.dir mode) ∧ h.canSearch mode = true) hname hpass) hr
  | step hname _ hsome _ ih =>
      exact ih hsome (way_tail (P := fun l => d.get l = none
        ∨ ∃ mode, d.get l = some (.dir mode) ∧ h.canSearch mode = true) hname hpass) hr

theorem Slashed.cons {path : PathBuf} (hs : Slashed path) (part : Str) : Slashed (part :: path) :=
  hs.append [part]

/-- How the parts of a path end decides between the two places a walk may end at: at a
directory by way of a dot, or at an entry. -/
theorem Straight.slashed {rest : List Str} {b parent : Loc} {name : Str} {r : Except IoKind Place}
    (hw : Straight h d b rest r) (hr : r = .ok (.entry parent name true)) : Slashed rest := by
  induction hw with
  | done => cases hr
  | stuck => cases hr
  | missing => cases hr
  | skip _ _ _ ih => exact (ih hr).cons _
  | step _ _ _ _ ih => exact (ih hr).cons _
  | @last b part rest _ hname hall =>
      simp only [List.all_eq_true, decide_eq_true_eq] at hall
      simp only [Except.ok.injEq, Place.entry.injEq, decide_eq_true_eq] at hr
      obtain ⟨k, hk⟩ : ∃ k, rest.length = k + 1 := Nat.exists_eq_succ_of_ne_zero (by simpa using hr.2.2)
      exact ⟨[], part, k, by rw [← hk, ← List.eq_replicate_of_mem hall]; rfl, hname⟩

theorem Straight.not_dir {rest : List Str} {b loc : Loc} {r : Except IoKind Place}
    (hw : Straight h d b rest r) (hslash : Slashed rest) : r ≠ .ok (.dir loc) := by
  intro hr
  induction hw with
  | done =>
      obtain ⟨init, name, k, heq, -⟩ := hslash
      simp at heq
  | stuck => cases hr
  | missing => cases hr
  | last => cases hr
  | skip _ hname _ ih =>
      obtain ⟨_ | ⟨_, init⟩, name, k, heq, hisname⟩ := hslash
      · obtain ⟨rfl, -⟩ := List.cons.inj heq
        rw [hname] at hisname
        cases hisname
      · exact ih ⟨init, name, k, (List.cons.inj heq).2, hisname⟩ hr
  | step _ hall _ _ ih =>
      obtain ⟨_ | ⟨_, init⟩, name, k, heq, hisname⟩ := hslash
      · obtain ⟨-, rfl⟩ := List.cons.inj heq
        exact hall (by simp)
      · exact ih ⟨init, name, k, (List.cons.inj heq).2, hisname⟩ hr

end Walk

namespace Passable

variable {h : Host} {d : Disk} {follow : Follow} {path : PathBuf}

theorem direct (hp : Passable h d path) : Direct d path where
  noDotDot := hp.noDotDot
  noLink := by
    rintro init hi hne ⟨t, ht⟩
    rcases hp.passable hi hne with hnone | ⟨mode, hget, -⟩
    · rw [ht] at hnone; cases hnone
    · rw [ht] at hget; cases hget

variable (follow) in
theorem resolve (hp : Passable h d path) (hsome : d.get (names path) ≠ none)
    (hlast : follow = .always → ¬ d.IsLink (names path)) :
    ∃ place, resolve h d follow path = .ok place ∧ Reached d [] path place := by
  cases hr : Unix.resolve h d follow path with
  | ok place => exact ⟨place, rfl, reached_of_resolve hp.direct hlast hr⟩
  | error kind =>
      have hroot : d.get [] ≠ none := by
        obtain ⟨m, hm⟩ := d.isDir_nil
        rw [hm]
        simp
      obtain rfl : kind = .notFound := (hp.direct.straight hlast).notFound hroot
        (fun hi hne => by simpa using hp.passable hi hne) hr
      exact absurd (get_none_of_resolve hp.direct hlast hr) hsome

end Passable

section Calls

variable {ε : Type} {E : ε → World → Prop} {h : Host} {w : World} {path : PathBuf} {m : Mode}

theorem nodeAt_dir {d : Disk} {place : Place} (hget : d.get place.loc = some (.dir m)) :
    d.nodeAt place = .ok (.dir m) := by
  unfold Disk.nodeAt
  rw [hget]
  cases place with
  | dir loc => rfl
  | entry parent name slash => cases slash <;> rfl

theorem lstat_dir (hno : ∀ n, h.fault n = false) (hp : Passable h w.disk path)
    (hget : w.disk.get (names path) = some (.dir m)) :
    (lstat path : Prog Host ε World _).wp h w (fun r w' => r = .ok (.dir m) ∧ Same w w') E := by
  obtain ⟨place, hr, hreached⟩ := hp.resolve .slash (by rw [hget]; simp) (by simp)
  have hnode : w.disk.nodeAt place = .ok (.dir m) := nodeAt_dir (by rw [hreached.loc]; exact hget)
  refine wp_callAt_calm hno hr ?_ ?_
  · rintro a d log hok
    rw [hnode] at hok
    cases hok
    exact ⟨rfl, rfl, rfl⟩
  · intro kind herr
    rw [hnode] at herr
    cases herr

theorem chmod_dir {mode : Mode} (hno : ∀ n, h.fault n = false) (hp : Passable h w.disk path)
    (hget : w.disk.get (names path) = some (.dir m)) :
    (chmod path mode : Prog Host ε World _).wp h w (fun r w' => r = .ok ()
      ∧ Did w w' (names path) (some (.dir mode)) .chmod) E := by
  have hlast : ¬ w.disk.IsLink (names path) := by
    rintro ⟨t, ht⟩
    rw [hget] at ht
    cases ht
  obtain ⟨place, hr, hreached⟩ := hp.resolve .always (by rw [hget]; simp) fun _ => hlast
  have hloc : place.loc = names path := by rw [hreached.loc]; rfl
  have hnode : w.disk.nodeAt place = .ok (.dir m) := nodeAt_dir (by rw [hloc]; exact hget)
  refine wp_callAt_calm hno hr ?_ ?_
  · rintro u d log hok
    simp only [hnode, bind, Except.bind, hloc] at hok
    obtain ⟨hsets, rfl⟩ := update_ok hok
    exact ⟨rfl, hsets, rfl⟩
  · intro kind herr
    simp only [hnode, bind, Except.bind, hloc] at herr
    exact absurd (by rfl) (update_error herr hget)

/-- A directory that went was empty, and its name was not followed by a dot. -/
theorem rmdir_ends (hd : Direct w.disk path) :
    (rmdir path : Prog Host ε World _).wp h w (fun r _ => r = .ok () →
      ((∃ init name, path = init ++ [name] ∧ isName name = true) ∨ Slashed path)
        ∧ ∀ child, w.disk.get (names path ++ [child]) = none) E := by
  unfold rmdir callAt
  refine wp_call ?_ ?_
  · intro _ d log hc _
    obtain ⟨place, hr, hc⟩ := Check.bind_eq_ok.mp hc
    have hreach := reached_of_resolve hd (by simp) hr
    rcases place with _ | ⟨parent, name, slash⟩
    · cases hc
    · constructor
      · cases slash with
        | false =>
            obtain ⟨init, hpath, hname⟩ := hreach.last
            exact .inl ⟨init, name, hpath, hname⟩
        | true =>
            exact .inr ((hd.straight (by simp)).slashed hr)
      · dsimp only at hc
        split at hc
        · cases hc
        · split_ifs at hc
          unfold Disk.delete at hc
          split_ifs at hc with hremove
          rw [← hreach.entry_loc]
          exact Disk.hasChild_eq_false_iff.mp hremove
  · intro kind _ hk
    cases hk

/-- An empty directory goes, also when the path ends in slashes. -/
theorem rmdir_slashed (hno : ∀ n, h.fault n = false) (hp : Passable h w.disk path)
    (hslash : Slashed path) (hget : w.disk.get (names path) = some (.dir m))
    (hempty : ∀ child, w.disk.get (names path ++ [child]) = none)
    (hwrite : w.disk.writable h (names path).dropLast = true) :
    (rmdir path : Prog Host ε World _).wp h w (fun r w' => r = .ok ()
      ∧ Did w w' (names path) none .remove) E := by
  obtain ⟨place, hr, hreached⟩ := hp.resolve .never (by rw [hget]; simp) (by simp)
  cases place with
  | dir loc => exact absurd hr ((hp.direct.straight (by simp)).not_dir hslash)
  | entry parent name slash =>
      have hloc : parent ++ [name] = names path := hreached.entry_loc
      have hparent : (names path).dropLast = parent := by rw [← hloc, List.dropLast_concat]
      rw [hparent] at hwrite
      refine wp_callAt_calm hno hr ?_ ?_
      · rintro u d log hok
        simp only [hloc, hget, hwrite, Node.isDir, Bool.true_eq_false, if_false] at hok
        obtain ⟨hsets, rfl⟩ := delete_ok hok
        rw [hloc] at hsets ⊢
        exact ⟨rfl, hsets, rfl⟩
      · intro kind herr
        simp only [hloc, hget, hwrite, Node.isDir, Bool.true_eq_false, if_false] at herr
        obtain ⟨child, hchild⟩ := delete_error herr
        rw [hloc] at hchild
        exact absurd (hempty child) hchild

end Calls

end Unix

/-
# `Syncbox.Fs` — programs on the file system

The monad of everything that touches the disk, with `anyhow`'s `with_context`, and
the root of a share.  A registered directory is stored as `fs::canonicalize` gave it,
so it spells the location it leads to; `directoryRoot` looks it up again before every
use.

A context changes what an error says and nothing else, so each of the two forms has an
equation that hands the error on with its text (`wp_context`, `wp_within`), and
`wp_context_then` is the rule for a call with a context that is followed by the rest of
the program — the shape of nearly every line of `src/network/local.rs`.
-/
import Syncbox.Types
import Syncbox.Lib.Unix.Look

namespace Syncbox

open Rust Unix Prog Check

/-- A program on the file system. -/
abbrev Fs := Prog Host Error World

/-- `.with_context(|| ..)?` on a call. -/
def context {α : Type} (text : String) (m : Fs (Except IoKind α)) : Fs α := do
  match ← m with
  | .ok a => pure a
  | .error kind => throw (.io text kind)

@[simp] theorem wp_context {α : Type} (text : String) (m : Fs (Except IoKind α)) (h : Host)
    (w : World) (Q : α → World → Prop) (E : Error → World → Prop) :
    (context text m).wp h w Q E ↔ m.wp h w (fun r w' => match r with
      | .ok a => Q a w'
      | .error kind => E (.io text kind) w') E := by
  unfold context
  rw [wp_bind]
  unfold Prog.wp
  cases m h w with
  | error e w' => rfl
  | ok r w' => cases r <;> rfl

theorem wp_context_then {α β : Type} {text : String} {m : Fs (Except IoKind α)} {f : α → Fs β} {h : Host}
    {w : World} {P : Except IoKind α → World → Prop} {Q : β → World → Prop} {E : Error → World → Prop}
    (hm : m.wp h w P E) (hf : ∀ r w', P r w' → match r with
      | .ok a => (f a).wp h w' Q E
      | .error kind => E (.io text kind) w') : (context text m >>= f).wp h w Q E := by
  rw [wp_bind, wp_context]
  exact wp_conseq hm hf

/-- `.with_context(|| ..)?` on a result that already has one. -/
def within {α : Type} (text : String) (m : Fs α) : Fs α := fun h w =>
  match m h w with
  | .ok a w' => .ok a w'
  | .error e w' => .error (.caused text e) w'

@[simp] theorem wp_within {α : Type} (text : String) (m : Fs α) (h : Host) (w : World)
    (Q : α → World → Prop) (E : Error → World → Prop) :
    (within text m).wp h w Q E ↔ m.wp h w Q fun e => E (.caused text e) := by
  unfold Prog.wp within
  cases m h w <;> rfl

theorem wp_rejectIf {ρ σ : Type} {c : Prop} [Decidable c] {e : Error} {h : ρ} {s : σ}
    {Q : Unit → σ → Prop} {E : Error → σ → Prop} (hE : c → E e s) (hQ : ¬ c → Q () s) :
    (Prog.ofExcept (rejectIf c e) : Prog ρ Error σ Unit).wp h s Q E := by
  by_cases hc : c
  · rw [rejectIf, if_pos hc]
    exact hE hc
  · rw [rejectIf, if_neg hc]
    exact hQ hc

/-- Run `m`; if it fails, try to remove `temp`. -/
def orRemove (temp : PathBuf) (m : Fs Unit) : Fs Unit := do
  match ← Prog.attempt m with
  | .ok () => pure ()
  | .error e => do
      let _ ← unlink temp
      throw e

/-- `Path::exists`. -/
def pathExists (path : PathBuf) : Fs Bool := do
  match ← stat path with
  | .ok _ => pure true
  | .error _ => pure false

/-! ## The root of a share -/

def directoryRoot (directory : PathBuf) : Fs PathBuf := do
  let metadata ← context ("unable to inspect local directory " ++ display directory) (stat directory)
  if metadata.isDir = false then
    throw (.bail ("registered local path " ++ display directory ++ " is not a directory"))
  else
    context ("unable to normalize local directory " ++ display directory) (canonicalize directory)

/-- Nothing outside the share is in the way of a path below its root. -/
structure Reach (h : Host) (d : Disk) (root : Loc) : Prop where
  noFault : ∀ n, h.fault n = false
  search : ∀ {init}, init <+: root → init ≠ root →
    ∃ mode, d.get init = some (.dir mode) ∧ h.canSearch mode = true

section Root

variable {h : Host} {w : World} {root : Loc}

theorem named_of_isFileName {loc : Loc} (hn : ∀ part ∈ loc, isFileName part = true) : Named loc :=
  fun part hpart => ⟨Disk.isName_of_isFileName (hn part hpart), by
    rintro rfl; have := hn _ hpart; simp [isFileName] at this⟩

theorem named_root (hroot : w.disk.IsDir root) : Named root := by
  obtain ⟨m, hm⟩ := hroot
  exact named_of_isFileName (Disk.isFileName_of_get hm)

theorem direct_root (hroot : w.disk.IsDir root) : Direct w.disk root := by
  obtain ⟨m, hm⟩ := hroot
  exact direct_of_get hm

theorem smooth_root (hroot : w.disk.IsDir root) (hreach : Reach h w.disk root) :
    Smooth h w.disk root :=
  ⟨hreach.noFault, named_root hroot, fun hi hne => .inr (hreach.search hi hne)⟩

theorem canonicalize_spec {E : Error → World → Prop} (hroot : w.disk.IsDir root) :
    (canonicalize root : Fs _).wp h w (fun r w' => Same w w'
      ∧ (r = .ok root ∨ ∃ kind, r = .error kind ∧ ¬ Reach h w.disk root)) E := by
  have hlast := hroot.not_link
  obtain ⟨m, hm⟩ := hroot
  have hn : names root = root := Disk.names_of_get hm
  rw [← hn] at hlast hm
  refine wp_callAt (direct_root ⟨m, hn ▸ hm⟩) (fun _ => hlast) ?_ ?_
  · intro place loc d log hreach hc
    obtain ⟨node, hnode, heq⟩ := map_eq_ok.mp hc
    cases heq
    refine ⟨⟨rfl, rfl⟩, .inl ?_⟩
    rw [hreach.loc, List.nil_append, hn]
  · intro kind hf
    refine ⟨⟨rfl, rfl⟩, .inr ⟨kind, rfl, fun hreach => ?_⟩⟩
    obtain ⟨place, -, hnode, hc⟩ := hf.of_there (smooth_root ⟨m, hn ▸ hm⟩ hreach) (fun _ => hlast) hm
    rw [hnode] at hc
    cases hc

theorem stat_root {E : Error → World → Prop} (hroot : w.disk.IsDir root) :
    (stat root : Fs _).wp h w (fun r w' => Same w w' ∧ ((∃ m, r = .ok (.dir m))
      ∨ ∃ kind, r = .error kind ∧ ¬ Reach h w.disk root)) E := by
  have hlast := hroot.not_link
  have hroot' := hroot
  obtain ⟨m, hm⟩ := hroot
  rw [← Disk.names_of_get hm] at hlast hm
  refine wp_conseq (stat_spec (direct_root hroot') hlast) ?_
  rintro (kind | node) w₁ hlook
  · refine ⟨hlook.same, .inr ⟨kind, rfl, fun hreach => ?_⟩⟩
    by_cases hk : kind = .notFound
    · subst hk
      rw [hlook.missing rfl] at hm
      cases hm
    · exact hlook.blocked rfl hk (smooth_root hroot' hreach)
  · rw [hlook.ok rfl] at hm
    exact ⟨hlook.same, .inl ⟨m, congrArg Except.ok (Option.some.inj hm)⟩⟩

theorem directoryRoot_spec (hroot : w.disk.IsDir root) :
    (directoryRoot root).wp h w (fun r w' => r = root ∧ Same w w')
      (fun _ w' => Same w w' ∧ ¬ Reach h w.disk root) := by
  unfold directoryRoot
  refine wp_context_then (stat_root hroot) ?_
  rintro _ w₁ ⟨hs₁, ⟨m, rfl⟩ | ⟨kind, rfl, hno⟩⟩
  · refine wp_ite (fun hdir => by cases hdir) fun _ => ?_
    rw [wp_context]
    refine wp_conseq (canonicalize_spec (by rw [hs₁.disk]; exact hroot)) ?_
    rintro r w₂ ⟨hsame, rfl | ⟨kind, rfl, hno⟩⟩
    · exact ⟨rfl, hs₁.trans hsame⟩
    · exact ⟨hs₁.trans hsame, by rwa [hs₁.disk] at hno⟩
  · exact ⟨hs₁, hno⟩

/-- Looking for the root changes nothing, whatever is there, and finds a directory. -/
theorem directoryRoot_looks {directory : PathBuf} :
    (directoryRoot directory).wp h w (fun root w' => w.disk.IsDir root ∧ Same w w')
      (fun _ w' => Same w w' ∧ ¬ (w.disk.IsDir directory ∧ Reach h w.disk directory)) := by
  by_cases hroot : w.disk.IsDir directory
  · refine wp_mono (directoryRoot_spec hroot) ?_ fun _ _ he => ?_
    · rintro root w' ⟨rfl, hsame⟩
      exact ⟨hroot, hsame⟩
    · exact ⟨he.1, fun hreach => he.2 hreach.2⟩
  · have hnot : ¬ (w.disk.IsDir directory ∧ Reach h w.disk directory) := fun hreach => hroot hreach.1
    unfold directoryRoot
    rw [wp_bind, wp_context, stat_eq]
    refine wp_looking (fun node hnode => ?_) fun _ _ => ⟨⟨rfl, rfl⟩, hnot⟩
    dsimp only
    refine wp_ite (fun _ => ⟨⟨rfl, rfl⟩, hnot⟩) fun hdir => ?_
    rw [wp_context, canonicalize_eq]
    refine wp_looking (fun root hroot => ⟨?_, rfl, rfl⟩) fun _ _ => ⟨⟨rfl, rfl⟩, hnot⟩
    -- both calls resolve the path to the same place
    simp only [answer, bind_eq_ok] at hnode hroot
    obtain ⟨place, hplace, hnode⟩ := hnode
    obtain ⟨place', hplace', hroot⟩ := hroot
    obtain rfl := Except.ok.inj (hplace.symm.trans hplace')
    obtain ⟨-, -, rfl⟩ := map_eq_ok.mp hroot
    cases node with
    | dir m => exact ⟨m, nodeAt_ok hnode⟩
    | _ => exact absurd rfl hdir

end Root

end Syncbox

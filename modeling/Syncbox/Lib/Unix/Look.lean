/-
# `Unix.Look` — calls that only look

Some calls change nothing: what they answer is a function of the host and the disk, and
all they leave behind is that they were made.  `looking` is their common shape, and
`wp_looking` says all there is to say about one.  A program made of such calls gives the
same answers again on the same disk, as long as no fault comes in between (`Quiet`).
-/
import Syncbox.Lib.Unix.Spec

namespace Unix

open Rust Check

variable {ε α : Type}

/-- The world after a call that only looked. -/
def World.looked (w : World) : World := { w with calls := w.calls + 1 }

/-- No fault from here on. -/
def Quiet (h : Host) (w : World) : Prop := ∀ n, w.calls ≤ n → h.fault n = false

theorem Quiet.looked {h : Host} {w : World} (hq : Quiet h w) : Quiet h w.looked :=
  fun n hn => hq n (Nat.le_of_succ_le hn)

/-- What looking at a path answers without a fault. -/
def answer (follow : Follow) (path : PathBuf) (look : Host → Disk → Place → Except IoKind α)
    (h : Host) (d : Disk) : Except IoKind α :=
  resolve h d follow path >>= look h d

def looking (follow : Follow) (path : PathBuf) (look : Host → Disk → Place → Except IoKind α) :
    Prog Host ε World (Except IoKind α) :=
  callAt follow path fun h _ d place => (look h d place).map fun a => (a, d, [])

section Rules

variable {h : Host} {w : World} {follow : Follow} {path : PathBuf}
  {look : Host → Disk → Place → Except IoKind α} {Q : Except IoKind α → World → Prop}
  {E : ε → World → Prop}

theorem wp_looking (hok : ∀ a, answer follow path look h w.disk = .ok a → Q (.ok a) w.looked)
    (herr : ∀ kind, (Quiet h w → answer follow path look h w.disk = .error kind) →
      Q (.error kind) w.looked) :
    (looking follow path look : Prog Host ε World _).wp h w Q E := by
  unfold looking callAt
  refine wp_call ?_ ?_
  · intro a d log hc
    obtain ⟨place, hr, hc⟩ := bind_eq_ok.mp hc
    obtain ⟨b, hb, heq⟩ := map_eq_ok.mp hc
    cases heq
    exact hok a (bind_eq_ok.mpr ⟨place, hr, hb⟩)
  · intro kind hf
    refine herr kind fun hq => ?_
    rcases hf with ⟨hf, -⟩ | hc
    · rw [hq w.calls le_rfl] at hf
      cases hf
    · unfold answer
      cases hr : resolve h w.disk follow path with
      | error kind' =>
          rw [hr] at hc
          cases hc
          rfl
      | ok place =>
          rw [hr] at hc
          show look h w.disk place = .error kind
          cases hl : look h w.disk place with
          | error kind' =>
              simp only [Bind.bind, Except.bind, hl, Except.map] at hc
              cases hc
              rfl
          | ok a =>
              simp only [Bind.bind, Except.bind, hl, Except.map] at hc
              cases hc

theorem wp_looking_again {a : α} (hq : Quiet h w) (ha : answer follow path look h w.disk = .ok a)
    (hok : Q (.ok a) w.looked) : (looking follow path look : Prog Host ε World _).wp h w Q E := by
  refine wp_looking (fun b hb => ?_) fun kind hk => ?_
  · rw [ha] at hb
    cases hb
    exact hok
  · have := hk hq
    rw [ha] at this
    cases this

end Rules

/-! ## The calls -/

/-- The target of a link. -/
def linkAt (_ : Host) (d : Disk) (place : Place) : Except IoKind Str :=
  match d.nodeAt place with
  | .ok (.symlink target) => .ok target
  | .ok _ => .error .invalidInput
  | .error kind => .error kind

/-- Everything below a directory. -/
def treeAt (h : Host) (d : Disk) (place : Place) : Except IoKind (List (List Str × Node)) :=
  match d.nodeAt place with
  | .error kind => .error kind
  | .ok node =>
      if h.canList node ∧ ∀ entry ∈ d.below place.loc, h.canList entry.2 = true then
        .ok (h.walkOrder (d.below place.loc))
      else .error .permissionDenied

theorem lstat_eq (path : PathBuf) :
    (lstat path : Prog Host ε World _) = looking .slash path fun _ d => d.nodeAt := rfl

theorem stat_eq (path : PathBuf) :
    (stat path : Prog Host ε World _) = looking .always path fun _ d => d.nodeAt := rfl

theorem canonicalize_eq (path : PathBuf) :
    (canonicalize path : Prog Host ε World _)
      = looking .always path fun _ d place => (d.nodeAt place).map fun _ => place.loc := by
  refine congrArg (callAt .always path) ?_
  funext h n d place
  dsimp only
  cases d.nodeAt place <;> rfl

theorem readLink_eq (path : PathBuf) :
    (readLink path : Prog Host ε World _) = looking .slash path linkAt := by
  refine congrArg (callAt .slash path) ?_
  funext h n d place
  unfold linkAt
  rcases d.nodeAt place with kind | (_ | _ | _ | _) <;> rfl

theorem walkDir_eq (path : PathBuf) :
    (walkDir path : Prog Host ε World _) = looking .always path treeAt := by
  refine congrArg (callAt .always path) ?_
  funext h n d place
  unfold treeAt
  cases d.nodeAt place with
  | error kind => rfl
  | ok node =>
      dsimp only
      split <;> rfl

theorem Disk.nodup_below (d : Disk) (loc : Loc) : ((d.below loc).map Prod.fst).Nodup := by
  have heq : (d.below loc).map Prod.fst
      = d.nodes.keys.filterMap fun k => (k.dropPrefix? loc).bind fun s => if s = [] then none else some s := by
    rw [Disk.below, List.map_filterMap, ← Std.ExtTreeMap.map_fst_toList_eq_keys, List.filterMap_map]
    refine List.filterMap_congr fun x _ => ?_
    simp only [Function.comp_apply]
    cases x.1.dropPrefix? loc with
    | none => rfl
    | some s => by_cases hs : s = [] <;> simp [hs]
  rw [heq]
  refine List.Nodup.filterMap ?_ Std.ExtTreeMap.nodup_keys
  intro k k' s hs hs'
  simp only [Option.mem_def, Option.bind_eq_some_iff, List.dropPrefix?_eq_some_iff,
    Option.ite_none_left_eq_some, Option.some.injEq] at hs hs'
  obtain ⟨s₁, ⟨p, rfl, hp⟩, -, rfl⟩ := hs
  obtain ⟨s₂, ⟨p', rfl, hp'⟩, -, rfl⟩ := hs'
  rw [eq_of_beq hp, eq_of_beq hp']

theorem walk_names {h : Host} {d : Disk} {path : PathBuf} {entries : List (List Str × Node)}
    (hw : answer .always path treeAt h d = .ok entries) :
    (entries.map Prod.fst).Nodup
      ∧ ∀ x ∈ entries, x.1 ≠ [] ∧ ∀ part ∈ x.1, isFileName part = true := by
  obtain ⟨place, -, hc⟩ := bind_eq_ok.mp hw
  unfold treeAt at hc
  split at hc
  · cases hc
  · split at hc
    · cases hc
      refine ⟨?_, fun x hx => ?_⟩
      · exact ((h.walkOrder_perm _).map Prod.fst).nodup_iff.mpr (d.nodup_below place.loc)
      · obtain ⟨hne, hget⟩ := Disk.mem_below.mp ((h.walkOrder_perm _).subset hx)
        exact ⟨hne, fun part hp => Disk.isFileName_of_get hget part (List.mem_append_right _ hp)⟩
    · cases hc

end Unix

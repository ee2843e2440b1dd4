/-
# `Unix.Path` — paths as parts

A path is the list of parts that were pushed onto it.  Empty parts and `.` name
nothing; what is left are the `names`, and the list of names is the location the
path spells.
-/
import Syncbox.Lib.Rust

namespace Unix

open Rust

/-- An absolute path, as the parts pushed onto it. -/
abbrev PathBuf := List Str

/-- `str::split('/')`. -/
def split (p : Str) : List Str := p.splitOn '/'

/-- Parts joined by `/`. -/
def join (parts : List Str) : Str := ['/'].intercalate parts

/-- A part that normalisation keeps. -/
def isName (part : Str) : Bool := part ≠ [] && part ≠ ['.']

/-- The parts that normalisation keeps. -/
def names (parts : List Str) : List Str := parts.filter isName

theorem split_ne_nil (p : Str) : split p ≠ [] := List.splitOn_ne_nil _ _

theorem join_split (p : Str) : join (split p) = p := List.intercalate_splitOn _

theorem join_singleton (part : Str) : join [part] = part := List.intercalate_singleton

theorem join_cons_cons (a b : Str) (l : List Str) : join (a :: b :: l) = a ++ '/' :: join (b :: l) := by
  simp [join]

theorem mem_join {c : Char} {l : List Str} (hc : c ∈ join l) : c = '/' ∨ ∃ part ∈ l, c ∈ part := by
  induction l with
  | nil => cases hc
  | cons a l ih =>
      cases l with
      | nil =>
          rw [join_singleton] at hc
          exact .inr ⟨a, List.mem_cons_self, hc⟩
      | cons b l =>
          rw [join_cons_cons, List.mem_append, List.mem_cons] at hc
          rcases hc with hc | rfl | hc
          · exact .inr ⟨a, List.mem_cons_self, hc⟩
          · exact .inl rfl
          · rcases ih hc with rfl | ⟨part, hpart, hc⟩
            · exact .inl rfl
            · exact .inr ⟨part, List.mem_cons_of_mem _ hpart, hc⟩

theorem mem_join_of_mem {c : Char} {part : Str} {l : List Str} (hpart : part ∈ l) (hc : c ∈ part) :
    c ∈ join l := by
  induction l with
  | nil => cases hpart
  | cons a l ih =>
      cases l with
      | nil =>
          rw [join_singleton, ← List.mem_singleton.mp hpart]
          exact hc
      | cons b l =>
          rw [join_cons_cons]
          rcases List.mem_cons.mp hpart with rfl | hpart
          · exact List.mem_append_left _ hc
          · exact List.mem_append_right _ (List.mem_cons_of_mem _ (ih hpart))

theorem mem_of_mem_split {c : Char} {part p : Str} (hpart : part ∈ split p) (hc : c ∈ part) : c ∈ p := by
  rw [← join_split p]
  exact mem_join_of_mem hpart hc

theorem split_join {parts : List Str} (h : ∀ part ∈ parts, '/' ∉ part) (hne : parts ≠ []) :
    split (join parts) = parts :=
  List.splitOn_intercalate _ h hne

theorem split_injective : Function.Injective split := fun p q h => by
  rw [← join_split p, ← join_split q, h]

theorem split_append_sep (a s : Str) : split (a ++ '/' :: s) = split a ++ split s :=
  List.splitOn_append_cons_self _ _

theorem sep_notMem_of_mem_split : ∀ {p : Str}, ∀ part ∈ split p, '/' ∉ part := by
  intro p
  induction p with
  | nil => intro part h; simp [split] at h; subst h; exact List.not_mem_nil
  | cons c p ih =>
      intro part h
      by_cases hc : c = '/'
      · subst hc
        have hsplit : split ('/' :: p) = [] :: split p := split_append_sep [] p
        rw [hsplit] at h
        rcases List.mem_cons.mp h with rfl | h
        · exact List.not_mem_nil
        · exact ih part h
      · cases hp : split p with
        | nil => exact absurd hp (split_ne_nil p)
        | cons first rest =>
            have hsplit : split (c :: p) = (c :: first) :: rest := by
              have := List.splitOn_cons_eq_if_modifyHead (a := '/') c p
              simp only [split] at hp ⊢
              rw [this, hp]
              simp [hc]
            rw [hsplit] at h
            rcases List.mem_cons.mp h with rfl | h
            · have := ih first (hp ▸ List.mem_cons_self)
              simp [Ne.symm hc, this]
            · exact ih part (hp ▸ List.mem_cons_of_mem _ h)

/-- `PathBuf::push` of a relative part, on the displayed path. -/
def pushPart (shown : Str) (part : Str) : Str :=
  if shown.getLast? = some '/' then shown ++ part else shown ++ '/' :: part

/-- `Path::display`. -/
def display (path : PathBuf) : String := String.ofList (path.foldl pushPart ['/'])

theorem names_append (a b : List Str) : names (a ++ b) = names a ++ names b :=
  List.filter_append ..

end Unix

/-
# `Check` — validators

A validator is a value of `Except ε Unit`.  The lemmas here turn "the validator
accepts" into the conjunction of the conditions it tests, so that every later
proof sees the conditions and none sees the order in which they are tested.

The order matters only to which error is raised.  What can be said of the errors without
it — that all of them satisfy a condition, `Raises` — stands apart, at the end.
-/
import Mathlib

namespace Check

variable {ε α β : Type}

/-- `bail!` under a condition. -/
def rejectIf (c : Prop) [Decidable c] (e : ε) : Except ε Unit :=
  if c then .error e else .ok ()

@[simp] theorem rejectIf_eq_ok {c : Prop} [Decidable c] {e : ε} {u : Unit} :
    rejectIf c e = .ok u ↔ ¬ c := by
  unfold rejectIf
  split <;> simp_all

@[simp] theorem bind_eq_ok {x : Except ε α} {f : α → Except ε β} {b : β} :
    (x >>= f) = .ok b ↔ ∃ a, x = .ok a ∧ f a = .ok b := by
  cases x with
  | error e =>
      constructor
      · intro h; cases h
      · rintro ⟨_, h, _⟩; cases h
  | ok a =>
      constructor
      · intro h; exact ⟨a, rfl, h⟩
      · rintro ⟨a', h, hf⟩; cases h; exact hf

theorem andThen_eq_ok {x : Except ε Unit} {y : Except ε β} {b : β} :
    (x >>= fun _ => y) = .ok b ↔ x = .ok () ∧ y = .ok b := by
  rw [bind_eq_ok]
  exact ⟨fun ⟨_, hx, hy⟩ => ⟨hx, hy⟩, fun ⟨hx, hy⟩ => ⟨(), hx, hy⟩⟩

theorem forM_eq_ok {f : α → Except ε PUnit} :
    ∀ {l : List α}, l.forM f = .ok () ↔ ∀ x ∈ l, f x = .ok ()
  | [] => ⟨fun _ _ hx => (nomatch hx), fun _ => rfl⟩
  | x :: l => by
      show (f x >>= fun _ => l.forM f) = .ok () ↔ _
      rw [bind_eq_ok]
      constructor
      · rintro ⟨_, hx, hl⟩ y hy
        rcases List.mem_cons.mp hy with rfl | hy
        · exact hx
        · exact forM_eq_ok.mp hl y hy
      · intro h
        exact ⟨(), h x List.mem_cons_self,
          forM_eq_ok.mpr fun y hy => h y (List.mem_cons_of_mem _ hy)⟩

/-- An accumulating loop that succeeds keeps an invariant its step keeps. -/
theorem foldlM_inv_from {f : β → α → Except ε β} {I : List α → β → Prop} :
    ∀ {todo done : List α} {acc acc' : β}, I done acc → todo.foldlM f acc = .ok acc' →
      (∀ pre x post b b', done ++ todo = pre ++ x :: post → I pre b → f b x = .ok b' →
        I (pre ++ [x]) b') →
      I (done ++ todo) acc'
  | [], done, acc, acc', h, hf, _ => by
      cases hf
      simpa using h
  | x :: todo, done, acc, acc', h, hf, step => by
      rw [List.foldlM_cons, bind_eq_ok] at hf
      obtain ⟨b, hx, hrest⟩ := hf
      have := foldlM_inv_from (step done x todo acc b rfl h hx) hrest
        (fun pre y post b b' heq => by
          refine step pre y post b b' ?_
          simpa using heq)
      simpa using this

theorem foldlM_inv {f : β → α → Except ε β} {I : List α → β → Prop} {l : List α} {acc acc' : β}
    (h : I [] acc) (hf : l.foldlM f acc = .ok acc')
    (step : ∀ pre x post b b', l = pre ++ x :: post → I pre b → f b x = .ok b' → I (pre ++ [x]) b') :
    I l acc' :=
  foldlM_inv_from h hf step

theorem foldlM_ok {f : β → α → Except ε β} :
    ∀ {l : List α}, (∀ x ∈ l, ∀ b, ∃ b', f b x = .ok b') → ∀ b, ∃ b', l.foldlM f b = .ok b'
  | [], _, b => ⟨b, rfl⟩
  | x :: l, h, b => by
      obtain ⟨b₁, h₁⟩ := h x List.mem_cons_self b
      obtain ⟨b₂, h₂⟩ := foldlM_ok (fun y hy => h y (List.mem_cons_of_mem _ hy)) b₁
      exact ⟨b₂, by rw [List.foldlM_cons, bind_eq_ok]; exact ⟨b₁, h₁, h₂⟩⟩

/-- A loop that carries something fails exactly as the loop of its checks does, when every
step fails as its check and otherwise keeps the invariant. -/
theorem foldlM_eq_forM {f : β → α → Except ε β} {g : α → Except ε Unit} {I : β → Prop} :
    ∀ {l : List α} {b : β}, I b →
      (∀ x ∈ l, ∀ b, I b → (∃ e, f b x = .error e ∧ g x = .error e)
        ∨ ∃ b', f b x = .ok b' ∧ g x = .ok () ∧ I b') →
      ((l.foldlM f b).map fun _ => ()) = l.forM g
  | [], b, _, _ => rfl
  | x :: l, b, hb, step => by
      have htail : ∀ {b'}, I b' → ((l.foldlM f b').map fun _ => ()) = l.forM g := fun hb' =>
        foldlM_eq_forM hb' fun y hy => step y (List.mem_cons_of_mem _ hy)
      show ((f b x >>= fun b' => l.foldlM f b').map fun _ => ()) = (g x >>= fun _ => l.forM g)
      rcases step x List.mem_cons_self b hb with ⟨e, hf, hg⟩ | ⟨b', hf, hg, hb'⟩
      · rw [hf, hg]
        rfl
      · rw [hf, hg]
        exact htail hb'

/-- A loop whose steps each use up one unit of a budget, on a list the budget covers. -/
theorem foldlM_budget {f : β → α → Except ε β} {P : β → Nat → Prop} :
    ∀ {l : List α} {n : Nat} {b : β},
      (∀ x ∈ l, ∀ b n, P b (n + 1) → ∃ b', f b x = .ok b' ∧ P b' n) →
      P b (l.length + n) → ∃ b', l.foldlM f b = .ok b' ∧ P b' n
  | [], n, b, _, h => ⟨b, rfl, by simpa using h⟩
  | x :: l, n, b, hf, h => by
      rw [List.length_cons, Nat.add_right_comm] at h
      obtain ⟨b₁, h₁, hb₁⟩ := hf x List.mem_cons_self b _ h
      obtain ⟨b', h', hb'⟩ := foldlM_budget (fun y hy => hf y (List.mem_cons_of_mem _ hy)) hb₁
      refine ⟨b', ?_, hb'⟩
      rw [List.foldlM_cons, h₁]
      exact h'

/-- How a check fails. -/
def error? : Except ε α → Option ε
  | .error e => some e
  | .ok _ => none

@[simp] theorem map_eq_ok {x : Except ε α} {f : α → β} {b : β} :
    x.map f = .ok b ↔ ∃ a, x = .ok a ∧ f a = b := by
  cases x with
  | error e => simp [Except.map]
  | ok a => simp [Except.map]

/-! ## Loops over distinct keys -/

/-- The loop over a list whose keys a set collects: each element is checked, and a key that
is already there is refused with `duplicate`. -/
def distinct {κ : Type} [DecidableEq κ] (check : α → Except ε Unit) (key : α → κ) (duplicate : ε)
    (l : List α) : Except ε (List κ) :=
  l.foldlM (fun unique x => do
    check x
    rejectIf (key x ∈ unique) duplicate
    .ok (key x :: unique)) []

theorem distinct_eq_ok {κ : Type} [DecidableEq κ] {check : α → Except ε Unit} {key : α → κ}
    {duplicate : ε} {l : List α} {unique : List κ} :
    distinct check key duplicate l = .ok unique ↔
      (∀ x ∈ l, check x = .ok ()) ∧ (l.map key).Nodup ∧ unique = (l.map key).reverse := by
  -- generalised to a set that is not empty at the start
  have hfrom : ∀ (l : List α) (before : List κ),
      l.foldlM (fun unique x => do
          check x
          rejectIf (key x ∈ unique) duplicate
          .ok (key x :: unique)) before = .ok unique ↔
        (∀ x ∈ l, check x = .ok ()) ∧ (l.map key).Nodup ∧ (∀ x ∈ l, key x ∉ before)
          ∧ unique = (l.map key).reverse ++ before := by
    intro l
    induction l with
    | nil =>
        intro before
        constructor
        · intro h
          cases h
          simp
        · rintro ⟨-, -, -, rfl⟩
          rfl
    | cons x l ih =>
        intro before
        rw [List.foldlM_cons, bind_eq_ok]
        simp only [bind_eq_ok, rejectIf_eq_ok, Except.ok.injEq, ih]
        constructor
        · rintro ⟨_, ⟨⟨⟩, hx, _, hnew, rfl⟩, hl, hnodup, hfree, rfl⟩
          refine ⟨?_, ?_, ?_, by simp⟩
          · intro y hy
            rcases List.mem_cons.mp hy with rfl | hy
            · exact hx
            · exact hl y hy
          · rw [List.map_cons, List.nodup_cons]
            refine ⟨fun hmem => ?_, hnodup⟩
            obtain ⟨y, hy, hkey⟩ := List.mem_map.mp hmem
            exact hfree y hy (by rw [hkey]; exact List.mem_cons_self)
          · intro y hy
            rcases List.mem_cons.mp hy with rfl | hy
            · exact hnew
            · exact fun hmem => hfree y hy (List.mem_cons_of_mem _ hmem)
        · rintro ⟨hcheck, hnodup, hfree, rfl⟩
          rw [List.map_cons, List.nodup_cons] at hnodup
          refine ⟨_, ⟨(), hcheck x List.mem_cons_self, (), hfree x List.mem_cons_self, rfl⟩,
            fun y hy => hcheck y (List.mem_cons_of_mem _ hy), hnodup.2, ?_, by simp⟩
          intro y hy hmem
          rcases List.mem_cons.mp hmem with hkey | hmem
          · exact hnodup.1 (hkey ▸ List.mem_map_of_mem hy)
          · exact hfree y (List.mem_cons_of_mem _ hy) hmem
  rw [distinct, hfrom]
  simp

theorem distinct_andThen {κ : Type} [DecidableEq κ] {check : α → Except ε Unit} {key : α → κ}
    {duplicate : ε} {l : List α} {y : Except ε β} {b : β} :
    (distinct check key duplicate l >>= fun _ => y) = .ok b ↔
      (∀ x ∈ l, check x = .ok ()) ∧ (l.map key).Nodup ∧ y = .ok b := by
  rw [bind_eq_ok]
  constructor
  · rintro ⟨_, hdistinct, hy⟩
    obtain ⟨hcheck, hnodup, -⟩ := distinct_eq_ok.mp hdistinct
    exact ⟨hcheck, hnodup, hy⟩
  · rintro ⟨hcheck, hnodup, hy⟩
    exact ⟨_, distinct_eq_ok.mpr ⟨hcheck, hnodup, rfl⟩, hy⟩

/-! ## Errors -/

/-- A program whose errors all satisfy `P`. -/
def Raises (P : ε → Prop) (x : Except ε α) : Prop := ∀ ⦃e⦄, x = .error e → P e

namespace Raises

variable {P : ε → Prop}

theorem ok (a : α) : Raises P (.ok a) := by
  intro e h
  cases h

theorem error {e : ε} (h : P e) : Raises P (.error e : Except ε α) := by
  intro e' he
  cases he
  exact h

theorem rejectIf {c : Prop} [Decidable c] {e : ε} (h : P e) : Raises P (rejectIf c e) := by
  unfold Check.rejectIf
  split
  · exact error h
  · exact ok ()

theorem bind {x : Except ε α} {f : α → Except ε β} (hx : Raises P x) (hf : ∀ a, Raises P (f a)) :
    Raises P (x >>= f) := by
  cases x with
  | error e => exact error (hx rfl)
  | ok a => exact hf a

theorem foldlM {f : β → α → Except ε β} (hf : ∀ b a, Raises P (f b a)) :
    ∀ (l : List α) (b : β), Raises P (l.foldlM f b)
  | [], b => ok b
  | x :: l, b => by
      rw [List.foldlM_cons]
      exact (hf b x).bind fun b' => foldlM hf l b'

end Raises

end Check

/-
# `Prog` — programs with an environment, a state and errors

A program reads `ρ`, threads a state `σ` and may stop with an error `ε`.  The
state survives an error: a program that fails half way has still done its first
half, and that half is what the failure theorems are about.

`wp m r s Q E` is the weakest precondition with two exits: `Q` for a value and
`E` for an error.  One triple then says three things at once — what holds after
success, what holds after failure, and, with an `E` that is refutable under some
hypothesis, that under this hypothesis the program does not fail.  Programs are
run apart by `wp_bind`; a loop over a list is run by `wp_foldlM`, whose
invariant names the part of the list already done.
-/
import Mathlib

/-- A program over an environment `ρ` and a state `σ`, failing with `ε`. -/
abbrev Prog (ρ ε σ : Type) := ReaderT ρ (EStateM ε σ)

namespace Prog

variable {ρ ε ε' σ τ α β : Type}

/-- The weakest precondition: `Q` on the exit with a value, `E` on the other. -/
def wp (m : Prog ρ ε σ α) (r : ρ) (s : σ) (Q : α → σ → Prop) (E : ε → σ → Prop) : Prop :=
  match m r s with
  | .ok a s' => Q a s'
  | .error e s' => E e s'

instance {m : Prog ρ ε σ α} {r : ρ} {s : σ} {Q : α → σ → Prop} {E : ε → σ → Prop}
    [∀ a s', Decidable (Q a s')] [∀ e s', Decidable (E e s')] : Decidable (m.wp r s Q E) := by
  unfold wp
  cases m r s <;> infer_instance

/-- Run a program and hand its failure to the caller as a value. -/
def attempt (m : Prog ρ ε σ α) : Prog ρ ε' σ (Except ε α) := fun r s =>
  match m r s with
  | .ok a s' => .ok (.ok a) s'
  | .error e s' => .ok (.error e) s'

/-- Fail with the failure a program answered with. -/
def check (m : Prog ρ ε σ (Except ε α)) : Prog ρ ε σ α := do
  match ← m with
  | .ok a => pure a
  | .error e => throw e

/-- A result already computed, as a program. -/
def ofExcept : Except ε α → Prog ρ ε σ α
  | .ok a => pure a
  | .error e => throw e

/-- A program under a condition. -/
def when (c : Prop) [Decidable c] (m : Prog ρ ε σ Unit) : Prog ρ ε σ Unit := if c then m else pure ()

/-- A program on a part of the state. -/
def zoom (get : τ → σ) (set : τ → σ → τ) (m : Prog ρ ε σ α) : Prog ρ ε τ α := fun r t =>
  match m r (get t) with
  | .ok a s' => .ok a (set t s')
  | .error e s' => .error e (set t s')

theorem run_bind (m : Prog ρ ε σ α) (f : α → Prog ρ ε σ β) (r : ρ) (s : σ) :
    (m >>= f) r s = match m r s with
      | .ok a s' => f a r s'
      | .error e s' => .error e s' := by
  show EStateM.bind (m r) (fun a => f a r) s = _
  unfold EStateM.bind
  cases m r s <;> rfl

@[simp] theorem wp_pure (a : α) (r : ρ) (s : σ) (Q : α → σ → Prop) (E : ε → σ → Prop) :
    (pure a : Prog ρ ε σ α).wp r s Q E ↔ Q a s := Iff.rfl

@[simp] theorem wp_bind (m : Prog ρ ε σ α) (f : α → Prog ρ ε σ β) (r : ρ) (s : σ)
    (Q : β → σ → Prop) (E : ε → σ → Prop) :
    (m >>= f).wp r s Q E ↔ m.wp r s (fun a s' => (f a).wp r s' Q E) E := by
  unfold wp
  rw [run_bind]
  cases m r s <;> rfl

@[simp] theorem wp_attempt (m : Prog ρ ε σ α) (r : ρ) (s : σ)
    (Q : Except ε α → σ → Prop) (E : ε' → σ → Prop) :
    (attempt m).wp r s Q E ↔ m.wp r s (fun a => Q (.ok a)) (fun e => Q (.error e)) := by
  unfold wp attempt
  cases m r s <;> rfl

@[simp] theorem wp_check (m : Prog ρ ε σ (Except ε α)) (r : ρ) (s : σ) (Q : α → σ → Prop)
    (E : ε → σ → Prop) :
    (check m).wp r s Q E ↔ m.wp r s (fun x s' => match x with
      | .ok a => Q a s'
      | .error e => E e s') E := by
  unfold check
  rw [wp_bind]
  unfold wp
  cases m r s with
  | error e s' => rfl
  | ok x s' => cases x <;> rfl

@[simp] theorem wp_ofExcept_ok (a : α) (r : ρ) (s : σ) (Q : α → σ → Prop) (E : ε → σ → Prop) :
    (ofExcept (.ok a) : Prog ρ ε σ α).wp r s Q E ↔ Q a s := Iff.rfl

theorem wp_ofExcept {x : Except ε α} {r : ρ} {s : σ} {Q : α → σ → Prop} {E : ε → σ → Prop}
    (hQ : ∀ a, x = .ok a → Q a s) (hE : ∀ e, x = .error e → E e s) : (ofExcept x).wp r s Q E := by
  cases x with
  | ok a => exact hQ a rfl
  | error e => exact hE e rfl

@[simp] theorem wp_zoom (get : τ → σ) (set : τ → σ → τ) (m : Prog ρ ε σ α) (r : ρ) (t : τ)
    (Q : α → τ → Prop) (E : ε → τ → Prop) :
    (zoom get set m).wp r t Q E
      ↔ m.wp r (get t) (fun a s' => Q a (set t s')) (fun e s' => E e (set t s')) := by
  unfold wp zoom
  cases m r (get t) <;> rfl

theorem wp_ite {c : Prop} [Decidable c] {m n : Prog ρ ε σ α} {r : ρ} {s : σ}
    {Q : α → σ → Prop} {E : ε → σ → Prop}
    (hm : c → m.wp r s Q E) (hn : ¬ c → n.wp r s Q E) : (if c then m else n).wp r s Q E := by
  split
  · exact hm ‹_›
  · exact hn ‹_›

theorem wp_when {c : Prop} [Decidable c] {m : Prog ρ ε σ Unit} {r : ρ} {s : σ}
    {Q : Unit → σ → Prop} {E : ε → σ → Prop} (hm : c → m.wp r s Q E) (hn : ¬ c → Q () s) :
    (when c m).wp r s Q E :=
  wp_ite hm hn

theorem wp_mono {m : Prog ρ ε σ α} {r : ρ} {s : σ} {Q Q' : α → σ → Prop} {E E' : ε → σ → Prop}
    (h : m.wp r s Q E) (hQ : ∀ a s', Q a s' → Q' a s') (hE : ∀ e s', E e s' → E' e s') :
    m.wp r s Q' E' := by
  unfold wp at *
  cases hm : m r s with
  | ok a s' => rw [hm] at h; exact hQ a s' h
  | error e s' => rw [hm] at h; exact hE e s' h

/-- The rule of consequence for the exit with a value. -/
theorem wp_conseq {m : Prog ρ ε σ α} {r : ρ} {s : σ} {Q Q' : α → σ → Prop} {E : ε → σ → Prop}
    (h : m.wp r s Q E) (hQ : ∀ a s', Q a s' → Q' a s') : m.wp r s Q' E :=
  wp_mono h hQ fun _ _ he => he

/-- The rule of composition: what the first program ensures is what the second starts from. -/
theorem wp_seq {m : Prog ρ ε σ α} {f : α → Prog ρ ε σ β} {r : ρ} {s : σ} {P : α → σ → Prop}
    {Q : β → σ → Prop} {E E' : ε → σ → Prop} (h : m.wp r s P E')
    (hf : ∀ a s', P a s' → (f a).wp r s' Q E) (hE : ∀ e s', E' e s' → E e s') :
    (m >>= f).wp r s Q E :=
  (wp_bind m f r s Q E).mpr (wp_mono h hf hE)

theorem wp_then {m : Prog ρ ε σ α} {f : α → Prog ρ ε σ β} {r : ρ} {s : σ} {P : α → σ → Prop}
    {Q : β → σ → Prop} {E : ε → σ → Prop} (h : m.wp r s P E)
    (hf : ∀ a s', P a s' → (f a).wp r s' Q E) : (m >>= f).wp r s Q E :=
  wp_seq h hf fun _ _ he => he

theorem wp_of_forall {m : Prog ρ ε σ α} {r : ρ} {s : σ} {Q : α → σ → Prop} {E : ε → σ → Prop}
    (hQ : ∀ a s', Q a s') (hE : ∀ e s', E e s') : m.wp r s Q E := by
  unfold wp
  cases m r s with
  | ok a s' => exact hQ a s'
  | error e s' => exact hE e s'

theorem wp_and {m : Prog ρ ε σ α} {r : ρ} {s : σ} {Q Q' : α → σ → Prop} {E : ε → σ → Prop}
    {P : Prop} (h : m.wp r s Q E) (h' : P → m.wp r s Q' E) :
    m.wp r s (fun a s' => Q a s' ∧ (P → Q' a s')) E := by
  unfold wp at *
  cases hm : m r s with
  | ok a s' => rw [hm] at h h'; exact ⟨h, h'⟩
  | error e s' => rw [hm] at h; exact h

theorem wp_both {m : Prog ρ ε σ α} {r : ρ} {s : σ} {Q Q' : α → σ → Prop} {E E' : ε → σ → Prop}
    (h : m.wp r s Q E) (h' : m.wp r s Q' E') :
    m.wp r s (fun a s' => Q a s' ∧ Q' a s') (fun e s' => E e s' ∧ E' e s') := by
  unfold wp at *
  cases hm : m r s with
  | ok a s' => rw [hm] at h h'; exact ⟨h, h'⟩
  | error e s' => rw [hm] at h h'; exact ⟨h, h'⟩

theorem wp_ok {m : Prog ρ ε σ α} {r : ρ} {s s' : σ} {a : α} {Q : α → σ → Prop}
    {E : ε → σ → Prop} (h : m.wp r s Q E) (hm : m r s = .ok a s') : Q a s' := by
  unfold wp at h
  rw [hm] at h
  exact h

theorem wp_error {m : Prog ρ ε σ α} {r : ρ} {s s' : σ} {e : ε} {Q : α → σ → Prop}
    {E : ε → σ → Prop} (h : m.wp r s Q E) (hm : m r s = .error e s') : E e s' := by
  unfold wp at h
  rw [hm] at h
  exact h

theorem wp_of_error {m : Prog ρ ε σ α} {r : ρ} {s s' : σ} {e : ε} {Q : α → σ → Prop}
    {E : ε → σ → Prop} (hm : m r s = .error e s') (hE : E e s') : m.wp r s Q E := by
  unfold wp
  rw [hm]
  exact hE

theorem wp_congr {m m' : Prog ρ ε σ α} {r r' : ρ} {s s' : σ} {Q : α → σ → Prop}
    {E : ε → σ → Prop} (hm : m r s = m' r' s') : m.wp r s Q E ↔ m'.wp r' s' Q E := by
  unfold wp
  rw [hm]

theorem exists_ok_of_wp {m : Prog ρ ε σ α} {r : ρ} {s : σ} {Q : α → σ → Prop}
    (h : m.wp r s Q fun _ _ => False) : ∃ a s', m r s = .ok a s' ∧ Q a s' := by
  unfold wp at h
  cases hm : m r s with
  | ok a s' => rw [hm] at h; exact ⟨a, s', rfl, h⟩
  | error e s' => rw [hm] at h; exact h.elim

/-- How a program fails. -/
def failure (m : Prog ρ ε σ α) (r : ρ) (s : σ) : Option ε :=
  match m r s with
  | .ok _ _ => none
  | .error e _ => some e

theorem failure_eq_some {m : Prog ρ ε σ α} {r : ρ} {s : σ} {e : ε} :
    m.failure r s = some e ↔ ∃ s', m r s = .error e s' := by
  unfold failure
  cases m r s <;> simp

theorem failure_eq_none {m : Prog ρ ε σ α} {r : ρ} {s : σ} :
    m.failure r s = none ↔ ∃ a s', m r s = .ok a s' := by
  unfold failure
  cases m r s <;> simp

theorem wp_self (m : Prog ρ ε σ α) (r : ρ) (s : σ) :
    m.wp r s (fun a s' => m r s = .ok a s') (fun e s' => m r s = .error e s') := by
  unfold wp
  cases m r s <;> rfl

/-- The loop rule.  `I done acc s` is the invariant when the elements of `done`
have been consumed; a step takes it one element further or exits by `E`. -/
theorem wp_foldlM {f : β → α → Prog ρ ε σ β} {r : ρ} {E : ε → σ → Prop}
    {I : List α → β → σ → Prop} :
    ∀ (todo done : List α) (acc : β) (s : σ), I done acc s →
      (∀ pre x post acc s, done ++ todo = pre ++ x :: post → I pre acc s →
        (f acc x).wp r s (fun acc' s' => I (pre ++ [x]) acc' s') E) →
      (todo.foldlM f acc).wp r s (fun acc' s' => I (done ++ todo) acc' s') E
  | [], done, acc, s, h, _ => by simpa using h
  | x :: todo, done, acc, s, h, step => by
      rw [List.foldlM_cons, wp_bind]
      refine wp_mono (step done x todo acc s rfl h) ?_ (fun _ _ he => he)
      intro acc' s' h'
      have := wp_foldlM todo (done ++ [x]) acc' s' h' (fun pre y post a t heq => by
        refine step pre y post a t ?_
        simpa using heq)
      simpa using this

theorem wp_mapM {f : α → Prog ρ ε σ β} {r : ρ} {E : ε → σ → Prop} {R : α → β → Prop} :
    ∀ {l : List α} {s : σ}, (∀ x ∈ l, ∀ s, (f x).wp r s (fun y _ => R x y) E) →
      (l.mapM f).wp r s (fun ys _ => List.Forall₂ R l ys) E
  | [], s, _ => .nil
  | x :: l, s, h => by
      rw [List.mapM_cons, wp_bind]
      refine wp_conseq (h x List.mem_cons_self s) fun y s₁ hy => ?_
      rw [wp_bind]
      refine wp_conseq (wp_mapM fun z hz => h z (List.mem_cons_of_mem _ hz)) fun ys s₂ hys => ?_
      exact .cons hy hys

/-! ## Relations that every exit keeps -/

/-- On either exit, the states before and after are related. -/
def Moves (R : σ → σ → Prop) (m : Prog ρ ε σ α) : Prop :=
  ∀ r s, m.wp r s (fun _ s' => R s s') fun _ s' => R s s'

namespace Moves

variable {R : σ → σ → Prop}

section Refl

variable [Std.Refl R]

theorem pure (a : α) : (Pure.pure a : Prog ρ ε σ α).Moves R := fun _ s => refl_of R s

theorem throw (e : ε) : (MonadExcept.throw e : Prog ρ ε σ α).Moves R := fun _ s => refl_of R s

theorem ofExcept (x : Except ε α) : (Prog.ofExcept x : Prog ρ ε σ α).Moves R := by
  cases x with
  | ok a => exact fun _ s => refl_of R s
  | error e => exact fun _ s => refl_of R s

end Refl

theorem bind [IsTrans σ R] {m : Prog ρ ε σ α} {f : α → Prog ρ ε σ β} (hm : m.Moves R)
    (hf : ∀ a, (f a).Moves R) : (m >>= f).Moves R := by
  intro r s
  rw [wp_bind]
  refine wp_mono (hm r s) (fun a s₁ h₁ => ?_) fun _ _ he => he
  exact wp_mono (hf a r s₁) (fun _ _ h₂ => trans_of R h₁ h₂) fun _ _ h₂ => trans_of R h₁ h₂

theorem attempt {m : Prog ρ ε σ α} (hm : m.Moves R) : (Prog.attempt m : Prog ρ ε' σ _).Moves R := by
  intro r s
  rw [wp_attempt]
  exact hm r s

theorem ite {c : Prop} [Decidable c] {m n : Prog ρ ε σ α} (hm : m.Moves R) (hn : n.Moves R) :
    (if c then m else n).Moves R :=
  fun r s => wp_ite (fun _ => hm r s) fun _ => hn r s

theorem foldlM [Std.Refl R] [IsTrans σ R] {f : β → α → Prog ρ ε σ β}
    (hf : ∀ acc x, (f acc x).Moves R) (l : List α) : ∀ acc, (l.foldlM f acc).Moves R := by
  induction l with
  | nil => exact fun acc => pure acc
  | cons x l ih => exact fun acc => bind (hf acc x) ih

end Moves

/-! ## Refinement

A program over one state and a coarser program over another.  They run in different
environments: the coarse one is told what the fine one ran into. -/

/-- The same answer in related states.  Errors are not told apart. -/
inductive Matched (R : σ → τ → Prop) : EStateM.Result ε σ α → EStateM.Result ε τ α → Prop
  | ok {a : α} {s : σ} {t : τ} : R s t → Matched R (.ok a s) (.ok a t)
  | error {e e' : ε} {s : σ} {t : τ} : R s t → Matched R (.error e s) (.error e' t)

/-- Every run of `m` is a run of `n` in some environment. -/
def Refines (R : σ → τ → Prop) (m : Prog ρ ε σ α) (n : Prog ρ ε τ α) : Prop :=
  ∀ r s t, R s t → ∃ r', Matched R (m r s) (n r' t)

/-- What operations answer one after another, each in its own environment. -/
def answers {ι : Type} (run : ι → Prog ρ ε σ α) : List (ρ × ι) → σ → List (Option α) × σ
  | [], s => ([], s)
  | (r, i) :: rest, s =>
      match run i r s with
      | .ok a s' => ((answers run rest s').1.cons (some a), (answers run rest s').2)
      | .error _ s' => ((answers run rest s').1.cons none, (answers run rest s').2)

namespace Refines

variable {R : σ → τ → Prop} {m : Prog ρ ε σ α} {n : Prog ρ ε τ α}

theorem guard (x : Except ε Unit) (h : Refines R m n) :
    Refines R (do ofExcept x; m) (do ofExcept x; n) := by
  cases x with
  | ok u => exact h
  | error e => exact fun r s t hR => ⟨r, .error hR⟩

/-- What follows must not depend on the environment. -/
theorem bind {k : α → Prog ρ ε σ β} {k' : α → Prog ρ ε τ β} (h : Refines R m n)
    (hk : ∀ a r r' {s t}, R s t → Matched R (k a r s) (k' a r' t)) : Refines R (m >>= k) (n >>= k') := by
  intro r s t hR
  obtain ⟨r', hm⟩ := h r s t hR
  refine ⟨r', ?_⟩
  rw [run_bind, run_bind]
  generalize m r s = x at hm
  generalize n r' t = y at hm
  cases hm with
  | ok hR => exact hk _ r r' hR
  | error hR => exact .error hR

theorem answers {ι : Type} {run : ι → Prog ρ ε σ α} {run' : ι → Prog ρ ε τ α} {s : σ} {t : τ} :
    ∀ {l : List (ρ × ι)}, (∀ x ∈ l, Refines R (run x.2) (run' x.2)) → R s t →
      ∃ l' : List (ρ × ι), l'.map Prod.snd = l.map Prod.snd
        ∧ (Prog.answers run' l' t).1 = (Prog.answers run l s).1
        ∧ R (Prog.answers run l s).2 (Prog.answers run' l' t).2 := by
  intro l
  induction l generalizing s t with
  | nil => exact fun _ hR => ⟨[], rfl, rfl, hR⟩
  | cons x l ih =>
      obtain ⟨r, i⟩ := x
      intro h hR
      obtain ⟨r', hm⟩ := h _ List.mem_cons_self r s t hR
      generalize hx : run i r s = x at hm
      generalize hy : run' i r' t = y at hm
      cases hm with
      | ok hR | error hR =>
          obtain ⟨l', hsame, hanswers, hR'⟩ := ih (fun x hx => h x (List.mem_cons_of_mem _ hx)) hR
          refine ⟨(r', i) :: l', by simp [hsame], ?_, ?_⟩
          · simp only [Prog.answers, hx, hy, hanswers]
          · simpa only [Prog.answers, hx, hy] using hR'

end Refines

end Prog

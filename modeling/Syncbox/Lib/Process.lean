/-
# `Process` — processes that exchange messages and take locks

A process is where it stands in its code, and `Op` is what it does there: work of its own,
a message to its peer, a message from it, or a lock.  Processes come in pairs joined by two
FIFO streams; a process without a peer never sends nor receives.  A lock is held from the
place where it is taken for as long as the code stays in its scope, which `holds` reads off
the place, and leaving the scope releases it.

A process that can not move waits for another: for a message of its peer, for its peer to
take one from a full stream, or for the holder of a lock.  Where a rank decreases along
`WaitsFor`, nothing waits in a circle and something can move (`Ranked.exists_step`).
-/
import Mathlib

namespace Process

/-- What a process does next.  Where a step can go several ways, the relation says which. -/
inductive Op (L M σ : Type) where
  | work (next : σ → Prop)
  | send (next : M → σ → Prop)
  | recv (next : M → σ → Prop)
  | acquire (lock : L) (next : σ)
  | halted

namespace Op

variable {L M σ : Type}

/-- Work goes somewhere, and there is something to send. -/
def Live : Op L M σ → Prop
  | work next => ∃ s, next s
  | send next => ∃ m s, next m s
  | _ => True

/-- Where an operation can lead. -/
def Next (s : σ) : Op L M σ → Prop
  | work next => next s
  | send next | recv next => ∃ m, next m s
  | acquire _ next => s = next
  | halted => False

end Op

/-- The code of the processes. -/
structure Code (A L M : Type) (σ : A → Type) where
  op : ∀ a, σ a → Op L M (σ a)
  /-- The locks in whose scope a place is. -/
  holds : ∀ a, σ a → L → Bool
  peer : A → A
  /-- Where a process ends. -/
  halt : ∀ a, σ a
  op_halt : ∀ a, op a (halt a) = .halted
  live : ∀ a s, (op a s).Live
  holds_halted : ∀ {a s l}, op a s = .halted → holds a s l = false
  /-- A scope is entered where its lock is taken. -/
  holds_next : ∀ {a s s' l}, (op a s).Next s' → holds a s' l = true →
    holds a s l = true ∨ op a s = .acquire l s'

structure Config (A L M : Type) (σ : A → Type) where
  state : ∀ a, σ a
  /-- The stream from the peer. -/
  inbox : A → List M
  owner : L → Option A

section Semantics

variable {A L M : Type} {σ : A → Type} [DecidableEq A]

/-- One step of a process, seen from the process: where it goes, and what becomes of the
stream it reads and the stream it writes. -/
inductive Act {τ : Type} (room : List M → Prop) (free : L → Prop) (ended : Prop) (halt : τ)
    (op : Op L M τ) (input output : List M) : τ → List M → List M → Prop
  | work {next s} (hop : op = .work next) (hnext : next s) :
      Act room free ended halt op input output s input output
  | send {next s m} (hop : op = .send next) (hnext : next m s) (hroom : room output) :
      Act room free ended halt op input output s input (output ++ [m])
  /-- A write to a peer that is gone fails. -/
  | broken {next} (hop : op = .send next) (hended : ended) :
      Act room free ended halt op input output halt input output
  | recv {next s m rest} (hop : op = .recv next) (hinput : input = m :: rest) (hnext : next m s) :
      Act room free ended halt op input output s rest output
  /-- A message that the process does not accept. -/
  | refuse {next m rest} (hop : op = .recv next) (hinput : input = m :: rest)
      (hnext : ∀ s, ¬ next m s) : Act room free ended halt op input output halt rest output
  /-- The stream of a peer that is gone ends. -/
  | eof {next} (hop : op = .recv next) (hinput : input = []) (hended : ended) :
      Act room free ended halt op input output halt input output
  | acquire {l s} (hop : op = .acquire l s) (hfree : free l) :
      Act room free ended halt op input output s input output

section Act

variable {τ : Type} {room : List M → Prop} {free : L → Prop} {ended : Prop} {halt s' : τ}
  {input output input' output' : List M}

@[simp]
theorem act_work {next : τ → Prop} :
    Act room free ended halt (.work next) input output s' input' output'
      ↔ next s' ∧ input' = input ∧ output' = output := by
  constructor
  · intro hact
    cases hact <;> simp_all
  · rintro ⟨hnext, rfl, rfl⟩
    exact .work rfl hnext

@[simp]
theorem act_send {next : M → τ → Prop} :
    Act room free ended halt (.send next) input output s' input' output'
      ↔ input' = input ∧ ((∃ m, next m s' ∧ room output ∧ output' = output ++ [m])
        ∨ ended ∧ s' = halt ∧ output' = output) := by
  constructor
  · intro hact
    cases hact <;> simp_all
  · rintro ⟨rfl, ⟨m, hnext, hroom, rfl⟩ | ⟨hended, rfl, rfl⟩⟩
    · exact .send rfl hnext hroom
    · exact .broken rfl hended

@[simp]
theorem act_recv_nil {next : M → τ → Prop} :
    Act room free ended halt (.recv next) [] output s' input' output'
      ↔ ended ∧ s' = halt ∧ input' = [] ∧ output' = output := by
  constructor
  · intro hact
    cases hact <;> simp_all
  · rintro ⟨hended, rfl, rfl, rfl⟩
    exact .eof rfl rfl hended

@[simp]
theorem act_recv_cons {next : M → τ → Prop} {m : M} :
    Act room free ended halt (.recv next) (m :: input) output s' input' output'
      ↔ input' = input ∧ output' = output ∧ (next m s' ∨ (∀ s, ¬ next m s) ∧ s' = halt) := by
  constructor
  · intro hact
    cases hact <;> simp_all
  · rintro ⟨rfl, rfl, hnext | ⟨hnext, rfl⟩⟩
    · exact .recv rfl rfl hnext
    · exact .refuse rfl rfl hnext

@[simp]
theorem act_acquire {l : L} {next : τ} :
    Act room free ended halt (.acquire l next) input output s' input' output'
      ↔ free l ∧ s' = next ∧ input' = input ∧ output' = output := by
  constructor
  · intro hact
    cases hact <;> simp_all
  · rintro ⟨hfree, rfl, rfl, rfl⟩
    exact .acquire rfl hfree

@[simp]
theorem act_halted : ¬ Act room free ended halt .halted input output s' input' output' := by
  intro hact
  cases hact <;> simp_all

theorem Act.next_or_halt {op : Op L M τ} (hact : Act room free ended halt op input output s' input' output') :
    op.Next s' ∧ (∀ {l}, op = .acquire l s' → free l) ∨ s' = halt := by
  cases hact with
  | work hop hnext => exact .inl ⟨hop ▸ hnext, by simp [hop]⟩
  | send hop hnext _ => exact .inl ⟨hop ▸ ⟨_, hnext⟩, by simp [hop]⟩
  | broken _ _ => exact .inr rfl
  | recv hop _ hnext => exact .inl ⟨hop ▸ ⟨_, hnext⟩, by simp [hop]⟩
  | refuse _ _ _ => exact .inr rfl
  | eof _ _ _ => exact .inr rfl
  | acquire hop hfree =>
      refine .inl ⟨hop ▸ rfl, fun heq => ?_⟩
      cases hop.symm.trans heq
      exact hfree

/-- A process at this operation waits for its peer. -/
def Stuck (room : List M → Prop) (op : Op L M τ) (input output : List M) : Prop :=
  (∃ next, op = .recv next) ∧ input = [] ∨ (∃ next, op = .send next) ∧ ¬ room output

@[simp]
theorem stuck_recv {next : M → τ → Prop} : Stuck room (.recv next : Op L M τ) input output ↔ input = [] := by
  simp [Stuck]

@[simp]
theorem stuck_send {next : M → τ → Prop} :
    Stuck room (.send next : Op L M τ) input output ↔ ¬ room output := by
  simp [Stuck]

@[simp]
theorem stuck_work {next : τ → Prop} : ¬ Stuck room (.work next : Op L M τ) input output := by
  simp [Stuck]

@[simp]
theorem stuck_acquire {l : L} {next : τ} : ¬ Stuck room (.acquire l next : Op L M τ) input output := by
  simp [Stuck]

@[simp]
theorem stuck_halted : ¬ Stuck room (.halted : Op L M τ) input output := by
  simp [Stuck]

end Act

namespace Config

variable (code : Code A L M σ)

def Halted (c : Config A L M σ) (a : A) : Prop := code.op a (c.state a) = .halted

def Free (c : Config A L M σ) (l : L) : Prop := c.owner l = none

/-- A process goes to another place, and leaves the scopes it is no longer in. -/
def move (c : Config A L M σ) (a : A) (s : σ a) : Config A L M σ where
  state := Function.update c.state a s
  inbox := c.inbox
  owner := fun l =>
    if code.holds a s l then some a else if c.owner l = some a then none else c.owner l

/-- Streams with new contents. -/
def setInbox (c : Config A L M σ) (a : A) (messages : List M) : Config A L M σ :=
  { c with inbox := Function.update c.inbox a messages }

/-- One step of process `a`. -/
inductive Step (room : List M → Prop) (a : A) (c : Config A L M σ) : Config A L M σ → Prop
  | act {s : σ a} {input output : List M}
      (hact : Act room c.Free (c.Halted code (code.peer a)) (code.halt a)
        (code.op a (c.state a)) (c.inbox a) (c.inbox (code.peer a)) s input output) :
      Step room a c (((c.move code a s).setInbox a input).setInbox (code.peer a) output)

/-- Who waits for whom. -/
inductive WaitsFor (room : List M → Prop) (c : Config A L M σ) (a : A) : A → Prop
  | recv {next} (hop : code.op a (c.state a) = .recv next) (hempty : c.inbox a = [])
      (hopen : ¬ c.Halted code (code.peer a)) : WaitsFor room c a (code.peer a)
  | send {next} (hop : code.op a (c.state a) = .send next) (hfull : ¬ room (c.inbox (code.peer a)))
      (hopen : ¬ c.Halted code (code.peer a)) : WaitsFor room c a (code.peer a)
  | lock {l next b} (hop : code.op a (c.state a) = .acquire l next) (howner : c.owner l = some b) :
      WaitsFor room c a b

end Config

/-! ## Locks -/

namespace Config

variable {code : Code A L M σ} {c c' : Config A L M σ} {room : List M → Prop} {a b : A}

@[simp]
theorem move_self {s : σ a} : (c.move code a s).state a = s :=
  Function.update_self ..

theorem move_other {s : σ a} (hne : b ≠ a) : (c.move code a s).state b = c.state b :=
  Function.update_of_ne hne ..

/-- The owners of the locks are the processes in their scopes. -/
def Owned (code : Code A L M σ) (c : Config A L M σ) : Prop :=
  ∀ l a, c.owner l = some a ↔ code.holds a (c.state a) l = true

theorem Owned.move {s : σ a} (ho : Owned code c)
    (hs : ∀ l, code.holds a s l = true → c.owner l = none ∨ c.owner l = some a) :
    Owned code (c.move code a s) := by
  intro l b
  by_cases hb : b = a
  · subst hb
    rw [move_self]
    cases hholds : code.holds b s l with
    | true => simp [Config.move, hholds]
    | false =>
        simp only [Config.move, hholds, Bool.false_eq_true, if_false, iff_false]
        split
        · simp
        · assumption
  · rw [move_other hb, ← ho l b]
    cases hholds : code.holds a s l with
    | true =>
        have hfree := hs l hholds
        simp only [Config.move, hholds, if_true, Option.some.injEq]
        constructor
        · exact fun heq => absurd heq.symm hb
        · intro howner
          rcases hfree with hnone | hsome
          · rw [howner] at hnone
            cases hnone
          · rw [howner] at hsome
            cases hsome
            exact absurd rfl hb
    | false =>
        simp only [Config.move, hholds, Bool.false_eq_true, if_false]
        split
        · rename_i howner
          simp [howner, Ne.symm hb]
        · exact Iff.rfl

theorem Owned.setInbox {messages : List M} (ho : Owned code c) : Owned code (c.setInbox a messages) :=
  ho

theorem Owned.halt (ho : Owned code c) : Owned code (c.move code a (code.halt a)) :=
  ho.move fun l hholds => by rw [code.holds_halted (code.op_halt a)] at hholds; cases hholds

/-- A step takes no lock that another holds. -/
theorem Owned.step (ho : Owned code c) (hstep : Step code room a c c') : Owned code c' := by
  cases hstep with
  | @act s input output hact =>
      refine (ho.move fun l hholds => ?_).setInbox.setInbox
      -- Whatever was in scope before the step is its own.
      have hkeep : code.holds a (c.state a) l = true → c.owner l = none ∨ c.owner l = some a :=
        fun h => .inr ((ho l a).mpr h)
      have hhalt : code.holds a (code.halt a) l ≠ true := by
        rw [code.holds_halted (code.op_halt a)]
        exact Bool.false_ne_true
      rcases hact.next_or_halt with ⟨hnext, hfree⟩ | rfl
      · rcases code.holds_next hnext hholds with hbefore | hop
        · exact hkeep hbefore
        · exact .inl (hfree hop)
      · exact absurd hholds hhalt

/-! ## Waiting -/

omit [DecidableEq A] in
theorem WaitsFor.open (ho : Owned code c) (hw : WaitsFor code room c a b) : ¬ c.Halted code b := by
  cases hw with
  | recv _ _ hopen => exact hopen
  | send _ _ hopen => exact hopen
  | lock _ howner =>
      intro hhalted
      have hholds := (ho _ _).mp howner
      rw [code.holds_halted hhalted] at hholds
      cases hholds

theorem step_or_waitsFor (hopen : ¬ c.Halted code a) :
    (∃ c', Step code room a c c') ∨ ∃ b, WaitsFor code room c a b := by
  cases hop : code.op a (c.state a) with
  | work next =>
      obtain ⟨s, hnext⟩ : (Op.work next).Live := hop ▸ code.live a (c.state a)
      exact .inl ⟨_, .act (.work hop hnext)⟩
  | send next =>
      by_cases hroom : room (c.inbox (code.peer a))
      · obtain ⟨m, s, hnext⟩ : (Op.send next).Live := hop ▸ code.live a (c.state a)
        exact .inl ⟨_, .act (.send hop hnext hroom)⟩
      · by_cases hpeer : c.Halted code (code.peer a)
        · exact .inl ⟨_, .act (.broken hop hpeer)⟩
        · exact .inr ⟨_, .send hop hroom hpeer⟩
  | recv next =>
      cases hinbox : c.inbox a with
      | nil =>
          by_cases hpeer : c.Halted code (code.peer a)
          · exact .inl ⟨_, .act (.eof hop hinbox hpeer)⟩
          · exact .inr ⟨_, .recv hop hinbox hpeer⟩
      | cons m rest =>
          by_cases hnext : ∃ s, next m s
          · obtain ⟨s, hnext⟩ := hnext
            exact .inl ⟨_, .act (.recv hop hinbox hnext)⟩
          · exact .inl ⟨_, .act (.refuse hop hinbox (not_exists.mp hnext))⟩
  | acquire l s =>
      cases howner : c.owner l with
      | none => exact .inl ⟨_, .act (.acquire hop howner)⟩
      | some b => exact .inr ⟨b, .lock hop howner⟩
  | halted => exact absurd hop hopen

/-- A configuration in which a rank decreases from whoever waits to whom it waits for. -/
def Ranked (code : Code A L M σ) (room : List M → Prop) (c : Config A L M σ) : Prop :=
  ∃ rank : A → Nat, ∀ {a b}, WaitsFor code room c a b → rank b < rank a

omit [DecidableEq A] in
theorem Ranked.no_cycle (hr : Ranked code room c) : ¬ Relation.TransGen (WaitsFor code room c) a a := by
  obtain ⟨rank, hrank⟩ := hr
  have hdecreases : ∀ {b}, Relation.TransGen (WaitsFor code room c) a b → rank b < rank a := by
    intro b hpath
    induction hpath with
    | single hw => exact hrank hw
    | tail _ hw ih => exact (hrank hw).trans ih
  exact fun hcycle => lt_irrefl _ (hdecreases hcycle)

/-- Something can move, since waiting leads to ever lower ranks. -/
theorem Ranked.exists_step (hr : Ranked code room c) (ho : Owned code c) (hopen : ¬ c.Halted code a) :
    ∃ b c', Step code room b c c' := by
  obtain ⟨rank, hrank⟩ := hr
  induction hn : rank a using Nat.strong_induction_on generalizing a with
  | _ n ih =>
      rcases step_or_waitsFor hopen with ⟨c', hstep⟩ | ⟨b, hw⟩
      · exact ⟨a, c', hstep⟩
      · exact ih (rank b) (hn ▸ hrank hw) (hw.open ho) rfl

end Config

end Semantics

end Process

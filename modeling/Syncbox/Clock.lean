/-
# `Syncbox.Clock` — runs of the hybrid logical clock

`tick` and `observe` of `src/types/mod.rs` as they work on the clock in place, and what any
sequence of calls does to it.  A call that fails comes before the next one like a call that
succeeds, so the first thing to know is that it leaves the clock alone (`tickInPlace_eq`,
`observeInPlace_eq`).  Everything else follows from one fact about a run: the reading of the
clock never goes back, and each call that succeeds moves it strictly forward.
-/
import Syncbox.Types

namespace Syncbox

open Rust

namespace ClockState

/-! ## In place -/

def tickInPlace (nowMs : U64) (author : EndpointId) : EStateM Error ClockState HlcTimestamp := do
  ofExcept (← get).validate
  if nowMs > (← get).lastWallMs then do
    modify fun c => { c with lastWallMs := nowMs }
    modify fun c => { c with lastCounter := 0 }
  else do
    let n ← ofExcept (bump (← get).lastCounter)
    modify fun c => { c with lastCounter := n }
  let c ← get
  pure ⟨c.lastWallMs, c.lastCounter, author⟩

def observeInPlace (remote : HlcTimestamp) (nowMs : U64) : EStateM Error ClockState Unit := do
  ofExcept (← get).validate
  let maxWall := max (max (← get).lastWallMs remote.wallMs) nowMs
  let n ← ofExcept ((← get).nextCounter remote maxWall)
  modify fun c => { c with lastWallMs := maxWall }
  modify fun c => { c with lastCounter := n }

/-- A call that fails leaves the clock as it was. -/
theorem tickInPlace_eq (nowMs : U64) (author : EndpointId) (c : ClockState) :
    tickInPlace nowMs author c = match c.tick nowMs author with
      | .ok (t, c') => .ok t c'
      | .error e => .error e c := by
  unfold tickInPlace tick advance
  simp only [bind, EStateM.bind, get, getThe, MonadStateOf.get, EStateM.get]
  cases c.validate with
  | error e => rfl
  | ok _ =>
      by_cases hlater : nowMs > c.lastWallMs
      · simp only [ofExcept, pure, EStateM.pure, if_pos hlater, Except.bind]
        rfl
      · simp only [ofExcept, pure, EStateM.pure, EStateM.bind, EStateM.get, if_neg hlater, Except.bind]
        cases bump c.lastCounter with
        | error e => rfl
        | ok n => rfl

theorem observeInPlace_eq (remote : HlcTimestamp) (nowMs : U64) (c : ClockState) :
    observeInPlace remote nowMs c = match c.observe remote nowMs with
      | .ok c' => .ok () c'
      | .error e => .error e c := by
  unfold observeInPlace observe
  simp only [bind, EStateM.bind, get, getThe, MonadStateOf.get, EStateM.get]
  cases c.validate with
  | error e => rfl
  | ok _ =>
      simp only [ofExcept, pure, EStateM.pure, Except.bind]
      cases c.nextCounter remote (max (max c.lastWallMs remote.wallMs) nowMs) with
      | error e => rfl
      | ok n => rfl

end ClockState

/-! ## Runs -/

inductive ClockCall where
  | tick (nowMs : U64) (author : EndpointId)
  | observe (remote : HlcTimestamp) (nowMs : U64)

namespace ClockCall

def nowMs : ClockCall → U64
  | tick nowMs _ => nowMs
  | observe _ nowMs => nowMs

/-- A call on a clock; only a tick returns a timestamp. -/
def run : ClockCall → EStateM Error ClockState (Option HlcTimestamp)
  | tick nowMs author => some <$> ClockState.tickInPlace nowMs author
  | observe remote nowMs => (fun _ => none) <$> ClockState.observeInPlace remote nowMs

/-- The counter that a call has to increment, when it cannot start a new one. -/
def incremented (c : ClockState) : ClockCall → Option U32
  | tick nowMs _ => if c.lastWallMs < nowMs then none else some c.lastCounter
  | observe remote nowMs =>
      if c.lastWallMs < nowMs ∧ remote.wallMs < nowMs then none
      else if c.lastWallMs < remote.wallMs then some remote.counter
      else if remote.wallMs < c.lastWallMs then some c.lastCounter
      else some (max c.lastCounter remote.counter)

end ClockCall

/-- One call of a run. -/
structure ClockStep where
  before : ClockState
  call : ClockCall
  /-- What the call returned, and the clock after it. -/
  outcome : EStateM.Result Error ClockState (Option HlcTimestamp)

namespace ClockStep

def after (s : ClockStep) : ClockState :=
  match s.outcome with
  | .ok _ c => c
  | .error _ c => c

def Succeeded (s : ClockStep) : Prop := ∃ r c, s.outcome = .ok r c

/-- The call was a tick that returned `t`. -/
def Returned (s : ClockStep) (t : HlcTimestamp) : Prop := ∃ c, s.outcome = .ok (some t) c

/-- The call was a successful `observe` of `r`. -/
def Observed (s : ClockStep) (r : HlcTimestamp) : Prop :=
  s.Succeeded ∧ ∃ nowMs, s.call = .observe r nowMs

end ClockStep

/-- The calls made one after the other, whether they fail or not. -/
def ClockState.trace (c : ClockState) : List ClockCall → List ClockStep
  | [] => []
  | call :: calls =>
      let step : ClockStep := ⟨c, call, call.run c⟩
      step :: step.after.trace calls

/-! ## One call -/

namespace ClockState

variable {c : ClockState}

theorem bump_eq_error {n : U32} {e : Error} (hb : bump n = .error e) : n = U32_MAX := by
  unfold bump at hb
  split at hb
  · cases hb
  · exact checkedAddOne_eq_none.mp ‹_›

/-- The four branches of `observe` increment the counter of whichever reading is the last. -/
theorem nextCounter_eq (remote : HlcTimestamp) (nowMs : U64) :
    c.nextCounter remote (max (max c.lastWallMs remote.wallMs) nowMs)
      = match (ClockCall.observe remote nowMs).incremented c with
        | some n => bump n
        | none => .ok 0 := by
  unfold nextCounter ClockCall.incremented
  by_cases hnow : c.lastWallMs < nowMs ∧ remote.wallMs < nowMs
  · have hmax : max (max c.lastWallMs remote.wallMs) nowMs = nowMs :=
      max_eq_right (max_le hnow.1.le hnow.2.le)
    simp only [hmax, hnow.1.ne', hnow.2.ne', hnow, and_self, if_true, if_false]
  · have hmax : max (max c.lastWallMs remote.wallMs) nowMs = max c.lastWallMs remote.wallMs := by
      refine max_eq_left ?_
      by_contra hlt
      rw [not_le, max_lt_iff] at hlt
      exact hnow hlt
    rw [hmax]
    simp only [hnow, if_false]
    rcases lt_trichotomy c.lastWallMs remote.wallMs with hlt | heq | hgt
    · simp only [max_eq_right hlt.le, hlt.ne', hlt, false_and, if_true, if_false]
    · simp only [heq, max_self, and_self, lt_irrefl, if_true, if_false]
    · simp only [max_eq_left hgt.le, hgt.ne', hgt, hgt.not_gt, and_false, if_true, if_false]

theorem tick_wall {c' : ClockState} {nowMs : U64} {author : EndpointId} {t : HlcTimestamp}
    (ht : c.tick nowMs author = .ok (t, c')) : nowMs ≤ c'.lastWallMs := by
  simp only [tick, Check.bind_eq_ok] at ht
  obtain ⟨-, -, c₁, hadvance, heq⟩ := ht
  cases heq
  unfold advance at hadvance
  split at hadvance
  · cases hadvance
    exact le_rfl
  · rename_i hearly
    obtain ⟨n, -, rfl⟩ := Check.map_eq_ok.mp hadvance
    exact not_lt.mp hearly

theorem observe_wall {c' : ClockState} {remote : HlcTimestamp} {nowMs : U64}
    (ho : c.observe remote nowMs = .ok c') : nowMs ≤ c'.lastWallMs := by
  simp only [observe, Check.bind_eq_ok] at ho
  obtain ⟨-, -, n, -, heq⟩ := ho
  cases heq
  exact le_max_right _ _

end ClockState

namespace ClockCall

variable {c c' : ClockState} {call : ClockCall}

theorem run_eq_ok {r : Option HlcTimestamp} (hrun : call.run c = .ok r c') :
    (∃ nowMs author t, call = .tick nowMs author ∧ r = some t ∧ c.tick nowMs author = .ok (t, c'))
      ∨ ∃ remote nowMs, call = .observe remote nowMs ∧ r = none ∧ c.observe remote nowMs = .ok c' := by
  cases call with
  | tick nowMs author =>
      simp only [run, Functor.map, EStateM.map, ClockState.tickInPlace_eq] at hrun
      cases ht : c.tick nowMs author with
      | error e => rw [ht] at hrun; cases hrun
      | ok x =>
          rw [ht] at hrun
          cases hrun
          exact .inl ⟨nowMs, author, x.1, rfl, rfl, ht⟩
  | observe remote nowMs =>
      simp only [run, Functor.map, EStateM.map, ClockState.observeInPlace_eq] at hrun
      cases ho : c.observe remote nowMs with
      | error e => rw [ho] at hrun; cases hrun
      | ok c₁ =>
          rw [ho] at hrun
          cases hrun
          exact .inr ⟨remote, nowMs, rfl, rfl, ho⟩

theorem run_eq_error {e : Error} (hrun : call.run c = .error e c') :
    c' = c ∧ (c.validate = .ok () → call.incremented c = some U32_MAX) := by
  cases call with
  | tick nowMs author =>
      simp only [run, Functor.map, EStateM.map, ClockState.tickInPlace_eq] at hrun
      cases ht : c.tick nowMs author with
      | ok x => rw [ht] at hrun; cases hrun
      | error e' =>
          rw [ht] at hrun
          cases hrun
          refine ⟨rfl, fun hvalid => ?_⟩
          simp only [ClockState.tick, ClockState.advance, hvalid, bind, Except.bind] at ht
          split at ht
          · rename_i hadvance
            split at hadvance
            · cases hadvance
            · rename_i hearly
              cases hb : ClockState.bump c.lastCounter with
              | ok n => rw [hb] at hadvance; cases hadvance
              | error e₁ =>
                  rw [incremented, if_neg hearly, ClockState.bump_eq_error hb]
          · cases ht
  | observe remote nowMs =>
      simp only [run, Functor.map, EStateM.map, ClockState.observeInPlace_eq] at hrun
      cases ho : c.observe remote nowMs with
      | ok c₁ => rw [ho] at hrun; cases hrun
      | error e' =>
          rw [ho] at hrun
          cases hrun
          refine ⟨rfl, fun hvalid => ?_⟩
          simp only [ClockState.observe, hvalid, ClockState.nextCounter_eq, bind, Except.bind] at ho
          cases hi : (observe remote nowMs).incremented c with
          | none => rw [hi] at ho; cases ho
          | some n =>
              rw [hi] at ho
              cases hb : ClockState.bump n with
              | ok m => simp only [hb] at ho; cases ho
              | error e₁ => rw [ClockState.bump_eq_error hb]

theorem run_forward {r : Option HlcTimestamp} (hrun : call.run c = .ok r c') :
    c.stamp < c'.stamp ∧ c'.formatVersion = c.formatVersion ∧ call.nowMs ≤ c'.lastWallMs
      ∧ (∀ t, r = some t → t.stamp = c'.stamp)
      ∧ ∀ remote nowMs, call = .observe remote nowMs → remote.stamp < c'.stamp := by
  rcases run_eq_ok hrun with ⟨nowMs, author, t, rfl, rfl, ht⟩ | ⟨remote, nowMs, rfl, rfl, ho⟩
  · obtain ⟨hlt, hstamp, -, hversion⟩ := ClockState.tick_stamp ht
    refine ⟨hlt, hversion, ClockState.tick_wall ht, fun t' he => ?_, fun _ _ he => (by cases he)⟩
    cases he
    exact hstamp
  · obtain ⟨hlt, hremote, hversion⟩ := ClockState.observe_stamp ho
    refine ⟨hlt, hversion, ClockState.observe_wall ho, fun t he => (by cases he), fun remote' nowMs' he => ?_⟩
    cases he
    exact hremote

end ClockCall

/-! ## All calls -/

namespace ClockState

variable {c : ClockState} {calls : List ClockCall}

theorem outcome_of_mem_trace {s : ClockStep} (hs : s ∈ c.trace calls) : s.outcome = s.call.run s.before := by
  induction calls generalizing c with
  | nil => cases hs
  | cons call calls ih =>
      rcases List.mem_cons.mp hs with rfl | hs
      · rfl
      · exact ih hs

end ClockState

namespace ClockStep

variable {s : ClockStep} (hrun : s.outcome = s.call.run s.before)
include hrun

theorem forward (hs : s.Succeeded) : s.before.stamp < s.after.stamp
    ∧ s.call.nowMs ≤ s.after.lastWallMs ∧ (∀ t, s.Returned t → t.stamp = s.after.stamp)
    ∧ ∀ remote, s.Observed remote → remote.stamp < s.after.stamp := by
  obtain ⟨r, c', hok⟩ := hs
  have hafter : s.after = c' := by rw [after, hok]
  obtain ⟨hlt, -, hwall, hstamp, hremote⟩ := ClockCall.run_forward (hrun.symm.trans hok)
  rw [hafter]
  refine ⟨hlt, hwall, ?_, ?_⟩
  · rintro t ⟨c₁, ht⟩
    rw [hok] at ht
    cases ht
    exact hstamp t rfl
  · rintro remote ⟨-, nowMs, hcall⟩
    exact hremote remote nowMs hcall

theorem before_le_after : s.before.stamp ≤ s.after.stamp
    ∧ s.after.formatVersion = s.before.formatVersion := by
  cases ho : s.outcome with
  | ok r c' =>
      obtain ⟨hlt, hversion, -⟩ := ClockCall.run_forward (hrun.symm.trans ho)
      rw [after, ho]
      exact ⟨hlt.le, hversion⟩
  | error e c' =>
      obtain ⟨rfl, -⟩ := ClockCall.run_eq_error (hrun.symm.trans ho)
      rw [after, ho]
      exact ⟨le_rfl, rfl⟩

theorem failed (hs : ¬ s.Succeeded) : s.after = s.before
    ∧ (s.before.validate = .ok () → s.call.incremented s.before = some U32_MAX) := by
  cases ho : s.outcome with
  | ok r c' => exact absurd ⟨r, c', ho⟩ hs
  | error e c' =>
      obtain ⟨rfl, hcounter⟩ := ClockCall.run_eq_error (hrun.symm.trans ho)
      rw [after, ho]
      exact ⟨rfl, hcounter⟩

end ClockStep

namespace ClockState

variable {c : ClockState} {calls : List ClockCall}

theorem le_of_mem_trace {s : ClockStep} (hs : s ∈ c.trace calls) :
    c.stamp ≤ s.before.stamp ∧ s.before.formatVersion = c.formatVersion := by
  induction calls generalizing c with
  | nil => cases hs
  | cons call calls ih =>
      rcases List.mem_cons.mp hs with rfl | hs
      · exact ⟨le_rfl, rfl⟩
      · have hstep := @ClockStep.before_le_after ⟨c, call, call.run c⟩ rfl
        obtain ⟨hle, hversion⟩ := ih hs
        exact ⟨hstep.1.trans hle, hversion.trans hstep.2⟩

/-- Of two calls, the later starts no earlier than the first one left the clock. -/
theorem pairwise_trace : (c.trace calls).Pairwise fun s s' => s.after.stamp ≤ s'.before.stamp := by
  induction calls generalizing c with
  | nil => exact List.Pairwise.nil
  | cons call calls ih => exact List.pairwise_cons.mpr ⟨fun s' hs' => (le_of_mem_trace hs').1, ih⟩

theorem lastWallMs_le {c c' : ClockState} (hle : c.stamp ≤ c'.stamp) :
    c.lastWallMs ≤ c'.lastWallMs := by
  rcases Prod.Lex.le_iff.mp hle with hlt | ⟨heq, -⟩
  · exact le_of_lt hlt
  · exact le_of_eq heq

/-- The laws of the clock, for any calls on any clock: a call that succeeds moves it forward;
later ticks return later timestamps; a tick after an `observe` returns a timestamp after the
one observed; the clock is never behind a time it was given; and a call fails only when the
counter it has to increment is at its end, and then changes nothing. -/
theorem clock_laws (c : ClockState) (calls : List ClockCall) :
    (∀ s ∈ c.trace calls, s.Succeeded → s.before.stamp < s.after.stamp)
      ∧ (c.trace calls).Pairwise (fun s s' => ∀ t t', s.Returned t → s'.Returned t' → t < t')
      ∧ (c.trace calls).Pairwise (fun s s' => ∀ r t, s.Observed r → s'.Returned t → r < t)
      ∧ (∀ s ∈ c.trace calls, s.Succeeded → s.call.nowMs ≤ s.after.lastWallMs)
      ∧ (c.trace calls).Pairwise (fun s s' => s.Succeeded →
        s.call.nowMs ≤ s'.before.lastWallMs ∧ s.call.nowMs ≤ s'.after.lastWallMs)
      ∧ (c.validate = .ok () → ∀ s ∈ c.trace calls, ¬ s.Succeeded →
        s.call.incremented s.before = some U32_MAX ∧ s.after = s.before) := by
  have hcall : ∀ {s}, s ∈ c.trace calls → s.outcome = s.call.run s.before := outcome_of_mem_trace
  have hreturned : ∀ {s : ClockStep} {t}, s.Returned t → s.Succeeded := fun ⟨c', ht⟩ => ⟨_, c', ht⟩
  -- a timestamp that a later tick returns is past the clock as the earlier call left it
  have hlater : ∀ {s s' : ClockStep} {t}, s' ∈ c.trace calls → s.after.stamp ≤ s'.before.stamp →
      s'.Returned t → s.after.stamp < t.stamp := by
    intro s s' t hs' hle ht
    obtain ⟨hlt, -, hstamp, -⟩ := ClockStep.forward (hcall hs') (hreturned ht)
    rw [hstamp t ht]
    exact hle.trans_lt hlt
  have hpair := @pairwise_trace c calls
  refine ⟨fun s hs hok => (ClockStep.forward (hcall hs) hok).1, ?_, ?_,
    fun s hs hok => (ClockStep.forward (hcall hs) hok).2.1, ?_, fun hvalid s hs hfail => ?_⟩
  · refine hpair.imp_of_mem fun {s s'} hs hs' hle t t' ht ht' => HlcTimestamp.lt_of_stamp_lt ?_
    rw [(ClockStep.forward (hcall hs) (hreturned ht)).2.2.1 t ht]
    exact hlater hs' hle ht'
  · refine hpair.imp_of_mem fun {s s'} hs hs' hle r t hr ht => HlcTimestamp.lt_of_stamp_lt ?_
    exact ((ClockStep.forward (hcall hs) hr.1).2.2.2 r hr).trans (hlater hs' hle ht)
  · refine hpair.imp_of_mem fun {s s'} hs hs' hle hok => ?_
    have hnow := (ClockStep.forward (hcall hs) hok).2.1.trans (lastWallMs_le hle)
    exact ⟨hnow, hnow.trans (lastWallMs_le (ClockStep.before_le_after (hcall hs')).1)⟩
  · obtain ⟨hsame, hcounter⟩ := ClockStep.failed (hcall hs) hfail
    refine ⟨hcounter ?_, hsame⟩
    rw [validate, (le_of_mem_trace hs).2]
    exact hvalid

/-- A timestamp from the future is observed, then time goes back and the clock ticks. -/
theorem clock_laws_future :
    let author : EndpointId := ⟨List.replicate 32 0, rfl⟩
    let r : HlcTimestamp := ⟨9, 4, author⟩
    let t : HlcTimestamp := ⟨9, 6, author⟩
    ∃ s s', new.trace [.observe r 5, .tick 3 author] = [s, s'] ∧ s.Observed r ∧ s'.Returned t
      ∧ r < t := by
  intro author r t
  have hlaws := (clock_laws new [.observe r 5, .tick 3 author]).2.2.1
  have hobserved : (ClockStep.mk new (.observe r 5) ((ClockCall.observe r 5).run new)).Observed r :=
    ⟨⟨none, ⟨1, 9, 5⟩, rfl⟩, 5, rfl⟩
  refine ⟨_, _, rfl, hobserved, ⟨⟨1, 9, 6⟩, rfl⟩, ?_⟩
  exact (List.pairwise_cons.mp hlaws).1 _ List.mem_cons_self r t hobserved ⟨⟨1, 9, 6⟩, rfl⟩

end ClockState

end Syncbox

/-
# `Syncbox.Network.Schedule` — when a peer is tried again

A peer is tried again when the manifest has moved on since its last attempt, or when the
delay that the attempt recorded has passed (`PeerSchedule::due` of
`src/network/scheduling.rs`).  Two counters protect against attempts that look at the world
too early: a session reads both before it begins (`run_peer_session` of
`src/network/peer_sessions.rs`), records the one for the manifest, and compares the other
with its value at the end (`record_peer_attempt` of `src/network/state.rs`).

The counters are read and raised without the lock of the schedules, so the steps here are
those between which another task can run: a retry raises its counter and only later takes
the lock; a session takes the lock, writes its result, and then looks at the counter; a save
replaces the manifest and then raises its counter.

Both counters are 64 bits wide and `fetch_add` wraps them.  They are only compared for
equality, which tells old from new as long as no counter comes round within a run: `Room` is
the number of further events for which that is certain, and every event takes one.
-/
import Syncbox.Lib.Rust

namespace Syncbox

open Rust

/-- Nanoseconds on the monotonic clock. -/
abbrev Instant := Nat

def secs (n : Nat) : Nat := n * 1000000000

def SYNC_INTERVAL : Nat := secs 5
def IDLE_PEER_INTERVAL : Nat := secs 30

structure PeerSyncOutcome where
  pendingDownloads : Nat
  pendingUpdates : Nat

/-- The parts of `SyncOutcome` that a session fills in. -/
structure SyncOutcome where
  connected : Bool
  pendingDownloads : Nat
  pendingUpdates : Nat

structure PeerSchedule where
  nextAt : Option Instant
  lastAttemptedGeneration : U64
  failures : Nat
  lastOutcome : Option PeerSyncOutcome

namespace PeerSchedule

/-- `PeerSchedule::default`. -/
def new : PeerSchedule := ⟨none, 0, 0, none⟩

def retryNow (p : PeerSchedule) : PeerSchedule := { p with nextAt := none, failures := 0 }

def due (p : PeerSchedule) (now : Instant) (generation : U64) : Bool :=
  generation ≠ p.lastAttemptedGeneration || p.nextAt.all fun at_ => at_ ≤ now

/-- `jitter` is the random part of the delay after a failure, in milliseconds. -/
def afterAttempt (p : PeerSchedule) (now : Instant) (generation : U64) (outcome : Option SyncOutcome)
    (jitter : Fin 1000) : PeerSchedule :=
  let lastOutcome := (outcome.filter SyncOutcome.connected).map fun o =>
    ⟨o.pendingDownloads, o.pendingUpdates⟩
  match outcome.filter SyncOutcome.connected with
  | some o =>
      let delay := if o.pendingDownloads > 0 ∨ o.pendingUpdates > 0 then SYNC_INTERVAL
        else IDLE_PEER_INTERVAL
      ⟨some (now + delay), generation, 0, lastOutcome⟩
  | none =>
      let delay := min (SYNC_INTERVAL * 2 ^ min p.failures 3 + jitter * 1000000) IDLE_PEER_INTERVAL
      ⟨some (now + delay), generation, min (p.failures + 1) (2 ^ 32 - 1), lastOutcome⟩

theorem afterAttempt_generation (p : PeerSchedule) (now : Instant) (generation : U64)
    (outcome : Option SyncOutcome) (jitter : Fin 1000) :
    (p.afterAttempt now generation outcome jitter).lastAttemptedGeneration = generation := by
  unfold afterAttempt
  dsimp only
  split <;> rfl

theorem due_of_generation {p : PeerSchedule} {generation : U64}
    (hne : generation ≠ p.lastAttemptedGeneration) (now : Instant) : p.due now generation = true := by
  simp [due, hne]

theorem due_of_nextAt {p : PeerSchedule} (hnone : p.nextAt = none) (now : Instant)
    (generation : U64) : p.due now generation = true := by
  simp [due, hnone]

end PeerSchedule

/-! ## The tasks of a share -/

/-- Where a session is with its attempt. -/
inductive Attempt where
  | idle
  /-- It has read `manifest_generation`. -/
  | reading (generation : U64)
  /-- It has read both generations, and synchronises. -/
  | started (generation network : U64)
  /-- It holds the lock of the schedules and has written its result. -/
  | recording (generation network : U64)
  | recorded (generation network : U64)
  /-- The endpoint was closed before it began. -/
  | ended
  deriving DecidableEq

inductive Retry where
  | idle
  /-- It has raised `network_generation`, and waits for the lock of the schedules. -/
  | raised
  | done
  deriving DecidableEq

inductive Save where
  | idle
  /-- It has replaced the manifest, or failed to. -/
  | written
  | done
  deriving DecidableEq

/-- What the scheduler of a share works with, and where its tasks are. -/
structure Scheduler (P : Type) where
  manifestGeneration : U64
  networkGeneration : U64
  schedules : P → Option PeerSchedule
  /-- The session that holds the lock of the schedules across steps. -/
  lock : Option Nat
  /-- The save that holds the mutex of the manifest's cache. -/
  cacheLock : Option Nat
  attempts : Nat → Attempt
  retries : Nat → Retry
  saves : Nat → Save
  /-- The session that recorded last.  The code does not keep it and nothing reads it. -/
  recorder : P → Option Nat

namespace Scheduler

variable {P : Type} [DecidableEq P]

inductive Event where
  | readManifest (s : Nat)
  | readNetwork (s : Nat)
  | close (s : Nat)
  /-- `record_peer_attempt`, up to its look at `network_generation`. -/
  | record (s : Nat) (now : Instant) (outcome : Option SyncOutcome) (jitter : Fin 1000)
  | compare (s : Nat)
  | raise (r : Nat)
  | retryAll (r : Nat)
  | write (w : Nat)
  | raiseManifest (w : Nat)

/-- Nothing has happened to a share whose schedules are empty. -/
def new : Scheduler P where
  manifestGeneration := 0
  networkGeneration := 0
  schedules := fun _ => none
  lock := none
  cacheLock := none
  attempts := fun _ => .idle
  retries := fun _ => .idle
  saves := fun _ => .idle
  recorder := fun _ => none

/-- One event, where it can happen.  Session `s` is with `peer s`. -/
def step (peer : Nat → P) (c : Scheduler P) : Event → Option (Scheduler P)
  | .readManifest s =>
      if c.attempts s = .idle then
        some { c with attempts := Function.update c.attempts s (.reading c.manifestGeneration) }
      else none
  | .readNetwork s =>
      match c.attempts s with
      | .reading generation =>
          some { c with
            attempts := Function.update c.attempts s (.started generation c.networkGeneration) }
      | _ => none
  | .close s =>
      if c.attempts s = .idle then
        some { c with attempts := Function.update c.attempts s .ended }
      else none
  | .record s now outcome jitter =>
      match c.attempts s, c.lock with
      | .started generation network, none =>
          let schedule := (c.schedules (peer s)).getD .new
          some { c with
            lock := some s
            schedules := Function.update c.schedules (peer s)
              (some (schedule.afterAttempt now generation outcome jitter))
            attempts := Function.update c.attempts s (.recording generation network)
            recorder := Function.update c.recorder (peer s) (some s) }
      | _, _ => none
  | .compare s =>
      match c.attempts s with
      | .recording generation network =>
          some { c with
            lock := none
            schedules := if c.networkGeneration ≠ network then
                Function.update c.schedules (peer s) ((c.schedules (peer s)).map PeerSchedule.retryNow)
              else c.schedules
            attempts := Function.update c.attempts s (.recorded generation network) }
      | _ => none
  | .raise r =>
      if c.retries r = .idle then
        some { c with
          networkGeneration := c.networkGeneration + 1
          retries := Function.update c.retries r .raised }
      else none
  | .retryAll r =>
      match c.retries r, c.lock with
      | .raised, none =>
          some { c with
            schedules := fun p => (c.schedules p).map PeerSchedule.retryNow
            retries := Function.update c.retries r .done }
      | _, _ => none
  | .write w =>
      if c.saves w = .idle ∧ c.cacheLock = none then
        some { c with
          cacheLock := some w
          saves := Function.update c.saves w .written }
      else none
  | .raiseManifest w =>
      if c.saves w = .written then
        some { c with
          manifestGeneration := c.manifestGeneration + 1
          cacheLock := none
          saves := Function.update c.saves w .done }
      else none

/-- Events one after the other. -/
def run (peer : Nat → P) (c : Scheduler P) (events : List Event) : Option (Scheduler P) :=
  events.foldlM (step peer) c

/-- Every task that has begun has come to its end. -/
structure Settled (c : Scheduler P) : Prop where
  attempts : ∀ s, c.attempts s = .idle ∨ c.attempts s = .ended
    ∨ ∃ generation network, c.attempts s = .recorded generation network
  retries : ∀ r, c.retries r ≠ .raised
  saves : ∀ w, c.saves w ≠ .written

end Scheduler

/-- The generations that a session has read. -/
def Attempt.read : Attempt → Option (U64 × U64)
  | started generation network | recording generation network | recorded generation network =>
      some (generation, network)
  | _ => none

namespace Scheduler

section Invariant

variable {P : Type} {peer : Nat → P} {c c' : Scheduler P} {e : Event} {n : Nat}

/-- Neither counter comes round within `n` events. -/
structure Room (c : Scheduler P) (n : Nat) : Prop where
  manifest : c.manifestGeneration.val + n < 2 ^ 64
  network : c.networkGeneration.val + n < 2 ^ 64

/-- What one event does to the tasks and the counters. -/
structure Progress (c c' : Scheduler P) : Prop where
  manifest : c.manifestGeneration ≤ c'.manifestGeneration
  network : c.networkGeneration ≤ c'.networkGeneration
  read : ∀ {s pair}, (c.attempts s).read = some pair → (c'.attempts s).read = some pair
  saved : ∀ {w}, c.saves w = .written → c'.saves w = .written
    ∨ c.manifestGeneration < c'.manifestGeneration

theorem Progress.refl (c : Scheduler P) : Progress c c := ⟨le_rfl, le_rfl, id, .inl⟩

theorem Progress.trans {c'' : Scheduler P} (h₁ : Progress c c') (h₂ : Progress c' c'') :
    Progress c c'' where
  manifest := h₁.manifest.trans h₂.manifest
  network := h₁.network.trans h₂.network
  read := fun h => h₂.read (h₁.read h)
  saved := fun h => by
    rcases h₁.saved h with h | h
    · exact (h₂.saved h).imp_right fun h => lt_of_le_of_lt h₁.manifest h
    · exact .inr (lt_of_lt_of_le h h₂.manifest)

theorem read_update {s s' : Nat} {attempt : Attempt} {pair : U64 × U64}
    (hs : ∀ pair, (c.attempts s').read = some pair → attempt.read = some pair)
    (hread : (c.attempts s).read = some pair) :
    (Function.update c.attempts s' attempt s).read = some pair := by
  by_cases heq : s = s'
  · subst heq
    rw [Function.update_self]
    exact hs pair hread
  · rw [Function.update_of_ne heq]
    exact hread

/-- What the schedule of a peer says about the session that recorded last: its result is
there, and once the session is done, a retry that it did not see has reached the schedule or
is about to. -/
structure Recorded (peer : Nat → P) (c : Scheduler P) (p : P) (s : Nat) (schedule : PeerSchedule)
    (generation network : U64) : Prop where
  with_ : peer s = p
  found : c.schedules p = some schedule
  attempted : schedule.lastAttemptedGeneration = generation
  done : c.attempts s = .recording generation network ∨ c.attempts s = .recorded generation network
    ∧ (schedule.nextAt = none ∨ c.networkGeneration = network ∨ ∃ r, c.retries r = .raised)

structure Inv (peer : Nat → P) (c : Scheduler P) : Prop where
  reading : ∀ {s generation}, c.attempts s = .reading generation → generation ≤ c.manifestGeneration
  read : ∀ {s generation network}, (c.attempts s).read = some (generation, network) →
    generation ≤ c.manifestGeneration ∧ network ≤ c.networkGeneration
  lock : ∀ {s generation network}, c.attempts s = .recording generation network →
    c.lock = some s ∧ c.recorder (peer s) = some s
  recorder : ∀ {p s}, c.recorder p = some s →
    ∃ schedule generation network, Recorded peer c p s schedule generation network

theorem inv_new : Inv peer (new : Scheduler P) where
  reading := fun h => by cases h
  read := fun h => by cases h
  lock := fun h => by cases h
  recorder := fun h => by cases h

/-- A session that has not recorded yet moves on to where it still has not. -/
theorem Inv.move {s : Nat} {attempt : Attempt} (hi : Inv peer c)
    (hold : ∀ generation network, c.attempts s ≠ .recording generation network
      ∧ c.attempts s ≠ .recorded generation network)
    (hnew : ∀ generation network, attempt ≠ .recording generation network)
    (hreading : ∀ {generation}, attempt = .reading generation → generation ≤ c.manifestGeneration)
    (hread : ∀ {generation network}, attempt.read = some (generation, network) →
      generation ≤ c.manifestGeneration ∧ network ≤ c.networkGeneration) :
    Inv peer { c with attempts := Function.update c.attempts s attempt } where
  reading := by
    intro s' generation
    show Function.update c.attempts s attempt s' = _ → _
    by_cases heq : s' = s
    · rw [heq, Function.update_self]
      exact hreading
    · rw [Function.update_of_ne heq]
      exact hi.reading
  read := by
    intro s' generation network
    show (Function.update c.attempts s attempt s').read = _ → _
    by_cases heq : s' = s
    · rw [heq, Function.update_self]
      exact hread
    · rw [Function.update_of_ne heq]
      exact hi.read
  lock := by
    intro s' generation network
    show Function.update c.attempts s attempt s' = _ → _
    by_cases heq : s' = s
    · rw [heq, Function.update_self]
      exact fun h => absurd h (hnew generation network)
    · rw [Function.update_of_ne heq]
      exact hi.lock
  recorder := by
    intro p s' hp
    obtain ⟨schedule, generation, network, hrec⟩ := hi.recorder hp
    have hne : s' ≠ s := by
      rintro rfl
      rcases hrec.done with h | ⟨h, -⟩
      · exact (hold generation network).1 h
      · exact (hold generation network).2 h
    refine ⟨schedule, generation, network, hrec.with_, hrec.found, hrec.attempted, ?_⟩
    show Function.update c.attempts s attempt s' = _ ∨ Function.update c.attempts s attempt s' = _ ∧ _
    rw [Function.update_of_ne hne]
    exact hrec.done

theorem Inv.raise {r : Nat} (hi : Inv peer c) (hroom : c.Room 1) :
    Inv peer { c with
      networkGeneration := c.networkGeneration + 1
      retries := Function.update c.retries r .raised } where
  reading := hi.reading
  read := fun h => ⟨(hi.read h).1, (hi.read h).2.trans (lt_add_one hroom.network).le⟩
  lock := hi.lock
  recorder := by
    intro p s hp
    obtain ⟨schedule, g, n, hrec⟩ := hi.recorder hp
    exact ⟨schedule, g, n, hrec.with_, hrec.found, hrec.attempted,
      hrec.done.imp_right fun h => ⟨h.1, .inr (.inr ⟨r, Function.update_self ..⟩)⟩⟩

theorem Inv.retryAll {r : Nat} (hi : Inv peer c) :
    Inv peer { c with
      schedules := fun p => (c.schedules p).map PeerSchedule.retryNow
      retries := Function.update c.retries r .done } where
  reading := hi.reading
  read := hi.read
  lock := hi.lock
  recorder := by
    intro p s hp
    obtain ⟨schedule, g, n, hrec⟩ := hi.recorder hp
    refine ⟨schedule.retryNow, g, n, hrec.with_, ?_, hrec.attempted, ?_⟩
    · show (c.schedules p).map _ = _
      rw [hrec.found, Option.map_some]
    · exact hrec.done.imp_right fun h => ⟨h.1, .inl rfl⟩

variable [DecidableEq P]

theorem step_progress (hroom : c.Room 1) (h : c.step peer e = some c') : Progress c c' := by
  have hmoved : ∀ {s attempt}, (∀ pair, (c.attempts s).read = some pair → attempt.read = some pair) →
      Progress c { c with attempts := Function.update c.attempts s attempt } := fun hs =>
    ⟨le_rfl, le_rfl, read_update hs, .inl⟩
  cases e with
  | readManifest s | close s =>
      simp only [step, Option.ite_none_right_eq_some, Option.some.injEq] at h
      obtain ⟨hidle, rfl⟩ := h
      exact hmoved fun pair hread => by rw [hidle] at hread; cases hread
  | readNetwork s =>
      simp only [step] at h
      split at h
      · rename_i generation hs
        cases h
        exact hmoved fun pair hread => by rw [hs] at hread; cases hread
      · cases h
  | record s now outcome jitter =>
      simp only [step] at h
      split at h
      · rename_i generation network hs hlock
        cases h
        exact ⟨le_rfl, le_rfl, read_update fun pair hread => by rw [hs] at hread; exact hread, .inl⟩
      · cases h
  | compare s =>
      simp only [step] at h
      split at h
      · rename_i generation network hs
        cases h
        exact ⟨le_rfl, le_rfl, read_update fun pair hread => by rw [hs] at hread; exact hread, .inl⟩
      · cases h
  | raise r =>
      simp only [step, Option.ite_none_right_eq_some, Option.some.injEq] at h
      obtain ⟨-, rfl⟩ := h
      exact ⟨le_rfl, (lt_add_one hroom.network).le, id, .inl⟩
  | retryAll r =>
      simp only [step] at h
      split at h
      · cases h
        exact ⟨le_rfl, le_rfl, id, .inl⟩
      · cases h
  | write w =>
      simp only [step, Option.ite_none_right_eq_some, Option.some.injEq] at h
      obtain ⟨-, rfl⟩ := h
      refine ⟨le_rfl, le_rfl, id, fun {w'} hw => .inl ?_⟩
      show Function.update c.saves w .written w' = _
      by_cases heq : w' = w
      · rw [heq, Function.update_self]
      · rw [Function.update_of_ne heq, hw]
  | raiseManifest w =>
      simp only [step, Option.ite_none_right_eq_some, Option.some.injEq] at h
      obtain ⟨-, rfl⟩ := h
      exact ⟨(lt_add_one hroom.manifest).le, le_rfl, id, fun _ => .inr (lt_add_one hroom.manifest)⟩

theorem Inv.record {s : Nat} {generation network : U64} {schedule : PeerSchedule} (hi : Inv peer c)
    (hs : c.attempts s = .started generation network) (hlock : c.lock = none)
    (hschedule : schedule.lastAttemptedGeneration = generation) :
    Inv peer { c with
      lock := some s
      schedules := Function.update c.schedules (peer s) (some schedule)
      attempts := Function.update c.attempts s (.recording generation network)
      recorder := Function.update c.recorder (peer s) (some s) } where
  reading := by
    intro s' g
    show Function.update c.attempts s _ s' = _ → _
    by_cases heq : s' = s
    · rw [heq, Function.update_self]
      intro h
      cases h
    · rw [Function.update_of_ne heq]
      exact hi.reading
  read := by
    intro s' g n
    show (Function.update c.attempts s _ s').read = _ → _
    by_cases heq : s' = s
    · rw [heq, Function.update_self]
      intro h
      cases h
      exact hi.read (by rw [hs]; rfl)
    · rw [Function.update_of_ne heq]
      exact hi.read
  lock := by
    intro s' g n
    show Function.update c.attempts s _ s' = _ → some s = some s' ∧ Function.update c.recorder _ _ _ = _
    by_cases heq : s' = s
    · rw [heq, Function.update_self, Function.update_self]
      exact fun _ => ⟨rfl, rfl⟩
    · rw [Function.update_of_ne heq]
      intro h
      rw [(hi.lock h).1] at hlock
      cases hlock
  recorder := by
    intro p s'
    show Function.update c.recorder _ _ p = _ → _
    by_cases hp : p = peer s
    · subst hp
      rw [Function.update_self]
      intro h
      cases h
      exact ⟨schedule, generation, network, rfl, Function.update_self .., hschedule,
        .inl (Function.update_self ..)⟩
    · rw [Function.update_of_ne hp]
      intro h
      obtain ⟨schedule', g, n, hrec⟩ := hi.recorder h
      have hne : s' ≠ s := by
        rintro rfl
        exact hp hrec.with_.symm
      refine ⟨schedule', g, n, hrec.with_, ?_, hrec.attempted, ?_⟩
      · exact (Function.update_of_ne hp ..).trans hrec.found
      · show Function.update c.attempts s _ s' = _ ∨ Function.update c.attempts s _ s' = _ ∧ _
        rw [Function.update_of_ne hne]
        exact hrec.done

/-- The session compares the counter of the retries, and gives the lock back. -/
theorem Inv.compare {s : Nat} {generation network : U64} {schedules : P → Option PeerSchedule}
    (hi : Inv peer c) (hs : c.attempts s = .recording generation network)
    (hschedules : schedules = if c.networkGeneration ≠ network then
        Function.update c.schedules (peer s) ((c.schedules (peer s)).map PeerSchedule.retryNow)
      else c.schedules) :
    Inv peer { c with
      lock := none
      schedules := schedules
      attempts := Function.update c.attempts s (.recorded generation network) } where
  reading := by
    intro s' g
    show Function.update c.attempts s _ s' = _ → _
    by_cases heq : s' = s
    · rw [heq, Function.update_self]
      intro h
      cases h
    · rw [Function.update_of_ne heq]
      exact hi.reading
  read := by
    intro s' g n
    show (Function.update c.attempts s _ s').read = _ → _
    by_cases heq : s' = s
    · rw [heq, Function.update_self]
      intro h
      cases h
      exact hi.read (by rw [hs]; rfl)
    · rw [Function.update_of_ne heq]
      exact hi.read
  lock := by
    intro s' g n
    show Function.update c.attempts s _ s' = _ → _
    by_cases heq : s' = s
    · rw [heq, Function.update_self]
      intro h
      cases h
    · rw [Function.update_of_ne heq]
      intro h
      have := (hi.lock h).1.symm.trans (hi.lock hs).1
      cases this
      exact absurd rfl heq
  recorder := by
    intro p s' hp
    obtain ⟨schedule, g, n, hrec⟩ := hi.recorder hp
    by_cases heq : s' = s
    · subst heq
      have hattempt : g = generation ∧ n = network := by
        rcases hrec.done with h | ⟨h, -⟩ <;> rw [hs] at h <;> cases h
        exact ⟨rfl, rfl⟩
      obtain ⟨rfl, rfl⟩ := hattempt
      cases hrec.with_
      have hself : Function.update c.attempts s' (Attempt.recorded g n) s' = .recorded g n :=
        Function.update_self ..
      by_cases hnet : c.networkGeneration = n
      · rw [if_neg (by simpa using hnet)] at hschedules
        exact ⟨schedule, g, n, rfl, hschedules ▸ hrec.found, hrec.attempted,
          .inr ⟨hself, .inr (.inl hnet)⟩⟩
      · rw [if_pos hnet, hrec.found] at hschedules
        refine ⟨schedule.retryNow, g, n, rfl, ?_, hrec.attempted, .inr ⟨hself, .inl rfl⟩⟩
        rw [hschedules]
        exact Function.update_self ..
    · -- The schedule of another peer is as it was.
      have hne : p ≠ peer s := by
        rintro rfl
        have := hp.symm.trans (hi.lock hs).2
        cases this
        exact heq rfl
      refine ⟨schedule, g, n, hrec.with_, ?_, hrec.attempted, ?_⟩
      · show schedules p = _
        rw [hschedules]
        split
        · exact (Function.update_of_ne hne ..).trans hrec.found
        · exact hrec.found
      · show Function.update c.attempts s _ s' = _ ∨ Function.update c.attempts s _ s' = _ ∧ _
        rw [Function.update_of_ne heq]
        exact hrec.done

theorem Inv.step (hi : Inv peer c) (hroom : c.Room 1) (h : c.step peer e = some c') : Inv peer c' := by
  cases e with
  | readManifest s =>
      simp only [Scheduler.step, Option.ite_none_right_eq_some, Option.some.injEq] at h
      obtain ⟨hidle, rfl⟩ := h
      exact hi.move (by simp [hidle]) (by simp) (fun h => by cases h; exact le_rfl)
        (fun h => by cases h)
  | readNetwork s =>
      simp only [Scheduler.step] at h
      split at h
      · rename_i generation hs
        cases h
        exact hi.move (by simp [hs]) (by simp) (fun h => by cases h)
          (fun h => by cases h; exact ⟨hi.reading hs, le_rfl⟩)
      · cases h
  | close s =>
      simp only [Scheduler.step, Option.ite_none_right_eq_some, Option.some.injEq] at h
      obtain ⟨hidle, rfl⟩ := h
      exact hi.move (by simp [hidle]) (by simp) (fun h => by cases h) (fun h => by cases h)
  | record s now outcome jitter =>
      simp only [Scheduler.step] at h
      split at h
      · rename_i generation network hs hlock
        cases h
        exact hi.record hs hlock (PeerSchedule.afterAttempt_generation ..)
      · cases h
  | compare s =>
      simp only [Scheduler.step] at h
      split at h
      · rename_i generation network hs
        cases h
        exact hi.compare hs rfl
      · cases h
  | raise r =>
      simp only [Scheduler.step, Option.ite_none_right_eq_some, Option.some.injEq] at h
      obtain ⟨-, rfl⟩ := h
      exact hi.raise hroom
  | retryAll r =>
      simp only [Scheduler.step] at h
      split at h
      · cases h
        exact hi.retryAll
      · cases h
  | write w =>
      simp only [Scheduler.step, Option.ite_none_right_eq_some, Option.some.injEq] at h
      obtain ⟨-, rfl⟩ := h
      exact ⟨hi.reading, hi.read, hi.lock, fun hp =>
        let ⟨schedule, g, n, hrec⟩ := hi.recorder hp
        ⟨schedule, g, n, hrec.with_, hrec.found, hrec.attempted, hrec.done⟩⟩
  | raiseManifest w =>
      simp only [Scheduler.step, Option.ite_none_right_eq_some, Option.some.injEq] at h
      obtain ⟨-, rfl⟩ := h
      have hle := (lt_add_one hroom.manifest).le
      refine ⟨fun h => (hi.reading h).trans hle, fun h => ⟨(hi.read h).1.trans hle, (hi.read h).2⟩,
        hi.lock, fun hp => ?_⟩
      obtain ⟨schedule, g, n, hrec⟩ := hi.recorder hp
      exact ⟨schedule, g, n, hrec.with_, hrec.found, hrec.attempted, hrec.done⟩

theorem Room.step (hroom : c.Room (n + 1)) (h : c.step peer e = some c') : c.Room 1 ∧ c'.Room n := by
  obtain ⟨hmanifest, hnetwork⟩ := hroom
  refine ⟨⟨by omega, by omega⟩, ?_⟩
  have hsame : ∀ {c'' : Scheduler P}, c''.manifestGeneration = c.manifestGeneration →
      c''.networkGeneration = c.networkGeneration → c''.Room n := by
    intro c'' hm hn
    exact ⟨by rw [hm]; omega, by rw [hn]; omega⟩
  cases e with
  | raise r =>
      simp only [Scheduler.step, Option.ite_none_right_eq_some, Option.some.injEq] at h
      obtain ⟨-, rfl⟩ := h
      exact ⟨by dsimp only; omega, by dsimp only; rw [val_add_one (by omega)]; omega⟩
  | raiseManifest w =>
      simp only [Scheduler.step, Option.ite_none_right_eq_some, Option.some.injEq] at h
      obtain ⟨-, rfl⟩ := h
      exact ⟨by dsimp only; rw [val_add_one (by omega)]; omega, by dsimp only; omega⟩
  | readManifest s | close s | write w =>
      simp only [Scheduler.step, Option.ite_none_right_eq_some, Option.some.injEq] at h
      obtain ⟨-, rfl⟩ := h
      exact hsame rfl rfl
  | readNetwork s | record s now outcome jitter | compare s | retryAll r =>
      simp only [Scheduler.step] at h
      split at h
      · cases h
        exact hsame rfl rfl
      · cases h

/-! ## Whole runs -/

theorem run_cons {events : List Event} (hroom : c.Room (e :: events).length)
    (h : c.run peer (e :: events) = some c') : ∃ next, c.step peer e = some next
      ∧ c.Room 1 ∧ next.Room events.length ∧ next.run peer events = some c' := by
  obtain ⟨next, hstep, hrest⟩ := Option.bind_eq_some_iff.mp h
  obtain ⟨hone, hnext⟩ := Room.step hroom hstep
  exact ⟨next, hstep, hone, hnext, hrest⟩

theorem run_progress {events : List Event} (hroom : c.Room events.length)
    (h : c.run peer events = some c') : Progress c c' := by
  induction events generalizing c with
  | nil => cases h; exact .refl _
  | cons e events ih =>
      obtain ⟨next, hstep, hone, hnext, hrest⟩ := run_cons hroom h
      exact (step_progress hone hstep).trans (ih hnext hrest)

theorem Inv.run {events : List Event} (hi : Inv peer c) (hroom : c.Room (events.length + n))
    (h : c.run peer events = some c') : Inv peer c' ∧ c'.Room n := by
  induction events generalizing c with
  | nil =>
      cases h
      exact ⟨hi, by simpa using hroom⟩
  | cons e events ih =>
      obtain ⟨next, hstep, hrest⟩ := Option.bind_eq_some_iff.mp h
      rw [List.length_cons, Nat.add_right_comm] at hroom
      obtain ⟨hone, hnext⟩ := Room.step hroom hstep
      exact ih (hi.step hone hstep) hnext hrest

theorem network_lt_of_raise {events : List Event} {r : Nat} (hr : .raise r ∈ events)
    (hroom : c.Room events.length) (h : c.run peer events = some c') :
    c.networkGeneration < c'.networkGeneration := by
  induction events generalizing c with
  | nil => cases hr
  | cons e events ih =>
      obtain ⟨next, hstep, hone, hnext, hrest⟩ := run_cons hroom h
      rcases List.mem_cons.mp hr with rfl | hr
      · simp only [Scheduler.step, Option.ite_none_right_eq_some, Option.some.injEq] at hstep
        obtain ⟨-, rfl⟩ := hstep
        exact lt_of_lt_of_le (lt_add_one hone.network) (run_progress hnext hrest).network
      · exact lt_of_le_of_lt (step_progress hone hstep).network (ih hr hnext hrest)

/-- A save that has come to its end has raised its counter. -/
theorem manifest_lt_of_write {events : List Event} {w : Nat} (hw : .write w ∈ events)
    (hroom : c.Room events.length) (h : c.run peer events = some c') (hend : c'.saves w ≠ .written) :
    c.manifestGeneration < c'.manifestGeneration := by
  induction events generalizing c with
  | nil => cases hw
  | cons e events ih =>
      obtain ⟨next, hstep, hone, hnext, hrest⟩ := run_cons hroom h
      rcases List.mem_cons.mp hw with rfl | hw
      · simp only [Scheduler.step, Option.ite_none_right_eq_some, Option.some.injEq] at hstep
        obtain ⟨-, rfl⟩ := hstep
        rcases (run_progress hnext hrest).saved (Function.update_self ..) with hsaves | hlt
        · exact absurd hsaves hend
        · exact hlt
      · exact lt_of_le_of_lt (step_progress hone hstep).manifest (ih hw hnext hrest)

end Invariant

/-- No wake-up is lost.  In a run of fewer than 2⁶⁴ events, once every task has come to its end, a
peer whose last recorded
session had read its generations before a retry, or before a save of the manifest — hence
also before one that follows its snapshot —, is due at once. -/
theorem no_lost_wakeup {P : Type} [DecidableEq P] {peer : Nat → P} {middle final : Scheduler P}
    {before after : List Event} {p : P} {s : Nat} {pair : U64 × U64}
    (hbefore : (new : Scheduler P).run peer before = some middle)
    (hafter : middle.run peer after = some final) (hsettled : Settled final)
    (hlong : before.length + after.length < 2 ^ 64) (hlast : final.recorder p = some s)
    (hread : (middle.attempts s).read = some pair)
    (hwake : (∃ r, .raise r ∈ after) ∨ ∃ w, .write w ∈ after) :
    ∃ schedule, final.schedules p = some schedule
      ∧ ∀ now, schedule.due now final.manifestGeneration = true := by
  have hstart : (new : Scheduler P).Room (before.length + after.length) :=
    ⟨by simpa [new] using hlong, by simpa [new] using hlong⟩
  obtain ⟨hmiddle, hroom⟩ := inv_new.run hstart hbefore
  have hprogress := run_progress hroom hafter
  obtain ⟨schedule, generation, network, hrec⟩ := (hmiddle.run (n := 0) hroom hafter).1.recorder hlast
  have hrecorded : final.attempts s = .recorded generation network
      ∧ (schedule.nextAt = none ∨ final.networkGeneration = network
        ∨ ∃ r, final.retries r = .raised) := by
    rcases hrec.done with h | h
    · rcases hsettled.attempts s with h' | h' | ⟨_, _, h'⟩ <;> rw [h] at h' <;> cases h'
    · exact h
  -- What the session read before is what it has recorded.
  have hpair : pair = (generation, network) := by
    have := hprogress.read hread
    rw [hrecorded.1] at this
    cases this
    rfl
  subst hpair
  refine ⟨schedule, hrec.found, fun now => ?_⟩
  rcases hwake with ⟨r, hr⟩ | ⟨w, hw⟩
  · refine PeerSchedule.due_of_nextAt ?_ now _
    have hlt := network_lt_of_raise hr hroom hafter
    have hle := (hmiddle.read hread).2
    rcases hrecorded.2 with hnone | heq | ⟨r', hr'⟩
    · exact hnone
    · exact absurd heq (hle.trans_lt hlt).ne'
    · exact absurd hr' (hsettled.retries r')
  · refine PeerSchedule.due_of_generation ?_ now
    have hlt := manifest_lt_of_write hw hroom hafter (hsettled.saves w)
    have hle := (hmiddle.read hread).1
    rw [hrec.attempted]
    exact (hle.trans_lt hlt).ne'

/-- A retry during an attempt that then fails: the delay that the attempt records is gone. -/
theorem no_lost_wakeup_during_attempt :
    ∃ middle final : Scheduler Unit,
      (new : Scheduler Unit).run (fun _ => ()) [.readManifest 1, .readNetwork 1] = some middle
      ∧ middle.run (fun _ => ()) [.raise 0, .retryAll 0, .record 1 5 none 0, .compare 1] = some final
      ∧ final.manifestGeneration = 0
      ∧ ∃ schedule, final.schedules () = some schedule ∧ schedule.lastAttemptedGeneration = 0
        ∧ ∀ now, schedule.due now final.manifestGeneration = true := by
  refine ⟨_, _, rfl, rfl, rfl, ?_⟩
  refine Exists.imp ?_ (@no_lost_wakeup Unit _ (fun _ => ()) _ _
    [.readManifest 1, .readNetwork 1] [.raise 0, .retryAll 0, .record 1 5 none 0, .compare 1]
    () 1 (0, 0) rfl rfl ⟨fun s => ?_, fun r => ?_, fun w => nofun⟩ (by decide) rfl rfl
    (.inl ⟨0, List.mem_cons_self⟩))
  · rintro schedule ⟨hfound, hdue⟩
    cases hfound
    exact ⟨rfl, rfl, hdue⟩
  · by_cases hs : s = 1
    · subst hs
      exact .inr (.inr ⟨0, 0, rfl⟩)
    · exact .inl (by simp [new, hs])
  · by_cases hr : r = 0
    · subst hr
      exact nofun
    · simp [new, hr]

end Scheduler

end Syncbox

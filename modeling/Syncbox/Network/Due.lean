/-
# `Syncbox.Network.Due` — which peers are tried next

`select_due_peers` (`src/network/scheduling.rs`) picks at most four of the peers that are
due.  It goes through them once with an array of four slots: a peer goes before the first
slot that is empty or is planned for later, the ones behind it move by one, and whatever was
in the last slot is dropped.

That is the stable sort by the time of the next attempt, cut off after four.  An attempt
that is not planned comes before all that are, and of two peers with the same time the one
listed first stays first.
-/
import Syncbox.Lib.Sort
import Syncbox.Network.Schedule

namespace Syncbox

open Rust Sorting

section Due

variable {P : Type}

/-- The order of `Option<Instant>`: `None` comes first. -/
def rank (at_ : Option Instant) : WithBot Instant := at_

/-- No schedule, or one that is due. -/
def isDue (schedules : P → Option PeerSchedule) (now : Instant) (generation : U64) (peer : P) : Bool :=
  (schedules peer).all fun schedule => schedule.due now generation

/-- `next_at` of the schedule, if there is one. -/
def nextAttempt (schedules : P → Option PeerSchedule) (peer : P) : Option Instant :=
  (schedules peer).bind PeerSchedule.nextAt

/-- The slots of the array: the time of the next attempt and the peer. -/
abbrev Slot (P : Type) := Option (Option Instant × P)

/-- The body of the loop. -/
def considerPeer (schedules : P → Option PeerSchedule) (now : Instant) (generation : U64)
    (selected : List (Slot P)) (peer : P) : List (Slot P) :=
  if isDue schedules now generation peer then
    seat (fun slot => rank slot.1) selected (nextAttempt schedules peer, peer)
  else selected

def selectDuePeers (candidates : List P) (schedules : P → Option PeerSchedule) (now : Instant)
    (generation : U64) : List P :=
  if candidates.length ≤ 1 then candidates.filter (isDue schedules now generation)
  else
    ((candidates.foldl (considerPeer schedules now generation) (List.replicate 4 none)).filterMap id).map
      Prod.snd

variable {schedules : P → Option PeerSchedule} {now : Instant} {generation : U64}

/-- A peer with its time, as the slots hold it. -/
def slotted (schedules : P → Option PeerSchedule) (peer : P) : Option Instant × P :=
  (nextAttempt schedules peer, peer)

/-- The loop seats the peers that are due, one after the other. -/
theorem foldl_considerPeer (candidates : List P) (selected : List (Slot P)) :
    candidates.foldl (considerPeer schedules now generation) selected
      = ((candidates.filter (isDue schedules now generation)).map (slotted schedules)).foldl
        (seat fun slot => rank slot.1) selected := by
  induction candidates generalizing selected with
  | nil => rfl
  | cons peer candidates ih =>
      rw [List.foldl_cons, ih, considerPeer, List.filter_cons]
      split
      · rfl
      · rfl

theorem sortBy_slotted (peers : List P) :
    sortBy (fun slot => rank slot.1) (peers.map (slotted schedules))
      = (sortBy (fun peer => rank (nextAttempt schedules peer)) peers).map (slotted schedules) :=
  (List.map_insertionSort (fun a b => rank (nextAttempt schedules a) ≤ rank (nextAttempt schedules b))
    (fun a b : Option Instant × P => rank a.1 ≤ rank b.1) (slotted schedules) peers
    fun _ _ _ _ => Iff.rfl).symm

/-- What is left in the list: the first four of the due peers, stably sorted by the time of
their next attempt with none first. -/
theorem selectDuePeers_eq (candidates : List P) (schedules : P → Option PeerSchedule) (now : Instant)
    (generation : U64) :
    selectDuePeers candidates schedules now generation
      = (sortBy (fun peer => rank (nextAttempt schedules peer))
          (candidates.filter (isDue schedules now generation))).take 4 := by
  unfold selectDuePeers
  split
  · -- one peer at most: there is nothing to sort and nothing to cut off
    rename_i hshort
    have hkept : (candidates.filter (isDue schedules now generation)).length ≤ 1 :=
      (List.length_filter_le _ _).trans hshort
    match hpeers : candidates.filter (isDue schedules now generation), hkept with
    | [], _ => rfl
    | [peer], _ => rfl
  · have hslots : List.replicate 4 none = slots 4 ([] : List (Option Instant × P)) := rfl
    rw [foldl_considerPeer, hslots, foldl_seat, flatten_slots, sortBy_slotted, List.map_take,
      List.map_map]
    exact congrArg _ (List.map_id _)

end Due

/-- Of eight peers one is planned for later, two are not planned, and three share a time. -/
example : selectDuePeers [0, 1, 2, 3, 4, 5, 6, 7] (fun i => if i = 6 then none else
    some ⟨if i = 3 then none else some (if i = 4 then 11 else if i = 7 then 7 else if i = 1 then 9 else 8),
      1, 0, none⟩) 10 1 = [3, 6, 7, 0] := by decide

end Syncbox

/-
# `Syncbox.Network.Pool` — the cache of connections

`ConnectionCache` of `src/network/connection_cache.rs`, as `ConnectionPool` of
`src/network/transport.rs` uses it.  The cache maps peers to slots; users hold handles on a
slot while they connect, and leases while they use a stream.  A handle comes out of the map
under its lock, and a lease out of a handle, so the strong count of a cached slot is one for
the map and one for each of them.

The map gives a slot up only at a count of one.  Hence whoever holds a slot holds the one
that the map still has for the peer, and the limit of streams in a slot is a limit for the
peer.
-/
import Syncbox.Network.Schedule

namespace Syncbox

def MAX_CACHED_CONNECTIONS : Nat := 32
def MAX_CONNECTION_STREAMS : Nat := 8
def CONNECTION_IDLE_TIMEOUT : Nat := secs 90

structure Connection where
  stableId : Nat
  /-- `close_reason` is there. -/
  closed : Bool

structure PeerSlot where
  connection : Option Connection
  /-- Someone holds the mutex of the connection. -/
  locked : Bool
  /-- Permits taken from `stream_permits`. -/
  permits : Nat
  lastUsed : Instant

/-- A slot just created. -/
def PeerSlot.new (now : Instant) : PeerSlot := ⟨none, false, 0, now⟩

/-- The cache and its users.  Slots are known by their address, and never reused. -/
structure Pool (P : Type) where
  /-- The map, in the order in which it is iterated over. -/
  peers : List (P × Nat)
  slots : Nat → PeerSlot
  fresh : Nat
  /-- Slots in the hands of users, each with the peer it was asked for. -/
  handles : List (P × Nat)
  leases : List (P × Nat)
  /-- Leases that have let go of their slot, but not yet of their permit. -/
  releasing : List Nat

namespace Pool

variable {P : Type}

section Program

variable [DecidableEq P]

def empty : Pool P := ⟨[], fun _ => .new 0, 0, [], [], []⟩

/-- Those who hold a slot outside the map. -/
def holders (c : Pool P) (a : Nat) : List (P × Nat) :=
  (c.handles ++ c.leases).filter fun x => x.2 = a

def strongCount (c : Pool P) (a : Nat) : Nat := 1 + (c.holders a).length

def reapable (c : Pool P) (now : Instant) (a : Nat) : Bool :=
  c.strongCount a = 1 && !(c.slots a).locked
    && ((c.slots a).connection.all (fun connection => connection.closed)
      || CONNECTION_IDLE_TIMEOUT ≤ now - (c.slots a).lastUsed)

def reap (c : Pool P) (now : Instant) : Pool P :=
  { c with peers := c.peers.filter fun x => !c.reapable now x.2 }

def lookup (c : Pool P) (peer : P) : Option Nat := (c.peers.find? fun x => x.1 = peer).map Prod.snd

/-- Hand a cached slot to a user. -/
def hand (c : Pool P) (peer : P) (a : Nat) : Pool P := { c with handles := (peer, a) :: c.handles }

/-- A new slot in the map. -/
def insert (c : Pool P) (peer : P) (now : Instant) : Pool P :=
  { c with
    peers := (peer, c.fresh) :: c.peers
    slots := Function.update c.slots c.fresh (.new now)
    fresh := c.fresh + 1 }

/-- The peer to give up for another: among the slots in no one's hands, the one used longest
ago. -/
def oldest (c : Pool P) : Option (P × Nat) :=
  (c.peers.filter fun x => c.strongCount x.2 = 1).argmin fun x => (c.slots x.2).lastUsed

/-- `ConnectionCache::slot`. -/
def slot (c : Pool P) (peer : P) (now : Instant) : Except String Nat × Pool P :=
  let c := c.reap now
  match c.lookup peer with
  | some a => (.ok a, c.hand peer a)
  | none =>
      if c.peers.length ≥ MAX_CACHED_CONNECTIONS then
        match c.oldest with
        | none => (.error "connection pool is busy with active peers", c)
        | some x =>
            let c := { c with peers := c.peers.filter fun y => y.1 ≠ x.1 }
            (.ok c.fresh, (c.insert peer now).hand peer c.fresh)
      else (.ok c.fresh, (c.insert peer now).hand peer c.fresh)

/-- `ConnectionCache::get`. -/
def get (c : Pool P) (peer : P) : Option Nat × Pool P :=
  match c.lookup peer with
  | some a => (some a, c.hand peer a)
  | none => (none, c)

def setSlot (c : Pool P) (a : Nat) (slot : PeerSlot) : Pool P :=
  { c with slots := Function.update c.slots a slot }

inductive Event (P : Type) where
  | slot (peer : P) (now : Instant)
  | get (peer : P)
  | maintain (now : Instant)
  /-- A handle gets a permit, and becomes a lease. -/
  | lease (x : P × Nat) (now : Instant)
  | dropHandle (x : P × Nat)
  /-- A lease notes its last use and lets go of its slot, then of its permit. -/
  | dropLease (x : P × Nat) (now : Instant)
  | dropPermit (a : Nat)
  /-- A connection is made, found closed or forgotten; its mutex is taken or released. -/
  | alter (a : Nat) (connection : Option Connection) (locked : Bool)
  /-- The map is iterated over in another order. -/
  | rehash (peers : List (P × Nat))

/-- One event, where it can happen. -/
def step (c : Pool P) : Event P → Option (Pool P)
  | .slot peer now => some (c.slot peer now).2
  | .get peer => some (c.get peer).2
  | .maintain now => some (c.reap now)
  | .lease x now =>
      if x ∈ c.handles ∧ (c.slots x.2).permits < MAX_CONNECTION_STREAMS then
        some { c.setSlot x.2 { c.slots x.2 with
            permits := (c.slots x.2).permits + 1
            lastUsed := now } with
          handles := c.handles.erase x
          leases := x :: c.leases }
      else none
  | .dropHandle x =>
      if x ∈ c.handles then some { c with handles := c.handles.erase x } else none
  | .dropLease x now =>
      if x ∈ c.leases then
        some { c.setSlot x.2 { c.slots x.2 with lastUsed := now } with
          leases := c.leases.erase x
          releasing := x.2 :: c.releasing }
      else none
  | .dropPermit a =>
      if a ∈ c.releasing then
        some { c.setSlot a { c.slots a with permits := (c.slots a).permits - 1 } with
          releasing := c.releasing.erase a }
      else none
  | .alter a connection locked =>
      some (c.setSlot a { c.slots a with connection := connection, locked := locked })
  | .rehash peers => if peers.Perm c.peers then some { c with peers := peers } else none

/-- Events one after the other. -/
def run (c : Pool P) (events : List (Event P)) : Option (Pool P) := events.foldlM step c

end Program

/-! ## The invariant -/

/-- A slot is in someone's hands. -/
def Held (c : Pool P) (a : Nat) : Prop := ∃ x ∈ c.handles ++ c.leases, x.2 = a

structure Inv (c : Pool P) : Prop where
  bound : c.peers.length ≤ MAX_CACHED_CONNECTIONS
  keys : (c.peers.map Prod.fst).Nodup
  older : ∀ x ∈ c.peers, x.2 < c.fresh
  released : ∀ a ∈ c.releasing, a < c.fresh
  held : ∀ x ∈ c.handles ++ c.leases, x ∈ c.peers
  permits : ∀ a < c.fresh, (c.slots a).permits
    = c.leases.countP (fun x => x.2 = a) + c.releasing.count a
  limit : ∀ a < c.fresh, (c.slots a).permits ≤ MAX_CONNECTION_STREAMS

section Lemmas

variable {c c' : Pool P} {peer : P} {a : Nat} {now : Instant} {x : P × Nat}

theorem strongCount_eq_one : c.strongCount a = 1 ↔ ¬ c.Held a := by
  unfold strongCount holders Held
  rw [Nat.add_eq_left, List.length_eq_zero_iff, List.filter_eq_nil_iff]
  push Not
  exact forall₂_congr fun x _ => by simp

theorem Inv.eq_of_peer {y : P × Nat} (hi : Inv c) (hx : x ∈ c.peers) (hy : y ∈ c.peers)
    (heq : x.1 = y.1) : x = y :=
  List.inj_on_of_nodup_map hi.keys hx hy heq

/-- Slots may be given up as long as none is in someone's hands. -/
theorem Inv.shrink {peers : List (P × Nat)} (hi : Inv c) (hsub : peers.Sublist c.peers)
    (hheld : ∀ x ∈ c.peers, c.Held x.2 → x ∈ peers) : Inv { c with peers := peers } where
  bound := hsub.length_le.trans hi.bound
  keys := hi.keys.sublist (hsub.map _)
  older := fun x hx => hi.older x (hsub.subset hx)
  released := hi.released
  held := fun x hx => hheld x (hi.held x hx) ⟨x, hx, rfl⟩
  permits := hi.permits
  limit := hi.limit

theorem reap_keeps (hx : x ∈ c.peers) (hheld : c.Held x.2) : x ∈ (c.reap now).peers := by
  refine List.mem_filter.mpr ⟨hx, ?_⟩
  have hcount : c.strongCount x.2 ≠ 1 := fun h => strongCount_eq_one.mp h hheld
  simp [reapable, hcount]

theorem Inv.reap (hi : Inv c) : Inv (c.reap now) :=
  hi.shrink List.filter_sublist fun _ hx hheld => reap_keeps hx hheld

theorem Inv.hand (hi : Inv c) (hmem : (peer, a) ∈ c.peers) : Inv (c.hand peer a) where
  bound := hi.bound
  keys := hi.keys
  older := hi.older
  released := hi.released
  held := by
    intro x hx
    rcases List.mem_cons.mp hx with rfl | hx
    · exact hmem
    · exact hi.held x hx
  permits := hi.permits
  limit := hi.limit

theorem Inv.insert (hi : Inv c) (hnew : peer ∉ c.peers.map Prod.fst)
    (hroom : c.peers.length < MAX_CACHED_CONNECTIONS) : Inv (c.insert peer now) where
  bound := hroom
  keys := List.nodup_cons.mpr ⟨hnew, hi.keys⟩
  older := by
    intro x hx
    rcases List.mem_cons.mp hx with rfl | hx
    · exact Nat.lt_succ_self _
    · exact (hi.older x hx).trans (Nat.lt_succ_self _)
  released := fun a ha => (hi.released a ha).trans (Nat.lt_succ_self _)
  held := fun x hx => List.mem_cons_of_mem _ (hi.held x hx)
  permits := by
    intro a ha
    show (Function.update c.slots c.fresh _ a).permits = _
    by_cases heq : a = c.fresh
    · -- No one can have anything of a slot that was not there.
      subst heq
      rw [Function.update_self]
      refine (Nat.add_eq_zero_iff.mpr ⟨List.countP_eq_zero.mpr fun x hx hxa => ?_, List.count_eq_zero.mpr fun hmem => ?_⟩).symm
      · have hlt := hi.older x (hi.held x (List.mem_append_right _ hx))
        have heq : x.2 = c.fresh := by simpa using hxa
        omega
      · exact lt_irrefl _ (hi.released _ hmem)
    · rw [Function.update_of_ne heq]
      exact hi.permits a (lt_of_le_of_ne (Nat.le_of_lt_succ ha) heq)
  limit := by
    intro a ha
    show (Function.update c.slots c.fresh _ a).permits ≤ _
    by_cases heq : a = c.fresh
    · rw [heq, Function.update_self]
      exact Nat.zero_le _
    · rw [Function.update_of_ne heq]
      exact hi.limit a (lt_of_le_of_ne (Nat.le_of_lt_succ ha) heq)

theorem oldest_eq_some (h : c.oldest = some x) : x ∈ c.peers ∧ ¬ c.Held x.2 := by
  obtain ⟨hx, hcount⟩ := List.mem_filter.mp (List.argmin_mem h)
  exact ⟨hx, strongCount_eq_one.mp (by simpa using hcount)⟩

theorem oldest_eq_none (h : c.oldest = none) (hx : x ∈ c.peers) : c.Held x.2 := by
  by_contra hfree
  have hempty := List.argmin_eq_none.mp h
  have := List.filter_eq_nil_iff.mp hempty x hx
  simp [strongCount_eq_one.mpr hfree] at this

theorem Inv.dropPermit (hi : Inv c) (ha : a ∈ c.releasing) :
    Inv { c.setSlot a { c.slots a with permits := (c.slots a).permits - 1 } with
      releasing := c.releasing.erase a } where
  bound := hi.bound
  keys := hi.keys
  older := hi.older
  released := fun b hb => hi.released b (List.mem_of_mem_erase hb)
  held := hi.held
  permits := by
    intro b hb
    show (Function.update c.slots a _ b).permits
      = c.leases.countP (fun x => x.2 = b) + (c.releasing.erase a).count b
    have hbefore := hi.permits b hb
    by_cases heq : b = a
    · subst heq
      rw [Function.update_self, List.count_erase_self]
      have hpos := List.count_pos_iff.mpr ha
      show (c.slots b).permits - 1 = _
      omega
    · rw [Function.update_of_ne heq, List.count_erase_of_ne heq]
      exact hbefore
  limit := by
    intro b hb
    show (Function.update c.slots a _ b).permits ≤ _
    have hbefore := hi.limit b hb
    by_cases heq : b = a
    · subst heq
      rw [Function.update_self]
      exact (Nat.sub_le _ _).trans hbefore
    · rw [Function.update_of_ne heq]
      exact hbefore

theorem Inv.alter {connection : Option Connection} {locked : Bool} (hi : Inv c) :
    Inv (c.setSlot a { c.slots a with connection := connection, locked := locked }) := by
  have hsame : ∀ b, (Function.update c.slots a
      { c.slots a with connection := connection, locked := locked } b).permits = (c.slots b).permits := by
    intro b
    by_cases heq : b = a
    · rw [heq, Function.update_self]
    · rw [Function.update_of_ne heq]
  exact ⟨hi.bound, hi.keys, hi.older, hi.released, hi.held,
    fun b hb => (hsame b).trans (hi.permits b hb), fun b hb => (hsame b).trans_le (hi.limit b hb)⟩

theorem inv_empty : Inv (empty : Pool P) where
  bound := Nat.zero_le _
  keys := .nil
  older := fun _ hx => by cases hx
  released := fun _ ha => by cases ha
  held := fun _ hx => by cases hx
  permits := fun _ ha => absurd ha (Nat.not_lt_zero _)
  limit := fun _ ha => absurd ha (Nat.not_lt_zero _)

variable [DecidableEq P]

theorem Inv.lookup_eq (hi : Inv c) (hx : x ∈ c.peers) : c.lookup x.1 = some x.2 := by
  unfold lookup
  cases hfind : c.peers.find? fun y => y.1 = x.1 with
  | none =>
      have := List.find?_eq_none.mp hfind x hx
      simp at this
  | some y =>
      have hy := List.mem_of_find?_eq_some hfind
      have heq : y.1 = x.1 := by simpa using List.find?_some hfind
      rw [hi.eq_of_peer hy hx heq]
      rfl

theorem mem_of_lookup (h : c.lookup peer = some a) : (peer, a) ∈ c.peers := by
  obtain ⟨y, hfind, rfl⟩ := Option.map_eq_some_iff.mp h
  have heq : y.1 = peer := by simpa using List.find?_some hfind
  rw [← heq]
  exact List.mem_of_find?_eq_some hfind

theorem not_mem_of_lookup (h : c.lookup peer = none) : peer ∉ c.peers.map Prod.fst := by
  intro hmem
  obtain ⟨y, hy, rfl⟩ := List.mem_map.mp hmem
  have := List.find?_eq_none.mp (Option.map_eq_none_iff.mp h) y hy
  simp at this

theorem Inv.evict (hi : Inv c) (hx : x ∈ c.peers) (hfree : ¬ c.Held x.2) :
    Inv { c with peers := c.peers.filter fun y => y.1 ≠ x.1 }
      ∧ (∀ y ∈ c.peers, c.Held y.2 → y ∈ c.peers.filter fun y => y.1 ≠ x.1)
      ∧ (c.peers.filter fun y => y.1 ≠ x.1).length < c.peers.length := by
  have hkeeps : ∀ y ∈ c.peers, c.Held y.2 → y ∈ c.peers.filter fun y => y.1 ≠ x.1 := by
    intro y hy hheld
    refine List.mem_filter.mpr ⟨hy, ?_⟩
    have hne : y.1 ≠ x.1 := by
      intro heq
      rw [hi.eq_of_peer hy hx heq] at hheld
      exact hfree hheld
    simpa using hne
  refine ⟨hi.shrink List.filter_sublist hkeeps, hkeeps, ?_⟩
  exact List.length_filter_lt_length_iff_exists.mpr ⟨x, hx, by simp⟩

/-- What `slot` does: it keeps the invariant and every slot in someone's hands, and fails
only when all slots of a full cache are. -/
theorem Inv.slot (hi : Inv c) : Inv (c.slot peer now).2
    ∧ (∀ x ∈ c.peers, c.Held x.2 → x ∈ (c.slot peer now).2.peers)
    ∧ ∀ e, (c.slot peer now).1 = .error e →
      c.peers.length = MAX_CACHED_CONNECTIONS ∧ ∀ x ∈ c.peers, c.Held x.2 := by
  have hreaped : Inv (c.reap now) := hi.reap
  have hkeeps : ∀ x ∈ c.peers, c.Held x.2 → x ∈ (c.reap now).peers := fun x hx => reap_keeps hx
  unfold Pool.slot
  dsimp only
  split
  · rename_i a hlookup
    exact ⟨hreaped.hand (mem_of_lookup hlookup), hkeeps, fun e he => by cases he⟩
  · rename_i hlookup
    have hnew := not_mem_of_lookup hlookup
    split
    · rename_i hfull
      split
      · rename_i hbusy
        refine ⟨hreaped, hkeeps, fun e _ => ?_⟩
        -- All that is left is held, and with a full cache nothing was reaped.
        have hall : (c.reap now).peers = c.peers :=
          List.filter_sublist.eq_of_length_le (hi.bound.trans hfull)
        refine ⟨le_antisymm hi.bound (by rw [← hall]; exact hfull), fun x hx => ?_⟩
        have hheld : (c.reap now).Held x.2 := oldest_eq_none hbusy (by rw [hall]; exact hx)
        exact hheld
      · rename_i x holdest
        obtain ⟨hx, hfree⟩ := oldest_eq_some holdest
        obtain ⟨hevicted, hstays, hless⟩ := hreaped.evict hx hfree
        have hnew' : peer ∉ ((c.reap now).peers.filter fun y => y.1 ≠ x.1).map Prod.fst :=
          fun hmem => hnew ((List.filter_sublist.map _).subset hmem)
        refine ⟨(hevicted.insert hnew' (hless.trans_le hreaped.bound)).hand List.mem_cons_self,
          fun y hy hheld => List.mem_cons_of_mem _ (hstays y (hkeeps y hy hheld) hheld),
          fun e he => by cases he⟩
    · rename_i hroom
      exact ⟨(hreaped.insert hnew (by omega)).hand List.mem_cons_self,
        fun y hy hheld => List.mem_cons_of_mem _ (hkeeps y hy hheld), fun e he => by cases he⟩

theorem Inv.get (hi : Inv c) : Inv (c.get peer).2 ∧ (c.get peer).2.peers = c.peers := by
  unfold Pool.get
  split
  · rename_i a hlookup
    exact ⟨hi.hand (mem_of_lookup hlookup), rfl⟩
  · exact ⟨hi, rfl⟩

theorem Inv.lease (hi : Inv c) (hx : x ∈ c.handles)
    (hroom : (c.slots x.2).permits < MAX_CONNECTION_STREAMS) :
    Inv { c.setSlot x.2 { c.slots x.2 with
        permits := (c.slots x.2).permits + 1
        lastUsed := now } with
      handles := c.handles.erase x
      leases := x :: c.leases } where
  bound := hi.bound
  keys := hi.keys
  older := hi.older
  released := hi.released
  held := by
    intro y hy
    rcases List.mem_append.mp hy with hy | hy
    · exact hi.held y (List.mem_append_left _ (List.mem_of_mem_erase hy))
    · rcases List.mem_cons.mp hy with rfl | hy
      · exact hi.held y (List.mem_append_left _ hx)
      · exact hi.held y (List.mem_append_right _ hy)
  permits := by
    intro a ha
    show (Function.update c.slots x.2 _ a).permits
      = (x :: c.leases).countP _ + c.releasing.count a
    rw [List.countP_cons]
    have hbefore := hi.permits a ha
    by_cases heq : a = x.2
    · subst heq
      rw [Function.update_self]
      simp only [decide_true, if_true]
      omega
    · rw [Function.update_of_ne heq]
      simp only [Ne.symm heq, decide_false, Bool.false_eq_true, if_false]
      omega
  limit := by
    intro a ha
    show (Function.update c.slots x.2 _ a).permits ≤ _
    by_cases heq : a = x.2
    · subst heq
      rw [Function.update_self]
      exact hroom
    · rw [Function.update_of_ne heq]
      exact hi.limit a ha

theorem Inv.dropLease (hi : Inv c) (hx : x ∈ c.leases) :
    Inv { c.setSlot x.2 { c.slots x.2 with lastUsed := now } with
      leases := c.leases.erase x
      releasing := x.2 :: c.releasing } where
  bound := hi.bound
  keys := hi.keys
  older := hi.older
  released := by
    intro a ha
    rcases List.mem_cons.mp ha with rfl | ha
    · exact hi.older x (hi.held x (List.mem_append_right _ hx))
    · exact hi.released a ha
  held := by
    intro y hy
    rcases List.mem_append.mp hy with hy | hy
    · exact hi.held y (List.mem_append_left _ hy)
    · exact hi.held y (List.mem_append_right _ (List.mem_of_mem_erase hy))
  permits := by
    intro a ha
    show (Function.update c.slots x.2 _ a).permits
      = (c.leases.erase x).countP _ + (x.2 :: c.releasing).count a
    have hbefore := hi.permits a ha
    rw [List.countP_erase, List.count_cons]
    by_cases heq : a = x.2
    · subst heq
      have hpos : 0 < c.leases.countP fun y => y.2 = x.2 :=
        List.countP_pos_iff.mpr ⟨x, hx, by simp⟩
      rw [Function.update_self]
      simp only [hx, decide_true, true_and, if_true, BEq.rfl]
      omega
    · rw [Function.update_of_ne heq]
      simp only [Ne.symm heq, decide_false, Bool.false_eq_true, and_false, if_false, beq_iff_eq]
      omega
  limit := by
    intro a ha
    show (Function.update c.slots x.2 _ a).permits ≤ _
    by_cases heq : a = x.2
    · subst heq
      rw [Function.update_self]
      exact hi.limit x.2 ha
    · rw [Function.update_of_ne heq]
      exact hi.limit a ha

theorem Inv.step {e : Event P} (hi : Inv c) (h : c.step e = some c') :
    Inv c' ∧ ∀ x ∈ c.peers, c.Held x.2 → x ∈ c'.peers := by
  cases e with
  | slot peer now =>
      cases h
      exact ⟨hi.slot.1, hi.slot.2.1⟩
  | get peer =>
      cases h
      exact ⟨hi.get.1, fun x hx _ => by rw [hi.get.2]; exact hx⟩
  | maintain now =>
      cases h
      exact ⟨hi.reap, fun x hx hheld => reap_keeps hx hheld⟩
  | lease x now =>
      simp only [Pool.step, Option.ite_none_right_eq_some, Option.some.injEq] at h
      obtain ⟨⟨hx, hroom⟩, rfl⟩ := h
      exact ⟨hi.lease hx hroom, fun y hy _ => hy⟩
  | dropHandle x =>
      simp only [Pool.step, Option.ite_none_right_eq_some, Option.some.injEq] at h
      obtain ⟨hx, rfl⟩ := h
      refine ⟨⟨hi.bound, hi.keys, hi.older, hi.released, fun y hy => hi.held y ?_, hi.permits,
        hi.limit⟩, fun y hy _ => hy⟩
      exact (List.append_sublist_append_right _ |>.mpr List.erase_sublist).subset hy
  | dropLease x now =>
      simp only [Pool.step, Option.ite_none_right_eq_some, Option.some.injEq] at h
      obtain ⟨hx, rfl⟩ := h
      exact ⟨hi.dropLease hx, fun y hy _ => hy⟩
  | dropPermit a =>
      simp only [Pool.step, Option.ite_none_right_eq_some, Option.some.injEq] at h
      obtain ⟨ha, rfl⟩ := h
      exact ⟨hi.dropPermit ha, fun y hy _ => hy⟩
  | alter a connection locked =>
      cases h
      exact ⟨hi.alter, fun y hy _ => hy⟩
  | rehash peers =>
      simp only [Pool.step, Option.ite_none_right_eq_some, Option.some.injEq] at h
      obtain ⟨hperm, rfl⟩ := h
      refine ⟨⟨?_, ?_, fun x hx => hi.older x (hperm.mem_iff.mp hx), hi.released,
        fun x hx => hperm.mem_iff.mpr (hi.held x hx), hi.permits, hi.limit⟩,
        fun x hx _ => hperm.mem_iff.mpr hx⟩
      · show peers.length ≤ _
        rw [hperm.length_eq]
        exact hi.bound
      · exact ((hperm.map _).nodup_iff).mpr hi.keys

theorem Inv.run {events : List (Event P)} (hi : Inv c) (h : c.run events = some c') : Inv c' := by
  induction events generalizing c with
  | nil => cases h; exact hi
  | cons e events ih =>
      obtain ⟨next, hstep, hrest⟩ := Option.bind_eq_some_iff.mp h
      exact ih (hi.step hstep).1 hrest

theorem Inv.leases_le (hi : Inv c) (peer : P) :
    c.leases.countP (fun x => x.1 = peer) ≤ MAX_CONNECTION_STREAMS := by
  by_cases hany : ∃ x ∈ c.leases, x.1 = peer
  · obtain ⟨x, hx, rfl⟩ := hany
    have hcached := hi.held x (List.mem_append_right _ hx)
    have hle : c.leases.countP (fun y => y.1 = x.1) ≤ c.leases.countP fun y => y.2 = x.2 := by
      refine List.countP_mono_left fun y hy heq => ?_
      have heq : y.1 = x.1 := by simpa using heq
      simp [hi.eq_of_peer (hi.held y (List.mem_append_right _ hy)) hcached heq]
    have hpermits := hi.permits x.2 (hi.older x hcached)
    have hlimit := hi.limit x.2 (hi.older x hcached)
    omega
  · rw [List.countP_eq_zero.mpr fun x hx heq => hany ⟨x, hx, by simpa using heq⟩]
    exact Nat.zero_le _

end Lemmas

/-- After any sequence of operations the cache is within its bound; whoever holds a slot holds
the one the cache has for the peer; no peer has more leases than permits; no operation takes
a slot that is held out of the cache; and only a cache full of held slots refuses another. -/
theorem pool_invariant [DecidableEq P] {events : List (Event P)} {c : Pool P} (h : empty.run events = some c) :
    c.peers.length ≤ MAX_CACHED_CONNECTIONS
      ∧ (∀ x ∈ c.handles ++ c.leases, c.lookup x.1 = some x.2)
      ∧ (∀ peer, c.leases.countP (fun x => x.1 = peer) ≤ MAX_CONNECTION_STREAMS)
      ∧ (∀ e c', c.step e = some c' → ∀ x ∈ c.peers, c.Held x.2 → x ∈ c'.peers)
      ∧ ∀ peer now e, (c.slot peer now).1 = .error e →
        c.peers.length = MAX_CACHED_CONNECTIONS ∧ ∀ x ∈ c.peers, c.Held x.2 := by
  have hi := inv_empty.run h
  exact ⟨hi.bound, fun x hx => hi.lookup_eq (hi.held x hx), hi.leases_le,
    fun e c' hstep => (hi.step hstep).2, fun peer now => hi.slot.2.2⟩

/-- A handle, a lease, and a maintenance that comes while the slot is held. -/
theorem pool_invariant_one_peer :
    ∃ c : Pool Nat, empty.run [.slot 7 0, .lease (7, 0) 0, .slot 7 1, .maintain (secs 100)] = some c
      ∧ (7, 0) ∈ c.handles ∧ (7, 0) ∈ c.leases ∧ c.lookup 7 = some 0 := by
  refine ⟨_, rfl, by decide +kernel, by decide +kernel, ?_⟩
  exact (@pool_invariant Nat _ [.slot 7 0, .lease (7, 0) 0, .slot 7 1, .maintain (secs 100)] _
    rfl).2.1 (7, 0) (by decide +kernel)

end Pool

end Syncbox

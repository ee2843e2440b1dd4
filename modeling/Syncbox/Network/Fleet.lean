/-
# `Syncbox.Network.Fleet` — any number of replicas

A share has as many replicas as devices, and every session is between two of them.  Which
two meet, and in which order, nobody decides: a device calls the peers it knows whenever
they are due.

Along a run of exchanges each replica has *heard* of some others: it has met them in a
session that left nothing pending, or it has so met one that had heard of them.  What it
has heard of, it has: at no path is its record below one of theirs (`Gossiped`).  A
replica that has heard of all has the best record of all at every path, and two such
replicas agree.
-/
import Syncbox.Network.Converge

namespace Syncbox

open Rust Unix Prog

/-! ## What an exchange does to the rank -/

section Rank

variable {c s c' s' : Manifest} {outcome : PeerSyncOutcome} {q : Str}

theorem Moved.record_or (h : Moved c s c' s' q) : c'.record q = c.record q ∨ c'.record q = s.record q := by
  cases h with
  | stayed hc _ _ => exact .inl hc
  | merged _ select _ _ =>
      rw [select]
      exact selectRecord_or _ _

/-- At no path does an exchange take anything back. -/
theorem Moved.rank_le (h : Moved c s c' s' q) : rankAt (c.record q) ≤ rankAt (c'.record q) := by
  cases h with
  | stayed hc _ _ => rw [hc]
  | merged _ select _ _ =>
      rw [select]
      exact (rank_selectRecord _ _).1

/-- When nothing is left pending each side has what the other had. -/
theorem Forwards.rank_le (h : Forwards c s c' s' ⟨0, 0⟩) (hc : c.Compatible s) (q : Str) :
    rankAt (s.record q) ≤ rankAt (c'.record q) := by
  obtain ⟨hdown, hup⟩ := PeerSyncOutcome.mk.inj h.outcome
  have hlevel : Level (c'.record q) (s'.record q) := by
    have hor := h.level_or hc q
    rw [List.eq_nil_of_length_eq_zero hdown.symm, List.eq_nil_of_length_eq_zero hup.symm] at hor
    simpa using hor
  rw [hlevel.rank]
  exact (h.moved q).symm.rank_le

end Rank

/-! ## The replicas -/

section Fleet

variable [Crypto] {ι : Type} {shares : ι → ActiveShare} {s₀ s : ι → RunningShare}
  {heard : ι → Set ι} {i j : ι} {q : Pair} {outcome : PeerSyncOutcome} {host : Host × Host}

abbrev RunningShare.manifest (s : RunningShare) : Manifest := s.state.manifestFile

/-- Replicas of one share, any two of which can exchange. -/
structure Fleet (shares : ι → ActiveShare) (s : ι → RunningShare) : Prop where
  settled : ∀ i, Settled (shares i) (s i).state
  complete : ∀ i, (s i).initialSyncComplete = true
  compatible : ∀ i j, (s i).manifest.Compatible (s j).manifest
  apart : Set.InjOn Crypto.sha256 (⋃ i, fileKeys (s i).manifest)
  share : ∀ i j, (shares i).shareId = (shares j).shareId
  format : ∀ i j, (s i).manifest.formatVersion = (s j).manifest.formatVersion

theorem Fleet.pair (h : Fleet shares s) (i j : ι) : Replicas (shares i) (shares j) ⟨s i, s j⟩ where
  left := h.settled i
  right := h.settled j
  leftComplete := h.complete i
  rightComplete := h.complete j
  compatible := h.compatible i j
  apart := h.apart.mono (Set.union_subset (Set.subset_iUnion (fun k => fileKeys (s k).manifest) i)
    (Set.subset_iUnion (fun k => fileKeys (s k).manifest) j))
  share := h.share i j
  format := h.format i j

variable [DecidableEq ι]

/-- The replicas after `i` and `j` have met. -/
def meet (s : ι → RunningShare) (i j : ι) (q : Pair) : ι → RunningShare :=
  Function.update (Function.update s i q.client) j q.server

/-- Both have heard what either had heard. -/
def spread (heard : ι → Set ι) (i j : ι) : ι → Set ι := fun k =>
  if k = i ∨ k = j then heard i ∪ heard j else heard k

/-- Exchanges that succeeded one after another, between any two replicas.  Only a session that
reports nothing pending is counted as heard. -/
inductive Gossip (shares : ι → ActiveShare) (s₀ : ι → RunningShare) :
    (ι → RunningShare) → (ι → Set ι) → Prop
  | none : Gossip shares s₀ s₀ fun i => {i}
  | met {s : ι → RunningShare} {heard : ι → Set ι} {i j : ι} {host : Host × Host}
      {outcome : PeerSyncOutcome} {q : Pair} (before : Gossip shares s₀ s heard) (ne : i ≠ j)
      (told : Pair.Told ⟨s i, s j⟩)
      (ok : exchange (shares i) (shares j) host ⟨s i, s j⟩ = .ok outcome q) :
      Gossip shares s₀ (meet s i j q) heard
  | settled {s : ι → RunningShare} {heard : ι → Set ι} {i j : ι} {host : Host × Host} {q : Pair}
      (before : Gossip shares s₀ s heard) (ne : i ≠ j) (told : Pair.Told ⟨s i, s j⟩)
      (ok : exchange (shares i) (shares j) host ⟨s i, s j⟩ = .ok ⟨0, 0⟩ q) :
      Gossip shares s₀ (meet s i j q) (spread heard i j)

theorem meet_forall {P : ι → RunningShare → Prop} (hne : i ≠ j) (hi : P i q.client) (hj : P j q.server)
    (hk : ∀ k, k ≠ i → k ≠ j → P k (s k)) (k : ι) : P k (meet s i j q k) := by
  unfold meet
  by_cases hkj : k = j
  · subst hkj
    rwa [Function.update_self]
  · rw [Function.update_of_ne hkj]
    by_cases hki : k = i
    · subst hki
      rwa [Function.update_self]
    · rw [Function.update_of_ne hki]
      exact hk k hki hkj

/-- What is known of the replicas after a run. -/
structure Gossiped (shares : ι → ActiveShare) (s₀ s : ι → RunningShare) (heard : ι → Set ι) : Prop where
  fleet : Fleet shares s
  self : ∀ i, i ∈ heard i
  origin : ∀ i p, ∃ k, (s i).manifest.record p = (s₀ k).manifest.record p
  above : ∀ i, ∀ k ∈ heard i, ∀ p, rankAt ((s₀ k).manifest.record p) ≤ rankAt ((s i).manifest.record p)

theorem Fleet.meet (h : Fleet shares s) (hne : i ≠ j) (told : Pair.Told ⟨s i, s j⟩)
    (ok : exchange (shares i) (shares j) host ⟨s i, s j⟩ = .ok outcome q) :
    Fleet shares (meet s i j q)
      ∧ Forwards (s i).manifest (s j).manifest q.client.manifest q.server.manifest outcome
      ∧ ∀ k p, ∃ l, (Syncbox.meet s i j q k).manifest.record p = (s l).manifest.record p := by
  obtain ⟨hq, hadvanced, hformat⟩ := (h.pair i j).exchange told ok
  have hfrom : ∀ k p, ∃ l, (Syncbox.meet s i j q k).manifest.record p = (s l).manifest.record p := by
    refine fun k => meet_forall (P := fun _ r => ∀ p, ∃ l, r.manifest.record p = (s l).manifest.record p)
      hne (fun p => ?_) (fun p => ?_) (fun l _ _ p => ⟨l, rfl⟩) k
    · exact (hadvanced.moved p).record_or.elim (fun heq => ⟨i, heq⟩) fun heq => ⟨j, heq⟩
    · exact (hadvanced.moved p).symm.record_or.elim (fun heq => ⟨j, heq⟩) fun heq => ⟨i, heq⟩
  have hformats : ∀ k, (Syncbox.meet s i j q k).manifest.formatVersion = (s i).manifest.formatVersion :=
    meet_forall (P := fun _ r => r.manifest.formatVersion = (s i).manifest.formatVersion) hne hformat
      (hq.format.symm.trans hformat) fun k _ _ => h.format k i
  refine ⟨⟨?_, ?_, ?_, ?_, h.share, fun k l => (hformats k).trans (hformats l).symm⟩, hadvanced, hfrom⟩
  · exact meet_forall (P := fun k r => Settled (shares k) r.state) hne hq.left hq.right
      fun k _ _ => h.settled k
  · exact meet_forall (P := fun _ r => r.initialSyncComplete = true) hne hq.leftComplete hq.rightComplete
      fun k _ _ => h.complete k
  · intro k l p x y hx hy
    obtain ⟨a, ha⟩ := hfrom k p
    obtain ⟨b, hb⟩ := hfrom l p
    exact h.compatible a b p x y (ha ▸ hx) (hb ▸ hy)
  · refine h.apart.mono (Set.iUnion_subset fun k => ?_)
    rintro key ⟨p, e, hrecord, rfl⟩
    obtain ⟨l, hl⟩ := hfrom k p
    exact Set.mem_iUnion.mpr ⟨l, p, e, hl ▸ hrecord, rfl⟩

theorem Gossiped.met (h : Gossiped shares s₀ s heard) (hne : i ≠ j) (told : Pair.Told ⟨s i, s j⟩)
    (ok : exchange (shares i) (shares j) host ⟨s i, s j⟩ = .ok outcome q) :
    Gossiped shares s₀ (meet s i j q) heard := by
  obtain ⟨hfleet, hforwards, hfrom⟩ := h.fleet.meet hne told ok
  refine ⟨hfleet, h.self, fun k p => ?_, ?_⟩
  · obtain ⟨l, hl⟩ := hfrom k p
    obtain ⟨m, hm⟩ := h.origin l p
    exact ⟨m, hl.trans hm⟩
  · refine meet_forall (P := fun k r => ∀ l ∈ heard k, ∀ p,
      rankAt ((s₀ l).manifest.record p) ≤ rankAt (r.manifest.record p)) hne ?_ ?_ fun k _ _ => h.above k
    · exact fun l hl p => (h.above i l hl p).trans (hforwards.moved p).rank_le
    · exact fun l hl p => (h.above j l hl p).trans (hforwards.moved p).symm.rank_le

/-- When it leaves nothing pending, both have all that either had. -/
theorem Gossiped.settled (h : Gossiped shares s₀ s heard) (hne : i ≠ j) (told : Pair.Told ⟨s i, s j⟩)
    (ok : exchange (shares i) (shares j) host ⟨s i, s j⟩ = .ok ⟨0, 0⟩ q) :
    Gossiped shares s₀ (meet s i j q) (spread heard i j) := by
  have hmet := h.met hne told ok
  obtain ⟨-, hforwards, -⟩ := h.fleet.meet hne told ok
  have hleft : ∀ l ∈ heard i ∪ heard j, ∀ p,
      rankAt ((s₀ l).manifest.record p) ≤ rankAt (q.client.manifest.record p) := by
    rintro l (hl | hl) p
    · exact (h.above i l hl p).trans (hforwards.moved p).rank_le
    · exact (h.above j l hl p).trans (hforwards.rank_le (h.fleet.compatible i j) p)
  have hright : ∀ l ∈ heard i ∪ heard j, ∀ p,
      rankAt ((s₀ l).manifest.record p) ≤ rankAt (q.server.manifest.record p) := by
    rintro l (hl | hl) p
    · exact (h.above i l hl p).trans (hforwards.swap.rank_le (h.fleet.compatible j i) p)
    · exact (h.above j l hl p).trans (hforwards.moved p).symm.rank_le
  refine ⟨hmet.fleet, fun k => ?_, hmet.origin, ?_⟩
  · unfold spread
    split
    · rename_i hk
      rcases hk with rfl | rfl
      · exact .inl (h.self k)
      · exact .inr (h.self k)
    · exact h.self k
  · refine meet_forall (P := fun k r => ∀ l ∈ spread heard i j k, ∀ p,
      rankAt ((s₀ l).manifest.record p) ≤ rankAt (r.manifest.record p)) hne ?_ ?_ fun k hki hkj => ?_
    · rw [spread, if_pos (.inl rfl)]
      exact hleft
    · rw [spread, if_pos (.inr rfl)]
      exact hright
    · rw [spread, if_neg (not_or.mpr ⟨hki, hkj⟩)]
      exact h.above k

theorem Gossip.gossiped (h : Fleet shares s₀) (hrun : Gossip shares s₀ s heard) :
    Gossiped shares s₀ s heard := by
  induction hrun with
  | none =>
      refine ⟨h, fun _ => rfl, fun i _ => ⟨i, rfl⟩, fun i k hk p => ?_⟩
      rw [Set.mem_singleton_iff.mp hk]
  | met _ ne told ok ih => exact ih.met ne told ok
  | settled _ ne told ok ih => exact ih.settled ne told ok

/-- Whatever replicas meet in whatever order, none loses what it has to anything but a better record,
and what reaches a replica is a record that one of them had.  A replica that has heard of all has the
best of all records at every path, its tree is as its manifest says, and all such replicas agree. -/
theorem gossip_converges (h : Fleet shares s₀) (hrun : Gossip shares s₀ s heard) :
    (∀ i, Settled (shares i) (s i).state ∧ i ∈ heard i)
    ∧ (∀ i p, (∃ k, (s i).manifest.record p = (s₀ k).manifest.record p)
      ∧ ∀ k ∈ heard i, remoteRecordWins ((s i).manifest.record p) ((s₀ k).manifest.record p) = false)
    ∧ ∀ i j, heard i = Set.univ → heard j = Set.univ → (s i).manifest.SyncEq (s j).manifest
      ∧ (s i).manifest.syncDigestAfterValidation = (s j).manifest.syncDigestAfterValidation := by
  have hg := hrun.gossiped h
  refine ⟨fun i => ⟨hg.fleet.settled i, hg.self i⟩, fun i p => ⟨hg.origin i p, fun k hk => ?_⟩, ?_⟩
  · exact Bool.eq_false_iff.mpr fun hwins => (hg.above i k hk p).not_gt (wins_iff.mp hwins)
  · intro i j hi hj
    -- each has a record that the other has heard of
    have hle : ∀ i j, heard j = Set.univ → ∀ p,
        rankAt ((s i).manifest.record p) ≤ rankAt ((s j).manifest.record p) := by
      intro i j hj p
      obtain ⟨k, hk⟩ := hg.origin i p
      rw [hk]
      exact hg.above j k (hj ▸ Set.mem_univ k) p
    have hsame : (s i).manifest.SyncEq (s j).manifest := fun p =>
      (hg.fleet.compatible i j).synced (le_antisymm (hle i j hj p) (hle j i hi p))
    have hvalid : (s j).manifest.Valid (shares i).shareId :=
      h.share i j ▸ (hg.fleet.settled j).consistent.valid
    exact ⟨hsame, hsame.digest (hg.fleet.settled i).consistent.valid hvalid (hg.fleet.format i j)⟩

end Fleet

/-! ## An owner and two guests -/

section Witness

variable [Crypto]

/-- A device with one file and two with none. -/
def family (i : Fin 3) : RunningShare := if i = 0 then ownerAndGuest.client else ownerAndGuest.server

theorem fleet_family (h : Replicas plainShare plainShare ownerAndGuest) :
    Fleet (fun _ => plainShare) family := by
  have hor : ∀ i, family i = ownerAndGuest.client ∨ family i = ownerAndGuest.server :=
    fun i => ite_eq_or_eq _ _ _
  have hsame : ∀ m : Manifest, m.Compatible m := fun m p x y hx hy _ =>
    .inl (congrArg _ (Option.some.inj (hx.symm.trans hy)))
  refine ⟨fun i => ?_, fun i => ?_, fun i j => ?_, h.apart.mono (Set.iUnion_subset fun i => ?_),
    fun _ _ => rfl, fun i j => ?_⟩
  · rcases hor i with hi | hi
    · exact hi ▸ h.left
    · exact hi ▸ h.right
  · rcases hor i with hi | hi
    · exact hi ▸ h.leftComplete
    · exact hi ▸ h.rightComplete
  · rcases hor i with hi | hi <;> rcases hor j with hj | hj <;> rw [hi, hj]
    · exact hsame _
    · exact h.compatible
    · exact compatible_symm h.compatible
    · exact hsame _
  · rcases hor i with hi | hi
    · exact hi ▸ Set.subset_union_left
    · exact hi ▸ Set.subset_union_right
  · rcases hor i with hi | hi <;> rcases hor j with hj | hj <;> rw [hi, hj]
    · exact h.format
    · exact h.format.symm

end Witness

/-- The owner calls the first guest, who then calls the second. -/
theorem family_relays :
    let _ := Crypto.plain
    ∃ outcome q, exchange plainShare plainShare (.quiet, .quiet) ⟨family 0, family 1⟩ = .ok outcome q
      ∧ (outcome.pendingDownloads = 0 ∧ outcome.pendingUpdates = 0)
      ∧ q.server.manifest.syncDigestAfterValidation ≠ (family 2).manifest.syncDigestAfterValidation
      ∧ (exchange plainShare plainShare).wp (.quiet, .quiet) ⟨q.server, family 2⟩
        (fun outcome _ => outcome.pendingDownloads = 0 ∧ outcome.pendingUpdates = 0) fun _ _ => False := by
  dsimp only
  apply exists_ok_of_wp
  decide +kernel

/-- The file reaches the second guest, who has never met the owner. -/
theorem gossip_converges_family :
    let _ := Crypto.plain
    ∃ s heard, Fleet (fun _ => plainShare) family
      ∧ Gossip (fun _ => plainShare) family s heard
      ∧ (∀ i ≠ 0, heard i = Set.univ) ∧ (s 1).manifest.SyncEq (s 2).manifest
      ∧ ∀ p, remoteRecordWins ((s 2).manifest.record p) ((Manifest.oneFile 1 2).record p) = false := by
  intro _
  have hfleet : Fleet (fun _ => plainShare) family := fleet_family replicas_ownerAndGuest
  have htold : Pair.Told ⟨family 0, family 1⟩ := fun hdigest => absurd hdigest (by decide +kernel)
  have hfile : (family 0).manifest = .oneFile 1 2 := rfl
  obtain ⟨⟨_, _⟩, q, hok, ⟨rfl, rfl⟩, hdigest, hrelay⟩ := family_relays
  obtain ⟨⟨_, _⟩, r, hok', ⟨rfl, rfl⟩⟩ := exists_ok_of_wp hrelay
  -- nothing else is used of the three replicas
  generalize family = s₀ at hfleet hok hok' htold hdigest hfile ⊢
  have hrun : Gossip (fun _ => plainShare) s₀ (meet (meet s₀ 0 1 q) 1 2 r)
      (spread (spread (fun i => {i}) 0 1) 1 2) :=
    .settled (.settled .none (by decide) htold hok) (by decide) (fun heq => absurd heq hdigest) hok'
  have hheard : ∀ i ≠ 0, spread (spread (fun i : Fin 3 => {i}) 0 1) 1 2 i = Set.univ := by
    intro i hi
    have hor : i = 1 ∨ i = 2 := by omega
    refine (if_pos hor).trans (Set.eq_univ_of_forall fun k => ?_)
    have hk : k = 2 ∨ k = 1 ∨ k = 0 := by omega
    simpa [spread] using hk
  obtain ⟨-, hrank, hsame⟩ := gossip_converges hfleet hrun
  refine ⟨_, _, hfleet, hrun, hheard, (hsame 1 2 (hheard 1 (by decide)) (hheard 2 (by decide))).1, fun p => ?_⟩
  rw [← hfile]
  exact (hrank 2 p).2 0 (hheard 2 (by decide) ▸ Set.mem_univ _)

end Syncbox

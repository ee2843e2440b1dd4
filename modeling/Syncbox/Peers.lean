/-
# `Syncbox.Peers` — the list of known peers

`KnownPeers::add_or_touch` and `KnownPeers::merge_endpoint_ids` of `src/types/mod.rs`.  The first
looks a peer up and notes when it was seen, or adds it and sorts the list.  The second does so
for many peers, sorts once, and looks peers up by halves when the list and the batch are long.

The two agree on every list (`mergeEndpointIds_eq_foldl`): the lists along the way have the
same ties — for each peer the same records in the same order — and the last sort does the rest.
A list read from a file may be unsorted, and then stays so if no peer is added.
-/
import Syncbox.Types
import Syncbox.Lib.Sort

namespace Syncbox

open Rust Sorting

/-! ## The program -/

def MIN_BINARY_SEARCH_PEERS : Nat := 64

namespace KnownPeers

/-- `sort_by` on the identifiers. -/
def sort (known : KnownPeers) : KnownPeers :=
  { known with peers := sortBy PeerRecord.endpointId known.peers }

/-- Where a peer stands.  The first `sortedPrefix` records are searched by halves. -/
def position (known : KnownPeers) (value : Str) (sortedPrefix : Nat) : Option Nat :=
  if sortedPrefix = 0 then known.peers.findIdx? fun peer => peer.endpointId = value
  else
    match Sorting.binarySearch PeerRecord.endpointId (known.peers.take sortedPrefix) value with
    | some index => some index
    | none => ((known.peers.drop sortedPrefix).findIdx? fun peer => peer.endpointId = value).map
        fun index => index + sortedPrefix

section Update

variable [Crypto]

/-- `add_or_touch_unsorted`: the list, and whether a record was added. -/
def addOrTouchUnsorted (known : KnownPeers) (endpointId : EndpointId) (nowMs : U64)
    (sortedPrefix : Nat) : KnownPeers × Bool :=
  let value := endpointIdString endpointId
  match known.position value sortedPrefix with
  | some index =>
      ({ known with
          peers := known.peers.modify index fun peer => { peer with lastSeenAtMs := some nowMs } },
        false)
  | none => ({ known with peers := known.peers ++ [⟨value, nowMs, some nowMs⟩] }, true)

def addOrTouch (known : KnownPeers) (endpointId : EndpointId) (nowMs : U64) : KnownPeers :=
  let (known, inserted) := known.addOrTouchUnsorted endpointId nowMs 0
  if inserted then known.sort else known

/-- The loop of `merge_endpoint_ids`. -/
def mergeLoop (nowMs : U64) (sortedPrefix : Nat) :
    List EndpointId → KnownPeers × Bool → KnownPeers × Bool
  | [], state => state
  | endpointId :: rest, (known, inserted) =>
      let (known, added) := known.addOrTouchUnsorted endpointId nowMs sortedPrefix
      mergeLoop nowMs sortedPrefix rest (known, inserted || added)

/-- `merge_endpoint_ids`, of an iterator that announces at least `sizeHint` identifiers. -/
def mergeEndpointIds (known : KnownPeers) (endpointIds : List EndpointId) (sizeHint : Nat)
    (nowMs : U64) : KnownPeers :=
  let sortedPrefix :=
    if known.peers.length ≥ MIN_BINARY_SEARCH_PEERS ∧ sizeHint ≥ MIN_BINARY_SEARCH_PEERS
        ∧ (known.peers.map PeerRecord.endpointId).Pairwise (· < ·)
    then known.peers.length else 0
  let (known, inserted) := mergeLoop nowMs sortedPrefix endpointIds (known, false)
  if inserted then known.sort else known

/-! ## One peer -/

/-- The records searched by halves are sorted. -/
def Frozen (known : KnownPeers) (sortedPrefix : Nat) : Prop :=
  ((known.peers.take sortedPrefix).map PeerRecord.endpointId).Pairwise (· < ·)
    ∧ sortedPrefix ≤ known.peers.length

omit [Crypto] in
theorem Frozen.position_eq {known : KnownPeers} {sortedPrefix : Nat} (hf : known.Frozen sortedPrefix)
    (value : Str) :
    known.position value sortedPrefix = known.peers.findIdx? fun peer => peer.endpointId = value := by
  unfold position
  split
  · rfl
  · conv_rhs => rw [← List.take_append_drop sortedPrefix known.peers]
    rw [List.findIdx?_append, List.length_take_of_le hf.2,
      Sorting.binarySearch_eq_findIdx? (fun _ => decide_eq_true_iff) hf.1]
    cases (known.peers.take sortedPrefix).findIdx? fun peer => peer.endpointId = value <;> rfl

/-- A record of a peer that was seen. -/
def touched (nowMs : U64) (peer : PeerRecord) : PeerRecord := { peer with lastSeenAtMs := some nowMs }

omit [Crypto] in
theorem map_touched (nowMs : U64) (p : PeerRecord → Bool) (peers : List PeerRecord) :
    (modifyFirst (touched nowMs) p peers).map PeerRecord.endpointId = peers.map PeerRecord.endpointId :=
  map_modifyFirst (f := touched nowMs) (fun _ => rfl) p peers

/-- What happens to the list, whichever way it is searched. -/
theorem Frozen.addOrTouchUnsorted_eq {known : KnownPeers} {sortedPrefix : Nat}
    (hf : known.Frozen sortedPrefix) (endpointId : EndpointId) (nowMs : U64) :
    known.addOrTouchUnsorted endpointId nowMs sortedPrefix
      = if endpointIdString endpointId ∈ known.peers.map PeerRecord.endpointId
        then ({ known with
            peers := modifyFirst (touched nowMs)
              (fun peer => peer.endpointId = endpointIdString endpointId) known.peers }, false)
        else ({ known with
            peers := known.peers ++ [⟨endpointIdString endpointId, nowMs, some nowMs⟩] }, true) := by
  unfold addOrTouchUnsorted
  simp only [hf.position_eq]
  cases hfind : known.peers.findIdx? fun peer => peer.endpointId = endpointIdString endpointId with
  | none =>
      rw [if_neg]
      intro hm
      obtain ⟨peer, hpeer, heq⟩ := List.mem_map.mp hm
      exact of_decide_eq_false (List.findIdx?_eq_none_iff.mp hfind peer hpeer) heq
  | some index =>
      obtain ⟨hindex, heq, -⟩ := List.findIdx?_eq_some_iff_getElem.mp hfind
      rw [if_pos (List.mem_map.mpr ⟨_, List.getElem_mem hindex, of_decide_eq_true heq⟩)]
      dsimp only
      rw [modify_findIdx? hfind]
      rfl

omit [Crypto] in
theorem frozen_zero (known : KnownPeers) : known.Frozen 0 := ⟨List.Pairwise.nil, Nat.zero_le _⟩

/-- Adding and touching leave the sorted records where they are. -/
theorem Frozen.step {known : KnownPeers} {sortedPrefix : Nat} (hf : known.Frozen sortedPrefix)
    (endpointId : EndpointId) (nowMs : U64) :
    (known.addOrTouchUnsorted endpointId nowMs sortedPrefix).1.Frozen sortedPrefix := by
  rw [hf.addOrTouchUnsorted_eq]
  split
  · have hids := map_touched nowMs (fun peer => peer.endpointId = endpointIdString endpointId)
      known.peers
    have hlen := congrArg List.length hids
    rw [List.length_map, List.length_map] at hlen
    refine ⟨?_, hlen ▸ hf.2⟩
    rw [List.map_take, hids, ← List.map_take]
    exact hf.1
  · refine ⟨?_, hf.2.trans (by simp)⟩
    rw [List.take_append_of_le_length hf.2]
    exact hf.1

/-! ## Many peers -/

/-- The list kept sorted, and the list that will be: the same ties, and the same list as long as
nothing was added. -/
structure Follows (known batch : KnownPeers) (inserted : Bool) : Prop where
  version : known.formatVersion = batch.formatVersion
  ties : SameTies PeerRecord.endpointId known.peers batch.peers
  sorted : inserted = true → Sorted PeerRecord.endpointId known.peers
  same : inserted = false → known = batch

omit [Crypto] in
theorem Follows.mem_iff {known batch : KnownPeers} {inserted : Bool} (h : Follows known batch inserted)
    {value : Str} : value ∈ known.peers.map PeerRecord.endpointId
      ↔ value ∈ batch.peers.map PeerRecord.endpointId := by
  simp only [List.mem_map, h.ties.mem_iff]

theorem Follows.step {known batch : KnownPeers} {inserted : Bool} {sortedPrefix : Nat}
    (h : Follows known batch inserted) (hf : batch.Frozen sortedPrefix) (endpointId : EndpointId)
    (nowMs : U64) :
    Follows (known.addOrTouch endpointId nowMs)
      (batch.addOrTouchUnsorted endpointId nowMs sortedPrefix).1
      (inserted || (batch.addOrTouchUnsorted endpointId nowMs sortedPrefix).2) := by
  unfold addOrTouch
  rw [hf.addOrTouchUnsorted_eq, known.frozen_zero.addOrTouchUnsorted_eq]
  by_cases hm : endpointIdString endpointId ∈ batch.peers.map PeerRecord.endpointId
  · rw [if_pos hm, if_pos (h.mem_iff.mpr hm)]
    dsimp only
    rw [Bool.or_false, if_neg Bool.false_ne_true]
    refine ⟨h.version, h.ties.modifyFirst (fun _ => rfl) fun _ => decide_eq_true_iff, ?_, ?_⟩
    · intro hinserted
      show List.Pairwise _ (List.map _ _)
      rw [map_touched]
      exact h.sorted hinserted
    · intro hinserted
      rw [h.same hinserted]
  · rw [if_neg hm, if_neg fun hm' => hm (h.mem_iff.mp hm')]
    dsimp only
    rw [Bool.or_true, if_pos rfl]
    refine ⟨h.version, (SameTies.sortBy _).trans (h.ties.append _), fun _ => sorted_sortBy _, ?_⟩
    intro hfalse
    cases hfalse

theorem Follows.mergeLoop {nowMs : U64} {sortedPrefix : Nat} {endpointIds : List EndpointId}
    {known batch : KnownPeers} {inserted : Bool} (h : Follows known batch inserted)
    (hf : batch.Frozen sortedPrefix) :
    Follows (endpointIds.foldl (fun known endpointId => known.addOrTouch endpointId nowMs) known)
      (mergeLoop nowMs sortedPrefix endpointIds (batch, inserted)).1
      (mergeLoop nowMs sortedPrefix endpointIds (batch, inserted)).2 := by
  induction endpointIds generalizing known batch inserted with
  | nil => exact h
  | cons endpointId rest ih => exact ih (h.step hf endpointId nowMs) (hf.step endpointId nowMs)

omit [Crypto] in
theorem Follows.eq {known batch : KnownPeers} {inserted : Bool} (h : Follows known batch inserted) :
    (if inserted then batch.sort else batch) = known := by
  cases inserted with
  | false => exact (h.same rfl).symm
  | true =>
      have hpeers : known.peers = sortBy PeerRecord.endpointId batch.peers :=
        (h.ties.trans (SameTies.sortBy _).symm).eq_of_sorted (h.sorted rfl) (sorted_sortBy _)
      rw [if_pos rfl, sort, ← h.version, ← hpeers]

theorem mergeEndpointIds_eq (known : KnownPeers) (endpointIds : List EndpointId) (sizeHint : Nat)
    (nowMs : U64) : known.mergeEndpointIds endpointIds sizeHint nowMs
      = endpointIds.foldl (fun known endpointId => known.addOrTouch endpointId nowMs) known := by
  unfold mergeEndpointIds
  refine Follows.eq (Follows.mergeLoop ⟨rfl, SameTies.refl _, fun hfalse => (by cases hfalse),
    fun _ => rfl⟩ ?_)
  split
  · rename_i hlong
    refine ⟨?_, le_rfl⟩
    rw [List.take_length]
    exact hlong.2.2
  · exact known.frozen_zero

/-! ## Which peers are known -/

/-- The identifiers on the list. -/
def ids (known : KnownPeers) : List Str := known.peers.map PeerRecord.endpointId

theorem ids_addOrTouch (known : KnownPeers) (endpointId : EndpointId) (nowMs : U64) :
    if endpointIdString endpointId ∈ known.ids then (known.addOrTouch endpointId nowMs).ids = known.ids
    else (known.addOrTouch endpointId nowMs).ids.Perm (endpointIdString endpointId :: known.ids) := by
  unfold addOrTouch
  rw [known.frozen_zero.addOrTouchUnsorted_eq]
  split
  · rw [if_pos (by assumption)]
    exact map_touched nowMs _ known.peers
  · rw [if_neg (by assumption)]
    dsimp only
    rw [if_pos rfl]
    refine ((perm_sortBy _).map _).trans ?_
    rw [List.map_append]
    exact List.perm_append_comm

theorem nodup_addOrTouch {known : KnownPeers} (hnodup : known.ids.Nodup) (endpointId : EndpointId)
    (nowMs : U64) : (known.addOrTouch endpointId nowMs).ids.Nodup := by
  have hids := known.ids_addOrTouch endpointId nowMs
  split at hids
  · rw [hids]
    exact hnodup
  · rename_i hnot
    exact hids.nodup_iff.mpr (List.nodup_cons.mpr ⟨hnot, hnodup⟩)

theorem mem_ids_addOrTouch {known : KnownPeers} {endpointId : EndpointId} {nowMs : U64} {value : Str} :
    value ∈ (known.addOrTouch endpointId nowMs).ids
      ↔ value = endpointIdString endpointId ∨ value ∈ known.ids := by
  have hids := known.ids_addOrTouch endpointId nowMs
  split at hids
  · rename_i hm
    rw [hids]
    exact ⟨.inr, fun h => h.elim (fun heq => heq ▸ hm) id⟩
  · rw [hids.mem_iff, List.mem_cons]

section Merge

variable {known : KnownPeers} {endpointIds : List EndpointId} {sizeHint : Nat} {nowMs : U64}

theorem nodup_mergeEndpointIds (hnodup : known.ids.Nodup) :
    (known.mergeEndpointIds endpointIds sizeHint nowMs).ids.Nodup := by
  rw [mergeEndpointIds_eq]
  induction endpointIds generalizing known with
  | nil => exact hnodup
  | cons endpointId rest ih => exact ih (nodup_addOrTouch hnodup endpointId nowMs)

theorem mem_ids_mergeEndpointIds {value : Str} :
    value ∈ (known.mergeEndpointIds endpointIds sizeHint nowMs).ids
      ↔ value ∈ known.ids ∨ value ∈ endpointIds.map endpointIdString := by
  rw [mergeEndpointIds_eq]
  induction endpointIds generalizing known with
  | nil => simp
  | cons endpointId rest ih =>
      refine ih.trans ?_
      rw [mem_ids_addOrTouch, List.map_cons, List.mem_cons, or_comm (a := _ = _), or_assoc]

theorem formatVersion_mergeEndpointIds :
    (known.mergeEndpointIds endpointIds sizeHint nowMs).formatVersion = known.formatVersion := by
  have hstep : ∀ (known : KnownPeers) (endpointId : EndpointId),
      (known.addOrTouch endpointId nowMs).formatVersion = known.formatVersion := by
    intro known endpointId
    unfold addOrTouch
    rw [known.frozen_zero.addOrTouchUnsorted_eq]
    by_cases hm : endpointIdString endpointId ∈ known.peers.map PeerRecord.endpointId
    · rw [if_pos hm]
      rfl
    · rw [if_neg hm]
      rfl
  rw [mergeEndpointIds_eq]
  induction endpointIds generalizing known with
  | nil => rfl
  | cons endpointId rest ih => exact ih.trans (hstep known endpointId)

theorem length_ids_mergeEndpointIds (hnodup : known.ids.Nodup) :
    (known.mergeEndpointIds endpointIds sizeHint nowMs).ids.length
      = (known.ids ++ endpointIds.map endpointIdString).toFinset.card := by
  rw [← List.toFinset_card_of_nodup (nodup_mergeEndpointIds hnodup)]
  refine congrArg Finset.card (Finset.ext fun value => ?_)
  rw [List.mem_toFinset, mem_ids_mergeEndpointIds, List.mem_toFinset, List.mem_append]

end Merge

/-- Merging a batch is adding its peers one by one, however the list is searched, and puts no
peer on the list twice. -/
theorem mergeEndpointIds_eq_foldl (known : KnownPeers) (endpointIds : List EndpointId) (sizeHint : Nat)
    (nowMs : U64) :
    known.mergeEndpointIds endpointIds sizeHint nowMs
        = endpointIds.foldl (fun known endpointId => known.addOrTouch endpointId nowMs) known
      ∧ (known.ids.Nodup → (known.mergeEndpointIds endpointIds sizeHint nowMs).ids.Nodup) :=
  ⟨known.mergeEndpointIds_eq endpointIds sizeHint nowMs, nodup_mergeEndpointIds⟩

end Update

/-- A list that is not sorted, and a peer that comes twice. -/
theorem mergeEndpointIds_eq_foldl_unsorted :
    let _ := Crypto.plain
    let peer : EndpointId := ⟨List.replicate 32 0, rfl⟩
    let known : KnownPeers := ⟨FORMAT_VERSION, [⟨"b".toList, 1, none⟩, ⟨"a".toList, 2, none⟩]⟩
    known.ids.Nodup ∧ (known.mergeEndpointIds [peer, peer] 2 7).ids.Nodup :=
  let _ := Crypto.plain
  let known : KnownPeers := ⟨FORMAT_VERSION, [⟨"b".toList, 1, none⟩, ⟨"a".toList, 2, none⟩]⟩
  have hnodup : known.ids.Nodup := by decide
  ⟨hnodup, (mergeEndpointIds_eq_foldl known _ 2 7).2 hnodup⟩

end KnownPeers

end Syncbox

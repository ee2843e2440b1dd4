/-
# `Syncbox.Network.Gossip` — peers that are told of

`merge_remote_peers` of `src/network/state.rs`, run by both sides of a synchronization with the
list the other side sent.  The stored list is loaded, what is new is merged into it, and the
result is saved.

Nothing is ever forgotten, so the list that is saved is the union of what was known and what
was told.  Each part was checked to be within the limit of 256; their union is checked by the
save, and too large a union fails the synchronization (`mergeRemotePeers_saves_iff`).
-/
import Syncbox.Network.Wire
import Syncbox.Peers
import Syncbox.Storage.State

namespace Syncbox

open Rust Unix Storage Prog

/-! ## The program -/

section Program

variable [Crypto]

/-- The identifiers that are merged: what was told, then the peer itself, the device left out. -/
def newEndpointIds (localId : EndpointId) (peers : List Str) (authenticated : Option EndpointId) :
    Except Error (List EndpointId) := do
  let endpointIds ← peers.mapM parseEndpointId
  .ok (endpointIds.filter (· ≠ localId) ++ (authenticated.filter (· ≠ localId)).toList)

def mergeRemotePeers [Serde KnownPeers] (paths : DataPaths) (shareId : ShareId) (localId : EndpointId)
    (peers : List Str) (authenticated : Option EndpointId) : Fs Unit := do
  let known ← paths.loadKnownPeers shareId
  let endpointIds ← Prog.ofExcept (newEndpointIds localId peers authenticated)
  let nowMs ← currentTimeMs
  paths.saveKnownPeers shareId (known.mergeEndpointIds endpointIds endpointIds.length nowMs)

end Program

/-! ## What is merged -/

section Merged

variable [Crypto]

theorem parseEndpointId_eq_ok {value : Str} {id : EndpointId} : parseEndpointId value = .ok id
    ↔ endpointIdFromStr value = some id ∧ endpointIdString id = value := by
  unfold parseEndpointId
  cases endpointIdFromStr value with
  | none => exact ⟨fun h => (by cases h), fun h => (by cases h.1)⟩
  | some id' =>
      simp only [Check.andThen_eq_ok, Check.rejectIf_eq_ok, ne_eq, Decidable.not_not, Except.ok.injEq,
        Option.some.injEq]
      constructor
      · rintro ⟨hstring, rfl⟩
        exact ⟨rfl, hstring⟩
      · rintro ⟨rfl, hstring⟩
        exact ⟨hstring, rfl⟩

theorem newEndpointIds_ok {peers : List Str} (hpeers : validateWirePeers peers = .ok ())
    (localId : EndpointId) (authenticated : Option EndpointId) :
    ∃ endpointIds, newEndpointIds localId peers authenticated = .ok endpointIds
      ∧ (∀ id ∈ endpointIds, parseEndpointId (endpointIdString id) = .ok id ∨ authenticated = some id)
      ∧ ∀ id, authenticated = some id → id ≠ localId → id ∈ endpointIds := by
  have hparse := (validateWirePeers_eq_ok.mp hpeers).2.1
  have hall : ∀ {peers : List Str}, (∀ peer ∈ peers, ∃ id, parseEndpointId peer = .ok id) →
      ∃ ids, peers.mapM parseEndpointId = .ok ids
        ∧ ∀ id ∈ ids, parseEndpointId (endpointIdString id) = .ok id := by
    intro peers hparse
    induction peers with
    | nil => exact ⟨[], rfl, fun id hid => (by cases hid)⟩
    | cons peer peers ih =>
        obtain ⟨id, hid⟩ := hparse peer List.mem_cons_self
        obtain ⟨ids, hids, heach⟩ := ih fun peer hm => hparse peer (List.mem_cons_of_mem _ hm)
        refine ⟨id :: ids, ?_, ?_⟩
        · rw [List.mapM_cons, hid, hids]
          rfl
        · intro id' hid'
          rcases List.mem_cons.mp hid' with rfl | hid'
          · rw [(parseEndpointId_eq_ok.mp hid).2]
            exact hid
          · exact heach id' hid'
  obtain ⟨ids, hids, heach⟩ := hall hparse
  refine ⟨_, Check.bind_eq_ok.mpr ⟨ids, hids, rfl⟩, ?_, ?_⟩
  · intro id hid
    rcases List.mem_append.mp hid with hid | hid
    · exact .inl (heach id (List.mem_filter.mp hid).1)
    · exact .inr (Option.filter_eq_some_iff.mp (Option.mem_toList.mp hid)).1
  · intro id hid hne
    refine List.mem_append_right _ (Option.mem_toList.mpr ?_)
    exact Option.filter_eq_some_iff.mpr ⟨hid, decide_eq_true hne⟩

/-- All peers, known before or told of. -/
def union (known : KnownPeers) (endpointIds : List EndpointId) : Finset Str :=
  (known.ids ++ endpointIds.map endpointIdString).toFinset

/-- The merged list is accepted exactly when it is short enough. -/
theorem merged_validate_iff {known : KnownPeers} {endpointIds : List EndpointId} {sizeHint : Nat}
    {nowMs : U64} (hknown : known.validate = .ok ())
    (hids : ∀ id ∈ endpointIds, parseEndpointId (endpointIdString id) = .ok id) :
    (known.mergeEndpointIds endpointIds sizeHint nowMs).validate = .ok ()
      ↔ (union known endpointIds).card ≤ 256 := by
  obtain ⟨hversion, -, heach, hnodup⟩ := KnownPeers.validate_eq_ok.mp hknown
  have hlen : (known.mergeEndpointIds endpointIds sizeHint nowMs).peers.length
      = (union known endpointIds).card := by
    rw [union, ← KnownPeers.length_ids_mergeEndpointIds hnodup, KnownPeers.ids, List.length_map]
  rw [KnownPeers.validate_eq_ok, hlen]
  refine ⟨fun h => h.2.1, fun hcard => ⟨KnownPeers.formatVersion_mergeEndpointIds.trans hversion, hcard,
    ?_, KnownPeers.nodup_mergeEndpointIds hnodup⟩⟩
  intro peer hpeer
  have hmem : peer.endpointId ∈ (known.mergeEndpointIds endpointIds sizeHint nowMs).ids :=
    List.mem_map_of_mem hpeer
  rcases KnownPeers.mem_ids_mergeEndpointIds.mp hmem with hmem | hmem
  · obtain ⟨record, hrecord, heq⟩ := List.mem_map.mp hmem
    rw [← heq]
    exact heach record hrecord
  · obtain ⟨id, hid, heq⟩ := List.mem_map.mp hmem
    rw [← heq]
    exact ⟨id, hids id hid⟩

end Merged

/-! ## A full list -/

section Full

/-- Peer number `i`, and a peer with no number. -/
def numbered (i : Fin 256) : EndpointId := ⟨i :: List.replicate 31 0, by simp⟩

def stranger : EndpointId := ⟨0 :: 1 :: List.replicate 30 0, by simp⟩

/-- The list of the first peers. -/
def firstPeers (count : Nat) : KnownPeers :=
  ⟨FORMAT_VERSION, ((List.finRange 256).take count).map fun i => ⟨hexText (numbered i).val, 0, some 0⟩⟩

theorem ids_firstPeers (count : Nat) :
    (firstPeers count).ids = ((List.finRange 256).take count).map fun i => hexText (numbered i).val := by
  rw [KnownPeers.ids, firstPeers, List.map_map]
  rfl

theorem nodup_firstPeers (count : Nat) : (firstPeers count).ids.Nodup := by
  rw [ids_firstPeers]
  refine (List.nodup_finRange 256).sublist (List.take_sublist _ _) |>.map ?_
  intro i j heq
  exact (List.cons.inj (hexText_injective heq)).1

theorem validate_firstPeers (count : Nat) :
    let _ := Crypto.hex
    (firstPeers count).validate = .ok () := by
  intro _
  refine KnownPeers.validate_eq_ok.mpr ⟨rfl, ?_, ?_, nodup_firstPeers count⟩
  · rw [firstPeers, List.length_map, List.length_take]
    exact (min_le_right _ _).trans (List.length_finRange).le
  · intro peer hpeer
    obtain ⟨i, -, rfl⟩ := List.mem_map.mp hpeer
    exact ⟨numbered i, parseEndpointId_eq_ok.mpr ⟨Crypto.hex_fromStr _, rfl⟩⟩

theorem card_firstPeers_stranger :
    let _ := Crypto.hex
    (union (firstPeers 256) [stranger]).card = 257 := by
  intro _
  have hnodup : ((firstPeers 256).ids ++ [hexText stranger.val]).Nodup := by
    refine List.nodup_append.mpr ⟨nodup_firstPeers 256, List.nodup_singleton _, ?_⟩
    intro value hvalue other hother heq
    rw [List.mem_singleton.mp hother] at heq
    rw [heq, ids_firstPeers] at hvalue
    obtain ⟨i, -, heq⟩ := List.mem_map.mp hvalue
    have hbytes := (List.cons.inj (hexText_injective heq)).2
    exact absurd hbytes (by decide)
  show ((firstPeers 256).ids ++ [hexText stranger.val]).toFinset.card = 257
  rw [List.toFinset_card_of_nodup hnodup, List.length_append, ids_firstPeers, List.length_map,
    List.length_take, List.length_finRange]
  rfl

/-- The device of the examples, and its share. -/
def device : EndpointId := ⟨List.replicate 32 255, by simp⟩

def someShare : ShareId := ⟨List.replicate 32 0, length_zeros⟩

/-- A list that was saved is loaded, and may be saved again. -/
theorem saved_firstPeers [Serde KnownPeers] {count : Nat}
    (hround : Serde.fromSlice (stateBytes (firstPeers count)) = some (firstPeers count))
    (hfits : (stateBytes (firstPeers count)).length ≤ SMALL_STATE_MAX_BYTES) :
    let _ := Crypto.hex
    ∃ w w₁, (DataPaths.mk []).loadKnownPeers someShare .quiet w = .ok (firstPeers count) w₁
      ∧ Plain w.disk ((DataPaths.mk []).shareDir someShare)
      ∧ Accepts .quiet w.disk ((DataPaths.mk []).shareDir someShare) "known_peers.json".toList
        (stateBytes (firstPeers count)) := by
  let _ := Crypto.hex
  have hfits' : (stateBytes (firstPeers count)).length < 2 ^ 64 := hfits.trans_lt (by decide)
  have ha : Accepts .quiet registry ((DataPaths.mk []).shareDir someShare) "known_peers.json".toList
      (stateBytes (firstPeers count)) := accepts_registry someShare hfits'
  obtain ⟨w, hsave⟩ := @saveState_succeeds _ _ (firstPeers count) _ _ .quiet ⟨registry, 0, []⟩
    (plain_registry someShare) (by decide) ha
  have hwrite := (saveState_ok hsave).2
  obtain ⟨d, hsecured, hdir, hsearched, hreplaced⟩ :=
    wp_ok (atomicWriteJson_spec (plain_registry someShare) (by decide)) hwrite
  have hload : ∃ w₁, (DataPaths.mk []).loadKnownPeers someShare .quiet w = .ok (firstPeers count) w₁ :=
    (loadState_written_iff (plain_registry someShare) (by decide) hround (validate_firstPeers count)
      (fun _ => rfl) rfl hwrite).mpr hfits
  obtain ⟨w₁, hload⟩ := hload
  refine ⟨w, w₁, hload, ?_, ha.again hsecured hdir hreplaced hfits'⟩
  exact (hsecured.plain (plain_registry someShare)).congr fun hi => hreplaced.off (prefix_ne_child hi)

end Full

/-! ## What is saved -/

section Saved

variable [Crypto] [Serde KnownPeers] {paths : DataPaths} {shareId : ShareId} {localId : EndpointId}
  {peers : List Str} {authenticated : Option EndpointId} {known : KnownPeers} {h : Host} {w w₁ : World}

/-- After the list was loaded, a merge is one save. -/
theorem mergeRemotePeers_eq {endpointIds : List EndpointId}
    (hload : paths.loadKnownPeers shareId h w = .ok known w₁)
    (hids : newEndpointIds localId peers authenticated = .ok endpointIds) :
    mergeRemotePeers paths shareId localId peers authenticated h w
      = paths.saveKnownPeers shareId
          (known.mergeEndpointIds endpointIds endpointIds.length (h.clockMs w₁.calls)) h
          { w₁ with calls := w₁.calls + 1 } := by
  show EStateM.bind (paths.loadKnownPeers shareId h) _ w = _
  rw [EStateM.bind, hload, hids]
  rfl

variable (paths shareId localId) in
/-- For every list that was stored and every list that was told, the merged list passes the check
exactly when the peers of both are at most 256, and that decides whether it is saved.  It has
every peer that was known and the peer that was authenticated. -/
theorem mergeRemotePeers_saves_iff (hknown : known.validate = .ok ())
    (hpeers : validateWirePeers peers = .ok ())
    (hround : ∀ id, authenticated = some id → endpointIdFromStr (endpointIdString id) = some id) :
    ∃ endpointIds, newEndpointIds localId peers authenticated = .ok endpointIds
      ∧ (∀ nowMs, let merged := known.mergeEndpointIds endpointIds endpointIds.length nowMs
        (merged.validate = .ok () ↔ (union known endpointIds).card ≤ 256)
          ∧ known.ids ⊆ merged.ids
          ∧ ∀ id, authenticated = some id → id ≠ localId → endpointIdString id ∈ merged.ids)
      ∧ ∀ {h w w₁}, paths.loadKnownPeers shareId h w = .ok known w₁ →
        let merged := known.mergeEndpointIds endpointIds endpointIds.length (h.clockMs w₁.calls)
        Plain w.disk (paths.shareDir shareId) →
        Accepts h w.disk (paths.shareDir shareId) "known_peers.json".toList (stateBytes merged) →
        ((∃ w', mergeRemotePeers paths shareId localId peers authenticated h w = .ok () w')
            ↔ (union known endpointIds).card ≤ 256)
          ∧ ∀ w', mergeRemotePeers paths shareId localId peers authenticated h w = .ok () w' →
            Holds w'.disk (paths.shareKnownPeers shareId) (stateBytes merged) := by
  obtain ⟨endpointIds, hids, hfrom, hauth⟩ := newEndpointIds_ok hpeers localId authenticated
  have hparsed : ∀ id ∈ endpointIds, parseEndpointId (endpointIdString id) = .ok id := by
    intro id hid
    rcases hfrom id hid with hparsed | hauthenticated
    · exact hparsed
    · exact parseEndpointId_eq_ok.mpr ⟨hround id hauthenticated, rfl⟩
  refine ⟨endpointIds, hids, fun nowMs => ⟨merged_validate_iff hknown hparsed, ?_, ?_⟩, ?_⟩
  · intro value hvalue
    exact KnownPeers.mem_ids_mergeEndpointIds.mpr (.inl hvalue)
  · intro id hid hne
    exact KnownPeers.mem_ids_mergeEndpointIds.mpr (.inr (List.mem_map_of_mem (hauth id hid hne)))
  · intro h w w₁ hload merged hp ha
    have hdisk := (loadState_ok hload).2
    rw [mergeRemotePeers_eq hload hids]
    have hp' : Plain (World.disk { w₁ with calls := w₁.calls + 1 }) (paths.shareDir shareId) := by
      rw [hdisk]
      exact hp
    have hiff : merged.validate = .ok () ↔ _ := merged_validate_iff hknown hparsed
    refine ⟨?_, ?_⟩
    · rw [← hiff]
      constructor
      · rintro ⟨w', hsave⟩
        exact (saveState_ok hsave).1
      · intro hvalid
        unfold DataPaths.saveKnownPeers
        rw [hvalid]
        exact saveState_succeeds hp' (by decide) (by rw [hdisk]; exact ha)
    · intro w' hsave
      obtain ⟨d, -, -, -, hreplaced⟩ := wp_ok (atomicWriteJson_spec hp' (by decide)) (saveState_ok hsave).2
      exact hreplaced.holds

end Saved

/-- A peer that is known already, and tells of itself. -/
theorem mergeRemotePeers_saves_iff_known :
    let _ := Crypto.hex
    let known := firstPeers 1
    let peers := [hexText (numbered 0).val]
    ∃ _ : Serde KnownPeers, known.validate = .ok () ∧ validateWirePeers peers = .ok ()
      ∧ ∃ w w₁, (DataPaths.mk []).loadKnownPeers someShare .quiet w = .ok known w₁
        ∧ ∃ w', mergeRemotePeers (.mk []) someShare device peers (some (numbered 0)) .quiet w = .ok () w'
          ∧ Holds w'.disk ((DataPaths.mk []).shareKnownPeers someShare) (stateBytes known) := by
  let _ := Crypto.hex
  obtain ⟨serde, hround, -, hlen⟩ := exists_serde (fun _ => 0) (firstPeers 1) (Nat.zero_le 0)
  have hpeers : validateWirePeers [hexText (numbered 0).val] = .ok () :=
    validateWirePeers_eq_ok.mpr ⟨by decide, fun peer hpeer => ⟨numbered 0, by
      rw [List.mem_singleton.mp hpeer]
      exact parseEndpointId_eq_ok.mpr ⟨Crypto.hex_fromStr _, rfl⟩⟩, List.nodup_singleton _⟩
  obtain ⟨w, w₁, hload, hp, ha⟩ := saved_firstPeers (hround (firstPeers 1)) (by
    rw [stateBytes, List.length_append, hlen]
    decide)
  refine ⟨serde, validate_firstPeers 1, hpeers, w, w₁, hload, ?_⟩
  have hround' : ∀ id, some (numbered 0) = some id →
      endpointIdFromStr (endpointIdString id) = some id := fun id _ => Crypto.hex_fromStr id
  obtain ⟨endpointIds, hids, -, hmerge⟩ := mergeRemotePeers_saves_iff (.mk []) someShare device
    (validate_firstPeers 1) hpeers hround'
  have hsame : newEndpointIds device [hexText (numbered 0).val] (some (numbered 0))
      = .ok [numbered 0, numbered 0] := by decide +kernel
  rw [hsame] at hids
  cases hids
  -- touching a peer at the time it was last seen changes nothing
  have hmerged : (firstPeers 1).mergeEndpointIds [numbered 0, numbered 0] 2 (Host.quiet.clockMs w₁.calls)
      = firstPeers 1 := by
    show (firstPeers 1).mergeEndpointIds [numbered 0, numbered 0] 2 0 = firstPeers 1
    rfl
  have hmerge := hmerge hload hp
  dsimp only [List.length_cons, List.length_nil] at hmerge
  rw [hmerged] at hmerge
  obtain ⟨w', hrun⟩ := (hmerge ha).1.mpr (by decide +kernel)
  exact ⟨w', hrun, (hmerge ha).2 w' hrun⟩

/-- The list is full, and the peer is not on it: both lists are accepted, and the
synchronization fails. -/
theorem full_list_fails :
    let _ := Crypto.hex
    ∃ _ : Serde KnownPeers, (∀ known : KnownPeers, Serde.fromSlice (stateBytes known) = some known)
      ∧ (firstPeers 256).validate = .ok () ∧ validateWirePeers [] = .ok ()
      ∧ ∃ w w₁, (DataPaths.mk []).loadKnownPeers someShare .quiet w = .ok (firstPeers 256) w₁
        ∧ ∀ w', mergeRemotePeers (.mk []) someShare device [] (some stranger) .quiet w ≠ .ok () w' := by
  let _ := Crypto.hex
  obtain ⟨serde, hround, -, hlen⟩ := exists_serde (fun _ => 0) (firstPeers 256) (Nat.zero_le 0)
  obtain ⟨w, w₁, hload, -, -⟩ := saved_firstPeers (hround (firstPeers 256)) (by
    rw [stateBytes, List.length_append, hlen]
    decide)
  refine ⟨serde, hround, validate_firstPeers 256, by decide, w, w₁, hload, ?_⟩
  intro w' hmerge
  have hids : newEndpointIds device [] (some stranger) = .ok [stranger] := by decide
  rw [mergeRemotePeers_eq hload hids] at hmerge
  have hcard := (merged_validate_iff (validate_firstPeers 256) fun id hid => by
    rw [List.mem_singleton.mp hid]
    exact parseEndpointId_eq_ok.mpr ⟨Crypto.hex_fromStr _, rfl⟩).mp (saveState_ok hmerge).1
  rw [card_firstPeers_stranger] at hcard
  exact absurd hcard (by decide)

end Syncbox

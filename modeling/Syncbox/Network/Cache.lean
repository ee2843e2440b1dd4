/-
# `Syncbox.Network.Cache` — the cache of the manifest under failures

Sessions, scans and schedulers read the manifest through `manifest_snapshot` and replace it
through `save_manifest` of `src/network/state.rs`.  Each call holds the cache's mutex from
its first look at the cache to its end, so calls follow one another.  A save may fail before
its rename or after it, and the one who called cannot tell: the cache is then dropped, and
the next snapshot reads the file.

Two facts are carried along a run.  A cached snapshot is that of the file (`Coherent`), and
the file only changes together with the generation (`Advances`).  The second needs that the
generation, which is 64 bits wide, does not come round: a run of fewer calls than are left
before it would.
-/
import Syncbox.Network.State

namespace Syncbox

open Rust Unix Prog

section Calls

variable [Crypto]

/-- What happens to the cache, call by call. -/
inductive Call where
  | snapshot
  | save (manifest : Manifest)
  /-- Anything that concerns neither the manifest nor its cache. -/
  | elsewhere (world : World) (clockFile : ClockState) (initialSyncComplete : Bool)

/-- A snapshot that was returned, and the state at that moment. -/
structure Sighting where
  snapshot : ManifestSnapshot
  state : ShareState

variable (share : ActiveShare) (h : Host)

/-- One call: the snapshot it returned, if it did, and the state it leaves. -/
def Call.perform (s : ShareState) : Call → List Sighting × ShareState
  | .snapshot =>
      match manifestSnapshot share h s with
      | .ok seen s' => ([⟨seen, s'⟩], s')
      | .error _ s' => ([], s')
  | .save manifest =>
      match saveManifest share manifest h s with
      | .ok _ s' | .error _ s' => ([], s')
  | .elsewhere world clockFile initialSyncComplete =>
      ([], { s with
        world := world
        clockFile := clockFile
        initialSyncComplete := initialSyncComplete })

/-- The snapshots returned along a sequence of calls, in order. -/
def sightings : ShareState → List Call → List Sighting
  | _, [] => []
  | s, call :: calls => (call.perform share h s).1 ++ sightings (call.perform share h s).2 calls

end Calls

section Coherence

variable [Crypto] {share : ActiveShare} {h : Host} {s s' s'' : ShareState} {m : Manifest}

/-- A cached snapshot is that of the file, and valid. -/
def ShareState.Coherent (share : ActiveShare) (s : ShareState) : Prop :=
  ∀ snapshot, s.manifestCache = some snapshot →
    snapshot = .fromValidated s.manifestFile ∧ s.manifestFile.Valid share.shareId

/-- The file has changed only if the generation has. -/
structure Advances (s s' : ShareState) : Prop where
  generation : s.manifestGeneration ≤ s'.manifestGeneration
  file : s'.manifestGeneration = s.manifestGeneration → s'.manifestFile = s.manifestFile

theorem Advances.trans (h₁ : Advances s s') (h₂ : Advances s' s'') : Advances s s'' := by
  refine ⟨h₁.generation.trans h₂.generation, fun heq => ?_⟩
  have hfirst := le_antisymm (h₂.generation.trans heq.le) h₁.generation
  rw [h₂.file (heq.trans hfirst.symm), h₁.file hfirst]

/-- What any call leaves. -/
structure Kept (share : ActiveShare) (s s' : ShareState) : Prop where
  coherent : s'.Coherent share
  advances : Advances s s'
  next : s'.manifestGeneration.val ≤ s.manifestGeneration.val + 1

theorem Kept.of_same (hc : s'.Coherent share) (hfile : s'.manifestFile = s.manifestFile)
    (hsame : s'.manifestGeneration = s.manifestGeneration) : Kept share s s' :=
  ⟨hc, ⟨hsame.ge, fun _ => hfile⟩, hsame ▸ Nat.le_succ _⟩

theorem manifestSnapshot_coherent (hc : s.Coherent share) :
    (manifestSnapshot share).wp h s
      (fun snapshot s' => Kept share s s' ∧ snapshot = .fromValidated s'.manifestFile
        ∧ s'.manifestFile.Valid share.shareId)
      fun _ s' => Kept share s s' := by
  unfold manifestSnapshot
  rw [wp_bind, wp_get]
  cases hm : s.manifestCache with
  | some snapshot => exact ⟨.of_same hc rfl rfl, hc snapshot hm⟩
  | none =>
      have hcalled : Kept share s s.called := .of_same hc rfl rfl
      dsimp only
      rw [wp_bind]
      unfold loadManifest
      rw [wp_bind]
      unfold Prog.wp readJson
      cases h.fault s.world.calls with
      | true => exact hcalled
      | false =>
          show (Prog.wp _ h s.called _ _)
          rw [wp_bind]
          cases hvalid : s.manifestFile.validate share.shareId with
          | error e => exact hcalled
          | ok u =>
              have hfile := Manifest.validate_eq_ok.mp hvalid
              refine ⟨.of_same ?_ rfl rfl, rfl, hfile⟩
              intro snapshot hsnapshot
              cases hsnapshot
              exact ⟨rfl, hfile⟩

/-- A save that reached the disk has moved the generation, whether it failed or not. -/
theorem saveManifest_coherent (hc : s.Coherent share) (hroom : s.manifestGeneration.val + 1 < 2 ^ 64) :
    (saveManifest share m).wp h s (fun _ s' => Kept share s s') fun _ s' => Kept share s s' := by
  unfold saveManifest
  refine wp_ite (fun _ => .of_same hc rfl rfl) fun hid => ?_
  have hid : m.shareId = share.shareId := by simpa using hid
  have hadvances : ∀ {s' : ShareState}, s'.Coherent share →
      s'.manifestGeneration = s.manifestGeneration + 1 → Kept share s s' := by
    intro s' hc' heq
    have hlt := lt_add_one hroom
    rw [← heq] at hlt
    exact ⟨hc', ⟨hlt.le, fun hsame => absurd hsame hlt.ne'⟩, by rw [heq, val_add_one hroom]⟩
  have hdropped : ∀ {s' : ShareState}, s'.manifestCache = none → s'.Coherent share := by
    intro s' hnone snapshot hsnapshot
    rw [hnone] at hsnapshot
    cases hsnapshot
  rw [wp_bind, wp_attempt]
  unfold storeManifest
  rw [wp_bind]
  cases hvalid : m.validate m.shareId with
  | error e => exact hadvances (hdropped rfl) rfl
  | ok u =>
      rw [wp_ofExcept_ok]
      unfold Prog.wp atomicWriteJson
      cases h.fault s.world.calls with
      | true =>
          refine hadvances (hdropped rfl) ?_
          split <;> rfl
      | false =>
          refine hadvances (fun snapshot hsnapshot => ?_) rfl
          cases hsnapshot
          exact ⟨rfl, hid ▸ Manifest.validate_eq_ok.mp hvalid⟩

/-- The snapshot is that of the file on disk, with its digest, and valid. -/
structure Sighting.Coherent (share : ActiveShare) (x : Sighting) : Prop where
  manifest : x.snapshot.manifest = x.state.manifestFile
  digest : x.state.manifestFile.syncDigest share.shareId = .ok x.snapshot.digest
  valid : x.snapshot.manifest.Valid share.shareId

theorem Call.perform_kept (hc : s.Coherent share) (hroom : s.manifestGeneration.val + 1 < 2 ^ 64)
    (call : Call) :
    Kept share s (call.perform share h s).2
      ∧ ∀ x ∈ (call.perform share h s).1, x.state = (call.perform share h s).2 ∧ x.Coherent share := by
  cases call with
  | snapshot =>
      cases hrun : manifestSnapshot share h s with
      | ok seen s' =>
          obtain ⟨hkept, rfl, hvalid⟩ := wp_ok (manifestSnapshot_coherent hc) hrun
          simp only [Call.perform, hrun, List.mem_singleton]
          refine ⟨hkept, ?_⟩
          rintro x rfl
          refine ⟨rfl, rfl, ?_, hvalid⟩
          unfold Manifest.syncDigest
          rw [Manifest.validate_eq_ok.mpr hvalid]
          rfl
      | error e s' =>
          have hkept := wp_error (manifestSnapshot_coherent hc) hrun
          simp only [Call.perform, hrun, List.not_mem_nil, false_imp_iff, implies_true, and_true]
          exact hkept
  | save m =>
      have hkept := saveManifest_coherent (h := h) (m := m) hc hroom
      unfold Prog.wp at hkept
      cases hrun : saveManifest share m h s <;> rw [hrun] at hkept
      all_goals
        simp only [Call.perform, hrun, List.not_mem_nil, false_imp_iff, implies_true, and_true]
        exact hkept
  | elsewhere world clockFile initialSyncComplete =>
      exact ⟨.of_same hc rfl rfl, by simp [Call.perform]⟩

theorem sightings_kept (hc : s.Coherent share) (calls : List Call)
    (hroom : s.manifestGeneration.val + calls.length < 2 ^ 64) :
    ∀ x ∈ sightings share h s calls, Advances s x.state ∧ x.Coherent share := by
  induction calls generalizing s with
  | nil => simp [sightings]
  | cons call calls ih =>
      rw [List.length_cons] at hroom
      obtain ⟨hkept, hseen⟩ := call.perform_kept (h := h) hc (by omega)
      have hnext := hkept.next
      intro x hx
      rcases List.mem_append.mp hx with hx | hx
      · obtain ⟨heq, hcoherent⟩ := hseen x hx
        exact ⟨heq ▸ hkept.advances, hcoherent⟩
      · obtain ⟨hlater, hcoherent⟩ := ih hkept.coherent (by omega) x hx
        exact ⟨hkept.advances.trans hlater, hcoherent⟩

theorem Sighting.Coherent.generation_lt {x y : Sighting} (hx : x.Coherent share)
    (hy : y.Coherent share) (ha : Advances x.state y.state)
    (hne : x.snapshot.manifest ≠ y.snapshot.manifest) :
    x.state.manifestGeneration < y.state.manifestGeneration := by
  refine lt_of_le_of_ne ha.generation fun heq => hne ?_
  rw [hx.manifest, hy.manifest, ha.file heq.symm]

/-- Whatever fails: a snapshot is that of the file as it is, and between two snapshots of
different manifests the generation has grown, as long as it does not come round. -/
theorem snapshots_coherent (hstart : s.manifestCache = none) (calls : List Call)
    (hroom : s.manifestGeneration.val + calls.length < 2 ^ 64) :
    (∀ x ∈ sightings share h s calls, x.Coherent share)
      ∧ (sightings share h s calls).Pairwise fun x y =>
        x.snapshot.manifest ≠ y.snapshot.manifest →
          x.state.manifestGeneration < y.state.manifestGeneration := by
  have hc : s.Coherent share := by
    intro snapshot hsnapshot
    rw [hstart] at hsnapshot
    cases hsnapshot
  refine ⟨fun x hx => (sightings_kept hc calls hroom x hx).2, ?_⟩
  clear hstart
  induction calls generalizing s with
  | nil => exact .nil
  | cons call calls ih =>
      rw [List.length_cons] at hroom
      obtain ⟨hkept, hseen⟩ := call.perform_kept (h := h) hc (by omega)
      have hnext := hkept.next
      refine List.pairwise_append.mpr ⟨?_, ih (by omega) hkept.coherent, ?_⟩
      · -- One call returns one snapshot at most.
        cases call with
        | snapshot => cases hrun : manifestSnapshot share h s <;> simp [Call.perform, hrun]
        | save m => cases hrun : saveManifest share m h s <;> simp [Call.perform, hrun]
        | elsewhere world clockFile initialSyncComplete => simp [Call.perform]
      · intro x hx y hy hne
        obtain ⟨heq, hx⟩ := hseen x hx
        obtain ⟨hadvances, hy⟩ := sightings_kept hkept.coherent calls (by omega) y hy
        exact hx.generation_lt hy (heq ▸ hadvances) hne

end Coherence

/-- A save that fails after its rename, between two snapshots. -/
theorem snapshots_coherent_failed_save :
    let _ := Crypto.plain
    let share : ActiveShare := ⟨⟨List.replicate 32 0, rfl⟩, [], [], ⟨List.replicate 32 0, rfl⟩⟩
    let h : Host := { Host.quiet with fault := (· = 1), written := fun _ => 1 }
    let s : ShareState := ⟨⟨Disk.bare, 0, []⟩, .empty share.shareId 0, none, 0, .new, true⟩
    let seen := sightings share h s [.snapshot, .save (.empty share.shareId 7), .snapshot]
    seen.map (fun x => (x.snapshot.manifest.scannedAtMs, x.state.manifestGeneration)) = [(0, 0), (7, 1)]
      ∧ (∀ x ∈ seen, x.Coherent share)
      ∧ seen.Pairwise fun x y => x.snapshot.manifest ≠ y.snapshot.manifest →
        x.state.manifestGeneration < y.state.manifestGeneration := by
  intro _ share h s seen
  exact ⟨by decide +kernel, snapshots_coherent rfl _ (by decide)⟩

end Syncbox

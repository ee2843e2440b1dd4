/-
# `Syncbox.Network.Joining` — an initial synchronization is one batch

A device that has joined a share offers an empty manifest until it has applied a remote
manifest completely, and its requests are planned against what it offers, not against what
it has.  So every session of an initial synchronization asks for the same files: the first
256 of the peer, in the order of their paths.  If the peer has no more, the first session
completes the synchronization.  If it has, no number of sessions that the device opens
does; what it has after the first is what it has after all of them.
-/
import Syncbox.Network.Converge

namespace Syncbox

open Rust Unix Prog

/-! ## The scan that ends an initial synchronization -/

section Scan

variable [Crypto] {share : ActiveShare} {h : Host} {s s' : ShareState}

theorem Settled.scan (hs : Settled share s)
    (hformat : s.manifestFile.formatVersion = MANIFEST_FORMAT_VERSION)
    (hrun : scanAndSave share h s = .ok () s') :
    Settled share s' ∧ s'.manifestFile.formatVersion = MANIFEST_FORMAT_VERSION
      ∧ s'.manifestFile.SyncEq s.manifestFile := by
  obtain ⟨hframe, n, ⟨m, c, hgives, hrecord, -⟩, hformat'⟩ :=
    (wp_ok (scanAndSave_spec hs.realizes.isDir hs.consistent) hrun :)
  have hlevel : ∀ q, Level (s'.manifestFile.record q) (s.manifestFile.record q) := fun q => by
    rw [hrecord]
    exact (hgives.rescans q).synced_of_not_changed hs.consistent.valid.separated
      (hs.realizes.sight_unchanged hs.consistent hformat hs.canonical q)
  refine ⟨⟨hframe.consistent, ?_, ?_, ?_⟩, hformat', hlevel⟩
  · intro q r hr
    obtain ⟨r', hr', -⟩ := (hr ▸ (hlevel q).symm :).some_right
    exact hs.canonical hr'
  · rw [hframe.disk]
    exact hs.staging
  · rw [hframe.disk]
    exact ⟨hs.realizes.isDir, fun hq => (hs.realizes.each hq).level (hlevel _)⟩

end Scan

/-! ## One batch -/

section Batch

variable {o c s c' s' : Manifest} {q : Str} {outcome : PeerSyncOutcome}

/-- The path of a file that is not among the first 256. -/
def Later (m : Manifest) (q : Str) : Prop :=
  q ∈ (m.entries.toList.drop MAX_TRANSFER_FILES).map Prod.fst

theorem candidates_of_empty (ho : ∀ q, o.record q = none) (m : Manifest) :
    candidates o m = m.entries.toList := by
  refine List.filter_eq_self.mpr fun x _ => ?_
  rw [ho]
  simp [remoteSelected, selectRecord, contentMatches]

theorem candidates_to_empty (ho : ∀ q, o.record q = none) (m : Manifest) : candidates m o = [] := by
  refine List.eq_nil_iff_forall_not_mem.mpr fun x hx => ?_
  obtain ⟨hrecord, -⟩ := mem_candidates.mp hx
  rw [ho] at hrecord
  cases hrecord

theorem later_iff (ho : ∀ q, o.record q = none) : Later s q
    ↔ q ∉ (planned o s).map Prod.fst ∧ ∃ e, s.record q = some (.file e) := by
  have hcompatible : o.Compatible s := fun p a _ ha => by
    rw [ho] at ha
    cases ha
  have hunlisted := unlisted_iff (q := q) hcompatible
  rw [Unlisted, candidates_of_empty ho] at hunlisted
  rw [Later, hunlisted]
  refine and_congr_right fun _ => exists_congr fun e => ?_
  rw [Wins, ho]
  exact ⟨fun hw => hw.1.1, fun hr => ⟨⟨hr, rfl⟩, rfl⟩⟩

/-- What a session does when the client offers nothing, and has nothing but records of the peer
other than the later files. -/
theorem Exchanged.batch (hx : Exchanged o c s c' s' outcome) (ho : ∀ q, o.record q = none)
    (hb : ∀ q, c.record q = none ∨ c.record q = s.record q ∧ ¬ Later s q) :
    (∀ q, s'.record q = s.record q)
      ∧ (∀ q, (Later s q → c'.record q = none) ∧ (¬ Later s q → c'.record q = s.record q))
      ∧ outcome = ⟨s.entries.toList.length - MAX_TRANSFER_FILES, 0⟩ := by
  obtain ⟨⟨_, hserver⟩, ⟨pending, hlength, hclient⟩, hupdates, -⟩ := hx
  have hs : ∀ q, s'.record q = s.record q := fun q => by
    rcases hserver.at q with ⟨-, heq⟩ | ⟨-, heq⟩
    · exact heq
    · rw [heq, ho]
      cases s.record q <;> rfl
  have hpending : ∀ q, q ∈ pending ↔ Later s q := by
    intro q
    rw [hclient.mem_iff, later_iff ho]
    constructor
    · rintro ⟨hn, e, hwins, -⟩
      exact ⟨fun hq => hn ⟨hq, e, hwins.1⟩, e, (hs q) ▸ hwins.1⟩
    · rintro ⟨hn, e, hrecord⟩
      have hnone : c.record q = none :=
        (hb q).resolve_right fun hold => hold.2 ((later_iff ho).mpr ⟨hn, e, hrecord⟩)
      refine ⟨fun hq => hn hq.1, e, ⟨(hs q).trans hrecord, ?_⟩, ?_⟩ <;> rw [hnone] <;> rfl
  refine ⟨hs, fun q => ⟨fun hlater => ?_, fun hlater => ?_⟩, ?_⟩
  · have hnone : c.record q = none := (hb q).resolve_right fun hold => hold.2 hlater
    rw [hclient.record, if_pos ((hpending q).mpr hlater), hnone]
  · rw [hclient.record, if_neg (mt (hpending q).mp hlater), hs]
    rcases hb q with hnone | ⟨hold, -⟩
    · rw [hnone]
      rfl
    · rw [hold, selectRecord_behind (Level.not_wins rfl)]
  · have hnodup : ((s.entries.toList.drop MAX_TRANSFER_FILES).map Prod.fst).Nodup := by
      rw [← candidates_of_empty ho]
      exact (candidates_nodup o s).sublist ((List.drop_sublist _ _).map _)
    have hperm := (List.perm_ext_iff_of_nodup hclient.nodup hnodup).mpr hpending
    rw [candidates_to_empty ho, List.length_nil, Nat.zero_sub] at hupdates
    rw [hperm.length_eq, List.length_map, List.length_drop] at hlength
    rw [← hlength, ← hupdates]

end Batch

/-! ## A session of a client that has not completed its initial synchronization -/

section Session

variable [Crypto] {client server : ActiveShare} {h : Host × Host} {p : Pair}

/-- The initial synchronization was completed with the manifest `m`. -/
structure Completed (client : ActiveShare) (m : Manifest) (c : RunningShare) : Prop where
  settled : Settled client c.state
  flag : c.initialSyncComplete = true
  same : c.state.manifestFile.SyncEq m

theorem completed_of_scan {m : Manifest} {s s₁ : ShareState} {c : RunningShare} {h : Host}
    (hformat : s.manifestFile.formatVersion = MANIFEST_FORMAT_VERSION) (hm : s.manifestFile = m)
    (hstill : Still client s s₁) (hflag : c.initialSyncComplete = true)
    (hscan : scanAndSave client h s₁ = .ok () c.state) : Completed client m c := by
  obtain ⟨hsettled, -, heq⟩ := hstill.settled.scan (hstill.manifest ▸ hformat) hscan
  rw [hstill.manifest, hm] at heq
  exact ⟨hsettled, hflag, heq⟩

/-- The account of a session in which the client offers nothing. -/
inductive Joins (client : ActiveShare) (p p' : Pair) (outcome : PeerSyncOutcome) : Prop
  | unchanged
      (hdigest : p.theirs.syncDigestAfterValidation
        = (Manifest.empty client.shareId 0).syncDigestAfterValidation)
      (hserver : p'.theirs = p.theirs) (houtcome : outcome = ⟨0, 0⟩)
      (hclient : Completed client p.ours p'.client)
  | pending {nowMs : U64}
      (hx : Exchanged (.empty client.shareId nowMs) p.ours p.theirs p'.ours p'.theirs outcome)
      (hpending : outcome.pendingDownloads ≠ 0) (hflag : p'.client.initialSyncComplete = false)
      (hclient : Settled client p'.client.state)
  | completed {nowMs : U64} {m : Manifest}
      (hx : Exchanged (.empty client.shareId nowMs) p.ours p.theirs m p'.theirs outcome)
      (hpending : outcome.pendingDownloads = 0) (hclient : Completed client m p'.client)

theorem exchange_joins (hc : Settled client p.client.state) (hs : Settled server p.server.state)
    (hformat : p.ours.formatVersion = MANIFEST_FORMAT_VERSION)
    (hkeys : Set.InjOn Crypto.sha256 (fileKeys p.ours ∪ fileKeys p.theirs))
    (hincomplete : p.client.initialSyncComplete = false) :
    (exchange client server).wp h p (fun outcome p' => Settled server p'.server.state
      ∧ Joins client p p' outcome) fun _ _ => True := by
  unfold exchange
  rw [wp_bind, wp_atClient]
  refine wp_conseq (makeOffer_spec hc) ?_
  rintro offer c₁ ⟨hc₁, hflag, ho⟩
  rw [hincomplete] at hflag ho
  rw [wp_bind, wp_atServer]
  refine wp_conseq (manifestSnapshot_still hs) ?_
  rintro answer s₁ ⟨rfl, hs₁⟩
  have hformat₁ : c₁.state.manifestFile.formatVersion = MANIFEST_FORMAT_VERSION :=
    hc₁.manifest ▸ hformat
  refine wp_ite (fun hsame => ?_) fun _ => ?_
  · rw [wp_bind, wp_atServer]
    refine wp_conseq (updateRuntime_still hs₁.settled) fun _ s₂ hs₂ => ?_
    rw [wp_atClient]
    unfold finishUnchanged
    rw [wp_bind, wp_getRunning, if_pos ⟨ho.flag, hflag⟩, wp_bind]
    refine wp_conseq (completeInitialSync_spec hc₁.settled) ?_
    rintro _ c₂ ⟨htrue, s₃, h₃, hscan⟩
    refine ⟨hs₂.settled, .unchanged ?_ ?_ rfl ?_⟩
    · rw [ho.digest 0] at hsame
      exact hsame
    · exact hs₂.manifest.trans hs₁.manifest
    · exact completed_of_scan hformat₁ hc₁.manifest h₃ htrue hscan
  · rw [← hflag, ← hc₁.manifest] at ho
    have hkeys₁ : Set.InjOn Crypto.sha256
        (fileKeys c₁.state.manifestFile ∪ fileKeys s₁.manifestFile) := by
      rw [hc₁.manifest, hs₁.manifest]
      exact hkeys
    refine wp_conseq (exchangeManifests_spec (p := ⟨c₁, { p.server with state := s₁ }⟩) hc₁.settled
      hs₁.settled hkeys₁ ho (by rw [hs₁.manifest])) ?_
    rintro outcome p' ⟨nowMs, applied, c₂, hs', hc₂, -, hx, hpending, hconcludes⟩
    rw [hflag, hc₁.manifest, hs₁.manifest] at hx
    refine ⟨hs', ?_⟩
    by_cases hnone : applied.pendingDownloads = 0
    · obtain ⟨htrue, s₃, h₃, hscan⟩ := hconcludes.first hflag hnone
      have hformat₂ : c₂.manifestFile.formatVersion = MANIFEST_FORMAT_VERSION :=
        hx.clientFormat.trans hformat
      exact .completed hx (hpending.trans hnone) (completed_of_scan hformat₂ rfl h₃ htrue hscan)
    · obtain ⟨hstill, hfalse⟩ := hconcludes.otherwise (.inr hnone)
      rw [← hstill.manifest] at hx
      exact .pending hx (hpending ▸ hnone) (hfalse.trans hflag) hstill.settled

end Session

/-! ## Session after session -/

section Outgoing

variable [Crypto] {client server : ActiveShare} {p q : Pair} {reports : List PeerSyncOutcome}

/-- Sessions that the client opened and that succeeded, one after another, with their outcomes. -/
inductive Outgoing (client server : ActiveShare) (p : Pair) : List PeerSyncOutcome → Pair → Prop
  | none : Outgoing client server p [] p
  | opens {reports : List PeerSyncOutcome} {q r : Pair} {host : Host × Host} {outcome : PeerSyncOutcome}
      (before : Outgoing client server p reports q)
      (ok : exchange client server host q = .ok outcome r) : Outgoing client server p (outcome :: reports) r

/-- A device that has just joined, and its peer. -/
structure Newcomer (client server : ActiveShare) (p : Pair) : Prop where
  left : Settled client p.client.state
  right : Settled server p.server.state
  incomplete : p.client.initialSyncComplete = false
  format : p.ours.formatVersion = MANIFEST_FORMAT_VERSION
  apart : Unclashing p.theirs
  /-- The digest of the empty manifest does not collide with the peer's. -/
  told : p.theirs.syncDigestAfterValidation
    = (Manifest.empty client.shareId 0).syncDigestAfterValidation → ∀ q, p.theirs.record q = none
  /-- What the device has, it has from the peer. -/
  behind : ∀ q, p.ours.record q = none ∨ p.ours.record q = p.theirs.record q ∧ ¬ Later p.theirs q

omit [Crypto] in
theorem entries_of_record {m m' : Manifest} (h : ∀ q, m.record q = m'.record q) :
    m.entries = m'.entries := by
  refine Std.ExtTreeMap.ext_getElem? fun q => Option.ext fun e => ?_
  rw [← Manifest.record_file_iff, ← Manifest.record_file_iff, h]

omit [Crypto] in
theorem fileKeys_of_level {m m' : Manifest}
    (h : ∀ q e, m.record q = some (.file e) → Level (m'.record q) (m.record q)) :
    fileKeys m ⊆ fileKeys m' := by
  rintro _ ⟨q, e, hrecord, rfl⟩
  obtain ⟨r, hr, hsynced⟩ := (hrecord ▸ h q e hrecord :).some_right
  rcases eq_of_synced hsynced with rfl | ⟨_, e', hfile, rfl, -, hsha, -⟩
  · exact ⟨q, e, hr, rfl⟩
  · cases hfile
    exact ⟨q, e', hr, by rw [hsha]⟩

/-- The device has what the peer has. -/
structure CaughtUp (client server : ActiveShare) (p : Pair) : Prop where
  left : Settled client p.client.state
  right : Settled server p.server.state
  complete : p.client.initialSyncComplete = true
  apart : Unclashing p.theirs
  same : p.ours.SyncEq p.theirs

theorem CaughtUp.exchange {host : Host × Host} {outcome : PeerSyncOutcome} (h : CaughtUp client server p)
    (hok : Syncbox.exchange client server host p = .ok outcome q) :
    CaughtUp client server q ∧ (∀ r, q.theirs.record r = p.theirs.record r) ∧ outcome = ⟨0, 0⟩ := by
  have hapart : Set.InjOn Crypto.sha256 (fileKeys p.ours ∪ fileKeys p.theirs) :=
    h.apart.mono (Set.union_subset (fileKeys_of_level fun r _ _ => (h.same r).symm) subset_rfl)
  obtain ⟨hleft, hright, hcomplete, -, hmanifests⟩ :=
    (wp_ok (exchange_spec h.left h.right hapart h.complete) hok :)
  suffices hkept : (∀ r, q.ours.record r = p.ours.record r ∧ q.theirs.record r = p.theirs.record r)
      ∧ outcome = ⟨0, 0⟩ by
    refine ⟨⟨hleft, hright, hcomplete, ?_, fun r => ?_⟩, fun r => (hkept.1 r).2, hkept.2⟩
    · exact h.apart.mono (fileKeys_of_level fun r _ _ => by rw [(hkept.1 r).2]; rfl)
    · rw [(hkept.1 r).1, (hkept.1 r).2]
      exact h.same r
  rcases hmanifests with ⟨-, hc, hs, rfl⟩ | hx
  · exact ⟨fun r => ⟨congrArg (Manifest.record · r) hc, congrArg (Manifest.record · r) hs⟩, rfl⟩
  · have hf := hx.forwards h.same.compatible
    have hmoved : ∀ r, q.ours.record r = p.ours.record r ∧ q.theirs.record r = p.theirs.record r := by
      intro r
      cases hf.moved r with
      | stayed hc hs _ => exact ⟨hc, hs⟩
      | merged same select select' _ =>
          rw [selectRecord_behind (Level.not_wins (h.same r))] at select
          rw [selectRecord_behind (Level.not_wins (h.same r).symm)] at select'
          exact ⟨select, same.symm.trans select'⟩
    refine ⟨hmoved, ?_⟩
    rw [hf.outcome, (forwards_of_syncEq fun r => ?_).outcome]
    · show Level (q.ours.record r) (q.theirs.record r)
      rw [(hmoved r).1, (hmoved r).2]
      exact h.same r

theorem Newcomer.exchange {host : Host × Host} {outcome : PeerSyncOutcome} (h : Newcomer client server p)
    (hok : Syncbox.exchange client server host p = .ok outcome q) :
    (∀ r, q.theirs.record r = p.theirs.record r)
      ∧ outcome = ⟨p.theirs.entries.toList.length - MAX_TRANSFER_FILES, 0⟩
      ∧ (p.theirs.entries.toList.length ≤ MAX_TRANSFER_FILES ∧ CaughtUp client server q
        ∨ MAX_TRANSFER_FILES < p.theirs.entries.toList.length ∧ Newcomer client server q
          ∧ ∀ r, ¬ Later p.theirs r → q.ours.record r = p.theirs.record r) := by
  have hkeys : fileKeys p.ours ⊆ fileKeys p.theirs := fileKeys_of_level fun r e hrecord => by
    rcases h.behind r with hnone | ⟨hold, -⟩
    · rw [hnone] at hrecord
      cases hrecord
    · exact congrArg _ hold.symm
  have hapart : Set.InjOn Crypto.sha256 (fileKeys p.ours ∪ fileKeys p.theirs) :=
    h.apart.mono (Set.union_subset hkeys subset_rfl)
  obtain ⟨hright, hjoins⟩ :=
    (wp_ok (exchange_joins h.left h.right h.format hapart h.incomplete) hok :)
  cases hjoins with
  | unchanged hdigest hserver houtcome hclient =>
      have hnone := h.told hdigest
      have hnil : p.theirs.entries.toList = [] :=
        (candidates_of_empty hnone _).symm.trans (candidates_to_empty hnone _)
      rw [hnil, hserver]
      refine ⟨fun _ => rfl, houtcome, .inl ⟨Nat.zero_le _, ?_⟩⟩
      refine ⟨hclient.settled, hright, hclient.flag, hserver ▸ h.apart, fun r => ?_⟩
      rw [hserver, hnone, hclient.same]
      rcases h.behind r with hold | ⟨hold, -⟩
      · rw [hold]
      · rw [hold, hnone]
  | pending hx hpending hflag hclient =>
      obtain ⟨hserver, hours, rfl⟩ := hx.batch (record_empty _ _) h.behind
      have hmore : MAX_TRANSFER_FILES < p.theirs.entries.toList.length :=
        Nat.lt_of_sub_ne_zero hpending
      refine ⟨hserver, rfl, .inr ⟨hmore, ?_, fun r => (hours r).2⟩⟩
      refine ⟨hclient, hright, hflag, hx.clientFormat.trans h.format, ?_, ?_, fun r => ?_⟩
      · exact h.apart.mono (fileKeys_of_level fun r _ _ => by rw [hserver]; rfl)
      · have hsame : q.theirs.syncDigestAfterValidation = p.theirs.syncDigestAfterValidation :=
          Manifest.SyncEq.digest (fun r => by rw [hserver]) hright.consistent.valid
            h.right.consistent.valid hx.serverFormat
        rw [hsame]
        exact fun hdigest r => (hserver r).trans (h.told hdigest r)
      · rw [Later, entries_of_record hserver]
        by_cases hlater : Later p.theirs r
        · exact .inl ((hours r).1 hlater)
        · exact .inr ⟨((hours r).2 hlater).trans (hserver r).symm, hlater⟩
  | completed hx hpending hclient =>
      obtain ⟨hserver, hours, rfl⟩ := hx.batch (record_empty _ _) h.behind
      have hfew : p.theirs.entries.toList.length ≤ MAX_TRANSFER_FILES := Nat.le_of_sub_eq_zero hpending
      refine ⟨hserver, rfl, .inl ⟨hfew, ⟨hclient.settled, hright, hclient.flag, ?_, fun r => ?_⟩⟩⟩
      · exact h.apart.mono (fileKeys_of_level fun r _ _ => by rw [hserver]; rfl)
      · have hnone : ¬ Later p.theirs r := by
          rw [Later, List.drop_eq_nil_of_le hfew]
          exact List.not_mem_nil
        rw [hclient.same, hserver, (hours r).2 hnone]

/-- The account of the sessions so far. -/
structure Joined (client server : ActiveShare) (p : Pair) (reports : List PeerSyncOutcome) (q : Pair) :
    Prop where
  theirs : ∀ r, q.theirs.record r = p.theirs.record r
  reported : ∀ outcome ∈ reports,
    outcome = ⟨p.theirs.entries.toList.length - MAX_TRANSFER_FILES, 0⟩
  stage : p.theirs.entries.toList.length ≤ MAX_TRANSFER_FILES ∧ CaughtUp client server q
    ∨ Newcomer client server q ∧ (reports ≠ [] → MAX_TRANSFER_FILES < p.theirs.entries.toList.length
      ∧ ∀ r, ¬ Later p.theirs r → q.ours.record r = p.theirs.record r)

theorem Joined.step {host : Host × Host} {outcome : PeerSyncOutcome} {r : Pair}
    (h : Joined client server p reports q) (hok : exchange client server host q = .ok outcome r) :
    Joined client server p (outcome :: reports) r := by
  obtain ⟨htheirs, hreported, ⟨hfew, hup⟩ | ⟨hnew, -⟩⟩ := h
  · obtain ⟨hup', hsame, rfl⟩ := hup.exchange hok
    refine ⟨fun path => (hsame path).trans (htheirs path), ?_, .inl ⟨hfew, hup'⟩⟩
    refine List.forall_mem_cons.mpr ⟨?_, hreported⟩
    rw [Nat.sub_eq_zero_of_le hfew]
  · obtain ⟨hsame, rfl, hstage⟩ := hnew.exchange hok
    have hentries := entries_of_record htheirs
    have hlater : ∀ path, Later q.theirs path ↔ Later p.theirs path := fun _ => by
      rw [Later, Later, hentries]
    simp only [hlater, hentries] at hstage
    rw [hentries]
    refine ⟨fun path => (hsame path).trans (htheirs path), List.forall_mem_cons.mpr ⟨rfl, hreported⟩, ?_⟩
    refine hstage.imp id ?_
    rintro ⟨hmore, hnew', hours⟩
    exact ⟨hnew', fun _ => ⟨hmore, fun path hpath => (hours path hpath).trans (htheirs path)⟩⟩

theorem Outgoing.joined (h : Newcomer client server p) (hrun : Outgoing client server p reports q) :
    Joined client server p reports q := by
  induction hrun with
  | none => exact ⟨fun _ => rfl, by simp, .inr ⟨h, fun hne => absurd rfl hne⟩⟩
  | opens _ ok ih => exact ih.step ok

/-- An initial synchronization takes one session, or does not end.  A peer with at most 256 files is
caught up with in the first session.  From a peer with more the first 256 files and everything
that is not a file are taken in the first session, and nothing in any later one: each reports the
same number of files pending, and the initial synchronization is never completed. -/
theorem initial_sync_one_batch (h : Newcomer client server p) (hrun : Outgoing client server p reports q)
    (hsome : reports ≠ []) :
    (∀ r, q.theirs.record r = p.theirs.record r)
      ∧ (∀ outcome ∈ reports, outcome = ⟨p.theirs.entries.toList.length - MAX_TRANSFER_FILES, 0⟩)
      ∧ (p.theirs.entries.toList.length ≤ MAX_TRANSFER_FILES →
        q.client.initialSyncComplete = true ∧ q.ours.SyncEq p.theirs)
      ∧ (MAX_TRANSFER_FILES < p.theirs.entries.toList.length →
        q.client.initialSyncComplete = false
          ∧ ∀ r, (Later p.theirs r → q.ours.record r = none)
            ∧ (¬ Later p.theirs r → q.ours.record r = p.theirs.record r)) := by
  obtain ⟨htheirs, hreported, hstage⟩ := hrun.joined h
  refine ⟨htheirs, hreported, fun hfew => ?_, fun hmore => ?_⟩
  · rcases hstage with ⟨-, hup⟩ | ⟨-, hmore⟩
    · exact ⟨hup.complete, fun r => (hup.same r).trans (by rw [htheirs])⟩
    · exact absurd hfew (hmore hsome).1.not_ge
  · rcases hstage with ⟨hfew, -⟩ | ⟨hnew, hours⟩
    · exact absurd hfew hmore.not_ge
    · refine ⟨hnew.incomplete, fun r => ⟨fun hlater => ?_, (hours hsome).2 r⟩⟩
      have hlater' : Later q.theirs r := by rwa [Later, entries_of_record htheirs]
      exact (hnew.behind r).resolve_right fun hold => hold.2 hlater'

end Outgoing

/-! ## A guest that has just joined -/

def newcomerAndOwner [Crypto] : Pair := ⟨⟨joined, false⟩, ⟨owner, true⟩⟩

theorem newcomerAndOwner_exchanged :
    let _ := Crypto.plain
    ∃ outcome q, exchange plainShare plainShare (.quiet, .quiet) newcomerAndOwner = .ok outcome q
      ∧ q.ours.entries[['a']]?.isSome = true := by
  intro _
  apply exists_ok_of_wp
  decide +kernel

/-- The guest opens a session with the owner of one file. -/
theorem initial_sync_one_batch_owner :
    let _ := Crypto.plain
    Newcomer plainShare plainShare newcomerAndOwner
      ∧ ∃ q, Outgoing plainShare plainShare newcomerAndOwner [⟨0, 0⟩] q
        ∧ q.client.initialSyncComplete = true ∧ q.ours.SyncEq (.oneFile 1 2) := by
  intro _
  have hreplicas : Replicas plainShare plainShare ownerAndGuest := replicas_ownerAndGuest
  have hnew : Newcomer plainShare plainShare newcomerAndOwner :=
    ⟨hreplicas.right, hreplicas.left, rfl, rfl,
      hreplicas.apart.mono Set.subset_union_left, fun hdigest => absurd hdigest (by decide +kernel),
      fun q => .inl (record_empty _ _ q)⟩
  have hlength : newcomerAndOwner.theirs.entries.toList.length = 1 := by decide +kernel
  have htheirs : newcomerAndOwner.theirs = .oneFile 1 2 := rfl
  obtain ⟨outcome, q, hok, -⟩ := newcomerAndOwner_exchanged
  -- nothing else is used of the two replicas
  generalize newcomerAndOwner = start at hnew hlength htheirs hok ⊢
  have hrun : Outgoing plainShare plainShare start [outcome] q := .opens .none hok
  obtain ⟨-, hreported, hfew, -⟩ := initial_sync_one_batch hnew hrun (List.cons_ne_nil _ _)
  rw [hlength] at hreported hfew
  have hnone : outcome = ⟨0, 0⟩ := hreported outcome (List.mem_singleton_self _)
  obtain ⟨hcomplete, hsame⟩ := hfew (by decide)
  exact ⟨hnew, q, hnone ▸ hrun, hcomplete, htheirs ▸ hsame⟩

end Syncbox

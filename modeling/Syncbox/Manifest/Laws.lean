/-
# `Syncbox.Manifest.Laws` — merging in any order

What `merge_manifests` keeps at a path is a record of highest rank: highest version, and
among equal versions a tombstone before anything else.  A manifest that was merged out of
others, in whatever order and however often each was used, is a `Top` of them — and two
tops of the same manifests agree, if records of equal version do.

The one thing that is not a maximum is the header.  A merge is always written in the
current format, so merging a manifest of an older format with itself gives it a new
format version, and with that a new digest.
-/
import Syncbox.Manifest.Merge
import Syncbox.Manifest.Digest

namespace Syncbox

open Rust

/-! ## Rank -/

/-- The order by which `select_record` chooses. -/
def ManifestRecord.rank (r : ManifestRecord) : HlcTimestamp ×ₗ Bool := toLex (r.version, r.isTombstone)

/-- The rank of what is recorded at a path; no record is below all others. -/
def rankAt : Option ManifestRecord → WithBot (HlcTimestamp ×ₗ Bool)
  | none => ⊥
  | some r => r.rank

theorem rank_le_iff {x y : ManifestRecord} : x.rank ≤ y.rank ↔ x.version < y.version
    ∨ (x.version = y.version ∧ (x.isTombstone = true → y.isTombstone = true)) := by
  refine Prod.Lex.toLex_le_toLex.trans (or_congr Iff.rfl (and_congr Iff.rfl ?_))
  show x.isTombstone ≤ y.isTombstone ↔ _
  cases x.isTombstone <;> cases y.isTombstone <;> decide

theorem rank_selectRecord (l r : Option ManifestRecord) :
    rankAt l ≤ rankAt (selectRecord l r) ∧ rankAt r ≤ rankAt (selectRecord l r) := by
  cases l with
  | none => exact ⟨bot_le, le_rfl⟩
  | some x =>
      cases r with
      | none => exact ⟨le_rfl, bot_le⟩
      | some y =>
          rcases lt_trichotomy x.version y.version with hlt | heq | hgt
          · have : selectRecord (some x) (some y) = some y := by
              simp only [selectRecord, compare_lt_iff_lt.mpr hlt]
            rw [this]
            exact ⟨WithBot.coe_le_coe.mpr (rank_le_iff.mpr (.inl hlt)), le_rfl⟩
          · by_cases ht : y.isTombstone = true
            · have : selectRecord (some x) (some y) = some y := by
                simp only [selectRecord, compare_eq_iff_eq.mpr heq, if_pos ht]
              rw [this]
              exact ⟨WithBot.coe_le_coe.mpr (rank_le_iff.mpr (.inr ⟨heq, fun _ => ht⟩)), le_rfl⟩
            · have : selectRecord (some x) (some y) = some x := by
                simp only [selectRecord, compare_eq_iff_eq.mpr heq, if_neg ht]
              rw [this]
              exact ⟨le_rfl, WithBot.coe_le_coe.mpr
                (rank_le_iff.mpr (.inr ⟨heq.symm, fun h => absurd h ht⟩))⟩
          · have : selectRecord (some x) (some y) = some x := by
              simp only [selectRecord, compare_gt_iff_gt.mpr hgt]
            rw [this]
            exact ⟨le_rfl, WithBot.coe_le_coe.mpr (rank_le_iff.mpr (.inl hgt))⟩

namespace Manifest

/-! ## Tops -/

/-- `m` holds at every path a record of highest rank among those of `ms`. -/
def Top (ms : List Manifest) (m : Manifest) : Prop :=
  ∀ p, (∃ m' ∈ ms, m.record p = m'.record p) ∧ ∀ m' ∈ ms, rankAt (m'.record p) ≤ rankAt (m.record p)

theorem top_self (m : Manifest) : Top [m] m := by
  intro p
  refine ⟨⟨m, List.mem_singleton_self m, rfl⟩, fun m' hm' => ?_⟩
  rw [List.mem_singleton.mp hm']

/-- Records of equal version at one path are the same, local times apart, unless one of
them is a tombstone. -/
def Compatible (l r : Manifest) : Prop :=
  ∀ p x y, l.record p = some x → r.record p = some y → x.version = y.version →
    x.synced = y.synced ∨ x.isTombstone = true ∨ y.isTombstone = true

/-- Equal in everything but the time of the scan and the local times of files. -/
def SyncEqual (m m' : Manifest) : Prop :=
  m.formatVersion = m'.formatVersion ∧ m.shareId = m'.shareId ∧ m.SyncEq m'

theorem synced_of_tombstones {x y : ManifestRecord} (hx : x.isTombstone = true)
    (hy : y.isTombstone = true) (hv : x.version = y.version) : x.synced = y.synced := by
  cases x with
  | tombstone e =>
      cases y with
      | tombstone e' =>
          cases e
          cases e'
          exact congrArg (fun v => ManifestRecord.synced (.tombstone ⟨v⟩)) hv
      | _ => cases hy
  | _ => cases hx

theorem Compatible.synced {l r : Manifest} (h : Compatible l r) {p : Str}
    (hrank : rankAt (l.record p) = rankAt (r.record p)) :
    (l.record p).map ManifestRecord.synced = (r.record p).map ManifestRecord.synced := by
  cases hx : l.record p with
  | none =>
      rw [hx] at hrank
      cases hy : r.record p with
      | none => rfl
      | some y => rw [hy] at hrank; cases hrank
  | some x =>
      rw [hx] at hrank
      cases hy : r.record p with
      | none => rw [hy] at hrank; cases hrank
      | some y =>
          rw [hy] at hrank
          have hkey := toLex.injective (WithBot.coe_injective hrank)
          obtain ⟨hv, ht⟩ := Prod.mk.inj hkey
          have hsynced : x.synced = y.synced := by
            rcases h p x y hx hy hv with h | h | h
            · exact h
            · exact synced_of_tombstones h (ht ▸ h) hv
            · exact synced_of_tombstones (ht ▸ h) h hv
          exact congrArg some hsynced

theorem Top.syncEq {ms ns : List Manifest} {m n : Manifest} (hm : Top ms m) (hn : Top ns n)
    (hsame : ∀ x, x ∈ ms ↔ x ∈ ns) (hcompat : ∀ x ∈ ms, ∀ y ∈ ms, Compatible x y) : m.SyncEq n := by
  intro p
  obtain ⟨⟨x, hx, hmx⟩, hmax⟩ := hm p
  obtain ⟨⟨y, hy, hny⟩, hmax'⟩ := hn p
  rw [hmx] at hmax ⊢
  rw [hny] at hmax' ⊢
  exact (hcompat x hx y ((hsame y).mpr hy)).synced
    (le_antisymm (hmax' x ((hsame x).mp hx)) (hmax y ((hsame y).mpr hy)))

theorem SyncEq.compatible {m m' : Manifest} (h : m.SyncEq m') : Compatible m m' := by
  intro p x y hx hy _
  have := h p
  rw [hx, hy] at this
  exact .inl (Option.some.inj this)

theorem Top.syncEqual {ms ns : List Manifest} {m n : Manifest} (hm : Top ms m) (hn : Top ns n)
    (hsame : ∀ x, x ∈ ms ↔ x ∈ ns) (hcompat : ∀ x ∈ ms, ∀ y ∈ ms, Compatible x y)
    (hformat : m.formatVersion = MANIFEST_FORMAT_VERSION)
    (hformat' : n.formatVersion = MANIFEST_FORMAT_VERSION) (hshare : m.shareId = n.shareId) :
    m.SyncEqual n :=
  ⟨hformat.trans hformat'.symm, hshare, hm.syncEq hn hsame hcompat⟩

section Merge

variable [Crypto] {l r m : Manifest} {nowMs : U64}

theorem mergeManifests_record (h : mergeManifests l r nowMs = .ok m) (p : Str) :
    m.record p = selectRecord (l.record p) (r.record p) := by
  obtain ⟨-, -, -, rfl⟩ := mergeManifests_eq_ok.mp h
  exact (mergeRecords_holds l r nowMs).record_eq p

theorem mergeManifests_header (h : mergeManifests l r nowMs = .ok m) :
    m.formatVersion = MANIFEST_FORMAT_VERSION ∧ m.shareId = l.shareId := by
  obtain ⟨-, -, -, rfl⟩ := mergeManifests_eq_ok.mp h
  exact mergeRecords_header l r nowMs

theorem Top.merge {ms ns : List Manifest} (hl : Top ms l) (hr : Top ns r)
    (h : mergeManifests l r nowMs = .ok m) : Top (ms ++ ns) m := by
  intro p
  rw [mergeManifests_record h p]
  constructor
  · rcases selectRecord_or (l.record p) (r.record p) with he | he
    · obtain ⟨x, hx, hlx⟩ := (hl p).1
      exact ⟨x, List.mem_append_left _ hx, he.trans hlx⟩
    · obtain ⟨x, hx, hrx⟩ := (hr p).1
      exact ⟨x, List.mem_append_right _ hx, he.trans hrx⟩
  · intro x hx
    have hrank := rank_selectRecord (l.record p) (r.record p)
    rcases List.mem_append.mp hx with hx | hx
    · exact ((hl p).2 x hx).trans hrank.1
    · exact ((hr p).2 x hx).trans hrank.2

/-- Fold manifests into one, each merge at its own time. -/
def mergeAll (start : Manifest) (rest : List (Manifest × U64)) : Except Error Manifest :=
  rest.foldlM (fun merged x => mergeManifests merged x.1 x.2) start

theorem top_of_mergeAll : ∀ {rest : List (Manifest × U64)} {start m : Manifest} {ms : List Manifest},
    Top ms start → mergeAll start rest = .ok m → Top (ms ++ rest.map Prod.fst) m := by
  intro rest
  induction rest with
  | nil =>
      intro start m ms hs h
      cases h
      simpa using hs
  | cons x rest ih =>
      intro start m ms hs h
      rw [mergeAll, List.foldlM_cons, Check.bind_eq_ok] at h
      obtain ⟨m₁, h₁, h₂⟩ := h
      have := ih (hs.merge (top_self x.1) h₁) h₂
      simpa using this

theorem mergeAll_header : ∀ {rest : List (Manifest × U64)} {start m : Manifest},
    mergeAll start rest = .ok m → m.shareId = start.shareId
      ∧ (rest ≠ [] ∨ start.formatVersion = MANIFEST_FORMAT_VERSION →
        m.formatVersion = MANIFEST_FORMAT_VERSION) := by
  intro rest
  induction rest with
  | nil =>
      intro start m h
      cases h
      exact ⟨rfl, fun h => h.resolve_left (by simp)⟩
  | cons x rest ih =>
      intro start m h
      rw [mergeAll, List.foldlM_cons, Check.bind_eq_ok] at h
      obtain ⟨m₁, h₁, h₂⟩ := h
      obtain ⟨hformat, hshare⟩ := mergeManifests_header h₁
      obtain ⟨hshare', hformat'⟩ := ih h₂
      exact ⟨hshare'.trans hshare, fun _ => hformat' (.inr hformat)⟩

theorem mergeAll_valid : ∀ {rest : List (Manifest × U64)} {start m : Manifest} {shareId : ShareId},
    start.Valid shareId → mergeAll start rest = .ok m → m.Valid shareId := by
  intro rest
  induction rest with
  | nil =>
      intro start m shareId hs h
      cases h
      exact hs
  | cons x rest ih =>
      intro start m shareId hs h
      rw [mergeAll, List.foldlM_cons, Check.bind_eq_ok] at h
      obtain ⟨m₁, h₁, h₂⟩ := h
      obtain ⟨-, -, hv, rfl⟩ := mergeManifests_eq_ok.mp h₁
      rw [hs.share] at hv
      exact ih hv h₂

theorem SyncEq.digest {m' : Manifest} {shareId : ShareId} (h : m.SyncEq m')
    (hm : m.Valid shareId) (hm' : m'.Valid shareId) (hformat : m.formatVersion = m'.formatVersion) :
    m.syncDigestAfterValidation = m'.syncDigestAfterValidation := by
  refine congrArg Crypto.blake3 ((digestInput_eq_iff_shared hm.lengthsFit hm'.lengthsFit).mpr ?_)
  exact ⟨hformat, hm.share.trans hm'.share.symm, (syncEq_iff_shared hm.separated hm'.separated).mp h⟩

/-- Merging is commutative and associative, keeps a record of highest rank at every path
that has one, and folds manifests in any order and with any repetition into the same.  It
is idempotent on manifests of the current format, and on no others. -/
theorem mergeManifests_order_independent {shareId : ShareId} {F : Manifest → Prop}
    (hvalid : ∀ m, F m → m.Valid shareId) (hcompat : ∀ m m', F m → F m' → Compatible m m') :
    (∀ a b t t' x y, F a → F b → mergeManifests a b t = .ok x → mergeManifests b a t' = .ok y →
        x.SyncEqual y)
      ∧ (∀ a b c t₁ t₂ t₃ t₄ ab x bc y, F a → F b → F c →
        mergeManifests a b t₁ = .ok ab → mergeManifests ab c t₂ = .ok x →
        mergeManifests b c t₃ = .ok bc → mergeManifests a bc t₄ = .ok y → x.SyncEqual y)
      ∧ (∀ a t x, F a → mergeManifests a a t = .ok x →
        x.SyncEq a ∧ x.shareId = a.shareId
          ∧ (x.SyncEqual a ↔ a.formatVersion = MANIFEST_FORMAT_VERSION))
      ∧ (∀ a b t x p, F a → F b → mergeManifests a b t = .ok x →
        (x.record p = none ↔ a.record p = none ∧ b.record p = none)
          ∧ ∀ r, x.record p = some r → (a.record p = some r ∨ b.record p = some r)
            ∧ ∀ q, a.record p = some q ∨ b.record p = some q →
              q.version ≤ r.version
                ∧ (q.version = r.version → q.isTombstone = true → r.isTombstone = true))
      ∧ (∀ a b as bs x y, (∀ m ∈ a :: as.map Prod.fst, F m) →
        (∀ m, m ∈ a :: as.map Prod.fst ↔ m ∈ b :: bs.map Prod.fst) →
        (as ≠ [] ∨ a.formatVersion = MANIFEST_FORMAT_VERSION) →
        (bs ≠ [] ∨ b.formatVersion = MANIFEST_FORMAT_VERSION) →
        mergeAll a as = .ok x → mergeAll b bs = .ok y →
        x.SyncEqual y ∧ x.syncDigestAfterValidation = y.syncDigestAfterValidation) := by
  have share : ∀ {a b}, F a → F b → a.shareId = b.shareId := fun ha hb =>
    ((hvalid _ ha).share).trans ((hvalid _ hb).share).symm
  refine ⟨?_, ?_, ?_, ?_, ?_⟩
  · intro a b t t' x y ha hb hx hy
    refine ((top_self a).merge (top_self b) hx).syncEqual ((top_self b).merge (top_self a) hy)
      (by simp [or_comm]) ?_ (mergeManifests_header hx).1 (mergeManifests_header hy).1 ?_
    · simp only [List.cons_append, List.nil_append, List.mem_cons, List.not_mem_nil, or_false]
      rintro m (rfl | rfl) m' (rfl | rfl) <;> exact hcompat _ _ ‹_› ‹_›
    · rw [(mergeManifests_header hx).2, (mergeManifests_header hy).2, share ha hb]
  · intro a b c t₁ t₂ t₃ t₄ ab x bc y ha hb hc hab hx hbc hy
    refine (((top_self a).merge (top_self b) hab).merge (top_self c) hx).syncEqual
      ((top_self a).merge ((top_self b).merge (top_self c) hbc) hy) (by simp) ?_
      (mergeManifests_header hx).1 (mergeManifests_header hy).1 ?_
    · simp only [List.cons_append, List.nil_append, List.mem_cons, List.not_mem_nil, or_false]
      rintro m (rfl | rfl | rfl) m' (rfl | rfl | rfl) <;> exact hcompat _ _ ‹_› ‹_›
    · rw [(mergeManifests_header hx).2, (mergeManifests_header hab).2, (mergeManifests_header hy).2]
  · intro a t x ha hx
    have heq : x.SyncEq a := by
      refine ((top_self a).merge (top_self a) hx).syncEq (top_self a) (by simp) ?_
      simp only [List.cons_append, List.nil_append, List.mem_cons, List.not_mem_nil, or_false,
        or_self]
      rintro m rfl m' rfl
      exact hcompat _ _ ha ha
    obtain ⟨hformat, hshare⟩ := mergeManifests_header hx
    refine ⟨heq, hshare, fun h => h.1.symm.trans hformat, fun h => ⟨hformat.trans h.symm, hshare, heq⟩⟩
  · intro a b t x p _ _ hx
    have htop := ((top_self a).merge (top_self b) hx) p
    have hrec := mergeManifests_record hx p
    refine ⟨by rw [hrec, selectRecord_eq_none], fun r hr => ⟨?_, fun q hq => ?_⟩⟩
    · rcases selectRecord_or (a.record p) (b.record p) with he | he
      · exact .inl (by rw [← he, ← hrec, hr])
      · exact .inr (by rw [← he, ← hrec, hr])
    · have hle : q.rank ≤ r.rank := by
        rcases hq with hq | hq
        · have := htop.2 a (by simp)
          rwa [hq, hr, rankAt, rankAt, WithBot.coe_le_coe] at this
        · have := htop.2 b (by simp)
          rwa [hq, hr, rankAt, rankAt, WithBot.coe_le_coe] at this
      rcases rank_le_iff.mp hle with hlt | ⟨heq, ht⟩
      · exact ⟨hlt.le, fun he => absurd he hlt.ne⟩
      · exact ⟨heq.le, fun _ => ht⟩
  · intro a b as bs x y hF hsame has hbs hx hy
    have ha : F a := hF a List.mem_cons_self
    have hb : F b := hF b ((hsame b).mpr List.mem_cons_self)
    have heq : x.SyncEqual y := by
      refine (top_of_mergeAll (top_self a) hx).syncEqual (top_of_mergeAll (top_self b) hy) hsame
        (fun m hm m' hm' => hcompat m m' (hF m hm) (hF m' hm')) ((mergeAll_header hx).2 has)
        ((mergeAll_header hy).2 hbs) ?_
      rw [(mergeAll_header hx).1, (mergeAll_header hy).1, share ha hb]
    refine ⟨heq, heq.2.2.digest (mergeAll_valid (hvalid a ha) hx) (mergeAll_valid (hvalid b hb) hy) ?_⟩
    exact heq.1

end Merge

section Examples

/-- Two scans of one file, merged either way. -/
theorem mergeManifests_order_independent_oneFile :
    let _ := Crypto.plain
    ∃ x y, mergeManifests (oneFile 1 2) (oneFile 3 4) 5 = .ok x
      ∧ mergeManifests (oneFile 3 4) (oneFile 1 2) 6 = .ok y ∧ x.SyncEqual y := by
  intro _
  have hv : (oneFile 1 2).Valid ⟨List.replicate 32 0, rfl⟩ := by decide +kernel
  have hv' : (oneFile 3 4).Valid ⟨List.replicate 32 0, rfl⟩ := by decide +kernel
  have heq : (oneFile 1 2).SyncEq (oneFile 3 4) :=
    (syncEq_iff_shared hv.separated hv'.separated).mpr (by decide +kernel)
  refine ⟨mergeRecords (oneFile 1 2) (oneFile 3 4) 5, mergeRecords (oneFile 3 4) (oneFile 1 2) 6,
    by decide +kernel, by decide +kernel, ?_⟩
  have hvalid : ∀ m, m = oneFile 1 2 ∨ m = oneFile 3 4 → m.Valid ⟨List.replicate 32 0, rfl⟩ := by
    rintro m (rfl | rfl)
    · exact hv
    · exact hv'
  refine (mergeManifests_order_independent hvalid ?_).1 _ _ 5 6 _ _ (.inl rfl) (.inr rfl)
    (by decide +kernel) (by decide +kernel)
  · rintro m m' (rfl | rfl) (rfl | rfl)
    · exact (SyncEq.refl _).compatible
    · exact heq.compatible
    · exact heq.symm.compatible
    · exact (SyncEq.refl _).compatible

/-- A file as an older version recorded it. -/
def legacyFile : Manifest := { oneFile 1 2 with formatVersion := LEGACY_MANIFEST_FORMAT_VERSION }

/-- Merged with itself, a manifest of an older format becomes one of the current format,
with another digest. -/
theorem mergeManifests_legacy_not_idempotent :
    let _ := Crypto.plain
    legacyFile.Valid ⟨List.replicate 32 0, rfl⟩ ∧ Compatible legacyFile legacyFile
      ∧ ∃ x, mergeManifests legacyFile legacyFile 2 = .ok x ∧ ¬ x.SyncEqual legacyFile
        ∧ x.syncDigestAfterValidation ≠ legacyFile.syncDigestAfterValidation := by
  intro _
  refine ⟨by decide +kernel, (SyncEq.refl _).compatible,
    mergeRecords legacyFile legacyFile 2, by decide +kernel, ?_, by decide +kernel⟩
  rintro ⟨hformat, -⟩
  exact absurd hformat (by decide +kernel)

end Examples

end Manifest

end Syncbox

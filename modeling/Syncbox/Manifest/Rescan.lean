/-
# `Syncbox.Manifest.Rescan` — what a scan records

The pure half of a scan.  `Rescans` says for one path what becomes of its record, given
what was seen there: a record that still fits stays, anything else gets a version the
clock gave during this scan, a live record with nothing seen becomes a tombstone.
`compareWithPrevious_ok` says that a successful scan does this at every path, on the
short way out (`matchesPrevious`) as well as through the four loops.

The loops run over disjoint lists of paths, so each of them writes a path at most once
and over at most a tombstone: that is what `Holds.place` asks for.
-/
import Syncbox.Manifest.Scan

namespace Syncbox

open Rust Check

/-! ## Placing a record -/

namespace Manifest

theorem Holds.set {m m' : Manifest} {f : Str → Option ManifestRecord} {p : Str}
    {o : Option ManifestRecord} (h : m.Holds f)
    (he : ∀ q, m'.entries[q]? = if p = q then o.bind ManifestRecord.file? else m.entries[q]?)
    (hd : ∀ q, m'.directories[q]? = if p = q then o.bind ManifestRecord.directory?
      else m.directories[q]?)
    (hs : ∀ q, m'.symlinks[q]? = if p = q then o.bind ManifestRecord.symlink? else m.symlinks[q]?)
    (ht : ∀ q, m'.tombstones[q]? = if p = q then o.bind ManifestRecord.tombstone?
      else m.tombstones[q]?) :
    m'.Holds fun q => if p = q then o else f q := by
  constructor <;> intro q
  · rw [he, h.entries]; split <;> rfl
  · rw [hd, h.directories]; split <;> rfl
  · rw [hs, h.symlinks]; split <;> rfl
  · rw [ht, h.tombstones]; split <;> rfl

theorem Holds.place {m : Manifest} {f : Str → Option ManifestRecord} {p : Str} (h : m.Holds f)
    (hp : ∀ r, f p = some r → r.isTombstone = true) (r : ManifestRecord) :
    (m.place p r).Holds fun q => if p = q then some r else f q := by
  have hfile : m.entries[p]? = none := by
    rw [h.entries]
    rcases hf : f p with _ | (_ | _ | _ | _) <;> first | rfl | cases hp _ hf
  have hdir : m.directories[p]? = none := by
    rw [h.directories]
    rcases hf : f p with _ | (_ | _ | _ | _) <;> first | rfl | cases hp _ hf
  have hlink : m.symlinks[p]? = none := by
    rw [h.symlinks]
    rcases hf : f p with _ | (_ | _ | _ | _) <;> first | rfl | cases hp _ hf
  refine h.set ?_ ?_ ?_ ?_ <;> intro q <;> by_cases hq : p = q
  all_goals
    first | subst hq | skip
    cases r <;>
      simp_all [Manifest.place, lookup_insert, lookup_erase, ManifestRecord.file?,
        ManifestRecord.directory?, ManifestRecord.symlink?, ManifestRecord.tombstone?]

@[simp] theorem place_formatVersion (m : Manifest) (p : Str) (r : ManifestRecord) :
    (m.place p r).formatVersion = m.formatVersion := by cases r <;> rfl

@[simp] theorem place_shareId (m : Manifest) (p : Str) (r : ManifestRecord) :
    (m.place p r).shareId = m.shareId := by cases r <;> rfl

end Manifest

/-! ## One path -/

section Rescans

variable (previous : Manifest) (unknown : Bool) (fresh : HlcTimestamp → Prop)

/-- What becomes of the record at `p` when `seen` is seen there. -/
def Rescans (p : Str) (seen : Option Seen) (new : Option ManifestRecord) : Prop :=
  match seen with
  | some s =>
      match retained previous unknown p s with
      | some r => new = some r
      | none => ∃ v, fresh v ∧ new = some (authored previous p v s)
  | none =>
      (previous.Live p ∧ ∃ v, fresh v ∧ new = some (.tombstone ⟨v⟩))
        ∨ (¬ previous.Live p ∧ new = previous.record p)

/-- The path gets a new version. -/
def Changed (p : Str) : Option Seen → Prop
  | some s => retained previous unknown p s = none
  | none => previous.Live p

end Rescans

/-- A version the clock gave between two readings. -/
structure Fresh (clock clock' : ClockState) (author : EndpointId) (v : HlcTimestamp) : Prop where
  after : clock.stamp < v.stamp
  upTo : v.stamp ≤ clock'.stamp
  author : v.author = author

theorem Fresh.mono {clock clock₁ clock₂ : ClockState} {author : EndpointId} {v : HlcTimestamp}
    (h : Fresh clock clock₁ author v) (hle : clock₁.stamp ≤ clock₂.stamp) :
    Fresh clock clock₂ author v := ⟨h.after, h.upTo.trans hle, h.author⟩

theorem Rescans.mono {previous : Manifest} {unknown : Bool} {fresh fresh' : HlcTimestamp → Prop}
    {p : Str} {seen : Option Seen} {new : Option ManifestRecord}
    (h : Rescans previous unknown fresh p seen new) (hf : ∀ v, fresh v → fresh' v) :
    Rescans previous unknown fresh' p seen new := by
  unfold Rescans at *
  cases seen with
  | some s =>
      dsimp only at *
      cases hr : retained previous unknown p s with
      | some r => rwa [hr] at h
      | none =>
          rw [hr] at h
          obtain ⟨v, hv, hnew⟩ := h
          exact ⟨v, hf v hv, hnew⟩
  | none =>
      rcases h with ⟨hl, v, hv, hnew⟩ | h
      · exact .inl ⟨hl, v, hf v hv, hnew⟩
      · exact .inr h

/-! ## The loops -/

theorem Rescan.author_tick {s s' : Rescan} {endpointId : EndpointId} {nowMs : U64} {path : Str}
    {record : HlcTimestamp → ManifestRecord}
    (h : s.author endpointId nowMs path record = .ok s') :
    ∃ v, s.clock.tick nowMs endpointId = .ok (v, s'.clock) ∧ s'.changes = s.changes + 1
      ∧ s'.manifest = s.manifest.place path (record v) := by
  simp only [Rescan.author, bind_eq_ok] at h
  obtain ⟨⟨v, c⟩, hv, heq⟩ := h
  cases heq
  exact ⟨v, hv, rfl, rfl⟩

theorem Rescan.author_ok {s s' : Rescan} {endpointId : EndpointId} {nowMs : U64} {path : Str}
    {record : HlcTimestamp → ManifestRecord}
    (h : s.author endpointId nowMs path record = .ok s') :
    s.clock.stamp < s'.clock.stamp ∧ s'.clock.formatVersion = s.clock.formatVersion
      ∧ s'.changes = s.changes + 1
      ∧ ∃ v, v.stamp = s'.clock.stamp ∧ v.author = endpointId
        ∧ s'.manifest = s.manifest.place path (record v) := by
  obtain ⟨v, hv, hchanges, hm⟩ := Rescan.author_tick h
  obtain ⟨hlt, hstamp, hauthor, hformat⟩ := ClockState.tick_stamp hv
  exact ⟨hlt, hformat, hchanges, v, hstamp, hauthor, hm⟩

/-- The common part of the invariants of the loops. -/
structure Rescan.Running (previous : Manifest) (clock : ClockState) (s : Rescan) : Prop where
  separated : s.manifest.Separated
  later : clock.stamp ≤ s.clock.stamp
  clockFormat : s.clock.formatVersion = clock.formatVersion
  format : s.manifest.formatVersion = MANIFEST_FORMAT_VERSION
  share : s.manifest.shareId = previous.shareId

section Loops

variable {previous : Manifest} {clock : ClockState} {endpointId : EndpointId} {nowMs : U64}
  {unknown : Bool}

/-- A record placed where at most a tombstone was keeps the invariant and changes this
path only. -/
theorem Rescan.Running.place {s s' : Rescan} {p : Str} {r : ManifestRecord}
    (h : s.Running previous clock) (hp : ∀ r, s.manifest.record p = some r → r.isTombstone = true)
    (hm : s'.manifest = s.manifest.place p r) (hclock : s.clock.stamp ≤ s'.clock.stamp)
    (hformat : s'.clock.formatVersion = s.clock.formatVersion) :
    s'.Running previous clock
      ∧ ∀ q, s'.manifest.record q = if p = q then some r else s.manifest.record q := by
  have hholds := h.separated.holds.place hp r
  rw [← hm] at hholds
  exact ⟨⟨hholds.separated, h.later.trans hclock, hformat.trans h.clockFormat,
    by rw [hm, Manifest.place_formatVersion]; exact h.format,
    by rw [hm, Manifest.place_shareId]; exact h.share⟩, hholds.record_eq⟩

/-- What holds when the entries of `done` have been compared. -/
structure SeenDone (previous : Manifest) (clock : ClockState) (endpointId : EndpointId)
    (unknown : Bool) (done : List (Str × Seen)) (s : Rescan) : Prop where
  running : s.Running previous clock
  compared : ∀ x ∈ done, Rescans previous unknown (Fresh clock s.clock endpointId) x.1 (some x.2)
    (s.manifest.record x.1)
  todo : ∀ p, p ∉ done.map Prod.fst →
    s.manifest.record p = previous.tombstones[p]?.map .tombstone
  changes : s.changes = 0 ↔ ∀ x ∈ done, ¬ Changed previous unknown x.1 (some x.2)

theorem SeenDone.free {done : List (Str × Seen)} {s : Rescan} {p : Str}
    (hI : SeenDone previous clock endpointId unknown done s) (hp : p ∉ done.map Prod.fst)
    {r : ManifestRecord} (hr : s.manifest.record p = some r) : r.isTombstone = true := by
  rw [hI.todo p hp, Option.map_eq_some_iff] at hr
  obtain ⟨t, -, rfl⟩ := hr
  rfl

/-- One step: a retained record costs nothing, any other a tick. -/
theorem rescanSeen_ok {done : List (Str × Seen)} {s s' : Rescan} {x : Str × Seen}
    (hI : SeenDone previous clock endpointId unknown done s) (hx : x.1 ∉ done.map Prod.fst)
    (h : rescanSeen previous endpointId nowMs unknown s x.1 x.2 = .ok s') :
    SeenDone previous clock endpointId unknown (done ++ [x]) s' := by
  have hne : ∀ y ∈ done, x.1 ≠ y.1 := fun y hy he => hx (he ▸ List.mem_map_of_mem hy)
  -- what both branches share: one record placed, the others rescanned as before
  have step : ∀ r : ManifestRecord, s'.manifest = s.manifest.place x.1 r →
      s.clock.stamp ≤ s'.clock.stamp → s'.clock.formatVersion = s.clock.formatVersion →
      Rescans previous unknown (Fresh clock s'.clock endpointId) x.1 (some x.2) (some r) →
      (s'.changes = 0 ↔ s.changes = 0 ∧ ¬ Changed previous unknown x.1 (some x.2)) →
      SeenDone previous clock endpointId unknown (done ++ [x]) s' := by
    intro r hm hle hformat hr hchanges
    obtain ⟨hrun, hrec⟩ := hI.running.place (fun _ => hI.free hx) hm hle hformat
    refine ⟨hrun, fun y hy => ?_, fun p hnot => ?_, ?_⟩
    · rcases List.mem_append.mp hy with hy | hy
      · rw [hrec, if_neg (hne y hy)]
        exact (hI.compared y hy).mono fun v hv => hv.mono hle
      · cases List.mem_singleton.mp hy
        rwa [hrec, if_pos rfl]
    · simp only [List.map_append, List.mem_append, not_or] at hnot
      rw [hrec, if_neg (by rintro rfl; exact hnot.2 (by simp))]
      exact hI.todo p hnot.1
    · rw [hchanges, hI.changes]
      simp only [List.mem_append, List.mem_singleton, or_imp, forall_and, forall_eq]
  unfold rescanSeen at h
  cases hr : retained previous unknown x.1 x.2 with
  | some r =>
      rw [hr] at h
      cases h
      exact step r rfl le_rfl rfl (by simp [Rescans, hr]) (by simp [Changed, hr])
  | none =>
      rw [hr] at h
      obtain ⟨hlt, hformat, hchanges, v, hv, hauthor, hm⟩ := Rescan.author_ok h
      refine step _ hm hlt.le hformat ?_ (by simp [Changed, hr, hchanges])
      have hfresh : Fresh clock s'.clock endpointId v :=
        ⟨hv ▸ hI.running.later.trans_lt hlt, hv.le, hauthor⟩
      simp only [Rescans, hr]
      exact ⟨v, hfresh, rfl⟩

/-- What holds when the paths of `done` have been looked for, starting from `s₁`. -/
structure MissingDone (previous : Manifest) (clock : ClockState) (endpointId : EndpointId)
    (s₁ : Rescan) (done : List Str) (s : Rescan) : Prop where
  running : s.Running previous clock
  later : s₁.clock.stamp ≤ s.clock.stamp
  gone : ∀ p ∈ done, ¬ s₁.manifest.Live p →
    ∃ v, Fresh clock s.clock endpointId v ∧ s.manifest.record p = some (.tombstone ⟨v⟩)
  kept : ∀ p, p ∉ done ∨ s₁.manifest.Live p → s.manifest.record p = s₁.manifest.record p
  changes : s.changes = 0 ↔ s₁.changes = 0 ∧ ∀ p ∈ done, s₁.manifest.Live p

theorem not_live_iff {m : Manifest} {p : Str} :
    (p ∉ m.entries ∧ p ∉ m.directories ∧ p ∉ m.symlinks) ↔ ¬ m.Live p := by
  rw [← Manifest.mem_livePaths]
  simp only [Manifest.livePaths, List.mem_append, Std.ExtTreeMap.mem_keys, not_or, and_assoc]

theorem isTombstone_of_not_live {m : Manifest} {p : Str} (h : ¬ m.Live p) {r : ManifestRecord}
    (hr : m.record p = some r) : r.isTombstone = true := by
  by_contra hne
  exact h ⟨r, hr, by simpa using hne⟩

theorem MissingDone.live_iff {done : List Str} {s₁ s : Rescan} {p : Str}
    (hI : MissingDone previous clock endpointId s₁ done s) (hp : p ∉ done) :
    s.manifest.Live p ↔ s₁.manifest.Live p := by
  rw [Manifest.Live, hI.kept p (.inl hp), ← Manifest.Live]

theorem rescanMissing_ok {done : List Str} {s₁ s s' : Rescan} {p : Str}
    (hI : MissingDone previous clock endpointId s₁ done s) (hp : p ∉ done)
    (h : rescanMissing endpointId nowMs s p = .ok s') :
    MissingDone previous clock endpointId s₁ (done ++ [p]) s' := by
  unfold rescanMissing at h
  by_cases hl : s₁.manifest.Live p
  · rw [if_neg fun hc => not_live_iff.mp hc ((hI.live_iff hp).mpr hl)] at h
    cases h
    refine ⟨hI.running, hI.later, fun q hq hnot => ?_, fun q hq => ?_, ?_⟩
    · rcases List.mem_append.mp hq with hq | hq
      · exact hI.gone q hq hnot
      · cases List.mem_singleton.mp hq
        exact absurd hl hnot
    · exact hI.kept q (hq.imp_left fun hn hd => hn (List.mem_append_left _ hd))
    · rw [hI.changes]
      simp only [List.mem_append, List.mem_singleton, or_imp, forall_and, forall_eq, hl, and_true]
  · have hgone : ¬ s.manifest.Live p := fun hc => hl ((hI.live_iff hp).mp hc)
    rw [if_pos (not_live_iff.mpr hgone)] at h
    obtain ⟨hlt, hformat, hchanges, v, hv, hauthor, hm⟩ := Rescan.author_ok h
    obtain ⟨hrun, hrecs⟩ := hI.running.place (fun _ => isTombstone_of_not_live hgone) hm hlt.le
      hformat
    have hfresh : Fresh clock s'.clock endpointId v :=
      ⟨hv ▸ hI.running.later.trans_lt hlt, hv.le, hauthor⟩
    refine ⟨hrun, hI.later.trans hlt.le, fun q hq hnot => ?_, fun q hq => ?_, ?_⟩
    · rw [hrecs]
      by_cases he : p = q
      · exact ⟨v, hfresh, by rw [if_pos he]⟩
      · have hq : q ∈ done := by
          rcases List.mem_append.mp hq with hq | hq
          · exact hq
          · exact absurd (List.mem_singleton.mp hq).symm he
        obtain ⟨v', hv', hr⟩ := hI.gone q hq hnot
        exact ⟨v', hv'.mono hlt.le, by rw [if_neg he, hr]⟩
    · have he : p ≠ q := by
        rintro rfl
        rcases hq with hq | hq
        · exact hq (by simp)
        · exact hl hq
      rw [hrecs, if_neg he]
      exact hI.kept q (hq.imp_left fun hn hd => hn (List.mem_append_left _ hd))
    · rw [hchanges]
      simp [hl]

end Loops

/-! ## What was seen, as a function -/

namespace Seen

def file? : Seen → Option DiscoveredFile
  | file f => some f
  | _ => none

def directory? : Seen → Option DiscoveredDirectory
  | directory d => some d
  | _ => none

def symlink? : Seen → Option DiscoveredSymlink
  | symlink l => some l
  | _ => none

end Seen

/-- The three maps hold what `look` sees and nothing else. -/
structure DiscoveredEntries.Sees (discovered : DiscoveredEntries) (look : Str → Option Seen) :
    Prop where
  files : ∀ p, discovered.files[p]? = (look p).bind Seen.file?
  directories : ∀ p, discovered.directories[p]? = (look p).bind Seen.directory?
  symlinks : ∀ p, discovered.symlinks[p]? = (look p).bind Seen.symlink?

namespace DiscoveredEntries.Sees

variable {discovered : DiscoveredEntries} {look : Str → Option Seen}

theorem mem_seen (h : discovered.Sees look) {x : Str × Seen} :
    x ∈ discovered.seen ↔ look x.1 = some x.2 := by
  obtain ⟨p, s⟩ := x
  simp only [DiscoveredEntries.seen, List.mem_append, List.mem_map, Prod.exists, Prod.mk.injEq,
    Std.ExtTreeMap.mem_toList_iff_getElem?_eq_some, h.files, h.directories, h.symlinks]
  constructor
  · rintro ((⟨_, f, hf, rfl, rfl⟩ | ⟨_, f, hf, rfl, rfl⟩) | ⟨_, f, hf, rfl, rfl⟩) <;>
      rcases hl : look _ with _ | (_ | _ | _) <;> rw [hl] at hf <;> cases hf <;> rfl
  · intro hl
    cases s with
    | file f => exact .inl (.inl ⟨p, f, by rw [hl]; rfl, rfl, rfl⟩)
    | directory d => exact .inl (.inr ⟨p, d, by rw [hl]; rfl, rfl, rfl⟩)
    | symlink l => exact .inr ⟨p, l, by rw [hl]; rfl, rfl, rfl⟩

theorem seen_paths (h : discovered.Sees look) : (discovered.seen.map Prod.fst).Nodup := by
  simp only [DiscoveredEntries.seen, List.map_append, List.map_map, Function.comp_def,
    Std.ExtTreeMap.map_fst_toList_eq_keys]
  simp only [List.nodup_append, Std.ExtTreeMap.nodup_keys, Std.ExtTreeMap.mem_keys,
    List.mem_append, mem_iff_lookup, h.files, h.directories, h.symlinks, true_and]
  have clash : ∀ (p : Str) {f d l}, ((look p).bind Seen.file? = some f →
      (look p).bind Seen.directory? = some d → False)
      ∧ ((look p).bind Seen.file? = some f → (look p).bind Seen.symlink? = some l → False)
      ∧ ((look p).bind Seen.directory? = some d → (look p).bind Seen.symlink? = some l → False) := by
    intro p f d l
    rcases look p with _ | (_ | _ | _) <;> simp [Seen.file?, Seen.directory?, Seen.symlink?]
  refine ⟨?_, ?_⟩
  · rintro p ⟨f, hf⟩ q ⟨d, hd⟩ rfl
    exact (clash p (l := ⟨[]⟩)).1 hf hd
  · rintro p (⟨f, hf⟩ | ⟨d, hd⟩) q ⟨l, hl⟩ rfl
    · exact (clash p (d := ⟨none⟩)).2.1 hf hl
    · exact (clash p (f := ⟨0, 0, [], none⟩)).2.2 hd hl

end DiscoveredEntries.Sees

/-! ## The run -/

/-- What a scan of what `look` sees leaves, as the caller gets it. -/
structure Rescanned (previous : Manifest) (clock : ClockState) (endpointId : EndpointId)
    (unknown : Bool) (look : Str → Option Seen) (manifest : Manifest) (changes : Nat)
    (clock' : ClockState) : Prop where
  separated : manifest.Separated
  later : clock.stamp ≤ clock'.stamp
  clockFormat : clock'.formatVersion = clock.formatVersion
  format : manifest.formatVersion = MANIFEST_FORMAT_VERSION
  share : manifest.shareId = previous.shareId
  rescans : ∀ p, Rescans previous unknown (Fresh clock clock' endpointId) p (look p)
    (manifest.record p)
  changes : changes = 0 ↔ ∀ p, ¬ Changed previous unknown p (look p)

section Run

variable {previous : Manifest} {clock : ClockState} {endpointId : EndpointId} {nowMs : U64}
  {unknown : Bool} {discovered : DiscoveredEntries} {look : Str → Option Seen}

theorem authored_version (p : Str) (v : HlcTimestamp) (x : Seen) :
    (authored previous p v x).version = v := by
  cases x <;> rfl

/-- The loops run through when every record they write is paid for. -/
theorem rescan_budget {P : Rescan → Nat → Prop} {n : Nat}
    (hkeep : ∀ s p x r n, retained previous unknown p x = some r → P s (n + 1) →
      P { s with manifest := s.manifest.place p r } n)
    (hskip : ∀ s n, P s (n + 1) → P s n)
    (hauthor : ∀ s p record n, (∀ v, (record v : ManifestRecord).version = v) → P s (n + 1) →
      ∃ s', s.author endpointId nowMs p record = .ok s' ∧ P s' n)
    (hstart : P ⟨⟨MANIFEST_FORMAT_VERSION, previous.shareId, nowMs, ∅, ∅, ∅, previous.tombstones⟩, 0,
      clock⟩ (discovered.seen.length + (previous.livePaths.length + n))) :
    ∃ s, rescan previous clock endpointId nowMs unknown discovered = .ok s ∧ P s n := by
  obtain ⟨s₁, h₁, hs₁⟩ := Check.foldlM_budget
    (f := fun s x => rescanSeen previous endpointId nowMs unknown s x.1 x.2) (by
      intro x _ s n h
      unfold rescanSeen
      cases hr : retained previous unknown x.1 x.2 with
      | some r => exact ⟨_, rfl, hkeep s x.1 x.2 r n hr h⟩
      | none => exact hauthor s x.1 _ n (fun v => authored_version x.1 v x.2) h) hstart
  obtain ⟨s, h₂, hs⟩ := Check.foldlM_budget (f := rescanMissing endpointId nowMs) (by
      intro p _ s n h
      unfold rescanMissing
      split
      · exact hauthor s p _ n (fun _ => rfl) h
      · exact ⟨s, rfl, hskip s n h⟩) hs₁
  exact ⟨s, by rw [rescan, h₁]; exact h₂, hs⟩

theorem nodup_livePaths {m : Manifest} (h : m.Separated) : m.livePaths.Nodup := by
  have := h.nodup_paths
  rw [Manifest.paths, List.nodup_append] at this
  exact this.1

theorem seenDone_start :
    SeenDone previous clock endpointId unknown []
      ⟨⟨MANIFEST_FORMAT_VERSION, previous.shareId, nowMs, ∅, ∅, ∅, previous.tombstones⟩, 0, clock⟩ := by
  have hrec : ∀ p, Manifest.record
      ⟨MANIFEST_FORMAT_VERSION, previous.shareId, nowMs, ∅, ∅, ∅, previous.tombstones⟩ p
        = previous.tombstones[p]?.map .tombstone := fun p => by
    simp [Manifest.record]
  refine ⟨⟨?_, le_rfl, rfl, rfl, rfl⟩, by simp, fun p _ => hrec p, by simp⟩
  constructor <;> simp

/-- The previous record of a path, kept for what is seen there. -/
inductive Retains (previous : Manifest) (unknown : Bool) (p : Str) : Seen → ManifestRecord → Prop
  | file {old : ManifestEntry} {f : DiscoveredFile} (hold : previous.entries[p]? = some old)
      (hm : fileMatches unknown old f = true) : Retains previous unknown p (.file f)
        (.file { old with modifiedAtNs := f.modifiedAtNs, sha256 := f.sha256 })
  | directory {old : DirectoryEntry} {d : DiscoveredDirectory} (hold : previous.directories[p]? = some old)
      (hm : directoryMatches unknown old d = true) :
      Retains previous unknown p (.directory d) (.directory old)
  | symlink {old : SymlinkEntry} {l : DiscoveredSymlink} (hold : previous.symlinks[p]? = some old)
      (hm : symlinkMatches old l = true) : Retains previous unknown p (.symlink l) (.symlink old)

theorem retains {p : Str} {x : Seen} {r : ManifestRecord}
    (h : retained previous unknown p x = some r) : Retains previous unknown p x r := by
  cases x <;> simp only [retained, Option.map_eq_some_iff, Option.filter_eq_some_iff] at h <;>
    obtain ⟨old, ⟨hold, hm⟩, rfl⟩ := h
  exacts [.file hold hm, .directory hold hm, .symlink hold hm]

theorem retained_isTombstone {p : Str} {x : Seen} {r : ManifestRecord}
    (h : retained previous unknown p x = some r) : r.isTombstone = false := by
  cases retains h <;> rfl

/-- What the first three loops leave live is exactly what was seen. -/
theorem seenDone_live_iff {s : Rescan} (hlook : discovered.Sees look)
    (h : SeenDone previous clock endpointId unknown discovered.seen s) (p : Str) :
    s.manifest.Live p ↔ ∃ x, look p = some x := by
  constructor
  · rintro ⟨r, hr, hnot⟩
    by_contra hno
    rw [h.todo p (fun hmem => by
      obtain ⟨x, hx, rfl⟩ := List.mem_map.mp hmem
      exact hno ⟨x.2, hlook.mem_seen.mp hx⟩), Option.map_eq_some_iff] at hr
    obtain ⟨t, -, rfl⟩ := hr
    cases hnot
  · rintro ⟨x, hx⟩
    have := h.compared (p, x) (hlook.mem_seen.mpr hx)
    simp only [Rescans] at this
    cases hr : retained previous unknown p x with
    | some r =>
        rw [hr] at this
        exact ⟨r, this, retained_isTombstone hr⟩
    | none =>
        rw [hr] at this
        obtain ⟨v, -, hv⟩ := this
        exact ⟨_, hv, by cases x <;> rfl⟩

theorem seenDone_of_foldlM {s s' : Rescan} (hlook : discovered.Sees look)
    (hstart : SeenDone previous clock endpointId unknown [] s)
    (h : discovered.seen.foldlM
      (fun s x => rescanSeen previous endpointId nowMs unknown s x.1 x.2) s = .ok s') :
    SeenDone previous clock endpointId unknown discovered.seen s' := by
  have hseen := Check.foldlM_inv (I := SeenDone previous clock endpointId unknown) hstart h (by
      intro pre x post b b' heq hI hstep
      refine rescanSeen_ok hI (fun hmem => ?_) hstep
      have hnodup := hlook.seen_paths
      rw [heq, List.map_append, List.map_cons, List.nodup_append] at hnodup
      exact hnodup.2.2 x.1 hmem x.1 List.mem_cons_self rfl)
  exact hseen

theorem rescan_ok {s : Rescan} (hprev : previous.Separated) (hlook : discovered.Sees look)
    (h : rescan previous clock endpointId nowMs unknown discovered = .ok s) :
    Rescanned previous clock endpointId unknown look s.manifest s.changes s.clock := by
  simp only [rescan, bind_eq_ok] at h
  obtain ⟨s₁, h₁, h₂⟩ := h
  have hseen := seenDone_of_foldlM hlook seenDone_start h₁
  have hmissing := Check.foldlM_inv (I := MissingDone previous clock endpointId s₁)
    ⟨hseen.running, le_rfl, by simp, fun _ _ => rfl, by simp⟩ h₂ (by
      intro pre p post b b' heq hI hstep
      refine rescanMissing_ok hI (fun hmem => ?_) hstep
      have hnodup := nodup_livePaths hprev
      rw [heq, List.nodup_append] at hnodup
      exact hnodup.2.2 p hmem p List.mem_cons_self rfl)
  have hlive := seenDone_live_iff hlook hseen
  refine ⟨hmissing.running.separated, hmissing.running.later, hmissing.running.clockFormat,
    hmissing.running.format, hmissing.running.share, fun p => ?_, ?_⟩
  · cases hl : look p with
    | some x =>
        rw [hmissing.kept p (.inr ((hlive p).mpr ⟨x, hl⟩))]
        exact (hseen.compared (p, x) (hlook.mem_seen.mpr hl)).mono fun v hv => hv.mono hmissing.later
    | none =>
        have hnot : ¬ s₁.manifest.Live p := fun hlp => by
          obtain ⟨x, hx⟩ := (hlive p).mp hlp
          rw [hl] at hx
          cases hx
        by_cases hp : previous.Live p
        · exact .inl ⟨hp, hmissing.gone p (Manifest.mem_livePaths.mpr hp) hnot⟩
        · refine .inr ⟨hp, ?_⟩
          rw [hmissing.kept p (.inl fun hm => hp (Manifest.mem_livePaths.mp hm)),
            hseen.todo p fun hmem => by
              obtain ⟨x, hx, rfl⟩ := List.mem_map.mp hmem
              rw [hlook.mem_seen.mp hx] at hl
              cases hl]
          cases hr : previous.record p with
          | none => rw [(Manifest.record_eq_none_iff.mp hr).2.2.2]; rfl
          | some r =>
              cases r with
              | tombstone t => rw [Manifest.record_tombstone hr]; rfl
              | _ => exact absurd ⟨_, hr, rfl⟩ hp
  · rw [hmissing.changes, hseen.changes]
    constructor
    · rintro ⟨hs, hm⟩ p
      cases hl : look p with
      | some x => exact hs (p, x) (hlook.mem_seen.mpr hl)
      | none =>
          intro hp
          obtain ⟨x, hx⟩ := (hlive p).mp (hm p (Manifest.mem_livePaths.mpr hp))
          rw [hl] at hx
          cases hx
    · intro hall
      refine ⟨fun x hx => ?_, fun p hp => ?_⟩
      · have := hall x.1
        rwa [hlook.mem_seen.mp hx] at this
      · have := hall p
        cases hl : look p with
        | some x => exact (hlive p).mpr ⟨x, hl⟩
        | none =>
            rw [hl] at this
            exact absurd (Manifest.mem_livePaths.mp hp) this

end Run

/-! ## The short way out -/

theorem mapsMatch_lookup {V W : Type} {old : BTreeMap Str V} {new : BTreeMap Str W}
    {test : V → W → Bool} (h : mapsMatch old new test = true) (p : Str) :
    (old[p]? = none ∧ new[p]? = none)
      ∨ ∃ o n, old[p]? = some o ∧ new[p]? = some n ∧ test o n = true := by
  simp only [mapsMatch, Bool.and_eq_true, decide_eq_true_eq, List.all_eq_true, Prod.forall] at h
  obtain ⟨hsize, hall⟩ := h
  have hlen : old.toList.length = new.toList.length := by
    rw [Std.ExtTreeMap.length_toList, Std.ExtTreeMap.length_toList, hsize]
  have hpair : ∀ i (ho : i < old.toList.length) (hn : i < new.toList.length),
      old.toList[i].1 = new.toList[i].1 ∧ test old.toList[i].2 new.toList[i].2 = true :=
    fun i ho hn => hall _ _ _ _ (List.mem_iff_getElem.mpr
      ⟨i, by rw [List.length_zip, ← hlen, min_self]; exact ho, by rw [List.getElem_zip]⟩)
  cases ho : old[p]? with
  | some o =>
      refine .inr ⟨o, ?_⟩
      obtain ⟨i, hi, heq⟩ := List.mem_iff_getElem.mp
        (Std.ExtTreeMap.mem_toList_iff_getElem?_eq_some.mpr ho)
      have hi' := hlen ▸ hi
      obtain ⟨hkey, htest⟩ := hpair i hi hi'
      rw [heq] at hkey htest
      refine ⟨new.toList[i].2, rfl, ?_, htest⟩
      have hmem : (p, new.toList[i].2) ∈ new.toList := by
        rw [show p = new.toList[i].1 from hkey]
        exact List.getElem_mem hi'
      exact Std.ExtTreeMap.mem_toList_iff_getElem?_eq_some.mp hmem
  | none =>
      refine .inl ⟨rfl, ?_⟩
      cases hn : new[p]? with
      | none => rfl
      | some n =>
          obtain ⟨i, hi, heq⟩ := List.mem_iff_getElem.mp
            (Std.ExtTreeMap.mem_toList_iff_getElem?_eq_some.mpr hn)
          have hi' := hlen ▸ hi
          have hkey := (hpair i hi' hi).1
          rw [heq] at hkey
          have hmem : (p, old.toList[i].2) ∈ old.toList := by
            rw [show p = old.toList[i].1 from hkey.symm]
            exact List.getElem_mem hi'
          have := Std.ExtTreeMap.mem_toList_iff_getElem?_eq_some.mp hmem
          rw [ho] at this
          cases this

section Compare

variable {previous : Manifest} {clock : ClockState} {endpointId : EndpointId} {nowMs : U64}
  {unknown : Bool} {discovered : DiscoveredEntries} {look : Str → Option Seen}

/-- A tree that matches needs no loop: every record is retained as it is. -/
theorem rescanned_of_matchesPrevious (hprev : previous.Separated) (hlook : discovered.Sees look)
    (h : matchesPrevious discovered previous unknown = true) :
    Rescanned previous clock endpointId unknown look previous 0 clock := by
  simp only [matchesPrevious, Bool.and_eq_true, decide_eq_true_eq] at h
  obtain ⟨⟨⟨hformat, hfiles⟩, hdirs⟩, hlinks⟩ := h
  have hall : ∀ p, ¬ Changed previous unknown p (look p)
      ∧ Rescans previous unknown (Fresh clock clock endpointId) p (look p) (previous.record p) := by
    intro p
    have hf := mapsMatch_lookup hfiles p
    have hd := mapsMatch_lookup hdirs p
    have hs := mapsMatch_lookup hlinks p
    rw [hlook.files] at hf
    rw [hlook.directories] at hd
    rw [hlook.symlinks] at hs
    cases hl : look p with
    | none =>
        simp only [hl, Option.bind_none, reduceCtorEq, false_and, and_false, exists_false, or_false,
          and_true] at hf hd hs
        have hnot : ¬ previous.Live p := by
          rintro ⟨r, hr, ht⟩
          cases r with
          | file e => rw [Manifest.record_file_iff, hf] at hr; cases hr
          | directory e => rw [hprev.directories_iff, hd] at hr; cases hr
          | symlink e => rw [hprev.symlinks_iff, hs] at hr; cases hr
          | tombstone t => cases ht
        exact ⟨hnot, .inr ⟨hnot, rfl⟩⟩
    | some x =>
        cases x with
        | file f =>
            simp only [hl, Option.bind_some, Seen.file?, reduceCtorEq, and_false, false_or,
              Option.some.injEq, exists_and_left, exists_eq_left'] at hf
            obtain ⟨o, ho, htest⟩ := hf
            simp only [Bool.and_eq_true, decide_eq_true_eq] at htest
            have hr : retained previous unknown p (.file f) = some (.file o) := by
              have hm := htest.1
              simp only [fileMatches, Bool.and_eq_true, decide_eq_true_eq] at hm
              simp [retained, ho, htest.1, ← htest.2, ← hm.1.2]
            exact ⟨by simp [Changed, hr], by
              simp only [Rescans, hr]; exact Manifest.record_file_iff.mpr ho⟩
        | directory d =>
            simp only [hl, Option.bind_some, Seen.directory?, reduceCtorEq, and_false, false_or,
              Option.some.injEq, exists_and_left, exists_eq_left'] at hd
            obtain ⟨o, ho, htest⟩ := hd
            have hr : retained previous unknown p (.directory d) = some (.directory o) := by
              simp [retained, ho, htest]
            exact ⟨by simp [Changed, hr], by
              simp only [Rescans, hr]; exact hprev.directories_iff.mpr ho⟩
        | symlink l =>
            simp only [hl, Option.bind_some, Seen.symlink?, reduceCtorEq, and_false, false_or,
              Option.some.injEq, exists_and_left, exists_eq_left'] at hs
            obtain ⟨o, ho, htest⟩ := hs
            have hr : retained previous unknown p (.symlink l) = some (.symlink o) := by
              simp [retained, ho, htest]
            exact ⟨by simp [Changed, hr], by
              simp only [Rescans, hr]; exact hprev.symlinks_iff.mpr ho⟩
  exact ⟨hprev, le_rfl, rfl, hformat, rfl, fun p => (hall p).2, by simp [hall]⟩

variable [Crypto]

/-- Everything a caller uses of a scan that succeeded. -/
theorem compareWithPrevious_ok {r : ScanResult} (hprev : previous.Valid previous.shareId)
    (hlook : discovered.Sees look)
    (h : compareWithPrevious previous clock endpointId nowMs unknown discovered = .ok r) :
    Rescanned previous clock endpointId unknown look r.manifest r.changes r.clock
      ∧ r.manifest.Valid previous.shareId
      ∧ (r.manifestChanged = false → previous.formatVersion = MANIFEST_FORMAT_VERSION
        ∧ ∀ p, r.manifest.record p = previous.record p) := by
  unfold compareWithPrevious at h
  split at h
  · rename_i hm
    cases h
    have : Rescanned previous clock endpointId unknown look previous 0 clock :=
      rescanned_of_matchesPrevious hprev.separated hlook hm
    exact ⟨this, hprev, fun _ => ⟨this.format, fun _ => rfl⟩⟩
  · simp only [fullDiff, bind_eq_ok] at h
    obtain ⟨s, hs, _, hv, heq⟩ := h
    cases heq
    refine ⟨rescan_ok hprev.separated hlook hs, Manifest.validate_eq_ok.mp hv, fun hch => ?_⟩
    simp only [decide_eq_false_iff_not, not_or, ne_eq, Decidable.not_not] at hch
    refine ⟨hch.1, fun p => ?_⟩
    simp only [Manifest.record, hch.2.1, hch.2.2.1, hch.2.2.2.1, hch.2.2.2.2]

end Compare

/-! ## A scan that finds nothing new -/

theorem Rescans.synced_of_not_changed {previous : Manifest} {unknown : Bool}
    {fresh : HlcTimestamp → Prop} {p : Str} {seen : Option Seen} {new : Option ManifestRecord}
    (hsep : previous.Separated) (h : Rescans previous unknown fresh p seen new)
    (hc : ¬ Changed previous unknown p seen) :
    new.map ManifestRecord.synced = (previous.record p).map ManifestRecord.synced := by
  cases seen with
  | none =>
      rcases h with ⟨hl, -⟩ | ⟨-, rfl⟩
      · exact absurd hl hc
      · rfl
  | some x =>
      obtain ⟨r, hr⟩ := Option.ne_none_iff_exists'.mp hc
      simp only [Rescans, hr] at h
      subst h
      cases retains hr with
      | file hold hm =>
          simp only [fileMatches, Bool.and_eq_true, decide_eq_true_eq] at hm
          rw [Manifest.record_file_iff.mpr hold]
          simp [ManifestRecord.synced, ← hm.1.2]
      | directory hold => rw [hsep.directories_iff.mpr hold]
      | symlink hold => rw [hsep.symlinks_iff.mpr hold]

section Silent

variable {previous : Manifest} {clock : ClockState} {endpointId : EndpointId} {nowMs : U64}
  {unknown : Bool} {discovered : DiscoveredEntries} {look : Str → Option Seen}

/-- Without changes there is no tick, so the loops cannot fail. -/
theorem rescan_of_unchanged (clock : ClockState) (endpointId : EndpointId) (nowMs : U64)
    (hlook : discovered.Sees look)
    (hun : ∀ p, ¬ Changed previous unknown p (look p)) :
    ∃ s, rescan previous clock endpointId nowMs unknown discovered = .ok s := by
  obtain ⟨s₁, h₁⟩ := Check.foldlM_ok
    (f := fun s x => rescanSeen previous endpointId nowMs unknown s x.1 x.2) (l := discovered.seen)
    (fun x hx s => by
      have hc := hun x.1
      rw [hlook.mem_seen.mp hx] at hc
      obtain ⟨r, hr⟩ := Option.ne_none_iff_exists'.mp hc
      exact ⟨_, by rw [rescanSeen, hr]⟩)
    ⟨⟨MANIFEST_FORMAT_VERSION, previous.shareId, nowMs, ∅, ∅, ∅, previous.tombstones⟩, 0, clock⟩
  have hseen := seenDone_of_foldlM hlook seenDone_start h₁
  -- every live path was seen, so the last loop does nothing
  have hstay : ∀ l : List Str, (∀ p ∈ l, previous.Live p) →
      l.foldlM (rescanMissing endpointId nowMs) s₁ = .ok s₁ := by
    intro l
    induction l with
    | nil => intro _; rfl
    | cons p l ih =>
        intro hl
        have hlive : s₁.manifest.Live p := by
          refine (seenDone_live_iff hlook hseen p).mpr (Option.ne_none_iff_exists'.mp fun hnone => ?_)
          have hc := hun p
          rw [hnone] at hc
          exact hc (hl p List.mem_cons_self)
        have hstep : rescanMissing endpointId nowMs s₁ p = .ok s₁ := by
          rw [← Manifest.mem_livePaths] at hlive
          simp only [Manifest.livePaths, List.mem_append, Std.ExtTreeMap.mem_keys] at hlive
          rw [rescanMissing, if_neg fun hno => ?_]
          rcases hlive with (hm | hm) | hm
          · exact hno.1 hm
          · exact hno.2.1 hm
          · exact hno.2.2 hm
        rw [List.foldlM_cons, hstep]
        exact ih fun q hq => hl q (List.mem_cons_of_mem _ hq)
  refine ⟨s₁, ?_⟩
  rw [rescan, bind_eq_ok]
  exact ⟨s₁, h₁, hstay _ fun p hp => Manifest.mem_livePaths.mp hp⟩

variable [Crypto]

theorem fullDiff_of_valid {s : Rescan} (hvalid : s.manifest.Valid previous.shareId)
    (hs : rescan previous clock endpointId nowMs unknown discovered = .ok s) :
    ∃ r, fullDiff previous clock endpointId nowMs unknown discovered = .ok r := by
  simp only [fullDiff, bind_eq_ok]
  exact ⟨_, s, hs, (), Manifest.validate_eq_ok.mpr hvalid, rfl⟩

theorem compareWithPrevious_of_unchanged (clock : ClockState) (endpointId : EndpointId)
    (nowMs : U64) (hprev : previous.Valid previous.shareId) (hlook : discovered.Sees look)
    (hun : ∀ p, ¬ Changed previous unknown p (look p)) :
    ∃ r, compareWithPrevious previous clock endpointId nowMs unknown discovered = .ok r := by
  unfold compareWithPrevious
  split
  · exact ⟨_, rfl⟩
  · obtain ⟨s, hs⟩ := rescan_of_unchanged clock endpointId nowMs hlook hun
    have hre := rescan_ok hprev.separated hlook hs
    have heq : previous.SyncEq s.manifest := fun p =>
      ((hre.rescans p).synced_of_not_changed hprev.separated (hun p)).symm
    have hvalid := heq.valid hprev hre.separated (.inr hre.format) hre.share
    exact fullDiff_of_valid hvalid hs

end Silent

end Syncbox

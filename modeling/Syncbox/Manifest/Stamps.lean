/-
# `Syncbox.Manifest.Stamps` — the versions a scan gives

`Rescans` says for one path at a time that its version is new.  Here the new versions
are taken together: a scan keeps a log of them in its head (`Stamped`), one line for each
tick of the clock, and the log runs through the changed paths in the order of the loops.
So no version is given twice, `changes` is the length of the log, and the clock that
comes out shows its last line.

With that, a scan is described completely (`Scanned`), and the short way out can be held
against the loops it saves: `matchesPrevious` answers yes exactly where they would have
changed nothing.
-/
import Syncbox.Manifest.Rescan

namespace Syncbox

open Rust

/-! ## The log -/

/-- The clock, once it has given a version. -/
def ClockState.showing (c : ClockState) (v : HlcTimestamp) : ClockState :=
  { c with lastWallMs := v.wallMs, lastCounter := v.counter }

theorem ClockState.tick_showing {c c' : ClockState} {nowMs : U64} {author : EndpointId}
    {v : HlcTimestamp} (h : c.tick nowMs author = .ok (v, c')) : c' = c.showing v := by
  have hformat := (ClockState.tick_stamp h).2.2.2
  simp only [ClockState.tick, Check.bind_eq_ok] at h
  obtain ⟨-, -, c₁, -, h⟩ := h
  cases h
  show c' = ⟨c.formatVersion, c'.lastWallMs, c'.lastCounter⟩
  rw [← hformat]

/-- The versions given so far, with their paths, and what they have left behind. -/
structure Stamped (clock : ClockState) (author : EndpointId) (log : List (Str × HlcTimestamp))
    (s : Rescan) : Prop where
  rising : (log.map Prod.snd).Pairwise fun v v' => v.stamp < v'.stamp
  after : ∀ x ∈ log, clock.stamp < x.2.stamp ∧ x.2.stamp ≤ s.clock.stamp ∧ x.2.author = author
  clock : s.clock = (log.getLast?.map Prod.snd).elim clock clock.showing
  changes : s.changes = log.length
  placed : ∀ x ∈ log, (s.manifest.record x.1).map ManifestRecord.version = some x.2

section Log

variable {clock : ClockState} {author : EndpointId} {log : List (Str × HlcTimestamp)} {s s' : Rescan}
  {p : Str} {r : ManifestRecord}

theorem Stamped.nil {manifest : Manifest} : Stamped clock author [] ⟨manifest, 0, clock⟩ where
  rising := .nil
  after := fun _ hx => by cases hx
  clock := rfl
  changes := rfl
  placed := fun _ hx => by cases hx

theorem Stamped.placed_elsewhere (h : Stamped clock author log s) (hp : p ∉ log.map Prod.fst)
    (hrec : ∀ q, s'.manifest.record q = if p = q then some r else s.manifest.record q) :
    ∀ x ∈ log, (s'.manifest.record x.1).map ManifestRecord.version = some x.2 := by
  intro x hx
  have hne : p ≠ x.1 := by
    rintro rfl
    exact hp (List.mem_map_of_mem hx)
  rw [hrec, if_neg hne]
  exact h.placed x hx

theorem Stamped.keep (h : Stamped clock author log s) (hp : p ∉ log.map Prod.fst)
    (hclock : s'.clock = s.clock) (hchanges : s'.changes = s.changes)
    (hrec : ∀ q, s'.manifest.record q = if p = q then some r else s.manifest.record q) :
    Stamped clock author log s' where
  rising := h.rising
  after := by rw [hclock]; exact h.after
  clock := hclock.trans h.clock
  changes := hchanges.trans h.changes
  placed := h.placed_elsewhere hp hrec

theorem Stamped.tick {nowMs : U64} {v : HlcTimestamp} (h : Stamped clock author log s)
    (hp : p ∉ log.map Prod.fst) (hlater : clock.stamp ≤ s.clock.stamp)
    (htick : s.clock.tick nowMs author = .ok (v, s'.clock)) (hchanges : s'.changes = s.changes + 1)
    (hrec : ∀ q, s'.manifest.record q = if p = q then some r else s.manifest.record q)
    (hr : r.version = v) : Stamped clock author (log ++ [(p, v)]) s' := by
  obtain ⟨hlt, hstamp, hauthor, -⟩ := ClockState.tick_stamp htick
  constructor
  case rising =>
    rw [List.map_append, List.pairwise_append]
    refine ⟨h.rising, List.pairwise_singleton _ _, fun v₁ hv₁ v₂ hv₂ => ?_⟩
    obtain ⟨x, hx, rfl⟩ := List.mem_map.mp hv₁
    cases List.mem_singleton.mp hv₂
    show x.2.stamp < v.stamp
    rw [hstamp]
    exact (h.after x hx).2.1.trans_lt hlt
  case after =>
    intro x hx
    rcases List.mem_append.mp hx with hx | hx
    · obtain ⟨hafter, hupTo, hx⟩ := h.after x hx
      exact ⟨hafter, hupTo.trans hlt.le, hx⟩
    · cases List.mem_singleton.mp hx
      exact ⟨hstamp ▸ hlater.trans_lt hlt, hstamp.le, hauthor⟩
  case clock =>
    rw [List.getLast?_concat, ClockState.tick_showing htick, h.clock]
    cases log.getLast? <;> rfl
  case changes =>
    rw [hchanges, h.changes, List.length_append, List.length_singleton]
  case placed =>
    intro x hx
    rcases List.mem_append.mp hx with hx | hx
    · exact h.placed_elsewhere hp hrec x hx
    · cases List.mem_singleton.mp hx
      rw [hrec, if_pos rfl]
      exact congrArg some hr

end Log

/-! ## The log of a scan -/

/-- A path that was there before as the same kind of thing, with content and permissions that
match what is there now. -/
def kept (previous : Manifest) (unknown : Bool) (discovered : DiscoveredEntries) (p : Str) : Bool :=
  (match previous.entries[p]?, discovered.files[p]? with
    | some old, some f => fileMatches unknown old f
    | _, _ => false)
  || (match previous.directories[p]?, discovered.directories[p]? with
    | some old, some d => directoryMatches unknown old d
    | _, _ => false)
  || match previous.symlinks[p]?, discovered.symlinks[p]? with
    | some old, some l => symlinkMatches old l
    | _, _ => false

/-- What was discovered, in the order of the loops. -/
def DiscoveredEntries.paths (discovered : DiscoveredEntries) : List Str :=
  discovered.files.keys ++ discovered.directories.keys ++ discovered.symlinks.keys

/-- The paths that get a new version: what is new or changed, then what is gone. -/
def changedPaths (previous : Manifest) (unknown : Bool) (discovered : DiscoveredEntries) : List Str :=
  (discovered.paths.filter fun p => !kept previous unknown discovered p)
    ++ previous.livePaths.filter fun p => p ∉ discovered.paths

/-- No path is two things at once. -/
structure DiscoveredEntries.Disjoint (discovered : DiscoveredEntries) : Prop where
  file_directory : ∀ {p}, p ∈ discovered.files → p ∉ discovered.directories
  file_symlink : ∀ {p}, p ∈ discovered.files → p ∉ discovered.symlinks
  directory_symlink : ∀ {p}, p ∈ discovered.directories → p ∉ discovered.symlinks

/-- What was discovered at a path. -/
def DiscoveredEntries.look (discovered : DiscoveredEntries) (p : Str) : Option Seen :=
  match discovered.files[p]?, discovered.directories[p]?, discovered.symlinks[p]? with
  | some f, _, _ => some (.file f)
  | none, some d, _ => some (.directory d)
  | none, none, some l => some (.symlink l)
  | none, none, none => none

theorem DiscoveredEntries.Disjoint.sees {discovered : DiscoveredEntries} (h : discovered.Disjoint) :
    discovered.Sees discovered.look := by
  have hfd := @h.file_directory
  have hfs := @h.file_symlink
  have hds := @h.directory_symlink
  simp only [mem_iff_lookup] at hfd hfs hds
  constructor <;> intro p <;> simp only [DiscoveredEntries.look] <;>
    rcases hf : discovered.files[p]? with _ | f <;>
    rcases hd : discovered.directories[p]? with _ | d <;>
    rcases hs : discovered.symlinks[p]? with _ | l <;>
    simp_all [Seen.file?, Seen.directory?, Seen.symlink?]

section Scan

variable {previous : Manifest} {clock : ClockState} {endpointId : EndpointId} {nowMs : U64}
  {unknown : Bool} {discovered : DiscoveredEntries} {look : Str → Option Seen}

theorem map_fst_seen : discovered.seen.map Prod.fst = discovered.paths := by
  simp [DiscoveredEntries.seen, DiscoveredEntries.paths, Function.comp_def,
    Std.ExtTreeMap.map_fst_toList_eq_keys]

theorem mem_paths_iff (hlook : discovered.Sees look) {p : Str} :
    p ∈ discovered.paths ↔ ∃ x, look p = some x := by
  rw [← map_fst_seen, List.mem_map]
  constructor
  · rintro ⟨x, hx, rfl⟩
    exact ⟨x.2, hlook.mem_seen.mp hx⟩
  · rintro ⟨x, hx⟩
    exact ⟨(p, x), hlook.mem_seen.mpr hx, rfl⟩

theorem kept_iff (hlook : discovered.Sees look) {p : Str} {x : Seen} (hx : look p = some x) :
    kept previous unknown discovered p = (retained previous unknown p x).isSome := by
  unfold kept
  rw [hlook.files, hlook.directories, hlook.symlinks, hx]
  cases x with
  | file f => rcases ho : previous.entries[p]? with _ | o <;>
      simp [retained, Seen.file?, Seen.directory?, Seen.symlink?, ho, Option.isSome_filter]
  | directory d => rcases ho : previous.directories[p]? with _ | o <;>
      simp [retained, Seen.file?, Seen.directory?, Seen.symlink?, ho, Option.isSome_filter]
  | symlink l => rcases ho : previous.symlinks[p]? with _ | o <;>
      simp [retained, Seen.file?, Seen.directory?, Seen.symlink?, ho, Option.isSome_filter]

/-- The lines of the log that belong to what was seen. -/
def loggedSeen (previous : Manifest) (unknown : Bool) (done : List (Str × Seen)) : List Str :=
  (done.filter fun x => (retained previous unknown x.1 x.2).isNone).map Prod.fst

theorem loggedSeen_seen (hlook : discovered.Sees look) :
    loggedSeen previous unknown discovered.seen
      = discovered.paths.filter fun p => !kept previous unknown discovered p := by
  rw [← map_fst_seen, List.filter_map, loggedSeen]
  refine congrArg (List.map Prod.fst) (List.filter_congr fun x hx => ?_)
  show _ = !kept previous unknown discovered x.1
  rw [kept_iff hlook (hlook.mem_seen.mp hx)]
  cases retained previous unknown x.1 x.2 <;> rfl

theorem loggedSeen_subset {done : List (Str × Seen)} :
    loggedSeen previous unknown done ⊆ done.map Prod.fst := by
  intro p hp
  obtain ⟨x, hx, rfl⟩ := List.mem_map.mp hp
  exact List.mem_map_of_mem (List.mem_of_mem_filter hx)

/-- One step of the first three loops, and its line in the log. -/
theorem rescanSeen_stamped {done : List (Str × Seen)} {s s' : Rescan} {x : Str × Seen}
    {log : List (Str × HlcTimestamp)} (hI : SeenDone previous clock endpointId unknown done s)
    (hx : x.1 ∉ done.map Prod.fst) (hlog : Stamped clock endpointId log s)
    (hpaths : log.map Prod.fst = loggedSeen previous unknown done)
    (h : rescanSeen previous endpointId nowMs unknown s x.1 x.2 = .ok s') :
    ∃ log', Stamped clock endpointId log' s'
      ∧ log'.map Prod.fst = loggedSeen previous unknown (done ++ [x]) := by
  have hnew : x.1 ∉ log.map Prod.fst := by
    rw [hpaths]
    exact fun hmem => hx (loggedSeen_subset hmem)
  unfold rescanSeen at h
  cases hr : retained previous unknown x.1 x.2 with
  | some r =>
      rw [hr] at h
      cases h
      have hrec : ∀ q, (s.manifest.place x.1 r).record q
          = if x.1 = q then some r else s.manifest.record q :=
        (hI.running.separated.holds.place (fun _ => hI.free hx) r).record_eq
      exact ⟨log, hlog.keep hnew rfl rfl hrec, by simp [loggedSeen, hpaths, hr]⟩
  | none =>
      rw [hr] at h
      obtain ⟨v, htick, hchanges, hm⟩ := Rescan.author_tick h
      obtain ⟨hlt, -, -, hformat⟩ := ClockState.tick_stamp htick
      have hrec := (hI.running.place (fun _ => hI.free hx) hm hlt.le hformat).2
      refine ⟨log ++ [(x.1, v)], hlog.tick hnew hI.running.later htick hchanges hrec ?_, ?_⟩
      · cases x.2 <;> rfl
      · simp [loggedSeen, hpaths, hr]

theorem rescanMissing_stamped {done : List Str} {s₁ s s' : Rescan} {p : Str} {seen : List Str}
    {log : List (Str × HlcTimestamp)} (hI : MissingDone previous clock endpointId s₁ done s)
    (hp : p ∉ done) (hseen : ∀ q ∈ seen, s₁.manifest.Live q) (hlog : Stamped clock endpointId log s)
    (hpaths : log.map Prod.fst = seen ++ done.filter fun q => q ∉ s₁.manifest.livePaths)
    (h : rescanMissing endpointId nowMs s p = .ok s') :
    ∃ log', Stamped clock endpointId log' s'
      ∧ log'.map Prod.fst = seen ++ (done ++ [p]).filter fun q => q ∉ s₁.manifest.livePaths := by
  unfold rescanMissing at h
  by_cases hl : s₁.manifest.Live p
  · rw [if_neg fun hc => not_live_iff.mp hc ((hI.live_iff hp).mpr hl)] at h
    cases h
    exact ⟨log, hlog, by simp [hpaths, Manifest.mem_livePaths, hl]⟩
  · have hgone : ¬ s.manifest.Live p := fun hc => hl ((hI.live_iff hp).mp hc)
    rw [if_pos (not_live_iff.mpr hgone)] at h
    obtain ⟨v, htick, hchanges, hm⟩ := Rescan.author_tick h
    obtain ⟨hlt, -, -, hformat⟩ := ClockState.tick_stamp htick
    have hrec := (hI.running.place (fun _ => isTombstone_of_not_live hgone) hm hlt.le hformat).2
    have hnew : p ∉ log.map Prod.fst := by
      rw [hpaths, List.mem_append]
      rintro (hmem | hmem)
      · exact hl (hseen p hmem)
      · exact hp (List.mem_of_mem_filter hmem)
    exact ⟨log ++ [(p, v)], hlog.tick hnew hI.running.later htick hchanges hrec rfl, by
      simp [hpaths, Manifest.mem_livePaths, hl]⟩

/-- The four loops give versions to the changed paths, in their order. -/
theorem rescan_stamped {s : Rescan} (hprev : previous.Separated) (hlook : discovered.Sees look)
    (h : rescan previous clock endpointId nowMs unknown discovered = .ok s) :
    ∃ log, Stamped clock endpointId log s
      ∧ log.map Prod.fst = changedPaths previous unknown discovered := by
  simp only [rescan, Check.bind_eq_ok] at h
  obtain ⟨s₁, h₁, h₂⟩ := h
  have hfirst := Check.foldlM_inv (I := fun done s => SeenDone previous clock endpointId unknown done s
      ∧ ∃ log, Stamped clock endpointId log s ∧ log.map Prod.fst = loggedSeen previous unknown done)
    ⟨seenDone_start, [], .nil, rfl⟩ h₁ (by
      rintro pre x post b b' heq ⟨hI, log, hlog, hpaths⟩ hstep
      have hx : x.1 ∉ pre.map Prod.fst := by
        intro hmem
        have hnodup := hlook.seen_paths
        rw [heq, List.map_append, List.map_cons, List.nodup_append] at hnodup
        exact hnodup.2.2 x.1 hmem x.1 List.mem_cons_self rfl
      exact ⟨rescanSeen_ok hI hx hstep, rescanSeen_stamped hI hx hlog hpaths hstep⟩)
  obtain ⟨hseen, log₁, hlog₁, hpaths₁⟩ := hfirst
  rw [loggedSeen_seen hlook] at hpaths₁
  have hlive := seenDone_live_iff hlook hseen
  have hlast := Check.foldlM_inv (I := fun done s => MissingDone previous clock endpointId s₁ done s
      ∧ ∃ log, Stamped clock endpointId log s ∧ log.map Prod.fst
        = (discovered.paths.filter fun p => !kept previous unknown discovered p)
          ++ done.filter fun q => q ∉ s₁.manifest.livePaths)
    ⟨⟨hseen.running, le_rfl, by simp, fun _ _ => rfl, by simp⟩, log₁, hlog₁, by simp [hpaths₁]⟩ h₂ (by
      rintro pre p post b b' heq ⟨hI, log, hlog, hpaths⟩ hstep
      have hp : p ∉ pre := by
        intro hmem
        have hnodup := nodup_livePaths hprev
        rw [heq, List.nodup_append] at hnodup
        exact hnodup.2.2 p hmem p List.mem_cons_self rfl
      refine ⟨rescanMissing_ok hI hp hstep, rescanMissing_stamped hI hp (fun q hq => ?_) hlog hpaths hstep⟩
      exact (hlive q).mpr ((mem_paths_iff hlook).mp (List.mem_of_mem_filter hq)))
  obtain ⟨-, log, hlog, hpaths⟩ := hlast
  refine ⟨log, hlog, ?_⟩
  rw [hpaths, changedPaths]
  congr 1
  refine List.filter_congr fun p _ => ?_
  rw [decide_eq_decide, Manifest.mem_livePaths, hlive, mem_paths_iff hlook]

/-! ## The result of a scan -/

/-- The version recorded at a path. -/
def Manifest.version? (m : Manifest) (p : Str) : Option HlcTimestamp :=
  (m.record p).map ManifestRecord.version

/-- Size, digest and modification time. -/
def ManifestEntry.data (e : ManifestEntry) : U64 × Str × U64 := (e.size, e.sha256, e.modifiedAtNs)

@[inherit_doc ManifestEntry.data]
def DiscoveredFile.data (f : DiscoveredFile) : U64 × Str × U64 := (f.size, f.sha256, f.modifiedAtNs)

/-- What a scan returns, where `fresh` are the versions it gave. -/
structure Scanned (previous : Manifest) (clock : ClockState) (endpointId : EndpointId)
    (unknown : Bool) (discovered : DiscoveredEntries) (fresh : Str → HlcTimestamp)
    (manifest : Manifest) (changes : Nat) (clock' : ClockState) : Prop where
  files : ∀ p : Str, manifest.entries[p]?.map ManifestEntry.data
    = discovered.files[p]?.map DiscoveredFile.data
  directories : ∀ p : Str, p ∈ manifest.directories ↔ p ∈ discovered.directories
  symlinks : ∀ p : Str, manifest.symlinks[p]?.map SymlinkEntry.target
    = discovered.symlinks[p]?.map DiscoveredSymlink.target
  versions : ∀ p ∈ discovered.paths, manifest.version? p
    = if kept previous unknown discovered p then previous.version? p else some (fresh p)
  tombstones : ∀ p : Str, manifest.tombstones[p]? =
    if p ∈ discovered.paths then none
    else if p ∈ previous.livePaths then some ⟨fresh p⟩
    else previous.tombstones[p]?
  rising : ((changedPaths previous unknown discovered).map fresh).Pairwise
    fun v v' => v.stamp < v'.stamp
  after : ∀ p ∈ changedPaths previous unknown discovered,
    clock.stamp < (fresh p).stamp ∧ (fresh p).author = endpointId
  changes : changes = (changedPaths previous unknown discovered).length
  clock : clock' = ((changedPaths previous unknown discovered).getLast?.map fresh).elim clock
    clock.showing

section Shown

variable {fresh : HlcTimestamp → Prop} {p : Str} {seen : Option Seen} {new : Option ManifestRecord}

/-- The record that takes the place of what is seen is of its kind and shows its data. -/
theorem Rescans.shows (h : Rescans previous unknown fresh p seen new) :
    (new.bind ManifestRecord.file?).map ManifestEntry.data
        = (seen.bind Seen.file?).map DiscoveredFile.data
      ∧ (new.bind ManifestRecord.directory?).isSome = (seen.bind Seen.directory?).isSome
      ∧ (new.bind ManifestRecord.symlink?).map SymlinkEntry.target
        = (seen.bind Seen.symlink?).map DiscoveredSymlink.target := by
  cases seen with
  | none =>
      rcases h with ⟨-, v, -, rfl⟩ | ⟨hl, rfl⟩
      · exact ⟨rfl, rfl, rfl⟩
      · cases hr : previous.record p with
        | none => exact ⟨rfl, rfl, rfl⟩
        | some r =>
            have ht := isTombstone_of_not_live hl hr
            cases r with
            | tombstone t => exact ⟨rfl, rfl, rfl⟩
            | _ => cases ht
  | some x =>
      simp only [Rescans] at h
      cases hr : retained previous unknown p x with
      | none =>
          rw [hr] at h
          obtain ⟨v, -, rfl⟩ := h
          cases x <;> exact ⟨rfl, rfl, rfl⟩
      | some r =>
          rw [hr] at h
          subst h
          cases retains hr with
          | @file old f _ hm =>
              simp only [fileMatches, Bool.and_eq_true, decide_eq_true_eq] at hm
              refine ⟨?_, rfl, rfl⟩
              show some (old.size, f.sha256, f.modifiedAtNs) = some (f.size, f.sha256, f.modifiedAtNs)
              rw [hm.1.1]
          | directory => exact ⟨rfl, rfl, rfl⟩
          | symlink _ hm => exact ⟨rfl, rfl, congrArg some (by simpa [symlinkMatches] using hm)⟩

theorem retained_version {x : Seen} {r : ManifestRecord} (hsep : previous.Separated)
    (h : retained previous unknown p x = some r) : previous.version? p = some r.version := by
  unfold Manifest.version?
  cases retains h with
  | file hold =>
      rw [Manifest.record_file_iff.mpr hold]
      rfl
  | directory hold =>
      rw [hsep.directories_iff.mpr hold]
      rfl
  | symlink hold =>
      rw [hsep.symlinks_iff.mpr hold]
      rfl

theorem Rescans.version_of_retained {x : Seen} (hsep : previous.Separated)
    (h : Rescans previous unknown fresh p (some x) new)
    (hr : (retained previous unknown p x).isSome = true) :
    new.map ManifestRecord.version = previous.version? p := by
  obtain ⟨r, hr⟩ := Option.isSome_iff_exists.mp hr
  simp only [Rescans, hr] at h
  rw [h, retained_version hsep hr]
  rfl

theorem Rescans.not_tombstone {x : Seen} (h : Rescans previous unknown fresh p (some x) new) :
    new.bind ManifestRecord.tombstone? = none := by
  simp only [Rescans] at h
  cases hr : retained previous unknown p x with
  | some r =>
      rw [hr] at h
      have hlive := retained_isTombstone hr
      rw [h]
      cases r with
      | tombstone t => cases hlive
      | _ => rfl
  | none =>
      rw [hr] at h
      obtain ⟨v, -, rfl⟩ := h
      cases x <;> rfl

theorem mem_changedPaths (hlook : discovered.Sees look)
    (hchanged : Changed previous unknown p (look p)) : p ∈ changedPaths previous unknown discovered := by
  cases hx : look p with
  | some x =>
      rw [hx] at hchanged
      refine List.mem_append_left _ (List.mem_filter.mpr ⟨(mem_paths_iff hlook).mpr ⟨x, hx⟩, ?_⟩)
      rw [kept_iff hlook hx, show retained previous unknown p x = none from hchanged]
      rfl
  | none =>
      rw [hx] at hchanged
      have hp : p ∉ discovered.paths := by
        rw [mem_paths_iff hlook, hx]
        simp
      exact List.mem_append_right _ (by simp [Manifest.mem_livePaths.mpr hchanged, hp])

end Shown

theorem scanned_of_log {manifest : Manifest} {changes : Nat} {clock' : ClockState}
    {log : List (Str × HlcTimestamp)} (hprev : previous.Separated) (hlook : discovered.Sees look)
    (hre : Rescanned previous clock endpointId unknown look manifest changes clock')
    (hlog : Stamped clock endpointId log ⟨manifest, changes, clock'⟩)
    (hpaths : log.map Prod.fst = changedPaths previous unknown discovered) :
    ∃ fresh, Scanned previous clock endpointId unknown discovered fresh manifest changes clock' := by
  let fresh : Str → HlcTimestamp := fun p => (manifest.version? p).getD ⟨0, 0, endpointId⟩
  have hfresh : ∀ x ∈ log, fresh x.1 = x.2 := by
    intro x hx
    show (manifest.version? x.1).getD _ = x.2
    rw [Manifest.version?, hlog.placed x hx]
    rfl
  have hlines : (changedPaths previous unknown discovered).map fresh = log.map Prod.snd := by
    rw [← hpaths, List.map_map]
    exact List.map_congr_left hfresh
  have hlisted : ∀ p ∈ changedPaths previous unknown discovered, ∃ x ∈ log, x.1 = p := by
    intro p hp
    rw [← hpaths] at hp
    exact List.mem_map.mp hp
  have hstamped : ∀ {p}, Changed previous unknown p (look p) →
      manifest.version? p = some (fresh p) := by
    intro p hchanged
    obtain ⟨x, hx, rfl⟩ := hlisted p (mem_changedPaths hlook hchanged)
    rw [hfresh x hx, Manifest.version?, hlog.placed x hx]
  have hholds := hre.separated.holds
  refine ⟨fresh, ?_, ?_, ?_, ?_, ?_, ?_, ?_, ?_, ?_⟩
  · intro p
    rw [hholds.entries, hlook.files]
    exact (hre.rescans p).shows.1
  · intro p
    rw [Std.ExtTreeMap.mem_iff_isSome_getElem?, Std.ExtTreeMap.mem_iff_isSome_getElem?,
      hholds.directories, hlook.directories, (hre.rescans p).shows.2.1]
  · intro p
    rw [hholds.symlinks, hlook.symlinks]
    exact (hre.rescans p).shows.2.2
  · intro p hp
    obtain ⟨x, hx⟩ := (mem_paths_iff hlook).mp hp
    rw [kept_iff hlook hx]
    split
    · rename_i hr
      exact (hx ▸ hre.rescans p :).version_of_retained hprev hr
    · rename_i hr
      exact hstamped (by rw [hx]; exact Option.not_isSome_iff_eq_none.mp hr)
  · intro p
    have hrescans := hre.rescans p
    rw [hholds.tombstones]
    by_cases hp : p ∈ discovered.paths
    · obtain ⟨x, hx⟩ := (mem_paths_iff hlook).mp hp
      rw [if_pos hp]
      exact (hx ▸ hrescans :).not_tombstone
    · have hnone : look p = none := by
        by_contra hne
        exact hp ((mem_paths_iff hlook).mpr (Option.ne_none_iff_exists'.mp hne))
      rw [if_neg hp]
      rw [hnone] at hrescans
      rcases hrescans with ⟨hl, v, -, hnew⟩ | ⟨hl, hnew⟩
      · have hv := hstamped (hnone ▸ hl : Changed previous unknown p (look p))
        rw [if_pos (Manifest.mem_livePaths.mpr hl), hnew]
        rw [Manifest.version?, hnew] at hv
        exact congrArg (fun v => some (Tombstone.mk v)) (Option.some.inj hv)
      · rw [if_neg fun hmem => hl (Manifest.mem_livePaths.mp hmem), hnew, hprev.holds.tombstones]
  · rw [hlines]
    exact hlog.rising
  · intro p hp
    obtain ⟨x, hx, rfl⟩ := hlisted p hp
    obtain ⟨hafter, -, hauthor⟩ := hlog.after x hx
    rw [hfresh x hx]
    exact ⟨hafter, hauthor⟩
  · rw [← hpaths, List.length_map]
    exact hlog.changes
  · rw [← List.getLast?_map, hlines, List.getLast?_map]
    exact hlog.clock

theorem changedPaths_eq_nil (hlook : discovered.Sees look)
    (h : ∀ p, ¬ Changed previous unknown p (look p)) : changedPaths previous unknown discovered = [] := by
  refine List.append_eq_nil_iff.mpr ⟨List.filter_eq_nil_iff.mpr fun p hp => ?_,
    List.filter_eq_nil_iff.mpr fun p hp => ?_⟩
  · obtain ⟨x, hx⟩ := (mem_paths_iff hlook).mp hp
    have hnot := h p
    rw [hx] at hnot
    rw [kept_iff hlook hx, Option.isSome_iff_ne_none.mpr hnot]
    exact Bool.false_ne_true
  · rw [decide_eq_true_eq, not_not, mem_paths_iff hlook]
    have hnot := h p
    cases hl : look p with
    | some x => exact ⟨x, rfl⟩
    | none =>
        rw [hl] at hnot
        exact absurd (Manifest.mem_livePaths.mp hp) hnot

variable [Crypto]

/-- What follows the discovery, on the short way as well as through the loops. -/
theorem compareWithPrevious_scanned {r : ScanResult} (hprev : previous.Valid previous.shareId)
    (hlook : discovered.Sees look)
    (h : compareWithPrevious previous clock endpointId nowMs unknown discovered = .ok r) :
    ∃ fresh, Scanned previous clock endpointId unknown discovered fresh r.manifest r.changes
      r.clock := by
  have hre := (compareWithPrevious_ok hprev hlook h).1
  unfold compareWithPrevious at h
  split at h
  · cases h
    exact scanned_of_log hprev.separated hlook hre .nil
      (changedPaths_eq_nil hlook (hre.changes.mp rfl)).symm
  · simp only [fullDiff, Check.bind_eq_ok] at h
    obtain ⟨s, hs, _, -, heq⟩ := h
    cases heq
    obtain ⟨log, hlog, hpaths⟩ := rescan_stamped hprev.separated hlook hs
    exact scanned_of_log hprev.separated hlook hre hlog hpaths

end Scan

end Syncbox

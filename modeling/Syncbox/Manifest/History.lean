/-
# `Syncbox.Manifest.History` — scans of a tree that changes

A path that was ever recorded stays recorded: when it is gone, a tombstone takes its place,
and nothing removes a tombstone but the path coming back.  So after any number of scans
the manifest has a record for every path that was ever seen (`scan_step`), and the
validator, which counts all records, refuses the scan at which their number passes
`MAX_MANIFEST_ENTRIES` — although the discovery, which counts what is there, lets it
through.
-/
import Syncbox.Manifest.Tour

namespace Syncbox

open Rust Unix Prog Check

/-! ## The clock holds out -/

/-- The clock can give `n` versions at this time. -/
def CanTick (c : ClockState) (nowMs : U64) (n : Nat) : Prop :=
  c.formatVersion = FORMAT_VERSION
    ∧ (c.lastWallMs < nowMs ∧ n ≤ 2 ^ 32 ∨ c.lastWallMs = nowMs ∧ c.lastCounter.val + n < 2 ^ 32)

namespace CanTick

variable {c : ClockState} {nowMs : U64} {n m : Nat}

theorem mono (h : CanTick c nowMs n) (hm : m ≤ n) : CanTick c nowMs m := by
  refine ⟨h.1, h.2.imp (fun hw => ⟨hw.1, hm.trans hw.2⟩) fun hw => ⟨hw.1, ?_⟩⟩
  omega

theorem le (h : CanTick c nowMs n) : c.lastWallMs ≤ nowMs :=
  h.2.elim (fun hw => hw.1.le) fun hw => hw.1.le

theorem tick (h : CanTick c nowMs (n + 1)) (author : EndpointId) :
    ∃ v c', c.tick nowMs author = .ok (v, c') ∧ CanTick c' nowMs n := by
  obtain ⟨hformat, hw⟩ := h
  have hvalid : c.validate = .ok () := by
    rw [ClockState.validate, rejectIf_eq_ok]
    exact fun hne => hne hformat
  unfold ClockState.tick
  rw [hvalid]
  rcases hw with ⟨hlt, hn⟩ | ⟨heq, hn⟩
  · refine ⟨⟨nowMs, 0, author⟩, { c with lastWallMs := nowMs, lastCounter := 0 }, ?_, hformat,
      .inr ⟨rfl, ?_⟩⟩
    · rw [ClockState.advance, if_pos hlt]
      rfl
    · show (0 : U32).val + n < 2 ^ 32
      simp only [Fin.val_zero]
      omega
  · have hadd : checkedAddOne c.lastCounter = some ⟨c.lastCounter.val + 1, by omega⟩ :=
      dif_pos (by omega)
    refine ⟨⟨c.lastWallMs, ⟨c.lastCounter.val + 1, by omega⟩, author⟩, { c with lastCounter := ⟨c.lastCounter.val + 1, by omega⟩ }, ?_, hformat,
      .inr ⟨heq, ?_⟩⟩
    · rw [ClockState.advance, if_neg (by rw [heq]; exact lt_irrefl _), ClockState.bump, hadd]
      rfl
    · show c.lastCounter.val + 1 + n < 2 ^ 32
      omega

end CanTick

theorem Rescan.author_canTick {s : Rescan} {endpointId : EndpointId} {nowMs : U64} {n : Nat}
    (h : CanTick s.clock nowMs (n + 1)) (p : Str) (record : HlcTimestamp → ManifestRecord) :
    ∃ s', s.author endpointId nowMs p record = .ok s' ∧ CanTick s'.clock nowMs n := by
  obtain ⟨v, c', htick, hc'⟩ := h.tick endpointId
  exact ⟨⟨_, _, c'⟩, by rw [Rescan.author, htick]; rfl, hc'⟩

section Rescan

variable {previous : Manifest} {clock : ClockState} {endpointId : EndpointId} {nowMs : U64}
  {unknown : Bool} {discovered : DiscoveredEntries} {n : Nat}

theorem rescan_of_canTick
    (h : CanTick clock nowMs (discovered.seen.length + (previous.livePaths.length + n))) :
    ∃ s, rescan previous clock endpointId nowMs unknown discovered = .ok s
      ∧ CanTick s.clock nowMs n := by
  exact rescan_budget (P := fun s n => CanTick s.clock nowMs n)
    (fun _ _ _ _ n _ h => h.mono (Nat.le_succ n)) (fun _ n h => h.mono (Nat.le_succ n))
    (fun _ p _ _ _ h => Rescan.author_canTick h p _) h

end Rescan

/-! ## The result is valid but for its size -/

/-- The paths of the files, directories and links of a tree. -/
def treePaths (d : Disk) (root : Loc) : List Str :=
  ((d.below root).filter fun x => x.2 ≠ .special).map fun x => join x.1

section Result

variable [Crypto] {h : Host} {d : Disk} {root : Loc} {previous : Manifest} {unknown : Bool}
  {clock clock' : ClockState} {endpointId : EndpointId} {manifest : Manifest} {changes : Nat}

theorem look_isSome_iff {p : Str} : (look previous unknown d root p).isSome
    ↔ ∃ node, d.get (root ++ split p) = some node ∧ node ≠ .special := by
  unfold look
  cases d.get (root ++ split p) with
  | none => simp
  | some node => cases node <;> simp [describe]

theorem look_isSome_iff_mem (previous : Manifest) (unknown : Bool) {p : Str} :
    (look previous unknown d root p).isSome ↔ p ∈ treePaths d root := by
  rw [look_isSome_iff, treePaths, List.mem_map]
  constructor
  · rintro ⟨node, hget, hne⟩
    exact ⟨(split p, node), List.mem_filter.mpr ⟨Disk.mem_below.mpr ⟨split_ne_nil p, hget⟩,
      by simpa using hne⟩, join_split p⟩
  · rintro ⟨⟨loc, node⟩, hmem, rfl⟩
    obtain ⟨hbelow, hne⟩ := List.mem_filter.mp hmem
    obtain ⟨hloc, hget⟩ := Disk.mem_below.mp hbelow
    rw [split_join_of_isFileName
      (fun part hp => Disk.isFileName_of_get hget part (List.mem_append_right _ hp)) hloc]
    exact ⟨node, hget, by simpa using hne⟩

omit [Crypto] in
theorem Rescans.isSome_iff {fresh : HlcTimestamp → Prop} {p : Str} {seen : Option Seen}
    {new : Option ManifestRecord} (hr : Rescans previous unknown fresh p seen new) :
    new.isSome ↔ seen.isSome ∨ (previous.record p).isSome := by
  cases seen with
  | none =>
      rcases hr with ⟨⟨r, hrec, -⟩, v, -, rfl⟩ | ⟨-, rfl⟩
      · simp [hrec]
      · simp
  | some x =>
      simp only [Rescans] at hr
      cases hret : retained previous unknown p x with
      | some r =>
          rw [hret] at hr
          simp [hr]
      | none =>
          rw [hret] at hr
          obtain ⟨v, -, rfl⟩ := hr
          simp

omit [Crypto] in
theorem validatePermissions_fromMetadata (node : Node) :
    validatePermissions (permissionsFromMetadata node) = .ok () := by
  rw [validatePermissions, rejectIf_eq_ok, permissionsFromMetadata]
  have := node.mode.isLt
  simp only [Option.any_some, BitVec.toNat_setWidth, decide_eq_true_eq]
  omega

theorem authored_validates {p : Str} {node : Node} {x : Seen} {v : HlcTimestamp}
    (hprev : previous.Valid previous.shareId) (hx : describe previous unknown p node = some x)
    (hlink : ∀ target, node = .symlink target → validateSymlinkTarget target = .ok ())
    (hv : validateTimestamp v = .ok ()) : (authored previous p v x).validate = .ok () := by
  cases node with
  | special => cases hx
  | symlink target =>
      cases hx
      show SymlinkEntry.validate ⟨target, v⟩ = .ok ()
      rw [SymlinkEntry.validate, hlink target rfl]
      exact hv
  | dir mode =>
      cases hx
      show DirectoryEntry.validate ⟨_, v⟩ = .ok ()
      rw [DirectoryEntry.validate, selectedPermissions, validatePermissions_fromMetadata]
      exact hv
  | file content mode mtime =>
      cases hx
      show ManifestEntry.validate ⟨_, _, _, _, v⟩ = .ok ()
      simp only [ManifestEntry.validate, selectedPermissions, bind_eq_ok, rejectIf_eq_ok,
        exists_const]
      unfold describeFile
      cases hk : previous.entries[p]?.filter (stillDescribes (.file content mode mtime) unknown) with
      | some old =>
          obtain ⟨hold, -⟩ := Option.filter_eq_some_iff.mp hk
          have hvalid : ManifestEntry.validate old = .ok () :=
            hprev.record_valid (Manifest.record_file_iff.mpr hold)
          simp only [ManifestEntry.validate, bind_eq_ok, rejectIf_eq_ok,
            exists_const] at hvalid
          obtain ⟨hshape, u, hpermissions, -⟩ := hvalid
          exact ⟨hshape, u, hpermissions, hv⟩
      | none =>
          obtain ⟨hlen, hhex⟩ := sha256Hex_shape content.val
          refine ⟨?_, (), validatePermissions_fromMetadata _, hv⟩
          rintro (hne | hne)
          · exact hne hlen
          · rw [hhex] at hne
            cases hne

namespace Rescanned

variable {p a : Str} {r : ManifestRecord}
  (hre : Rescanned previous clock endpointId unknown (look previous unknown d root) manifest changes clock')
include hre

theorem accepted (hs : Scannable h d root) (hprev : previous.Valid previous.shareId)
    (hr : manifest.record p = some r) : Accepted p := by
  rcases (hre.rescans p).isSome_iff.mp (by rw [hr]; rfl) with hl | hold
  · obtain ⟨node, hget, hne⟩ := look_isSome_iff.mp hl
    have hpath := hs.paths (split p) node (split_ne_nil p) hget hne
    simp only [relativeManifestPath, join_split, bind_eq_ok] at hpath
    obtain ⟨_, -, _, hvalid, -⟩ := hpath
    exact validateManifestPath_eq_ok.mp hvalid
  · obtain ⟨r', hr'⟩ := Option.isSome_iff_exists.mp hold
    exact hprev.accepted hr'

theorem record_valid (hs : Scannable h d root) (hprev : previous.Valid previous.shareId)
    (hauthor : endpointIdValid endpointId = true) (hr : manifest.record p = some r) : r.validate = .ok () := by
  have hfresh : ∀ v, Fresh clock clock' endpointId v → validateTimestamp v = .ok () := by
    intro v hv
    rw [validateTimestamp, rejectIf_eq_ok, hv.author, hauthor]
    exact Bool.true_eq_false.mp
  have hrescans := hre.rescans p
  by_cases hc : Changed previous unknown p (look previous unknown d root p)
  · cases hl : look previous unknown d root p with
    | none =>
        rw [hl] at hc hrescans
        rcases hrescans with ⟨-, v, hv, hnew⟩ | ⟨hlive, -⟩
        · rw [hr] at hnew
          cases hnew
          exact hfresh v hv
        · exact absurd hc hlive
    | some x =>
        rw [hl] at hc hrescans
        have hret : retained previous unknown p x = none := hc
        simp only [Rescans, hret] at hrescans
        obtain ⟨v, hv, hnew⟩ := hrescans
        rw [hr] at hnew
        cases hnew
        obtain ⟨node, hget, hx⟩ := Option.bind_eq_some_iff.mp hl
        refine authored_validates hprev hx (fun target ht => ?_) (hfresh v hv)
        subst ht
        exact hs.links (split p) target hget
  · have hsynced := hrescans.synced_of_not_changed hprev.separated hc
    rw [hr] at hsynced
    obtain ⟨r', hr', heq⟩ := Option.map_eq_some_iff.mp hsynced.symm
    rw [← ManifestRecord.validate_synced, ← heq, ManifestRecord.validate_synced]
    exact hprev.record_valid hr'

theorem hierarchy (hp : manifest.Live p) (ha : IsAncestor a p) : manifest.MayContain a := by
  have hl : (look previous unknown d root p).isSome := by
    rw [Option.isSome_iff_ne_none]
    intro hnone
    have hrescans := hre.rescans p
    rw [hnone] at hrescans
    exact hrescans.not_live rfl hp
  obtain ⟨node, hget, -⟩ := look_isSome_iff.mp hl
  obtain ⟨rest, hrest, hsplit⟩ := split_of_isAncestor ha
  rw [hsplit, ← List.append_assoc] at hget
  obtain ⟨mode, hdir⟩ := Disk.isDir_of_prefix hget hrest
  have hrescans := hre.rescans a
  have hla : look previous unknown d root a = some (.directory ⟨permissionsFromMetadata (.dir mode)⟩) := by
    rw [look, hdir]
    rfl
  rw [hla] at hrescans
  obtain ⟨e, he, -⟩ := directory_recalled hrescans
  exact .inr ⟨e, he⟩

/-- A scan of a tree gives a valid manifest, unless it has too many records. -/
theorem valid_iff (hs : Scannable h d root) (hprev : previous.Valid previous.shareId)
    (hauthor : endpointIdValid endpointId = true) :
    manifest.Valid previous.shareId ↔ manifest.paths.length ≤ MAX_MANIFEST_ENTRIES :=
  ⟨fun hv => hv.count, fun hcount => ⟨.inr (.inr hre.format), hre.share, hcount, hre.separated,
    hre.accepted hs hprev, hre.record_valid hs hprev hauthor, hre.hierarchy⟩⟩

theorem mem_paths_iff : p ∈ manifest.paths ↔ p ∈ previous.paths ∨ p ∈ treePaths d root := by
  rw [Manifest.mem_paths, Manifest.mem_paths, ← look_isSome_iff_mem previous unknown, ← Option.isSome_iff_exists, ← Option.isSome_iff_exists,
    (hre.rescans p).isSome_iff, or_comm]

theorem length_paths :
    manifest.paths.length = (previous.paths ++ treePaths d root).toFinset.card := by
  rw [← List.toFinset_card_of_nodup hre.separated.nodup_paths]
  congr 1
  ext p
  simp only [List.mem_toFinset, List.mem_append, hre.mem_paths_iff]

end Rescanned

end Result

/-! ## One scan -/

/-- The directory is there and a scan can read and record everything in it. -/
def Tree [Crypto] (h : Host) (root : Loc) (w : World) : Prop :=
  w.disk.IsDir root ∧ Scannable h w.disk root

section Step

variable [Crypto] {h : Host} {w w' : World} {root : Loc} {previous : Manifest} {clock : ClockState}
  {endpointId : EndpointId} {nowMs : U64} {discovered : DiscoveredEntries} {unknown : Bool}

theorem length_seen_le (ht : Tree h root w)
    (hsees : discovered.Sees (look previous unknown w.disk root)) :
    discovered.seen.length ≤ MAX_MANIFEST_ENTRIES := by
  have hsub : discovered.seen.map Prod.fst ⊆ treePaths w.disk root := by
    intro p hp
    obtain ⟨x, hx, rfl⟩ := List.mem_map.mp hp
    rw [← look_isSome_iff_mem previous unknown, hsees.mem_seen.mp hx]
    rfl
  calc discovered.seen.length = (discovered.seen.map Prod.fst).length := (List.length_map _).symm
    _ ≤ (treePaths w.disk root).length := (hsees.seen_paths.subperm hsub).length_le
    _ ≤ MAX_MANIFEST_ENTRIES := by
      rw [treePaths, List.length_map]
      exact ht.2.count

/-- The loops never run out of versions while the wall clock moves on. -/
theorem rescan_of_sane (endpointId : EndpointId) (ht : Tree h root w) (hprev : previous.Valid previous.shareId)
    (hclock : clock.formatVersion = FORMAT_VERSION) (hsane : clock.lastWallMs < nowMs)
    (hsees : discovered.Sees (look previous unknown w.disk root)) :
    ∃ s, rescan previous clock endpointId nowMs unknown discovered = .ok s
      ∧ CanTick s.clock nowMs 0 := by
  refine rescan_of_canTick ⟨hclock, .inl ⟨hsane, ?_⟩⟩
  have hseen := length_seen_le ht hsees
  have hlive : previous.livePaths.length ≤ MAX_MANIFEST_ENTRIES := by
    have hcount := hprev.count
    rw [Manifest.paths, List.length_append] at hcount
    omega
  rw [MAX_MANIFEST_ENTRIES] at hseen hlive
  omega

/-- What a scan at a sane time leaves for the next. -/
structure Recorded (previous : Manifest) (paths : List Str) (nowMs : U64) (manifest : Manifest)
    (clock : ClockState) : Prop where
  valid : manifest.Valid manifest.shareId
  clockFormat : clock.formatVersion = FORMAT_VERSION
  clock_le : clock.lastWallMs ≤ nowMs
  paths : ∀ p, p ∈ manifest.paths ↔ p ∈ previous.paths ∨ p ∈ paths

theorem scan_recorded {r : ScanResult} (ht : Tree h root w) (hprev : previous.Valid previous.shareId)
    (hclock : clock.formatVersion = FORMAT_VERSION) (hsane : clock.lastWallMs < nowMs)
    (hscan : scanManifestCachedAfterValidation root previous clock endpointId nowMs h w = .ok r w') :
    Recorded previous (treePaths w.disk root) nowMs r.manifest r.clock := by
  obtain ⟨-, discovered, hrun, hcompare⟩ := scan_ok hscan
  obtain ⟨-, hsees⟩ := wp_ok (discoverEntries_spec ht.1) hrun
  obtain ⟨hre, hvalid, -⟩ := compareWithPrevious_ok hprev hsees hcompare
  refine ⟨hre.share ▸ hvalid, hre.clockFormat.trans hclock, ?_, fun p => hre.mem_paths_iff⟩
  unfold compareWithPrevious at hcompare
  split at hcompare
  · cases hcompare
    exact hsane.le
  · simp only [fullDiff, bind_eq_ok] at hcompare
    obtain ⟨s, hs, _, -, heq⟩ := hcompare
    cases heq
    obtain ⟨s', hs', hc⟩ := rescan_of_sane endpointId ht hprev hclock hsane hsees
    rw [hs] at hs'
    cases hs'
    exact hc.le

/-- A scan succeeds exactly where all that was ever recorded, and all that is there, can be
recorded together. -/
theorem scan_succeeds_iff (ht : Tree h root w) (hprev : previous.Valid previous.shareId)
    (hauthor : endpointIdValid endpointId = true)
    (hclock : clock.formatVersion = FORMAT_VERSION) (hsane : clock.lastWallMs < nowMs) :
    (∃ r w', scanManifestCachedAfterValidation root previous clock endpointId nowMs h w = .ok r w')
      ↔ (previous.paths ++ treePaths w.disk root).toFinset.card ≤ MAX_MANIFEST_ENTRIES := by
  constructor
  · rintro ⟨r, w', hscan⟩
    obtain ⟨-, discovered, hrun, hcompare⟩ := scan_ok hscan
    obtain ⟨-, hsees⟩ := wp_ok (discoverEntries_spec ht.1) hrun
    obtain ⟨hre, hvalid, -⟩ := compareWithPrevious_ok hprev hsees hcompare
    rw [← hre.length_paths]
    exact hvalid.count
  · intro hcount
    obtain ⟨discovered, w', hrun, -, hsees⟩ := exists_ok_of_wp
      (wp_mono (m := discoverEntries root previous (unknownPermissionsMatch previous))
        (discoverEntries_spec ht.1) (fun _ _ hq => hq) fun _ _ he => he.2 ht.2)
    have hvalidate : clock.validate = .ok () := by
      rw [ClockState.validate, rejectIf_eq_ok]
      exact fun hne => hne hclock
    obtain ⟨r, hr⟩ : ∃ r, compareWithPrevious previous clock endpointId nowMs
        (unknownPermissionsMatch previous) discovered = .ok r := by
      unfold compareWithPrevious
      split
      · exact ⟨_, rfl⟩
      · obtain ⟨s, hs, -⟩ := rescan_of_sane endpointId ht hprev hclock hsane hsees
        have hre := rescan_ok hprev.separated hsees hs
        have hvalid : s.manifest.Valid previous.shareId :=
          (hre.valid_iff ht.2 hprev hauthor).mpr (hre.length_paths.trans_le hcount)
        exact fullDiff_of_valid hvalid hs
    exact ⟨r, w', scan_of_ok hvalidate hrun hr⟩

end Step

/-! ## All scans -/

section Scans

variable [Crypto] (h : Host) (root : Loc) (endpointId : EndpointId)

/-- Scans one after the other, each at its time and of the tree as it is then. -/
def scans (previous : Manifest) (clock : ClockState) : List (U64 × World) → Option (Manifest × ClockState)
  | [] => some (previous, clock)
  | (nowMs, w) :: rest =>
      match scanManifestCachedAfterValidation root previous clock endpointId nowMs h w with
      | .ok r _ => scans r.manifest r.clock rest
      | .error _ _ => none

end Scans

section History

variable [Crypto] {h : Host} {root : Loc} {endpointId : EndpointId}

theorem scans_isSome_iff {looks : List (U64 × World)} (hauthor : endpointIdValid endpointId = true)
    (htrees : ∀ x ∈ looks, Tree h root x.2) :
    ∀ {previous : Manifest} {clock : ClockState}, previous.Valid previous.shareId →
      clock.formatVersion = FORMAT_VERSION →
      (clock.lastWallMs :: looks.map Prod.fst).Pairwise (· < ·) →
      ((scans h root endpointId previous clock looks).isSome ↔
        (previous.paths ++ looks.flatMap fun x => treePaths x.2.disk root).toFinset.card
          ≤ MAX_MANIFEST_ENTRIES) := by
  induction looks with
  | nil =>
      intro previous clock hprev _ _
      rw [List.flatMap_nil, List.append_nil, List.toFinset_card_of_nodup hprev.separated.nodup_paths]
      exact iff_of_true rfl hprev.count
  | cons x looks ih =>
      intro previous clock hprev hclock hsane
      obtain ⟨nowMs, w⟩ := x
      have ht := htrees _ List.mem_cons_self
      obtain ⟨hfirst, hlater⟩ := List.pairwise_cons.mp hsane
      have hnow : clock.lastWallMs < nowMs := hfirst nowMs List.mem_cons_self
      have hstep := scan_succeeds_iff ht hprev hauthor hclock hnow
      cases hscan : scanManifestCachedAfterValidation root previous clock endpointId nowMs h w with
      | error e w' =>
          simp only [scans, hscan, Option.isSome_none, Bool.false_eq_true, false_iff]
          intro hcount
          refine absurd (hstep.mpr (le_trans (Finset.card_le_card ?_) hcount)) (by simp [hscan])
          intro p
          simp only [List.mem_toFinset, List.mem_append, List.flatMap_cons]
          tauto
      | ok r w' =>
          have hrec := scan_recorded ht hprev hclock hnow hscan
          simp only [scans, hscan]
          rw [ih (fun y hy => htrees y (List.mem_cons_of_mem _ hy)) hrec.valid hrec.clockFormat]
          · have hsame : (r.manifest.paths ++ looks.flatMap fun x => treePaths x.2.disk root).toFinset
                = (previous.paths ++ ((nowMs, w) :: looks).flatMap
                  fun x => treePaths x.2.disk root).toFinset := by
              ext p
              simp only [List.mem_toFinset, List.mem_append, List.flatMap_cons, hrec.paths, or_assoc]
            rw [hsame]
          · rw [List.pairwise_cons]
            rw [List.map_cons, List.pairwise_cons] at hlater
            exact ⟨fun t ht => hrec.clock_le.trans_lt (hlater.1 t ht), hlater.2⟩

/-- From the empty manifest and with clocks that move on, all scans succeed exactly as long as
no more than `MAX_MANIFEST_ENTRIES` different paths have ever been in the tree. -/
theorem all_scans_succeed_iff {looks : List (U64 × World)} {shareId : ShareId} {nowMs : U64}
    {clock : ClockState} (hauthor : endpointIdValid endpointId = true)
    (htrees : ∀ x ∈ looks, Tree h root x.2) (hclock : clock.formatVersion = FORMAT_VERSION)
    (hsane : (clock.lastWallMs :: looks.map Prod.fst).Pairwise (· < ·)) :
    (scans h root endpointId (.empty shareId nowMs) clock looks).isSome ↔
      (looks.flatMap fun x => treePaths x.2.disk root).toFinset.card ≤ MAX_MANIFEST_ENTRIES := by
  have hempty : (Manifest.empty shareId nowMs).paths = [] := by
    simp [Manifest.paths, Manifest.livePaths, Manifest.empty]
  rw [scans_isSome_iff hauthor htrees (Manifest.valid_empty shareId nowMs) hclock hsane, hempty,
    List.nil_append]

end History

/-! ## A history that is too long -/

/-- A directory with empty files. -/
def flat : List Str → Disk
  | [] => .bare
  | name :: rest =>
      if hp : (flat rest).CanPut [] name then
        (flat rest).put [] name (.file .empty 0o644 0) hp
      else flat rest

section Flat

variable {files : List Str} (hfiles : ∀ name ∈ files, isFileName name = true)

include hfiles in
theorem get_flat (loc : Loc) : (flat files).get loc =
    if loc = [] then some (.dir 0o755)
    else if ∃ name ∈ files, loc = [name] then some (.file .empty 0o644 0)
    else none := by
  induction files generalizing loc with
  | nil =>
      by_cases hloc : loc = []
      · subst hloc
        rfl
      · have hne : ([] : Loc) ≠ loc := Ne.symm hloc
        simp [flat, Disk.bare, Disk.get, hloc, hne]
  | cons name rest ih =>
      have hget := ih fun n hn => hfiles n (List.mem_cons_of_mem _ hn)
      have hput : (flat rest).CanPut [] name := by
        refine ⟨hfiles name List.mem_cons_self, ⟨0o755, by rw [hget]; rfl⟩, ?_⟩
        rintro ⟨mode, hmode⟩
        rw [hget] at hmode
        simp only [List.nil_append, List.cons_ne_nil, if_false] at hmode
        split at hmode <;> cases hmode
      rw [flat, dif_pos hput, Disk.get_put, hget]
      by_cases hloc : loc = []
      · subst hloc
        simp
      · by_cases heq : [name] = loc
        · subst heq
          simp
        · simp [hloc, heq, Ne.symm heq]

include hfiles in
theorem mem_below_flat {x : List Str × Node} : x ∈ (flat files).below [] ↔
    (∃ name ∈ files, x.1 = [name]) ∧ x.2 = .file .empty 0o644 0 := by
  obtain ⟨loc, node⟩ := x
  rw [Disk.mem_below, List.nil_append, get_flat hfiles]
  constructor
  · rintro ⟨hne, hget⟩
    rw [if_neg hne] at hget
    split at hget
    · rename_i hex
      cases hget
      exact ⟨hex, rfl⟩
    · cases hget
  · rintro ⟨⟨name, hname, rfl⟩, rfl⟩
    exact ⟨List.cons_ne_nil _ _, by rw [if_neg (List.cons_ne_nil _ _), if_pos ⟨name, hname, rfl⟩]⟩

include hfiles in
theorem mem_treePaths_flat {p : Str} : p ∈ treePaths (flat files) [] ↔ p ∈ files := by
  rw [treePaths, List.mem_map]
  constructor
  · rintro ⟨x, hx, rfl⟩
    obtain ⟨⟨name, hname, hloc⟩, -⟩ := (mem_below_flat hfiles).mp (List.mem_of_mem_filter hx)
    rw [hloc, join_singleton]
    exact hname
  · intro hp
    refine ⟨([p], .file .empty 0o644 0), List.mem_filter.mpr ⟨(mem_below_flat hfiles).mpr
      ⟨⟨p, hp, rfl⟩, rfl⟩, by simp⟩, join_singleton p⟩

include hfiles in
theorem tree_flat [Crypto] (hpaths : ∀ name ∈ files, relativeManifestPath [name] = .ok (join [name]))
    (hcount : files.length ≤ MAX_MANIFEST_ENTRIES) : Tree .quiet [] ⟨flat files, 0, []⟩ := by
  refine ⟨⟨0o755, by rw [get_flat hfiles]; rfl⟩, ⟨⟨fun _ => rfl, ?_⟩, ?_, ?_, ?_, ?_, ?_⟩⟩
  · intro init hinit hne
    exact absurd (List.prefix_nil.mp hinit) hne
  · intro rest node hget
    rw [get_flat hfiles] at hget
    split at hget
    · cases hget; decide
    · split at hget
      · cases hget; rfl
      · cases hget
  · intro loc c m t hget
    rw [get_flat hfiles] at hget
    split at hget
    · cases hget
    · split at hget
      · cases hget; decide
      · cases hget
  · intro loc node hne hget _
    obtain ⟨⟨name, hname, hloc⟩, -⟩ := (mem_below_flat hfiles).mp (Disk.mem_below.mpr ⟨hne, hget⟩)
    simp only at hloc
    rw [hloc]
    exact hpaths name hname
  · intro loc target hget
    rw [get_flat hfiles] at hget
    split at hget
    · cases hget
    · split at hget <;> cases hget
  · have hsub : ((flat files).below []).map Prod.fst ⊆ files.map fun name => [name] := by
      intro loc hloc
      obtain ⟨x, hx, rfl⟩ := List.mem_map.mp hloc
      obtain ⟨⟨name, hname, hloc⟩, -⟩ := (mem_below_flat hfiles).mp hx
      rw [hloc]
      exact List.mem_map.mpr ⟨name, hname, rfl⟩
    calc ((flat files).below [] |>.filter fun x => x.2 ≠ .special).length
        ≤ ((flat files).below []).length := List.length_filter_le _ _
      _ = (((flat files).below []).map Prod.fst).length := (List.length_map _).symm
      _ ≤ (files.map fun name => [name]).length := ((Disk.nodup_below _ _).subperm hsub).length_le
      _ ≤ MAX_MANIFEST_ENTRIES := by rw [List.length_map]; exact hcount

end Flat

theorem isFileName_binaryName (n : Nat) : isFileName (binaryName n) = true :=
  isFileName_of_long (by rw [length_binaryName]; decide)
    (notMem_binaryName (by decide) (by decide)) (notMem_binaryName (by decide) (by decide))

theorem relativeManifestPath_binaryName (n : Nat) :
    relativeManifestPath [binaryName n] = .ok (join [binaryName n]) := by
  have haccepted := accepted_binaryName n
  have hname : checkFileName (binaryName n) = .ok () := by
    rw [checkFileName, rejectIf_eq_ok]
    rintro (hnil | hback | hslash)
    · exact haccepted.nonempty hnil
    · exact haccepted.noBackslash hback
    · exact notMem_binaryName (by decide) (by decide) hslash
  rw [relativeManifestPath, join_singleton, bind_eq_ok]
  refine ⟨(), forM_eq_ok.mpr (by simpa using hname), ?_⟩
  rw [validateManifestPath_eq_ok.mpr haccepted]
  rfl

/-- As many files as a manifest can hold, then none of them, then another one. -/
def longHistory : List (U64 × World) :=
  [(1, ⟨flat ((List.range MAX_MANIFEST_ENTRIES).map binaryName), 0, []⟩),
    (2, ⟨flat [], 0, []⟩),
    (3, ⟨flat [binaryName MAX_MANIFEST_ENTRIES], 0, []⟩)]

theorem tree_binary [Crypto] {l : List Nat} (hcount : l.length ≤ MAX_MANIFEST_ENTRIES) :
    Tree .quiet [] ⟨flat (l.map binaryName), 0, []⟩ := by
  refine tree_flat ?_ ?_ (by rw [List.length_map]; exact hcount)
  · intro name hname
    obtain ⟨n, -, rfl⟩ := List.mem_map.mp hname
    exact isFileName_binaryName n
  · intro name hname
    obtain ⟨n, -, rfl⟩ := List.mem_map.mp hname
    exact relativeManifestPath_binaryName n

theorem mem_treePaths_binary {l : List Nat} {p : Str} :
    p ∈ treePaths (flat (l.map binaryName)) [] ↔ p ∈ l.map binaryName :=
  mem_treePaths_flat fun name hname => by
    obtain ⟨n, -, rfl⟩ := List.mem_map.mp hname
    exact isFileName_binaryName n

theorem tree_longHistory [Crypto] : ∀ x ∈ longHistory, Tree .quiet [] x.2 := by
  intro x hx
  simp only [longHistory, List.mem_cons, List.not_mem_nil, or_false] at hx
  rcases hx with rfl | rfl | rfl
  · exact tree_binary (by rw [List.length_range])
  · exact tree_binary (l := []) (Nat.zero_le _)
  · exact tree_binary (l := [MAX_MANIFEST_ENTRIES]) (by decide)

/-- Each tree is small enough, and the third scan fails. -/
theorem scan_blocked_by_history :
    let _ := Crypto.plain
    (∀ x ∈ longHistory, Tree .quiet [] x.2)
      ∧ (ClockState.new.lastWallMs :: longHistory.map Prod.fst).Pairwise (· < ·)
      ∧ scans .quiet [] ⟨List.replicate 32 0, rfl⟩ (.empty ⟨List.replicate 32 0, rfl⟩ 0) .new longHistory
        = none := by
  intro _
  have hsane : (ClockState.new.lastWallMs :: longHistory.map Prod.fst).Pairwise (· < ·) := by
    show List.Pairwise (· < ·) [(0 : U64), 1, 2, 3]
    decide
  refine ⟨tree_longHistory, hsane, ?_⟩
  rw [← Option.not_isSome_iff_eq_none, scans_isSome_iff rfl tree_longHistory
    (Manifest.valid_empty _ _) rfl hsane, not_le]
  have hfirst : (1, ⟨flat ((List.range MAX_MANIFEST_ENTRIES).map binaryName), 0, []⟩) ∈ longHistory := by
    rw [longHistory]
    exact List.mem_cons_self
  have hlast : (3, ⟨flat [binaryName MAX_MANIFEST_ENTRIES], 0, []⟩) ∈ longHistory := by
    rw [longHistory]
    exact List.mem_cons_of_mem _ (List.mem_cons_of_mem _ List.mem_cons_self)
  have hall : ((List.range (MAX_MANIFEST_ENTRIES + 1)).map binaryName).toFinset
      ⊆ ((Manifest.empty ⟨List.replicate 32 0, rfl⟩ 0).paths
        ++ longHistory.flatMap fun x => treePaths x.2.disk []).toFinset := by
    intro p hp
    rw [List.mem_toFinset, List.mem_map] at hp
    obtain ⟨n, hn, rfl⟩ := hp
    rw [List.mem_toFinset, List.mem_append, List.mem_flatMap]
    right
    rcases Nat.lt_succ_iff_lt_or_eq.mp (List.mem_range.mp hn) with hlt | rfl
    · have hmem : binaryName n ∈ (List.range MAX_MANIFEST_ENTRIES).map binaryName :=
        List.mem_map_of_mem (List.mem_range.mpr hlt)
      refine ⟨_, hfirst, ?_⟩
      dsimp only
      rw [mem_treePaths_binary]
      exact hmem
    · exact ⟨_, hlast, (mem_treePaths_binary (l := [MAX_MANIFEST_ENTRIES])).mpr (by simp)⟩
  refine lt_of_lt_of_le ?_ (Finset.card_le_card hall)
  rw [List.toFinset_card_of_nodup, List.length_map, List.length_range]
  · exact Nat.lt_succ_self _
  · refine List.Nodup.map_on (fun n hn m hm heq => ?_) List.nodup_range
    rw [List.mem_range, MAX_MANIFEST_ENTRIES] at hn hm
    exact binaryName_injOn (by omega) (by omega) heq

/-- A file that comes and goes. -/
theorem all_scans_succeed_iff_one_file :
    let _ := Crypto.plain
    (scans .quiet [] ⟨List.replicate 32 0, rfl⟩ (.empty ⟨List.replicate 32 0, rfl⟩ 0) .new
      [(1, ⟨flat [binaryName 0], 0, []⟩), (2, ⟨flat [], 0, []⟩)]).isSome := by
  intro _
  refine (all_scans_succeed_iff rfl ?_ rfl ?_).mpr ?_
  · intro x hx
    simp only [List.mem_cons, List.not_mem_nil, or_false] at hx
    rcases hx with rfl | rfl
    · exact tree_binary (l := [0]) (by decide)
    · exact tree_binary (l := []) (Nat.zero_le _)
  · show List.Pairwise (· < ·) [(0 : U64), 1, 2]
    decide
  · have hsub : ([(1, ⟨flat [binaryName 0], 0, []⟩), (2, ⟨flat [], 0, []⟩)].flatMap
        fun x : U64 × World => treePaths x.2.disk []).toFinset ⊆ {binaryName 0} := by
      intro p hp
      rw [List.mem_toFinset, List.mem_flatMap] at hp
      obtain ⟨x, hx, hp⟩ := hp
      simp only [List.mem_cons, List.not_mem_nil, or_false] at hx
      rcases hx with rfl | rfl
      · have := (mem_treePaths_binary (l := [0])).mp hp
        simpa using this
      · have := (mem_treePaths_binary (l := [])).mp hp
        cases this
    refine (Finset.card_le_card hsub).trans ?_
    rw [Finset.card_singleton]
    decide

end Syncbox

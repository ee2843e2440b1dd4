/-
# `Syncbox.Manifest.Shortcut` — the short way out of a scan

A scan that finds the tree as `previous` describes it returns before the loops.  The test
(`matchesPrevious`) walks through pairs of maps of equal size and never looks at a
tombstone; the loops (`fullDiff`) build every map anew.  Both come down to one question
for each path, `Unaltered`: the record that would be retained is the record that is there.

That the sizes are compared first matters: the maps are sorted and walked side by side, and
of two lists of different lengths the walk would not see the end of the longer one.
-/
import Syncbox.Manifest.Digest
import Syncbox.Manifest.Stamps

namespace Syncbox

open Rust Check

/-- Nothing is different at a path, the modification time included. -/
def Unaltered (previous : Manifest) (unknown : Bool) (p : Str) : Option Seen → Prop
  | some x => ∃ r, retained previous unknown p x = some r ∧ previous.record p = some r
  | none => ¬ previous.Live p

/-! ## The test -/

theorem keys_eq_of_mem_iff {V W : Type} {t : BTreeMap Str V} {t' : BTreeMap Str W}
    (h : ∀ p, p ∈ t ↔ p ∈ t') : t.keys = t'.keys := by
  refine List.Perm.eq_of_pairwise ?_ t.ordered_keys t'.ordered_keys ?_
  · intro a b _ _ hab hba
    have hgt := Std.OrientedCmp.gt_of_lt hba
    rw [hab] at hgt
    cases hgt
  · refine (List.perm_ext_iff_of_nodup Std.ExtTreeMap.nodup_keys Std.ExtTreeMap.nodup_keys).mpr ?_
    intro p
    rw [Std.ExtTreeMap.mem_keys, Std.ExtTreeMap.mem_keys, h]

/-- Neither map has the path, or both do and the test likes what it finds. -/
def Agree {V W : Type} (old : BTreeMap Str V) (new : BTreeMap Str W) (test : V → W → Bool)
    (p : Str) : Prop :=
  (old[p]? = none ∧ new[p]? = none) ∨ ∃ o n, old[p]? = some o ∧ new[p]? = some n ∧ test o n = true

theorem mapsMatch_of_agree {V W : Type} {old : BTreeMap Str V} {new : BTreeMap Str W}
    {test : V → W → Bool} (h : ∀ p, Agree old new test p) : mapsMatch old new test = true := by
  have hkeys : old.keys = new.keys := keys_eq_of_mem_iff fun p => by
    rw [mem_iff_lookup, mem_iff_lookup]
    rcases h p with ⟨ho, hn⟩ | ⟨o, n, ho, hn, -⟩ <;> simp [ho, hn]
  simp only [mapsMatch, Bool.and_eq_true, decide_eq_true_eq, List.all_eq_true]
  refine ⟨?_, fun x hx => ?_⟩
  · rw [← Std.ExtTreeMap.length_keys, hkeys, Std.ExtTreeMap.length_keys]
  · obtain ⟨i, hi, rfl⟩ := List.mem_iff_getElem.mp hx
    rw [List.length_zip, lt_min_iff] at hi
    rw [List.getElem_zip]
    have ho : old[old.toList[i].1]? = some old.toList[i].2 :=
      Std.ExtTreeMap.mem_toList_iff_getElem?_eq_some.mp (List.getElem_mem hi.1)
    have hn : new[new.toList[i].1]? = some new.toList[i].2 :=
      Std.ExtTreeMap.mem_toList_iff_getElem?_eq_some.mp (List.getElem_mem hi.2)
    have hkey : old.toList[i].1 = new.toList[i].1 := by
      simp only [← Std.ExtTreeMap.map_fst_toList_eq_keys] at hkeys
      have hat : (old.toList.map Prod.fst)[i]? = (new.toList.map Prod.fst)[i]? := by rw [hkeys]
      rw [List.getElem?_map, List.getElem?_map, List.getElem?_eq_getElem hi.1,
        List.getElem?_eq_getElem hi.2] at hat
      exact Option.some.inj hat
    rw [← hkey] at hn
    rcases h old.toList[i].1 with ⟨hnone, -⟩ | ⟨o, n, ho', hn', htest⟩
    · rw [ho] at hnone
      cases hnone
    · rw [ho] at ho'
      rw [hn] at hn'
      cases ho'
      cases hn'
      exact ⟨hkey, htest⟩

section Shortcut

variable {previous : Manifest} {clock : ClockState} {endpointId : EndpointId} {nowMs : U64}
  {unknown : Bool} {discovered : DiscoveredEntries} {look : Str → Option Seen}

theorem Unaltered.agree {p : Str} (hprev : previous.Separated) (hlook : discovered.Sees look)
    (h : Unaltered previous unknown p (look p)) :
    Agree previous.entries discovered.files (fun old file =>
        fileMatches unknown old file && old.modifiedAtNs = file.modifiedAtNs) p
      ∧ Agree previous.directories discovered.directories (directoryMatches unknown) p
      ∧ Agree previous.symlinks discovered.symlinks symlinkMatches p := by
  have hholds := hprev.holds
  unfold Agree
  rw [hlook.files, hlook.directories, hlook.symlinks, hholds.entries, hholds.directories,
    hholds.symlinks]
  cases hl : look p with
  | none =>
      rw [hl] at h
      cases hr : previous.record p with
      | none => exact ⟨.inl ⟨rfl, rfl⟩, .inl ⟨rfl, rfl⟩, .inl ⟨rfl, rfl⟩⟩
      | some r =>
          have htomb := isTombstone_of_not_live h hr
          cases r with
          | tombstone t => exact ⟨.inl ⟨rfl, rfl⟩, .inl ⟨rfl, rfl⟩, .inl ⟨rfl, rfl⟩⟩
          | _ => cases htomb
  | some x =>
      rw [hl] at h
      obtain ⟨r, hr, hrec⟩ := h
      cases retains hr with
      | @file old f hold hm =>
          have htime : f.modifiedAtNs = old.modifiedAtNs := by
            rw [Manifest.record_file_iff, hold, Option.some.injEq] at hrec
            exact (congrArg ManifestEntry.modifiedAtNs hrec).symm
          rw [Manifest.record_file_iff.mpr hold]
          refine ⟨.inr ⟨old, f, rfl, rfl, ?_⟩, .inl ⟨rfl, rfl⟩, .inl ⟨rfl, rfl⟩⟩
          simp only [hm, htime, decide_true, Bool.and_self]
      | @directory old d _ hm =>
          rw [hrec]
          exact ⟨.inl ⟨rfl, rfl⟩, .inr ⟨old, d, rfl, rfl, hm⟩, .inl ⟨rfl, rfl⟩⟩
      | @symlink old l _ hm =>
          rw [hrec]
          exact ⟨.inl ⟨rfl, rfl⟩, .inl ⟨rfl, rfl⟩, .inr ⟨old, l, rfl, rfl, hm⟩⟩

theorem matchesPrevious_iff (hprev : previous.Separated) (hlook : discovered.Sees look) :
    matchesPrevious discovered previous unknown = true ↔
      previous.formatVersion = MANIFEST_FORMAT_VERSION ∧ ∀ p, Unaltered previous unknown p (look p) := by
  constructor
  · intro h
    have hre : Rescanned previous .new ⟨List.replicate 32 0, rfl⟩ unknown look previous 0 .new :=
      rescanned_of_matchesPrevious hprev hlook h
    refine ⟨hre.format, fun p => ?_⟩
    have hrescans := hre.rescans p
    have hnot := hre.changes.mp rfl p
    cases hl : look p with
    | none =>
        rw [hl] at hnot
        exact hnot
    | some x =>
        rw [hl] at hnot hrescans
        obtain ⟨r, hr⟩ := Option.ne_none_iff_exists'.mp hnot
        simp only [Rescans, hr] at hrescans
        exact ⟨r, hr, hrescans⟩
  · rintro ⟨hformat, hsame⟩
    have hagree := fun p => (hsame p).agree hprev hlook
    simp only [matchesPrevious, Bool.and_eq_true, decide_eq_true_eq]
    exact ⟨⟨⟨hformat, mapsMatch_of_agree fun p => (hagree p).1⟩,
      mapsMatch_of_agree fun p => (hagree p).2.1⟩, mapsMatch_of_agree fun p => (hagree p).2.2⟩

/-! ## The loops -/

theorem Unaltered.not_changed {p : Str} {seen : Option Seen} (h : Unaltered previous unknown p seen) :
    ¬ Changed previous unknown p seen := by
  cases seen with
  | none => exact h
  | some x =>
      obtain ⟨r, hr, -⟩ := h
      rw [Changed, hr]
      exact Option.some_ne_none r

/-- A record that would be written anew as it is would have been retained. -/
theorem retained_of_authored {p : Str} {x : Seen} {v : HlcTimestamp}
    (h : previous.record p = some (authored previous p v x)) :
    retained previous unknown p x ≠ none := by
  have hrefl : ∀ permissions, permissionsMatch permissions permissions unknown = true := fun _ => by
    simp [permissionsMatch]
  cases x with
  | file f =>
      have hf : previous.entries[p]? = some ⟨f.size, f.modifiedAtNs, f.sha256, f.permissions, v⟩ :=
        Manifest.record_file_iff.mp h
      simp [retained, hf, fileMatches, hrefl]
  | directory d =>
      have hd : previous.directories[p]? = some ⟨d.permissions, v⟩ := Manifest.record_directory h
      simp [retained, hd, directoryMatches, hrefl]
  | symlink l =>
      have hs := Manifest.record_symlink h
      simp [retained, hs, symlinkMatches]

theorem Rescans.same {fresh : HlcTimestamp → Prop} {p : Str} {seen : Option Seen}
    (h : Rescans previous unknown fresh p seen (previous.record p)) : Unaltered previous unknown p seen := by
  cases seen with
  | none =>
      rcases h with ⟨⟨r, hr, hlive⟩, v, -, hnew⟩ | ⟨hl, -⟩
      · rw [hr] at hnew
        cases hnew
        cases hlive
      · exact hl
  | some x =>
      simp only [Rescans] at h
      cases hr : retained previous unknown p x with
      | some r =>
          rw [hr] at h
          exact ⟨r, hr, h⟩
      | none =>
          rw [hr] at h
          obtain ⟨v, -, hnew⟩ := h
          exact absurd hr (retained_of_authored hnew)

theorem Unaltered.record_eq {fresh : HlcTimestamp → Prop} {p : Str} {seen : Option Seen}
    {new : Option ManifestRecord} (hs : Unaltered previous unknown p seen)
    (h : Rescans previous unknown fresh p seen new) : new = previous.record p := by
  cases seen with
  | none =>
      rcases h with ⟨hl, -⟩ | ⟨-, hnew⟩
      · exact absurd hl hs
      · exact hnew
  | some x =>
      obtain ⟨r, hr, hrec⟩ := hs
      simp only [Rescans, hr] at h
      rw [h, hrec]

theorem Rescan.author_scannedAtMs {s s' : Rescan} {p : Str} {record : HlcTimestamp → ManifestRecord}
    (h : s.author endpointId nowMs p record = .ok s') :
    s'.manifest.scannedAtMs = s.manifest.scannedAtMs := by
  obtain ⟨v, -, -, hm⟩ := Rescan.author_tick h
  rw [hm]
  cases record v <;> rfl

theorem rescan_scannedAtMs {s : Rescan}
    (h : rescan previous clock endpointId nowMs unknown discovered = .ok s) :
    s.manifest.scannedAtMs = nowMs := by
  simp only [rescan, bind_eq_ok] at h
  obtain ⟨s₁, h₁, h₂⟩ := h
  have hfirst := Check.foldlM_inv (I := fun _ s => s.manifest.scannedAtMs = nowMs) rfl h₁ (by
    intro _ x _ b b' _ hb hstep
    unfold rescanSeen at hstep
    split at hstep
    · rename_i r _
      cases hstep
      show (b.manifest.place x.1 r).scannedAtMs = nowMs
      rw [← hb]
      cases r <;> rfl
    · exact (Rescan.author_scannedAtMs hstep).trans hb)
  exact Check.foldlM_inv (I := fun _ s => s.manifest.scannedAtMs = nowMs) hfirst h₂ (by
    intro _ p _ b b' _ hb hstep
    unfold rescanMissing at hstep
    split at hstep
    · exact (Rescan.author_scannedAtMs hstep).trans hb
    · cases hstep
      exact hb)

/-- Where nothing is different the loops rebuild the manifest as it was. -/
theorem rescan_of_same (hprev : previous.Separated) (hlook : discovered.Sees look)
    (hformat : previous.formatVersion = MANIFEST_FORMAT_VERSION)
    (hsame : ∀ p, Unaltered previous unknown p (look p)) :
    rescan previous clock endpointId nowMs unknown discovered
      = .ok ⟨{ previous with scannedAtMs := nowMs }, 0, clock⟩ := by
  obtain ⟨⟨m, changes, clock'⟩, hs⟩ := rescan_of_unchanged clock endpointId nowMs hlook
    fun p => (hsame p).not_changed
  have hre := rescan_ok hprev hlook hs
  obtain ⟨log, hlog, hpaths⟩ := rescan_stamped hprev hlook hs
  rw [changedPaths_eq_nil hlook fun p => (hsame p).not_changed, List.map_eq_nil_iff] at hpaths
  subst hpaths
  have hmaps := Manifest.maps_eq_of_holds hprev.holds (.of_separated hre.separated
    fun p => (hsame p).record_eq (hre.rescans p))
  have hclock : clock' = clock := hlog.clock
  have hchanges : changes = 0 := hlog.changes
  have hm : m = { previous with scannedAtMs := nowMs } := by
    obtain ⟨hentries, hdirectories, hsymlinks, htombstones⟩ := hmaps
    cases m
    cases previous
    cases hentries
    cases hdirectories
    cases hsymlinks
    cases htombstones
    cases rescan_scannedAtMs hs
    cases hre.share
    cases hre.format.trans hformat.symm
    rfl
  rw [hs, hclock, hchanges, hm]

variable [Crypto]

theorem fullDiff_of_same (hprev : previous.Valid previous.shareId) (hlook : discovered.Sees look)
    (hformat : previous.formatVersion = MANIFEST_FORMAT_VERSION)
    (hsame : ∀ p, Unaltered previous unknown p (look p)) :
    fullDiff previous clock endpointId nowMs unknown discovered
      = .ok ⟨{ previous with scannedAtMs := nowMs }, clock, previous.entries.size,
        previous.tombstones.size, 0, false, false⟩ := by
  have hvalid : Manifest.Valid { previous with scannedAtMs := nowMs } previous.shareId :=
    ⟨hprev.format, hprev.share, hprev.count,
      ⟨hprev.separated.file_directory, hprev.separated.file_symlink, hprev.separated.file_tombstone,
        hprev.separated.directory_symlink, hprev.separated.directory_tombstone,
        hprev.separated.symlink_tombstone⟩,
      hprev.accepted, hprev.record_valid, hprev.hierarchy⟩
  unfold fullDiff
  rw [rescan_of_same hprev.separated hlook hformat hsame, bind_eq_ok]
  refine ⟨_, rfl, ?_⟩
  rw [bind_eq_ok]
  refine ⟨(), Manifest.validate_eq_ok.mpr hvalid, ?_⟩
  simp [hformat]

theorem same_of_fullDiff {r : ScanResult} (hprev : previous.Separated) (hlook : discovered.Sees look)
    (h : fullDiff previous clock endpointId nowMs unknown discovered = .ok r)
    (hr : r.manifestChanged = false) :
    previous.formatVersion = MANIFEST_FORMAT_VERSION ∧ ∀ p, Unaltered previous unknown p (look p) := by
  simp only [fullDiff, bind_eq_ok] at h
  obtain ⟨s, hs, _, -, heq⟩ := h
  cases heq
  simp only [decide_eq_false_iff_not, not_or, ne_eq, Decidable.not_not] at hr
  obtain ⟨hformat, hentries, hdirectories, hsymlinks, htombstones⟩ := hr
  have hre := rescan_ok hprev hlook hs
  have hrec : ∀ p, s.manifest.record p = previous.record p := fun p => by
    simp only [Manifest.record, hentries, hdirectories, hsymlinks, htombstones]
  refine ⟨hformat, fun p => ?_⟩
  have hrescans := hre.rescans p
  rw [hrec] at hrescans
  exact hrescans.same

/-- The test answers yes exactly where the loops would change nothing, and then they would
return what the short way returns, under a new time. -/
theorem matchesPrevious_iff_fullDiff (hprev : previous.Valid previous.shareId)
    (htree : discovered.Disjoint) :
    (matchesPrevious discovered previous unknown = true ↔
        ∃ r, fullDiff previous clock endpointId nowMs unknown discovered = .ok r
          ∧ r.manifestChanged = false)
      ∧ (∀ r, fullDiff previous clock endpointId nowMs unknown discovered = .ok r →
        r.manifestChanged = false →
          r = ⟨{ previous with scannedAtMs := nowMs }, clock, previous.entries.size,
            previous.tombstones.size, 0, false, false⟩)
      ∧ compareWithPrevious previous clock endpointId nowMs unknown discovered
        = if matchesPrevious discovered previous unknown then
            .ok ⟨previous, clock, previous.entries.size, previous.tombstones.size, 0, false, false⟩
          else fullDiff previous clock endpointId nowMs unknown discovered := by
  have hlook := htree.sees
  refine ⟨?_, fun r hr hunchanged => ?_, rfl⟩
  · rw [matchesPrevious_iff hprev.separated hlook]
    constructor
    · rintro ⟨hformat, hsame⟩
      exact ⟨_, fullDiff_of_same hprev hlook hformat hsame, rfl⟩
    · rintro ⟨r, hr, hunchanged⟩
      exact same_of_fullDiff hprev.separated hlook hr hunchanged
  · obtain ⟨hformat, hsame⟩ := same_of_fullDiff hprev.separated hlook hr hunchanged
    rw [fullDiff_of_same hprev hlook hformat hsame] at hr
    cases hr
    rfl

end Shortcut

/-- The tree that `Manifest.oneFile` describes. -/
def DiscoveredEntries.oneFile (modifiedAtNs : U64) : DiscoveredEntries :=
  ⟨Std.ExtTreeMap.ofList
    [("a".toList, ⟨3, modifiedAtNs, List.replicate 64 '0', some 0o644⟩)] compare, ∅, ∅⟩

theorem DiscoveredEntries.disjoint_oneFile (modifiedAtNs : U64) :
    (oneFile modifiedAtNs).Disjoint := by
  constructor <;> intro p <;> simp [oneFile]

theorem matchesPrevious_iff_fullDiff_oneFile :
    let _ := Crypto.plain
    (Manifest.oneFile 1 2).Valid ⟨List.replicate 32 0, rfl⟩
      ∧ (∃ r, fullDiff (Manifest.oneFile 1 2) .new ⟨List.replicate 32 0, rfl⟩ 5 true (.oneFile 1) = .ok r
        ∧ r.manifestChanged = false)
      ∧ ¬ ∃ r, fullDiff (Manifest.oneFile 1 2) .new ⟨List.replicate 32 0, rfl⟩ 5 true (.oneFile 9) = .ok r
        ∧ r.manifestChanged = false := by
  intro _
  have hvalid : (Manifest.oneFile 1 2).Valid ⟨List.replicate 32 0, rfl⟩ := by decide +kernel
  refine ⟨hvalid, ?_, ?_⟩
  · refine (matchesPrevious_iff_fullDiff hvalid (DiscoveredEntries.disjoint_oneFile 1)).1.mp ?_
    decide +kernel
  · rw [← (matchesPrevious_iff_fullDiff hvalid (DiscoveredEntries.disjoint_oneFile 9)).1]
    decide +kernel

end Syncbox

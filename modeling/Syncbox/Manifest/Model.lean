/-
# `Syncbox.Manifest.Model` — manifests and their validation

`src/manifest/model.rs`, with `validate_manifest_hierarchy` of
`src/manifest/merge.rs`, which `validate` calls.

A manifest keeps four maps, and the code reads them through `record`, which
tries them in turn.  Validation makes the four disjoint, and from there on a
manifest *is* its `record` function: `Manifest.Valid` is the validator's verdict
in these terms (`validate_eq_ok`), and no later proof looks at the validator
again.

The hierarchy check walks the live paths and skips every ancestor that the
previous path already had.  The skip is sound whatever the order of the paths:
a shared ancestor was checked with the path before (`validateManifestHierarchy_eq_ok`).
-/
import Syncbox.Manifest.Path

namespace Syncbox

open Rust Check

def MAX_MANIFEST_ENTRIES : Nat := 100000
def MANIFEST_FORMAT_VERSION : U16 := 3
def PREVIOUS_MANIFEST_FORMAT_VERSION : U16 := 2
def LEGACY_MANIFEST_FORMAT_VERSION : U16 := 1

/-! ## Records -/

structure ManifestEntry where
  size : U64
  modifiedAtNs : U64
  sha256 : Str
  permissions : Option U16
  version : HlcTimestamp
  deriving DecidableEq, Countable

structure DirectoryEntry where
  permissions : Option U16
  version : HlcTimestamp
  deriving DecidableEq, Countable

structure SymlinkEntry where
  target : Str
  version : HlcTimestamp
  deriving DecidableEq, Countable

structure Tombstone where
  version : HlcTimestamp
  deriving DecidableEq, Countable

inductive ManifestRecord where
  | file (entry : ManifestEntry)
  | directory (entry : DirectoryEntry)
  | symlink (entry : SymlinkEntry)
  | tombstone (entry : Tombstone)
  deriving DecidableEq

namespace ManifestRecord

def version : ManifestRecord → HlcTimestamp
  | file e => e.version
  | directory e => e.version
  | symlink e => e.version
  | tombstone e => e.version

def isTombstone : ManifestRecord → Bool
  | tombstone _ => true
  | _ => false

end ManifestRecord

/-! ## Field checks -/

section Checks

variable [Crypto]

/-- The cache of authors already accepted changes no verdict and is left out. -/
def validateTimestamp (timestamp : HlcTimestamp) : Except Error Unit :=
  rejectIf (endpointIdValid timestamp.author = false)
    (.bail "manifest has an invalid HLC author")

def validatePermissions (permissions : Option U16) : Except Error Unit :=
  rejectIf ((permissions.any fun p => p.toNat > 0o7777) = true)
    (.bail "manifest permissions contain unsupported bits")

def validateSymlinkTarget (target : Str) : Except Error Unit :=
  rejectIf (target = [] ∨ utf8Len target > 4096 ∨ '\x00' ∈ target)
    (.bail "manifest symlink target is invalid")

def ManifestEntry.validate (e : ManifestEntry) : Except Error Unit := do
  rejectIf (utf8Len e.sha256 ≠ 64 ∨ e.sha256.all isLowerHex = false)
    (.bail "manifest file hash must be 64 lowercase hexadecimal characters")
  validatePermissions e.permissions
  validateTimestamp e.version

def DirectoryEntry.validate (e : DirectoryEntry) : Except Error Unit := do
  validatePermissions e.permissions
  validateTimestamp e.version

def SymlinkEntry.validate (e : SymlinkEntry) : Except Error Unit := do
  validateSymlinkTarget e.target
  validateTimestamp e.version

def Tombstone.validate (e : Tombstone) : Except Error Unit := validateTimestamp e.version

/-- The check of a record of any kind. -/
def ManifestRecord.validate : ManifestRecord → Except Error Unit
  | file e => e.validate
  | directory e => e.validate
  | symlink e => e.validate
  | tombstone e => e.validate

end Checks

/-! ## Manifests -/

structure Manifest where
  formatVersion : U16
  shareId : ShareId
  scannedAtMs : U64
  entries : BTreeMap Str ManifestEntry
  directories : BTreeMap Str DirectoryEntry
  symlinks : BTreeMap Str SymlinkEntry
  tombstones : BTreeMap Str Tombstone
  deriving DecidableEq, Countable

namespace Manifest

def empty (shareId : ShareId) (nowMs : U64) : Manifest :=
  ⟨MANIFEST_FORMAT_VERSION, shareId, nowMs, ∅, ∅, ∅, ∅⟩

def record (m : Manifest) (path : Str) : Option ManifestRecord :=
  match m.entries[path]? with
  | some e => some (.file e)
  | none =>
    match m.directories[path]? with
    | some e => some (.directory e)
    | none =>
      match m.symlinks[path]? with
      | some e => some (.symlink e)
      | none => (m.tombstones[path]?).map .tombstone

/-- The paths of the live records, in the order the hierarchy check takes them. -/
def livePaths (m : Manifest) : List Str :=
  m.entries.keys ++ m.directories.keys ++ m.symlinks.keys

def paths (m : Manifest) : List Str :=
  m.livePaths ++ m.tombstones.keys

end Manifest

/-! ## Validation -/

/-- `path.match_indices('/')`.  `/` is one byte, so the prefixes it cuts are the same in
bytes and in characters. -/
def separators (path : Str) : List Nat :=
  (List.range path.length).filter fun i => path[i]? = some '/'

namespace Manifest

/-- The checks on one ancestor of a live path. -/
def checkAncestor (m : Manifest) (ancestor : Str) : Except Error Unit := do
  rejectIf (ancestor ∈ m.entries ∨ ancestor ∈ m.symlinks)
    (.bail ("manifest live path has a descendant: " ++ String.ofList ancestor))
  rejectIf (ancestor ∈ m.tombstones)
    (.bail ("manifest has a live path below a tombstone: " ++ String.ofList ancestor))

/-- The loop body over separators; the accumulator is `shared_ancestors`. -/
def ancestorStep (m : Manifest) (previousPath path : Str) (sharedAncestors : Bool)
    (separator : Nat) : Except Error Bool :=
  if sharedAncestors ∧ previousPath.take (separator + 1) = path.take (separator + 1) then .ok true
  else (m.checkAncestor (path.take separator)).map fun _ => false

/-- The loop body over live paths; the accumulator is `previous_path`. -/
def hierarchyStep (m : Manifest) (previousPath path : Str) : Except Error Str :=
  ((separators path).foldlM (m.ancestorStep previousPath path) true).map fun _ => path

def validateManifestHierarchy (m : Manifest) : Except Error Unit :=
  if m.entries.isEmpty ∧ m.symlinks.isEmpty ∧ m.tombstones.isEmpty then .ok ()
  else (m.livePaths.foldlM m.hierarchyStep []).map fun _ => ()

section Validate

variable [Crypto]

def checkEntry (m : Manifest) (path : Str) (entry : ManifestEntry) : Except Error Unit := do
  validateManifestPath path
  entry.validate
  rejectIf (path ∈ m.directories)
    (.bail ("manifest has both a file and a directory for " ++ String.ofList path))
  rejectIf (path ∈ m.tombstones)
    (.bail ("manifest has both an entry and a tombstone for " ++ String.ofList path))

def checkDirectory (m : Manifest) (path : Str) (entry : DirectoryEntry) : Except Error Unit := do
  validateManifestPath path
  entry.validate
  rejectIf (path ∈ m.tombstones)
    (.bail ("manifest has both an entry and a tombstone for " ++ String.ofList path))

def checkSymlink (m : Manifest) (path : Str) (entry : SymlinkEntry) : Except Error Unit := do
  validateManifestPath path
  entry.validate
  rejectIf (path ∈ m.entries ∨ path ∈ m.directories)
    (.bail ("manifest has both a live path and a symlink for " ++ String.ofList path))
  rejectIf (path ∈ m.tombstones)
    (.bail ("manifest has both an entry and a tombstone for " ++ String.ofList path))

def checkTombstone (path : Str) (tombstone : Tombstone) : Except Error Unit := do
  validateManifestPath path
  tombstone.validate

/-- The sum of four lengths of maps in memory does not overflow a `usize`. -/
def validate (m : Manifest) (expectedShareId : ShareId) : Except Error Unit := do
  rejectIf (¬ (m.formatVersion = LEGACY_MANIFEST_FORMAT_VERSION
      ∨ m.formatVersion = PREVIOUS_MANIFEST_FORMAT_VERSION
      ∨ m.formatVersion = MANIFEST_FORMAT_VERSION))
    (.bail ("unsupported manifest format version " ++ toString m.formatVersion.toNat))
  rejectIf (m.shareId ≠ expectedShareId)
    (.bail "manifest share ID does not match its directory")
  rejectIf (m.entries.size + m.directories.size + m.symlinks.size + m.tombstones.size
      > MAX_MANIFEST_ENTRIES)
    (.bail "manifest exceeds the maximum supported entry count")
  m.entries.toList.forM fun (path, entry) => m.checkEntry path entry
  m.directories.toList.forM fun (path, entry) => m.checkDirectory path entry
  m.symlinks.toList.forM fun (path, entry) => m.checkSymlink path entry
  m.tombstones.toList.forM fun (path, tombstone) => checkTombstone path tombstone
  m.validateManifestHierarchy

end Validate

/-! ## The hierarchy check -/

theorem isAncestor_iff_separator {a p : Str} :
    IsAncestor a p ↔ ∃ i ∈ separators p, a = p.take i := by
  simp only [separators, List.mem_filter, List.mem_range, decide_eq_true_eq]
  constructor
  · rintro ⟨s, rfl⟩
    exact ⟨a.length, ⟨by simp, by simp⟩, by simp⟩
  · rintro ⟨i, ⟨hi, hsep⟩, rfl⟩
    refine ⟨p.drop (i + 1), ?_⟩
    obtain ⟨_, hget⟩ := List.getElem?_eq_some_iff.mp hsep
    rw [← hget, List.cons_getElem_drop_succ, List.take_append_drop]

/-- No ancestor of `p` is recorded as anything but a directory. -/
def FreeAncestors (m : Manifest) (p : Str) : Prop :=
  ∀ a, IsAncestor a p → a ∉ m.entries ∧ a ∉ m.symlinks ∧ a ∉ m.tombstones

theorem checkAncestor_eq_ok {m : Manifest} {a : Str} :
    m.checkAncestor a = .ok () ↔ a ∉ m.entries ∧ a ∉ m.symlinks ∧ a ∉ m.tombstones := by
  simp [checkAncestor, and_assoc]

/-- An ancestor skipped as shared is an ancestor of the path before. -/
theorem isAncestor_of_shared {previous path : Str} {i : Nat} (hi : i ∈ separators path)
    (h : previous.take (i + 1) = path.take (i + 1)) : IsAncestor (path.take i) previous := by
  simp only [separators, List.mem_filter, List.mem_range, decide_eq_true_eq] at hi
  obtain ⟨hlt, hsep⟩ := hi
  refine ⟨previous.drop (i + 1), ?_⟩
  have hpre : path.take (i + 1) = path.take i ++ ['/'] := by
    rw [List.take_add_one, hsep]
    rfl
  calc previous = previous.take (i + 1) ++ previous.drop (i + 1) :=
        (List.take_append_drop _ _).symm
    _ = path.take i ++ '/' :: previous.drop (i + 1) := by rw [h, hpre]; simp

theorem hierarchyStep_ok {m : Manifest} {previous path path' : Str}
    (hprev : m.FreeAncestors previous) (h : m.hierarchyStep previous path = .ok path') :
    path' = path ∧ m.FreeAncestors path := by
  simp only [hierarchyStep, map_eq_ok] at h
  obtain ⟨shared, hfold, rfl⟩ := h
  refine ⟨rfl, ?_⟩
  -- every separator passed so far cut off a free ancestor, by its own check or by the
  -- check of the path before
  have hall := Check.foldlM_inv
    (I := fun done (_ : Bool) => ∀ i ∈ done, path.take i ∉ m.entries
      ∧ path.take i ∉ m.symlinks ∧ path.take i ∉ m.tombstones)
    (by simp) hfold (by
      intro pre i post b b' heq hpre hstep j hj
      have hi : i ∈ separators path := by
        have : separators path = pre ++ i :: post := by simpa using heq
        rw [this]; simp
      rcases List.mem_append.mp hj with hj | hj
      · exact hpre j hj
      · cases List.mem_singleton.mp hj
        unfold ancestorStep at hstep
        split at hstep
        · exact hprev _ (isAncestor_of_shared hi (by rename_i hs; exact hs.2))
        · simp only [map_eq_ok] at hstep
          obtain ⟨_, hcheck, _⟩ := hstep
          exact checkAncestor_eq_ok.mp hcheck)
  intro a ha
  obtain ⟨i, hi, rfl⟩ := isAncestor_iff_separator.mp ha
  exact hall i (by simpa using hi)

theorem hierarchyStep_of_free {m : Manifest} {path : Str} (h : m.FreeAncestors path)
    (previous : Str) : ∃ path', m.hierarchyStep previous path = .ok path' := by
  obtain ⟨b, hb⟩ := Check.foldlM_ok (f := m.ancestorStep previous path) (l := separators path)
    (by
      intro i hi b
      unfold ancestorStep
      split
      · exact ⟨true, rfl⟩
      · have hfree := h _ (isAncestor_iff_separator.mpr ⟨i, hi, rfl⟩)
        rw [checkAncestor_eq_ok.mpr hfree]
        exact ⟨false, rfl⟩) true
  exact ⟨path, by rw [hierarchyStep, hb]; rfl⟩

theorem validateManifestHierarchy_eq_ok {m : Manifest} :
    m.validateManifestHierarchy = .ok () ↔ ∀ p ∈ m.livePaths, m.FreeAncestors p := by
  unfold validateManifestHierarchy
  split
  · rename_i h
    simp only [Std.ExtTreeMap.isEmpty_iff] at h
    refine ⟨fun _ p _ a _ => ?_, fun _ => rfl⟩
    simp [h.1, h.2.1, h.2.2]
  · simp only [map_eq_ok]
    constructor
    · rintro ⟨last, hfold, -⟩
      have hall := Check.foldlM_inv
        (I := fun done previous => m.FreeAncestors previous ∧ ∀ p ∈ done, m.FreeAncestors p)
        ⟨?_, by simp⟩ hfold (by
          rintro pre path post previous path' - ⟨hprev, hpre⟩ hstep
          obtain ⟨rfl, hpath⟩ := hierarchyStep_ok hprev hstep
          refine ⟨hpath, fun p hp => ?_⟩
          rcases List.mem_append.mp hp with hp | hp
          · exact hpre p hp
          · cases List.mem_singleton.mp hp
            exact hpath)
      · intro p hp
        exact hall.2 p (by simpa using hp)
      · rintro a ⟨s, hs⟩
        simp at hs
    · intro h
      obtain ⟨last, hlast⟩ := Check.foldlM_ok (f := m.hierarchyStep) (l := m.livePaths)
        (fun p hp previous => hierarchyStep_of_free (h p hp) previous) []
      exact ⟨last, hlast, trivial⟩

/-! ## Validity -/

/-- No path has records in two of the four maps. -/
structure Separated (m : Manifest) : Prop where
  file_directory : ∀ {p}, p ∈ m.entries → p ∉ m.directories
  file_symlink : ∀ {p}, p ∈ m.entries → p ∉ m.symlinks
  file_tombstone : ∀ {p}, p ∈ m.entries → p ∉ m.tombstones
  directory_symlink : ∀ {p}, p ∈ m.directories → p ∉ m.symlinks
  directory_tombstone : ∀ {p}, p ∈ m.directories → p ∉ m.tombstones
  symlink_tombstone : ∀ {p}, p ∈ m.symlinks → p ∉ m.tombstones

/-- `p` has a record that is not a tombstone. -/
def Live (m : Manifest) (p : Str) : Prop := ∃ r, m.record p = some r ∧ r.isTombstone = false

/-- What may stand above a live path. -/
def MayContain (m : Manifest) (a : Str) : Prop :=
  m.record a = none ∨ ∃ e, m.record a = some (.directory e)

structure Valid [Crypto] (m : Manifest) (shareId : ShareId) : Prop where
  format : m.formatVersion = LEGACY_MANIFEST_FORMAT_VERSION
    ∨ m.formatVersion = PREVIOUS_MANIFEST_FORMAT_VERSION
    ∨ m.formatVersion = MANIFEST_FORMAT_VERSION
  share : m.shareId = shareId
  count : m.paths.length ≤ MAX_MANIFEST_ENTRIES
  separated : m.Separated
  accepted : ∀ {p r}, m.record p = some r → Accepted p
  record_valid : ∀ {p r}, m.record p = some r → r.validate = .ok ()
  hierarchy : ∀ {p a}, m.Live p → IsAncestor a p → m.MayContain a

section Record

variable {m : Manifest} {p : Str}

theorem record_file_iff {e : ManifestEntry} :
    m.record p = some (.file e) ↔ m.entries[p]? = some e := by
  unfold record
  cases m.entries[p]? with
  | some e' => simp
  | none => cases m.directories[p]? <;> cases m.symlinks[p]? <;> simp

theorem record_directory {e : DirectoryEntry} (h : m.record p = some (.directory e)) :
    m.directories[p]? = some e := by
  unfold record at h
  cases hf : m.entries[p]? <;> cases hd : m.directories[p]? <;> cases hs : m.symlinks[p]? <;>
    simp_all

theorem record_symlink {e : SymlinkEntry} (h : m.record p = some (.symlink e)) :
    m.symlinks[p]? = some e := by
  unfold record at h
  cases hf : m.entries[p]? <;> cases hd : m.directories[p]? <;> cases hs : m.symlinks[p]? <;>
    simp_all

theorem record_tombstone {e : Tombstone} (h : m.record p = some (.tombstone e)) :
    m.tombstones[p]? = some e := by
  unfold record at h
  cases hf : m.entries[p]? <;> cases hd : m.directories[p]? <;> cases hs : m.symlinks[p]? <;>
    simp_all

theorem record_eq_none_iff : m.record p = none ↔
    m.entries[p]? = none ∧ m.directories[p]? = none ∧ m.symlinks[p]? = none
      ∧ m.tombstones[p]? = none := by
  unfold record
  cases m.entries[p]? <;> cases m.directories[p]? <;> cases m.symlinks[p]? <;> simp

namespace Separated

theorem directories_iff (h : m.Separated) {e : DirectoryEntry} :
    m.record p = some (.directory e) ↔ m.directories[p]? = some e := by
  refine ⟨record_directory, fun hd => ?_⟩
  have hf : m.entries[p]? = none := notMem_iff_lookup.mp fun hf =>
    h.file_directory hf (mem_iff_lookup.mpr ⟨e, hd⟩)
  simp [record, hf, hd]

theorem symlinks_iff (h : m.Separated) {e : SymlinkEntry} :
    m.record p = some (.symlink e) ↔ m.symlinks[p]? = some e := by
  refine ⟨record_symlink, fun hs => ?_⟩
  have hmem := mem_iff_lookup.mpr ⟨e, hs⟩
  have hf : m.entries[p]? = none := notMem_iff_lookup.mp fun hf => h.file_symlink hf hmem
  have hd : m.directories[p]? = none := notMem_iff_lookup.mp fun hd => h.directory_symlink hd hmem
  simp [record, hf, hd, hs]

theorem tombstones_iff (h : m.Separated) {e : Tombstone} :
    m.record p = some (.tombstone e) ↔ m.tombstones[p]? = some e := by
  refine ⟨record_tombstone, fun ht => ?_⟩
  have hmem := mem_iff_lookup.mpr ⟨e, ht⟩
  have hf : m.entries[p]? = none := notMem_iff_lookup.mp fun hf => h.file_tombstone hf hmem
  have hd : m.directories[p]? = none := notMem_iff_lookup.mp fun hd => h.directory_tombstone hd hmem
  have hs : m.symlinks[p]? = none := notMem_iff_lookup.mp fun hs => h.symlink_tombstone hs hmem
  simp [record, hf, hd, hs, ht]

end Separated

theorem mem_livePaths : p ∈ m.livePaths ↔ m.Live p := by
  simp only [livePaths, List.mem_append, Std.ExtTreeMap.mem_keys, mem_iff_lookup, Live, record]
  cases m.entries[p]? <;> cases m.directories[p]? <;> cases m.symlinks[p]? <;>
    cases m.tombstones[p]? <;> simp [ManifestRecord.isTombstone]

theorem mem_paths : p ∈ m.paths ↔ ∃ r, m.record p = some r := by
  simp only [paths, livePaths, List.mem_append, Std.ExtTreeMap.mem_keys, mem_iff_lookup, record]
  cases m.entries[p]? <;> cases m.directories[p]? <;> cases m.symlinks[p]? <;>
    cases m.tombstones[p]? <;> simp

theorem length_paths :
    m.paths.length = m.entries.size + m.directories.size + m.symlinks.size + m.tombstones.size := by
  simp [paths, livePaths, Std.ExtTreeMap.length_keys, Nat.add_assoc]

theorem Separated.nodup_paths (h : m.Separated) : m.paths.Nodup := by
  simp only [paths, livePaths, List.nodup_append, Std.ExtTreeMap.nodup_keys,
    Std.ExtTreeMap.mem_keys, List.mem_append, true_and]
  refine ⟨⟨?_, ?_⟩, ?_⟩
  · rintro a ha b hb rfl
    exact h.file_directory ha hb
  · rintro a (ha | ha) b hb rfl
    · exact h.file_symlink ha hb
    · exact h.directory_symlink ha hb
  · rintro a ((ha | ha) | ha) b hb rfl
    · exact h.file_tombstone ha hb
    · exact h.directory_tombstone ha hb
    · exact h.symlink_tombstone ha hb

end Record

theorem Separated.length_paths_le {m m' : Manifest} (h : m.Separated)
    (hsub : ∀ p, m'.record p = none → m.record p = none) : m.paths.length ≤ m'.paths.length := by
  refine (List.subperm_of_subset h.nodup_paths fun p hp => ?_).length_le
  rw [mem_paths] at hp ⊢
  obtain ⟨r, hr⟩ := hp
  cases hr' : m'.record p with
  | none => rw [hsub p hr'] at hr; cases hr
  | some r' => exact ⟨r', rfl⟩

section Verdict

variable {m : Manifest} {shareId : ShareId}

theorem forM_toList_eq_ok {V : Type} {t : BTreeMap Str V} {f : Str → V → Except Error Unit} :
    (t.toList.forM fun x => f x.1 x.2) = .ok () ↔ ∀ p v, t[p]? = some v → f p v = .ok () := by
  rw [forM_eq_ok]
  simp only [Prod.forall, Std.ExtTreeMap.mem_toList_iff_getElem?_eq_some]

theorem freeAncestors_iff {p : Str} :
    m.FreeAncestors p ↔ ∀ a, IsAncestor a p → m.MayContain a ∧ a ∉ m.symlinks ∧ a ∉ m.tombstones := by
  refine forall₂_congr fun a _ => ?_
  simp only [MayContain, record, notMem_iff_lookup]
  cases m.entries[a]? <;> cases m.directories[a]? <;> cases m.symlinks[a]? <;>
    cases m.tombstones[a]? <;> simp

variable [Crypto]

theorem validate_eq_ok : m.validate shareId = .ok () ↔ m.Valid shareId := by
  simp only [validate, andThen_eq_ok, rejectIf_eq_ok, forM_toList_eq_ok,
    validateManifestHierarchy_eq_ok, mem_livePaths, ← length_paths, Decidable.not_not, not_lt,
    gt_iff_lt, ne_eq]
  simp only [checkEntry, checkDirectory, checkSymlink, checkTombstone, andThen_eq_ok,
    rejectIf_eq_ok, validateManifestPath_eq_ok, not_or]
  constructor
  · rintro ⟨hformat, hshare, hcount, hf, hd, hs, ht, hh⟩
    have sep : m.Separated :=
      { file_directory := fun h => by obtain ⟨e, he⟩ := mem_iff_lookup.mp h; exact (hf _ e he).2.2.1
        file_symlink := fun h h' => by
          obtain ⟨e, he⟩ := mem_iff_lookup.mp h'; exact (hs _ e he).2.2.1.1 h
        file_tombstone := fun h => by obtain ⟨e, he⟩ := mem_iff_lookup.mp h; exact (hf _ e he).2.2.2
        directory_symlink := fun h h' => by
          obtain ⟨e, he⟩ := mem_iff_lookup.mp h'; exact (hs _ e he).2.2.1.2 h
        directory_tombstone := fun h => by
          obtain ⟨e, he⟩ := mem_iff_lookup.mp h; exact (hd _ e he).2.2
        symlink_tombstone := fun h => by
          obtain ⟨e, he⟩ := mem_iff_lookup.mp h; exact (hs _ e he).2.2.2 }
    have hrec : ∀ {p r}, m.record p = some r → Accepted p ∧ r.validate = .ok () := by
      intro p r hr
      cases r with
      | file e => exact ⟨(hf p e (record_file_iff.mp hr)).1, (hf p e (record_file_iff.mp hr)).2.1⟩
      | directory e => exact ⟨(hd p e (record_directory hr)).1, (hd p e (record_directory hr)).2.1⟩
      | symlink e => exact ⟨(hs p e (record_symlink hr)).1, (hs p e (record_symlink hr)).2.1⟩
      | tombstone e => exact ht p e (record_tombstone hr)
    exact ⟨hformat, hshare, hcount, sep, fun hr => (hrec hr).1, fun hr => (hrec hr).2,
      fun hp ha => (freeAncestors_iff.mp (hh _ hp) _ ha).1⟩
  · intro h
    refine ⟨h.format, h.share, h.count, fun p e he => ?_, fun p e he => ?_, fun p e he => ?_,
      fun p e he => ?_, fun p hp => freeAncestors_iff.mpr fun a ha => ?_⟩
    · have hr := record_file_iff.mpr he
      have hmem := mem_iff_lookup.mpr ⟨e, he⟩
      exact ⟨h.accepted hr, h.record_valid hr, h.separated.file_directory hmem,
        h.separated.file_tombstone hmem⟩
    · have hr := h.separated.directories_iff.mpr he
      have hmem := mem_iff_lookup.mpr ⟨e, he⟩
      exact ⟨h.accepted hr, h.record_valid hr, h.separated.directory_tombstone hmem⟩
    · have hr := h.separated.symlinks_iff.mpr he
      have hmem := mem_iff_lookup.mpr ⟨e, he⟩
      exact ⟨h.accepted hr, h.record_valid hr,
        ⟨fun hf => h.separated.file_symlink hf hmem, fun hd => h.separated.directory_symlink hd hmem⟩,
        h.separated.symlink_tombstone hmem⟩
    · have hr := h.separated.tombstones_iff.mpr he
      exact ⟨h.accepted hr, h.record_valid hr⟩
    · have hc := h.hierarchy hp ha
      refine ⟨hc, fun hmem => ?_, fun hmem => ?_⟩ <;> obtain ⟨e, he⟩ := mem_iff_lookup.mp hmem
      · rcases hc with hc | ⟨d, hc⟩ <;> rw [h.separated.symlinks_iff.mpr he] at hc <;> cases hc
      · rcases hc with hc | ⟨d, hc⟩ <;> rw [h.separated.tombstones_iff.mpr he] at hc <;> cases hc

instance : Decidable (m.Valid shareId) := decidable_of_iff _ validate_eq_ok

end Verdict

/-- Every ancestor of a live path is a directory record, as a scan leaves it. -/
def AncestorsRecorded (m : Manifest) : Prop :=
  ∀ {p a}, m.Live p → IsAncestor a p → ∃ e, m.record a = some (.directory e)

instance (m : Manifest) : Decidable m.AncestorsRecorded :=
  decidable_of_iff
    (∀ p ∈ m.livePaths, ∀ i ∈ separators p,
      ((m.record (p.take i)).elim false fun r => r matches .directory _) = true) <| by
    have hdir : ∀ x : Option ManifestRecord,
        ((x.elim false fun r => r matches .directory _) = true) ↔ ∃ e, x = some (.directory e) := by
      rintro (_ | (e | e | e | e)) <;> simp
    simp only [hdir]
    constructor
    · intro h p a hp ha
      obtain ⟨i, hi, rfl⟩ := isAncestor_iff_separator.mp ha
      exact h p (mem_livePaths.mpr hp) i hi
    · intro h p hp i hi
      exact h (mem_livePaths.mp hp) (isAncestor_iff_separator.mpr ⟨i, hi, rfl⟩)

end Manifest

/-! ## A manifest as a function

`m.Holds f` says that the four maps of `m` hold the records of `f` and nothing
else.  It is separation and `record` in one (`Holds.of_separated`), and the form in
which updates are easy to state. -/

namespace ManifestRecord

def file? : ManifestRecord → Option ManifestEntry
  | file e => some e
  | _ => none

def directory? : ManifestRecord → Option DirectoryEntry
  | directory e => some e
  | _ => none

def symlink? : ManifestRecord → Option SymlinkEntry
  | symlink e => some e
  | _ => none

def tombstone? : ManifestRecord → Option Tombstone
  | tombstone e => some e
  | _ => none

end ManifestRecord

namespace Manifest

structure Holds (m : Manifest) (f : Str → Option ManifestRecord) : Prop where
  entries : ∀ p, m.entries[p]? = (f p).bind ManifestRecord.file?
  directories : ∀ p, m.directories[p]? = (f p).bind ManifestRecord.directory?
  symlinks : ∀ p, m.symlinks[p]? = (f p).bind ManifestRecord.symlink?
  tombstones : ∀ p, m.tombstones[p]? = (f p).bind ManifestRecord.tombstone?

namespace Holds

variable {m : Manifest} {f : Str → Option ManifestRecord}

theorem record_eq (h : m.Holds f) (p : Str) : m.record p = f p := by
  rw [record, h.entries, h.directories, h.symlinks, h.tombstones]
  rcases f p with _ | (e | e | e | e) <;> rfl

theorem separated (h : m.Holds f) : m.Separated := by
  constructor <;> intro p <;>
    simp only [mem_iff_lookup, h.entries, h.directories, h.symlinks, h.tombstones] <;>
    rcases f p with _ | (e | e | e | e) <;>
    simp [ManifestRecord.file?, ManifestRecord.directory?, ManifestRecord.symlink?,
      ManifestRecord.tombstone?]

theorem of_separated (h : m.Separated) (hf : ∀ p, m.record p = f p) : m.Holds f := by
  obtain rfl : m.record = f := funext hf
  constructor <;> intro p
  · cases hr : m.record p with
    | none => exact (record_eq_none_iff.mp hr).1
    | some r =>
        cases r with
        | file e => exact record_file_iff.mp hr
        | directory e =>
            exact notMem_iff_lookup.mp fun hm =>
              h.file_directory hm (mem_iff_lookup.mpr ⟨e, record_directory hr⟩)
        | symlink e =>
            exact notMem_iff_lookup.mp fun hm =>
              h.file_symlink hm (mem_iff_lookup.mpr ⟨e, record_symlink hr⟩)
        | tombstone e =>
            exact notMem_iff_lookup.mp fun hm =>
              h.file_tombstone hm (mem_iff_lookup.mpr ⟨e, record_tombstone hr⟩)
  · refine Option.ext fun e => ?_
    rw [← h.directories_iff]
    rcases m.record p with _ | (e | e | e | e) <;> simp [ManifestRecord.directory?]
  · refine Option.ext fun e => ?_
    rw [← h.symlinks_iff]
    rcases m.record p with _ | (e | e | e | e) <;> simp [ManifestRecord.symlink?]
  · refine Option.ext fun e => ?_
    rw [← h.tombstones_iff]
    rcases m.record p with _ | (e | e | e | e) <;> simp [ManifestRecord.tombstone?]

end Holds

theorem Separated.holds {m : Manifest} (h : m.Separated) : m.Holds m.record :=
  Holds.of_separated h fun _ => rfl

theorem maps_eq_of_holds {m m' : Manifest} {f : Str → Option ManifestRecord}
    (h : m.Holds f) (h' : m'.Holds f) :
    m.entries = m'.entries ∧ m.directories = m'.directories ∧ m.symlinks = m'.symlinks
      ∧ m.tombstones = m'.tombstones :=
  ⟨Std.ExtTreeMap.ext_getElem? fun p => by rw [h.entries, h'.entries],
   Std.ExtTreeMap.ext_getElem? fun p => by rw [h.directories, h'.directories],
   Std.ExtTreeMap.ext_getElem? fun p => by rw [h.symlinks, h'.symlinks],
   Std.ExtTreeMap.ext_getElem? fun p => by rw [h.tombstones, h'.tombstones]⟩

theorem holds_empty (shareId : ShareId) (nowMs : U64) :
    (empty shareId nowMs).Holds fun _ => none := by
  constructor <;> intro p <;> simp [empty]

theorem valid_empty [Crypto] (shareId : ShareId) (nowMs : U64) :
    (empty shareId nowMs).Valid shareId := by
  have hnone : ∀ p, (empty shareId nowMs).record p = none := (holds_empty shareId nowMs).record_eq
  refine ⟨.inr (.inr rfl), rfl, ?_, (holds_empty shareId nowMs).separated, ?_, ?_, ?_⟩
  · rw [length_paths]
    exact Nat.zero_le _
  · intro p r hr
    rw [hnone] at hr
    cases hr
  · intro p r hr
    rw [hnone] at hr
    cases hr
  · intro p a _ _
    exact .inl (hnone a)

end Manifest

/-! ## Up to modification times

What two devices agree on.  The modification time of a file is local to a device; every
other field of a record is shared. -/

/-- The record without what is local to a device. -/
def ManifestRecord.synced : ManifestRecord → ManifestRecord
  | file e => .file { e with modifiedAtNs := 0 }
  | r => r

namespace ManifestRecord

@[simp] theorem version_synced (r : ManifestRecord) : r.synced.version = r.version := by
  cases r <;> rfl

@[simp] theorem isTombstone_synced (r : ManifestRecord) : r.synced.isTombstone = r.isTombstone := by
  cases r <;> rfl

theorem validate_synced [Crypto] (r : ManifestRecord) : r.synced.validate = r.validate := by
  cases r <;> rfl

end ManifestRecord

namespace Manifest

/-- The same records, up to modification times. -/
def SyncEq (m m' : Manifest) : Prop :=
  ∀ p, (m.record p).map ManifestRecord.synced = (m'.record p).map ManifestRecord.synced

namespace SyncEq

variable {m m' m'' : Manifest}

theorem refl (m : Manifest) : m.SyncEq m := fun _ => rfl

theorem symm (h : m.SyncEq m') : m'.SyncEq m := fun p => (h p).symm

theorem exists_record (h : m.SyncEq m') {p : Str} {r : ManifestRecord} (hr : m.record p = some r) :
    ∃ r', m'.record p = some r' ∧ r.synced = r'.synced := by
  have := h p
  rw [hr, Option.map_some] at this
  obtain ⟨r', hr', heq⟩ := Option.map_eq_some_iff.mp this.symm
  exact ⟨r', hr', heq.symm⟩

theorem record_none (h : m.SyncEq m') {p : Str} (hr : m.record p = none) : m'.record p = none := by
  have := h p
  rw [hr] at this
  exact Option.map_eq_none_iff.mp this.symm

theorem live (h : m.SyncEq m') {p : Str} (hp : m.Live p) : m'.Live p := by
  obtain ⟨r, hr, ht⟩ := hp
  obtain ⟨r', hr', heq⟩ := h.exists_record hr
  refine ⟨r', hr', ?_⟩
  rw [← ManifestRecord.isTombstone_synced, ← heq, ManifestRecord.isTombstone_synced, ht]

theorem directory (h : m.SyncEq m') {p : Str} {e : DirectoryEntry}
    (hr : m.record p = some (.directory e)) : m'.record p = some (.directory e) := by
  obtain ⟨r', hr', heq⟩ := h.exists_record hr
  cases r' <;> cases heq
  exact hr'

theorem mayContain (h : m.SyncEq m') {p : Str} (hp : m.MayContain p) : m'.MayContain p := by
  rcases hp with hp | ⟨e, hp⟩
  · exact .inl (h.record_none hp)
  · exact .inr ⟨e, h.directory hp⟩

theorem valid [Crypto] {shareId : ShareId} (h : m.SyncEq m') (hv : m.Valid shareId)
    (hsep : m'.Separated)
    (hformat : m'.formatVersion = m.formatVersion ∨ m'.formatVersion = MANIFEST_FORMAT_VERSION)
    (hshare : m'.shareId = m.shareId) : m'.Valid shareId where
  format := by
    rcases hformat with hf | hf
    · rw [hf]; exact hv.format
    · exact .inr (.inr hf)
  share := hshare.trans hv.share
  count := (hsep.length_paths_le fun _ hn => h.record_none hn).trans hv.count
  separated := hsep
  accepted := fun hr => by
    obtain ⟨r, hr', -⟩ := h.symm.exists_record hr
    exact hv.accepted hr'
  record_valid := fun {p r} hr => by
    obtain ⟨r', hr', heq⟩ := h.symm.exists_record hr
    rw [← ManifestRecord.validate_synced, heq, ManifestRecord.validate_synced]
    exact hv.record_valid hr'
  hierarchy := fun hp ha => h.mayContain (hv.hierarchy (h.symm.live hp) ha)

end SyncEq

end Manifest

end Syncbox

/-
# `Syncbox.Manifest.Digest` — what the digest of a manifest is taken of

`sync_digest_after_validation` of `src/manifest/model.rs`.  The hasher is fed piece by
piece and hashes the concatenation, so each `update_digest_*` is modelled by the bytes it
feeds and `digestInput` is all of them.

Nothing separates the pieces.  What makes the whole unambiguous is that every piece is
self-delimiting: numbers have fixed widths, texts and maps follow their lengths, and
permissions follow a tag.  The two values a device does not share — when it scanned, and
what time its file system gave a file — are not fed at all.
-/
import Syncbox.Lib.Encode
import Syncbox.Manifest.Model

namespace Syncbox

open Rust Encode Check

/-! ## The bytes -/

def updateDigestLen (length : Nat) : List Byte := toBe 8 length

def updateDigestBytes (value : List Byte) : List Byte := updateDigestLen value.length ++ value

def updateDigestPermissions : Option U16 → List Byte
  | some permissions => [1] ++ toBe 2 permissions.toNat
  | none => [0]

def updateDigestTimestamp (timestamp : HlcTimestamp) : List Byte :=
  toBe 8 timestamp.wallMs ++ toBe 4 timestamp.counter ++ timestamp.author.val

/-- The body of the loop over files. -/
def digestFile (x : Str × ManifestEntry) : List Byte :=
  updateDigestBytes (asBytes x.1) ++ toBe 8 x.2.size ++ updateDigestBytes (asBytes x.2.sha256)
    ++ updateDigestPermissions x.2.permissions ++ updateDigestTimestamp x.2.version

/-- The body of the loop over directories. -/
def digestDirectory (x : Str × DirectoryEntry) : List Byte :=
  updateDigestBytes (asBytes x.1) ++ updateDigestPermissions x.2.permissions
    ++ updateDigestTimestamp x.2.version

/-- The body of the loop over links. -/
def digestSymlink (x : Str × SymlinkEntry) : List Byte :=
  updateDigestBytes (asBytes x.1) ++ updateDigestBytes (asBytes x.2.target)
    ++ updateDigestTimestamp x.2.version

/-- The body of the loop over tombstones. -/
def digestTombstone (x : Str × Tombstone) : List Byte :=
  updateDigestBytes (asBytes x.1) ++ updateDigestTimestamp x.2.version

namespace Manifest

/-- Everything the hasher is fed. -/
def digestInput (m : Manifest) : List Byte :=
  asBytes "syncbox-manifest-digest-v1\x00".toList ++ toBe 2 m.formatVersion.toNat ++ m.shareId.val
    ++ (updateDigestLen m.entries.size ++ m.entries.toList.flatMap digestFile)
    ++ (updateDigestLen m.directories.size ++ m.directories.toList.flatMap digestDirectory)
    ++ (updateDigestLen m.symlinks.size ++ m.symlinks.toList.flatMap digestSymlink)
    ++ (updateDigestLen m.tombstones.size ++ m.tombstones.toList.flatMap digestTombstone)

def syncDigestAfterValidation [Crypto] (m : Manifest) : Digest := Crypto.blake3 m.digestInput

def syncDigest [Crypto] (m : Manifest) (expectedShareId : ShareId) : Except Error Digest := do
  m.validate expectedShareId
  .ok m.syncDigestAfterValidation

end Manifest

/-! ## Pieces -/

/-- A length fits its eight bytes. -/
def Fits (s : Str) : Prop := utf8Len s < 2 ^ 64

theorem selfDelimiting_bytes :
    SelfDelimiting (fun s => Fits s) fun s => updateDigestBytes (asBytes s) := by
  intro a b s t ha hb he
  simp only [updateDigestBytes, updateDigestLen, List.append_assoc, length_asBytes] at he
  obtain ⟨hlen, hrest⟩ := selfDelimiting_toBe 8 (a := utf8Len a) (b := utf8Len b) ha hb he
  obtain ⟨hbytes, hst⟩ := List.append_inj hrest (by rw [length_asBytes, length_asBytes, hlen])
  exact ⟨asBytes_injective hbytes, hst⟩

theorem selfDelimiting_permissions : SelfDelimiting (fun _ => True) updateDigestPermissions := by
  intro a b s t _ _ he
  cases a with
  | none =>
      cases b with
      | none => exact ⟨rfl, by simpa [updateDigestPermissions] using he⟩
      | some q => simp [updateDigestPermissions] at he
  | some p =>
      cases b with
      | none => simp [updateDigestPermissions] at he
      | some q =>
          simp only [updateDigestPermissions, List.append_assoc] at he
          have hrest := List.append_cancel_left he
          obtain ⟨hpq, hst⟩ := selfDelimiting_toBe 2 p.isLt q.isLt hrest
          exact ⟨by rw [BitVec.eq_of_toNat_eq hpq], hst⟩

theorem selfDelimiting_timestamp : SelfDelimiting (fun _ => True) updateDigestTimestamp := by
  rintro ⟨wall, counter, author⟩ ⟨wall', counter', author'⟩ s t _ _ he
  simp only [updateDigestTimestamp, List.append_assoc] at he
  obtain ⟨hw, he⟩ := selfDelimiting_toBe 8 wall.isLt wall'.isLt he
  obtain ⟨hc, he⟩ := selfDelimiting_toBe 4 counter.isLt counter'.isLt he
  obtain ⟨ha, hst⟩ := List.append_inj he (by rw [author.property, author'.property])
  exact ⟨by rw [Fin.ext hw, Fin.ext hc, Subtype.ext ha], hst⟩

/-! ## Records -/

/-- The texts of a file fit, and its local time is blank. -/
def FileFits (x : Str × ManifestEntry) : Prop :=
  Fits x.1 ∧ Fits x.2.sha256 ∧ x.2.modifiedAtNs = 0

theorem selfDelimiting_file : SelfDelimiting FileFits digestFile := by
  rintro ⟨p, size, time, sum, perm, version⟩ ⟨q, size', time', sum', perm', version'⟩ s t
    ⟨hp, hsum, htime⟩ ⟨hq, hsum', htime'⟩ he
  simp only [digestFile, List.append_assoc] at he hp hq hsum hsum' htime htime'
  obtain ⟨hpath, h₁⟩ := selfDelimiting_bytes hp hq he
  obtain ⟨hsize, h₂⟩ := selfDelimiting_toBe 8 size.isLt size'.isLt h₁
  obtain ⟨hsums, h₃⟩ := selfDelimiting_bytes hsum hsum' h₂
  obtain ⟨hperm, h₄⟩ := selfDelimiting_permissions trivial trivial h₃
  obtain ⟨hversion, hst⟩ := selfDelimiting_timestamp trivial trivial h₄
  exact ⟨by rw [hpath, Fin.ext hsize, htime, htime', hsums, hperm, hversion], hst⟩

theorem selfDelimiting_directory : SelfDelimiting (fun x => Fits x.1) digestDirectory := by
  rintro ⟨p, perm, version⟩ ⟨q, perm', version'⟩ s t hp hq he
  simp only [digestDirectory, List.append_assoc] at he hp hq
  obtain ⟨hpath, h₁⟩ := selfDelimiting_bytes hp hq he
  obtain ⟨hperm, h₂⟩ := selfDelimiting_permissions trivial trivial h₁
  obtain ⟨hversion, hst⟩ := selfDelimiting_timestamp trivial trivial h₂
  exact ⟨by rw [hpath, hperm, hversion], hst⟩

theorem selfDelimiting_symlink :
    SelfDelimiting (fun x => Fits x.1 ∧ Fits x.2.target) digestSymlink := by
  rintro ⟨p, target, version⟩ ⟨q, target', version'⟩ s t ⟨hp, ht⟩ ⟨hq, ht'⟩ he
  simp only [digestSymlink, List.append_assoc] at he hp hq ht ht'
  obtain ⟨hpath, h₁⟩ := selfDelimiting_bytes hp hq he
  obtain ⟨htarget, h₂⟩ := selfDelimiting_bytes ht ht' h₁
  obtain ⟨hversion, hst⟩ := selfDelimiting_timestamp trivial trivial h₂
  exact ⟨by rw [hpath, htarget, hversion], hst⟩

theorem selfDelimiting_tombstone : SelfDelimiting (fun x => Fits x.1) digestTombstone := by
  rintro ⟨p, ⟨version⟩⟩ ⟨q, ⟨version'⟩⟩ s t hp hq he
  simp only [digestTombstone, List.append_assoc] at he hp hq
  obtain ⟨hpath, h₁⟩ := selfDelimiting_bytes hp hq he
  obtain ⟨hversion, hst⟩ := selfDelimiting_timestamp trivial trivial h₁
  exact ⟨by rw [hpath, hversion], hst⟩

/-! ## Manifests -/

theorem selfDelimiting_map {V : Type} {P : Str × V → Prop} {enc : Str × V → List Byte}
    (h : SelfDelimiting P enc) :
    SelfDelimiting (fun m : BTreeMap Str V => m.size < 2 ^ 64 ∧ ∀ p v, m[p]? = some v → P (p, v))
      fun m => updateDigestLen m.size ++ m.toList.flatMap enc := by
  intro m m' s t hm hm' he
  have hmem : ∀ {m : BTreeMap Str V}, (∀ p v, m[p]? = some v → P (p, v)) → ∀ x ∈ m.toList, P x :=
    fun hP x hx => hP x.1 x.2 (Std.ExtTreeMap.mem_toList_iff_getElem?_eq_some.mp hx)
  have hcounted := h.counted 8 (a := m.toList) (b := m'.toList) (s := s) (t := t)
  simp only [counted, Std.ExtTreeMap.length_toList] at hcounted
  obtain ⟨hlist, hst⟩ := hcounted ⟨hm.1, hmem hm.2⟩ ⟨hm'.1, hmem hm'.2⟩ he
  refine ⟨Std.ExtTreeMap.ext_getElem? fun p => Option.ext fun v => ?_, hst⟩
  rw [← Std.ExtTreeMap.mem_toList_iff_getElem?_eq_some, hlist,
    Std.ExtTreeMap.mem_toList_iff_getElem?_eq_some]

/-- The files without their local times. -/
def Manifest.sharedEntries (m : Manifest) : BTreeMap Str ManifestEntry :=
  m.entries.map fun _ e => { e with modifiedAtNs := 0 }

namespace Manifest

variable {m m' : Manifest}

theorem sharedEntries_lookup (p : Str) :
    m.sharedEntries[p]? = m.entries[p]?.map fun e => { e with modifiedAtNs := 0 } := by
  rw [sharedEntries, Std.ExtTreeMap.getElem?_map]

/-- The local times are not among the bytes of the files. -/
theorem digestFiles_eq_shared :
    updateDigestLen m.entries.size ++ m.entries.toList.flatMap digestFile
      = updateDigestLen m.sharedEntries.size ++ m.sharedEntries.toList.flatMap digestFile := by
  rw [sharedEntries, Std.ExtTreeMap.size_map, Std.ExtTreeMap.toList_map, List.flatMap_map]
  rfl

/-- Lengths fit the fields they are written to. -/
structure LengthsFit (m : Manifest) : Prop where
  entries : m.entries.size < 2 ^ 64
  directories : m.directories.size < 2 ^ 64
  symlinks : m.symlinks.size < 2 ^ 64
  tombstones : m.tombstones.size < 2 ^ 64
  paths : ∀ p ∈ m.paths, Fits p
  sums : ∀ (p : Str) (e : ManifestEntry), m.entries[p]? = some e → Fits e.sha256
  targets : ∀ (p : Str) (e : SymlinkEntry), m.symlinks[p]? = some e → Fits e.target

theorem Valid.lengthsFit [Crypto] {shareId : ShareId} (h : m.Valid shareId) : m.LengthsFit := by
  have hcount := h.count
  rw [length_paths] at hcount
  have hmax : MAX_MANIFEST_ENTRIES < 2 ^ 64 := by decide
  refine ⟨by omega, by omega, by omega, by omega, fun p hp => ?_, fun p e he => ?_, fun p e he => ?_⟩
  · obtain ⟨r, hr⟩ := mem_paths.mp hp
    have := (h.accepted hr).short
    show utf8Len p < 2 ^ 64
    omega
  · have hv := h.record_valid (record_file_iff.mpr he)
    simp only [ManifestRecord.validate, ManifestEntry.validate, andThen_eq_ok,
      rejectIf_eq_ok, not_or, Decidable.not_not] at hv
    show utf8Len e.sha256 < 2 ^ 64
    omega
  · have hv := h.record_valid (h.separated.symlinks_iff.mpr he)
    simp only [ManifestRecord.validate, SymlinkEntry.validate, validateSymlinkTarget,
      andThen_eq_ok, rejectIf_eq_ok, not_or] at hv
    show utf8Len e.target < 2 ^ 64
    omega

theorem mem_paths_of_directory {p : Str} {e : DirectoryEntry} (h : m.directories[p]? = some e) :
    p ∈ m.paths := by
  simp [paths, livePaths, mem_iff_lookup.mpr ⟨e, h⟩]

theorem mem_paths_of_symlink {p : Str} {e : SymlinkEntry} (h : m.symlinks[p]? = some e) :
    p ∈ m.paths := by
  simp [paths, livePaths, mem_iff_lookup.mpr ⟨e, h⟩]

theorem mem_paths_of_tombstone {p : Str} {e : Tombstone} (h : m.tombstones[p]? = some e) :
    p ∈ m.paths := by
  simp [paths, mem_iff_lookup.mpr ⟨e, h⟩]

theorem digestInput_eq_iff_shared (hm : m.LengthsFit) (hm' : m'.LengthsFit) :
    m.digestInput = m'.digestInput ↔
      m.formatVersion = m'.formatVersion ∧ m.shareId = m'.shareId
        ∧ m.sharedEntries = m'.sharedEntries ∧ m.directories = m'.directories
        ∧ m.symlinks = m'.symlinks ∧ m.tombstones = m'.tombstones := by
  have hfiles : ∀ {m : Manifest}, m.LengthsFit → m.sharedEntries.size < 2 ^ 64
      ∧ ∀ p v, m.sharedEntries[p]? = some v → FileFits (p, v) := by
    intro m hm
    refine ⟨by rw [sharedEntries, Std.ExtTreeMap.size_map]; exact hm.entries, fun p v hv => ?_⟩
    rw [sharedEntries_lookup, Option.map_eq_some_iff] at hv
    obtain ⟨e, he, rfl⟩ := hv
    exact ⟨hm.paths p (mem_paths.mpr ⟨_, record_file_iff.mpr he⟩), hm.sums p e he, rfl⟩
  constructor
  · intro h
    simp only [digestInput, digestFiles_eq_shared, List.append_assoc] at h
    have h₁ := List.append_cancel_left h
    obtain ⟨hformat, h₂⟩ := selfDelimiting_toBe 2 m.formatVersion.isLt m'.formatVersion.isLt h₁
    obtain ⟨hshare, h₃⟩ :=
      List.append_inj h₂ (by rw [m.shareId.property, m'.shareId.property])
    simp only [← List.append_assoc (updateDigestLen _)] at h₃
    obtain ⟨hentries, h₄⟩ := selfDelimiting_map selfDelimiting_file (hfiles hm) (hfiles hm') h₃
    obtain ⟨hdirs, h₅⟩ := selfDelimiting_map selfDelimiting_directory
      ⟨hm.directories, fun p v hv => hm.paths p (mem_paths_of_directory hv)⟩
      ⟨hm'.directories, fun p v hv => hm'.paths p (mem_paths_of_directory hv)⟩ h₄
    obtain ⟨hlinks, h₆⟩ := selfDelimiting_map selfDelimiting_symlink
      ⟨hm.symlinks, fun p v hv => ⟨hm.paths p (mem_paths_of_symlink hv), hm.targets p v hv⟩⟩
      ⟨hm'.symlinks, fun p v hv => ⟨hm'.paths p (mem_paths_of_symlink hv), hm'.targets p v hv⟩⟩ h₅
    have htombs := (selfDelimiting_map selfDelimiting_tombstone).injective
      ⟨hm.tombstones, fun p v hv => hm.paths p (mem_paths_of_tombstone hv)⟩
      ⟨hm'.tombstones, fun p v hv => hm'.paths p (mem_paths_of_tombstone hv)⟩ h₆
    exact ⟨BitVec.eq_of_toNat_eq hformat, Subtype.ext hshare, hentries, hdirs, hlinks, htombs⟩
  · rintro ⟨hformat, hshare, hentries, hdirs, hlinks, htombs⟩
    simp only [digestInput, digestFiles_eq_shared, hformat, hshare, hentries, hdirs, hlinks, htombs]

/-- What of a file is shared. -/
def sharedFields (e : ManifestEntry) : U64 × Str × Option U16 × HlcTimestamp :=
  (e.size, e.sha256, e.permissions, e.version)

theorem sharedEntries_eq_iff : m.sharedEntries = m'.sharedEntries
    ↔ ∀ p : Str, m.entries[p]?.map sharedFields = m'.entries[p]?.map sharedFields := by
  have hblank : ∀ e e' : ManifestEntry, ({ e with modifiedAtNs := 0 } : ManifestEntry)
      = { e' with modifiedAtNs := 0 } ↔ sharedFields e = sharedFields e' := by
    rintro ⟨size, time, sum, perm, version⟩ ⟨size', time', sum', perm', version'⟩
    simp [sharedFields]
  rw [Std.ExtTreeMap.ext_getElem?_iff]
  refine forall_congr' fun p => ?_
  rw [sharedEntries_lookup, sharedEntries_lookup]
  rcases m.entries[p]? with _ | e <;> rcases m'.entries[p]? with _ | e' <;> simp [hblank]

/-- The bytes that are hashed tell two manifests apart exactly when these differ in
something shared: the time of a scan and the local times of files never matter, and
everything else does. -/
theorem digestInput_eq_iff (hm : m.LengthsFit) (hm' : m'.LengthsFit) :
    m.digestInput = m'.digestInput ↔
      m.formatVersion = m'.formatVersion ∧ m.shareId = m'.shareId
        ∧ (∀ p : Str, m.entries[p]?.map sharedFields = m'.entries[p]?.map sharedFields)
        ∧ m.directories = m'.directories ∧ m.symlinks = m'.symlinks
        ∧ m.tombstones = m'.tombstones := by
  rw [digestInput_eq_iff_shared hm hm', sharedEntries_eq_iff]

section Witness

/-- One file, read at some time and by some scan. -/
def oneFile (modifiedAtNs scannedAtMs : U64) : Manifest :=
  { empty ⟨List.replicate 32 0, length_zeros⟩ scannedAtMs with
    entries := Std.ExtTreeMap.ofList
      [("a".toList, ⟨3, modifiedAtNs, List.replicate 64 '0', some 0o644, .ofWall 7⟩)] compare }

theorem digestInput_oneFile :
    let _ := Crypto.plain
    (oneFile 1 2).Valid ⟨List.replicate 32 0, rfl⟩ ∧ (oneFile 3 4).Valid ⟨List.replicate 32 0, rfl⟩
      ∧ (oneFile 1 2).digestInput = (oneFile 3 4).digestInput :=
  let _ := Crypto.plain
  have h : (oneFile 1 2).Valid ⟨List.replicate 32 0, rfl⟩ := by decide +kernel
  have h' : (oneFile 3 4).Valid ⟨List.replicate 32 0, rfl⟩ := by decide +kernel
  ⟨h, h', (digestInput_eq_iff h.lengthsFit h'.lengthsFit).mpr
    ⟨rfl, rfl, sharedEntries_eq_iff.mp (by decide +kernel), rfl, rfl, rfl⟩⟩

end Witness

/-! ## Digests of valid manifests -/

theorem Separated.holds_shared (h : m.Separated) :
    Holds { m with entries := m.sharedEntries } fun p => (m.record p).map ManifestRecord.synced := by
  have hm := h.holds
  constructor
  · intro p
    rw [sharedEntries_lookup, hm.entries]
    rcases m.record p with _ | (e | e | e | e) <;> rfl
  · intro p
    refine (hm.directories p).trans ?_
    rcases m.record p with _ | (e | e | e | e) <;> rfl
  · intro p
    refine (hm.symlinks p).trans ?_
    rcases m.record p with _ | (e | e | e | e) <;> rfl
  · intro p
    refine (hm.tombstones p).trans ?_
    rcases m.record p with _ | (e | e | e | e) <;> rfl

theorem syncEq_iff_shared (h : m.Separated) (h' : m'.Separated) : m.SyncEq m' ↔
    m.sharedEntries = m'.sharedEntries ∧ m.directories = m'.directories
      ∧ m.symlinks = m'.symlinks ∧ m.tombstones = m'.tombstones := by
  constructor
  · intro heq
    have hm := h.holds_shared
    rw [funext heq] at hm
    exact maps_eq_of_holds hm h'.holds_shared
  · rintro ⟨hentries, hdirs, hlinks, htombs⟩ p
    rw [← h.holds_shared.record_eq p, ← h'.holds_shared.record_eq p]
    simp only [record, hentries, hdirs, hlinks, htombs]

end Manifest

end Syncbox

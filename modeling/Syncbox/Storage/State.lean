/-
# `Syncbox.Storage.State` — what a share keeps

The state files of a share, `src/storage/mod.rs`: where they are, what they hold and the
limits within which they are read.  Every `save` checks the value first and every `load`
checks it again, so a file that can be read holds a value that was accepted.

The writer knows no limit.  `Manifest::validate` bounds the number of records and the length
of each string, and the product of these bounds is larger than what the reader takes: a
manifest is lost to the next start exactly when its file is longer than
`MANIFEST_MAX_BYTES` (`load_saved_manifest_iff`).
-/
import Syncbox.Manifest.Model
import Syncbox.Storage.Atomic

namespace Syncbox.Storage

open Rust Unix Prog

def SMALL_STATE_MAX_BYTES : Nat := 1024 * 1024
def MANIFEST_MAX_BYTES : Nat := 64 * 1024 * 1024

/-! ## Paths -/

structure DataPaths where
  root : PathBuf

namespace DataPaths

variable [Crypto] (paths : DataPaths)

def sharesDir : PathBuf := paths.root ++ ["shares".toList]

def shareDir (shareId : ShareId) : PathBuf := paths.sharesDir ++ [hexEncode shareId.val]

def sharePath (shareId : ShareId) (name : String) : PathBuf := paths.shareDir shareId ++ [name.toList]

def shareManifest (shareId : ShareId) : PathBuf := paths.sharePath shareId "manifest.json"

def shareKnownPeers (shareId : ShareId) : PathBuf := paths.sharePath shareId "known_peers.json"

end DataPaths

theorem isFileName_hexEncode [Crypto] (shareId : ShareId) : isFileName (hexEncode shareId.val) = true := by
  refine isFileName_of_long ?_ (fun hc => ?_) fun hc => ?_
  · rw [length_hexEncode, shareId.property]
    decide
  · cases isLowerHex_hexEncode hc
  · cases isLowerHex_hexEncode hc

/-! ## Loading and saving -/

/-- What every `load` does: read within a limit, then check. -/
def loadState {α : Type} [Serde α] (path : PathBuf) (maxBytes : Nat)
    (validate : α → Except Error Unit) : Fs α := do
  let value ← readJson path maxBytes
  Prog.ofExcept (validate value)
  pure value

/-- What every `save` does: check, then write. -/
def saveState {α : Type} [Serde α] (path : PathBuf) (checked : Except Error Unit) (value : α) :
    Fs Unit := do
  Prog.ofExcept checked
  atomicWriteJson path value

namespace DataPaths

variable [Crypto] [Serde Manifest] [Serde KnownPeers] (paths : DataPaths)

def loadManifest (shareId : ShareId) : Fs Manifest :=
  loadState (paths.shareManifest shareId) MANIFEST_MAX_BYTES fun manifest => manifest.validate shareId

def saveManifest (manifest : Manifest) : Fs Unit :=
  saveState (paths.shareManifest manifest.shareId) (manifest.validate manifest.shareId) manifest

def loadKnownPeers (shareId : ShareId) : Fs KnownPeers :=
  loadState (paths.shareKnownPeers shareId) SMALL_STATE_MAX_BYTES KnownPeers.validate

def saveKnownPeers (shareId : ShareId) (peers : KnownPeers) : Fs Unit :=
  saveState (paths.shareKnownPeers shareId) peers.validate peers

end DataPaths

/-! ## Reading back what was written -/

section ReadBack

variable {α : Type} [Serde α] {value : α} {dir : Loc} {file : Str} {maxBytes : Nat}
  {validate : α → Except Error Unit} {h h' : Host} {w w' : World}

theorem smooth_of_searched {d d' : Disk} (hp : Plain d dir) (hfile : isFileName file = true)
    (hcalm : ∀ n, h'.fault n = false) (huser : h'.privileged = h.privileged)
    (hsearched : Searched h d dir) (hoff : ∀ {init}, init <+: dir → d'.get init = d.get init) :
    Smooth h' d' (dir ++ [file]) where
  noFault := hcalm
  named := hp.named_child hfile
  passable := by
    intro init hi hne
    rcases List.prefix_concat_iff.mp hi with rfl | hi
    · exact absurd rfl hne
    · obtain ⟨mode, hm, hs⟩ := hsearched hi
      refine .inr ⟨mode, (hoff hi).trans hm, ?_⟩
      rw [← hs]
      simp only [Host.canSearch, huser]

/-- What was written is loaded again exactly when the file is within the limit. -/
theorem loadState_written_iff (hp : Plain w.disk dir) (hfile : isFileName file = true)
    (hround : Serde.fromSlice (stateBytes value) = some value) (hchecked : validate value = .ok ())
    (hcalm : ∀ n, h'.fault n = false) (huser : h'.privileged = h.privileged)
    (hwrite : atomicWriteJson (dir ++ [file]) value h w = .ok () w') :
    (∃ w'', loadState (dir ++ [file]) maxBytes validate h' w' = .ok value w'')
      ↔ (stateBytes value).length ≤ maxBytes := by
  obtain ⟨d, hsecured, -, hsearched, hreplaced⟩ := wp_ok (atomicWriteJson_spec hp hfile) hwrite
  have hs : Smooth h' w'.disk (dir ++ [file]) :=
    smooth_of_searched (hsecured.plain hp) hfile hcalm huser hsearched
      fun hi => hreplaced.off (prefix_ne_child hi)
  obtain ⟨c, t, hc, hget⟩ := hreplaced.holds
  have hspec : (loadState (dir ++ [file]) maxBytes validate).wp h' w'
      (fun v _ => v = value ∧ c.val.length ≤ maxBytes) (fun _ _ => maxBytes < c.val.length) := by
    unfold loadState readJson
    rw [wp_bind, wp_bind]
    refine wp_mono (readBounded_spec hget) ?_ fun _ _ he => (he hs (by simp [Host.canRead])).1
    rintro data w₁ ⟨rfl, hfits⟩
    have hparse : Serde.fromSlice data.val = some value := by rw [hc, hround]
    rw [hparse]
    dsimp only
    rw [wp_pure, hchecked]
    exact ⟨rfl, hfits⟩
  rw [← hc]
  constructor
  · rintro ⟨w'', hload⟩
    exact (wp_ok hspec hload).2
  · intro hfits
    cases hrun : loadState (dir ++ [file]) maxBytes validate h' w' with
    | ok v w'' =>
        obtain ⟨rfl, -⟩ := wp_ok hspec hrun
        exact ⟨w'', rfl⟩
    | error e w'' =>
        have hlong := wp_error hspec hrun
        exact absurd hfits (Nat.not_le.mpr hlong)

theorem loadState_ok {path : PathBuf} (hload : loadState path maxBytes validate h w = .ok value w') :
    validate value = .ok () ∧ w'.disk = w.disk := by
  have hspec : (loadState path maxBytes validate).wp h w
      (fun value w' => validate value = .ok () ∧ w'.disk = w.disk) fun _ _ => True := by
    unfold loadState readJson
    rw [wp_bind, wp_bind]
    refine wp_mono readBounded_keeps ?_ fun _ _ _ => trivial
    intro bytes w₁ hdisk
    cases (Serde.fromSlice bytes.val : Option α) with
    | none => trivial
    | some value =>
        dsimp only
        rw [wp_pure, wp_bind]
        cases hchecked : validate value with
        | error e => trivial
        | ok u => exact ⟨hchecked, hdisk⟩
  have hloaded := wp_ok hspec hload
  exact hloaded

theorem saveState_ok {path : PathBuf} {checked : Except Error Unit}
    (hsave : saveState path checked value h w = .ok () w') :
    checked = .ok () ∧ atomicWriteJson path value h w = .ok () w' := by
  rcases checked with e | ⟨⟩
  · cases hsave
  · exact ⟨rfl, hsave⟩

theorem saveState_succeeds (hp : Plain w.disk dir) (hfile : isFileName file = true)
    (ha : Accepts h w.disk dir file (stateBytes value)) :
    ∃ w', saveState (dir ++ [file]) (.ok ()) value h w = .ok () w' := by
  have hspec : (atomicWriteJson (dir ++ [file]) value).wp h w (fun _ _ => True) (fun _ _ => False) :=
    wp_mono (atomicWriteJson_spec hp hfile) (fun _ _ _ => trivial) fun _ _ he => he.2 ha
  obtain ⟨⟨⟩, w', hrun, -⟩ := exists_ok_of_wp hspec
  exact ⟨w', hrun⟩

end ReadBack

/-! ## A manifest that is too long

The strings of a manifest are bounded one by one.  Together they are not: sixteen thousand
links of the longest target pass every check and are longer than the reader's limit. -/

/-- The bytes of the strings of a manifest. -/
def stringBytes (m : Manifest) : Nat :=
  (m.entries.toList.map fun x => utf8Len x.1 + utf8Len x.2.sha256).sum
    + (m.directories.toList.map fun x => utf8Len x.1).sum
    + (m.symlinks.toList.map fun x => utf8Len x.1 + utf8Len x.2.target).sum
    + (m.tombstones.toList.map fun x => utf8Len x.1).sum

/-- What is assumed of `serde_json`. -/
structure Faithful (serde : Serde Manifest) : Prop where
  round : ∀ m : Manifest, Serde.fromSlice (stateBytes m) = some m
  long : ∀ m : Manifest, stringBytes m ≤ (Serde.toWriter m).length

def longLink : SymlinkEntry := ⟨List.replicate 4096 'x', 0, 0, List.replicate 32 0, by simp⟩

theorem utf8Len_longLink : utf8Len longLink.target = 4096 := by
  unfold utf8Len longLink
  rw [List.map_replicate, List.sum_replicate]
  rfl

/-- Links `0`, …, `count - 1`. -/
def manyLinks (count : Nat) : Manifest where
  formatVersion := MANIFEST_FORMAT_VERSION
  shareId := ⟨List.replicate 32 0, length_zeros⟩
  scannedAtMs := 0
  entries := ∅
  directories := ∅
  symlinks := Std.ExtTreeMap.ofList ((List.range count).map fun i => (binaryName i, longLink)) compare
  tombstones := ∅

section ManyLinks

variable {count : Nat} (hcount : count ≤ 2 ^ 17)
include hcount

theorem nodup_manyLinks :
    (((List.range count).map fun i => (binaryName i, longLink)).map Prod.fst).Nodup := by
  rw [List.map_map]
  refine List.Nodup.map_on (fun i hi j hj heq => ?_) List.nodup_range
  have hi := List.mem_range.mp hi
  have hj := List.mem_range.mp hj
  exact binaryName_injOn (by omega) (by omega) heq

theorem lookup_manyLinks {p : Str} {e : SymlinkEntry} :
    (manyLinks count).symlinks[p]? = some e ↔ (∃ i < count, binaryName i = p) ∧ e = longLink := by
  unfold manyLinks
  rw [lookup_ofList (nodup_manyLinks hcount), List.mem_map]
  constructor
  · rintro ⟨i, hi, heq⟩
    cases heq
    exact ⟨⟨i, List.mem_range.mp hi, rfl⟩, rfl⟩
  · rintro ⟨⟨i, hi, rfl⟩, rfl⟩
    exact ⟨i, List.mem_range.mpr hi, rfl⟩

theorem size_manyLinks : (manyLinks count).symlinks.size = count := by
  unfold manyLinks
  rw [size_ofList (nodup_manyLinks hcount), List.length_map, List.length_range]

theorem record_manyLinks {p : Str} {r : ManifestRecord} (hr : (manyLinks count).record p = some r) :
    (∃ i < count, binaryName i = p) ∧ r = .symlink longLink := by
  have hlink : ∃ e, (manyLinks count).symlinks[p]? = some e ∧ r = .symlink e := by
    unfold Manifest.record at hr
    cases hs : (manyLinks count).symlinks[p]? <;> simp_all [manyLinks]
  obtain ⟨e, he, rfl⟩ := hlink
  obtain ⟨hname, rfl⟩ := (lookup_manyLinks hcount).mp he
  exact ⟨hname, rfl⟩

theorem valid_manyLinks [Crypto] (hauthor : endpointIdValid longLink.version.author = true)
    (hmax : count ≤ MAX_MANIFEST_ENTRIES) : (manyLinks count).Valid (manyLinks count).shareId where
  format := .inr (.inr rfl)
  share := rfl
  count := by
    rw [Manifest.length_paths, size_manyLinks hcount]
    simpa [manyLinks] using hmax
  separated := by constructor <;> intro p hp <;> simp_all [manyLinks]
  accepted := by
    intro p r hr
    obtain ⟨⟨i, -, rfl⟩, -⟩ := record_manyLinks hcount hr
    exact accepted_binaryName i
  record_valid := by
    intro p r hr
    obtain ⟨-, rfl⟩ := record_manyLinks hcount hr
    have htarget : validateSymlinkTarget longLink.target = .ok () := by
      unfold validateSymlinkTarget
      rw [Check.rejectIf_eq_ok]
      rintro (hnil | hlong | hnul)
      · cases hnil
      · rw [utf8Len_longLink] at hlong
        omega
      · cases List.eq_of_mem_replicate hnul
    have hversion : validateTimestamp longLink.version = .ok () := by
      unfold validateTimestamp
      rw [Check.rejectIf_eq_ok, hauthor]
      decide
    show SymlinkEntry.validate longLink = .ok ()
    unfold SymlinkEntry.validate
    rw [htarget]
    exact hversion
  hierarchy := by
    rintro p a ⟨r, hr, -⟩ ⟨s, hs⟩
    obtain ⟨⟨i, -, rfl⟩, -⟩ := record_manyLinks hcount hr
    have hslash : '/' ∈ binaryName i := by
      rw [hs]
      exact List.mem_append_right _ List.mem_cons_self
    exact absurd hslash (notMem_binaryName (by decide) (by decide))

theorem stringBytes_manyLinks : stringBytes (manyLinks count) = count * (17 + 4096) := by
  have hall : (manyLinks count).symlinks.toList.map (fun x => utf8Len x.1 + utf8Len x.2.target)
      = List.replicate count (17 + 4096) := by
    rw [List.eq_replicate_iff, List.length_map, Std.ExtTreeMap.length_toList, size_manyLinks hcount]
    refine ⟨rfl, fun n hn => ?_⟩
    obtain ⟨⟨p, e⟩, hx, rfl⟩ := List.mem_map.mp hn
    rw [Std.ExtTreeMap.mem_toList_iff_getElem?_eq_some] at hx
    obtain ⟨⟨i, -, rfl⟩, rfl⟩ := (lookup_manyLinks hcount).mp hx
    dsimp only
    rw [utf8Len_binaryName, utf8Len_longLink]
  unfold stringBytes
  rw [hall, List.sum_replicate, smul_eq_mul]
  have hnone : ∀ {V : Type}, (∅ : BTreeMap Str V).toList = [] := rfl
  simp [manyLinks, hnone]

end ManyLinks

/-- Whatever `serde_json` writes, the manifest of 16385 links is longer than the limit. -/
theorem Faithful.limit_lt {serde : Serde Manifest} (hserde : Faithful serde) :
    MANIFEST_MAX_BYTES < (stateBytes (manyLinks 16385)).length := by
  have hlong := hserde.long (manyLinks 16385)
  rw [stringBytes_manyLinks (by decide)] at hlong
  simp only [stateBytes, List.length_append, MANIFEST_MAX_BYTES]
  omega

/-! ## A run -/

/-- A data root with a directory for its shares. -/
def registry : Disk := Disk.bare.put [] "shares".toList (.dir 0o700) (by decide +kernel)

theorem get_registry (l : Loc) : registry.get l = if ["shares".toList] = l then some (.dir 0o700)
    else if [] = l then some (.dir 0o755) else none := by
  unfold registry
  rw [Disk.get_put]
  refine if_congr Iff.rfl rfl ?_
  show ((∅ : BTreeMap Loc Node).insert [] (.dir 0o755))[l]? = _
  rw [lookup_insert]
  simp

theorem searched_registry : Searched .quiet registry (DataPaths.mk []).sharesDir := by
  intro init hi
  rcases List.prefix_concat_iff.mp hi with rfl | hi
  · exact ⟨0o700, get_registry _, by decide⟩
  · rw [List.prefix_nil.mp hi]
    exact ⟨0o755, get_registry _, by decide⟩

section Run

variable [Crypto] (shareId : ShareId)

theorem get_registry_shareDir (rest : Loc) :
    registry.get ((DataPaths.mk []).shareDir shareId ++ rest) = none := by
  rw [get_registry, if_neg, if_neg]
  · simp [DataPaths.shareDir]
  · intro heq
    have := congrArg List.length heq
    simp [DataPaths.shareDir, DataPaths.sharesDir] at this

theorem plain_registry : Plain registry ((DataPaths.mk []).shareDir shareId) := by
  refine ⟨fun part hpart => ?_, fun {init} _ => ?_⟩
  · rcases List.mem_append.mp hpart with hpart | hpart
    · rw [List.mem_singleton.mp hpart]
      decide
    · rw [List.mem_singleton.mp hpart]
      have hname := isFileName_hexEncode shareId
      refine ⟨Disk.isName_of_isFileName hname, fun heq => ?_⟩
      rw [heq] at hname
      cases hname
  · rintro ⟨target, ht⟩
    rw [get_registry] at ht
    split at ht
    · cases ht
    · split at ht <;> cases ht

theorem accepts_registry {file : Str} {bytes : List Byte} (hfits : bytes.length < 2 ^ 64) :
    Accepts .quiet registry ((DataPaths.mk []).shareDir shareId) file bytes where
  noFault _ := rfl
  sameDevice := rfl
  obtainable := .inr ⟨(DataPaths.mk []).sharesDir, hexEncode shareId.val, rfl, searched_registry,
    by decide +kernel, isFileName_hexEncode shareId, by
      have := get_registry_shareDir shareId []
      rwa [List.append_nil] at this⟩
  missing n := get_registry_shareDir shareId _
  free := by
    rintro ⟨mode, hmode⟩
    rw [get_registry_shareDir] at hmode
    cases hmode
  fits := hfits

end Run

theorem saveManifest_registry [Crypto] [Serde Manifest] {m : Manifest}
    (hvalid : m.validate m.shareId = .ok ()) (hfits : (stateBytes m).length < 2 ^ 64) :
    ∃ w', (DataPaths.mk []).saveManifest m .quiet ⟨registry, 0, []⟩ = .ok () w' := by
  unfold DataPaths.saveManifest
  rw [hvalid]
  exact saveState_succeeds (plain_registry m.shareId) (by decide) (accepts_registry m.shareId hfits)

/-! ## Saved, then loaded -/

section Manifest

variable [Crypto] [Serde Manifest] {paths : DataPaths} {m : Manifest} {h h' : Host} {w w' : World}
  (hround : Serde.fromSlice (stateBytes m) = some m) (hp : Plain w.disk (paths.shareDir m.shareId))
  (hcalm : ∀ n, h'.fault n = false) (huser : h'.privileged = h.privileged)
  (hsave : paths.saveManifest m h w = .ok () w')
include hround hp hcalm huser hsave

theorem loadManifest_ne_of_long (hlong : MANIFEST_MAX_BYTES < (stateBytes m).length) (w'' : World) :
    paths.loadManifest m.shareId h' w' ≠ .ok m w'' := by
  intro hload
  obtain ⟨hchecked, hwrite⟩ := saveState_ok hsave
  have hfits := (loadState_written_iff hp (by decide) hround hchecked hcalm huser hwrite).mp ⟨w'', hload⟩
  exact absurd hfits (Nat.not_le.mpr hlong)

/-- What was saved is loaded again exactly when its file is within the reader's limit. -/
theorem load_saved_manifest_iff : (∃ w'', paths.loadManifest m.shareId h' w' = .ok m w'')
    ↔ (stateBytes m).length ≤ MANIFEST_MAX_BYTES := by
  obtain ⟨hchecked, hwrite⟩ := saveState_ok hsave
  exact loadState_written_iff hp (by decide) hround hchecked hcalm huser hwrite

end Manifest

/-- A manifest of 100 links is saved and loaded again. -/
theorem saved_links_load :
    let _ := Crypto.plain
    let m := manyLinks 100
    ∃ serde : Serde Manifest, Faithful serde
      ∧ ∃ w', (DataPaths.mk []).saveManifest m .quiet ⟨registry, 0, []⟩ = .ok () w'
        ∧ ∃ w'', (DataPaths.mk []).loadManifest m.shareId .quiet w' = .ok m w'' := by
  let _ := Crypto.plain
  obtain ⟨serde, hround, hlong, hlen⟩ := exists_serde stringBytes (manyLinks 100) le_rfl
  have hvalid : (manyLinks 100).validate (manyLinks 100).shareId = .ok () :=
    Manifest.validate_eq_ok.mpr (valid_manyLinks (by decide) rfl (by decide))
  have hbytes : (stateBytes (manyLinks 100)).length = 411301 := by
    rw [stateBytes, List.length_append, hlen, stringBytes_manyLinks (by decide)]
    rfl
  obtain ⟨w', hsave⟩ := saveManifest_registry hvalid (by rw [hbytes]; decide)
  have hfits : (stateBytes (manyLinks 100)).length ≤ MANIFEST_MAX_BYTES := by
    rw [hbytes]
    decide
  exact ⟨serde, ⟨hround, hlong⟩, w', hsave, (load_saved_manifest_iff (hround _) (plain_registry _)
    (fun _ => rfl) rfl hsave).mpr hfits⟩

/-- A manifest of 16385 links is saved and cannot be loaded. -/
theorem saved_manifest_unreadable :
    let _ := Crypto.plain
    let m := manyLinks 16385
    ∃ serde : Serde Manifest, Faithful serde
      ∧ ∃ w', (DataPaths.mk []).saveManifest m .quiet ⟨registry, 0, []⟩ = .ok () w'
        ∧ ∀ w'', (DataPaths.mk []).loadManifest m.shareId .quiet w' ≠ .ok m w'' := by
  let _ := Crypto.plain
  obtain ⟨serde, hround, hlong, hlen⟩ := exists_serde stringBytes (manyLinks 16385) le_rfl
  have hvalid : (manyLinks 16385).validate (manyLinks 16385).shareId = .ok () :=
    Manifest.validate_eq_ok.mpr (valid_manyLinks (by decide) rfl (by decide))
  obtain ⟨w', hsave⟩ := saveManifest_registry hvalid (by
    rw [stateBytes, List.length_append, hlen, stringBytes_manyLinks (by decide)]
    decide)
  exact ⟨serde, ⟨hround, hlong⟩, w', hsave, loadManifest_ne_of_long (hround _) (plain_registry _)
    (fun _ => rfl) rfl hsave (Faithful.limit_lt ⟨hround, hlong⟩)⟩

end Syncbox.Storage

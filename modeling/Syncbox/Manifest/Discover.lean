/-
# `Syncbox.Manifest.Discover` — what a scan sees

The other half of a scan: the walk reads the disk and changes nothing, and what it
reports at a manifest path is a function of the node at that path (`describe`).  Since
names have no separator, every node has exactly one manifest path, and the report is the
disk itself, looked at through `split`.

A walk fails only on a tree that is not `Scannable`.
-/
import Syncbox.Manifest.Rescan

namespace Syncbox

open Rust Unix Prog

section Describe

variable [Crypto] (previous : Manifest) (unknown : Bool)

/-- What a scan reports of a file: its known digest if nothing suggests another, else the
digest of its contents. -/
def describeFile (path : Str) (content : Content) (metadata : Node) : DiscoveredFile :=
  match previous.entries[path]?.filter (stillDescribes metadata unknown) with
  | some old => ⟨old.size, old.modifiedAtNs, old.sha256, old.permissions⟩
  | none => ⟨metadata.len, metadata.modified, sha256Hex content.val, permissionsFromMetadata metadata⟩

/-- What a scan reports of a node. -/
def describe (path : Str) (node : Node) : Option Seen :=
  match node with
  | .file content _ _ => some (.file (describeFile previous unknown path content node))
  | .dir _ => some (.directory ⟨permissionsFromMetadata node⟩)
  | .symlink target => some (.symlink ⟨target⟩)
  | .special => none

/-- What a scan of `root` reports at a path. -/
def look (d : Disk) (root : Loc) (path : Str) : Option Seen :=
  (d.get (root ++ split path)).bind (describe previous unknown path)

end Describe

/-- A tree that a scan can read to its end and record. -/
structure Scannable [Crypto] (h : Host) (d : Disk) (root : Loc) : Prop where
  reach : Reach h d root
  listable : d.Listable h root
  readable : ∀ loc c m t, d.get (root ++ loc) = some (.file c m t) → h.canRead m = true
  paths : ∀ loc node, loc ≠ [] → d.get (root ++ loc) = some node → node ≠ .special →
    relativeManifestPath loc = .ok (join loc)
  links : ∀ loc target, d.get (root ++ loc) = some (.symlink target) →
    validateSymlinkTarget target = .ok ()
  count : ((d.below root).filter fun x => x.2 ≠ .special).length ≤ MAX_MANIFEST_ENTRIES

/-! ## One file -/

section File

variable [Crypto] {h : Host} {w : World} {path : Loc} {c : Content} {m : Mode} {t : U64}

theorem hashStableFile_spec (hget : w.disk.get path = some (.file c m t)) :
    (hashStableFile path (.file c m t)).wp h w
      (fun f w' => w'.disk = w.disk
        ∧ f = ⟨c.len, t, sha256Hex c.val, permissionsFromMetadata (.file c m t)⟩)
      (fun _ w' => w'.disk = w.disk ∧ ¬ (Smooth h w.disk path ∧ h.canRead m = true)) := by
  have hn : names path = path := Disk.names_of_get hget
  have hlast : ¬ w.disk.IsLink (names path) := by
    rintro ⟨target, ht⟩
    rw [hn, hget] at ht
    cases ht
  unfold hashStableFile
  rw [hashAttempts, wp_bind, wp_context]
  refine wp_conseq (openRead_spec (direct_of_get hget) hlast) ?_
  rintro r w₁ (⟨rfl, hs₁⟩ | ⟨kind, rfl, hs₁, hno⟩)
  case inr =>
    exact ⟨hs₁.disk, fun hc => hno ⟨hc.1, c, m, t, by rw [hn]; exact hget, hc.2⟩⟩
  dsimp only
  rw [hn, wp_bind, wp_context]
  refine wp_conseq readAll_spec ?_
  rintro r w₂ (⟨c', m', t', rfl, hget', hd₂, -⟩ | ⟨kind, rfl, hs₂, hno⟩)
  case inr =>
    exact ⟨hs₂.disk.trans hs₁.disk,
      fun hc => hno ⟨hc.1.noFault, c, m, t, by rw [hs₁.disk]; exact hget⟩⟩
  rw [hs₁.disk, hget] at hget'
  cases hget'
  dsimp only
  refine wp_context_then fstat_spec ?_
  rintro r w₃ (⟨node, rfl, hnode, hs₃⟩ | ⟨kind, rfl, hs₃, hno⟩)
  case inr =>
    exact ⟨hs₃.disk.trans (hd₂.trans hs₁.disk), fun hc => hno ⟨hc.1.noFault, .file c m t, by
      rw [hd₂, hs₁.disk]; exact hget⟩⟩
  rw [hd₂, hs₁.disk, hget] at hnode
  cases hnode
  -- nothing changes under a scan, so the first attempt is stable
  refine wp_ite (fun _ => ⟨hs₃.disk.trans (hd₂.trans hs₁.disk), rfl⟩) fun hno => ?_
  exact absurd ⟨rfl, rfl, by simp [permissionsMatch]⟩ hno

theorem discoverFile_spec {previous : Manifest} {unknown : Bool} {p : Str}
    (hget : w.disk.get path = some (.file c m t)) :
    (discoverFile path (.file c m t) previous.entries[p]? unknown).wp h w
      (fun f w' => w'.disk = w.disk ∧ f = describeFile previous unknown p c (.file c m t))
      (fun _ w' => w'.disk = w.disk ∧ ¬ (Smooth h w.disk path ∧ h.canRead m = true)) := by
  unfold discoverFile describeFile
  cases previous.entries[p]?.filter (stillDescribes (.file c m t) unknown) with
  | some old => exact ⟨rfl, rfl⟩
  | none => exact hashStableFile_spec hget

end File

/-! ## The walk -/

/-- Insert what is seen where it belongs. -/
def DiscoveredEntries.put (found : DiscoveredEntries) (path : Str) : Seen → DiscoveredEntries
  | .file f => { found with files := found.files.insert path f }
  | .directory d => { found with directories := found.directories.insert path d }
  | .symlink l => { found with symlinks := found.symlinks.insert path l }

def DiscoveredEntries.count (found : DiscoveredEntries) : Nat :=
  found.files.size + found.directories.size + found.symlinks.size

theorem DiscoveredEntries.Sees.put {found : DiscoveredEntries} {look : Str → Option Seen}
    (h : found.Sees look) {p : Str} {s : Seen} (hp : look p = none ∨ look p = some s) :
    (found.put p s).Sees fun q => if p = q then some s else look q := by
  have hf := h.files p
  have hd := h.directories p
  have hl := h.symlinks p
  constructor <;> intro q <;> by_cases hq : p = q
  all_goals
    first | subst hq | skip
    cases s <;> rcases hp with hp | hp <;>
      simp_all [DiscoveredEntries.put, lookup_insert, Seen.file?, Seen.directory?, Seen.symlink?,
        h.files, h.directories, h.symlinks]

theorem DiscoveredEntries.count_put_le (found : DiscoveredEntries) (p : Str) (s : Seen) :
    (found.put p s).count ≤ found.count + 1 := by
  cases s <;> simp only [DiscoveredEntries.put, DiscoveredEntries.count]
  · have := Std.ExtTreeMap.size_insert_le (t := found.files) (k := p) (v := by assumption)
    omega
  · have := Std.ExtTreeMap.size_insert_le (t := found.directories) (k := p) (v := by assumption)
    omega
  · have := Std.ExtTreeMap.size_insert_le (t := found.symlinks) (k := p) (v := by assumption)
    omega

section Walk

variable [Crypto] {h : Host} {w : World} {root : Loc} {previous : Manifest} {unknown : Bool}

/-- What is reported when the entries of `done` have been visited. -/
structure Visited (previous : Manifest) (unknown : Bool) (w : World) (root : Loc)
    (done : List (List Str × Node)) (found : DiscoveredEntries) (w' : World) : Prop where
  disk : w'.disk = w.disk
  sees : found.Sees fun p =>
    if split p ∈ done.map Prod.fst then look previous unknown w.disk root p else none
  count : found.count ≤ (done.filter fun x => x.2 ≠ .special).length

theorem smooth_of_scannable {loc : List Str} {node : Node} (hs : Scannable h w.disk root)
    (hget : w.disk.get (root ++ loc) = some node) : Smooth h w.disk (root ++ loc) where
  noFault := hs.reach.noFault
  named := named_of_isFileName (Disk.isFileName_of_get hget)
  passable := by
    intro init hi hne
    right
    obtain ⟨rest, hrest⟩ := hi
    have hne' : rest ≠ [] := by
      rintro rfl
      exact hne (by simpa using hrest)
    obtain ⟨m, hm⟩ := Disk.isDir_of_prefix (hrest ▸ hget) hne'
    by_cases hpre : root <+: init
    · obtain ⟨mid, rfl⟩ := hpre
      have := hs.listable mid _ hm
      simp only [Host.canList, Bool.and_eq_true] at this
      exact ⟨m, hm, this.2⟩
    · rcases List.prefix_or_prefix_of_prefix ⟨rest, hrest⟩ (List.prefix_append root loc) with hp | hp
      · exact hs.reach.search hp fun he => hpre (he ▸ List.prefix_rfl)
      · exact absurd hp hpre

theorem visited_skip {done : List (List Str × Node)} {found : DiscoveredEntries} {w' : World}
    {x : List Str × Node} (hv : Visited previous unknown w root done found w')
    (hlook : ∀ p, split p = x.1 → look previous unknown w.disk root p = none) :
    Visited previous unknown w root (done ++ [x]) found w' := by
  refine ⟨hv.disk, ?_, hv.count.trans (by rw [List.filter_append, List.length_append]; omega)⟩
  have heq : (fun p => if split p ∈ (done ++ [x]).map Prod.fst
      then look previous unknown w.disk root p else none)
      = fun p => if split p ∈ done.map Prod.fst
        then look previous unknown w.disk root p else none := by
    funext p
    by_cases hp : split p = x.1
    · rw [hlook p hp, ite_self, ite_self]
    · have hiff : split p ∈ (done ++ [x]).map Prod.fst ↔ split p ∈ done.map Prod.fst := by
        simp [hp]
      simp only [hiff]
  rw [heq]
  exact hv.sees

theorem visited_put {done : List (List Str × Node)} {found : DiscoveredEntries} {w' w'' : World}
    {x : List Str × Node} {p : Str} {s : Seen} (hv : Visited previous unknown w root done found w')
    (hx : x.2 ≠ .special) (hp : split p = x.1) (hlook : look previous unknown w.disk root p = some s)
    (hdisk : w''.disk = w'.disk) :
    Visited previous unknown w root (done ++ [x]) (found.put p s) w'' := by
  refine ⟨hdisk.trans hv.disk, ?_, (found.count_put_le p s).trans (by
    have := hv.count
    rw [List.filter_append, List.length_append, List.filter_cons_of_pos (by simpa using hx)]
    simp only [List.filter_nil, List.length_singleton]
    omega)⟩
  have hput := hv.sees.put (p := p) (s := s) (by
    split
    · exact .inr hlook
    · exact .inl rfl)
  convert hput using 1
  funext q
  by_cases hq : p = q
  · subst hq
    simp [hp, hlook]
  · have hsplit : split q ≠ x.1 := fun he => hq (split_injective (hp.trans he.symm))
    have hiff : split q ∈ (done ++ [x]).map Prod.fst ↔ split q ∈ done.map Prod.fst := by
      simp [hsplit]
    simp only [hiff, if_neg hq]

omit [Crypto] in
theorem relativeManifestPath_ok {loc : List Str} {p : Str} (hr : relativeManifestPath loc = .ok p) :
    p = join loc := by
  simp only [relativeManifestPath, Check.bind_eq_ok] at hr
  obtain ⟨-, -, -, -, heq⟩ := hr
  cases heq
  rfl

theorem recordEntry_spec {pre post : List (List Str × Node)} {loc : List Str} {node : Node}
    {found : DiscoveredEntries} {w₁ : World}
    (hall : (pre ++ (loc, node) :: post).Perm (w.disk.below root)) (hspecial : node ≠ .special)
    (hv : Visited previous unknown w root pre found w₁) :
    (recordEntry root previous unknown found loc node).wp h w₁
      (Visited previous unknown w root (pre ++ [(loc, node)]))
      (fun _ w' => w'.disk = w.disk ∧ ¬ Scannable h w.disk root) := by
  obtain ⟨hne, hget⟩ := Disk.mem_below.mp (hall.subset (by simp : (loc, node) ∈ pre ++ (loc, node) :: post))
  have hsplit : split (join loc) = (loc, node).1 := split_join_of_isFileName
    (fun part hp => Disk.isFileName_of_get hget part (List.mem_append_right _ hp)) hne
  have hget₁ : w₁.disk.get (root ++ loc) = some node := by rw [hv.disk]; exact hget
  have hn : names (root ++ loc) = root ++ loc := Disk.names_of_get hget
  have hlook : look previous unknown w.disk root (join loc)
      = describe previous unknown (join loc) node := by
    simp [look, hsplit, hget]
  unfold recordEntry
  refine wp_ite (fun hcount => ⟨hv.disk, fun hs => ?_⟩) fun _ => ?_
  · have hle := hs.count
    rw [← (hall.filter _).length_eq, List.filter_append, List.filter_cons_of_pos (by simpa using hspecial),
      List.length_append, List.length_cons] at hle
    have := hv.count
    simp only [DiscoveredEntries.count] at this
    omega
  rw [wp_bind]
  cases hpath : relativeManifestPath loc with
  | error e =>
      refine ⟨hv.disk, fun hs => ?_⟩
      rw [hs.paths loc node hne hget hspecial] at hpath
      cases hpath
  | ok p =>
  cases relativeManifestPath_ok hpath
  rw [wp_ofExcept_ok]
  refine wp_ite (fun hlink => ?_) fun hlink => ?_
  · obtain ⟨target, rfl⟩ : ∃ target, node = .symlink target := by
      cases node <;> simp_all [Node.isSymlink]
    refine wp_context_then (readLink_spec (direct_of_get hget₁)) ?_
    rintro r w₂ ⟨hs₂, ⟨target', rfl, hget'⟩ | ⟨kind, rfl, hno⟩⟩
    · rw [hn, hget₁] at hget'
      cases hget'
      dsimp only
      rw [wp_bind]
      cases hvalid : validateSymlinkTarget target with
      | error e =>
          refine ⟨hs₂.disk.trans hv.disk, fun hs => ?_⟩
          rw [hs.links loc target hget] at hvalid
          cases hvalid
      | ok u => exact visited_put (s := .symlink _) hv hspecial hsplit (by rw [hlook]; rfl) hs₂.disk
    · refine ⟨hs₂.disk.trans hv.disk, fun hs => hno ⟨?_, ?_⟩⟩
      · rw [hv.disk]; exact smooth_of_scannable hs hget
      · rw [hn]; exact ⟨target, hget₁⟩
  · refine wp_context_then (lstat_spec (direct_of_get hget₁)) ?_
    rintro (kind | metadata) w₂ hlooked
    · refine ⟨hlooked.same.disk.trans hv.disk, fun hs => ?_⟩
      by_cases hk : kind = .notFound
      · have := hlooked.missing (by rw [hk])
        rw [hn, hget₁] at this
        cases this
      · exact hlooked.blocked rfl hk (by rw [hv.disk]; exact smooth_of_scannable hs hget)
    have hmeta := hlooked.ok rfl
    rw [hn, hget₁] at hmeta
    cases hmeta
    dsimp only
    refine wp_ite (fun hdir => ?_) fun hdir => ?_
    · obtain ⟨m, rfl⟩ : ∃ m, node = .dir m := by cases node <;> simp_all [Node.isDir]
      exact visited_put (s := .directory _) hv hspecial hsplit (by rw [hlook]; rfl) hlooked.same.disk
    · obtain ⟨c, m, t, rfl⟩ : ∃ c m t, node = .file c m t := by
        cases node <;> simp_all [Node.isDir, Node.isSymlink]
      refine wp_seq (discoverFile_spec (by rw [hlooked.same.disk]; exact hget₁)) ?_ ?_
      · rintro f w₃ ⟨hd₃, rfl⟩
        exact visited_put (s := .file _) hv hspecial hsplit (by rw [hlook]; rfl)
          (hd₃.trans hlooked.same.disk)
      · rintro e w₃ ⟨hd₃, hno⟩
        refine ⟨hd₃.trans (hlooked.same.disk.trans hv.disk), fun hs => hno ⟨?_, ?_⟩⟩
        · rw [hlooked.same.disk, hv.disk]; exact smooth_of_scannable hs hget
        · exact hs.readable loc c m t hget

theorem discoverEntry_spec {pre post : List (List Str × Node)} {x : List Str × Node}
    {found : DiscoveredEntries} {w₁ : World} (hall : (pre ++ x :: post).Perm (w.disk.below root))
    (hv : Visited previous unknown w root pre found w₁) :
    (discoverEntry root previous unknown found x).wp h w₁
      (Visited previous unknown w root (pre ++ [x]))
      (fun _ w' => w'.disk = w.disk ∧ ¬ Scannable h w.disk root) := by
  obtain ⟨loc, node⟩ := x
  cases node with
  | special =>
      have hget := (Disk.mem_below.mp
        (hall.subset (by simp : (loc, .special) ∈ pre ++ (loc, .special) :: post))).2
      refine visited_skip hv fun p (hp : split p = loc) => ?_
      simp [look, hp, hget, describe]
  | _ => exact recordEntry_spec hall (by simp) hv

/-- A walk reports what is on the disk, or the tree cannot be scanned. -/
theorem discoverEntries_spec (hroot : w.disk.IsDir root) :
    (discoverEntries root previous unknown).wp h w
      (fun found w' => w'.disk = w.disk ∧ found.Sees (look previous unknown w.disk root))
      (fun _ w' => w'.disk = w.disk ∧ ¬ Scannable h w.disk root) := by
  have hn : names root = root := Disk.names_of_get hroot.choose_spec
  unfold discoverEntries
  refine wp_context_then (stat_root hroot) ?_
  rintro _ w₁ ⟨hs₁, ⟨m, rfl⟩ | ⟨kind, rfl, hno⟩⟩
  swap
  · exact ⟨hs₁.disk, fun hs => hno hs.reach⟩
  refine wp_ite (fun hno => by cases hno) fun _ => ?_
  refine wp_context_then (walkDir_spec (by rw [hs₁.disk]; exact direct_root hroot)
    (by rw [hs₁.disk, hn]; exact hroot)) ?_
  rintro r w₂ ⟨hs₂, rfl | ⟨kind, rfl, hno⟩⟩
  · rw [hs₁.disk, hn]
    refine wp_conseq (wp_foldlM (I := Visited previous unknown w root)
      (h.walkOrder (w.disk.below root)) [] _ _ ⟨hs₂.disk.trans hs₁.disk, ?_, by simp [DiscoveredEntries.count]⟩
      fun pre x post found w' heq hv => discoverEntry_spec
        ((List.Perm.of_eq heq.symm).trans (h.walkOrder_perm _)) hv) ?_
    · constructor <;> intro p <;> simp
    · intro found w₃ hv
      refine ⟨hv.disk, ?_⟩
      have heq : (fun p => if split p ∈ ([] ++ h.walkOrder (w.disk.below root)).map Prod.fst
          then look previous unknown w.disk root p else none) = look previous unknown w.disk root := by
        funext p
        split
        · rfl
        · rename_i hnot
          cases hget : w.disk.get (root ++ split p) with
          | none => simp [look, hget]
          | some node =>
              refine absurd (List.mem_map.mpr ⟨(split p, node), ?_, rfl⟩) hnot
              exact (h.walkOrder_perm _).symm.subset (Disk.mem_below.mpr ⟨split_ne_nil p, hget⟩)
      rw [← heq]
      exact hv.sees
  · refine ⟨hs₂.disk.trans hs₁.disk, fun hs => hno ?_⟩
    rw [hs₁.disk, hn]
    exact ⟨smooth_root hroot hs.reach, hs.listable⟩

end Walk

/-! ## The scan -/

/-- `unknown_permissions_match` of a scan. -/
def unknownPermissionsMatch (previous : Manifest) : Bool :=
  previous.formatVersion ≠ LEGACY_MANIFEST_FORMAT_VERSION

/-- What a scan of `root` reports at a path, as the comparison with `previous` sees it. -/
def sight [Crypto] (previous : Manifest) (d : Disk) (root : Loc) : Str → Option Seen :=
  look previous (unknownPermissionsMatch previous) d root

section Scan

variable [Crypto] {h : Host} {w : World} {root : Loc} {previous : Manifest} {clock : ClockState}
  {endpointId : EndpointId} {nowMs : U64}

/-- A scan changes nothing on the disk and rescans every path.  It fails only where the
clock is broken, the tree is not scannable or something changed. -/
theorem scan_spec (hroot : w.disk.IsDir root) (hprev : previous.Valid previous.shareId) :
    (scanManifestCachedAfterValidation root previous clock endpointId nowMs).wp h w
      (fun r w' => w'.disk = w.disk
        ∧ Rescanned previous clock endpointId (unknownPermissionsMatch previous)
          (sight previous w.disk root) r.manifest r.changes r.clock
        ∧ r.manifest.Valid previous.shareId
        ∧ (r.manifestChanged = false → previous.formatVersion = MANIFEST_FORMAT_VERSION
          ∧ ∀ p, r.manifest.record p = previous.record p))
      (fun _ w' => w'.disk = w.disk
        ∧ ¬ (clock.validate = .ok () ∧ Scannable h w.disk root
          ∧ ∀ p, ¬ Changed previous (unknownPermissionsMatch previous) p
            (sight previous w.disk root p))) := by
  unfold scanManifestCachedAfterValidation
  rw [wp_bind]
  cases hclock : clock.validate with
  | error e => exact ⟨rfl, fun hc => by cases hc.1⟩
  | ok u =>
  rw [wp_ofExcept_ok]
  dsimp only
  refine wp_seq (discoverEntries_spec hroot) ?_ ?_
  · rintro found w₁ ⟨hd₁, hsees⟩
    cases hc : compareWithPrevious previous clock endpointId nowMs (unknownPermissionsMatch previous)
      found with
    | ok r =>
        rw [unknownPermissionsMatch] at hc
        rw [hc]
        exact ⟨hd₁, compareWithPrevious_ok hprev hsees hc⟩
    | error e =>
        have hc' := hc
        rw [unknownPermissionsMatch] at hc'
        rw [hc']
        refine ⟨hd₁, fun hno => ?_⟩
        obtain ⟨r, hr⟩ := compareWithPrevious_of_unchanged clock endpointId nowMs hprev hsees
          hno.2.2
        rw [unknownPermissionsMatch, hc'] at hr
        cases hr
  · rintro e w₁ ⟨hd₁, hno⟩
    exact ⟨hd₁, fun hc => hno hc.2.1⟩

end Scan

end Syncbox

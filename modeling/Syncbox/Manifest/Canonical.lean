/-
# `Syncbox.Manifest.Canonical` — which paths are names

`path_for_manifest` and `relative_manifest_path` of `src/manifest/path.rs` on the strings they
are given.  A path is compared by its components, which `Path::components` finds by dropping
empty parts and dots; a manifest compares its keys as strings.  `validate_manifest_path` looks
at components only, so it accepts strings in which something was dropped — `a//b`, `a/./b`,
`a/` — and these denote the file that `a/b` or `a` denotes.

The way from a string to a path and back gives the string without what was dropped
(`relative_pathForManifest`).  It gives the string itself exactly when nothing was.  Elsewhere a
path is the list of its parts; `pathForManifestIn_spelled` and `relativeManifestPathIn_spelled` say
that the functions on such lists are these.
-/
import Syncbox.Lib.Unix.Disk
import Syncbox.Manifest.Model

namespace Syncbox

open Rust Unix Check

/-! ## The program -/

/-- `PathBuf::push`. -/
def push (buffer part : Str) : Str :=
  if part.head? = some '/' then part
  else if buffer = [] ∨ buffer.getLast? = some '/' then buffer ++ part
  else buffer ++ '/' :: part

/-- `path_for_manifest`, on strings. -/
def pathForManifestIn (root manifestPath : Str) : Except Error Str := do
  validateManifestPath manifestPath
  .ok ((split manifestPath).foldl push root)

/-- One component, in the loop of `relative_manifest_path`. -/
def componentName : Component → Except Error Str
  | .normal name => do
      checkFileName name
      .ok name
  | _ => .error (.bail "local file path cannot be represented safely in a manifest")

/-- `relative_manifest_path`, on strings. -/
def relativeManifestPathIn (root path : Str) : Except Error Str :=
  if components root <+: components path then do
    let value ← ((components path).drop (components root).length).mapM componentName
    validateManifestPath (join value)
    .ok (join value)
  else .error (.caused ("scanned path " ++ String.ofList path ++ " is outside its root")
    (.bail "prefix not found"))

/-! ## Components -/

/-- The components of the parts of a path. -/
def partComponents : List Str → List Component
  | [] => []
  | first :: rest =>
      (if first = ['.'] then [.curDir] else Component.ofPart first) ++ rest.flatMap Component.ofPart

theorem components_eq (value : Str) : components value
    = (if value.head? = some '/' then [.rootDir] else []) ++ partComponents (split value) := by
  unfold components partComponents
  cases split value <;> rfl

theorem partComponents_concat {parts : List Str} (hne : parts ≠ []) (part : Str) :
    partComponents (parts ++ [part]) = partComponents parts ++ Component.ofPart part := by
  obtain ⟨first, rest, rfl⟩ := List.exists_cons_of_ne_nil hne
  simp [partComponents]

theorem split_of_notMem {part : Str} (hpart : '/' ∉ part) : split part = [part] := by
  have := @split_join [part] (by simpa using hpart) (by simp)
  rwa [join_singleton] at this

theorem components_append_sep {buffer part : Str} (hpart : '/' ∉ part) (hne : buffer ≠ []) :
    components (buffer ++ '/' :: part) = components buffer ++ Component.ofPart part := by
  have hhead : (buffer ++ '/' :: part).head? = buffer.head? := by
    cases buffer with
    | nil => exact absurd rfl hne
    | cons c buffer => rfl
  rw [components_eq, components_eq, hhead, split_append_sep, split_of_notMem hpart,
    partComponents_concat (split_ne_nil _), List.append_assoc]

/-- What is pushed comes after what was there; only the first part of a path may be a dot. -/
theorem components_push {buffer part : Str} (hpart : '/' ∉ part)
    (hfirst : buffer = [] → isName part = true) :
    components (push buffer part) = components buffer ++ Component.ofPart part := by
  have hrelative : part.head? ≠ some '/' := fun he => hpart (List.mem_of_head? he)
  unfold push
  rw [if_neg hrelative]
  rcases List.eq_nil_or_concat' buffer with rfl | ⟨init, last, rfl⟩
  · have hname := hfirst rfl
    have hdot : part ≠ ['.'] := by
      rintro rfl
      cases hname
    rw [if_pos (.inl rfl), List.nil_append, components_eq, if_neg hrelative, split_of_notMem hpart]
    simp [partComponents, hdot]
    rfl
  · by_cases hlast : last = '/'
    · subst hlast
      rw [if_pos (.inr (by simp)), List.append_assoc]
      show components (init ++ '/' :: part) = components (init ++ '/' :: []) ++ _
      cases init with
      | nil =>
          have hsplit : split ([] ++ '/' :: part) = [[]] ++ [part] := by
            rw [split_append_sep, split_of_notMem hpart]
            rfl
          rw [components_eq, hsplit, partComponents_concat (by simp)]
          rfl
      | cons c init =>
          rw [components_append_sep hpart (List.cons_ne_nil _ _),
            components_append_sep List.not_mem_nil (List.cons_ne_nil _ _), List.append_assoc]
          rfl
    · rw [if_neg (by simp [hlast])]
      exact components_append_sep hpart (by simp)

theorem push_ne_nil {buffer part : Str} (hne : buffer ≠ [] ∨ part ≠ []) : push buffer part ≠ [] := by
  unfold push
  split
  · rename_i hhead
    rintro rfl
    cases hhead
  · split
    · rw [ne_eq, List.append_eq_nil_iff, not_and_or]
      exact hne
    · simp

theorem components_foldl_push {parts : List Str} (hparts : ∀ part ∈ parts, '/' ∉ part) :
    ∀ {buffer : Str}, (buffer = [] → ∀ part, parts.head? = some part → isName part = true) →
    components (parts.foldl push buffer) = components buffer ++ parts.flatMap Component.ofPart := by
  induction parts with
  | nil => exact fun _ => (List.append_nil _).symm
  | cons part parts ih =>
      intro buffer hfirst
      have hpart := hparts part List.mem_cons_self
      have hname : buffer = [] → isName part = true := fun hb => hfirst hb part rfl
      have hne : push buffer part ≠ [] := by
        refine push_ne_nil (or_iff_not_imp_left.mpr fun hb => ?_)
        rintro rfl
        cases hname (not_not.mp hb)
      rw [List.foldl_cons, ih (fun p hp => hparts p (List.mem_cons_of_mem _ hp)) fun hb => absurd hb hne,
        components_push hpart hname, List.flatMap_cons, List.append_assoc]

theorem flatMap_ofPart {parts : List Str} (hparts : ['.', '.'] ∉ parts) :
    parts.flatMap Component.ofPart = (names parts).map .normal := by
  induction parts with
  | nil => rfl
  | cons part parts ih =>
      have hdd : part ≠ ['.', '.'] := fun he => hparts (he ▸ List.mem_cons_self)
      rw [List.flatMap_cons, ih fun hm => hparts (List.mem_cons_of_mem _ hm)]
      unfold Component.ofPart names
      rw [List.filter_cons]
      by_cases hname : isName part = true
      · have hboth : ¬ (part = [] ∨ part = ['.']) := by simpa [isName] using hname
        rw [if_neg hboth, if_neg hdd, if_pos hname]
        rfl
      · have hboth : part = [] ∨ part = ['.'] := by
          by_contra hno
          exact hname (by simpa [isName] using hno)
        rw [if_pos hboth, if_neg hname]
        rfl

theorem components_pathForManifestIn {root p path : Str} (hpath : pathForManifestIn root p = .ok path) :
    Accepted p ∧ components path = components root ++ (names (split p)).map .normal := by
  rw [pathForManifestIn, andThen_eq_ok, validateManifestPath_eq_ok] at hpath
  obtain ⟨hp, heq⟩ := hpath
  cases heq
  obtain ⟨first, rest, hsplit, hname⟩ := hp.head_isName
  refine ⟨hp, ?_⟩
  rw [components_foldl_push (fun part hm => sep_notMem_of_mem_split part hm),
    flatMap_ofPart hp.noDotDot]
  intro _ part hhead
  rw [hsplit] at hhead
  cases hhead
  exact hname

/-! ## Names -/

theorem mapM_componentName (names : List Str) : (names.map Component.normal).mapM componentName
    = names.forM checkFileName >>= fun _ => .ok names := by
  induction names with
  | nil => rfl
  | cons name names ih =>
      rw [List.map_cons, List.mapM_cons, ih, componentName]
      show _ = (checkFileName name >>= fun _ => names.forM checkFileName) >>= _
      cases checkFileName name with
      | error => rfl
      | ok => cases names.forM checkFileName <;> rfl

theorem of_mapM_componentName {cs : List Component} {value : List Str}
    (hvalue : cs.mapM componentName = .ok value) :
    cs = value.map .normal ∧ ∀ name ∈ value, name ≠ [] ∧ '\\' ∉ name ∧ '/' ∉ name := by
  induction cs generalizing value with
  | nil =>
      cases hvalue
      exact ⟨rfl, fun _ hn => (by cases hn)⟩
  | cons c cs ih =>
      rw [List.mapM_cons, bind_eq_ok] at hvalue
      obtain ⟨name, hc, hvalue⟩ := hvalue
      obtain ⟨rest, hrest, heq⟩ := bind_eq_ok.mp hvalue
      cases heq
      obtain ⟨rfl, hnames⟩ := ih hrest
      unfold componentName at hc
      split at hc
      · rw [andThen_eq_ok, checkFileName, rejectIf_eq_ok, not_or, not_or] at hc
        obtain ⟨hok, heq⟩ := hc
        cases heq
        refine ⟨rfl, fun n hn => ?_⟩
        rcases List.mem_cons.mp hn with rfl | hn
        · exact hok
        · exact hnames n hn
      · cases hc

/-! ## The canonical string -/

theorem utf8Len_join_le {l l' : List Str} (hsub : l.Sublist l') :
    utf8Len (join l) ≤ utf8Len (join l') := by
  have hcons : ∀ a (l : List Str), utf8Len (join l) ≤ utf8Len (join (a :: l)) := by
    intro a l
    cases l with
    | nil => exact Nat.zero_le _
    | cons b l =>
        rw [join_cons_cons, utf8Len_append]
        show _ ≤ _ + (1 + utf8Len (join (b :: l)))
        omega
  induction hsub with
  | slnil => exact le_rfl
  | cons a _ ih => exact ih.trans (hcons a _)
  | cons_cons a hsub ih =>
      rename_i l l'
      cases l with
      | nil =>
          cases l' with
          | nil => exact le_rfl
          | cons b l' =>
              rw [join_cons_cons, utf8Len_append, join_singleton]
              exact Nat.le_add_right _ _
      | cons b l =>
          cases l' with
          | nil => cases hsub
          | cons b' l' =>
              rw [join_cons_cons, join_cons_cons, utf8Len_append, utf8Len_append]
              show _ + (1 + utf8Len (join (b :: l))) ≤ _ + (1 + utf8Len (join (b' :: l')))
              omega

/-- A string without the parts that are dropped. -/
def canonical (p : Str) : Str := join (names (split p))

section Accepted

variable {p : Str} (hp : Accepted p)
include hp

theorem Accepted.split_canonical : split (canonical p) = names (split p) := by
  obtain ⟨first, rest, hsplit, hname⟩ := hp.head_isName
  refine split_join (fun part hm => sep_notMem_of_mem_split part (List.mem_of_mem_filter hm)) ?_
  rw [hsplit, names, List.filter_cons_of_pos hname]
  exact List.cons_ne_nil _ _

theorem Accepted.canonical : Accepted (canonical p) := by
  have hsplit := hp.split_canonical
  obtain ⟨first, rest, hs, hname⟩ := hp.head_isName
  have hnames : names (split p) = first :: names rest := by
    rw [hs, names, List.filter_cons_of_pos hname]
    rfl
  rw [hnames] at hsplit
  have hfirst : first ≠ [] := by
    rintro rfl
    cases hname
  have hin : ∀ {c : Char}, c ≠ '/' → c ∈ Syncbox.canonical p → c ∈ p := by
    intro c hsep hc
    rcases mem_join hc with rfl | ⟨part, hpart, hc⟩
    · exact absurd rfl hsep
    · exact mem_of_mem_split (List.mem_of_mem_filter hpart) hc
  have hhead : (Syncbox.canonical p).head? = first.head? := by
    rw [Syncbox.canonical, hnames]
    cases names rest with
    | nil => rw [join_singleton]
    | cons b l => rw [join_cons_cons, List.head?_append_of_ne_nil _ hfirst]
  constructor
  · intro heq
    rw [heq] at hhead
    exact hfirst (List.head?_eq_none_iff.mp hhead.symm)
  · calc utf8Len (Syncbox.canonical p) ≤ utf8Len (join (split p)) := utf8Len_join_le List.filter_sublist
      _ = utf8Len p := by rw [join_split]
      _ ≤ 4096 := hp.short
  · exact fun hc => hp.noBackslash (hin (by decide) hc)
  · exact fun hc => hp.noNul (hin (by decide) hc)
  · rw [hhead]
    exact fun he => sep_notMem_of_mem_split first (hs ▸ List.mem_cons_self) (List.mem_of_head? he)
  · rw [hsplit, List.head?_cons]
    rintro ⟨⟩
    cases hname
  · rw [hsplit, ← hnames]
    exact fun hm => hp.noDotDot (List.mem_of_mem_filter hm)

end Accepted

theorem canonical_eq_self_iff {p : Str} (hp : Accepted p) : canonical p = p ↔ Canonical p := by
  constructor
  · intro heq
    have hsplit := hp.split_canonical
    rw [heq] at hsplit
    exact List.filter_eq_self.mp hsplit.symm
  · intro hc
    rw [canonical, hc.names_split, join_split]

/-! ## There and back -/

/-- From a string to a path and back, what normalisation drops is lost. -/
theorem relative_pathForManifest {root p path : Str} (hpath : pathForManifestIn root p = .ok path) :
    relativeManifestPathIn root path = .ok (canonical p) := by
  obtain ⟨hp, hcomponents⟩ := components_pathForManifestIn hpath
  have hnames : ∀ name ∈ names (split p), checkFileName name = .ok () := by
    intro name hname
    obtain ⟨hmem, hisName⟩ := List.mem_filter.mp hname
    rw [checkFileName, rejectIf_eq_ok, not_or, not_or]
    refine ⟨?_, fun hc => hp.noBackslash (mem_of_mem_split hmem hc), sep_notMem_of_mem_split name hmem⟩
    rintro rfl
    cases hisName
  unfold relativeManifestPathIn
  rw [hcomponents, if_pos (List.prefix_append ..), List.drop_left, mapM_componentName,
    forM_eq_ok.mpr hnames]
  show (validateManifestPath (canonical p) >>= fun _ => _) = _
  rw [validateManifestPath_eq_ok.mpr hp.canonical]
  rfl

theorem isName_of_mem_components {name value : Str} (hm : Component.normal name ∈ components value) :
    isName name = true := by
  have hpart : ∀ {part}, Component.normal name ∈ Component.ofPart part → isName name = true := by
    intro part hm
    unfold Component.ofPart at hm
    split at hm
    · cases hm
    · rename_i hboth
      split at hm
      · cases List.mem_singleton.mp hm
      · cases List.mem_singleton.mp hm
        simpa [isName] using hboth
  rw [components_eq, List.mem_append] at hm
  rcases hm with hm | hm
  · split at hm
    · cases List.mem_singleton.mp hm
    · cases hm
  · unfold partComponents at hm
    split at hm
    · cases hm
    · rcases List.mem_append.mp hm with hm | hm
      · split at hm
        · cases List.mem_singleton.mp hm
        · exact hpart hm
      · obtain ⟨part, -, hm⟩ := List.mem_flatMap.mp hm
        exact hpart hm

theorem pathForManifest_relative {root path p : Str} (hp : relativeManifestPathIn root path = .ok p) :
    Canonical p ∧ ∃ path', pathForManifestIn root p = .ok path' ∧ components path' = components path := by
  unfold relativeManifestPathIn at hp
  split at hp
  · rename_i hroot
    obtain ⟨rest, hrest⟩ := hroot
    rw [← hrest, List.drop_left, bind_eq_ok] at hp
    obtain ⟨value, hvalue, hp⟩ := hp
    obtain ⟨hvalid, heq⟩ := andThen_eq_ok.mp hp
    cases heq
    obtain ⟨rfl, hchecked⟩ := of_mapM_componentName hvalue
    have haccepted := validateManifestPath_eq_ok.mp hvalid
    have hne : value ≠ [] := by
      rintro rfl
      exact haccepted.nonempty rfl
    have hsplit : split (join value) = value := split_join (fun name hn => (hchecked name hn).2.2) hne
    have hcanonical : Canonical (join value) := by
      intro name hn
      rw [hsplit] at hn
      have hmem : Component.normal name ∈ components path := by
        rw [← hrest]
        exact List.mem_append_right _ (List.mem_map_of_mem hn)
      exact isName_of_mem_components hmem
    have hpath : pathForManifestIn root (join value) = .ok ((split (join value)).foldl push root) := by
      rw [pathForManifestIn, hvalid]
      rfl
    refine ⟨hcanonical, _, hpath, ?_⟩
    rw [(components_pathForManifestIn hpath).2, hcanonical.names_split, hsplit, hrest]
  · cases hp

/-! ## Strings and lists of parts

The other modules have the parts of an absolute path for the path, and the names below the root
for what a scan strips the root from.  A string that spells such a list goes the same way there. -/

/-- The components of an absolute path, from its parts. -/
def spelled (path : PathBuf) : List Component := .rootDir :: path.flatMap Component.ofPart

theorem spelled_append (path rest : PathBuf) :
    spelled (path ++ rest) = spelled path ++ rest.flatMap Component.ofPart := by
  rw [spelled, List.flatMap_append]
  rfl

/-- The two models of `path_for_manifest` name one path, or fail alike. -/
theorem pathForManifestIn_spelled {root : Str} {dir : PathBuf} (hroot : components root = spelled dir)
    (p : Str) : (pathForManifestIn root p).map components = (pathForManifest dir p).map spelled := by
  have hne : root ≠ [] := by
    rintro rfl
    cases hroot
  rw [pathForManifestIn, pathForManifest]
  cases validateManifestPath p with
  | error => rfl
  | ok =>
      refine congrArg Except.ok ?_
      rw [spelled_append, ← hroot]
      exact components_foldl_push (fun part hm => sep_notMem_of_mem_split part hm)
        fun hnil => absurd hnil hne

theorem flatMap_ofPart_fileNames {names : List Str} (hnames : ∀ name ∈ names, isFileName name = true) :
    names.flatMap Component.ofPart = names.map .normal := by
  have hdot : ['.', '.'] ∉ names := fun hmem => by cases hnames _ hmem
  rw [flatMap_ofPart hdot]
  congr 1
  exact List.filter_eq_self.mpr fun name hmem => Disk.isName_of_isFileName (hnames name hmem)

/-- The two models of `relative_manifest_path` give one string for what a walk finds below the root,
or one error. -/
theorem relativeManifestPathIn_spelled {root path : Str} {dir names : List Str}
    (hroot : components root = spelled dir) (hpath : components path = spelled (dir ++ names))
    (hnames : ∀ name ∈ names, isFileName name = true) :
    relativeManifestPathIn root path = relativeManifestPath names := by
  have hparts : components path = components root ++ names.map .normal := by
    rw [hpath, hroot, spelled_append, flatMap_ofPart_fileNames hnames]
  rw [relativeManifestPathIn, hparts, if_pos (List.prefix_append ..), List.drop_left,
    mapM_componentName, relativeManifestPath]
  cases names.forM checkFileName <;> rfl

/-! ## Which strings come back -/

/-- For a string that is accepted, the way back gives it again exactly when no part of it is
dropped.  Strings of which this holds denote different files, and a path that has a string
has one of these. -/
theorem relative_pathForManifest_eq_self_iff (root : Str) {p : Str}
    (hp : validateManifestPath p = .ok ()) :
    ((∃ path, pathForManifestIn root p = .ok path ∧ relativeManifestPathIn root path = .ok p)
        ↔ Canonical p)
      ∧ (∀ {q path path'}, Canonical p → Canonical q → pathForManifestIn root p = .ok path →
        pathForManifestIn root q = .ok path' → components path = components path' → p = q)
      ∧ ∀ {path q}, relativeManifestPathIn root path = .ok q → Canonical q
        ∧ ∃ path', pathForManifestIn root q = .ok path' ∧ components path' = components path := by
  have haccepted := validateManifestPath_eq_ok.mp hp
  have hthere : pathForManifestIn root p = .ok ((split p).foldl push root) := by
    rw [pathForManifestIn, hp]
    rfl
  refine ⟨?_, ?_, pathForManifest_relative⟩
  · rw [← canonical_eq_self_iff haccepted]
    constructor
    · rintro ⟨path, hpath, hback⟩
      rw [relative_pathForManifest hpath] at hback
      exact Except.ok.inj hback
    · intro heq
      refine ⟨_, hthere, ?_⟩
      rw [relative_pathForManifest hthere, heq]
  · intro q path path' hc hc' hpath hpath' hsame
    obtain ⟨-, hcomponents⟩ := components_pathForManifestIn hpath
    obtain ⟨-, hcomponents'⟩ := components_pathForManifestIn hpath'
    rw [hcomponents, hcomponents', hc.names_split, hc'.names_split] at hsame
    have hinj : Function.Injective Component.normal := fun _ _ heq => Component.normal.inj heq
    exact split_injective (List.map_injective_iff.mpr hinj (List.append_cancel_left hsame))

theorem relative_pathForManifest_eq_self_iff_nested :
    let root := "/r".toList
    let p := "a/b".toList
    validateManifestPath p = .ok () ∧ Canonical p
      ∧ pathForManifestIn root p = .ok "/r/a/b".toList
      ∧ relativeManifestPathIn root "/r//a/./b".toList = .ok p
      ∧ (∃ path, pathForManifestIn root p = .ok path ∧ relativeManifestPathIn root path = .ok p)
      ∧ components "/r/a/b".toList ≠ components "/r/a/c".toList
      ∧ ∃ path, pathForManifestIn root p = .ok path
        ∧ components path = components "/r//a/./b".toList := by
  intro root p
  have hp : validateManifestPath p = .ok () := by decide
  have hc : Canonical p := by decide
  have hthere : pathForManifestIn root p = .ok "/r/a/b".toList := by decide
  have hback : relativeManifestPathIn root "/r//a/./b".toList = .ok p := by decide
  obtain ⟨hiff, hinj, hconv⟩ := relative_pathForManifest_eq_self_iff root hp
  have hother : pathForManifestIn root "a/c".toList = .ok "/r/a/c".toList := by decide
  refine ⟨hp, hc, hthere, hback, hiff.mpr hc, fun hsame => ?_, (hconv hback).2⟩
  exact absurd (hinj hc (by decide) hthere hother hsame) (by decide)

/-- A manifest with a live file at `a` and a tombstone at `a/`. -/
def doubled : Manifest :=
  { Manifest.empty ⟨List.replicate 32 0, length_zeros⟩ 0 with
    entries := Std.ExtTreeMap.ofList
      [("a".toList, ⟨3, 0, List.replicate 64 '0', some 0o644, .ofWall 7⟩)] compare
    tombstones := Std.ExtTreeMap.ofList [("a/".toList, ⟨.ofWall 8⟩)] compare }

/-- The string `a/` is accepted and denotes the file that `a` denotes, so it does not come back;
and a valid manifest holds records for both. -/
theorem doubled_accepted :
    let _ := Crypto.plain
    validateManifestPath "a/".toList = .ok ()
      ∧ pathForManifestIn "/r".toList "a/".toList = .ok "/r/a/".toList
      ∧ relativeManifestPathIn "/r".toList "/r/a/".toList = .ok "a".toList
      ∧ pathForManifestIn "/r".toList "a".toList = .ok "/r/a".toList
      ∧ components "/r/a/".toList = components "/r/a".toList
      ∧ doubled.validate ⟨List.replicate 32 0, rfl⟩ = .ok ()
      ∧ (∃ e, doubled.record "a".toList = some (.file e))
      ∧ ∃ e, doubled.record "a/".toList = some (.tombstone e) := by
  intro _
  refine ⟨by decide, by decide, by decide, by decide, by decide, ?_, ⟨_, rfl⟩, ⟨_, rfl⟩⟩
  decide +kernel

end Syncbox

/-
# `Syncbox.App.Directory` — the data directory stays outside the shares

`src/app/directory.rs` and the check of `App::ensure_directory_isolated_from_data_root`.
The application data directory is compared with a shared directory as a canonical path.
It need not exist yet, so `canonical_or_projected_path` removes `.` and `..` by name, asks
`fs::canonicalize` for the longest part that exists, and spells the rest.

Removing `..` by name is not what the system does: behind a symbolic link `..` leaves the
directory the link leads to.  And a rest that is spelled is not followed: when the first
missing name is a link to nothing, the directory will be made elsewhere.  These are the two
ways to go wrong, and the only ones (`projected_iff_leadsTo_normalized`).
-/
import Syncbox.Fs
import Syncbox.Lib.Unix.Look
import Syncbox.Lib.Unix.Route

namespace Syncbox

open Rust Unix Prog Check

/-! ## The program -/

/-- `DataPaths::discover` on Unix, given the value of `SYNCBOX_DATA_DIR`. -/
def discover (overridePath : Option Str) : Except Error PathBuf :=
  match overridePath with
  | some overridePath =>
      if overridePath.head? = some '/' then .ok (split overridePath)
      else .error (.bail "SYNCBOX_DATA_DIR must be an absolute path")
  | none => .ok (split "/var/lib/syncbox".toList)

/-- One component, in the loop of `canonical_or_projected_path` that removes `.` and `..`. -/
def normalizeComponent (normalized : PathBuf) (component : Str) : PathBuf :=
  if isName component = false then normalized
  else if component = ['.', '.'] then normalized.dropLast
  else normalized ++ [component]

def normalized (absolute : PathBuf) : PathBuf := absolute.foldl normalizeComponent []

/-- The loop that looks for an existing ancestor, with the names it has passed. -/
def existingAncestor (existing : PathBuf) (missingTail : List Str) : Fs (PathBuf × List Str) := do
  if ← pathExists existing then pure (existing, missingTail)
  else if hne : existing = [] then throw (.bail "path has no existing ancestor")
  else existingAncestor existing.dropLast (missingTail ++ [existing.getLast hne])
termination_by existing.length
decreasing_by
  have := List.length_pos_iff.mpr hne
  rw [List.length_dropLast]
  omega

/-- For an absolute path. -/
def canonicalOrProjectedPath (path : PathBuf) : Fs PathBuf := do
  let (existing, missingTail) ← existingAncestor (normalized path) []
  let resolved ← context ("unable to normalize path " ++ display existing) (canonicalize existing)
  pure (resolved ++ missingTail.reverse)

def ensureDirectoryIsolatedFromDataRoot (root : PathBuf) (localDirectory : PathBuf) : Fs Unit := do
  let dataRoot ← within
    ("unable to normalize Syncbox application data directory " ++ display root)
    (canonicalOrProjectedPath root)
  if dataRoot <+: localDirectory ∨ localDirectory <+: dataRoot then
    throw (.bail ("local directory " ++ display localDirectory
      ++ " overlaps the Syncbox application data directory " ++ display dataRoot
      ++ "; choose a different shared directory"))
  else pure ()

/-! ## What it computes -/

/-- The longest part of `path` that exists leads to a location, and `loc` is that location
with the rest of the path. -/
def Projects (h : Host) (d : Disk) (path : PathBuf) (loc : Loc) : Prop :=
  ∃ existing tail place node, path = existing ++ tail ∧ resolve h d .always existing = .ok place
    ∧ d.nodeAt place = .ok node ∧ loc = place.loc ++ tail
    ∧ ∀ {init}, init <+: path → Found h d .always init → init <+: existing

section Run

variable {h : Host} {w : World}

theorem named_normalized (path : PathBuf) : Named (normalized path) := by
  unfold normalized
  induction path using List.reverseRecOn with
  | nil => exact fun part hp => (by cases hp)
  | append_singleton path component ih =>
      rw [List.foldl_append, List.foldl_cons, List.foldl_nil]
      unfold normalizeComponent
      split
      · exact ih
      · rename_i hname
        split
        · exact fun part hp => ih part (List.dropLast_subset _ hp)
        · rename_i hdd
          intro part hp
          rcases List.mem_append.mp hp with hp | hp
          · exact ih part hp
          · rw [List.mem_singleton.mp hp]
            exact ⟨by simpa using hname, hdd⟩

theorem normalized_of_no_dotDot {path : PathBuf} (hdd : ['.', '.'] ∉ path) :
    normalized path = names path := by
  unfold normalized
  induction path using List.reverseRecOn with
  | nil => rfl
  | append_singleton path component ih =>
      simp only [List.mem_append, List.mem_singleton, not_or] at hdd
      rw [List.foldl_append, List.foldl_cons, List.foldl_nil, ih hdd.1, names_append]
      unfold normalizeComponent
      cases hname : isName component with
      | false => simp [names, hname]
      | true => simp [names, hname, Ne.symm hdd.2]

theorem pathExists_spec {path : PathBuf} {E : Error → World → Prop} (hq : Quiet h w) :
    (pathExists path).wp h w
      (fun r w' => w' = w.looked ∧ (r = true ↔ Found h w.disk .always path)) E := by
  unfold pathExists
  rw [wp_bind, stat_eq]
  refine wp_looking (fun node ha => ?_) fun kind ha => ?_
  · exact ⟨rfl, fun _ => ⟨node, bind_eq_ok.mp ha⟩, fun _ => rfl⟩
  · refine ⟨rfl, fun hr => (by cases hr), ?_⟩
    rintro ⟨node, hn⟩
    cases (ha hq).symm.trans (bind_eq_ok.mpr hn)

theorem existingAncestor_spec {E : Error → World → Prop} (existing : PathBuf)
    (missingTail : List Str) (hq : Quiet h w) :
    (existingAncestor existing missingTail).wp h w
      (fun r w' => w'.disk = w.disk ∧ Quiet h w' ∧ Found h w.disk .always r.1
        ∧ (∃ tail, existing = r.1 ++ tail ∧ r.2 = missingTail ++ tail.reverse)
        ∧ ∀ {init}, init <+: existing → Found h w.disk .always init → init <+: r.1) E := by
  induction hlen : existing.length generalizing existing missingTail w with
  | zero =>
      rw [List.length_eq_zero_iff.mp hlen, existingAncestor, wp_bind]
      refine wp_conseq (pathExists_spec hq) ?_
      rintro r w' ⟨rfl, hr⟩
      rw [if_pos (hr.mpr found_nil)]
      exact ⟨rfl, hq.looked, found_nil, ⟨[], rfl, by simp⟩, fun hi _ => hi⟩
  | succ n ih =>
      have hne : existing ≠ [] := by
        rintro rfl
        cases hlen
      rw [existingAncestor, wp_bind]
      refine wp_conseq (pathExists_spec hq) ?_
      rintro r w' ⟨rfl, hr⟩
      by_cases hf : Found h w.disk .always existing
      · rw [if_pos (hr.mpr hf)]
        exact ⟨rfl, hq.looked, hf, ⟨[], by simp, by simp⟩, fun hi _ => hi⟩
      · rw [if_neg (fun hrt => hf (hr.mp hrt)), dif_neg hne]
        refine wp_conseq (ih existing.dropLast (missingTail ++ [existing.getLast hne])
          hq.looked (by rw [List.length_dropLast, hlen]; rfl)) ?_
        rintro ⟨found, passed⟩ w' ⟨hd, hq', hfound, ⟨tail, htail, hpassed⟩, hlongest⟩
        refine ⟨hd, hq', hfound, ⟨tail ++ [existing.getLast hne], ?_, ?_⟩, ?_⟩
        · rw [← List.append_assoc, ← htail, List.dropLast_append_getLast]
        · simp only at hpassed
          rw [hpassed]
          simp
        · intro init hi hinit
          refine hlongest ?_ hinit
          rw [← List.dropLast_append_getLast hne] at hi
          rcases List.prefix_concat_iff.mp hi with rfl | hi
          · rw [List.dropLast_append_getLast] at hinit
            exact absurd hinit hf
          · exact hi

theorem canonicalOrProjectedPath_spec {E : Error → World → Prop} (path : PathBuf) (hq : Quiet h w) :
    (canonicalOrProjectedPath path).wp h w
      (fun loc _ => Projects h w.disk (normalized path) loc) E := by
  unfold canonicalOrProjectedPath
  refine wp_then (existingAncestor_spec _ [] hq) ?_
  rintro ⟨existing, missingTail⟩ w' ⟨hd, hq', hfound, ⟨tail, htail, hpassed⟩, hlongest⟩
  obtain ⟨node, place, hr, hnode⟩ := hfound
  have hanswer : answer .always existing (fun _ d place => (d.nodeAt place).map fun _ => place.loc)
      h w'.disk = .ok place.loc := by
    rw [hd]
    exact bind_eq_ok.mpr ⟨place, hr, map_eq_ok.mpr ⟨node, hnode, rfl⟩⟩
  rw [wp_bind, wp_context, canonicalize_eq]
  refine wp_looking_again hq' hanswer ?_
  simp only [List.nil_append] at hpassed
  refine ⟨existing, tail, place, node, htail, hr, hnode, ?_, hlongest⟩
  rw [hpassed, List.reverse_reverse]

theorem canonicalOrProjectedPath_ok (path : PathBuf) (hq : Quiet h w) :
    ∃ loc w', canonicalOrProjectedPath path h w = .ok loc w'
      ∧ Projects h w.disk (normalized path) loc :=
  exists_ok_of_wp (canonicalOrProjectedPath_spec path hq)

theorem ensureDirectoryIsolated_iff {root localDirectory : PathBuf} {loc : Loc} {w' : World}
    (hrun : canonicalOrProjectedPath root h w = .ok loc w') :
    (ensureDirectoryIsolatedFromDataRoot root localDirectory).failure h w = none
      ↔ ¬ loc <+: localDirectory ∧ ¬ localDirectory <+: loc := by
  rw [← not_or, Prog.failure_eq_none]
  have hspec : (ensureDirectoryIsolatedFromDataRoot root localDirectory).wp h w
      (fun _ _ => ¬ (loc <+: localDirectory ∨ localDirectory <+: loc))
      (fun _ _ => loc <+: localDirectory ∨ localDirectory <+: loc) := by
    unfold ensureDirectoryIsolatedFromDataRoot
    rw [wp_bind, wp_within]
    unfold Prog.wp
    rw [hrun]
    exact wp_ite id id
  constructor
  · rintro ⟨u, w₁, hok⟩
    exact wp_ok hspec hok
  · intro hnot
    cases hm : ensureDirectoryIsolatedFromDataRoot root localDirectory h w with
    | ok u w₁ => exact ⟨u, w₁, rfl⟩
    | error e w₁ => exact absurd (wp_error hspec hm) hnot

end Run

/-! ## Where the system goes -/

section Route

variable {h : Host} {d : Disk} {path : PathBuf} {loc : Loc}

/-- No part of the path is a link to nothing. -/
def NoDangling (h : Host) (d : Disk) (path : PathBuf) : Prop :=
  ∀ {init}, init <+: path → ¬ Dangling h d init

/-- The projection of a path is where the path leads, unless a part of it is a link to
nothing. -/
theorem Projects.eq_of_leadsTo {r : Loc} (hp : Projects h d path r) (hn : Named path)
    (hl : LeadsTo h d path loc) (hd : NoDangling h d path) : r = loc := by
  obtain ⟨existing, tail, place, node, rfl, hr, hnode, rfl, hlongest⟩ := hp
  obtain ⟨left, hfront⟩ := route_of_walk hnode hr
  obtain ⟨_, hl⟩ := hl
  obtain ⟨between, mid, h₁, h₂⟩ := hl.split
  obtain ⟨rfl, rfl⟩ := hfront.unique h₁
  cases tail with
  | nil =>
      cases h₂
      rw [List.append_nil]
  | cons part rest =>
      obtain ⟨hname, hdd⟩ := hn part (by simp)
      have hnext : existing ++ [part] <+: existing ++ part :: rest := by simp
      have hgone : ¬ Found h d .always (existing ++ [part]) := fun hf => by
        have := (hlongest hnext hf).length_le
        simp at this
      have hpass : Passes h d place.loc part := by
        cases h₂ with
        | skip hp => exact hp
        | up hp => exact hp
        | link hp => exact hp
        | name hp => exact hp
      -- `lstat` finds nothing either, so the rest of the path is only spelled
      have hnone : d.get (place.loc ++ [part]) = none := by_contra fun hsome =>
        hd hnext ⟨(found_snoc_iff hr hnode hname hdd hpass (by simp)).mpr hsome, hgone⟩
      have hclear : Clear h d (place.loc ++ part :: rest) := by
        have hnot : ¬ d.IsLink (place.loc ++ [part]) := by
          rintro ⟨target, ht⟩
          rw [hnone] at ht
          cases ht
        rw [← List.singleton_append, ← List.append_assoc]
        exact ((h₁.clear clear_nil).snoc hpass hnot).of_none hnone
      have hspelled : Route h d left place.loc (part :: rest) left (place.loc ++ part :: rest) :=
        hclear.route fun p hp => hn p (List.mem_append_right _ hp)
      exact (hspelled.unique h₂).2

theorem Projects.leadsTo (hp : Projects h d path loc) (hn : Named path) (hc : Clear h d loc) :
    LeadsTo h d path loc := by
  obtain ⟨existing, tail, place, node, rfl, hr, hnode, rfl, -⟩ := hp
  obtain ⟨left, hfront⟩ := route_of_walk hnode hr
  exact ⟨left, hfront.append (hc.route fun p hp => hn p (List.mem_append_right _ hp))⟩

theorem Projects.noDangling (hp : Projects h d path loc) (hn : Named path) (hc : Clear h d loc) :
    NoDangling h d path := by
  obtain ⟨existing, tail, place, node, rfl, hr, hnode, rfl, hlongest⟩ := hp
  rintro init hi ⟨hthere, hgone⟩
  have hexists : Found h d .always existing := ⟨node, place, hr, hnode⟩
  -- what exists is prefix-closed, so `init` is longer than `existing`
  have hlonger : ¬ init <+: existing := by
    rintro ⟨c, rfl⟩
    by_cases hc : c = []
    · subst hc
      rw [List.append_nil] at hexists
      exact hgone hexists
    · have hnc : Named c := fun p hp => hn p (by simp [hp])
      exact hgone (hexists.front (hnc.hasName hc))
  rcases List.eq_nil_or_concat' init with rfl | ⟨above, part, rfl⟩
  · exact hlonger List.nil_prefix
  · obtain ⟨hname, hdd⟩ := hn part (hi.subset (by simp))
    have hone : Named [part] := fun p hp => by
      rw [List.mem_singleton.mp hp]
      exact ⟨hname, hdd⟩
    obtain ⟨c, rfl⟩ := hlongest ((List.prefix_append above [part]).trans hi)
      (hthere.front (hone.hasName (by simp)))
    rw [List.append_assoc, List.prefix_append_right_inj] at hi
    cases c with
    | cons next c =>
        obtain ⟨rfl, -⟩ := List.cons_prefix_cons.mp hi
        exact hlonger (by simp)
    | nil =>
        obtain ⟨rest, rfl⟩ := hi
        rw [List.append_nil] at hr
        have hhere : place.loc ++ [part] <+: place.loc ++ ([part] ++ rest) := by simp
        have hnot := hc.noLink hhere
        have hpass := hc.passes hhere
        exact hgone ((found_snoc_iff hr hnode hname hdd hpass fun _ => hnot).mpr
          ((found_snoc_iff hr hnode hname hdd hpass (by simp)).mp hthere))

/-- A path without `..` leads to the same location when `.` and empty parts are removed. -/
theorem leadsTo_normalized (hl : LeadsTo h d path loc) (hdd : ['.', '.'] ∉ path) :
    LeadsTo h d (normalized path) loc := by
  obtain ⟨left, hl⟩ := hl
  rw [normalized_of_no_dotDot hdd]
  exact ⟨left, hl.names⟩

/-- `LeadsTo` is what `fs::canonicalize` answers, where it answers. -/
theorem leadsTo_of_canonicalize {w w' : World}
    (hrun : (canonicalize path : Fs _) h w = .ok (.ok loc) w') : LeadsTo h w.disk path loc := by
  have hspec : (canonicalize path : Fs _).wp h w
      (fun r _ => ∀ {loc}, r = .ok loc → LeadsTo h w.disk path loc) (fun _ _ => True) := by
    rw [canonicalize_eq]
    refine wp_looking (fun a ha loc hloc => ?_) fun kind _ loc hloc => by cases hloc
    obtain ⟨place, hr, hmap⟩ := bind_eq_ok.mp ha
    obtain ⟨node, hnode, rfl⟩ := map_eq_ok.mp hmap
    cases hloc
    exact route_of_walk hnode hr
  exact wp_ok hspec hrun rfl

end Route

/-! ## Isolation -/

/-- `/l` is a link to `/e/d`, beside which lies `/e/x`. -/
def behindLink : Disk :=
  let d₁ := Disk.bare.put [] ['e'] (.dir 0o755) (by decide +kernel)
  let d₂ := d₁.put [['e']] ['d'] (.dir 0o755) (by decide +kernel)
  let d₃ := d₂.put [['e']] ['x'] (.dir 0o700) (by decide +kernel)
  d₃.put [] ['l'] (.symlink "/e/d".toList) (by decide +kernel)

theorem leadsTo_behindLink :
    LeadsTo .quiet behindLink (split "/l/../x".toList) [['e'], ['x']] := by
  have hr : resolve .quiet behindLink .always (split "/l/../x".toList)
      = .ok (.entry [['e']] ['x'] false) := by decide +kernel
  have hnode : behindLink.nodeAt (.entry [['e']] ['x'] false) = .ok (.dir 0o700) := by
    decide +kernel
  exact route_of_walk hnode hr

/-- Let the configured data directory lead to `loc`.  The program answers `loc` exactly when
the path without `.` and `..` leads there too and none of it is a link to nothing, and then
an accepted directory neither contains the data directory nor lies in it. -/
theorem projected_iff_leadsTo_normalized {h : Host} {w : World} {root : PathBuf} {loc : Loc}
    (hq : Quiet h w) (hl : LeadsTo h w.disk root loc) :
    ((∃ w', canonicalOrProjectedPath root h w = .ok loc w')
        ↔ LeadsTo h w.disk (normalized root) loc ∧ NoDangling h w.disk (normalized root))
      ∧ (LeadsTo h w.disk (normalized root) loc ∧ NoDangling h w.disk (normalized root) →
        ∀ localDirectory,
          (ensureDirectoryIsolatedFromDataRoot root localDirectory).failure h w = none →
          ¬ loc <+: localDirectory ∧ ¬ localDirectory <+: loc)
      ∧ (['.', '.'] ∉ root → LeadsTo h w.disk (normalized root) loc)
      ∧ ∀ real w', (canonicalize root : Fs _) h w = .ok (.ok real) w' → real = loc := by
  have hn := named_normalized root
  obtain ⟨r, w₁, hrun, hp⟩ := canonicalOrProjectedPath_ok root hq
  have hiff : (∃ w', canonicalOrProjectedPath root h w = .ok loc w')
      ↔ LeadsTo h w.disk (normalized root) loc ∧ NoDangling h w.disk (normalized root) := by
    constructor
    · rintro ⟨w', hrun'⟩
      rw [hrun] at hrun'
      cases hrun'
      exact ⟨hp.leadsTo hn hl.clear, hp.noDangling hn hl.clear⟩
    · rintro ⟨hl', hd⟩
      obtain rfl := hp.eq_of_leadsTo hn hl' hd
      exact ⟨w₁, hrun⟩
  refine ⟨hiff, fun hc localDirectory haccept => ?_, leadsTo_normalized hl, fun real w' hreal => ?_⟩
  · obtain ⟨w', hrun'⟩ := hiff.mpr hc
    exact (ensureDirectoryIsolated_iff hrun').mp haccept
  · exact (leadsTo_of_canonicalize hreal).unique hl

theorem projected_iff_leadsTo_normalized_behind_link :
    let w : World := ⟨behindLink, 0, []⟩
    let root := split "/l/../x".toList
    Quiet .quiet w ∧ LeadsTo .quiet behindLink root [['e'], ['x']]
      ∧ ((∃ w', canonicalOrProjectedPath root .quiet w = .ok [['e'], ['x']] w')
        ↔ LeadsTo .quiet behindLink (normalized root) [['e'], ['x']]
          ∧ NoDangling .quiet behindLink (normalized root)) :=
  ⟨fun _ _ => rfl, leadsTo_behindLink,
    (@projected_iff_leadsTo_normalized .quiet ⟨behindLink, 0, []⟩ _ _ (fun _ _ => rfl)
      leadsTo_behindLink).1⟩

/-- The data directory is configured as `/l/../x`, which is `/e/x`.  By name it is `/x`, so
`/e` is accepted as a shared directory. -/
theorem dataRoot_published_behind_link :
    discover (some "/l/../x".toList) = .ok (split "/l/../x".toList)
      ∧ LeadsTo .quiet behindLink (split "/l/../x".toList) [['e'], ['x']]
      ∧ behindLink.IsDir [['e']]
      ∧ (ensureDirectoryIsolatedFromDataRoot (split "/l/../x".toList) [['e']]).failure .quiet
        ⟨behindLink, 0, []⟩ = none
      ∧ [['e']] <+: [['e'], ['x']] :=
  ⟨by decide +kernel, leadsTo_behindLink, by decide +kernel, by decide +kernel, by decide⟩

end Syncbox

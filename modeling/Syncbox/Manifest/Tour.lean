/-
# `Syncbox.Manifest.Tour` — one scan, and the next

A discovery that succeeds has asked the disk a list of questions, and what it got for
answers (`glimpse`) does not depend on the manifest it compares with.  So the next
discovery of the same tree gets the same answers.  Only the files are looked into, and
only where the previous manifest does not describe them: after one scan it describes all
of them, whatever the manifest was before.

Nothing is asked of the root but that the first scan got through: it may lead through
links.
-/
import Syncbox.Lib.Unix.Look
import Syncbox.Manifest.Discover
import Syncbox.Manifest.Shortcut

namespace Syncbox

open Rust Unix Prog Check

theorem toOption_eq_some {ε α : Type} {x : Except ε α} {a : α} :
    x.toOption = some a ↔ x = .ok a := by
  cases x <;> simp [Except.toOption]

/-- What a discovery learns of an entry without looking into it. -/
inductive Glimpse where
  | link (target : Str)
  | dir (metadata : Node)
  | file (metadata : Node)

/-- What the disk answers about one entry, if a discovery goes on with it. -/
def glimpseAt (h : Host) (d : Disk) (path : PathBuf) : Node → Option Glimpse
  | .symlink _ => ((answer .slash path linkAt h d).toOption.filter
      fun target => validateSymlinkTarget target = .ok ()).map .link
  | .dir _ => (answer .slash path (fun _ d => d.nodeAt) h d).toOption.map .dir
  | .file .. => (answer .slash path (fun _ d => d.nodeAt) h d).toOption.map .file
  | .special => none

def glimpse (h : Host) (d : Disk) (root : PathBuf) (x : List Str × Node) : Option (Str × Glimpse) :=
  (relativeManifestPath x.1).toOption.bind fun path =>
    (glimpseAt h d (root ++ x.1) x.2).map fun g => (path, g)

/-- The entries of a tree that a discovery can go through. -/
structure Toured (h : Host) (d : Disk) (root : PathBuf) (entries : List (List Str × Node)) : Prop where
  isDir : ∃ node, answer .always root (fun _ d => d.nodeAt) h d = .ok node ∧ node.isDir = true
  walk : answer .always root treeAt h d = .ok entries
  noted : ∀ x ∈ entries, x.2 ≠ .special → ∃ note, glimpse h d root x = some note
  count : (entries.filterMap (glimpse h d root)).length ≤ MAX_MANIFEST_ENTRIES

/-! ## The first discovery -/

/-- A file is reported by its metadata; the digest is the known one or a new one. -/
def FileReported [Crypto] (known : Option ManifestEntry) (unknown : Bool) (metadata : Node)
    (f : DiscoveredFile) : Prop :=
  (∃ old, known = some old ∧ stillDescribes metadata unknown old = true
      ∧ f = ⟨old.size, old.modifiedAtNs, old.sha256, old.permissions⟩)
    ∨ ∃ content, f = ⟨metadata.len, metadata.modified, sha256Hex content,
      permissionsFromMetadata metadata⟩

/-- What is reported for a glimpse, in a discovery that looks files up in `previous`. -/
def Reported [Crypto] (previous : Manifest) (unknown : Bool) (note : Str × Glimpse) (x : Str × Seen) :
    Prop :=
  x.1 = note.1 ∧ match note.2 with
    | .link target => x.2 = .symlink ⟨target⟩
    | .dir metadata => x.2 = .directory ⟨permissionsFromMetadata metadata⟩
    | .file metadata => ∃ f, x.2 = .file f ∧ FileReported previous.entries[note.1]? unknown metadata f

/-- What was reported, put together. -/
def DiscoveredEntries.ofSeen (seen : List (Str × Seen)) : DiscoveredEntries :=
  seen.foldl (fun found x => found.put x.1 x.2) ⟨∅, ∅, ∅⟩

section First

variable {h : Host} {w : World} {root : PathBuf} {previous : Manifest} {unknown : Bool}

theorem wp_call_frame {α : Type} {core : Core α}
    (hcore : ∀ a d log, core h w.calls w.disk = .ok (a, d, log) → d = w.disk) :
    (call core : Fs _).wp h w (fun _ w' => w'.disk = w.disk) fun _ _ => True :=
  wp_call (fun a d log hc => hcore a d log hc) fun _ _ => rfl

theorem openRead_frame (path : PathBuf) :
    (openRead path : Fs _).wp h w (fun _ w' => w'.disk = w.disk) fun _ _ => True := by
  unfold openRead callAt
  refine wp_call_frame fun loc d log hc => ?_
  obtain ⟨place, -, hc⟩ := bind_eq_ok.mp hc
  obtain ⟨node, -, hc⟩ := bind_eq_ok.mp hc
  split at hc
  · split at hc <;> cases hc; rfl
  · split at hc <;> cases hc; rfl
  · cases hc; rfl

theorem glimpse_special (h : Host) (d : Disk) (root : PathBuf) (names : List Str) :
    glimpse h d root (names, .special) = none := by
  unfold glimpse
  cases relativeManifestPath names <;> rfl

theorem glimpse_eq_some {d : Disk} {x : List Str × Node} {note : Str × Glimpse}
    (hg : glimpse h d root x = some note) :
    relativeManifestPath x.1 = .ok note.1 ∧ glimpseAt h d (root ++ x.1) x.2 = some note.2 := by
  obtain ⟨path, hpath, hg⟩ := Option.bind_eq_some_iff.mp hg
  obtain ⟨g, hat, rfl⟩ := Option.map_eq_some_iff.mp hg
  refine ⟨?_, hat⟩
  cases hp : relativeManifestPath x.1 with
  | error e => rw [hp] at hpath; cases hpath
  | ok path' => rw [hp] at hpath; cases hpath; rfl

theorem split_of_glimpse {d : Disk} {x : List Str × Node} {note : Str × Glimpse}
    (hx : x.1 ≠ [] ∧ ∀ part ∈ x.1, isFileName part = true)
    (hg : glimpse h d root x = some note) : split note.1 = x.1 := by
  rw [relativeManifestPath_ok (glimpse_eq_some hg).1]
  exact split_join_of_isFileName hx.2 hx.1

theorem nodup_notes {d : Disk} {entries : List (List Str × Node)}
    (hnodup : (entries.map Prod.fst).Nodup)
    (hnames : ∀ x ∈ entries, x.1 ≠ [] ∧ ∀ part ∈ x.1, isFileName part = true) :
    ((entries.filterMap (glimpse h d root)).map Prod.fst).Nodup := by
  induction entries with
  | nil => exact .nil
  | cons x entries ih =>
      have hx := List.nodup_cons.mp hnodup
      have hrest := fun y hy => hnames y (List.mem_cons_of_mem x hy)
      cases hg : glimpse h d root x with
      | none =>
          rw [List.filterMap_cons_none hg]
          exact ih hx.2 hrest
      | some note =>
          rw [List.filterMap_cons_some hg, List.map_cons, List.nodup_cons]
          refine ⟨fun hmem => ?_, ih hx.2 hrest⟩
          obtain ⟨note', hnote', heq⟩ := List.mem_map.mp hmem
          obtain ⟨y, hy, hgy⟩ := List.mem_filterMap.mp hnote'
          refine hx.1 (List.mem_map.mpr ⟨y, hy, ?_⟩)
          rw [← split_of_glimpse (hrest y hy) hgy, heq,
            split_of_glimpse (hnames x List.mem_cons_self) hg]

theorem ofSeen_concat (seen : List (Str × Seen)) (x : Str × Seen) :
    DiscoveredEntries.ofSeen (seen ++ [x]) = (DiscoveredEntries.ofSeen seen).put x.1 x.2 := by
  rw [DiscoveredEntries.ofSeen, List.foldl_append]
  rfl

theorem count_ofSeen_le (seen : List (Str × Seen)) :
    (DiscoveredEntries.ofSeen seen).count ≤ seen.length := by
  induction seen using List.reverseRecOn with
  | nil => simp [DiscoveredEntries.ofSeen, DiscoveredEntries.count]
  | append_singleton seen x ih =>
      rw [ofSeen_concat, List.length_append, List.length_singleton]
      exact (DiscoveredEntries.count_put_le _ _ _).trans (Nat.add_le_add_right ih 1)

theorem lookup_eq_none {seen : List (Str × Seen)} {p : Str} (hp : p ∉ seen.map Prod.fst) :
    seen.lookup p = none := by
  rw [List.lookup_eq_none_iff]
  intro x hx
  have hne : p ≠ x.1 := by
    rintro rfl
    exact hp (List.mem_map_of_mem hx)
  simpa using hne

/-- Without a path reported twice, what was put together is what was reported. -/
theorem sees_ofSeen {seen : List (Str × Seen)} (hnodup : (seen.map Prod.fst).Nodup) :
    (DiscoveredEntries.ofSeen seen).Sees fun p => seen.lookup p := by
  induction seen using List.reverseRecOn with
  | nil => constructor <;> intro p <;> simp [DiscoveredEntries.ofSeen]
  | append_singleton seen x ih =>
      rw [List.map_append, List.nodup_append] at hnodup
      have hx : x.1 ∉ seen.map Prod.fst := fun hmem =>
        hnodup.2.2 x.1 hmem x.1 (List.mem_singleton.mpr rfl) rfl
      have hput := (ih hnodup.1).put (p := x.1) (s := x.2) (.inl (lookup_eq_none hx))
      rw [ofSeen_concat]
      convert hput using 1
      funext q
      rw [List.lookup_append]
      by_cases hq : x.1 = q
      · subst hq
        simp [lookup_eq_none hx, List.lookup]
      · have hne : (q == x.1) = false := by simpa using Ne.symm hq
        simp [List.lookup, hne, hq]

theorem lookup_eq_some {seen : List (Str × Seen)} (hnodup : (seen.map Prod.fst).Nodup)
    {p : Str} {s : Seen} : seen.lookup p = some s ↔ (p, s) ∈ seen := by
  induction seen with
  | nil => simp
  | cons x seen ih =>
      obtain ⟨hx, hrest⟩ := List.nodup_cons.mp hnodup
      obtain ⟨q, t⟩ := x
      rw [List.mem_cons, ← ih hrest, List.lookup]
      by_cases hq : p = q
      · subst hq
        simp [lookup_eq_none hx, eq_comm]
      · have hne : (p == q) = false := by simpa using hq
        simp [hne, hq]

theorem count_ofSeen {seen : List (Str × Seen)} (hnodup : (seen.map Prod.fst).Nodup) :
    (DiscoveredEntries.ofSeen seen).count = seen.length := by
  induction seen using List.reverseRecOn with
  | nil => simp [DiscoveredEntries.ofSeen, DiscoveredEntries.count]
  | append_singleton seen x ih =>
      rw [List.map_append, List.nodup_append] at hnodup
      have hx : x.1 ∉ seen.map Prod.fst := fun hmem =>
        hnodup.2.2 x.1 hmem x.1 (List.mem_singleton.mpr rfl) rfl
      have hsees := sees_ofSeen hnodup.1
      have hnone := lookup_eq_none hx
      have hf : x.1 ∉ (DiscoveredEntries.ofSeen seen).files :=
        notMem_iff_lookup.mpr (by rw [hsees.files, hnone]; rfl)
      have hd : x.1 ∉ (DiscoveredEntries.ofSeen seen).directories :=
        notMem_iff_lookup.mpr (by rw [hsees.directories, hnone]; rfl)
      have hl : x.1 ∉ (DiscoveredEntries.ofSeen seen).symlinks :=
        notMem_iff_lookup.mpr (by rw [hsees.symlinks, hnone]; rfl)
      rw [ofSeen_concat, List.length_append, List.length_singleton, ← ih hnodup.1]
      cases x.2 <;> simp only [DiscoveredEntries.put, DiscoveredEntries.count]
      · rw [size_insert_of_notMem hf]
        omega
      · rw [size_insert_of_notMem hd]
        omega
      · rw [size_insert_of_notMem hl]
        omega

theorem exists_of_forall₂ {α β : Type} {R : α → β → Prop} {l : List α} {l' : List β} {a : α}
    (h : List.Forall₂ R l l') (ha : a ∈ l) : ∃ b ∈ l', R a b := by
  induction h with
  | nil => cases ha
  | @cons a' b' l l' hx _ ih =>
      rcases List.mem_cons.mp ha with rfl | ha
      · exact ⟨b', List.mem_cons_self, hx⟩
      · obtain ⟨b, hb, hR⟩ := ih ha
        exact ⟨b, List.mem_cons_of_mem _ hb, hR⟩

theorem map_fst_of_forall₂ {R : Str × Glimpse → Str × Seen → Prop} {notes : List (Str × Glimpse)}
    {seen : List (Str × Seen)} (hR : ∀ {note x}, R note x → x.1 = note.1)
    (h : List.Forall₂ R notes seen) : seen.map Prod.fst = notes.map Prod.fst := by
  induction h with
  | nil => rfl
  | cons hx _ ih => rw [List.map_cons, List.map_cons, ih, hR hx]

variable [Crypto]

theorem hashAttempts_reported (path : PathBuf) (metadata : Node) (attempts : Nat) :
    (hashAttempts path metadata attempts).wp h w
      (fun f w' => w'.disk = w.disk ∧ ∃ content, f = ⟨metadata.len, metadata.modified,
        sha256Hex content, permissionsFromMetadata metadata⟩)
      fun _ _ => True := by
  induction attempts generalizing w with
  | zero => exact trivial
  | succ attempts ih =>
      rw [hashAttempts, wp_bind, wp_context]
      refine wp_conseq (openRead_frame path) fun r w₁ hd₁ => ?_
      cases r with
      | error kind => exact trivial
      | ok file =>
      dsimp only
      refine wp_context_then readAll_spec fun r w₂ hread => ?_
      cases r with
      | error kind => exact trivial
      | ok content =>
      have hd₂ : w₂.disk = w₁.disk := by
        rcases hread with ⟨_, _, _, -, -, hd, -⟩ | ⟨_, -, hs, -⟩
        · exact hd
        · exact hs.disk
      dsimp only
      refine wp_context_then fstat_spec fun r w₃ hstat => ?_
      cases r with
      | error kind => exact trivial
      | ok after =>
      have hd₃ : w₃.disk = w.disk := by
        rcases hstat with ⟨_, -, -, hs⟩ | ⟨_, -, hs, -⟩
        · exact hs.disk.trans (hd₂.trans hd₁)
        · exact hs.disk.trans (hd₂.trans hd₁)
      refine wp_ite (fun _ => ⟨hd₃, content.val, rfl⟩) fun _ => ?_
      refine wp_conseq ih fun f w₄ hf => ⟨hf.1.trans hd₃, hf.2⟩

theorem discoverFile_reported (path : PathBuf) (metadata : Node) (known : Option ManifestEntry) :
    (discoverFile path metadata known unknown).wp h w
      (fun f w' => w'.disk = w.disk ∧ FileReported known unknown metadata f) fun _ _ => True := by
  unfold discoverFile
  cases hk : known.filter (stillDescribes metadata unknown) with
  | some old =>
      obtain ⟨hknown, hstill⟩ := Option.filter_eq_some_iff.mp hk
      exact ⟨rfl, .inl ⟨old, hknown, hstill, rfl⟩⟩
  | none => exact wp_conseq (hashAttempts_reported path metadata 3) fun f w' hf => ⟨hf.1, .inr hf.2⟩

theorem discoverEntry_eq {found : DiscoveredEntries} {x : List Str × Node}
    (hspecial : x.2 ≠ .special) :
    discoverEntry root previous unknown found x = recordEntry root previous unknown found x.1 x.2 := by
  obtain ⟨names, node⟩ := x
  cases node with
  | special => exact absurd rfl hspecial
  | _ => rfl

theorem recordEntry_reported {found : DiscoveredEntries} {x : List Str × Node}
    (hspecial : x.2 ≠ .special) :
    (recordEntry root previous unknown found x.1 x.2).wp h w
      (fun found' w' => w'.disk = w.disk ∧ found.count < MAX_MANIFEST_ENTRIES
        ∧ ∃ note s, glimpse h w.disk root x = some note
          ∧ Reported previous unknown note (note.1, s) ∧ found' = found.put note.1 s)
      fun _ _ => True := by
  obtain ⟨names, node⟩ := x
  unfold recordEntry
  refine wp_ite (fun _ => trivial) fun hcount => ?_
  have hcount : found.count < MAX_MANIFEST_ENTRIES := Nat.lt_of_not_le hcount
  rw [wp_bind]
  cases hpath : relativeManifestPath names with
  | error e => exact trivial
  | ok path =>
  rw [wp_ofExcept_ok]
  cases node with
  | special => exact absurd rfl hspecial
  | symlink target₀ =>
      refine wp_ite (fun _ => ?_) fun hno => absurd rfl hno
      rw [wp_bind, wp_context, readLink_eq]
      refine wp_looking (fun target ha => ?_) fun _ _ => trivial
      dsimp only
      rw [wp_bind]
      cases hvalid : validateSymlinkTarget target with
      | error e => exact trivial
      | ok u =>
          refine ⟨rfl, hcount, (path, .link target), .symlink ⟨target⟩, ?_, ⟨rfl, rfl⟩, rfl⟩
          simp [glimpse, glimpseAt, hpath, ha, hvalid, Except.toOption]
  | dir mode =>
      refine wp_ite (fun hno => by cases hno) fun _ => ?_
      rw [wp_bind, wp_context, lstat_eq]
      refine wp_looking (fun metadata ha => ?_) fun _ _ => trivial
      refine wp_ite (fun _ => ?_) fun hno => absurd rfl hno
      refine ⟨rfl, hcount, (path, .dir metadata), _, ?_, ⟨rfl, rfl⟩, rfl⟩
      simp [glimpse, glimpseAt, hpath, ha, Except.toOption]
  | file content mode mtime =>
      refine wp_ite (fun hno => by cases hno) fun _ => ?_
      rw [wp_bind, wp_context, lstat_eq]
      refine wp_looking (fun metadata ha => ?_) fun _ _ => trivial
      refine wp_ite (fun hno => by cases hno) fun _ => ?_
      refine wp_then (discoverFile_reported _ metadata _) fun f w' hf => ?_
      refine ⟨hf.1, hcount, (path, .file metadata), .file f, ?_, ⟨rfl, f, rfl, hf.2⟩, rfl⟩
      simp [glimpse, glimpseAt, hpath, ha, Except.toOption]

/-- What a discovery has when the entries of `done` are behind it. -/
structure FirstTour (h : Host) (d : Disk) (root : PathBuf) (previous : Manifest) (unknown : Bool)
    (done : List (List Str × Node)) (found : DiscoveredEntries) (seen : List (Str × Seen)) : Prop where
  noted : ∀ x ∈ done, x.2 ≠ .special → ∃ note, glimpse h d root x = some note
  reported : List.Forall₂ (Reported previous unknown) (done.filterMap (glimpse h d root)) seen
  found : found = .ofSeen seen
  count : seen.length ≤ MAX_MANIFEST_ENTRIES

theorem discoverEntry_reported {d : Disk} {pre post : List (List Str × Node)} {x : List Str × Node}
    {found : DiscoveredEntries} {seen : List (Str × Seen)} (hd : w.disk = d)
    (hnodup : ((pre ++ x :: post).map Prod.fst).Nodup)
    (hnames : ∀ y ∈ pre ++ x :: post, y.1 ≠ [] ∧ ∀ part ∈ y.1, isFileName part = true)
    (ht : FirstTour h d root previous unknown pre found seen) :
    (discoverEntry root previous unknown found x).wp h w
      (fun found' w' => w'.disk = d ∧ ∃ seen', FirstTour h d root previous unknown (pre ++ [x]) found' seen')
      fun _ _ => True := by
  by_cases hspecial : x.2 = .special
  · obtain ⟨names, node⟩ := x
    cases hspecial
    refine ⟨hd, seen, ⟨fun y hy hne => ?_, ?_, ht.found, ht.count⟩⟩
    · rcases List.mem_append.mp hy with hy | hy
      · exact ht.noted y hy hne
      · cases List.mem_singleton.mp hy
        exact absurd rfl hne
    · rw [List.filterMap_append, List.filterMap_cons_none (glimpse_special h d root names),
        List.filterMap_nil, List.append_nil]
      exact ht.reported
  · rw [discoverEntry_eq hspecial]
    refine wp_conseq (recordEntry_reported hspecial) ?_
    rintro found' w' ⟨hdisk, hcount, note, s, hg, hreported, rfl⟩
    rw [hd] at hdisk hg
    have hpaths := map_fst_of_forall₂ (fun hr => hr.1) ht.reported
    have hpre : (pre.map Prod.fst).Nodup := by
      rw [List.map_append, List.nodup_append] at hnodup
      exact hnodup.1
    have hseen : (seen.map Prod.fst).Nodup := by
      rw [hpaths]
      exact nodup_notes hpre fun y hy => hnames y (List.mem_append_left _ hy)
    refine ⟨hdisk, seen ++ [(note.1, s)], ⟨fun y hy hne => ?_, ?_, ?_, ?_⟩⟩
    · rcases List.mem_append.mp hy with hy | hy
      · exact ht.noted y hy hne
      · cases List.mem_singleton.mp hy
        exact ⟨note, hg⟩
    · rw [List.filterMap_append, List.filterMap_cons_some hg, List.filterMap_nil]
      exact List.rel_append ht.reported (.cons hreported .nil)
    · rw [ht.found, ofSeen_concat]
    · rw [ht.found, count_ofSeen hseen] at hcount
      rw [List.length_append]
      exact hcount

/-- A discovery that succeeds has toured the tree. -/
theorem discoverEntries_reported :
    (discoverEntries root previous unknown).wp h w
      (fun found w' => w'.disk = w.disk ∧ ∃ entries seen, Toured h w.disk root entries
        ∧ List.Forall₂ (Reported previous unknown) (entries.filterMap (glimpse h w.disk root)) seen
        ∧ (seen.map Prod.fst).Nodup ∧ found = .ofSeen seen)
      fun _ _ => True := by
  unfold discoverEntries
  rw [wp_bind, wp_context, stat_eq]
  refine wp_looking (fun node hnode => ?_) fun _ _ => trivial
  refine wp_ite (fun _ => trivial) fun hdir => ?_
  rw [wp_bind, wp_context, walkDir_eq]
  refine wp_looking (fun entries hwalk => ?_) fun _ _ => trivial
  obtain ⟨hnodup, hnames⟩ := walk_names hwalk
  refine wp_conseq (wp_foldlM (I := fun done found w' => w'.disk = w.disk
      ∧ ∃ seen, FirstTour h w.disk root previous unknown done found seen) entries [] _ _
    ⟨rfl, [], ⟨by simp, .nil, rfl, Nat.zero_le _⟩⟩ ?_) ?_
  · rintro pre x post found w' heq ⟨hd, seen, ht⟩
    rw [List.nil_append] at heq
    rw [heq] at hnodup hnames
    exact discoverEntry_reported hd hnodup hnames ht
  · rintro found w' ⟨hd, seen, ht⟩
    rw [List.nil_append] at ht
    have hpaths := map_fst_of_forall₂ (fun hr => hr.1) ht.reported
    refine ⟨hd, entries, seen, ⟨⟨node, hnode, by simpa using hdir⟩, hwalk, ht.noted, ?_⟩, ht.reported, ?_,
      ht.found⟩
    · rw [ht.reported.length_eq]
      exact ht.count
    · rw [hpaths]
      exact nodup_notes hnodup hnames

variable {clock : ClockState} {endpointId : EndpointId} {nowMs : U64}

theorem scan_of_ok {r : ScanResult} {w' : World} {discovered : DiscoveredEntries}
    (hclock : clock.validate = .ok ())
    (hrun : discoverEntries root previous (unknownPermissionsMatch previous) h w = .ok discovered w')
    (hcompare : compareWithPrevious previous clock endpointId nowMs (unknownPermissionsMatch previous)
      discovered = .ok r) :
    scanManifestCachedAfterValidation root previous clock endpointId nowMs h w = .ok r w' := by
  have hwp : (scanManifestCachedAfterValidation root previous clock endpointId nowMs).wp h w
      (fun r' w'' => r' = r ∧ w'' = w') fun _ _ => False := by
    unfold scanManifestCachedAfterValidation
    rw [wp_bind, hclock, wp_ofExcept_ok]
    dsimp only
    rw [unknownPermissionsMatch] at hrun hcompare
    rw [wp_bind, Prog.wp, hrun]
    show (Prog.ofExcept (compareWithPrevious ..) : Fs ScanResult).wp h w' _ _
    rw [hcompare]
    exact ⟨rfl, rfl⟩
  obtain ⟨r', w'', hscan, rfl, rfl⟩ := exists_ok_of_wp hwp
  exact hscan

theorem scan_ok {r : ScanResult} {w' : World}
    (hscan : scanManifestCachedAfterValidation root previous clock endpointId nowMs h w = .ok r w') :
    clock.validate = .ok ()
      ∧ ∃ discovered, discoverEntries root previous (unknownPermissionsMatch previous) h w
          = .ok discovered w'
        ∧ compareWithPrevious previous clock endpointId nowMs (unknownPermissionsMatch previous)
          discovered = .ok r := by
  refine wp_ok (E := fun _ _ => True) (Q := fun r w' => clock.validate = .ok ()
    ∧ ∃ discovered, discoverEntries root previous (unknownPermissionsMatch previous) h w
        = .ok discovered w'
      ∧ compareWithPrevious previous clock endpointId nowMs (unknownPermissionsMatch previous)
        discovered = .ok r) ?_ hscan
  unfold scanManifestCachedAfterValidation
  rw [wp_bind]
  cases hclock : clock.validate with
  | error e => exact trivial
  | ok u =>
  rw [wp_ofExcept_ok]
  dsimp only
  refine wp_seq (wp_self _ h w) (fun discovered w₁ hrun => ?_) fun _ _ _ => trivial
  cases hc : compareWithPrevious previous clock endpointId nowMs
      (decide (previous.formatVersion ≠ LEGACY_MANIFEST_FORMAT_VERSION)) discovered with
  | error e => exact trivial
  | ok r => exact ⟨rfl, discovered, hrun, hc⟩

/-- What a scan that returns has discovered, and what it has made of it. -/
theorem scan_specification {r : ScanResult} {w' : World} (hprev : previous.Valid previous.shareId)
    (hscan : scanManifestCachedAfterValidation root previous clock endpointId nowMs h w = .ok r w') :
    ∃ discovered, discoverEntries root previous (unknownPermissionsMatch previous) h w
        = .ok discovered w'
      ∧ ∃ fresh, Scanned previous clock endpointId (unknownPermissionsMatch previous) discovered fresh
        r.manifest r.changes r.clock := by
  obtain ⟨-, discovered, hrun, hcompare⟩ := scan_ok hscan
  obtain ⟨-, entries, seen, -, -, hnodup, rfl⟩ := wp_ok discoverEntries_reported hrun
  exact ⟨_, hrun, compareWithPrevious_scanned hprev (sees_ofSeen hnodup) hcompare⟩

end First

section Mixed

def mixedDisk : Disk :=
  ((Disk.bare.put [] "kept".toList (.file .empty 0o644 9) (by decide +kernel)).put []
    "changed".toList (.file .empty 0o644 9) (by decide +kernel)).put []
    "new".toList (.file .empty 0o644 9) (by decide +kernel)

def mixedManifest : Manifest :=
  { Manifest.empty ⟨List.replicate 32 0, length_zeros⟩ 2 with
    entries := Std.ExtTreeMap.ofList
      [("kept".toList, ⟨0, 9, List.replicate 64 '0', some 0o644, .ofWall 7⟩),
        ("changed".toList, ⟨3, 1, List.replicate 64 '0', some 0o644, .ofWall 7⟩),
        ("gone".toList, ⟨3, 1, List.replicate 64 '0', some 0o644, .ofWall 7⟩)] compare }

/-- Of three files one is as recorded, one is another and one is gone; a fourth is new. -/
theorem scan_specification_mixed :
    let _ := Crypto.plain
    let previous := mixedManifest
    previous.Valid ⟨List.replicate 32 0, rfl⟩
      ∧ ∃ r w' discovered fresh, scanManifestCachedAfterValidation [] previous .new
          ⟨List.replicate 32 0, rfl⟩ 5 .quiet ⟨mixedDisk, 0, []⟩ = .ok r w'
        ∧ Scanned previous .new ⟨List.replicate 32 0, rfl⟩ true discovered fresh r.manifest r.changes
          r.clock
        ∧ r.changes = 3 ∧ r.manifest.record "kept".toList = previous.record "kept".toList
        ∧ r.manifest.entries.keys = ["changed".toList, "kept".toList, "new".toList]
        ∧ r.manifest.tombstones.keys = ["gone".toList] := by
  intro _ previous
  have hvalid : previous.Valid ⟨List.replicate 32 0, rfl⟩ := by decide +kernel
  obtain ⟨r, w', hscan, hresult⟩ := exists_ok_of_wp (show (scanManifestCachedAfterValidation []
    previous .new ⟨List.replicate 32 0, rfl⟩ 5).wp .quiet ⟨mixedDisk, 0, []⟩ (fun r _ => r.changes = 3
      ∧ r.manifest.record "kept".toList = previous.record "kept".toList
      ∧ r.manifest.entries.keys = ["changed".toList, "kept".toList, "new".toList]
      ∧ r.manifest.tombstones.keys = ["gone".toList]) fun _ _ => False by decide +kernel)
  obtain ⟨discovered, -, fresh, hscanned⟩ := scan_specification hvalid hscan
  exact ⟨hvalid, r, w', discovered, fresh, hscan, hscanned, hresult⟩

end Mixed

/-! ## The next discovery -/

/-- What is reported for a glimpse when the manifest describes every file. -/
def Recalled (manifest : Manifest) (note : Str × Glimpse) (x : Str × Seen) : Prop :=
  x.1 = note.1 ∧ match note.2 with
    | .link target => x.2 = .symlink ⟨target⟩
    | .dir metadata => x.2 = .directory ⟨permissionsFromMetadata metadata⟩
    | .file _ => ∃ e, manifest.entries[note.1]? = some e
        ∧ x.2 = .file ⟨e.size, e.modifiedAtNs, e.sha256, e.permissions⟩

/-- The manifest has an entry that still describes each file. -/
def Described (manifest : Manifest) (unknown : Bool) (note : Str × Glimpse) : Prop :=
  match note.2 with
  | .file metadata => ∃ e, manifest.entries[note.1]? = some e
      ∧ stillDescribes metadata unknown e = true
  | _ => True

section Next

variable {h : Host} {w : World} {root : PathBuf} {manifest : Manifest} {unknown : Bool}

/-- Nothing has happened but some looking. -/
structure Idle (h : Host) (w w' : World) : Prop where
  disk : w'.disk = w.disk
  log : w'.log = w.log
  quiet : Quiet h w'

theorem Idle.looked {w₁ : World} (hi : Idle h w w₁) : Idle h w w₁.looked :=
  ⟨hi.disk, hi.log, hi.quiet.looked⟩

variable [Crypto]

theorem recordEntry_recalled {w₁ : World} {found : DiscoveredEntries} {x : List Str × Node}
    {note : Str × Glimpse} (hi : Idle h w w₁) (hcount : found.count < MAX_MANIFEST_ENTRIES)
    (hg : glimpse h w.disk root x = some note) (hdescribed : Described manifest unknown note) :
    (recordEntry root manifest unknown found x.1 x.2).wp h w₁
      (fun found' w' => Idle h w w' ∧ ∃ s, Recalled manifest note (note.1, s)
        ∧ found' = found.put note.1 s)
      fun _ _ => False := by
  obtain ⟨names, node⟩ := x
  obtain ⟨path, g⟩ := note
  obtain ⟨hpath, hat⟩ := glimpse_eq_some hg
  unfold recordEntry
  refine wp_ite (fun hfull => absurd hcount (Nat.not_lt.mpr hfull)) fun _ => ?_
  rw [wp_bind]
  simp only at hpath
  rw [hpath, wp_ofExcept_ok]
  rw [← hi.disk] at hat
  cases node with
  | special => cases hat
  | symlink target₀ =>
      obtain ⟨target, hf, rfl⟩ := Option.map_eq_some_iff.mp hat
      obtain ⟨ha, hvalid⟩ := Option.filter_eq_some_iff.mp hf
      refine wp_ite (fun _ => ?_) fun hno => absurd rfl hno
      rw [wp_bind, wp_context, readLink_eq]
      refine wp_looking_again hi.quiet (toOption_eq_some.mp ha) ?_
      dsimp only
      rw [wp_bind, of_decide_eq_true hvalid, wp_ofExcept_ok]
      exact ⟨hi.looked, _, ⟨rfl, rfl⟩, rfl⟩
  | dir mode =>
      obtain ⟨metadata, ha, rfl⟩ := Option.map_eq_some_iff.mp hat
      refine wp_ite (fun hno => by cases hno) fun _ => ?_
      rw [wp_bind, wp_context, lstat_eq]
      refine wp_looking_again hi.quiet (toOption_eq_some.mp ha) ?_
      refine wp_ite (fun _ => ?_) fun hno => absurd rfl hno
      exact ⟨hi.looked, _, ⟨rfl, rfl⟩, rfl⟩
  | file content mode mtime =>
      obtain ⟨metadata, ha, rfl⟩ := Option.map_eq_some_iff.mp hat
      obtain ⟨e, he, hstill⟩ := hdescribed
      refine wp_ite (fun hno => by cases hno) fun _ => ?_
      rw [wp_bind, wp_context, lstat_eq]
      refine wp_looking_again hi.quiet (toOption_eq_some.mp ha) ?_
      refine wp_ite (fun hno => by cases hno) fun _ => ?_
      -- the file is not looked into
      have hknown : discoverFile (root ++ names) metadata manifest.entries[path]? unknown
          = pure ⟨e.size, e.modifiedAtNs, e.sha256, e.permissions⟩ := by
        simp only at he
        rw [discoverFile, he, Option.filter_some, hstill]
        rfl
      rw [wp_bind, hknown, wp_pure]
      exact ⟨hi.looked, _, ⟨rfl, e, he, rfl⟩, rfl⟩

/-- The next discovery only looks, and recalls every file. -/
theorem discoverEntries_recalled {entries : List (List Str × Node)}
    (ht : Toured h w.disk root entries) (hq : Quiet h w)
    (hdescribed : ∀ note ∈ entries.filterMap (glimpse h w.disk root),
      Described manifest unknown note) :
    (discoverEntries root manifest unknown).wp h w
      (fun found w' => Idle h w w' ∧ ∃ seen,
        List.Forall₂ (Recalled manifest) (entries.filterMap (glimpse h w.disk root)) seen
          ∧ found = .ofSeen seen)
      fun _ _ => False := by
  obtain ⟨node, hnode, hdir⟩ := ht.isDir
  have hstart : Idle h w w := ⟨rfl, rfl, hq⟩
  unfold discoverEntries
  rw [wp_bind, wp_context, stat_eq]
  refine wp_looking_again hq hnode ?_
  refine wp_ite (fun hno => by rw [hdir] at hno; cases hno) fun _ => ?_
  rw [wp_bind, wp_context, walkDir_eq]
  refine wp_looking_again hq.looked ht.walk ?_
  refine wp_conseq (wp_foldlM (I := fun done found w' => Idle h w w' ∧ ∃ seen,
      List.Forall₂ (Recalled manifest) (done.filterMap (glimpse h w.disk root)) seen
        ∧ found = DiscoveredEntries.ofSeen seen) entries [] _ _
    ⟨hstart.looked.looked, [], .nil, rfl⟩ ?_) fun found w' hI => by simpa using hI
  rintro pre x post found w₁ heq ⟨hi, seen, hseen, rfl⟩
  rw [List.nil_append] at heq
  by_cases hspecial : x.2 = .special
  · obtain ⟨names, node⟩ := x
    cases hspecial
    refine ⟨hi, seen, ?_, rfl⟩
    rw [List.filterMap_append, List.filterMap_cons_none (glimpse_special h w.disk root names),
      List.filterMap_nil, List.append_nil]
    exact hseen
  · obtain ⟨note, hg⟩ := ht.noted x (by rw [heq]; simp) hspecial
    have hmem : note ∈ entries.filterMap (glimpse h w.disk root) :=
      List.mem_filterMap.mpr ⟨x, by rw [heq]; simp, hg⟩
    have hcount : (DiscoveredEntries.ofSeen seen).count < MAX_MANIFEST_ENTRIES := by
      have hall := ht.count
      rw [heq, List.filterMap_append, List.filterMap_cons_some hg, List.length_append,
        List.length_cons, hseen.length_eq] at hall
      have := count_ofSeen_le seen
      omega
    rw [discoverEntry_eq hspecial]
    refine wp_conseq (recordEntry_recalled hi hcount hg (hdescribed note hmem)) ?_
    rintro found' w' ⟨hi', s, hs, rfl⟩
    refine ⟨hi', seen ++ [(note.1, s)], ?_, (ofSeen_concat seen (note.1, s)).symm⟩
    rw [List.filterMap_append, List.filterMap_cons_some hg, List.filterMap_nil]
    exact List.rel_append hseen (.cons hs .nil)

end Next

/-! ## The next scan -/

theorem permissionsMatch_comm (left right : Option U16) (unknown : Bool) :
    permissionsMatch left right unknown = permissionsMatch right left unknown := by
  unfold permissionsMatch
  rw [Bool.or_comm left.isNone, show (left == right) = (right == left) from Bool.beq_comm]

theorem permissionsMatch_unknown {left right : Option U16} {unknown : Bool}
    (h : permissionsMatch left right unknown = true) : permissionsMatch left right true = true := by
  cases unknown with
  | true => exact h
  | false =>
      have heq : left = right := by simpa [permissionsMatch] using h
      simp [permissionsMatch, heq]

section Twice

variable {h : Host} {root : PathBuf} {previous : Manifest} {unknown : Bool}
  {fresh : HlcTimestamp → Prop} {p : Str} {new : Option ManifestRecord}

theorem directory_recalled {d : DiscoveredDirectory}
    (hr : Rescans previous unknown fresh p (some (.directory d)) new) :
    ∃ e, new = some (.directory e) ∧ directoryMatches true e d = true := by
  simp only [Rescans] at hr
  cases hret : retained previous unknown p (.directory d) with
  | none =>
      rw [hret] at hr
      obtain ⟨v, -, rfl⟩ := hr
      exact ⟨_, rfl, by simp [directoryMatches, selectedPermissions, permissionsMatch]⟩
  | some r =>
      rw [hret] at hr
      cases retains hret with
      | directory _ hm => exact ⟨_, hr, permissionsMatch_unknown hm⟩

theorem symlink_recalled {l : DiscoveredSymlink}
    (hr : Rescans previous unknown fresh p (some (.symlink l)) new) :
    ∃ e, new = some (.symlink e) ∧ symlinkMatches e l = true := by
  simp only [Rescans] at hr
  cases hret : retained previous unknown p (.symlink l) with
  | none =>
      rw [hret] at hr
      obtain ⟨v, -, rfl⟩ := hr
      exact ⟨_, rfl, by simp [symlinkMatches]⟩
  | some r =>
      rw [hret] at hr
      cases retains hret with
      | symlink _ hm => exact ⟨_, hr, hm⟩

theorem Rescans.not_live {manifest : Manifest} (hr : Rescans previous unknown fresh p none new)
    (hnew : manifest.record p = new) : ¬ manifest.Live p := by
  rintro ⟨r, hrec, hlive⟩
  rw [hnew] at hrec
  rcases hr with ⟨-, v, -, rfl⟩ | ⟨hl, rfl⟩
  · cases hrec
    cases hlive
  · exact hl ⟨r, hrec, hlive⟩

variable [Crypto]

theorem FileReported.described {metadata : Node} {f : DiscoveredFile}
    (hf : FileReported previous.entries[p]? unknown metadata f)
    (hr : Rescans previous unknown fresh p (some (.file f)) new) :
    ∃ e, new = some (.file e) ∧ stillDescribes metadata true e = true := by
  -- whatever the file is reported as, it is reported with its size, its time and permissions
  -- that match its own
  have hmeta : f.size = metadata.len ∧ metadata.modified = f.modifiedAtNs
      ∧ permissionsMatch (permissionsFromMetadata metadata) f.permissions true = true := by
    rcases hf with ⟨old, -, hstill, rfl⟩ | ⟨content, rfl⟩
    · simp only [stillDescribes, Bool.and_eq_true, decide_eq_true_eq] at hstill
      exact ⟨hstill.1.1, hstill.1.2, permissionsMatch_unknown hstill.2⟩
    · exact ⟨rfl, rfl, by simp [permissionsMatch]⟩
  obtain ⟨hsize, htime, hpermissions⟩ := hmeta
  simp only [Rescans] at hr
  cases hret : retained previous unknown p (.file f) with
  | none =>
      rw [hret] at hr
      obtain ⟨v, -, rfl⟩ := hr
      refine ⟨_, rfl, ?_⟩
      simp only [stillDescribes, selectedPermissions, Bool.and_eq_true, decide_eq_true_eq]
      exact ⟨⟨hsize, htime⟩, hpermissions⟩
  | some r =>
      rw [hret] at hr
      subst hr
      obtain ⟨hold, hm⟩ := retains hret
      simp only [fileMatches, Bool.and_eq_true, decide_eq_true_eq] at hm
      refine ⟨_, rfl, ?_⟩
      simp only [stillDescribes, Bool.and_eq_true, decide_eq_true_eq]
      refine ⟨⟨hm.1.1.trans hsize, htime⟩, ?_⟩
      rcases hf with ⟨old', hknown, hstill, -⟩ | ⟨content, rfl⟩
      · rw [hold] at hknown
        cases hknown
        simp only [stillDescribes, Bool.and_eq_true] at hstill
        exact permissionsMatch_unknown hstill.2
      · rw [permissionsMatch_comm]
        exact permissionsMatch_unknown hm.2

/-- After a scan, its manifest describes every file that it noted, and what is recalled with
it matches it. -/
theorem recalled_same {manifest : Manifest} {note : Str × Glimpse} {s₁ : Seen}
    (hsep : manifest.Separated) (h₁ : Reported previous unknown note (note.1, s₁))
    (hr : Rescans previous unknown fresh note.1 (some s₁) (manifest.record note.1)) :
    Described manifest true note
      ∧ ∀ s₂, Recalled manifest note (note.1, s₂) → Unaltered manifest true note.1 (some s₂) := by
  obtain ⟨path, g⟩ := note
  obtain ⟨-, h₁⟩ := h₁
  cases g with
  | link target =>
      cases h₁
      obtain ⟨e, hrec, hm⟩ := symlink_recalled hr
      refine ⟨trivial, fun s₂ h₂ => ?_⟩
      cases h₂.2
      have hs : manifest.symlinks[path]? = some e := hsep.symlinks_iff.mp hrec
      exact ⟨.symlink e, by simp [retained, hs, hm], hrec⟩
  | dir metadata =>
      cases h₁
      obtain ⟨e, hrec, hm⟩ := directory_recalled hr
      refine ⟨trivial, fun s₂ h₂ => ?_⟩
      cases h₂.2
      have hd : manifest.directories[path]? = some e := hsep.directories_iff.mp hrec
      exact ⟨.directory e, by simp [retained, hd, hm], hrec⟩
  | file metadata =>
      obtain ⟨f, rfl, hf⟩ := h₁
      obtain ⟨e, hrec, hstill⟩ := hf.described hr
      have he : manifest.entries[path]? = some e := Manifest.record_file_iff.mp hrec
      refine ⟨⟨e, he, hstill⟩, fun s₂ h₂ => ?_⟩
      obtain ⟨e', he', hs₂⟩ := h₂.2
      simp only at he'
      rw [he] at he'
      cases he'
      cases hs₂
      exact ⟨.file e, by simp [retained, he, fileMatches, permissionsMatch], hrec⟩

variable {clock : ClockState} {endpointId : EndpointId} {nowMs nowMs' : U64} {w w₁ w₂ : World}
  {r : ScanResult}

/-- A scan that follows a scan of the same tree finds nothing to do: it takes the short way
out, has read no file, and returns what it was given. -/
theorem scan_twice (hprev : previous.Valid previous.shareId)
    (hscan : scanManifestCachedAfterValidation root previous clock endpointId nowMs h w = .ok r w₁)
    (hdisk : w₂.disk = w.disk) (hquiet : Quiet h w₂) :
    ∃ w₃, scanManifestCachedAfterValidation root r.manifest r.clock endpointId nowMs' h w₂
        = .ok ⟨r.manifest, r.clock, r.manifest.entries.size, r.manifest.tombstones.size, 0, false,
          false⟩ w₃
      ∧ (∃ discovered, discoverEntries root r.manifest true h w₂ = .ok discovered w₃
        ∧ matchesPrevious discovered r.manifest true = true)
      ∧ w₃.disk = w₂.disk ∧ w₃.log = w₂.log := by
  obtain ⟨hclock, discovered, hrun, hcompare⟩ := scan_ok hscan
  obtain ⟨-, entries, seen, htour, hreported, hnodup, rfl⟩ := wp_ok discoverEntries_reported hrun
  have hlook := sees_ofSeen hnodup
  have hre := (compareWithPrevious_ok hprev hlook hcompare).1
  have hpaths := map_fst_of_forall₂ (fun hr => hr.1) hreported
  rw [← hdisk] at htour hreported hpaths
  -- the records of the paths that were noted
  have hnote : ∀ note ∈ entries.filterMap (glimpse h w₂.disk root), ∃ s₁,
      Reported previous (unknownPermissionsMatch previous) note (note.1, s₁)
        ∧ seen.lookup note.1 = some s₁ := by
    intro note hmem
    obtain ⟨x, hx, hrep⟩ := exists_of_forall₂ hreported hmem
    obtain ⟨q, s₁⟩ := x
    cases hrep.1
    exact ⟨s₁, hrep, (lookup_eq_some hnodup).mpr hx⟩
  have hdescribed : ∀ note ∈ entries.filterMap (glimpse h w₂.disk root),
      Described r.manifest true note := by
    intro note hmem
    obtain ⟨s₁, hrep, hl⟩ := hnote note hmem
    have hrescans := hre.rescans note.1
    rw [hl] at hrescans
    exact (recalled_same hre.separated hrep hrescans).1
  obtain ⟨found, w₃, hrun₂, hidle, seen₂, hrecalled, rfl⟩ :=
    exists_ok_of_wp (discoverEntries_recalled htour hquiet hdescribed)
  have hpaths₂ := map_fst_of_forall₂ (fun hr => hr.1) hrecalled
  have hnodup₂ : (seen₂.map Prod.fst).Nodup := by
    rw [hpaths₂, ← hpaths]
    exact hnodup
  have hmatch : matchesPrevious (.ofSeen seen₂) r.manifest true = true := by
    refine (matchesPrevious_iff hre.separated (sees_ofSeen hnodup₂)).mpr ⟨hre.format, fun p => ?_⟩
    cases hl : seen₂.lookup p with
    | none =>
        have hp : p ∉ seen.map Prod.fst := by
          rw [hpaths, ← hpaths₂]
          intro hmem
          obtain ⟨x, hx, rfl⟩ := List.mem_map.mp hmem
          rw [(lookup_eq_some hnodup₂).mpr hx] at hl
          cases hl
        have hrescans := hre.rescans p
        rw [lookup_eq_none hp] at hrescans
        exact hrescans.not_live rfl
    | some s₂ =>
        have hx := (lookup_eq_some hnodup₂).mp hl
        obtain ⟨note, hmem, hrec⟩ := exists_of_forall₂ hrecalled.flip hx
        cases hrec.1
        obtain ⟨s₁, hrep, hl₁⟩ := hnote note hmem
        have hrescans := hre.rescans note.1
        rw [hl₁] at hrescans
        exact (recalled_same hre.separated hrep hrescans).2 s₂ hrec
  have hunknown : unknownPermissionsMatch r.manifest = true := by
    rw [unknownPermissionsMatch, hre.format]
    decide
  have hclock₂ : r.clock.validate = .ok () := by
    rw [ClockState.validate, rejectIf_eq_ok, hre.clockFormat]
    rwa [ClockState.validate, rejectIf_eq_ok] at hclock
  refine ⟨w₃, scan_of_ok hclock₂ (by rw [hunknown]; exact hrun₂) ?_, ⟨_, hrun₂, hmatch⟩, hidle.disk,
    hidle.log⟩
  rw [hunknown, compareWithPrevious, if_pos hmatch]

end Twice

/-- A tree with one file. -/
def oneFileDisk : Disk :=
  Disk.bare.put [] "a".toList (.file ⟨[1, 2, 3], by decide⟩ 0o600 9) (by decide +kernel)

/-- A file that a legacy manifest describes with another digest, time and mode. -/
theorem scan_twice_legacy :
    let _ := Crypto.plain
    let previous := { Manifest.oneFile 1 2 with formatVersion := LEGACY_MANIFEST_FORMAT_VERSION }
    previous.Valid ⟨List.replicate 32 0, rfl⟩
      ∧ ∃ r w₁ w₃, scanManifestCachedAfterValidation [] previous .new ⟨List.replicate 32 0, rfl⟩ 5 .quiet
          ⟨oneFileDisk, 0, []⟩ = .ok r w₁
        ∧ scanManifestCachedAfterValidation [] r.manifest r.clock ⟨List.replicate 32 0, rfl⟩ 4 .quiet
          ⟨oneFileDisk, 0, []⟩ = .ok ⟨r.manifest, r.clock, r.manifest.entries.size,
            r.manifest.tombstones.size, 0, false, false⟩ w₃
        ∧ w₃.log = [] := by
  intro _ previous
  have hvalid : previous.Valid ⟨List.replicate 32 0, rfl⟩ := by decide +kernel
  obtain ⟨r, w₁, hscan⟩ := Prog.failure_eq_none.mp (show (scanManifestCachedAfterValidation [] previous
    .new ⟨List.replicate 32 0, rfl⟩ 5).failure .quiet ⟨oneFileDisk, 0, []⟩ = none by decide +kernel)
  have hquiet : Quiet .quiet ⟨oneFileDisk, 0, []⟩ := fun _ _ => rfl
  obtain ⟨w₃, hagain, -, -, hlog⟩ := @scan_twice _ _ _ _ _ _ _ 4 _ _ _ _ hvalid hscan rfl hquiet
  exact ⟨hvalid, r, w₁, w₃, hscan, hagain, hlog⟩

end Syncbox

/-
# `Syncbox.Network.Run` — what applying does, step by step

The five loops of `applyTree` are one loop over a list that is known before they start,
the `plan`.  This file says once what each planned step does when it succeeds
(`Planned.Did`), what it can have done when it fails, and under which condition it does
not fail (`Planned.Good`).  A `Run` is a sequence of successful steps; `applyTree_spec`
says that `applyTree` runs its plan to the end, or up to a step that failed.

Everything that is said later about applying a manifest — about the candidate, the tree,
the staging directory or the log — is an induction over a `Run`.
-/
import Syncbox.Network.Apply
import Syncbox.Network.Install

namespace Syncbox

open Rust Unix Prog

/-- One step of `applyTree`. -/
inductive Planned where
  | delete (path : Str) (tombstone : Tombstone)
  | directory (path : Str) (entry : DirectoryEntry)
  | symlink (path : Str) (entry : SymlinkEntry)
  | file (path : Str) (entry : ManifestEntry) (incoming : Option IncomingFile)
  | mode (path : Str) (permissions : Option U16)

namespace Planned

def path : Planned → Str
  | delete p _ => p
  | directory p _ => p
  | symlink p _ => p
  | file p _ _ => p
  | mode p _ => p

/-- The step creates the parents of its path. -/
def creates : Planned → Bool
  | directory .. | symlink .. | file _ _ (some _) => true
  | _ => false

/-- The part of the staging directory that the step uses. -/
def staging (h : Host) (tmp : Loc) : Planned → Set Loc
  | symlink .. => linkTemps h tmp
  | file _ _ (some (.bytes _)) => fileTemps h tmp
  | file _ _ (some (.staged x)) => {x}
  | _ => ∅

end Planned

def plan (local_ remote : Manifest) (fileData : BTreeMap Str IncomingFile) : List Planned :=
  (deletions local_ remote).map (fun x => .delete x.1 x.2)
    ++ (winners local_ remote.directories .directory).map (fun x => .directory x.1 x.2)
    ++ (winners local_ remote.symlinks .symlink).map (fun x => .symlink x.1 x.2)
    ++ (winners local_ remote.entries .file).map (fun x => .file x.1 x.2 fileData[x.1]?)
    ++ (directoryPermissions local_ remote).map fun x => .mode x.1 x.2

section Execute

variable [Crypto] (tmp root : PathBuf) (local_ : Manifest)

def execute (s : Applying) : Planned → Fs Applying
  | .delete p t => applyDeletion root s (p, t)
  | .directory p e => applyDirectory root s (p, e)
  | .symlink p e => applySymlink tmp root s (p, e)
  | .file p e incoming => applyFile tmp root local_ incoming s (p, e)
  | .mode p permissions => applyMode root s (p, permissions)

def Applying.start : Applying := ⟨local_, false, 0, 0⟩

theorem applyTree_eq (remote : Manifest) (fileData : BTreeMap Str IncomingFile) :
    applyTree tmp root local_ remote fileData
      = (plan local_ remote fileData).foldlM (execute tmp root local_) (.start local_) := by
  simp only [plan, List.foldlM_append, List.foldlM_map, bind_assoc]
  rfl

end Execute

/-- What the loops carry after a step; the flag says whether the record was applied. -/
def Applying.after (s : Applying) : Planned × Bool → Applying
  | (.delete p t, _) => s.record fun m => { m with
      entries := m.entries.erase p
      directories := m.directories.erase p
      symlinks := m.symlinks.erase p
      tombstones := m.tombstones.insert p t }
  | (.directory p e, _) => s.record fun m => { m with
      entries := m.entries.erase p
      symlinks := m.symlinks.erase p
      tombstones := m.tombstones.erase p
      directories := m.directories.insert p e }
  | (.symlink p e, _) => s.record fun m => { m with
      entries := m.entries.erase p
      directories := m.directories.erase p
      tombstones := m.tombstones.erase p
      symlinks := m.symlinks.insert p e }
  | (.file p e (some _), _) => s.record fun m => { m with
      directories := m.directories.erase p
      tombstones := m.tombstones.erase p
      symlinks := m.symlinks.erase p
      entries := (m.entries.erase p).insert p e }
  | (.file p e none, true) => s.record fun m => { m with
      directories := m.directories.erase p
      tombstones := m.tombstones.erase p
      entries := m.entries.insert p e }
  | (.file _ _ none, false) => { s with pendingDownloads := s.pendingDownloads + 1 }
  | (.mode .., _) => s

/-! ## One step -/

section Step

variable [Crypto] (h : Host) (tmp root : Loc) (local_ : Manifest)

/-- Where steps run: the root is a directory and the staging directory is apart from it. -/
structure Tidy (d : Disk) : Prop where
  dir : d.IsDir root
  staging : Staging root tmp d

namespace Planned

/-- A successful step from `w` to `w'`. -/
def Did (w : World) : Planned × Bool → World → Prop
  | (.delete p _, b), w' => b = true ∧ Finished false root p ∅ w w'
      ∧ (target root p ∉ chain root p → Removed (target root p) w.disk w'.disk)
  | (.directory p _, b), w' => b = true ∧ Finished true root p ∅ w w'
      ∧ (target root p ∉ chain root p → DirectoryEnsured h (target root p) w.disk w'.disk)
  | (.symlink p e, b), w' => b = true ∧ Finished true root p (linkTemps h tmp) w w'
      ∧ target root p ∉ chain root p ∧ w'.disk.get (target root p) = some (.symlink e.target)
      ∧ (Replaceable h w.disk root p ∧ StagingOpen h w.disk tmp ∧ Unused w.disk (linkTemps h tmp) →
        Unused w'.disk (linkTemps h tmp))
  | (.file p e (some (.bytes data)), b), w' => b = true
      ∧ Finished true root p (fileTemps h tmp) w w' ∧ target root p ∉ chain root p
      ∧ NoLinks w'.disk (fileTemps h tmp)
      ∧ ∃ c m t, c.val = data ∧ w'.disk.get (target root p) = some (.file c m t)
        ∧ ∀ mode, e.permissions = some mode → m = mode.setWidth 12
  | (.file p e (some (.staged x)), b), w' => b = true ∧ Finished true root p {x} w w'
      ∧ StagedInstalled root p x e.permissions w.disk w'.disk
  | (.file p e none, b), w' =>
      (localContentMatches local_ p e = false ∧ b = false ∧ w' = w)
      ∨ (localContentMatches local_ p e = true ∧ Finished false root p ∅ w w'
        ∧ (b = true ↔ HasContent w.disk (target root p) e.size e.sha256)
        ∧ (b = true → target root p ∉ chain root p
          ∧ ModeSet false e.permissions (target root p) w.disk w'.disk)
        ∧ (b = false → target root p ∉ chain root p →
          w'.disk.get (target root p) = w.disk.get (target root p)))
  | (.mode p permissions, _), w' => Effect root p ∅ w w' ∧ Steady root p w w'
      ∧ (target root p ∉ chain root p → ModeSet true permissions (target root p) w.disk w'.disk)

/-- A step that is `Good` does not fail. -/
def Good (d : Disk) : Planned → Prop
  | .delete p _ => Clean h d root p
      ∧ (d.IsDir (target root p) → ∀ child, d.get (target root p ++ [child]) = none)
  | .directory p _ => Clean h d root p ∧ d.get (target root p) ≠ some .special
  | .symlink p e => Replaceable h d root p ∧ StagingOpen h d tmp ∧ Unused d (linkTemps h tmp)
      ∧ ¬ (e.target = [] ∨ utf8Len e.target > 4096 ∨ '\x00' ∈ e.target)
  | .file _ _ (some (.bytes _)) => False
  | .file p _ (some (.staged x)) =>
      Replaceable h d root p ∧ StagingOpen h d tmp ∧ Installable h d x
  | .file p _ none => Clean h d root p ∧ ¬ d.IsLink (target root p)
  | .mode p _ => Clean h d root p ∧ d.IsDir (target root p)

/-- The data of a step is where data is delivered. -/
def Delivered : Planned → Prop
  | .file _ _ (some (.staged x)) => ∃ name, isFileName name = true ∧ x = tmp ++ [name]
  | _ => True

def usesBytes : Planned → Bool
  | .file _ _ (some (.bytes _)) => true
  | _ => false

/-- What a step that failed can have done, and why it failed. -/
def Failed (op : Planned) (w w' : World) : Prop :=
  Effect root op.path (op.staging h tmp) w w' ∧ ¬ op.Good h tmp root w.disk

end Planned

end Step

section StepSpec

variable [Crypto] {h : Host} {tmp root : Loc} {local_ : Manifest} {w w' : World} {s : Applying}

/-- After the contents of a file were found unchanged, its mode is set. -/
theorem adoptFile_spec (tmp : Loc) {p : Str} {e : ManifestEntry} (hroot : w.disk.IsDir root) :
    (adoptFile root local_ p e).wp h w
      (fun b w' => Planned.Did h tmp root local_ w (.file p e none, b) w')
      (fun _ w' => Planned.Failed h tmp root (.file p e none) w w') := by
  unfold adoptFile
  refine wp_ite (fun hm => ?_) fun hm => .inl ⟨by simpa using hm, rfl, rfl⟩
  refine wp_seq (localFileMatchesEntry_spec hroot) ?_ fun _ _ hf => hf
  rintro b w₁ ⟨hfin, hkeep, htarget, hb⟩
  cases b with
  | false =>
      refine wp_ite (fun hc => by cases hc) fun _ => ?_
      exact .inr ⟨hm, hfin, hb, by simp, fun _ => hkeep⟩
  | true =>
      have ht := htarget rfl
      obtain ⟨c, m, t, hget, hsize, hsha⟩ := hb.mp rfl
      refine wp_ite (fun _ => ?_) fun hc => absurd rfl hc
      have hroot₁ : w₁.disk.IsDir root :=
        hfin.effect.dir root_mem_chain (Ne.symm (target_ne_root hfin.accepted)) hroot
      refine wp_seq (setLocalPermissions_spec hroot₁) ?_ ?_
      · rintro _ w₂ ⟨heff, hst, hmode⟩
        refine .inr ⟨hm, ⟨hfin.effect.trans heff, ?_, hfin.accepted⟩, hb,
          fun _ => ⟨ht, ?_⟩, by simp⟩
        · intro c hc hne
          rw [Disk.IsDir, hst c hc hne]
          exact hfin.parents c hc hne
        · have := hmode ht
          cases hp : e.permissions with
          | none =>
              rw [hp] at this
              exact this.trans (hkeep ht)
          | some mode =>
              rw [hp] at this
              obtain ⟨node, hnode, hkind, hset⟩ := this
              exact ⟨node, by rw [← hkeep ht, hnode], hkind, hset⟩
      · rintro _ w₂ ⟨heff, hno⟩
        refine ⟨hfin.effect.trans heff, ?_⟩
        rintro ⟨hclean, -⟩
        refine hno ⟨⟨hclean.accepted, hclean.canonical, ⟨hclean.reach.noFault, fun hi hne => ?_⟩,
          fun {c} hc => ?_⟩, _, by rw [hkeep ht, hget], rfl⟩
        · rw [hfin.effect.changes.frame]
          · exact hclean.reach.search hi hne
          · rintro ((hin | hin) | hin)
            · exact notMem_above_of_proper hi hne hin
            · rw [Set.mem_singleton_iff.mp hin] at hi
              have := hi.length_le
              obtain ⟨first, rest, hs, hn⟩ := hclean.accepted.head_isName
              simp [target, hs, names_cons_name hn] at this
            · exact hin
        · rw [Disk.IsDir, hfin.parents.steady c hc (by rintro rfl; exact ht hc)]
          exact hclean.parents hc

theorem execute_spec {op : Planned} (ht : Tidy tmp root w.disk) (hd : op.Delivered tmp)
    (hb : op.usesBytes = true → NoLinks w.disk (fileTemps h tmp)) :
    (execute tmp root local_ s op).wp h w
      (fun s' w' => ∃ b, Planned.Did h tmp root local_ w (op, b) w' ∧ s' = s.after (op, b))
      (fun _ w' => op.Failed h tmp root w w') := by
  cases op with
  | delete p t =>
      show Prog.wp (removeLocalPath root p >>= _) _ _ _ _
      exact wp_seq (removeLocalPath_spec ht.dir)
        (fun _ w₁ ⟨hf, hr⟩ => ⟨true, ⟨rfl, hf, hr⟩, rfl⟩) fun _ _ hf => hf
  | directory p e =>
      show Prog.wp (ensureLocalDirectory root p >>= _) _ _ _ _
      exact wp_seq (ensureLocalDirectory_spec ht.dir)
        (fun _ w₁ ⟨hf, hr⟩ => ⟨true, ⟨rfl, hf, hr⟩, rfl⟩) fun _ _ hf => hf
  | symlink p e =>
      show Prog.wp (writeLocalSymlink tmp root p e.target >>= _) _ _ _ _
      exact wp_seq (writeLocalSymlink_spec ht.staging ht.dir)
        (fun _ w₁ ⟨hf, hr⟩ => ⟨true, ⟨rfl, hf, hr⟩, rfl⟩) fun _ _ hf => hf
  | file p e incoming =>
      cases incoming with
      | none =>
          show Prog.wp (adoptFile root local_ p e >>= _) _ _ _ _
          refine wp_seq (adoptFile_spec tmp ht.dir) ?_ fun _ _ hf => hf
          intro b w₁ hdid
          cases b <;> exact ⟨_, hdid, rfl⟩
      | some incoming =>
          cases incoming with
          | bytes data =>
              show Prog.wp (writeLocalFile tmp root p data e.permissions >>= _) _ _ _ _
              exact wp_seq (writeLocalFile_spec ht.staging ht.dir (hb rfl))
                (fun _ w₁ ⟨hf, hr⟩ => ⟨true, ⟨rfl, hf, hr⟩, rfl⟩) fun _ _ hf => ⟨hf, not_false⟩
          | staged x =>
              obtain ⟨name, hn, rfl⟩ := hd
              show Prog.wp (writeLocalStagedFile root p (tmp ++ [name]) e.permissions >>= _) _ _ _ _
              exact wp_seq (writeLocalStagedFile_spec ht.staging hn ht.dir)
                (fun _ w₁ ⟨hf, hr⟩ => ⟨true, ⟨rfl, hf, hr⟩, rfl⟩) fun _ _ hf => hf
  | mode p permissions =>
      show Prog.wp (setLocalPermissions true root p permissions >>= _) _ _ _ _
      refine wp_seq (setLocalPermissions_spec ht.dir)
        (fun _ w₁ hr => ⟨true, hr, rfl⟩) ?_
      rintro _ w₁ ⟨heff, hno⟩
      refine ⟨heff, ?_⟩
      rintro ⟨hclean, m, hm⟩
      exact hno ⟨hclean, _, hm, rfl⟩

end StepSpec

/-! ## Where a step reaches -/

section Reaches

variable {h : Host} {tmp root : Loc} {local_ : Manifest} {w w' : World} {x : Planned × Bool}

theorem Planned.staging_subset {op : Planned} (hd : op.Delivered tmp) :
    op.staging h tmp ⊆ inTmp tmp := by
  cases op with
  | symlink p e => exact tempNames_subset
  | file p e incoming =>
      rcases incoming with _ | (data | y)
      · exact Set.empty_subset _
      · exact tempNames_subset
      · obtain ⟨name, -, rfl⟩ := hd
        exact Set.singleton_subset_iff.mpr ⟨name, rfl⟩
  | _ => exact Set.empty_subset _

/-- Names of temporary files and of temporary links differ in their first letter. -/
theorem disjoint_temps {loc : Loc} (hf : loc ∈ fileTemps h tmp) : loc ∉ linkTemps h tmp := by
  rintro ⟨r, hr⟩
  obtain ⟨r', rfl⟩ := hf
  have hname := List.head_eq_of_cons_eq (List.append_cancel_left hr)
  have hhead := congrArg List.head? hname
  simp [temporaryName] at hhead

/-- What a step needs of its path and of the data delivered for it. -/
structure Planned.Sound (tmp : Loc) (op : Planned) : Prop where
  accepted : Accepted op.path
  delivered : op.Delivered tmp

theorem Tidy.of_effect {op : Planned} (ht : Tidy tmp root w.disk) (hop : op.Sound tmp)
    (heff : Effect root op.path (op.staging h tmp) w w') : Tidy tmp root w'.disk where
  dir := heff.dir root_mem_chain (Ne.symm (target_ne_root hop.accepted)) ht.dir
  staging := ht.staging.of_effect (Planned.staging_subset hop.delivered) heff

variable [Crypto]

theorem Planned.Did.effect (hd : Planned.Did h tmp root local_ w x w') :
    Effect root x.1.path (x.1.staging h tmp) w w' := by
  obtain ⟨op, b⟩ := x
  cases op with
  | mode p permissions => exact hd.1
  | file p e incoming =>
      rcases incoming with _ | (data | y)
      · rcases hd with ⟨-, -, rfl⟩ | ⟨-, hf, -⟩
        · exact .refl
        · exact hf.effect
      · exact hd.2.1.effect
      · exact hd.2.1.effect
  | _ => exact hd.2.1.effect

/-- The parents stay as they are, except those that are created. -/
theorem Planned.Did.parents (hd : Planned.Did h tmp root local_ w x w') {c : Loc}
    (hc : c ∈ chain root x.1.path) (hne : c ≠ target root x.1.path) :
    w'.disk.get c = w.disk.get c
      ∨ (w.disk.get c = none ∧ x.1.creates = true ∧ w'.disk.IsDir c) := by
  have hkept : ∀ {create : Bool} {p : Str} {X : Set Loc}, Finished create root p X w w' →
      c ∈ chain root p → c ≠ target root p → w'.disk.get c = w.disk.get c
        ∨ (w.disk.get c = none ∧ create = true ∧ w'.disk.IsDir c) := by
    intro create p X hf hc hne
    rcases hf.parents c hc hne with ⟨m, h, h'⟩ | h | ⟨h, -, h'⟩
    · exact .inl (h'.trans h.symm)
    · exact .inr h
    · exact .inl (h'.trans h.symm)
  obtain ⟨op, b⟩ := x
  cases op with
  | mode p permissions => exact .inl (hd.2.1 c hc hne)
  | file p e incoming =>
      rcases incoming with _ | (data | y)
      · rcases hd with ⟨-, -, rfl⟩ | ⟨-, hf, -⟩
        · exact .inl rfl
        · exact hkept hf hc hne
      · exact hkept hd.2.1 hc hne
      · exact hkept hd.2.1 hc hne
  | _ => exact hkept hd.2.1 hc hne

theorem Planned.Did.noLinks (hd : Planned.Did h tmp root local_ w x w') (hop : x.1.Sound tmp)
    (ht : Tidy tmp root w.disk) (hl : NoLinks w.disk (fileTemps h tmp)) :
    NoLinks w'.disk (fileTemps h tmp) := by
  intro loc hloc
  have hout := notMem_chain_of_apart (p := x.1.path) (ht.staging.apart tempNames_subset) hloc
  -- outside the staging names of the step nothing in the staging directory changes
  have hframe : loc ∉ x.1.staging h tmp → ¬ w'.disk.IsLink loc := by
    intro hno
    rw [Disk.IsLink, hd.effect.changes.frame]
    · exact hl loc hloc
    · rintro ((hin | hin) | hin)
      · exact hout.1 hin
      · exact hout.2 hin
      · exact hno hin
  obtain ⟨op, b⟩ := x
  cases op with
  | symlink p e => exact hframe (disjoint_temps hloc)
  | file p e incoming =>
      rcases incoming with _ | (data | y)
      · exact hframe id
      · exact hd.2.2.2.1 loc hloc
      · by_cases hy : loc = y
        · rintro ⟨t, hlink⟩
          rw [hy, hd.2.2.2.1] at hlink
          cases hlink
        · exact hframe hy
  | _ => exact hframe id

end Reaches

/-! ## Runs -/

section Runs

variable (h : Host) (tmp root : Loc) (local_ : Manifest)

/-- What the loops carry after a run. -/
def Applying.afterAll (l : List (Planned × Bool)) : Applying :=
  l.foldl Applying.after (.start local_)

@[simp] theorem Applying.afterAll_snoc (l : List (Planned × Bool)) (x : Planned × Bool) :
    Applying.afterAll local_ (l ++ [x]) = (Applying.afterAll local_ l).after x := by
  simp [Applying.afterAll]

variable [Crypto]

/-- A sequence of successful steps from `w₀`. -/
inductive Run (w₀ : World) : List (Planned × Bool) → World → Prop
  | nil : Run w₀ [] w₀
  | snoc {l : List (Planned × Bool)} {w : World} {x : Planned × Bool} {w' : World}
      (run : Run w₀ l w) (did : Planned.Did h tmp root local_ w x w') : Run w₀ (l ++ [x]) w'

/-- What holds of the tree before, during and after a run. -/
structure RunReady (bytes : Prop) (d : Disk) : Prop where
  tidy : Tidy tmp root d
  noLinks : bytes → NoLinks d (fileTemps h tmp)

/-- A run that stopped at a step that failed. -/
def Stopped (ops : List Planned) (w w' : World) : Prop :=
  ∃ l op post w₁, ops = l.map Prod.fst ++ op :: post ∧ Run h tmp root local_ w l w₁
    ∧ op.Failed h tmp root w₁ w'

end Runs

section RunSpec

variable [Crypto] {h : Host} {tmp root : Loc} {local_ : Manifest} {w w' : World}
  {l : List (Planned × Bool)} {bytes : Prop}

theorem Run.ready (hr : Run h tmp root local_ w l w') (hsound : ∀ x ∈ l, x.1.Sound tmp)
    (hw : RunReady h tmp root bytes w.disk) : RunReady h tmp root bytes w'.disk := by
  induction hr with
  | nil => exact hw
  | snoc run did ih =>
      have h₁ := ih fun x hx => hsound x (List.mem_append_left _ hx)
      have hx := hsound _ (List.mem_append_right _ (List.mem_singleton_self _))
      exact ⟨h₁.tidy.of_effect hx did.effect, fun hb => did.noLinks hx h₁.tidy (h₁.noLinks hb)⟩

theorem execute_all_spec {ops : List Planned} (hsound : ∀ op ∈ ops, op.Sound tmp)
    (hbytes : ∀ op ∈ ops, op.usesBytes = true → bytes) (hw : RunReady h tmp root bytes w.disk) :
    ∀ {todo : List Planned} {l : List (Planned × Bool)} {w₁ : World},
      ops = l.map Prod.fst ++ todo → Run h tmp root local_ w l w₁ →
      (todo.foldlM (execute tmp root local_) (Applying.afterAll local_ l)).wp h w₁
        (fun s w' => ∃ l, l.map Prod.fst = ops ∧ Run h tmp root local_ w l w'
          ∧ s = Applying.afterAll local_ l)
        (fun _ w' => Stopped h tmp root local_ ops w w') := by
  intro todo
  induction todo with
  | nil =>
      intro l w₁ hops hrun
      exact ⟨l, by simp [hops], hrun, rfl⟩
  | cons op todo ih =>
      intro l w₁ hops hrun
      have hop : op ∈ ops := by simp [hops]
      have hmem : ∀ x ∈ l, x.1 ∈ ops := fun x hx => by
        rw [hops]
        exact List.mem_append_left _ (List.mem_map_of_mem hx)
      have hready := hrun.ready (fun x hx => hsound _ (hmem x hx)) hw
      rw [List.foldlM_cons, wp_bind]
      refine wp_mono (execute_spec hready.tidy (hsound op hop).delivered
        fun hb => hready.noLinks (hbytes op hop hb)) ?_ ?_
      · rintro _ w₂ ⟨b, hdid, rfl⟩
        have := ih (l := l ++ [(op, b)]) (by simp [hops]) (hrun.snoc hdid)
        rwa [Applying.afterAll_snoc] at this
      · exact fun _ w₂ hf => ⟨l, op, todo, w₁, hops, hrun, hf⟩

/-- `applyTree` runs its plan to the end, or up to a step that fails. -/
theorem applyTree_spec {remote : Manifest} {fileData : BTreeMap Str IncomingFile}
    (hsound : ∀ op ∈ plan local_ remote fileData, op.Sound tmp)
    (hbytes : ∀ op ∈ plan local_ remote fileData, op.usesBytes = true → bytes)
    (hw : RunReady h tmp root bytes w.disk) :
    (applyTree tmp root local_ remote fileData).wp h w
      (fun s w' => ∃ l, l.map Prod.fst = plan local_ remote fileData
        ∧ Run h tmp root local_ w l w' ∧ s = Applying.afterAll local_ l)
      (fun _ w' => Stopped h tmp root local_ (plan local_ remote fileData) w w') := by
  rw [applyTree_eq]
  exact execute_all_spec hsound hbytes hw rfl .nil

end RunSpec

end Syncbox

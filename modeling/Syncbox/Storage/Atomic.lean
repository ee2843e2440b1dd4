/-
# `Syncbox.Storage.Atomic` — state files

`src/storage/atomic.rs`, the Unix side.  A state file is read whole, within a limit, and
written beside itself: into a new file, which is flushed and then renamed over the old one.
The file therefore holds, whatever fails and whenever, what it held or all of what was to be
written (`atomicWriteJson_spec`).  A write that succeeded can be read again exactly when it
is within the limit of the reader (`readBounded_spec`).

`serde_json` is taken from outside.
-/
import Syncbox.Fs
import Syncbox.Lib.Unix.Calm
import Syncbox.Lib.Unix.Look

namespace Syncbox.Storage

open Rust Unix Prog

/-! ## The program -/

/-- `serde_json` for a type. -/
class Serde (α : Type) where
  /-- `serde_json::to_writer`. -/
  toWriter : α → List Byte
  /-- `serde_json::from_slice`. -/
  fromSlice : List Byte → Option α

/-- What a state file of a value holds. -/
def stateBytes {α : Type} [Serde α] (value : α) : List Byte := Serde.toWriter value ++ [10]

/-- The values of a countable type have encodings of any weights, the weight of one of them
chosen. -/
theorem exists_serde {α : Type} [Countable α] (weight : α → Nat) (one : α) {n : Nat}
    (hn : weight one ≤ n) : ∃ _ : Serde α, (∀ a : α, Serde.fromSlice (stateBytes a) = some a)
      ∧ (∀ a : α, weight a ≤ (Serde.toWriter a).length) ∧ (Serde.toWriter one).length = n := by
  classical
  obtain ⟨f, hf⟩ := exists_injective_nat α
  let number : α → Nat := fun a => if a = one then n else n + 1 + Nat.pair (f a) (weight a)
  have hinj : Function.Injective number := by
    intro a b heq
    simp only [number] at heq
    split at heq <;> split at heq
    · exact (‹a = one›).trans (‹b = one›).symm
    · omega
    · omega
    · have hpair : Nat.pair (f a) (weight a) = Nat.pair (f b) (weight b) := by omega
      exact hf (Nat.pair_eq_pair.mp hpair).1
  let serde : Serde α :=
    { toWriter := fun a => List.replicate (number a) 0
      fromSlice := fun bytes => if h : ∃ a, number a + 1 = bytes.length then some h.choose else none }
  have hlen : ∀ a : α, (Serde.toWriter a).length = number a := fun a => List.length_replicate
  refine ⟨serde, fun a => ?_, fun a => ?_, (hlen one).trans (if_pos rfl)⟩
  · have hbytes : number a + 1 = (stateBytes a).length := by
      rw [stateBytes, List.length_append, hlen, List.length_singleton]
    have hex : ∃ b, number b + 1 = (stateBytes a).length := ⟨a, hbytes⟩
    show dite _ _ _ = _
    rw [dif_pos hex, Option.some.injEq]
    exact hinj (Nat.succ_injective (hex.choose_spec.trans hbytes.symm))
  · rw [hlen]
    simp only [number]
    split
    · exact ‹a = one› ▸ hn
    · have := Nat.right_le_pair (f a) (weight a)
      omega

def setDirPermissions (path : PathBuf) : Fs Unit :=
  context ("unable to set permissions on " ++ display path) (chmod path 0o700)

def createSecureDir (path : PathBuf) : Fs Unit := do
  context ("unable to create data directory " ++ display path) (createDirAll path)
  setDirPermissions path

def readBounded (path : PathBuf) (maxBytes : Nat) : Fs Content := do
  let metadata ← context ("unable to inspect " ++ display path) (stat path)
  if metadata.isFile = false then throw (.bail (display path ++ " is not a regular file"))
  else if metadata.len.val > maxBytes then
    throw (.bail (display path ++ " exceeds the maximum supported size of " ++ toString maxBytes
      ++ " bytes"))
  else do
    let file ← context ("unable to open " ++ display path) (openRead path)
    let data ← context ("unable to read " ++ display path) (readAll file)
    if data.len.val > maxBytes then
      throw (.bail (display path ++ " grew beyond its maximum supported size"))
    else pure data

def readJson {α : Type} [Serde α] (path : PathBuf) (maxBytes : Nat) : Fs α := do
  let bytes ← readBounded path maxBytes
  match Serde.fromSlice bytes.val with
  | some value => pure value
  | none => throw (.bail ("unable to parse " ++ display path))

def setFilePermissions (file : Loc) : Fs Unit :=
  context "unable to set persistent state file permissions" (fchmod file 0o600)

def syncParentDirectory (parent : PathBuf) : Fs Unit := do
  let _ ← context ("unable to open state directory " ++ display parent) (openRead parent)
  context ("unable to flush state directory " ++ display parent) syncAll

/-- `".{file}.{pid}.{suffix}.tmp"`. -/
def stateTemporaryName (file : Str) (pid suffix : Nat) : Str :=
  ".".toList ++ file ++ ".".toList ++ (Nat.repr pid).toList ++ ".".toList
    ++ (Nat.repr suffix).toList ++ ".tmp".toList

/-- The name of the temporary file for a state file. -/
def stateTemporary (parent : PathBuf) (file : Str) : Fs PathBuf := do
  let suffix ← random
  let host ← read
  pure (parent ++ [stateTemporaryName file host.pid suffix.val])

/-- The new file, written and flushed. -/
def stageState (temporary : PathBuf) (write : Loc → Fs Unit) : Fs Unit := do
  let file ← context ("unable to create temporary state file " ++ display temporary)
    (openReadWrite temporary true)
  setFilePermissions file
  within ("unable to write temporary state file " ++ display temporary) (write file)
  context ("unable to flush temporary state file " ++ display temporary) syncAll

/-- The new file, put in the place of the old one. -/
def replaceState (temporary path : PathBuf) (write : Loc → Fs Unit) : Fs Unit := do
  stageState temporary write
  context ("unable to atomically replace persistent state " ++ display path)
    (rename temporary path)
  syncParentDirectory path.dropLast

def atomicWriteWith (path : PathBuf) (write : Loc → Fs Unit) : Fs Unit :=
  match path.getLast? with
  | none => throw (.bail "persistent state path has no parent")
  | some file => do
      createSecureDir path.dropLast
      let temporary ← stateTemporary path.dropLast file
      orRemove temporary (replaceState temporary path write)

/-- The buffer is flushed by one write. -/
def writeState {α : Type} [Serde α] (value : α) (file : Loc) : Fs Unit :=
  context "unable to flush persistent state buffer" (writeAt file 0 (stateBytes value))

def atomicWriteJson {α : Type} [Serde α] (path : PathBuf) (value : α) : Fs Unit :=
  atomicWriteWith path (writeState value)

/-! ## Directories of state files -/

/-- A location whose parents are directories or missing, and that spells itself. -/
structure Plain (d : Disk) (loc : Loc) : Prop where
  named : Named loc
  noLink : ∀ {init}, init <+: loc → ¬ d.IsLink init

namespace Plain

variable {d : Disk} {loc : Loc}

theorem direct (hp : Plain d loc) : Direct d loc where
  noDotDot := fun hm => (hp.named _ hm).2 rfl
  noLink := by
    intro init hi _
    rw [Named.names fun part hpart => hp.named part (hi.subset hpart)]
    exact hp.noLink hi

theorem here (hp : Plain d loc) : ¬ d.IsLink (names loc) := by
  rw [hp.named.names]
  exact hp.noLink List.prefix_rfl

theorem of_prefix {above : Loc} (hp : Plain d loc) (ha : above <+: loc) : Plain d above where
  named := fun part hpart => hp.named part (ha.subset hpart)
  noLink hi := hp.noLink (hi.trans ha)

theorem named_child {name : Str} (hp : Plain d loc) (hn : isFileName name = true) :
    Named (loc ++ [name]) := by
  intro part hpart
  rcases List.mem_append.mp hpart with hpart | hpart
  · exact hp.named part hpart
  · rw [List.mem_singleton.mp hpart]
    refine ⟨Disk.isName_of_isFileName hn, ?_⟩
    rintro rfl
    cases hn

theorem direct_child {name : Str} (hp : Plain d loc) (hn : isFileName name = true) :
    Direct d (loc ++ [name]) where
  noDotDot := fun hm => (hp.named_child hn _ hm).2 rfl
  noLink := by
    intro init hi hne
    rcases List.prefix_concat_iff.mp hi with rfl | hi
    · exact absurd rfl hne
    · rw [(hp.of_prefix hi).named.names]
      exact hp.noLink hi

theorem congr {d' : Disk} (hp : Plain d loc) (heq : ∀ {init}, init <+: loc → d'.get init = d.get init) :
    Plain d' loc := by
  refine ⟨hp.named, fun hi => ?_⟩
  rintro ⟨target, ht⟩
  exact hp.noLink hi ⟨target, heq hi ▸ ht⟩

end Plain

theorem prefix_ne_child {init dir : Loc} {name : Str} (hi : init <+: dir) : init ≠ dir ++ [name] := by
  rintro rfl
  have := hi.length_le
  simp at this

/-- The mode of a directory that was made, before or after it was secured. -/
def FreshMode (h : Host) (mode : Mode) : Prop := mode = 0o777 &&& ~~~h.umask ∨ mode = 0o700

/-- The directory `dir` was made, with the directories above it, or its mode was changed. -/
def Secured (h : Host) (dir : Loc) (d d' : Disk) : Prop :=
  ∀ l, d'.get l = d.get l ∨ l <+: dir ∧ (d.get l = none ∨ l = dir ∧ d.IsDir l)
    ∧ ∃ mode, d'.get l = some (.dir mode) ∧ FreshMode h mode

namespace Secured

variable {h : Host} {dir : Loc} {d d' d'' : Disk}

theorem of_eq (heq : d' = d) : Secured h dir d d' := fun _ => .inl (heq ▸ rfl)

theorem trans (h₁ : Secured h dir d d') (h₂ : Secured h dir d' d'') : Secured h dir d d'' := by
  intro l
  rcases h₁ l with heq | ⟨hp, hold, mode, hmode, hfresh⟩
  · rcases h₂ l with heq' | ⟨hp, hold, hnew⟩
    · exact .inl (heq'.trans heq)
    · refine .inr ⟨hp, ?_, hnew⟩
      rcases hold with hnone | ⟨hl, m, hm⟩
      · exact .inl (heq ▸ hnone)
      · exact .inr ⟨hl, m, heq ▸ hm⟩
  · refine .inr ⟨hp, hold, ?_⟩
    rcases h₂ l with heq' | ⟨-, -, hnew⟩
    · exact ⟨mode, heq'.trans hmode, hfresh⟩
    · exact hnew

theorem of_grown (hg : Grown ∅ dir (0o777 &&& ~~~h.umask) d d') : Secured h dir d d' := by
  intro l
  rcases hg (Set.notMem_empty l) with heq | ⟨hp, hnone, hdir⟩
  · exact .inl heq
  · exact .inr ⟨hp, .inl hnone, _, hdir, .inl rfl⟩

theorem below {l : Loc} (hs : Secured h dir d d') (hl : ¬ l <+: dir) : d'.get l = d.get l := by
  rcases hs l with heq | ⟨hp, -⟩
  · exact heq
  · exact absurd hp hl

theorem notLink {l : Loc} (hs : Secured h dir d d') (hl : ¬ d.IsLink l) : ¬ d'.IsLink l := by
  rintro ⟨target, ht⟩
  rcases hs l with heq | ⟨-, -, mode, hm, -⟩
  · exact hl ⟨target, heq ▸ ht⟩
  · rw [ht] at hm
    cases hm

theorem stays {l : Loc} {node : Node} (hs : Secured h dir d d') (hget : d.get l = some node)
    (hl : l ≠ dir) : d'.get l = some node := by
  rcases hs l with heq | ⟨-, hnone | ⟨heq, -⟩, -⟩
  · exact heq.trans hget
  · rw [hget] at hnone
    cases hnone
  · exact absurd heq hl

theorem above {init : Loc} (hs : Secured h dir d d') (ho : Obtainable h d dir)
    (hi : init <+: dir) (hne : init ≠ dir) :
    ∃ mode, d'.get init = some (.dir mode) ∧ h.canSearch mode = true := by
  obtain ⟨mode, hget, hsearch⟩ := ho.above hi hne
  exact ⟨mode, hs.stays hget hne, hsearch⟩

theorem searched (hs : Secured h dir d d') (ho : Obtainable h d dir)
    (hdir : d'.get dir = some (.dir 0o700)) : Searched h d' dir := by
  intro init hi
  by_cases heq : init = dir
  · subst heq
    exact ⟨0o700, hdir, by simp [Host.canSearch]⟩
  · exact hs.above ho hi heq

theorem plain {loc : Loc} (hs : Secured h dir d d') (hp : Plain d loc) : Plain d' loc :=
  ⟨hp.named, fun hi => hs.notLink (hp.noLink hi)⟩

end Secured

/-- A state file that holds `bytes`. -/
def Holds (d : Disk) (loc : Loc) (bytes : List Byte) : Prop :=
  ∃ c t, c.val = bytes ∧ d.get loc = some (.file c 0o600 t)

/-- The state file was replaced, and nothing else changed. -/
structure Replaced (loc : Loc) (bytes : List Byte) (d d' : Disk) : Prop where
  holds : Holds d' loc bytes
  off : ∀ {l}, l ≠ loc → d'.get l = d.get l

/-- The state file was replaced or it was not; other entries of its directory may have
appeared. -/
structure Attempted (dir : Loc) (file : Str) (bytes : List Byte) (d d' : Disk) : Prop where
  either : d'.get (dir ++ [file]) = d.get (dir ++ [file]) ∨ Holds d' (dir ++ [file]) bytes
  off : ∀ {l}, (∀ name, l ≠ dir ++ [name]) → d'.get l = d.get l

/-! ## What the program does -/

section Spec

variable {h : Host} {w : World}

theorem createSecureDir_spec {dir : Loc} (hp : Plain w.disk dir) :
    (createSecureDir dir).wp h w
      (fun _ w' => Secured h dir w.disk w'.disk ∧ w'.disk.get dir = some (.dir 0o700))
      (fun _ w' => Secured h dir w.disk w'.disk
        ∧ ¬ ((∀ n, h.fault n = false) ∧ Obtainable h w.disk dir)) := by
  have hnames := hp.named.names
  unfold createSecureDir setDirPermissions
  refine wp_context_then (wp_and (P := (∀ n, h.fault n = false) ∧ Obtainable h w.disk dir)
    (createDirAll_ok hp.direct hp.here) fun hcalm => createDirAll_obtainable hcalm.2 hcalm.1) ?_
  rintro (kind | ⟨⟩) w₁ ⟨⟨hg, hdir⟩, hcalm⟩
  all_goals rw [hnames] at hg hdir
  · exact ⟨.of_grown hg, fun hc => (by cases hcalm hc)⟩
  · have hs : Secured h dir w.disk w₁.disk := .of_grown hg
    have hp₁ := hs.plain hp
    obtain ⟨mode, hmode⟩ := hdir rfl
    rw [wp_context]
    refine wp_conseq (chmod_spec hp₁.direct hp₁.here) ?_
    rw [hnames]
    rintro r w₂ (⟨rfl, node, hnode, hdid⟩ | ⟨kind, rfl, hsame, hbad⟩)
    · rw [hmode] at hnode
      cases hnode
      have hnow : w₂.disk.get dir = some (.dir 0o700) := hdid.sets.at
      refine ⟨hs.trans fun l => ?_, hnow⟩
      by_cases hl : dir = l
      · subst hl
        exact .inr ⟨List.prefix_rfl, .inr ⟨rfl, mode, hmode⟩, _, hnow, .inr rfl⟩
      · exact .inl (hdid.sets.off hl)
    · refine ⟨hs.trans (.of_eq hsame.disk), fun hc => hbad ⟨?_, _, hmode⟩⟩
      exact ⟨hc.1, hp.named, fun hi hne => .inr (hs.above hc.2 hi hne)⟩

theorem syncParentDirectory_spec {dir : Loc} (hp : Plain w.disk dir) :
    (syncParentDirectory dir).wp h w (fun _ w' => w'.disk = w.disk)
      (fun _ w' => w'.disk = w.disk ∧ ¬ ((∀ n, h.fault n = false) ∧ Searched h w.disk dir
        ∧ ∃ mode, w.disk.get dir = some (.dir mode) ∧ h.canRead mode = true)) := by
  unfold syncParentDirectory
  refine wp_context_then (wp_and (P := (∀ n, h.fault n = false) ∧ Searched h w.disk dir
    ∧ ∃ mode, w.disk.get dir = some (.dir mode) ∧ h.canRead mode = true)
    (openRead_spec hp.direct hp.here) fun ⟨hno, hs, _, hget, hread⟩ => openRead_there hs hno hget hread)
    ?_
  rintro r w₁ ⟨⟨rfl, hsame⟩ | ⟨kind, rfl, hsame, -⟩, hcalm⟩
  · rw [wp_context]
    refine wp_conseq syncAll_spec ?_
    rintro (kind | ⟨⟩) w₂ ⟨hsame', hr⟩
    · refine ⟨hsame'.disk.trans hsame.disk, fun hc => ?_⟩
      rcases hr with hr | ⟨_, -, hfault⟩
      · cases hr
      · exact hfault hc.1
    · exact hsame'.disk.trans hsame.disk
  · exact ⟨hsame.disk, fun hc => (by cases (hcalm hc).1)⟩

theorem stateTemporaryName_ne {file : Str} {pid suffix : Nat} :
    stateTemporaryName file pid suffix ≠ file := by
  intro heq
  have := congrArg List.length heq
  have hdot : ".".toList.length = 1 := by decide
  simp only [stateTemporaryName, List.length_append] at this
  omega

theorem isFileName_stateTemporaryName {file : Str} {pid suffix : Nat} (hfile : isFileName file = true) :
    isFileName (stateTemporaryName file pid suffix) = true := by
  simp only [isFileName, Bool.and_eq_true, Bool.not_eq_true', List.contains_eq_mem,
    decide_eq_false_iff_not] at hfile
  have hnot : ∀ {c : Char}, c.isDigit = false → c ∉ file → c ∉ ".tmp".toList →
      c ∉ stateTemporaryName file pid suffix := by
    intro c hd hf htmp
    have hdot : c ∉ ".".toList := fun hm => htmp (by simp at hm ⊢; simp [hm])
    simp only [stateTemporaryName, List.mem_append, not_or]
    exact ⟨⟨⟨⟨⟨⟨hdot, hf⟩, hdot⟩, notMem_repr hd⟩, hdot⟩, notMem_repr hd⟩, htmp⟩
  refine isFileName_of_long ?_ (hnot (by decide) hfile.1.2 (by decide))
    (hnot (by decide) hfile.2 (by decide))
  simp only [stateTemporaryName, List.length_append]
  have : ".tmp".toList.length = 4 := by decide
  omega

section Replace

variable {α : Type} [Serde α] {value : α} {dir : Loc} {file temp : Str}

/-- The new file, until it is renamed. -/
structure Staged (loc : Loc) (bytes : List Byte) (d d' : Disk) : Prop where
  missing : d.get loc = none
  holds : Holds d' loc bytes
  off : ∀ {l}, loc ≠ l → d'.get l = d.get l

/-- Nothing prevents the state file from being written through `temp`. -/
structure Admits (h : Host) (d : Disk) (dir : Loc) (temp file : Str) (bytes : List Byte) : Prop where
  noFault : ∀ n, h.fault n = false
  sameDevice : h.crossDevice = false
  searched : Searched h d dir
  secure : d.get dir = some (.dir 0o700)
  missing : d.get (dir ++ [temp]) = none
  free : ¬ d.IsDir (dir ++ [file])
  fits : bytes.length < 2 ^ 64

theorem writable_secure {d : Disk} (hget : d.get dir = some (.dir 0o700)) :
    d.writable h dir = true := by
  simp [Disk.writable, hget, Host.canWrite]

theorem Admits.ready {d : Disk} {bytes : List Byte} {name : Str} (ha : Admits h d dir temp file bytes)
    (hname : isFileName name = true) : Ready h d (dir ++ [name]) :=
  ⟨dir, name, rfl, Searched.smooth ha.searched ha.noFault hname, writable_secure ha.secure, hname⟩

theorem stageState_spec (hp : Plain w.disk dir) (htemp : isFileName temp = true) :
    (stageState (dir ++ [temp]) (writeState value)).wp h w
      (fun _ w' => Staged (dir ++ [temp]) (stateBytes value) w.disk w'.disk ∧ Searched h w.disk dir)
      (fun _ w' => (∀ {l}, dir ++ [temp] ≠ l → w'.disk.get l = w.disk.get l)
        ∧ ¬ Admits h w.disk dir temp file (stateBytes value)) := by
  have hd := hp.direct_child htemp
  have hnamed := hp.named_child htemp
  unfold stageState
  refine wp_context_then (wp_and (P := True) (openReadWrite_new_spec hd)
    fun _ => callAt_searched hnamed hd (by simp)) ?_
  rw [hnamed.names]
  rintro r w₁ ⟨⟨rfl, hnone, t, hdid⟩ | ⟨kind, rfl, hsame, hbad⟩, hsearched⟩
  · have hsearch : Searched h w.disk dir := fun {init} hi => by
      exact hsearched trivial rfl (hi.trans (List.prefix_append ..)) (prefix_ne_child hi)
    unfold setFilePermissions
    dsimp only
    refine wp_context_then fchmod_spec ?_
    rintro r w₂ (⟨rfl, node, hnode, hdid₂⟩ | ⟨kind, rfl, hsame, hbad⟩)
    · rw [hdid.sets.at] at hnode
      cases hnode
      unfold writeState
      dsimp only
      rw [wp_bind, wp_within, wp_context]
      refine wp_conseq (writeAt_spec hdid₂.sets.at) ?_
      have hset₂ := hdid.sets.trans hdid₂.sets
      have hover : overwrite Content.empty.val 0 (stateBytes value) = stateBytes value := by
        simp [overwrite, Content.empty]
      rintro r w₃ (⟨rfl, c, t', hc, hdid₃⟩ | ⟨kind, rfl, hpart, hbad⟩)
      · have hset₃ := hset₂.trans hdid₃.sets
        dsimp only
        rw [wp_context]
        refine wp_conseq syncAll_spec ?_
        rintro (kind | ⟨⟩) w₄ ⟨hsame, hr⟩
        · refine ⟨fun hl => ?_, fun ha => ?_⟩
          · rw [hsame.disk]
            exact hset₃.off hl
          · rcases hr with hr | ⟨_, -, hfault⟩
            · cases hr
            · exact hfault ha.noFault
        · refine ⟨⟨hnone, ⟨c, t', hc.trans hover, ?_⟩, fun hl => ?_⟩, hsearch⟩
          · rw [hsame.disk]
            exact hset₃.at
          · rw [hsame.disk]
            exact hset₃.off hl
      · refine ⟨fun hl => ?_, fun ha => hbad ⟨ha.noFault, hover.symm ▸ ha.fits⟩⟩
        rcases hpart with hsame | ⟨c, t', k, -, hdid₃⟩
        · rw [hsame.disk]
          exact hset₂.off hl
        · exact (hset₂.trans hdid₃.sets).off hl
    · refine ⟨fun hl => ?_, fun ha => hbad ⟨ha.noFault, _, hdid.sets.at⟩⟩
      rw [hsame.disk]
      exact hdid.sets.off hl
  · exact ⟨fun _ => by rw [hsame.disk], fun ha => hbad ⟨ha.ready htemp, ha.missing⟩⟩

/-- What a state file can be written through is unchanged by the new file. -/
theorem Admits.staged {d d' : Disk} (ha : Admits h d dir temp file (stateBytes value))
    (hs : Staged (dir ++ [temp]) (stateBytes value) d d') :
    Searched h d' dir ∧ d'.get dir = some (.dir 0o700) := by
  have hoff : ∀ {init}, init <+: dir → d'.get init = d.get init := fun hi =>
    hs.off (prefix_ne_child hi).symm
  refine ⟨fun {init} hi => ?_, (hoff List.prefix_rfl).trans ha.secure⟩
  obtain ⟨mode, hget, hsearch⟩ := ha.searched hi
  exact ⟨mode, (hoff hi).trans hget, hsearch⟩

theorem replaceState_spec (hp : Plain w.disk dir) (hfile : isFileName file = true)
    (htemp : isFileName temp = true) (hne : temp ≠ file) :
    (replaceState (dir ++ [temp]) (dir ++ [file]) (writeState value)).wp h w
      (fun _ w' => Replaced (dir ++ [file]) (stateBytes value) w.disk w'.disk ∧ Searched h w.disk dir)
      (fun _ w' => ((∀ {l}, dir ++ [temp] ≠ l → w'.disk.get l = w.disk.get l)
          ∨ Replaced (dir ++ [file]) (stateBytes value) w.disk w'.disk)
        ∧ ¬ Admits h w.disk dir temp file (stateBytes value)) := by
  have hdiff : dir ++ [temp] ≠ dir ++ [file] := fun heq => hne (by simpa using heq)
  unfold replaceState
  refine wp_seq (stageState_spec hp htemp) ?_ fun _ _ he => ⟨.inl he.1, he.2⟩
  rintro - w₁ ⟨hstaged, hsearch⟩
  obtain ⟨c, t, hc, hthere⟩ := hstaged.holds
  have hp₁ : Plain w₁.disk dir := hp.congr fun hi => hstaged.off (prefix_ne_child hi).symm
  have hrename : ∀ {E}, Admits h w.disk dir temp file (stateBytes value) →
      (rename (dir ++ [temp]) (dir ++ [file]) : Fs _).wp h w₁ (fun r _ => r = .ok ()) E := by
    intro E ha
    obtain ⟨hs₁, hsecure⟩ := ha.staged hstaged
    refine rename_there hs₁ ha.noFault ha.sameDevice (writable_secure hsecure) htemp hfile hthere rfl ?_
    rintro ⟨mode, hmode⟩
    exact ha.free ⟨mode, (hstaged.off hdiff).symm.trans hmode⟩
  refine wp_context_then (wp_and (rename_spec (hp₁.direct_child htemp) (hp₁.direct_child hfile))
    hrename) ?_
  rw [(hp₁.named_child htemp).names, (hp₁.named_child hfile).names]
  rintro r w₂ ⟨⟨rfl, node, hnode, -, -, -, hget, -⟩ | ⟨kind, rfl, hsame, -⟩, hok⟩
  · rw [hthere] at hnode
    cases hnode
    have hreplaced : Replaced (dir ++ [file]) (stateBytes value) w.disk w₂.disk := by
      refine ⟨⟨c, t, hc, ?_⟩, fun {l} hl => ?_⟩
      · rw [hget, if_pos rfl]
      · rw [hget, if_neg (Ne.symm hl)]
        split
        · rename_i heq
          rw [← heq, hstaged.missing]
        · exact hstaged.off ‹_›
    have hoff : ∀ {init}, init <+: dir → w₂.disk.get init = w.disk.get init := fun hi =>
      hreplaced.off (prefix_ne_child hi)
    have hp₂ : Plain w₂.disk dir := hp.congr hoff
    dsimp only
    rw [List.dropLast_concat]
    refine wp_mono (syncParentDirectory_spec hp₂) ?_ ?_
    · rintro - w₃ heq
      rw [heq]
      exact ⟨hreplaced, hsearch⟩
    · rintro - w₃ ⟨heq, hbad⟩
      rw [heq]
      refine ⟨.inr hreplaced, fun ha => hbad ⟨ha.noFault, fun {init} hi => ?_, 0o700, ?_, ?_⟩⟩
      · rw [hoff hi]
        exact ha.searched hi
      · exact (hoff List.prefix_rfl).trans ha.secure
      · simp [Host.canRead]
  · refine ⟨.inl fun {l} hl => ?_, fun ha => (by cases hok ha)⟩
    rw [hsame.disk]
    exact hstaged.off hl

/-- Nothing prevents a state file from being written. -/
structure Accepts (h : Host) (d : Disk) (dir : Loc) (file : Str) (bytes : List Byte) : Prop where
  noFault : ∀ n, h.fault n = false
  sameDevice : h.crossDevice = false
  obtainable : Obtainable h d dir
  missing : ∀ n, d.get (dir ++ [stateTemporaryName file h.pid n]) = none
  free : ¬ d.IsDir (dir ++ [file])
  fits : bytes.length < 2 ^ 64

theorem Accepts.admits {d d' : Disk} {bytes : List Byte} {n : Nat}
    (ha : Accepts h d dir file bytes) (hs : Secured h dir d d')
    (hdir : d'.get dir = some (.dir 0o700)) :
    Admits h d' dir (stateTemporaryName file h.pid n) file bytes := by
  have hbelow : ∀ name, d'.get (dir ++ [name]) = d.get (dir ++ [name]) := fun name =>
    hs.below fun hi => prefix_ne_child hi rfl
  refine ⟨ha.noFault, ha.sameDevice, hs.searched ha.obtainable hdir, hdir, ?_, ?_, ha.fits⟩
  · rw [hbelow]
    exact ha.missing n
  · rintro ⟨mode, hmode⟩
    exact ha.free ⟨mode, (hbelow file).symm.trans hmode⟩

/-- Where one state file was written, the next is. -/
theorem Accepts.again {d d₁ d' : Disk} {bytes bytes' : List Byte} (ha : Accepts h d dir file bytes)
    (hs : Secured h dir d d₁) (hdir : d₁.get dir = some (.dir 0o700))
    (hr : Replaced (dir ++ [file]) bytes d₁ d') (hfits : bytes'.length < 2 ^ 64) :
    Accepts h d' dir file bytes' where
  noFault := ha.noFault
  sameDevice := ha.sameDevice
  obtainable := .inl fun {init} hi => by
    rw [hr.off (prefix_ne_child hi)]
    exact hs.searched ha.obtainable hdir hi
  missing n := by
    rw [hr.off fun heq => stateTemporaryName_ne (List.append_cancel_left heq |> List.cons.inj).1,
      hs.below fun hi => prefix_ne_child hi rfl]
    exact ha.missing n
  free := by
    rintro ⟨mode, hmode⟩
    obtain ⟨c, t, -, hget⟩ := hr.holds
    rw [hget] at hmode
    cases hmode
  fits := hfits

/-- A state file holds, whatever happens, what it held or all of the new value. -/
theorem atomicWriteJson_spec (hp : Plain w.disk dir) (hfile : isFileName file = true) :
    (atomicWriteJson (dir ++ [file]) value).wp h w
      (fun _ w' => ∃ d, Secured h dir w.disk d ∧ d.get dir = some (.dir 0o700) ∧ Searched h d dir
        ∧ Replaced (dir ++ [file]) (stateBytes value) d w'.disk)
      (fun _ w' => (∃ d, Secured h dir w.disk d ∧ Attempted dir file (stateBytes value) d w'.disk)
        ∧ ¬ Accepts h w.disk dir file (stateBytes value)) := by
  unfold atomicWriteJson atomicWriteWith
  rw [List.getLast?_concat, List.dropLast_concat]
  dsimp only
  refine wp_seq (createSecureDir_spec hp) ?_ fun _ w' hs =>
    ⟨⟨_, hs.1, .inl rfl, fun _ => rfl⟩, fun ha => hs.2 ⟨ha.noFault, ha.obtainable⟩⟩
  rintro - w₁ ⟨hs, hdir⟩
  have hp₁ := hs.plain hp
  rw [wp_bind]
  show (orRemove (dir ++ [stateTemporaryName file h.pid (h.random w₁.calls).val]) _).wp h
    { w₁ with calls := w₁.calls + 1 } _ _
  generalize htemp : stateTemporaryName file h.pid (h.random w₁.calls).val = temp
  have hn : isFileName temp = true := htemp ▸ isFileName_stateTemporaryName hfile
  have hne : temp ≠ file := htemp ▸ stateTemporaryName_ne
  unfold orRemove
  rw [wp_bind, wp_attempt]
  refine wp_mono (@replaceState_spec h { w₁ with calls := w₁.calls + 1 } _ _ value dir file temp
    hp₁ hfile hn hne) ?_ ?_
  · rintro - w₂ ⟨hreplaced, hsearch⟩
    exact ⟨w₁.disk, hs, hdir, hsearch, hreplaced⟩
  · intro e w₂ ⟨hfailed, hbad⟩
    have hnot : ¬ Accepts h w.disk dir file (stateBytes value) := fun ha =>
      hbad (htemp ▸ ha.admits hs hdir)
    have hdiff : dir ++ [temp] ≠ dir ++ [file] := fun heq => hne (by simpa using heq)
    have hattempted : Attempted dir file (stateBytes value) w₁.disk w₂.disk := by
      rcases hfailed with hoff | hreplaced
      · exact ⟨.inl (hoff hdiff), fun hl => hoff (hl temp).symm⟩
      · exact ⟨.inr hreplaced.holds, fun hl => hreplaced.off (hl file)⟩
    have hp₂ : Plain w₂.disk dir :=
      hp₁.congr fun hi => hattempted.off fun name => prefix_ne_child hi
    dsimp only
    refine wp_then (unlink_spec (hp₂.direct_child hn)) ?_
    rw [(hp₂.named_child hn).names]
    rintro r w₃ (⟨rfl, -, hdid⟩ | ⟨kind, rfl, hsame, -⟩)
    · refine ⟨⟨w₁.disk, hs, ?_, fun hl =>
        (hdid.sets.off (hl temp).symm).trans (hattempted.off hl)⟩, hnot⟩
      rcases hattempted.either with hold | ⟨c, t, hc, hnew⟩
      · exact .inl ((hdid.sets.off hdiff).trans hold)
      · exact .inr ⟨c, t, hc, (hdid.sets.off hdiff).trans hnew⟩
    · exact ⟨⟨w₁.disk, hs, hsame.disk ▸ hattempted⟩, hnot⟩

end Replace

/-! ## Reading -/

section Read

variable {path : PathBuf} {c : Content} {m : Mode} {t : U64} {maxBytes : Nat}

theorem readBounded_keeps : (readBounded path maxBytes).wp h w (fun _ w' => w'.disk = w.disk)
    (fun _ w' => w'.disk = w.disk) := by
  have hopen : ∀ w : World, (openRead path : Fs _).wp h w (fun _ w' => w'.disk = w.disk)
      fun _ _ => False := by
    intro w
    unfold openRead callAt
    refine wp_call ?_ fun _ _ => rfl
    intro file d log hc
    obtain ⟨place, -, hc⟩ := Check.bind_eq_ok.mp hc
    obtain ⟨node, -, hc⟩ := Check.bind_eq_ok.mp hc
    split at hc
    · split at hc
      · cases hc; rfl
      · cases hc
    · split at hc
      · cases hc; rfl
      · cases hc
    · cases hc; rfl
  unfold readBounded
  rw [wp_bind, wp_context, stat_eq]
  refine wp_looking (fun node _ => ?_) fun _ _ => rfl
  dsimp only
  refine wp_ite (fun _ => rfl) fun _ => wp_ite (fun _ => rfl) fun _ => ?_
  rw [wp_bind, wp_context]
  refine wp_mono (hopen w.looked) ?_ fun _ _ hfalse => hfalse.elim
  rintro (kind | file) w₁ hdisk
  · exact hdisk
  · dsimp only
    refine wp_context_then readAll_spec ?_
    rintro r w₂ (⟨c, m, t, rfl, -, hdisk', -⟩ | ⟨kind, rfl, hsame, -⟩)
    · dsimp only
      exact wp_ite (fun _ => hdisk'.trans hdisk) fun _ => hdisk'.trans hdisk
    · exact hsame.disk.trans hdisk

/-- What is read is what the file holds; where nothing is in the way, a file is refused for its
length only. -/
theorem readBounded_spec (hget : w.disk.get path = some (.file c m t)) :
    (readBounded path maxBytes).wp h w (fun data _ => data = c ∧ c.val.length ≤ maxBytes)
      (fun e _ => Smooth h w.disk path → h.canRead m = true → maxBytes < c.val.length
        ∧ e = .bail (display path ++ " exceeds the maximum supported size of " ++ toString maxBytes
          ++ " bytes")) := by
  have hd := direct_of_get hget
  have hnames := Disk.names_of_get hget
  have hlast : ¬ w.disk.IsLink (names path) := by
    rw [hnames]
    rintro ⟨target, ht⟩
    rw [hget] at ht
    cases ht
  unfold readBounded
  refine wp_context_then (stat_spec hd hlast) ?_
  rintro (kind | node) w₁ hlooked
  · intro hs
    by_cases hk : kind = .notFound
    · have := hlooked.missing (by rw [hk])
      rw [hnames, hget] at this
      cases this
    · exact absurd hs (hlooked.blocked rfl hk)
  · have hnode := hlooked.ok rfl
    rw [hnames, hget] at hnode
    cases hnode
    have hdisk := hlooked.same.disk
    dsimp only
    rw [if_neg (by simp [Node.isFile])]
    refine wp_ite (fun hlong _ _ => ⟨hlong, rfl⟩) fun hfits => ?_
    have hfits : c.val.length ≤ maxBytes := Nat.not_lt.mp hfits
    refine wp_context_then (@openRead_spec _ _ _ w₁ path (hdisk ▸ hd) (hdisk ▸ hlast)) ?_
    rw [hdisk, hnames]
    rintro r w₂ (⟨rfl, hsame⟩ | ⟨kind, rfl, -, hno⟩)
    · dsimp only
      refine wp_context_then readAll_spec ?_
      rw [hsame.disk, hdisk]
      rintro r w₃ (⟨c', m', t', rfl, hget', -, -⟩ | ⟨kind, rfl, -, hno⟩)
      · rw [hget] at hget'
        cases hget'
        refine wp_ite (fun hlong => absurd hfits (Nat.not_le.mpr hlong)) fun _ => ⟨rfl, hfits⟩
      · exact fun hs _ => absurd ⟨hs.noFault, c, m, t, hget⟩ hno
    · exact fun hs hread => absurd ⟨hs, c, m, t, hget, hread⟩ hno

end Read

end Spec

end Syncbox.Storage

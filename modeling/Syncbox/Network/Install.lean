/-
# `Syncbox.Network.Install` — files and links by way of the staging directory

The three operations that bring something new into the tree.  Each clears the target,
renames a staged node onto it, and falls back to a copy when the rename would cross
a device.

Both ways end with the same node up to mode and time, so the triples do not say
which way was taken.  They are about two places at once, the target and the staged
node, and what keeps the two apart is `Staging`: the staging directory is neither
above nor below the root of the share.
-/
import Syncbox.Network.LocalSpec

namespace Syncbox

open Rust Unix Prog

/-! ## The staging directory -/

/-- The entries of the staging directory. -/
def inTmp (tmp : Loc) : Set Loc := {x | ∃ name, x = tmp ++ [name]}

structure Staging (root tmp : Loc) (d : Disk) : Prop where
  dir : d.IsDir tmp
  notBelow : ¬ root <+: tmp
  notAbove : ¬ tmp <+: root

/-- The staging directory may be used. -/
structure StagingOpen (h : Host) (d : Disk) (tmp : Loc) : Prop where
  reach : Reach h d tmp
  mode : ∃ m, d.get tmp = some (.dir m) ∧ h.canSearch m = true ∧ h.canWrite m = true

section Staging

variable {h : Host} {root tmp : Loc} {d : Disk} {p : Str} {X : Set Loc} {w w' : World} {name : Str}

theorem Staging.apart (hs : Staging root tmp d) (hX : X ⊆ inTmp tmp) : Apart root X := by
  intro x hx
  obtain ⟨name, rfl⟩ := hX hx
  constructor
  · intro hroot
    rcases List.prefix_concat_iff.mp hroot with rfl | hroot
    · exact hs.notAbove (List.prefix_append _ _)
    · exact hs.notBelow hroot
  · exact fun hx => hs.notAbove ((List.prefix_append _ _).trans hx)

/-- An operation does not touch the way to the staging directory. -/
theorem Staging.frame (hs : Staging root tmp d) (hX : X ⊆ inTmp tmp) (heff : Effect root p X w w')
    {l : Loc} (hl : l <+: tmp) : w'.disk.get l = w.disk.get l := by
  refine heff.changes.frame ?_
  rintro ((⟨init, -, rfl⟩ | hin) | hin)
  · exact hs.notBelow ((List.prefix_append _ _).trans hl)
  · rw [Set.mem_singleton_iff.mp hin] at hl
    exact hs.notBelow ((List.prefix_append _ _).trans hl)
  · obtain ⟨name, rfl⟩ := hX hin
    have := hl.length_le
    simp at this

theorem Staging.of_effect (hs : Staging root tmp w.disk) (hX : X ⊆ inTmp tmp)
    (heff : Effect root p X w w') : Staging root tmp w'.disk where
  dir := by rw [Disk.IsDir, hs.frame hX heff List.prefix_rfl]; exact hs.dir
  notBelow := hs.notBelow
  notAbove := hs.notAbove

theorem StagingOpen.of_effect (ho : StagingOpen h w.disk tmp) (hs : Staging root tmp d)
    (hX : X ⊆ inTmp tmp) (heff : Effect root p X w w') : StagingOpen h w'.disk tmp where
  reach := ⟨ho.reach.noFault, fun hi hne => by
    rw [hs.frame hX heff hi]; exact ho.reach.search hi hne⟩
  mode := by rw [hs.frame hX heff List.prefix_rfl]; exact ho.mode

theorem Staging.direct (hs : Staging root tmp d) (hn : isFileName name = true) :
    Direct d (tmp ++ [name]) := by
  refine direct_below hs.dir (fun hm => ?_) fun {init} hi hne => ?_
  · rw [← List.mem_singleton.mp hm] at hn
    simp [isFileName] at hn
  · have hnil : init = [] := List.prefix_nil.mp (prefix_dropLast hi hne)
    obtain ⟨m, hm⟩ := hs.dir
    rintro ⟨t, ht⟩
    rw [hnil] at ht
    simp only [names, List.filter_nil, List.append_nil, hm] at ht
    cases ht

theorem Staging.names (hs : Staging root tmp d) (hn : isFileName name = true) :
    names (tmp ++ [name]) = tmp ++ [name] := by
  rw [names_below hs.dir, names_cons_name (Disk.isName_of_isFileName hn)]
  rfl

theorem StagingOpen.ready (ho : StagingOpen h d tmp) (hn : isFileName name = true) :
    Ready h d (tmp ++ [name]) := by
  obtain ⟨m, hm, hsearch, hwrite⟩ := ho.mode
  refine ⟨tmp, name, rfl, ⟨ho.reach.noFault, ?_, fun {init} hi hne => ?_⟩, ?_, hn⟩
  · refine named_of_isFileName fun part hpart => ?_
    rcases List.mem_append.mp hpart with hpart | hpart
    · exact Disk.isFileName_of_get hm part hpart
    · rw [List.mem_singleton.mp hpart]; exact hn
  · have hi := (List.prefix_concat_iff.mp hi).resolve_left hne
    by_cases he : init = tmp
    · exact .inr ⟨m, by rw [he]; exact hm, hsearch⟩
    · exact .inr (ho.reach.search hi he)
  · simp only [Disk.writable, hm]
    exact hwrite

end Staging

/-- An operation that uses the name `name` of the staging directory. -/
structure InsideStaged (h : Host) (root tmp : Loc) (name : Str) (p : Str) (X : Set Loc) (w w₁ : World)
    (restores : List PermissionRestore) : Prop extends Inside h true root p X w w₁ restores where
  staging : Staging root tmp w.disk
  within : X ⊆ inTmp tmp
  mem : tmp ++ [name] ∈ X
  isName : isFileName name = true

/-! ## Clearing the target -/

theorem Sets.self (d : Disk) (loc : Loc) : Sets d loc (d.get loc) d := fun l => by
  split
  · rename_i he
    rw [he]
  · rfl

section Install

variable {h : Host} {root tmp : Loc} {p : Str} {X : Set Loc} {w w₁ w₂ : World}
  {restores : List PermissionRestore} {G : Prop}

/-- What may stand at the target of a new file or link. -/
structure Replaceable (h : Host) (d : Disk) (root : Loc) (p : Str) : Prop where
  clean : Clean h d root p
  notSpecial : d.get (target root p) ≠ some .special
  empty : d.IsDir (target root p) → ∀ child, d.get (target root p ++ [child]) = none

/-- The target of a new file after clearing: a file or nothing. -/
def ClearedForFile (loc : Loc) (d d' : Disk) : Prop :=
  ∃ o, Sets d loc o d' ∧ (o = none ∨ ∃ c m t, o = some (.file c m t))

theorem clearForFile_spec {text : String} (hi : Inside h true root p X w w₁ restores)
    (hgood : G → Replaceable h w.disk root p) :
    (clearForFile text (root ++ split p)).wp h w₁
      (fun _ w₂ => Effect root p X w₁ w₂ ∧ Steady root p w₁ w₂
        ∧ ClearedForFile (target root p) w₁.disk w₂.disk)
      (fun _ w₂ => Effect root p X w₁ w₂ ∧ ¬ G) := by
  unfold clearForFile
  refine wp_then (lstatTarget_spec hi) ?_
  rintro r w₂ ⟨hsame, hok, hmissing, hblocked⟩
  have kept : (∀ o, w₁.disk.get (target root p) = o → o = none ∨ ∃ c m t, o = some (.file c m t)) →
      Effect root p X w₁ w₂ ∧ Steady root p w₁ w₂
        ∧ ClearedForFile (target root p) w₁.disk w₂.disk := fun ho =>
    ⟨.of_same hsame, .of_same hsame, _, by rw [hsame.disk]; exact Sets.self _ _, ho _ rfl⟩
  rcases r with kind | (⟨c, m, t⟩ | m | t | _)
  · cases kind with
    | notFound => exact kept fun o ho => .inl (by rw [← ho, hmissing rfl])
    | _ => exact ⟨.of_same hsame, fun hg => hblocked _ rfl (by decide) (hgood hg).clean⟩
  · exact kept fun o ho => .inr ⟨c, m, t, by rw [← ho, hok _ rfl]⟩
  · refine wp_conseq (rmdirTarget_spec hi
      (fun hg => ⟨(hgood hg).clean, (hgood hg).empty ⟨m, ?_⟩⟩) hsame ⟨m, hok _ rfl⟩)
      fun _ _ ⟨heff, hst, hsets⟩ => ⟨heff, hst, none, hsets, .inl rfl⟩
    rw [← hi.prepared.get_target (hgood hg).clean]
    exact hok _ rfl
  · exact wp_conseq (unlinkTarget_spec hi (fun hg => (hgood hg).clean) hsame
      (hok _ rfl) rfl) fun _ _ ⟨heff, hst, hsets⟩ => ⟨heff, hst, none, hsets, .inl rfl⟩
  · refine ⟨.of_same hsame, fun hg => (hgood hg).notSpecial ?_⟩
    rw [← hi.prepared.get_target (hgood hg).clean]
    exact hok _ rfl

theorem clearForSymlink_spec (hi : Inside h true root p X w w₁ restores)
    (hgood : G → Replaceable h w.disk root p) :
    (clearForSymlink (root ++ split p)).wp h w₁
      (fun _ w₂ => Effect root p X w₁ w₂ ∧ Steady root p w₁ w₂
        ∧ Sets w₁.disk (target root p) none w₂.disk)
      (fun _ w₂ => Effect root p X w₁ w₂ ∧ ¬ G) := by
  unfold clearForSymlink
  refine wp_then (lstatTarget_spec hi) ?_
  rintro r w₂ ⟨hsame, hok, hmissing, hblocked⟩
  have removed : ∀ {text : String} {node : Node}, w₁.disk.get (target root p) = some node →
      node.isDir = false → (context text (unlink (root ++ split p))).wp h w₂
        (fun _ w₂ => Effect root p X w₁ w₂ ∧ Steady root p w₁ w₂
          ∧ Sets w₁.disk (target root p) none w₂.disk)
        (fun _ w₂ => Effect root p X w₁ w₂ ∧ ¬ G) := fun hnode hdir =>
    unlinkTarget_spec hi (fun hg => (hgood hg).clean) hsame hnode hdir
  rcases r with kind | (⟨c, m, t⟩ | m | t | _)
  · cases kind with
    | notFound =>
        refine ⟨.of_same hsame, .of_same hsame, ?_⟩
        rw [← hmissing rfl, hsame.disk]
        exact Sets.self _ _
    | _ => exact ⟨.of_same hsame, fun hg => hblocked _ rfl (by decide) (hgood hg).clean⟩
  · exact removed (hok _ rfl) rfl
  · refine rmdirTarget_spec hi
      (fun hg => ⟨(hgood hg).clean, (hgood hg).empty ⟨m, ?_⟩⟩) hsame ⟨m, hok _ rfl⟩
    rw [← hi.prepared.get_target (hgood hg).clean]
    exact hok _ rfl
  · exact removed (hok _ rfl) rfl
  · refine ⟨.of_same hsame, fun hg => (hgood hg).notSpecial ?_⟩
    rw [← hi.prepared.get_target (hgood hg).clean]
    exact hok _ rfl

/-! ## Writing a file in place -/

/-- While a file is written at the target: nothing else changes, and the target is a file or
nothing.  `w₂` is where the writing began. -/
structure Writing (root : Loc) (p : Str) (X : Set Loc) (w₁ w₂ w₃ : World) : Prop where
  effect : Effect root p X w₁ w₃
  steady : Steady root p w₁ w₃
  off : ∀ l, l ≠ target root p → w₃.disk.get l = w₂.disk.get l
  file : w₃.disk.get (target root p) = none
    ∨ ∃ c m t, w₃.disk.get (target root p) = some (.file c m t)

namespace Writing

variable {w₃ w₄ : World}

theorem then_same (hw : Writing root p X w₁ w₂ w₃) (hs : Same w₃ w₄) : Writing root p X w₁ w₂ w₄ where
  effect := hw.effect.trans (.of_same hs)
  steady := hw.steady.trans (.of_same hs)
  off := fun l hl => by rw [hs.disk]; exact hw.off l hl
  file := by rw [hs.disk]; exact hw.file

theorem then_did {c : Content} {m : Mode} {t : U64} {access : Access}
    (hw : Writing root p X w₁ w₂ w₃)
    (hd : Did w₃ w₄ (target root p) (some (.file c m t)) access) : Writing root p X w₁ w₂ w₄ where
  effect := hw.effect.trans (.of_target hd fun _ t ht => by cases ht)
  steady := hw.steady.trans (.of_target hd.sets)
  off := fun l hl => by rw [hd.sets.off (Ne.symm hl)]; exact hw.off l hl
  file := .inr ⟨c, m, t, hd.sets.at⟩

theorem then_read {x : Loc} (hX : Apart root X) (hx : x ∈ X) (hw : Writing root p X w₁ w₂ w₃)
    (hd : w₄.disk = w₃.disk) (hlog : w₄.log = (.read, x) :: w₃.log) : Writing root p X w₁ w₂ w₄ where
  effect := hw.effect.trans (.of_outside (S := {x})
    ⟨fun _ => by rw [hd], [(.read, x)], hlog, by simp⟩ (by simpa using hx) fun hy => (hX _ hy).1)
  steady := fun c hc hne => by rw [hd]; exact hw.steady c hc hne
  off := fun l hl => by rw [hd]; exact hw.off l hl
  file := by rw [hd]; exact hw.file

theorem notLink (hw : Writing root p X w₁ w₂ w₃) : ¬ w₃.disk.IsLink (target root p) := by
  rintro ⟨t, ht⟩
  rcases hw.file with hnone | ⟨c, m, t', hf⟩
  · rw [ht] at hnone; cases hnone
  · rw [ht] at hf; cases hf

end Writing

/-- Inside the operation the target may be opened for writing. -/
def TargetWritable (h : Host) (d : Disk) (loc : Loc) : Prop :=
  d.get loc = none ∨ ∃ c m t, d.get loc = some (.file c m t) ∧ h.canWrite m = true

theorem openTarget_spec {ε : Type} {E : ε → World → Prop} {mode : Mode} {w₃ : World}
    (hi : Inside h true root p X w w₁ restores) (hw : Writing root p X w₁ w₂ w₃) :
    (openTruncate (root ++ split p) mode : Prog Host ε World _).wp h w₃ (fun r w₄ =>
      Writing root p X w₁ w₂ w₄
        ∧ ((r = .ok (target root p) ∧ target root p ∉ chain root p
            ∧ ∃ m t, w₄.disk.get (target root p) = some (.file .empty m t))
          ∨ ∃ kind, r = .error kind
            ∧ ¬ (Clean h w.disk root p ∧ TargetWritable h w₃.disk (target root p)))) E := by
  have hlast : ¬ w₃.disk.IsLink (names (root ++ split p)) := by
    rw [names_target hi.isDir]; exact hw.notLink
  refine wp_conseq (openTruncate_spec (hi.direct_after hw.effect) hlast) ?_
  rw [names_target hi.isDir]
  rintro r w₄ (⟨rfl, -, ⟨init, name, hpath, hn⟩, m, t, access, hdid⟩ | ⟨kind, rfl, hsame, hno⟩)
  · obtain ⟨front, last, hs⟩ := exists_split_concat p
    have hlast : last = name := by
      rw [hs, ← List.append_assoc] at hpath
      exact (List.cons.inj (List.append_inj_right' hpath rfl)).1
    exact ⟨hw.then_did hdid, .inl ⟨rfl, target_notMem_chain hs (hlast ▸ hn), m, t, hdid.sets.at⟩⟩
  · refine ⟨hw.then_same hsame, .inr ⟨kind, rfl, fun hc => hno ⟨?_, hc.2⟩⟩⟩
    exact hi.ready_after hc.1 hw.effect hw.steady (hi.prepared.parent_isDir hc.1 hw.steady)

theorem writeTarget_spec {ε : Type} {E : ε → World → Prop} {bytes : List Byte} {m : Mode} {t : U64}
    {w₃ : World} (hw : Writing root p X w₁ w₂ w₃)
    (hget : w₃.disk.get (target root p) = some (.file .empty m t)) :
    (writeAt (target root p) 0 bytes : Prog Host ε World _).wp h w₃ (fun r w₄ =>
      Writing root p X w₁ w₂ w₄
        ∧ ((r = .ok () ∧ ∃ c m' t', c.val = bytes
            ∧ w₄.disk.get (target root p) = some (.file c m' t'))
          ∨ ∃ kind, r = .error kind ∧ ¬ ((∀ n, h.fault n = false) ∧ bytes.length < 2 ^ 64))) E := by
  have hbytes : ∀ bytes : List Byte, overwrite Content.empty.val 0 bytes = bytes := fun bytes => by
    simp [overwrite, Content.empty]
  refine wp_conseq (writeAt_spec hget) ?_
  simp only [hbytes]
  rintro r w₄ (⟨rfl, c, t', hc, hdid⟩ | ⟨kind, rfl, hsame | ⟨c, t', k, hc, hdid⟩, hno⟩)
  · exact ⟨hw.then_did hdid, .inl ⟨rfl, c, m, t', hc, hdid.sets.at⟩⟩
  · exact ⟨hw.then_same hsame, .inr ⟨kind, rfl, hno⟩⟩
  · exact ⟨hw.then_did hdid, .inr ⟨kind, rfl, hno⟩⟩

/-- The result of writing a file at the target by a copy. -/
def Copied (root : Loc) (p : Str) (bytes : List Byte) (r : Except IoKind Unit) (d : Disk)
    (G : Prop) : Prop :=
  (r = .ok () ∧ target root p ∉ chain root p
      ∧ ∃ c m t, c.val = bytes ∧ d.get (target root p) = some (.file c m t))
    ∨ ∃ kind, r = .error kind ∧ ¬ G

theorem writeFileTarget_spec {E : Error → World → Prop} {bytes : List Byte} {w₃ : World}
    (hi : Inside h true root p X w w₁ restores) (hw : Writing root p X w₁ w₂ w₃)
    (hgood : G → Clean h w.disk root p ∧ TargetWritable h w₃.disk (target root p)
      ∧ bytes.length < 2 ^ 64) :
    (writeFile (root ++ split p) bytes).wp h w₃ (fun r w₄ => Writing root p X w₁ w₂ w₄
      ∧ Copied root p bytes r w₄.disk G) E := by
  unfold writeFile
  rw [wp_attempt, wp_bind, wp_check]
  refine wp_conseq (openTarget_spec hi hw) ?_
  rintro r w₄ ⟨hw₄, ⟨rfl, hchain, m, t, hget⟩ | ⟨kind, rfl, hno⟩⟩
  · dsimp only
    rw [wp_check]
    refine wp_conseq (writeTarget_spec hw₄ hget) ?_
    rintro r w₅ ⟨hw₅, ⟨rfl, c, m', t', hc, hget'⟩ | ⟨kind, rfl, hno⟩⟩
    · exact ⟨hw₅, .inl ⟨rfl, hchain, c, m', t', hc, hget'⟩⟩
    · exact ⟨hw₅, .inr ⟨kind, rfl, fun hg =>
        hno ⟨(hgood hg).1.reach.noFault, (hgood hg).2.2⟩⟩⟩
  · exact ⟨hw₄, .inr ⟨kind, rfl, fun hg => hno ⟨(hgood hg).1, (hgood hg).2.1⟩⟩⟩

section Copy

variable {x : Loc} {name : Str} {c : Content} {m : Mode} {t : U64} {w₃ : World}

theorem copyFileTarget_spec {E : Error → World → Prop}
    (hi : InsideStaged h root tmp name p X w w₁ restores) (hw : Writing root p X w₁ w₂ w₃)
    (hnode : w₂.disk.get (tmp ++ [name]) = some (.file c m t))
    (hgood : G → Clean h w.disk root p ∧ TargetWritable h w₃.disk (target root p)
      ∧ StagingOpen h w.disk tmp ∧ h.canRead m = true) :
    (copyFile (tmp ++ [name]) (root ++ split p)).wp h w₃ (fun r w₄ => Writing root p X w₁ w₂ w₄
      ∧ Copied root p c.val r w₄.disk G) E := by
  have hi.apart : Apart root X := hi.staging.apart hi.within
  have heff₃ : Effect root p X w w₃ := (hi.prepared.effect List.prefix_rfl).trans hw.effect
  have hne : tmp ++ [name] ≠ target root p := fun he =>
    (hi.apart _ hi.mem).1 (he ▸ List.prefix_append _ _)
  have hS₃ := hi.staging.of_effect hi.within heff₃
  have staged : ∀ {w₄}, Writing root p X w₁ w₂ w₄ →
      w₄.disk.get (tmp ++ [name]) = some (.file c m t) := fun hw₄ => (hw₄.off _ hne).trans hnode
  have fails : ∀ {w₄} {kind : IoKind}, Writing root p X w₁ w₂ w₄ → ¬ G →
      Writing root p X w₁ w₂ w₄ ∧ Copied root p c.val (.error kind) w₄.disk G :=
    fun hw₄ hno => ⟨hw₄, .inr ⟨_, rfl, hno⟩⟩
  unfold copyFile
  rw [wp_attempt, wp_bind, wp_check]
  refine wp_conseq (openRead_spec (hS₃.direct hi.isName) ?_) ?_
  · rintro ⟨t', ht'⟩
    rw [hS₃.names hi.isName, staged hw] at ht'
    cases ht'
  rw [hS₃.names hi.isName]
  rintro r w₄ (⟨rfl, hs₄⟩ | ⟨kind, rfl, hs₄, hno⟩)
  swap
  · refine fails (hw.then_same hs₄) fun hg => hno ⟨?_, c, m, t, staged hw, (hgood hg).2.2.2⟩
    exact (((hgood hg).2.2.1.of_effect hi.staging hi.within heff₃).ready hi.isName).smooth
  dsimp only
  have hw₄ := hw.then_same hs₄
  rw [wp_bind, wp_check]
  refine wp_conseq fstat_spec ?_
  rintro r w₅ (⟨node, rfl, hget, hs₅⟩ | ⟨kind, rfl, hs₅, hno⟩)
  swap
  · exact fails (hw₄.then_same hs₅) fun hg => hno ⟨(hgood hg).1.reach.noFault, _, staged hw₄⟩
  rw [staged hw₄] at hget
  cases hget
  dsimp only
  have hw₅ := hw₄.then_same hs₅
  rw [wp_bind, wp_check]
  refine wp_conseq (openTarget_spec hi.toInside hw₅) ?_
  rintro r w₆ ⟨hw₆, ⟨rfl, hchain, m₆, t₆, hget₆⟩ | ⟨kind, rfl, hno⟩⟩
  swap
  · refine fails hw₆ fun hg => hno ⟨(hgood hg).1, ?_⟩
    rw [hs₅.disk, hs₄.disk]
    exact (hgood hg).2.1
  dsimp only
  rw [wp_bind, wp_check]
  refine wp_conseq fstat_spec ?_
  rintro r w₇ (⟨node, rfl, -, hs₇⟩ | ⟨kind, rfl, hs₇, hno⟩)
  swap
  · exact fails (hw₆.then_same hs₇) fun hg => hno ⟨(hgood hg).1.reach.noFault, _, hget₆⟩
  dsimp only
  have hw₇ := hw₆.then_same hs₇
  rw [← hs₇.disk] at hget₆
  rw [wp_bind, wp_check]
  refine wp_conseq fchmod_spec ?_
  rintro r w₈ (⟨rfl, node, hget, hdid⟩ | ⟨kind, rfl, hs₈, hno⟩)
  swap
  · exact fails (hw₇.then_same hs₈) fun hg => hno ⟨(hgood hg).1.reach.noFault, _, hget₆⟩
  rw [hget₆] at hget
  cases hget
  have hw₈ := hw₇.then_did hdid
  dsimp only
  rw [wp_bind, wp_check]
  refine wp_conseq readAll_spec ?_
  rintro r w₉ (⟨c', m', t', rfl, hget, hd₉, hlog⟩ | ⟨kind, rfl, hs₉, hno⟩)
  swap
  · exact fails (hw₈.then_same hs₉) fun hg =>
      hno ⟨(hgood hg).1.reach.noFault, _, _, _, staged hw₈⟩
  rw [staged hw₈] at hget
  cases hget
  have hw₉ := hw₈.then_read hi.apart hi.mem hd₉ hlog
  dsimp only
  rw [wp_check]
  refine wp_conseq (writeTarget_spec hw₉ (by rw [hd₉]; exact hdid.sets.at)) ?_
  rintro r w₁₀ ⟨hw₁₀, ⟨rfl, c', m', t', hc, hget'⟩ | ⟨kind, rfl, hno⟩⟩
  · exact ⟨hw₁₀, .inl ⟨rfl, hchain, c', m', t', hc, hget'⟩⟩
  · exact fails hw₁₀ fun hg => hno ⟨(hgood hg).1.reach.noFault, c.property⟩

end Copy

theorem chmodWriting_spec {E : Error → World → Prop} {mode : Mode} {w₃ : World}
    (hi : Inside h true root p X w w₁ restores) (hw : Writing root p X w₁ w₂ w₃) :
    (chmod (root ++ split p) mode).wp h w₃ (fun r w₄ => Writing root p X w₁ w₂ w₄
      ∧ ((r = .ok () ∧ ∃ c m t, w₃.disk.get (target root p) = some (.file c m t)
          ∧ w₄.disk.get (target root p) = some (.file c mode t))
        ∨ ∃ kind, r = .error kind ∧ w₄.disk = w₃.disk ∧ ¬ (Clean h w.disk root p
          ∧ ∃ c m t, w₃.disk.get (target root p) = some (.file c m t)))) E := by
  have hlast : ¬ w₃.disk.IsLink (names (root ++ split p)) := by
    rw [names_target hi.isDir]; exact hw.notLink
  refine wp_conseq (chmod_spec (hi.direct_after hw.effect) hlast) ?_
  rw [names_target hi.isDir]
  rintro r w₄ (⟨rfl, node, hnode, hdid⟩ | ⟨kind, rfl, hsame, hno⟩)
  · rcases hw.file with hnone | ⟨c, m, t, hf⟩
    · rw [hnode] at hnone; cases hnone
    · rw [hf] at hnode
      cases hnode
      exact ⟨hw.then_did hdid, .inl ⟨rfl, c, m, t, hf, hdid.sets.at⟩⟩
  · refine ⟨hw.then_same hsame, .inr ⟨kind, rfl, hsame.disk, fun hc => ?_⟩⟩
    obtain ⟨hc, c, m, t, hf⟩ := hc
    exact hno ⟨hi.smooth_after hc hw.effect hw.steady, _, hf⟩

theorem write_bit {m : Mode} (hm : m &&& 0o200 ≠ 0) : m &&& 0o200 = 0o200 := by
  have hand : m &&& 0o200 = if m.getLsbD 7 then 0o200 else 0 := BitVec.and_twoPow m 7
  rw [hand] at hm ⊢
  split
  · rfl
  · rename_i hbit
    rw [if_neg hbit] at hm
    exact absurd rfl hm

theorem canWrite_of_bit {m : Mode} (hm : m &&& 0o200 = 0o200) : h.canWrite m = true := by
  rw [Host.canWrite, hm, beq_self_eq_true, Bool.or_true]

theorem makeWritable_spec (hi : Inside h true root p X w w₁ restores)
    (hw : Writing root p X w₁ w₂ w₂) :
    (makeWritable (root ++ split p)).wp h w₂
      (fun _ w₃ => Writing root p X w₁ w₂ w₃
        ∧ (Clean h w.disk root p → TargetWritable h w₃.disk (target root p)))
      (fun _ w₃ => Effect root p X w₁ w₃ ∧ ¬ Clean h w.disk root p) := by
  unfold makeWritable
  refine wp_then (lstat_spec (hi.direct_after hw.effect)) ?_
  intro r w₃ hlook
  have hw₃ := hw.then_same hlook.same
  have hloc := names_target (p := p) hi.isDir
  rcases r with kind | node
  · cases kind with
    | notFound =>
        refine ⟨hw₃, fun _ => .inl ?_⟩
        rw [hlook.same.disk, ← hloc]
        exact hlook.missing rfl
    | _ =>
        exact ⟨hw₃.effect, fun hc => hlook.blocked rfl (by decide)
          (hi.smooth_after hc hw.effect hw.steady)⟩
  · have hnode := hlook.ok rfl
    rw [hloc] at hnode
    rcases hw.file with hnone | ⟨c, m, t, hf⟩
    · rw [hnode] at hnone; cases hnone
    · rw [hf] at hnode
      cases hnode
      have hf₃ : w₃.disk.get (target root p) = some (.file c m t) := by rw [hlook.same.disk, hf]
      refine wp_ite (fun hm => ?_) (fun hm => ?_)
      · refine wp_then (chmodWriting_spec hi hw₃) ?_
        rintro r w₄ ⟨hw₄, ⟨rfl, c', m', t', hget, hget'⟩ | ⟨kind, rfl, hdisk, hno⟩⟩
        · exact ⟨hw₄, fun _ => .inr ⟨c', _, t', hget', canWrite_of_bit (or_and_bits m)⟩⟩
        · have hno' : ¬ Clean h w.disk root p := fun hc => hno ⟨hc, c, m, t, hf₃⟩
          refine wp_ite (fun _ => ?_) (fun _ => ⟨hw₄.effect, hno'⟩)
          exact ⟨hw₄, fun hc => absurd hc hno'⟩
      · exact ⟨hw₃, fun _ => .inr ⟨c, m, t, hf₃, canWrite_of_bit (write_bit hm)⟩⟩

/-- A file with these bytes stands at the target, which is none of the parents. -/
def FileAt (root : Loc) (p : Str) (bytes : List Byte) (d : Disk) : Prop :=
  target root p ∉ chain root p ∧ ∃ c m t, c.val = bytes ∧ d.get (target root p) = some (.file c m t)

theorem restoreWriting_spec (bytes : List Byte) {o : Option Mode} {w₃ : World}
    (hi : Inside h true root p X w w₁ restores) (hw : Writing root p X w₁ w₂ w₃) :
    (restoreFilePermissions (root ++ split p) o).wp h w₃
      (fun _ w₄ => Writing root p X w₁ w₂ w₄
        ∧ (FileAt root p bytes w₃.disk → FileAt root p bytes w₄.disk))
      (fun _ w₄ => Effect root p X w₁ w₄
        ∧ ¬ (Clean h w.disk root p ∧ FileAt root p bytes w₃.disk)) := by
  cases o with
  | none => exact ⟨hw, id⟩
  | some mode =>
      unfold restoreFilePermissions
      rw [wp_context]
      refine wp_conseq (chmodWriting_spec hi hw) ?_
      rintro r w₄ ⟨hw₄, ⟨rfl, c, m, t, hget, hget'⟩ | ⟨kind, rfl, -, hno⟩⟩
      · refine ⟨hw₄, ?_⟩
        rintro ⟨hchain, c', m', t', hc, hf⟩
        rw [hget] at hf
        cases hf
        exact ⟨hchain, c, mode, t, hc, hget'⟩
      · refine ⟨hw₄.effect, ?_⟩
        rintro ⟨hc, -, c, m, t, -, hf⟩
        exact hno ⟨hc, c, m, t, hf⟩

theorem withWritableCrossDeviceTarget_spec (bytes : List Byte) {permissions : Option U16}
    {op : Fs Unit} (hi : Inside h true root p X w w₁ restores) (hgood : G → Clean h w.disk root p)
    (hw : Writing root p X w₁ w₂ w₂) (hop : ∀ {w₃}, Writing root p X w₁ w₂ w₃ →
      (G → TargetWritable h w₃.disk (target root p)) →
      op.wp h w₃ (fun _ w₄ => Writing root p X w₁ w₂ w₄ ∧ FileAt root p bytes w₄.disk)
        (fun _ w₄ => Writing root p X w₁ w₂ w₄ ∧ ¬ G)) :
    (withWritableCrossDeviceTarget (root ++ split p) permissions op).wp h w₂
      (fun _ w₃ => Writing root p X w₁ w₂ w₃ ∧ FileAt root p bytes w₃.disk)
      (fun _ w₃ => Effect root p X w₁ w₃ ∧ ¬ G) := by
  unfold withWritableCrossDeviceTarget
  refine wp_seq (makeWritable_spec hi hw) ?_
    (fun e w₃ hf => ⟨hf.1, fun hg => hf.2 (hgood hg)⟩)
  rintro restore w₃ ⟨hw₃, hwritable⟩
  rw [wp_bind, wp_attempt]
  refine wp_mono (hop hw₃ fun hg => hwritable (hgood hg)) ?_ ?_
  · rintro _ w₄ ⟨hw₄, hfile⟩
    refine wp_ite (fun _ => ?_) (fun _ => ⟨hw₄, hfile⟩)
    refine wp_seq (restoreWriting_spec bytes hi hw₄) ?_ ?_
    · exact fun _ w₅ hr => ⟨hr.1, hr.2 hfile⟩
    · exact fun e w₅ hr => ⟨hr.1, fun hg => hr.2 ⟨hgood hg, hfile⟩⟩
  · rintro e w₄ ⟨hw₄, hno⟩
    refine wp_ite (fun _ => ?_) (fun _ => ⟨hw₄.effect, hno⟩)
    refine wp_seq (restoreWriting_spec bytes hi hw₄) ?_ ?_
    · exact fun _ w₅ hr => ⟨hr.1.effect, hno⟩
    · exact fun e w₅ hr => ⟨hr.1, hno⟩

/-! ## Moving a staged node -/

theorem Effect.of_staged {x : Loc} {o : Option Node} {access : Access} (hX : Apart root X)
    (hx : x ∈ X) (hd : Did w w₁ x o access) : Effect root p X w w₁ :=
  .of_outside (hd.changes (Set.mem_singleton x)) (by simpa using hx) fun hy => (hX _ hy).1

theorem notMem_chain_of_apart {x : Loc} (hX : Apart root X) (hx : x ∈ X) :
    x ∉ chain root p ∧ x ≠ target root p := by
  refine ⟨?_, fun he => (hX _ hx).1 (he ▸ List.prefix_append _ _)⟩
  rintro ⟨init, -, rfl⟩
  exact (hX _ hx).1 (List.prefix_append _ _)

theorem Steady.of_staged {x : Loc} {o : Option Node} (hX : Apart root X) (hx : x ∈ X)
    (hs : Sets w.disk x o w₁.disk) : Steady root p w w₁ := fun _ hc _ =>
  hs.off fun he => (notMem_chain_of_apart hX hx).1 (he ▸ hc)

/-- The staged node stands at the target and nowhere else. -/
def Placed (root : Loc) (p : Str) (x : Loc) (node : Node) (d d' : Disk) : Prop :=
  ∀ l, d'.get l = if target root p = l then some node else if x = l then none else d.get l

theorem Effect.of_moved {x : Loc} {node : Node} (hX : Apart root X) (hx : x ∈ X)
    (hchain : target root p ∉ chain root p) (hm : Placed root p x node w.disk w₁.disk)
    (hlog : w₁.log = (.create, target root p) :: (.remove, x) :: w.log) :
    Effect root p X w w₁ ∧ Steady root p w w₁ := by
  have hoff : ∀ c ∈ chain root p, w₁.disk.get c = w.disk.get c := fun c hc => by
    rw [hm c, if_neg (by rintro rfl; exact hchain hc),
      if_neg (by rintro rfl; exact (notMem_chain_of_apart hX hx).1 hc)]
  refine ⟨⟨⟨fun {l} hl => ?_, [(.create, target root p), (.remove, x)], hlog, by simp [hx]⟩,
    fun hc _ hd => ?_, fun hc _ hn => ?_, fun hc _ hn => ?_, fun hc hl => ?_⟩, fun c hc _ => hoff c hc⟩
  · rw [hm l, if_neg (by rintro rfl; exact hl (.inl (.inr rfl))),
      if_neg (by rintro rfl; exact hl (.inr hx))]
  · rwa [Disk.IsDir, hoff _ hc]
  · exact Node.held_of_eq (by rwa [hoff _ hc])
  · exact .inl (by rw [hoff _ hc, hn])
  · rwa [Disk.IsLink, hoff _ hc]

theorem install_spec {text : String} {name : Str} {node : Node} {crossing : Fs Unit} {w₃ : World}
    {Q : World → Prop} (hi : InsideStaged h root tmp name p X w w₁ restores)
    (heff : Effect root p X w₁ w₃) (hst : Steady root p w₁ w₃)
    (hnode : w₃.disk.get (tmp ++ [name]) = some node) (hdir : node.isDir = false)
    (hgood : G → Clean h w.disk root p ∧ StagingOpen h w.disk tmp ∧ ¬ w₃.disk.IsDir (target root p))
    (hcross : ∀ {w₄}, Same w₃ w₄ →
      crossing.wp h w₄ (fun _ => Q) (fun _ w₅ => Effect root p X w₁ w₅ ∧ ¬ G)) :
    (install text (tmp ++ [name]) (root ++ split p) crossing).wp h w₃
      (fun _ w₄ => (Effect root p X w₁ w₄ ∧ Steady root p w₁ w₄ ∧ target root p ∉ chain root p
        ∧ Placed root p (tmp ++ [name]) node w₃.disk w₄.disk) ∨ Q w₄)
      (fun _ w₄ => Effect root p X w₁ w₄ ∧ ¬ G) := by
  have hi.apart : Apart root X := hi.staging.apart hi.within
  have heff₃ : Effect root p X w w₃ := (hi.prepared.effect List.prefix_rfl).trans heff
  have hS₃ := hi.staging.of_effect hi.within heff₃
  unfold install
  refine wp_then (rename_spec (hS₃.direct hi.isName) (hi.direct_after heff)) ?_
  rw [hS₃.names hi.isName, names_target hi.isDir]
  rintro r w₄ (⟨rfl, node', hnode', -, ⟨init, last, hpath, hlast⟩, -, hget, hlog⟩
    | ⟨kind, rfl, hsame, hno⟩)
  · rw [hnode] at hnode'
    cases hnode'
    have hchain : target root p ∉ chain root p := by
      obtain ⟨front, last', hs⟩ := exists_split_concat p
      rw [hs, ← List.append_assoc] at hpath
      have he : last' = last := (List.cons.inj (List.append_inj_right' hpath rfl)).1
      exact target_notMem_chain hs (he ▸ hlast)
    obtain ⟨he, hs⟩ := Effect.of_moved hi.apart hi.mem hchain hget hlog
    exact .inl ⟨heff.trans he, hst.trans hs, hchain, hget⟩
  · cases kind with
    | crossesDevices =>
        exact wp_mono (hcross hsame) (fun _ _ hq => .inr hq) (fun _ _ he => he)
    | _ =>
        refine ⟨heff.trans (.of_same hsame), fun hg => hno (by decide) ?_⟩
        obtain ⟨hc, ho, hnd⟩ := hgood hg
        exact ⟨(ho.of_effect hi.staging hi.within heff₃).ready hi.isName, hi.ready_after hc heff hst
          (hi.prepared.parent_isDir hc hst), ⟨node, hnode, hdir⟩, hnd⟩

/-! ## Temporary names -/

theorem isFileName_temporaryName {kind : Str} {pid random : Nat} (hsep : '/' ∉ kind)
    (hnul : '\x00' ∉ kind) : isFileName (temporaryName kind pid random) = true := by
  have hnot : ∀ {c : Char}, c.isDigit = false → c ∉ kind → c ∉ "-.tmp".toList →
      c ∉ temporaryName kind pid random := by
    intro c hd hk hother
    have hdash : c ∉ "-".toList := fun hm => hother (by simp at hm ⊢; simp [hm])
    have htmp : c ∉ ".tmp".toList := fun hm => hother (by simp at hm ⊢; tauto)
    simp only [temporaryName, List.mem_append, not_or]
    exact ⟨⟨⟨⟨⟨hk, hdash⟩, notMem_repr hd⟩, hdash⟩, notMem_repr hd⟩, htmp⟩
  refine isFileName_of_long ?_ (hnot (by decide) hsep (by decide)) (hnot (by decide) hnul (by decide))
  simp only [temporaryName, List.length_append]
  have : ".tmp".toList.length = 4 := by decide
  omega

/-- The temporary names of one kind. -/
def tempNames (h : Host) (tmp : Loc) (kind : Str) : Set Loc :=
  {x | ∃ random, x = tmp ++ [temporaryName kind h.pid random]}

theorem tempNames_subset {kind : Str} : tempNames h tmp kind ⊆ inTmp tmp := by
  rintro _ ⟨random, rfl⟩
  exact ⟨_, rfl⟩

theorem temporary_spec {kind : Str} {E : Error → World → Prop} :
    (temporary tmp kind).wp h w (fun path w' => Same w w'
      ∧ ∃ random, path = tmp ++ [temporaryName kind h.pid random]) E :=
  ⟨⟨rfl, rfl⟩, _, rfl⟩

/-! ## Files -/

theorem Prepared.clean_after (hX : Apart root X)
    (hp : Prepared h true root (split p).dropLast w w₁ restores) (hc : Clean h w.disk root p)
    (heff : Effect root p X w₁ w₂) (hst : Steady root p w₁ w₂) : Clean h w₂.disk root p where
  accepted := hc.accepted
  canonical := hc.canonical
  reach := ⟨hc.reach.noFault, fun hi hne => by
    rw [hp.frame_above hX hc.accepted heff hi hne]; exact hc.reach.search hi hne⟩
  parents := fun {c} hin => by
    rw [Disk.IsDir, hst c hin (by rintro rfl; exact hc.target_notMem hin)]
    exact hp.dir_or_none hin

/-- The last step of both file operations. -/
theorem setInstalled_spec {permissions : Option U16} {bytes : List Byte} {w₃ : World}
    (hi : Inside h true root p X w w₁ restores) (hgood : G → Clean h w.disk root p)
    (heff : Effect root p X w₁ w₃) (hst : Steady root p w₁ w₃) (hfile : FileAt root p bytes w₃.disk) :
    (setLocalFilePermissions root p permissions).wp h w₃
      (fun _ w₄ => Effect root p X w₁ w₄ ∧ Steady root p w₁ w₄ ∧ target root p ∉ chain root p
        ∧ (∀ x ∈ X, w₄.disk.get x = w₃.disk.get x)
        ∧ ∃ c m t, c.val = bytes ∧ w₄.disk.get (target root p) = some (.file c m t)
          ∧ ∀ mode, permissions = some mode → m = mode.setWidth 12)
      (fun _ w₄ => Effect root p X w₁ w₄ ∧ ¬ G) := by
  have hroot₃ : w₃.disk.IsDir root :=
    heff.dir root_mem_chain (Ne.symm (target_ne_root hi.accepted)) (hi.prepared.root_isDir hi.isDir)
  obtain ⟨hchain, c, m, t, hc, hget⟩ := hfile
  refine wp_mono (setLocalPermissions_spec hroot₃) ?_ ?_
  · rintro _ w₄ ⟨heff₄, hst₄, hmode⟩
    refine ⟨heff.trans (heff₄.mono (Set.empty_subset _)), hst.trans hst₄, hchain, fun x hx => ?_, ?_⟩
    · obtain ⟨hx', hx''⟩ := notMem_chain_of_apart (p := p) hi.apart hx
      exact heff₄.changes.frame (by rintro ((hin | hin) | hin)
                                    · exact hx' hin
                                    · exact hx'' hin
                                    · exact hin)
    · cases permissions with
      | none => exact ⟨c, m, t, hc, by rw [← hget]; exact hmode hchain, fun _ hm => by cases hm⟩
      | some mode =>
          obtain ⟨node, hnode, -, hget'⟩ := hmode hchain
          rw [hget] at hnode
          cases hnode
          exact ⟨c, _, t, hc, hget', fun _ hm => by cases hm; rfl⟩
  · rintro e w₄ ⟨heff₄, hno⟩
    refine ⟨heff.trans (heff₄.mono (Set.empty_subset _)), fun hg => hno ⟨?_, _, hget, rfl⟩⟩
    exact hi.prepared.clean_after hi.apart (hgood hg) heff hst

section Staged

variable {name : Str} {permissions : Option U16}

theorem unlinkStaged_spec {text : String} {w₃ : World} {node : Node}
    (hi : InsideStaged h root tmp name p X w w₁ restores) (hgood : G → StagingOpen h w.disk tmp)
    (heff : Effect root p X w₁ w₃) (hst : Steady root p w₁ w₃)
    (hnode : w₃.disk.get (tmp ++ [name]) = some node) (hdir : node.isDir = false) :
    (context text (unlink (tmp ++ [name]))).wp h w₃
      (fun _ w₄ => Effect root p X w₁ w₄ ∧ Steady root p w₁ w₄
        ∧ Sets w₃.disk (tmp ++ [name]) none w₄.disk)
      (fun _ w₄ => Effect root p X w₁ w₄ ∧ ¬ G) := by
  have heff₃ : Effect root p X w w₃ := (hi.prepared.effect List.prefix_rfl).trans heff
  have hS₃ := hi.staging.of_effect hi.within heff₃
  rw [wp_context]
  refine wp_conseq (unlink_spec (hS₃.direct hi.isName)) ?_
  rw [hS₃.names hi.isName]
  rintro r w₄ (⟨rfl, -, hdid⟩ | ⟨kind, rfl, hsame, hno⟩)
  · exact ⟨heff.trans (.of_staged (hi.staging.apart hi.within) hi.mem hdid),
      hst.trans (.of_staged (hi.staging.apart hi.within) hi.mem hdid.sets), hdid.sets⟩
  · refine ⟨heff.trans (.of_same hsame), fun hg => hno ⟨?_, node, hnode, hdir⟩⟩
    exact ((hgood hg).of_effect hi.staging hi.within heff₃).ready hi.isName

/-- A staged file onto a cleared target, by a rename or by `op`, which puts its bytes there. -/
theorem installFile_spec {text text'' : String} {op : Fs Unit} {c : Content} {m : Mode} {t : U64}
    {w₃ : World} (hi : InsideStaged h root tmp name p X w w₁ restores)
    (hw : Writing root p X w₁ w₃ w₃) (hnode : w₃.disk.get (tmp ++ [name]) = some (.file c m t))
    (hgood : G → Clean h w.disk root p ∧ StagingOpen h w.disk tmp)
    (hop : ∀ {w₄ w₅}, w₄.disk = w₃.disk → Writing root p X w₁ w₄ w₅ →
      (G → TargetWritable h w₅.disk (target root p)) →
      op.wp h w₅ (fun _ w₆ => Writing root p X w₁ w₄ w₆ ∧ FileAt root p c.val w₆.disk)
        (fun _ w₆ => Writing root p X w₁ w₄ w₆ ∧ ¬ G)) :
    (install text (tmp ++ [name]) (root ++ split p) do
        withWritableCrossDeviceTarget (root ++ split p) permissions op
        context text'' (unlink (tmp ++ [name]))).wp h w₃
      (fun _ w₄ => Effect root p X w₁ w₄ ∧ Steady root p w₁ w₄ ∧ FileAt root p c.val w₄.disk
        ∧ ∀ y ∈ X, w₄.disk.get y = if tmp ++ [name] = y then none else w₃.disk.get y)
      (fun _ w₄ => Effect root p X w₁ w₄ ∧ ¬ G) := by
  have hne : ∀ {y}, y ∈ X → y ≠ target root p := fun hy => (notMem_chain_of_apart hi.apart hy).2
  have hnodir : ¬ w₃.disk.IsDir (target root p) := by
    rintro ⟨m, hm⟩
    rcases hw.file with hnone | ⟨c, m', t, hf⟩
    · rw [hm] at hnone; cases hnone
    · rw [hm] at hf; cases hf
  refine wp_conseq (install_spec
    (Q := fun w₅ => Effect root p X w₁ w₅ ∧ Steady root p w₁ w₅ ∧ FileAt root p c.val w₅.disk
      ∧ ∀ y ∈ X, w₅.disk.get y = if tmp ++ [name] = y then none else w₃.disk.get y)
    hi hw.effect hw.steady hnode rfl
    (fun hg => ⟨(hgood hg).1, (hgood hg).2, hnodir⟩) fun {w₄} hsame => ?_) ?_
  · have hw₄ : Writing root p X w₁ w₄ w₄ :=
      ⟨(hw.then_same hsame).effect, (hw.then_same hsame).steady, fun _ _ => rfl,
        (hw.then_same hsame).file⟩
    refine wp_then (withWritableCrossDeviceTarget_spec c.val hi.toInside
      (fun hg => (hgood hg).1) hw₄ (hop hsame.disk)) ?_
    rintro _ w₅ ⟨hw₅, hchain, c', m', t', hc', hget'⟩
    refine wp_conseq (unlinkStaged_spec hi (fun hg => (hgood hg).2) hw₅.effect
      hw₅.steady (by rw [hw₅.off _ (hne hi.mem), hsame.disk, hnode]) rfl) ?_
    rintro _ w₆ ⟨heff₆, hst₆, hsets₆⟩
    refine ⟨heff₆, hst₆, ⟨hchain, c', m', t', hc', (hsets₆.off (hne hi.mem)).trans hget'⟩, fun y hy => ?_⟩
    rw [hsets₆ y, hw₅.off _ (hne hy), hsame.disk]
  · rintro _ w₄ (⟨heff₄, hst₄, hchain, hmoved⟩ | hq)
    · refine ⟨heff₄, hst₄, ⟨hchain, c, m, t, rfl, by rw [hmoved, if_pos rfl]⟩, fun y hy => ?_⟩
      rw [hmoved, if_neg (hne hy).symm]
    · exact hq

theorem installStaged_spec {text text' text'' : String} {c : Content} {m : Mode} {t : U64}
    {w₃ : World} (hi : InsideStaged h root tmp name p X w w₁ restores)
    (hw : Writing root p X w₁ w₃ w₃) (hnode : w₃.disk.get (tmp ++ [name]) = some (.file c m t))
    (hgood : G → Clean h w.disk root p ∧ StagingOpen h w.disk tmp ∧ h.canRead m = true) :
    (install text (tmp ++ [name]) (root ++ split p) do
        withWritableCrossDeviceTarget (root ++ split p) permissions
          (context text' (copyFile (tmp ++ [name]) (root ++ split p)))
        context text'' (unlink (tmp ++ [name]))).wp h w₃
      (fun _ w₄ => Effect root p X w₁ w₄ ∧ Steady root p w₁ w₄ ∧ FileAt root p c.val w₄.disk
        ∧ w₄.disk.get (tmp ++ [name]) = none)
      (fun _ w₄ => Effect root p X w₁ w₄ ∧ ¬ G) := by
  refine wp_conseq (installFile_spec hi hw hnode
    (fun hg => ⟨(hgood hg).1, (hgood hg).2.1⟩) fun {w₄ w₅} hdisk hw₅ hwritable => ?_) ?_
  · rw [wp_context]
    refine wp_conseq (copyFileTarget_spec hi hw₅ (by rw [hdisk, hnode])
      fun hg => ⟨(hgood hg).1, hwritable hg, (hgood hg).2⟩) ?_
    rintro r w₆ ⟨hw₆, ⟨rfl, hfile⟩ | ⟨kind, rfl, hno⟩⟩
    · exact ⟨hw₆, hfile⟩
    · exact ⟨hw₆, hno⟩
  · rintro _ w₄ ⟨heff, hst, hfile, hi.apart⟩
    exact ⟨heff, hst, hfile, by rw [hi.apart _ hi.mem, if_pos rfl]⟩

/-- A staged file that can be installed. -/
def Installable (h : Host) (d : Disk) (x : Loc) : Prop :=
  ∃ c m t, d.get x = some (.file c m t) ∧ h.canRead m = true

/-- What installing a staged file leaves. -/
def StagedInstalled (root : Loc) (p : Str) (x : Loc) (permissions : Option U16) (d d' : Disk) :
    Prop :=
  target root p ∉ chain root p ∧ d'.get x = none
    ∧ ∃ c m t m' t', d.get x = some (.file c m t) ∧ d'.get (target root p) = some (.file c m' t')
      ∧ ∀ mode, permissions = some mode → m' = mode.setWidth 12

theorem writeLocalStagedFile_spec (hS : Staging root tmp w.disk) (hn : isFileName name = true)
    (hroot : w.disk.IsDir root) :
    (writeLocalStagedFile root p (tmp ++ [name]) permissions).wp h w
      (fun _ w' => Finished true root p {tmp ++ [name]} w w'
        ∧ StagedInstalled root p (tmp ++ [name]) permissions w.disk w'.disk)
      (fun _ w' => Effect root p {tmp ++ [name]} w w' ∧ ¬ (Replaceable h w.disk root p
        ∧ StagingOpen h w.disk tmp ∧ Installable h w.disk (tmp ++ [name]))) := by
  have hXs : ({tmp ++ [name]} : Set Loc) ⊆ inTmp tmp := by rintro _ rfl; exact ⟨name, rfl⟩
  have hX := hS.apart hXs
  have hx : tmp ++ [name] ∈ ({tmp ++ [name]} : Set Loc) := rfl
  have hxc : tmp ++ [name] ∉ chain root p := (notMem_chain_of_apart hX hx).1
  have hxt : tmp ++ [name] ≠ target root p := (notMem_chain_of_apart hX hx).2
  refine wp_conseq (onTarget_spec
    (R := fun _ w₁ w₂ => StagedInstalled root p (tmp ++ [name]) permissions w₁.disk w₂.disk)
    hX hroot (fun hg => hg.1.clean) fun {w₁ restores} hi => ?_) ?_
  · have hclean : (Replaceable h w.disk root p ∧ StagingOpen h w.disk tmp
        ∧ Installable h w.disk (tmp ++ [name])) → Clean h w.disk root p := fun hg => hg.1.clean
    have hstart : w₁.disk.get (tmp ++ [name]) = w.disk.get (tmp ++ [name]) := hi.prepared.changes.frame hxc
    refine wp_then (clearForFile_spec hi And.left) ?_
    rintro _ w₂ ⟨heff₂, hst₂, o, hsets, ho⟩
    have heffw₂ : Effect root p _ w w₂ := (hi.prepared.effect List.prefix_rfl).trans heff₂
    have hS₂ := hS.of_effect hXs heffw₂
    have hstaged₂ : w₂.disk.get (tmp ++ [name]) = w₁.disk.get (tmp ++ [name]) :=
      hsets.off (Ne.symm hxt)
    refine wp_context_then (lstat_spec (hS₂.direct hn)) ?_
    rintro (kind | node) w₃ hlook
    · refine ⟨heff₂.trans (.of_same hlook.same), fun hg => ?_⟩
      by_cases hk : kind = .notFound
      · subst hk
        obtain ⟨c, m, t, hget, -⟩ := hg.2.2
        have := hlook.missing rfl
        rw [hS₂.names hn, hstaged₂, hstart, hget] at this
        cases this
      · exact hlook.blocked rfl hk (((hg.2.1.of_effect hS hXs heffw₂).ready hn).smooth)
    · have hnode := hlook.ok rfl
      rw [hS₂.names hn, hstaged₂] at hnode
      have heff₃ := heff₂.trans (.of_same hlook.same)
      have hst₃ := hst₂.trans (.of_same hlook.same)
      have notFile : node.isFile = false → Effect root p {tmp ++ [name]} w₁ w₃
          ∧ ¬ (Replaceable h w.disk root p ∧ StagingOpen h w.disk tmp
            ∧ Installable h w.disk (tmp ++ [name])) := by
        refine fun hkind => ⟨heff₃, ?_⟩
        rintro ⟨-, -, c, m, t, hget, -⟩
        rw [← hstart, hnode] at hget
        cases hget
        cases hkind
      cases node with
      | dir m => exact notFile rfl
      | symlink t => exact notFile rfl
      | special => exact notFile rfl
      | file c m t =>
          dsimp only
          rw [wp_bind]
          have hnode₃ : w₃.disk.get (tmp ++ [name]) = some (.file c m t) := by
            rw [hlook.same.disk, hstaged₂, hnode]
          have hw₃ : Writing root p {tmp ++ [name]} w₁ w₃ w₃ := by
            refine ⟨heff₃, hst₃, fun _ _ => rfl, ?_⟩
            rw [hlook.same.disk, hsets.at]
            exact ho
          refine wp_conseq (installStaged_spec ⟨hi, hS, hXs, hx, hn⟩ hw₃ hnode₃
            fun hg => ⟨hclean hg, hg.2.1, ?_⟩) ?_
          · obtain ⟨c', m', t', hget, hread⟩ := hg.2.2
            rw [← hstart, hnode] at hget
            cases hget
            exact hread
          · rintro _ w₄ ⟨heff₄, hst₄, hfile₄, hgone⟩
            refine wp_conseq (setInstalled_spec hi hclean heff₄ hst₄ hfile₄) ?_
            rintro _ w₅ ⟨heff₅, hst₅, hchain, hX₅, c', m', t', hc', hget', hmode⟩
            refine ⟨heff₅, hst₅, hchain, by rw [hX₅ _ hx, hgone], c, m, t, m', t', hnode, ?_, hmode⟩
            rw [hget', Subtype.ext hc']
  · rintro _ w' ⟨hfin, w₁, w₂, hstart, ⟨hchain, hgone, c, m, t, m', t', hget, hget', hmode⟩, hend⟩
    refine ⟨hfin, hchain, by rw [hend _ hxc, hgone], c, m, t, m', t', ?_, ?_, hmode⟩
    · rw [← hstart _ hxc, hget]
    · rw [hend _ hchain, hget']

end Staged

/-! ## Files from memory -/

theorem orRemove_spec {name : Str} {m : Fs Unit} {w₃ : World} {Q : World → Prop}
    (hi : InsideStaged h root tmp name p X w w₁ restores)
    (hm : m.wp h w₃ (fun _ => Q) (fun _ w₄ => Effect root p X w₁ w₄ ∧ ¬ G)) :
    (orRemove (tmp ++ [name]) m).wp h w₃ (fun _ => Q)
      (fun _ w₄ => Effect root p X w₁ w₄ ∧ ¬ G) := by
  unfold orRemove
  rw [wp_bind, wp_attempt]
  refine wp_mono hm (fun _ _ hq => hq) ?_
  rintro e w₄ ⟨heff, hno⟩
  have hS₄ := hi.staging.of_effect hi.within ((hi.prepared.effect List.prefix_rfl).trans heff)
  refine wp_then (unlink_spec (hS₄.direct hi.isName)) ?_
  rw [hS₄.names hi.isName]
  rintro r w₅ (⟨rfl, -, hdid⟩ | ⟨kind, rfl, hsame, -⟩)
  · exact ⟨heff.trans (.of_staged (hi.staging.apart hi.within) hi.mem hdid), hno⟩
  · exact ⟨heff.trans (.of_same hsame), hno⟩

section Bytes

variable {bytes : List Byte} {permissions : Option U16} {name : Str}

/-- Where files from memory are staged. -/
abbrev fileTemps (h : Host) (tmp : Loc) : Set Loc := tempNames h tmp "transfer".toList

def NoLinks (d : Disk) (X : Set Loc) : Prop := ∀ x ∈ X, ¬ d.IsLink x

theorem NoLinks.of_sets {d d' : Disk} {x : Loc} {o : Option Node} (hl : NoLinks d X)
    (hs : Sets d x o d') (ho : ∀ t, o ≠ some (.symlink t)) : NoLinks d' X := by
  rintro y hy ⟨t, ht⟩
  rw [hs y] at ht
  split at ht
  · exact ho t ht
  · exact hl y hy ⟨t, ht⟩

theorem stageBytes_spec {text : String} {w₃ : World}
    (hi : InsideStaged h root tmp name p X w w₁ restores) (heff : Effect root p X w₁ w₃)
    (hst : Steady root p w₁ w₃) (hlinks : NoLinks w₃.disk X) :
    (context text (writeFile (tmp ++ [name]) bytes)).wp h w₃
      (fun _ w₄ => Effect root p X w₁ w₄ ∧ Steady root p w₁ w₄ ∧ NoLinks w₄.disk X
        ∧ w₄.disk.get (target root p) = w₃.disk.get (target root p)
        ∧ ∃ c m t, c.val = bytes ∧ w₄.disk.get (tmp ++ [name]) = some (.file c m t))
      (fun _ w₄ => Effect root p X w₁ w₄ ∧ ¬ False) := by
  have hxt : tmp ++ [name] ≠ target root p := (notMem_chain_of_apart hi.apart hi.mem).2
  have hS₃ := hi.staging.of_effect hi.within ((hi.prepared.effect List.prefix_rfl).trans heff)
  have hbytes : ∀ bytes : List Byte, overwrite Content.empty.val 0 bytes = bytes := fun bytes => by
    simp [overwrite, Content.empty]
  unfold writeFile
  rw [wp_context, wp_attempt, wp_bind, wp_check]
  refine wp_conseq (openTruncate_spec (hS₃.direct hi.isName)
    (by rw [hS₃.names hi.isName]; exact hlinks _ hi.mem)) ?_
  rw [hS₃.names hi.isName]
  rintro r w₄ (⟨rfl, -, -, m, t, access, hdid⟩ | ⟨kind, rfl, hsame, -⟩)
  swap
  · exact ⟨heff.trans (.of_same hsame), not_false⟩
  have heff₄ : Effect root p X w₁ w₄ := heff.trans (.of_staged hi.apart hi.mem hdid)
  dsimp only
  rw [wp_check]
  refine wp_conseq (writeAt_spec hdid.sets.at) ?_
  simp only [hbytes]
  rintro r w₅ (⟨rfl, c, t', hc, hdid₅⟩ | ⟨kind, rfl, hsame | ⟨c, t', k, hc, hdid₅⟩, -⟩)
  · refine ⟨heff₄.trans (.of_staged hi.apart hi.mem hdid₅), ?_, ?_, ?_, c, m, t', hc, hdid₅.sets.at⟩
    · exact (hst.trans (.of_staged hi.apart hi.mem hdid.sets)).trans (.of_staged hi.apart hi.mem hdid₅.sets)
    · exact (hlinks.of_sets hdid.sets (by simp)).of_sets hdid₅.sets (by simp)
    · rw [hdid₅.sets.off hxt, hdid.sets.off hxt]
  · exact ⟨heff₄.trans (.of_same hsame), not_false⟩
  · exact ⟨heff₄.trans (.of_staged hi.apart hi.mem hdid₅), not_false⟩

theorem installBytes_spec {text text' text'' : String} {c : Content} {m : Mode} {t : U64}
    {w₃ : World} (hi : InsideStaged h root tmp name p X w w₁ restores)
    (hw : Writing root p X w₁ w₃ w₃) (hnode : w₃.disk.get (tmp ++ [name]) = some (.file c m t))
    (hlinks : NoLinks w₃.disk X) (hc : c.val = bytes) :
    (install text (tmp ++ [name]) (root ++ split p) do
        withWritableCrossDeviceTarget (root ++ split p) permissions
          (context text' (writeFile (root ++ split p) bytes))
        context text'' (unlink (tmp ++ [name]))).wp h w₃
      (fun _ w₄ => Effect root p X w₁ w₄ ∧ Steady root p w₁ w₄ ∧ FileAt root p bytes w₄.disk
        ∧ NoLinks w₄.disk X)
      (fun _ w₄ => Effect root p X w₁ w₄ ∧ ¬ False) := by
  subst hc
  refine wp_conseq (installFile_spec (G := False) hi hw hnode
    (fun hf => hf.elim) fun {w₄ w₅} _ hw₅ _ => ?_) ?_
  · rw [wp_context]
    refine wp_conseq (writeFileTarget_spec (G := False) hi.toInside hw₅ fun hf => hf.elim) ?_
    rintro r w₆ ⟨hw₆, ⟨rfl, hfile⟩ | ⟨kind, rfl, hno⟩⟩
    · exact ⟨hw₆, hfile⟩
    · exact ⟨hw₆, hno⟩
  · rintro _ w₄ ⟨heff, hst, hfile, hkept⟩
    refine ⟨heff, hst, hfile, ?_⟩
    rintro y hy ⟨t', ht'⟩
    rw [hkept y hy] at ht'
    split at ht'
    · cases ht'
    · exact hlinks y hy ⟨t', ht'⟩

theorem writeLocalFile_spec (hS : Staging root tmp w.disk) (hroot : w.disk.IsDir root)
    (hlinks : NoLinks w.disk (fileTemps h tmp)) :
    (writeLocalFile tmp root p bytes permissions).wp h w
      (fun _ w' => Finished true root p (fileTemps h tmp) w w' ∧ target root p ∉ chain root p
        ∧ NoLinks w'.disk (fileTemps h tmp)
        ∧ ∃ c m t, c.val = bytes ∧ w'.disk.get (target root p) = some (.file c m t)
          ∧ ∀ mode, permissions = some mode → m = mode.setWidth 12)
      (fun _ w' => Effect root p (fileTemps h tmp) w w') := by
  have hXs : fileTemps h tmp ⊆ inTmp tmp := tempNames_subset
  have hX := hS.apart hXs
  refine wp_mono (onTarget_spec (G := False)
    (R := fun _ w₁ w₂ => target root p ∉ chain root p ∧ NoLinks w₂.disk (fileTemps h tmp)
      ∧ ∃ c m t, c.val = bytes ∧ w₂.disk.get (target root p) = some (.file c m t)
        ∧ ∀ mode, permissions = some mode → m = mode.setWidth 12)
    hX hroot (fun hf => hf.elim) fun {w₁ restores} hi => ?_) ?_ (fun _ _ hf => hf.1)
  · refine wp_then (clearForFile_spec (G := False) hi fun hf => hf.elim) ?_
    rintro _ w₂ ⟨heff₂, hst₂, o, hsets, ho⟩
    refine wp_then temporary_spec ?_
    rintro path w₃ ⟨hsame, random, rfl⟩
    have his : InsideStaged h root tmp _ p (fileTemps h tmp) w w₁ restores :=
      ⟨hi, hS, hXs, ⟨random, rfl⟩, isFileName_temporaryName (by decide) (by decide)⟩
    have hlinks₃ : NoLinks w₃.disk (fileTemps h tmp) := fun y hy => by
      obtain ⟨hyc, hyt⟩ := notMem_chain_of_apart (p := p) hX hy
      rw [hsame.disk, Disk.IsLink, hsets.off (Ne.symm hyt), hi.prepared.changes.frame hyc]
      exact hlinks y hy
    have heff₃ := heff₂.trans (Effect.of_same hsame)
    have hst₃ := hst₂.trans (Steady.of_same hsame)
    refine wp_then (orRemove_spec (G := False)
      (Q := fun w₄ => Effect root p (fileTemps h tmp) w₁ w₄ ∧ Steady root p w₁ w₄
        ∧ FileAt root p bytes w₄.disk ∧ NoLinks w₄.disk (fileTemps h tmp)) his ?_) ?_
    · refine wp_then (stageBytes_spec his heff₃ hst₃ hlinks₃) ?_
      rintro _ w₄ ⟨heff₄, hst₄, hlinks₄, htarget, c, m, t, hc, hget⟩
      refine installBytes_spec his ⟨heff₄, hst₄, fun _ _ => rfl, ?_⟩ hget hlinks₄ hc
      rw [htarget, hsame.disk, hsets.at]
      exact ho
    · rintro _ w₄ ⟨heff₄, hst₄, hfile₄, hlinks₄⟩
      refine wp_conseq (setInstalled_spec (G := False) hi (fun hf => hf.elim)
        heff₄ hst₄ hfile₄) ?_
      rintro _ w₅ ⟨heff₅, hst₅, hchain, hX₅, hfile⟩
      refine ⟨heff₅, hst₅, hchain, fun y hy => ?_, hfile⟩
      rw [Disk.IsLink, hX₅ y hy]
      exact hlinks₄ y hy
  · rintro _ w' ⟨hfin, w₁, w₂, -, ⟨hchain, hlinks₂, c, m, t, hc, hget, hmode⟩, hend⟩
    refine ⟨hfin, hchain, fun y hy => ?_, c, m, t, hc, by rw [hend _ hchain, hget], hmode⟩
    rw [Disk.IsLink, hend _ (notMem_chain_of_apart hX hy).1]
    exact hlinks₂ y hy

end Bytes

/-! ## Links -/

section Links

variable {linkTarget : Str}

/-- Where links are staged. -/
abbrev linkTemps (h : Host) (tmp : Loc) : Set Loc := tempNames h tmp "symlink".toList

/-- No temporary name is taken. -/
def Unused (d : Disk) (X : Set Loc) : Prop := ∀ x ∈ X, d.get x = none

theorem symlinkTarget_spec {text : String} {w₃ : World} (hi : Inside h true root p X w w₁ restores)
    (hgood : G → Clean h w.disk root p) (heff : Effect root p X w₁ w₃) (hst : Steady root p w₁ w₃)
    (hnone : w₃.disk.get (target root p) = none) :
    (context text (symlink linkTarget (root ++ split p))).wp h w₃
      (fun _ w₄ => Effect root p X w₁ w₄ ∧ Steady root p w₁ w₄ ∧ target root p ∉ chain root p
        ∧ Sets w₃.disk (target root p) (some (.symlink linkTarget)) w₄.disk)
      (fun _ w₄ => Effect root p X w₁ w₄ ∧ ¬ G) := by
  rw [wp_context]
  refine wp_conseq (symlink_spec (hi.direct_after heff)) ?_
  rw [names_target hi.isDir]
  rintro r w₄ (⟨rfl, -, ⟨init, last, hpath, hlast⟩, hdid⟩ | ⟨kind, rfl, hsame, hno⟩)
  · have hchain : target root p ∉ chain root p := by
      obtain ⟨front, last', hs⟩ := exists_split_concat p
      rw [hs, ← List.append_assoc] at hpath
      have he : last' = last := (List.cons.inj (List.append_inj_right' hpath rfl)).1
      exact target_notMem_chain hs (he ▸ hlast)
    exact ⟨heff.trans (.of_target hdid fun hin => absurd hin hchain),
      hst.trans (.of_target hdid.sets), hchain, hdid.sets⟩
  · refine ⟨heff.trans (.of_same hsame), fun hg => hno ⟨?_, hnone⟩⟩
    exact hi.ready_after (hgood hg) heff hst (hi.prepared.parent_isDir (hgood hg) hst)

/-- A link staged under `name` and brought to the target. -/
theorem installLink_spec {text text' text'' : String} {name : Str} {w₃ : World}
    (hi : InsideStaged h root tmp name p X w w₁ restores) (heff : Effect root p X w₁ w₃)
    (hst : Steady root p w₁ w₃) (hnone : w₃.disk.get (target root p) = none)
    (hgood : G → Clean h w.disk root p ∧ StagingOpen h w.disk tmp ∧ Unused w₃.disk X) :
    (do context text (symlink linkTarget (tmp ++ [name]))
        install text' (tmp ++ [name]) (root ++ split p) do
          let _ ← unlink (tmp ++ [name])
          context text'' (symlink linkTarget (root ++ split p)) : Fs Unit).wp h w₃
      (fun _ w₄ => Effect root p X w₁ w₄ ∧ Steady root p w₁ w₄ ∧ target root p ∉ chain root p
        ∧ w₄.disk.get (target root p) = some (.symlink linkTarget)
        ∧ (G → Unused w₄.disk X))
      (fun _ w₄ => Effect root p X w₁ w₄ ∧ ¬ G) := by
  have hxt : tmp ++ [name] ≠ target root p := (notMem_chain_of_apart hi.apart hi.mem).2
  have hS₃ := hi.staging.of_effect hi.within ((hi.prepared.effect List.prefix_rfl).trans heff)
  refine wp_context_then (symlink_spec (hS₃.direct hi.isName)) ?_
  rw [hS₃.names hi.isName]
  rintro r w₄ (⟨rfl, -, -, hdid⟩ | ⟨kind, rfl, hsame, hno⟩)
  swap
  · refine ⟨heff.trans (.of_same hsame), fun hg => hno ⟨?_, (hgood hg).2.2 _ hi.mem⟩⟩
    exact ((hgood hg).2.1.of_effect hi.staging hi.within ((hi.prepared.effect List.prefix_rfl).trans heff)).ready hi.isName
  have heff₄ : Effect root p X w₁ w₄ := heff.trans (.of_staged hi.apart hi.mem hdid)
  have hst₄ : Steady root p w₁ w₄ := hst.trans (.of_staged hi.apart hi.mem hdid.sets)
  have hnone₄ : w₄.disk.get (target root p) = none := by rw [hdid.sets.off hxt, hnone]
  refine wp_conseq (install_spec
    (Q := fun w₅ => Effect root p X w₁ w₅ ∧ Steady root p w₁ w₅ ∧ target root p ∉ chain root p
      ∧ w₅.disk.get (target root p) = some (.symlink linkTarget) ∧ (G → Unused w₅.disk X))
    hi heff₄ hst₄ hdid.sets.at rfl
    (fun hg => ⟨(hgood hg).1, (hgood hg).2.1, by rintro ⟨m, hm⟩; rw [hnone₄] at hm; cases hm⟩)
    fun {w₅} hsame => ?_) ?_
  · -- across devices: the staged link is given up and a new one made
    have heff₅ := heff₄.trans (.of_same hsame)
    have hst₅ := hst₄.trans (.of_same hsame)
    have hS₅ := hi.staging.of_effect hi.within ((hi.prepared.effect List.prefix_rfl).trans heff₅)
    refine wp_then (unlink_spec (hS₅.direct hi.isName)) ?_
    rw [hS₅.names hi.isName]
    rintro r w₆ hunlink
    have hnext : Effect root p X w₁ w₆ ∧ Steady root p w₁ w₆
        ∧ w₆.disk.get (target root p) = none
        ∧ (G → Sets w₅.disk (tmp ++ [name]) none w₆.disk) := by
      rcases hunlink with ⟨rfl, -, hdid₆⟩ | ⟨kind, rfl, hsame₆, hno⟩
      · exact ⟨heff₅.trans (.of_staged hi.apart hi.mem hdid₆), hst₅.trans (.of_staged hi.apart hi.mem hdid₆.sets),
          by rw [hdid₆.sets.off hxt, hsame.disk, hnone₄], fun _ => hdid₆.sets⟩
      · refine ⟨heff₅.trans (.of_same hsame₆), hst₅.trans (.of_same hsame₆),
          by rw [hsame₆.disk, hsame.disk, hnone₄],
          fun hg => absurd ⟨?_, .symlink linkTarget, ?_, rfl⟩ hno⟩
        · exact ((hgood hg).2.1.of_effect hi.staging hi.within ((hi.prepared.effect List.prefix_rfl).trans heff₅)).ready hi.isName
        · rw [hsame.disk]
          exact hdid.sets.at
    obtain ⟨heff₆, hst₆, hnone₆, hgone⟩ := hnext
    refine wp_conseq (symlinkTarget_spec hi.toInside (fun hg => (hgood hg).1) heff₆ hst₆
      hnone₆) ?_
    rintro _ w₇ ⟨heff₇, hst₇, hchain, hsets₇⟩
    refine ⟨heff₇, hst₇, hchain, hsets₇.at, fun hg y hy => ?_⟩
    rw [hsets₇.off (Ne.symm (notMem_chain_of_apart hi.apart hy).2), hgone hg]
    split
    · rfl
    · rename_i hne
      rw [hsame.disk, hdid.sets.off hne]
      exact (hgood hg).2.2 y hy
  · rintro _ w₅ (⟨heff₅, hst₅, hchain, hmoved⟩ | hq)
    · refine ⟨heff₅, hst₅, hchain, by rw [hmoved, if_pos rfl], fun hg y hy => ?_⟩
      rw [hmoved, if_neg (Ne.symm (notMem_chain_of_apart hi.apart hy).2)]
      split
      · rfl
      · rename_i hne
        rw [hdid.sets.off hne]
        exact (hgood hg).2.2 y hy
    · exact hq

theorem writeLocalSymlink_spec (hS : Staging root tmp w.disk) (hroot : w.disk.IsDir root) :
    (writeLocalSymlink tmp root p linkTarget).wp h w
      (fun _ w' => Finished true root p (linkTemps h tmp) w w' ∧ target root p ∉ chain root p
        ∧ w'.disk.get (target root p) = some (.symlink linkTarget)
        ∧ (Replaceable h w.disk root p ∧ StagingOpen h w.disk tmp
            ∧ Unused w.disk (linkTemps h tmp) → Unused w'.disk (linkTemps h tmp)))
      (fun _ w' => Effect root p (linkTemps h tmp) w w' ∧ ¬ (Replaceable h w.disk root p
        ∧ StagingOpen h w.disk tmp ∧ Unused w.disk (linkTemps h tmp)
        ∧ ¬ (linkTarget = [] ∨ utf8Len linkTarget > 4096 ∨ '\x00' ∈ linkTarget))) := by
  have hXs : linkTemps h tmp ⊆ inTmp tmp := tempNames_subset
  have hX := hS.apart hXs
  unfold writeLocalSymlink
  rw [wp_bind]
  cases hv : validateManifestPath p with
  | error e =>
      refine ⟨.refl, fun hg => ?_⟩
      rw [validateManifestPath_eq_ok.mpr hg.1.clean.accepted] at hv
      cases hv
  | ok u =>
      rw [wp_ofExcept_ok, wp_bind]
      by_cases hbad : linkTarget = [] ∨ utf8Len linkTarget > 4096 ∨ '\x00' ∈ linkTarget
      · rw [Check.rejectIf, if_pos hbad]
        exact ⟨.refl, fun hg => hg.2.2.2 hbad⟩
      · rw [Check.rejectIf, if_neg hbad, wp_ofExcept_ok]
        refine wp_mono (onTarget_spec
          (G := Replaceable h w.disk root p ∧ StagingOpen h w.disk tmp
            ∧ Unused w.disk (linkTemps h tmp))
          (R := fun _ w₁ w₂ => target root p ∉ chain root p
            ∧ w₂.disk.get (target root p) = some (.symlink linkTarget)
            ∧ (Replaceable h w.disk root p ∧ StagingOpen h w.disk tmp
              ∧ Unused w.disk (linkTemps h tmp) → Unused w₂.disk (linkTemps h tmp)))
          hX hroot (fun hg => hg.1.clean) fun {w₁ restores} hi => ?_) ?_ ?_
        · refine wp_then (clearForSymlink_spec hi And.left) ?_
          rintro _ w₂ ⟨heff₂, hst₂, hsets⟩
          refine wp_then temporary_spec ?_
          rintro path w₃ ⟨hsame, random, rfl⟩
          have his : InsideStaged h root tmp _ p (linkTemps h tmp) w w₁ restores :=
            ⟨hi, hS, hXs, ⟨random, rfl⟩, isFileName_temporaryName (by decide) (by decide)⟩
          refine orRemove_spec his (installLink_spec his (heff₂.trans (.of_same hsame)) (hst₂.trans (.of_same hsame))
            (by rw [hsame.disk, hsets.at]) fun hg => ⟨hg.1.clean, hg.2.1, fun y hy => ?_⟩)
          obtain ⟨hyc, hyt⟩ := notMem_chain_of_apart (p := p) hX hy
          rw [hsame.disk, hsets.off (Ne.symm hyt), hi.prepared.changes.frame hyc]
          exact hg.2.2 y hy
        · rintro _ w' ⟨hfin, w₁, w₂, -, ⟨hchain, hget, hfresh⟩, hend⟩
          refine ⟨hfin, hchain, by rw [hend _ hchain, hget], fun hg y hy => ?_⟩
          rw [hend _ (notMem_chain_of_apart hX hy).1]
          exact hfresh hg y hy
        · exact fun e w' hf => ⟨hf.1, fun hg => hf.2 ⟨hg.1, hg.2.1, hg.2.2.1⟩⟩

end Links

end Install

end Syncbox

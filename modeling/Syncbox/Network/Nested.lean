/-
# `Syncbox.Network.Nested` — a bracket within a bracket

`write_local_staged_file` runs inside `with_writable_parents`, and its last step,
`set_local_file_permissions`, opens the same parents once more.  The inner use is harmless:
it finds the parents as the outer one left them and leaves them so.  What decides is the
step before: a directory at the target is removed to make way.

The target of an accepted path is one of its own parents when the path ends in slashes.
Such a directory is prepared, removed, and then missed by the walk that puts the modes back.
`Swallowed` says when this happens; in every other case the body leaves each directory on
the way as it was, whatever the staged path leads to.
-/
import Syncbox.Lib.Unix.Dirs
import Syncbox.Network.Bracket
import Syncbox.Network.LocalSpec

namespace Syncbox

open Rust Unix Prog

/-! ## The steps on a target that has made way -/

/-- Nothing, or a file. -/
def FreeForFile (d : Disk) (loc : Loc) : Prop := d.get loc = none ∨ ∃ c m t, d.get loc = some (.file c m t)

section Free

variable {d d' : Disk} {loc : Loc} {path : PathBuf}

theorem FreeForFile.not_link (hf : FreeForFile d loc) : ¬ d.IsLink loc := by
  rintro ⟨t, ht⟩
  rcases hf with hf | ⟨c, m, t, hf⟩ <;> rw [hf] at ht <;> cases ht

theorem FreeForFile.not_dir (hf : FreeForFile d loc) : ¬ d.IsDir loc := by
  rintro ⟨m, hm⟩
  rcases hf with hf | ⟨c, m, t, hf⟩ <;> rw [hf] at hm <;> cases hm

theorem FreeForFile.after (hf : FreeForFile d loc) (hfiles : FilesOnly d d') : FreeForFile d' loc := by
  rcases hfiles loc with he | ⟨-, hfile⟩
  · rwa [FreeForFile, he]
  · exact .inr hfile

theorem direct_after (hd : Direct d path) (hfiles : FilesOnly d d') : Direct d' path :=
  ⟨hd.noDotDot, fun hi hne hl => hd.noLink hi hne (hfiles.link hl)⟩

end Free

section Steps

variable {h : Host} {w : World} {path staged : PathBuf} {permissions : Option U16}

theorem chmodFile_filesOnly {ε : Type} {E : ε → World → Prop} {mode : Mode}
    (hd : Direct w.disk path) (hfree : FreeForFile w.disk (names path)) :
    (chmod path mode : Prog Host ε World _).wp h w (fun _ w' => FilesOnly w.disk w'.disk) E := by
  refine wp_conseq (chmod_spec hd hfree.not_link) ?_
  rintro r w' (⟨-, node, hnode, hdid⟩ | ⟨kind, -, hsame, -⟩)
  · rcases hfree with hnone | ⟨c, m, t, hfile⟩
    · rw [hnone] at hnode
      cases hnode
    · rw [hfile] at hnode
      cases hnode
      exact .of_sets hdid.sets fun ⟨m', hm'⟩ => by rw [hfile] at hm'; cases hm'
  · exact .of_eq hsame.disk

theorem makeWritable_filesOnly (hd : Direct w.disk path) (hfree : FreeForFile w.disk (names path)) :
    (makeWritable path).wp h w (fun _ w' => FilesOnly w.disk w'.disk)
      (fun _ w' => FilesOnly w.disk w'.disk) := by
  unfold makeWritable
  refine wp_then lstat_disk ?_
  intro r w₁ hdisk
  rw [← hdisk] at hd hfree ⊢
  cases r with
  | error kind => cases kind <;> exact .refl _
  | ok node =>
      cases node with
      | file c m t =>
          refine wp_ite (fun _ => ?_) fun _ => .refl _
          refine wp_then (chmodFile_filesOnly hd hfree) ?_
          intro r w₂ hfiles
          cases r with
          | ok u => exact hfiles
          | error kind => exact wp_ite (fun _ => hfiles) fun _ => hfiles
      | dir m => exact .refl _
      | symlink t => exact .refl _
      | special => exact .refl _

theorem restoreFile_filesOnly {o : Option Mode} (hd : Direct w.disk path)
    (hfree : FreeForFile w.disk (names path)) :
    (restoreFilePermissions path o).wp h w (fun _ w' => FilesOnly w.disk w'.disk)
      (fun _ w' => FilesOnly w.disk w'.disk) := by
  cases o with
  | none => exact .refl _
  | some mode =>
      unfold restoreFilePermissions
      rw [wp_context]
      refine wp_conseq (chmodFile_filesOnly hd hfree) ?_
      intro r w₁ hfiles
      cases r <;> exact hfiles

theorem fillFile_filesOnly {file reader : Loc} {mode : Mode} {c : Content} {m : Mode} {t : U64}
    (hget : w.disk.get file = some (.file c m t)) :
    (do let _ ← Prog.check (fstat file)
        Prog.check (fchmod file mode)
        let content ← Prog.check (readAll reader)
        Prog.check (writeAt file 0 content.val) : Prog Host IoKind World Unit).wp h w
      (fun _ w' => FilesOnly w.disk w'.disk) (fun _ w' => FilesOnly w.disk w'.disk) := by
  have hput : ∀ {d d' : Disk} {c c' : Content} {m m' : Mode} {t t' : U64},
      d.get file = some (.file c m t) → Sets d file (some (.file c' m' t')) d' → FilesOnly d d' :=
    fun hfile hsets => .of_sets hsets fun ⟨_, hdir⟩ => by rw [hfile] at hdir; cases hdir
  rw [wp_bind, wp_check]
  refine wp_conseq fstat_disk ?_
  intro r w₁ hdisk
  rw [← hdisk] at hget ⊢
  cases r with
  | error kind => exact .refl _
  | ok node =>
      dsimp only
      rw [wp_bind, wp_check]
      refine wp_conseq fchmod_spec ?_
      rintro r w₂ (⟨rfl, node, hnode, hdid⟩ | ⟨kind, rfl, hsame, -⟩)
      · rw [hget] at hnode
        cases hnode
        have hfiles := hput hget hdid.sets
        have hget₂ := hdid.sets.at
        dsimp only
        rw [wp_bind, wp_check]
        refine wp_conseq readAll_disk ?_
        intro r w₃ hdisk₃
        rw [← hdisk₃] at hfiles hget₂
        cases r with
        | error kind => exact hfiles
        | ok content =>
            dsimp only
            rw [wp_check]
            refine wp_conseq (writeAt_spec hget₂) ?_
            rintro r w₄ (⟨rfl, c', t', -, hdid⟩ | ⟨kind, rfl, hsame | ⟨c', t', k, -, hdid⟩, -⟩)
            · exact hfiles.trans (hput hget₂ hdid.sets)
            · exact hfiles.trans (.of_eq hsame.disk)
            · exact hfiles.trans (hput hget₂ hdid.sets)
      · exact .of_eq hsame.disk

/-- The copy writes to the target alone, and only if its path ends in a name. -/
theorem copyFile_filesOnly {E : Error → World → Prop} (hd : Direct w.disk path)
    (hfree : FreeForFile w.disk (names path)) :
    (copyFile staged path).wp h w (fun r w' => FilesOnly w.disk w'.disk
      ∧ (r = .ok () → ∃ init name, path = init ++ [name] ∧ isName name = true)) E := by
  have hfail : ∀ {w' : World} {kind : IoKind}, w'.disk = w.disk → FilesOnly w.disk w'.disk
      ∧ ((.error kind : Except IoKind Unit) = .ok () →
        ∃ init name, path = init ++ [name] ∧ isName name = true) :=
    fun hdisk => ⟨.of_eq hdisk, fun hk => by cases hk⟩
  unfold copyFile
  rw [wp_attempt, wp_bind, wp_check]
  refine wp_conseq openRead_disk ?_
  intro r w₁ hdisk₁
  cases r with
  | error kind => exact hfail hdisk₁
  | ok reader =>
      dsimp only
      rw [wp_bind, wp_check]
      refine wp_conseq fstat_disk ?_
      intro r w₂ hdisk₂
      have hdisk : w₂.disk = w.disk := hdisk₂.trans hdisk₁
      cases r with
      | error kind => exact hfail hdisk
      | ok node =>
          cases node with
          | file c mode t =>
              dsimp only
              rw [wp_bind, wp_check]
              refine wp_conseq (openTruncate_spec (by rwa [hdisk])
                (by rw [hdisk]; exact hfree.not_link)) ?_
              rintro r w₃ (⟨rfl, -, hends, m, t', access, hdid⟩ | ⟨kind, rfl, hsame, -⟩)
              · have hopen : FilesOnly w.disk w₃.disk := by
                  have hsets := hdid.sets
                  rw [hdisk] at hsets
                  exact .of_sets hsets hfree.not_dir
                refine wp_mono (fillFile_filesOnly hdid.sets.at) ?_ ?_
                · exact fun _ _ hfill => ⟨hopen.trans hfill, fun _ => hends⟩
                · exact fun _ _ hfill => ⟨hopen.trans hfill, fun hk => by cases hk⟩
              · exact hfail (hsame.disk.trans hdisk)
          | dir m => exact hfail hdisk
          | symlink t => exact hfail hdisk
          | special => exact hfail hdisk

theorem crossing_fixed {text text' : String} (hd : Direct w.disk path)
    (hfree : FreeForFile w.disk (names path)) :
    (do withWritableCrossDeviceTarget path permissions (context text (copyFile staged path))
        context text' (unlink staged) : Fs Unit).wp h w
      (fun _ w' => DirsFixed w.disk w'.disk
        ∧ ∃ init name, path = init ++ [name] ∧ isName name = true)
      (fun _ w' => DirsFixed w.disk w'.disk) := by
  unfold withWritableCrossDeviceTarget
  rw [wp_bind, wp_bind]
  refine wp_mono (makeWritable_filesOnly hd hfree) ?_ fun _ _ hfiles => hfiles.fixed
  intro o w₁ hfiles₁
  rw [wp_bind, wp_attempt, wp_context]
  refine wp_conseq (copyFile_filesOnly (direct_after hd hfiles₁) (hfree.after hfiles₁)) ?_
  rintro r w₂ ⟨hfiles₂, hends⟩
  have hfiles₂ := hfiles₁.trans hfiles₂
  have hrestore : (restoreFilePermissions path o).wp h w₂
      (fun _ w₃ => FilesOnly w.disk w₃.disk) (fun _ w₃ => FilesOnly w.disk w₃.disk) :=
    wp_mono (restoreFile_filesOnly (direct_after hd hfiles₂) (hfree.after hfiles₂))
      (fun _ _ hfiles => hfiles₂.trans hfiles) fun _ _ hfiles => hfiles₂.trans hfiles
  cases r with
  | error kind =>
      refine wp_ite (fun _ => ?_) fun _ => hfiles₂.fixed
      exact wp_seq hrestore (fun _ _ hfiles => hfiles.fixed) fun _ _ hfiles => hfiles.fixed
  | ok u =>
      have hunlink : ∀ {w₃ : World}, FilesOnly w.disk w₃.disk →
          (context text' (unlink staged)).wp h w₃ (fun _ w' => DirsFixed w.disk w'.disk
            ∧ ∃ init name, path = init ++ [name] ∧ isName name = true)
            (fun _ w' => DirsFixed w.disk w'.disk) := by
        intro w₃ hfiles₃
        rw [wp_context]
        refine wp_conseq unlink_fixed ?_
        intro r w₄ hfixed
        cases r with
        | ok u => exact ⟨hfiles₃.fixed.trans hfixed, hends rfl⟩
        | error kind => exact hfiles₃.fixed.trans hfixed
      refine wp_ite (fun _ => ?_) fun _ => hunlink hfiles₂
      exact wp_seq hrestore (fun _ _ hfiles => hunlink hfiles) fun _ _ hfiles => hfiles.fixed

/-- A staged file that was installed has a target whose path ends in a name. -/
theorem installStaged_fixed {text text' text'' : String} (hd : Direct w.disk path)
    (hfree : FreeForFile w.disk (names path)) :
    (install text staged path do
        withWritableCrossDeviceTarget path permissions (context text' (copyFile staged path))
        context text'' (unlink staged)).wp h w
      (fun _ w' => DirsFixed w.disk w'.disk
        ∧ ∃ init name, path = init ++ [name] ∧ isName name = true)
      (fun _ w' => DirsFixed w.disk w'.disk) := by
  unfold install
  refine wp_then (rename_fixed hd) ?_
  rintro r w₁ (⟨rfl, hmoved⟩ | ⟨kind, rfl, hdisk⟩)
  · exact hmoved
  · rw [← hdisk] at hd hfree ⊢
    cases kind with
    | crossesDevices => exact crossing_fixed hd hfree
    | _ => exact .refl _

/-- What makes way is at the target.  A directory that does was empty, and its path ends in
a name or in slashes. -/
theorem clearForFile_clears {text : String} (hd : Direct w.disk path) :
    (clearForFile text path).wp h w
      (fun _ w' => FreeForFile w'.disk (names path)
        ∧ (∀ l, l ≠ names path → w'.disk.get l = w.disk.get l)
        ∧ (w.disk.IsDir (names path) →
          ((∃ init name, path = init ++ [name] ∧ isName name = true) ∨ Slashed path)
            ∧ ∀ child, w.disk.get (names path ++ [child]) = none))
      (fun _ w' => w'.disk = w.disk) := by
  unfold clearForFile
  refine wp_then (lstat_spec hd) ?_
  intro r w₁ hlook
  have hdisk := hlook.same.disk
  cases r with
  | error kind =>
      cases kind with
      | notFound =>
          have hnone := hlook.missing rfl
          refine ⟨.inl (by rw [hdisk]; exact hnone), fun _ _ => by rw [hdisk], ?_⟩
          rintro ⟨m, hm⟩
          rw [hnone] at hm
          cases hm
      | _ => exact hdisk
  | ok node =>
      have hnode := hlook.ok rfl
      cases node with
      | dir m =>
          show (context _ (rmdir path)).wp h w₁ _ _
          rw [← hdisk, wp_context]
          rw [← hdisk] at hd
          refine wp_mono (wp_both (rmdir_spec (E := fun _ _ => False) hd)
            (rmdir_ends (E := fun _ _ => False) hd)) ?_ fun _ _ hf => hf.1.elim
          rintro r w₂ ⟨⟨rfl, -, hdid⟩ | ⟨kind, rfl, hsame, -⟩, hends⟩
          · exact ⟨.inl hdid.sets.at, fun l hl => hdid.sets.off (Ne.symm hl), fun _ => hends rfl⟩
          · exact hsame.disk
      | symlink t =>
          show (context _ (unlink path)).wp h w₁ _ _
          rw [← hdisk, wp_context]
          rw [← hdisk] at hd hnode
          refine wp_conseq (unlink_spec hd) ?_
          rintro r w₂ (⟨rfl, -, hdid⟩ | ⟨kind, rfl, hsame, -⟩)
          · refine ⟨.inl hdid.sets.at, fun l hl => hdid.sets.off (Ne.symm hl), ?_⟩
            rintro ⟨m, hm⟩
            rw [hnode] at hm
            cases hm
          · exact hsame.disk
      | file c m t =>
          refine ⟨.inr ⟨c, m, t, by rw [hdisk]; exact hnode⟩, fun _ _ => by rw [hdisk], ?_⟩
          rintro ⟨m, hm⟩
          rw [hnode] at hm
          cases hm
      | special => exact hdisk

end Steps

/-! ## The inner bracket -/

section Inner

variable {h : Host} {root : Loc} {p : Str} {w w₁ w₂ : World} {restores : List PermissionRestore}
  {create : Bool} {permissions : Option U16}

theorem Unlocked.wayKept (ho : Unlocked h create root (split p).dropLast w w₁ restores)
    (hfixed : DirsFixed w₁.disk w₂.disk) :
    WayKept root (split p).dropLast w.disk w₁.disk w₂.disk := by
  intro l _ hdir
  obtain ⟨m, hm⟩ := ho.dir hdir
  rw [hm, hfixed]
  exact hm

theorem Unlocked.direct (ho : Unlocked h create root (split p).dropLast w w₁ restores)
    (hroot : w.disk.IsDir root) (hacc : Accepted p) : Direct w₁.disk (root ++ split p) :=
  Inside.direct_after ⟨ho.prepared, hroot, hacc, apart_empty⟩ .refl

theorem setPermissions_fixed {target : PathBuf} {mode : U16} (hd : Direct w.disk target) :
    (setPermissions target mode false).wp h w (fun _ w' => DirsFixed w.disk w'.disk)
      (fun _ w' => DirsFixed w.disk w'.disk) := by
  unfold setPermissions
  refine wp_context_then (lstat_spec hd) ?_
  intro r w₁ hlook
  have hdisk := hlook.same.disk
  cases r with
  | error kind => exact .of_eq hdisk
  | ok node =>
      have hnode := hlook.ok rfl
      cases node with
      | file c m t =>
          refine wp_ite (fun _ => .of_eq hdisk) fun _ => ?_
          rw [← hdisk, wp_context]
          rw [← hdisk] at hd hnode
          refine wp_conseq (chmodFile_filesOnly hd (.inr ⟨c, m, t, hnode⟩)) ?_
          intro r w₂ hfiles
          cases r <;> exact hfiles.fixed
      | dir m => exact .of_eq hdisk
      | symlink t => exact .of_eq hdisk
      | special => exact .of_eq hdisk

theorem setLocalFilePermissions_keeps (hno : ∀ n, h.fault n = false) (hroot : w.disk.IsDir root) :
    (setLocalFilePermissions root p permissions).wp h w
      (fun _ w' => ModesKept root p w.disk w'.disk) (fun _ w' => ModesKept root p w.disk w'.disk) := by
  cases permissions with
  | none => exact fun _ _ _ hm => hm
  | some mode =>
      unfold setLocalFilePermissions setLocalPermissions
      rcases withWritableParents_cases hno hroot p false with
        ⟨e, w', hmodes, -, hrun⟩ | ⟨hacc, restores, w₁, ho, hrun⟩
      · exact wp_of_error (hrun _) hmodes
      · show (withWritableParents root p false _).wp h w _ _
        rw [wp_congr (hrun _)]
        refine wp_mono (ho.closing_spec hroot hacc ?_) (fun _ _ hend => hend.1) fun _ _ hend => hend.1
        refine wp_seq (safeLocalPath_spec ⟨ho.prepared, hroot, hacc, apart_empty⟩) ?_ ?_
        · rintro _ w₂ ⟨rfl, hsame⟩
          have hd : Direct w₂.disk (root ++ split p) := by
            rw [hsame.disk]
            exact ho.direct hroot hacc
          refine wp_mono (setPermissions_fixed hd) ?_ ?_
          · exact fun _ _ hfixed => ho.wayKept ((DirsFixed.of_eq hsame.disk).trans hfixed)
          · exact fun _ _ hfixed => ho.wayKept ((DirsFixed.of_eq hsame.disk).trans hfixed)
        · exact fun _ _ hsame => ho.wayKept (.of_eq hsame.1.disk)

/-- A directory on the way that is a directory keeps its mode through the inner bracket. -/
theorem setLocalFilePermissions_way (hno : ∀ n, h.fault n = false) (hroot : w.disk.IsDir root)
    (hacc : Accepted p) :
    (setLocalFilePermissions root p permissions).wp h w
      (fun _ w' => ∀ l ∈ way root (split p).dropLast, ∀ m, w.disk.get l = some (.dir m) →
        w'.disk.get l = some (.dir m))
      (fun _ w' => ∀ l ∈ way root (split p).dropLast, ∀ m, w.disk.get l = some (.dir m) →
        w'.disk.get l = some (.dir m)) := by
  have hkept : ∀ {w' : World}, Effect root p ∅ w w' → ModesKept root p w.disk w'.disk →
      ∀ l ∈ way root (split p).dropLast, ∀ m, w.disk.get l = some (.dir m) →
        w'.disk.get l = some (.dir m) := by
    intro w' heff hmodes l hl m hm
    by_cases hin : l ∈ chain root p
    · exact hmodes l hin m hm
    · rw [heff.changes.frame]
      · exact hm
      · have hpre : l <+: root := hl.resolve_right hin
        rintro ((hc | rfl) | hc)
        · exact hin hc
        · exact target_ne_root hacc (hpre.eq_of_length_le (by simp [target]))
        · exact hc
  refine wp_mono (wp_both (setLocalPermissions_spec hroot)
    (setLocalFilePermissions_keeps hno hroot)) ?_ ?_
  · exact fun _ _ hend => hkept hend.1.1 hend.2
  · exact fun _ _ hend => hkept hend.1.1 hend.2

end Inner

/-! ## The outer bracket -/

section Outer

variable {h : Host} {root : Loc} {p : Str} {w w₁ : World} {restores : List PermissionRestore}
  {staged : PathBuf} {permissions : Option U16}

section Created

variable (ho : Unlocked h true root (split p).dropLast w w₁ restores)
include ho

theorem Unlocked.open_dir {c : Loc} (hc : c ∈ chain root p) :
    ∃ m, w₁.disk.get c = some (.dir m) ∧ m &&& 0o300 = 0o300 := by
  refine (ho.dir_or_none hc).resolve_left fun hnone => ?_
  cases ho.prepared.each hc with
  | kept m before after hr => rw [hnone] at after; cases after
  | opened r hr heq before after => rw [hnone] at after; cases after
  | created hcreate before after =>
      obtain ⟨m, hm⟩ := after
      rw [hnone] at hm
      cases hm
  | absent hcreate before after => cases hcreate

theorem Unlocked.way_dir (hroot : w.disk.IsDir root) {l : Loc} (hl : l ∈ way root (split p).dropLast) :
    w₁.disk.IsDir l := by
  rcases hl with hl | hl
  · exact ho.dir (Disk.isDir_of_isPrefix hroot hl)
  · obtain ⟨m, hm, -⟩ := ho.open_dir hl
    exact ⟨m, hm⟩

theorem Unlocked.passable (hroot : w.disk.IsDir root) (hacc : Accepted p) {q : List Str}
    (hq : q <+: split p) : Passable h w₁.disk (root ++ q) := by
  refine passable_below (named_root hroot) (fun hm => hacc.noDotDot (hq.subset hm)) ho.search ?_
  intro init hi hne
  refine .inr (ho.open_dir (mem_above (prefix_dropLast (hi.trans hq) ?_)))
  rintro rfl
  exact hne (hi.eq_of_length_le hq.length_le)

/-- The walk that looks at the parents again finds nothing to object to. -/
theorem safeLocalPath_open (hroot : w.disk.IsDir root) (hacc : Accepted p) :
    (safeLocalPath root p true).wp h w₁ (fun path w₂ => path = root ++ split p ∧ Same w₁ w₂)
      (fun _ _ => False) := by
  have hpath : pathForManifest root p = .ok (root ++ split p) := by
    rw [pathForManifest, validateManifestPath_eq_ok.mpr hacc]
    rfl
  unfold safeLocalPath
  rw [wp_bind, hpath, wp_ofExcept_ok, wp_bind]
  refine wp_conseq (wp_foldlM
    (I := fun done parent w₂ => parent = root ++ done ∧ Same w₁ w₂) _ [] root w₁ ⟨by simp, .refl w₁⟩ ?_)
    (fun _ w₂ hI => ⟨rfl, hI.2⟩)
  rintro pre x post parent w₂ heq ⟨rfl, hsame⟩
  have hpre : pre ++ [x] <+: (split p).dropLast := ⟨post, by simpa using heq.symm⟩
  have hpass := ho.passable hroot hacc (hpre.trans (List.dropLast_prefix _))
  obtain ⟨m, hm, -⟩ := ho.open_dir (mem_above hpre)
  rw [← names_below hroot] at hm
  rw [← hsame.disk] at hpass hm
  unfold safeParent
  rw [wp_bind, List.append_assoc]
  refine wp_conseq (lstat_dir ho.reach.noFault hpass hm) ?_
  rintro r w₃ ⟨rfl, hlook⟩
  exact ⟨rfl, hsame.trans hlook⟩

/-- The operation, with `R` for what clearing the target establishes and `Q` for what every
exit has to. -/
theorem stagedOperation_rule {Q R : World → Prop} (hroot : w.disk.IsDir root) (hacc : Accepted p)
    (hclear : ∀ {w₂}, Same w₁ w₂ →
      (clearForFile "unable to inspect shared path " (root ++ split p)).wp h w₂ (fun _ => R)
        (fun _ => Q))
    (hready : ∀ {w₂}, R w₂ → Direct w₂.disk (root ++ split p)
      ∧ FreeForFile w₂.disk (names (root ++ split p)))
    (hrest : ∀ {w₂ w₃}, R w₂ → DirsFixed w₂.disk w₃.disk → Q w₃)
    (hset : ∀ {w₂ w₃}, R w₂ → DirsFixed w₂.disk w₃.disk →
      (∃ init name, root ++ split p = init ++ [name] ∧ isName name = true) →
      (setLocalFilePermissions root p permissions).wp h w₃ (fun _ => Q) (fun _ => Q)) :
    (stagedOperation root p staged permissions).wp h w₁ (fun _ => Q) (fun _ => Q) := by
  unfold stagedOperation
  refine wp_seq (safeLocalPath_open ho hroot hacc) ?_ fun _ _ hf => hf.elim
  rintro _ w₂ ⟨rfl, hsame⟩
  refine wp_then (hclear hsame) ?_
  intro _ w₃ hR
  refine wp_context_then lstat_disk ?_
  intro r w₄ hdisk
  have hlooked : DirsFixed w₃.disk w₄.disk := .of_eq hdisk
  cases r with
  | error kind => exact hrest hR hlooked
  | ok node =>
      cases node with
      | file c m t =>
          obtain ⟨hd, hfree⟩ := hready hR
          rw [← hdisk] at hd hfree
          dsimp only
          refine wp_seq (installStaged_fixed hd hfree) ?_ ?_
          · rintro _ w₅ ⟨hfixed, hends⟩
            exact hset hR (hlooked.trans hfixed) hends
          · exact fun _ _ hfixed => hrest hR (hlooked.trans hfixed)
      | dir m => exact hrest hR hlooked
      | symlink t => exact hrest hR hlooked
      | special => exact hrest hR hlooked

end Created

/-! ## The directory that is lost -/

/-- An empty directory whose path, given with slashes behind it, makes it one of its own
parents. -/
structure Swallowed (h : Host) (root : Loc) (p : Str) (d : Disk) : Prop where
  accepted : Accepted p
  reach : Reach h d root
  slashed : Slashed (split p)
  dir : d.IsDir (target root p)
  empty : ∀ child, d.get (target root p ++ [child]) = none

theorem slashed_of_append (hs : Slashed (root ++ split p)) (hacc : Accepted p) : Slashed (split p) := by
  obtain ⟨init, name, k, heq, hname⟩ := hs
  rcases List.append_eq_append_iff.mp heq with ⟨rest, -, hparts⟩ | ⟨rest, -, hparts⟩
  · exact ⟨rest, name, k, hparts, hname⟩
  · cases rest with
    | nil => exact ⟨[], name, k, hparts.symm, hname⟩
    | cons first rest =>
        -- the first part of an accepted path is a name, and only slashes are left
        obtain ⟨head, tail, hsplit, hhead⟩ := hacc.head_isName
        have hmem : head ∈ List.replicate (k + 1) ([] : Str) := by
          rw [(List.cons.inj hparts).2, hsplit]
          simp
        rw [List.eq_of_mem_replicate hmem] at hhead
        cases hhead

/-- The place of such a path among its parents: it is the last, behind the one it is in. -/
theorem target_mem_chain (hs : Slashed (split p)) :
    target root p ∈ chain root p ∧ (target root p).dropLast ∈ chain root p := by
  obtain ⟨init, name, k, heq, hname⟩ := hs
  have hdrop : (split p).dropLast = init ++ name :: List.replicate k [] := by
    rw [heq, List.replicate_succ', ← List.cons_append, ← List.append_assoc, List.dropLast_concat]
  have htarget : target root p = root ++ names init ++ [name] := by
    have : names (List.replicate (k + 1) ([] : Str)) = [] := by
      simp [names, isName]
    rw [target, heq, names_append, names_cons_name hname, this, List.append_assoc]
  refine ⟨⟨init ++ [name], ?_, ?_⟩, ⟨init, ?_, ?_⟩⟩
  · rw [hdrop]
    exact ⟨List.replicate k [], by simp⟩
  · rw [htarget, names_append, names_cons_name hname, List.append_assoc]
    rfl
  · rw [hdrop]
    exact List.prefix_append _ _
  · rw [htarget, List.dropLast_concat]

theorem child_notMem_chain (child : Str) : target root p ++ [child] ∉ chain root p := by
  rintro ⟨init, hi, heq⟩
  have hlen : (names init).length ≤ (names (split p)).length :=
    (names_isPrefix (hi.trans (List.dropLast_prefix _))).length_le
  have := congrArg List.length heq
  simp only [target, List.length_append, List.length_singleton] at this
  omega

theorem Swallowed.openable (hsw : Swallowed h root p w.disk) : Openable h root p w.disk := by
  refine ⟨hsw.reach, ?_⟩
  rintro c ⟨init, hi, rfl⟩
  refine Disk.isDir_of_isPrefix hsw.dir ((List.prefix_append_right_inj root).mpr ?_)
  exact names_isPrefix (hi.trans (List.dropLast_prefix _))

theorem notMem_chain_of_ends (hacc : Accepted p)
    (hends : ∃ init name, root ++ split p = init ++ [name] ∧ isName name = true) :
    target root p ∉ chain root p := by
  obtain ⟨init, name, heq, hname⟩ := hends
  rcases List.eq_nil_or_concat (split p) with hnil | ⟨front, last, hsplit⟩
  · obtain ⟨head, tail, hsplit, -⟩ := hacc.head_isName
    rw [hnil] at hsplit
    cases hsplit
  · rw [List.concat_eq_append] at hsplit
    rw [hsplit, ← List.append_assoc] at heq
    refine target_notMem_chain hsplit ?_
    rw [List.singleton_inj.mp (List.append_inj' heq rfl).2]
    exact hname

theorem target_notMem_way (hacc : Accepted p) (hc : target root p ∉ chain root p) :
    target root p ∉ way root (split p).dropLast := by
  rintro (hpre | hin)
  · exact target_ne_root hacc (List.IsPrefix.eq_of_length_le hpre (by simp [target]))
  · exact hc hin

section Created

variable (ho : Unlocked h true root (split p).dropLast w w₁ restores) (hroot : w.disk.IsDir root)
include ho hroot

/-- What clearing the target establishes. -/
def ClearedTarget (root : Loc) (p : Str) (w₁ w₂ : World) : Prop :=
  FreeForFile w₂.disk (target root p)
    ∧ (∀ l, l ≠ target root p → w₂.disk.get l = w₁.disk.get l)
    ∧ (w₁.disk.IsDir (target root p) →
      ((∃ init name, root ++ split p = init ++ [name] ∧ isName name = true) ∨ Slashed (root ++ split p))
        ∧ ∀ child, w₁.disk.get (target root p ++ [child]) = none)

theorem clearTarget {w₂ : World} (hacc : Accepted p) (hsame : Same w₁ w₂) {text : String} :
    (clearForFile text (root ++ split p)).wp h w₂ (fun _ => ClearedTarget root p w₁)
      (fun _ w₃ => w₃.disk = w₁.disk) := by
  have hd : Direct w₂.disk (root ++ split p) := by
    rw [hsame.disk]
    exact ho.direct hroot hacc
  refine wp_mono (clearForFile_clears hd) ?_ fun _ _ hdisk => hdisk.trans hsame.disk
  rw [names_below hroot, hsame.disk]
  exact fun _ _ hcleared => hcleared

theorem ClearedTarget.ready {w₂ : World} (hacc : Accepted p) (hc : ClearedTarget root p w₁ w₂) :
    Direct w₂.disk (root ++ split p) ∧ FreeForFile w₂.disk (names (root ++ split p)) := by
  rw [names_below hroot]
  refine ⟨⟨(ho.direct hroot hacc).noDotDot, fun {init} hi hne => ?_⟩, hc.1⟩
  by_cases he : names init = target root p
  · rw [he]
    exact hc.1.not_link
  · rw [Disk.IsLink, hc.2.1 _ he]
    exact (ho.direct hroot hacc).noLink hi hne

/-- Every directory on the way is left alone, save one that is swallowed. -/
theorem stagedOperation_keeps (hno : ∀ n, h.fault n = false) (hacc : Accepted p)
    (hsw : ¬ Swallowed h root p w.disk) :
    (stagedOperation root p staged permissions).wp h w₁
      (fun _ w₂ => WayKept root (split p).dropLast w.disk w₁.disk w₂.disk)
      (fun _ w₂ => WayKept root (split p).dropLast w.disk w₁.disk w₂.disk) := by
  refine stagedOperation_rule ho (R := ClearedTarget root p w₁) hroot hacc ?_ ?_ ?_ ?_
  · intro w₂ hsame
    exact wp_mono (clearTarget ho hroot hacc hsame) (fun _ _ hc => hc)
      fun _ _ hdisk => ho.wayKept (.of_eq hdisk)
  · exact fun hc => hc.ready ho hroot hacc
  · rintro w₂ w₃ ⟨-, hoff, hdir⟩ hfixed l hl hwas
    obtain ⟨m, hm⟩ := ho.dir hwas
    by_cases he : l = target root p
    · -- the target is on its own way: it was removed, so it is swallowed
      subst he
      obtain ⟨hends | hslash, hempty⟩ := hdir ⟨m, hm⟩
      · exact absurd hl (target_notMem_way hacc (notMem_chain_of_ends hacc hends))
      · refine absurd ⟨hacc, ho.reach, slashed_of_append hslash hacc, hwas, fun child => ?_⟩ hsw
        rw [← ho.prepared.changes.frame (child_notMem_chain child)]
        exact hempty child
    · rw [hm, hfixed, hoff l he]
      exact hm
  · rintro w₂ w₃ ⟨-, hoff, -⟩ hfixed hends
    have hnot := target_notMem_way hacc (notMem_chain_of_ends hacc hends)
    have hway : ∀ l ∈ way root (split p).dropLast, ∃ m, w₁.disk.get l = some (.dir m)
        ∧ w₃.disk.get l = some (.dir m) := by
      intro l hl
      obtain ⟨m, hm⟩ := ho.way_dir hroot hl
      refine ⟨m, hm, (hfixed l m).mpr ?_⟩
      rw [hoff l fun he => hnot (he ▸ hl)]
      exact hm
    have hroot₃ : w₃.disk.IsDir root := by
      obtain ⟨m, -, hm⟩ := hway root (.inl List.prefix_rfl)
      exact ⟨m, hm⟩
    have hdone : ∀ {w₄ : World}, (∀ l ∈ way root (split p).dropLast, ∀ m,
        w₃.disk.get l = some (.dir m) → w₄.disk.get l = some (.dir m)) →
        WayKept root (split p).dropLast w.disk w₁.disk w₄.disk := by
      intro w₄ hkept l hl _
      obtain ⟨m, hm, hm₃⟩ := hway l hl
      rw [hm, hkept l hl m hm₃]
    exact wp_mono (setLocalFilePermissions_way hno hroot₃ hacc) (fun _ _ hkept => hdone hkept)
      fun _ _ hkept => hdone hkept

/-- A directory that is swallowed is gone when the operation ends. -/
theorem stagedOperation_swallows (hsw : Swallowed h root p w.disk) :
    (stagedOperation root p staged permissions).wp h w₁
      (fun _ w₂ => ¬ w₂.disk.IsDir (target root p)) (fun _ w₂ => ¬ w₂.disk.IsDir (target root p)) := by
  have hacc := hsw.accepted
  obtain ⟨hin, hparent⟩ : target root p ∈ chain root p ∧ (target root p).dropLast ∈ chain root p :=
    target_mem_chain hsw.slashed
  have hclear : ∀ {w₂ : World} {text : String}, Same w₁ w₂ →
      (clearForFile text (root ++ split p)).wp h w₂ (fun _ _ => True) (fun _ _ => False) := by
    intro w₂ text hsame
    obtain ⟨m, hm, -⟩ := ho.open_dir hin
    obtain ⟨m', hm', hbits⟩ := ho.open_dir hparent
    have hpass := ho.passable hroot hacc List.prefix_rfl
    have hempty : ∀ child, w₁.disk.get (target root p ++ [child]) = none := fun child => by
      rw [ho.prepared.changes.frame (child_notMem_chain child)]
      exact hsw.empty child
    rw [← hsame.disk] at hm hm' hpass hempty
    rw [target, ← names_below hroot] at hm hm' hempty
    unfold clearForFile
    refine wp_then (lstat_dir ho.reach.noFault hpass hm) ?_
    rintro r w₃ ⟨rfl, hlook⟩
    rw [← hlook.disk] at hm hm' hpass hempty
    show (context _ (rmdir (root ++ split p))).wp h w₃ _ _
    rw [wp_context]
    refine wp_conseq (rmdir_slashed ho.reach.noFault hpass (hsw.slashed.append root) hm hempty
      (by rw [Disk.writable, hm']; exact canWrite_of_bits hbits)) ?_
    rintro r w₄ ⟨rfl, -⟩
    trivial
  refine stagedOperation_rule ho (R := ClearedTarget root p w₁) hroot hacc ?_ ?_ ?_ ?_
  · intro w₂ hsame
    exact wp_mono (wp_both (clearTarget ho hroot hacc hsame) (hclear hsame))
      (fun _ _ hc => hc.1) fun _ _ hf => hf.2.elim
  · exact fun hc => hc.ready ho hroot hacc
  · intro w₂ w₃ hc hfixed hdir
    exact hc.1.not_dir ((hfixed.stay _).mp hdir)
  · exact fun _ _ hends => absurd hin (notMem_chain_of_ends hacc hends)

end Created

theorem restoreParentPermissions_stay :
    (restoreParentPermissions restores).wp h w (fun _ w' => DirsStay w.disk w'.disk)
      (fun _ w' => DirsStay w.disk w'.disk) := by
  refine wp_foldlM (I := fun _ _ w' => DirsStay w.disk w'.disk) restores.reverse [] () w
    (.of_eq rfl) ?_
  intro pre r post _ w₁ _ hstay
  rw [restoreParentPermission, wp_context]
  refine wp_conseq chmod_stay ?_
  intro result w₂ hstay₂
  cases result <;> exact hstay.trans hstay₂

theorem closing_gone {α : Type} {op : Fs α} {l : Loc}
    (hop : op.wp h w₁ (fun _ w₂ => ¬ w₂.disk.IsDir l) (fun _ w₂ => ¬ w₂.disk.IsDir l)) :
    (closing op restores).wp h w₁ (fun _ w' => ¬ w'.disk.IsDir l) (fun _ w' => ¬ w'.disk.IsDir l) := by
  unfold closing
  rw [wp_bind, wp_attempt]
  have hclose : ∀ {r : Except Error α} {w₂ : World}, ¬ w₂.disk.IsDir l →
      (do let restoreResult ← Prog.attempt (restoreParentPermissions restores)
          settle r restoreResult : Fs α).wp h w₂
        (fun _ w' => ¬ w'.disk.IsDir l) (fun _ w' => ¬ w'.disk.IsDir l) := by
    intro r w₂ hgone
    rw [wp_bind, wp_attempt]
    refine wp_mono restoreParentPermissions_stay ?_ ?_
    · intro _ w₃ hstay
      have hgone₃ : ¬ w₃.disk.IsDir l := fun hdir => hgone ((hstay l).mp hdir)
      cases r <;> exact hgone₃
    · intro e w₃ hstay
      have hgone₃ : ¬ w₃.disk.IsDir l := fun hdir => hgone ((hstay l).mp hdir)
      cases r <;> exact hgone₃
  exact wp_mono hop (fun _ _ hgone => hclose hgone) fun _ _ hgone => hclose hgone

/-- `write_local_staged_file` gives every parent its mode back, save where it removes one. -/
theorem writeLocalStagedFile_modes (hno : ∀ n, h.fault n = false) (hroot : w.disk.IsDir root) :
    (writeLocalStagedFile root p staged permissions).wp h w
        (fun _ w' => ModesKept root p w.disk w'.disk) (fun _ w' => ModesKept root p w.disk w'.disk)
      ↔ ¬ Swallowed h root p w.disk := by
  rw [writeLocalStagedFile]
  rcases withWritableParents_cases hno hroot p true with
    ⟨e, w', hmodes, hblame, hrun⟩ | ⟨hacc, restores, w₁, ho, hrun⟩
  · exact ⟨fun _ hsw => hblame ⟨hsw.accepted, hsw.openable⟩,
      fun _ => wp_of_error (hrun _) hmodes⟩
  · rw [wp_congr (hrun _)]
    constructor
    · intro hkept hsw
      obtain ⟨m, hm⟩ := hsw.dir
      have hin : target root p ∈ chain root p := (target_mem_chain hsw.slashed).1
      have hlost : ∀ {w' : World}, ¬ (ModesKept root p w.disk w'.disk
          ∧ ¬ w'.disk.IsDir (target root p)) := fun hend => hend.2 ⟨m, hend.1 _ hin m hm⟩
      obtain ⟨_, _, _, hf⟩ := exists_ok_of_wp (wp_mono
        (wp_both hkept (closing_gone (stagedOperation_swallows ho hroot hsw)))
        (fun _ _ hend => hlost hend) fun _ _ hend => hlost hend)
      exact hf
    · intro hsw
      exact wp_mono (ho.closing_spec hroot hacc (stagedOperation_keeps ho hroot hno hacc hsw))
        (fun _ _ hend => hend.1) fun _ _ hend => hend.1

/-- Temporary write access is undone.  For every operation that leaves the directories on
the way as it finds them, `with_writable_parents` either fails without running it, or runs
it with every parent open and has its result; the parents end with the modes they had.
`write_local_staged_file`, with the same parents opened twice, does as much for exactly the
trees in which it does not remove a parent itself. -/
theorem write_access_undone (hno : ∀ n, h.fault n = false) (hroot : w.disk.IsDir root) (p : Str) :
    (∀ create,
      (∃ e w', ModesKept root p w.disk w'.disk ∧ ∀ {α : Type} (op : Fs α),
          withWritableParents root p create op h w = .error e w')
        ∨ ∃ w₁, ParentsOpen root p w.disk w₁.disk ∧ ∀ {α : Type} (op : Fs α),
          op.wp h w₁ (fun _ w₂ => WayKept root (split p).dropLast w.disk w₁.disk w₂.disk)
            (fun _ w₂ => WayKept root (split p).dropLast w.disk w₁.disk w₂.disk) →
          (withWritableParents root p create op).wp h w
            (fun a w' => ModesKept root p w.disk w'.disk ∧ ∃ w₂, op h w₁ = .ok a w₂)
            (fun e w' => ModesKept root p w.disk w'.disk ∧ ∃ w₂, op h w₁ = .error e w₂))
      ∧ ∀ staged permissions,
        (writeLocalStagedFile root p staged permissions).wp h w
            (fun _ w' => ModesKept root p w.disk w'.disk) (fun _ w' => ModesKept root p w.disk w'.disk)
          ↔ ¬ Swallowed h root p w.disk :=
  ⟨withWritableParents_bracket hno hroot p, fun _ _ => writeLocalStagedFile_modes hno hroot⟩

end Outer

/-- A share `r` and an empty directory `d` in it that may not be written to, and a staged
file beside the share. -/
def readOnlyShare : World :=
  ⟨(((Disk.bare.put [] ['t'] (.file .empty 0o644 0) (by decide +kernel)).put [] ['r'] (.dir 0o755)
    (by decide +kernel)).put [['r']] ['d'] (.dir 0o555) (by decide +kernel)).modify [['r']] (.dir 0o555)
    (by decide +kernel), 0, []⟩

/-- A file below `d` is written with both directories open and both closed again. -/
theorem write_access_undone_readOnly :
    (∃ w₁ : World, ParentsOpen [['r']] "d/f".toList readOnlyShare.disk w₁.disk)
      ∧ (withWritableParents [['r']] "d/f".toList false (pure ())).wp Host.quiet readOnlyShare
        (fun _ w' => ModesKept [['r']] "d/f".toList readOnlyShare.disk w'.disk) (fun _ _ => False)
      ∧ (writeLocalStagedFile [['r']] "d/f".toList [['t']] none).wp Host.quiet readOnlyShare
        (fun _ w' => ModesKept [['r']] "d/f".toList readOnlyShare.disk w'.disk)
        (fun _ w' => ModesKept [['r']] "d/f".toList readOnlyShare.disk w'.disk) := by
  have hroot : readOnlyShare.disk.IsDir [['r']] := ⟨0o555, by decide +kernel⟩
  obtain ⟨hall, hstaged⟩ := write_access_undone (h := Host.quiet) (fun _ => rfl) hroot "d/f".toList
  have hruns : (withWritableParents [['r']] "d/f".toList false (pure ())).wp Host.quiet readOnlyShare
      (fun _ _ => True) (fun _ _ => False) := by decide +kernel
  rcases hall false with ⟨e, w', -, hrun⟩ | ⟨w₁, hopen, hop⟩
  · exact (wp_error hruns (hrun _)).elim
  · refine ⟨⟨w₁, hopen⟩, ?_, (hstaged [['t']] none).mpr fun hsw => ?_⟩
    · exact wp_mono (wp_both hruns (hop (pure ()) fun _ _ _ => rfl))
        (fun _ _ hend => hend.2.1) fun _ _ hend => hend.1
    · -- the path does not end in a slash
      obtain ⟨init, name, k, heq, -⟩ := hsw.slashed
      rw [List.replicate_succ', ← List.cons_append, ← List.append_assoc] at heq
      have hsplit : [['d']] ++ [['f']] = (init ++ name :: List.replicate k []) ++ [[]] := heq
      cases (List.append_inj' hsplit rfl).2

/-- The same directory as `d/`: it is gone afterwards, its mode cannot be put back, and so
the share is left open. -/
theorem share_left_open :
    (writeLocalStagedFile [['r']] "d/".toList [['t']] none).wp Host.quiet readOnlyShare
        (fun _ _ => False)
        (fun _ w' => w'.disk.get [['r']] = some (.dir 0o755) ∧ w'.disk.get [['r'], ['d']] = none)
      ∧ ¬ (writeLocalStagedFile [['r']] "d/".toList [['t']] none).wp Host.quiet readOnlyShare
        (fun _ w' => ModesKept [['r']] "d/".toList readOnlyShare.disk w'.disk)
        (fun _ w' => ModesKept [['r']] "d/".toList readOnlyShare.disk w'.disk) := by
  have hrun : (writeLocalStagedFile [['r']] "d/".toList [['t']] none).wp Host.quiet readOnlyShare
      (fun _ _ => False)
      (fun _ w' => w'.disk.get [['r']] = some (.dir 0o755) ∧ w'.disk.get [['r'], ['d']] = none) := by
    decide +kernel
  have hbefore : readOnlyShare.disk.get [['r']] = some (.dir 0o555) := by decide +kernel
  refine ⟨hrun, fun hkept => ?_⟩
  have hlost : ∀ {w' : World}, w'.disk.get [['r']] = some (.dir 0o755) →
      ¬ ModesKept [['r']] "d/".toList readOnlyShare.disk w'.disk := by
    intro w' hopen hmodes
    have hafter := hmodes [['r']] root_mem_chain 0o555 hbefore
    rw [hopen] at hafter
    cases hafter
  obtain ⟨_, _, _, hf⟩ := exists_ok_of_wp (wp_mono (wp_both hrun hkept)
    (fun _ _ hend => hend.1) fun _ _ hend => hlost hend.1.1 hend.2)
  exact hf

end Syncbox

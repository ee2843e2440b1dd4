/-
# `Syncbox.Manifest.Hierarchy` — a check that skips what it has seen

`validate_manifest_hierarchy` (`src/manifest/merge.rs`) asks of every live path whether one
of its ancestors is a file, a symlink or a tombstone.  Neighbours in a sorted map share most
of their ancestors, so it skips those that the path before has in common — compared as bytes,
up to and including the separator — and it goes on doing so from the last file to the first
directory and from the last directory to the first symlink, where the order starts again.

The invariant is about one path only: all ancestors of the path before are free.  Equal
bytes up to a separator are equal characters up to it (`asBytes_isPrefix`), so what is skipped
is an ancestor of that path, and nothing needs the order of the keys.  The check therefore
fails where the plain one fails, and with the same error.
-/
import Syncbox.Lib.Utf8
import Syncbox.Manifest.Model

namespace Syncbox

open Rust

namespace Manifest

/-! ## The check as it is written -/

/-- The loop body over the byte offsets of the separators. -/
def ancestorStepBytes (m : Manifest) (previousPath path : Str) (sharedAncestors : Bool)
    (separator : Nat) : Except Error Bool :=
  if sharedAncestors ∧ upTo (asBytes previousPath) separator = some ((asBytes path).take (separator + 1)) then
    .ok true
  else (m.checkAncestor (sliceTo path separator)).map fun _ => false

/-- The loop body over live paths. -/
def hierarchyStepBytes (m : Manifest) (previousPath path : Str) : Except Error Str :=
  ((matchIndices '/' path 0).foldlM (m.ancestorStepBytes previousPath path) true).map fun _ => path

/-- `validate_manifest_hierarchy`, with the byte offsets of the source. -/
def validateManifestHierarchyBytes (m : Manifest) : Except Error Unit :=
  if m.entries.isEmpty ∧ m.symlinks.isEmpty ∧ m.tombstones.isEmpty then .ok ()
  else (m.livePaths.foldlM m.hierarchyStepBytes []).map fun _ => ()

/-- The same check without the shortcuts: every ancestor of every live path. -/
def plainHierarchy (m : Manifest) : Except Error Unit :=
  m.livePaths.forM fun path => (separators path).forM fun i => m.checkAncestor (path.take i)

section Hierarchy

variable {m : Manifest} {previous path : Str} {i : Nat}

/-! ## Bytes and characters -/

theorem take_of_mem_separators (hi : i ∈ separators path) : path.take (i + 1) = path.take i ++ ['/'] := by
  simp only [separators, List.mem_filter, List.mem_range, decide_eq_true_eq] at hi
  rw [List.take_add_one, hi.2]
  rfl

theorem take_asBytes_separator (hi : i ∈ separators path) :
    (asBytes path).take (utf8Len (path.take i) + 1) = asBytes (path.take (i + 1)) := by
  have hlen : utf8Len (path.take i) + 1 = (asBytes (path.take (i + 1))).length := by
    rw [take_of_mem_separators hi, asBytes_append, List.length_append, length_asBytes]
    rfl
  have hsplit : asBytes path = asBytes (path.take (i + 1)) ++ asBytes (path.drop (i + 1)) := by
    rw [← asBytes_append, List.take_append_drop]
  rw [hlen, hsplit, List.take_left]

theorem upTo_eq_some {bytes front : List Byte} {k : Nat} (hlen : front.length = k + 1) :
    upTo bytes k = some front ↔ front <+: bytes := by
  unfold upTo
  constructor
  · intro h
    split at h
    · cases h
      exact List.take_prefix _ _
    · cases h
  · intro h
    have hle := h.length_le
    rw [if_pos (by omega), List.prefix_iff_eq_take.mp h, hlen]

theorem sliceTo_separator (path : Str) (i : Nat) : sliceTo path (utf8Len (path.take i)) = path.take i := by
  have hslice := sliceTo_append (path.take i) (path.drop i)
  rwa [List.take_append_drop] at hslice

theorem shared_iff (hi : i ∈ separators path) :
    upTo (asBytes previous) (utf8Len (path.take i)) = some ((asBytes path).take (utf8Len (path.take i) + 1))
      ↔ previous.take (i + 1) = path.take (i + 1) := by
  have hlt : i < path.length := by
    simp only [separators, List.mem_filter, List.mem_range] at hi
    exact hi.1
  have hbytes : (asBytes (path.take (i + 1))).length = utf8Len (path.take i) + 1 := by
    rw [take_of_mem_separators hi, asBytes_append, List.length_append, length_asBytes]
    rfl
  rw [take_asBytes_separator hi, upTo_eq_some hbytes, asBytes_isPrefix, List.prefix_iff_eq_take,
    List.length_take, Nat.min_eq_left hlt]
  exact eq_comm

theorem ancestorStepBytes_eq (hi : i ∈ separators path) (b : Bool) :
    m.ancestorStepBytes previous path b (utf8Len (path.take i)) = m.ancestorStep previous path b i := by
  unfold ancestorStepBytes ancestorStep
  rw [sliceTo_separator]
  simp only [shared_iff hi]

theorem hierarchyStepBytes_eq : m.hierarchyStepBytes previous path = m.hierarchyStep previous path := by
  have hloop : ∀ {l : List Nat}, (∀ i ∈ l, i ∈ separators path) → ∀ b,
      (l.map fun i => 0 + utf8Len (path.take i)).foldlM (m.ancestorStepBytes previous path) b
        = l.foldlM (m.ancestorStep previous path) b := by
    intro l
    induction l with
    | nil => exact fun _ _ => rfl
    | cons i l ih =>
        intro hl b
        rw [List.map_cons, List.foldlM_cons, List.foldlM_cons, Nat.zero_add,
          ancestorStepBytes_eq (hl i List.mem_cons_self)]
        exact congrArg _ (funext fun b' => ih (fun j hj => hl j (List.mem_cons_of_mem _ hj)) b')
  unfold hierarchyStepBytes hierarchyStep
  rw [matchIndices_eq]
  exact congrArg _ (hloop (fun _ hi => hi) true)

theorem validateManifestHierarchyBytes_eq (m : Manifest) :
    m.validateManifestHierarchyBytes = m.validateManifestHierarchy := by
  unfold validateManifestHierarchyBytes validateManifestHierarchy
  rw [show m.hierarchyStepBytes = m.hierarchyStep from funext fun _ => funext fun _ =>
    hierarchyStepBytes_eq]

/-! ## The plain check -/

theorem plainPath_eq_ok :
    ((separators path).forM fun i => m.checkAncestor (path.take i)) = .ok () ↔ m.FreeAncestors path := by
  rw [Check.forM_eq_ok]
  constructor
  · intro h a ha
    obtain ⟨i, hi, rfl⟩ := isAncestor_iff_separator.mp ha
    exact checkAncestor_eq_ok.mp (h i hi)
  · intro h i hi
    exact checkAncestor_eq_ok.mpr (h _ (isAncestor_iff_separator.mpr ⟨i, hi, rfl⟩))

/-- One path, after one whose ancestors are free: skipping hides nothing. -/
theorem hierarchyStep_eq (hprevious : m.FreeAncestors previous) :
    m.hierarchyStep previous path
      = ((separators path).forM fun i => m.checkAncestor (path.take i)).map fun _ => path := by
  have hloop : (((separators path).foldlM (m.ancestorStep previous path) true).map fun _ => ())
      = (separators path).forM fun i => m.checkAncestor (path.take i) := by
    refine Check.foldlM_eq_forM (I := fun _ => True) trivial fun i hi b _ => ?_
    unfold ancestorStep
    split
    · rename_i hshared
      -- the ancestor is one of the path before, so its check would pass
      exact .inr ⟨true, rfl, checkAncestor_eq_ok.mpr
        (hprevious _ (isAncestor_of_shared hi hshared.2)), trivial⟩
    · cases hcheck : m.checkAncestor (path.take i) with
      | error e => exact .inl ⟨e, rfl, rfl⟩
      | ok u => exact .inr ⟨false, rfl, rfl, trivial⟩
  rw [← hloop, hierarchyStep]
  cases (separators path).foldlM (m.ancestorStep previous path) true <;> rfl

theorem validateManifestHierarchy_eq_plain (m : Manifest) :
    m.validateManifestHierarchy = m.plainHierarchy := by
  unfold validateManifestHierarchy
  split
  · rename_i hempty
    simp only [Std.ExtTreeMap.isEmpty_iff] at hempty
    symm
    rw [plainHierarchy, Check.forM_eq_ok]
    intro path _
    rw [plainPath_eq_ok]
    intro a _
    simp [hempty.1, hempty.2.1, hempty.2.2]
  · refine Check.foldlM_eq_forM (I := m.FreeAncestors) ?_ fun path _ previous hprevious => ?_
    · rintro a ⟨rest, hrest⟩
      simp at hrest
    · rw [hierarchyStep_eq hprevious]
      cases hplain : (separators path).forM fun i => m.checkAncestor (path.take i) with
      | error e => exact .inl ⟨e, rfl, rfl⟩
      | ok u => exact .inr ⟨path, rfl, rfl, plainPath_eq_ok.mp hplain⟩

/-- The check with its shortcuts is the plain one, and it accepts exactly the manifests in
which no live path is below a file, a symlink or a tombstone. -/
theorem hierarchy_check_exact (m : Manifest) :
    m.validateManifestHierarchyBytes = m.plainHierarchy
      ∧ (m.validateManifestHierarchyBytes = .ok () ↔
        ¬ ∃ path ancestor, (path ∈ m.entries ∨ path ∈ m.directories ∨ path ∈ m.symlinks)
          ∧ IsAncestor ancestor path
          ∧ (ancestor ∈ m.entries ∨ ancestor ∈ m.symlinks ∨ ancestor ∈ m.tombstones)) := by
  rw [validateManifestHierarchyBytes_eq]
  refine ⟨validateManifestHierarchy_eq_plain m, ?_⟩
  rw [validateManifestHierarchy_eq_ok]
  have hlive : ∀ path, path ∈ m.livePaths
      ↔ path ∈ m.entries ∨ path ∈ m.directories ∨ path ∈ m.symlinks := by
    intro path
    simp [livePaths]
  constructor
  · rintro hfree ⟨path, ancestor, hpath, hanc, hbad⟩
    obtain ⟨he, hs, ht⟩ := hfree path ((hlive path).mpr hpath) ancestor hanc
    rcases hbad with hbad | hbad | hbad
    · exact he hbad
    · exact hs hbad
    · exact ht hbad
  · intro hnone path hpath ancestor hanc
    have hpath := (hlive path).mp hpath
    exact ⟨fun h => hnone ⟨path, ancestor, hpath, hanc, .inl h⟩,
      fun h => hnone ⟨path, ancestor, hpath, hanc, .inr (.inl h)⟩,
      fun h => hnone ⟨path, ancestor, hpath, hanc, .inr (.inr h)⟩⟩

end Hierarchy

end Manifest

end Syncbox

/-
# `Syncbox.Manifest.Path` — manifest paths

`src/manifest/path.rs`.  The same string is taken apart in two ways: the
validator reads `Path::components`, which drops empty and `.` parts, and the
path builder pushes every part of `split('/')`.  Both are modelled as they
stand.  `Accepted` is what the validator lets through; the names that survive
normalisation are `names (split p)`, and `Canonical` says normalisation drops
nothing.

`IsAncestor a p` is the `/`-prefix relation of the hierarchy check.  On parts it
is list prefix (`split_of_isAncestor`), and that is how the file-system proofs
use it.
-/
import Syncbox.Types
import Syncbox.Lib.Unix.Path

namespace Syncbox

open Rust Unix Check

/-- `std::path::Component` on Unix. -/
inductive Component where
  | rootDir
  | curDir
  | parentDir
  | normal (name : Str)
  deriving DecidableEq

/-- The components one part contributes. -/
def Component.ofPart (part : Str) : List Component :=
  if part = [] ∨ part = ['.'] then []
  else if part = ['.', '.'] then [.parentDir]
  else [.normal part]

/-- `Path::components`: a leading `.` is kept, every other empty or `.` part is dropped. -/
def components (value : Str) : List Component :=
  (if value.head? = some '/' then [.rootDir] else []) ++
    match split value with
    | [] => []
    | first :: rest =>
        (if first = ['.'] then [.curDir] else Component.ofPart first)
          ++ rest.flatMap Component.ofPart

/-- The loop body of `validate_manifest_path`. -/
def checkComponent : Component → Except Error Unit
  | .normal name =>
      rejectIf (name = []) (.bail "manifest path contains an invalid component")
  | _ => .error (.bail "manifest path contains an unsafe component")

def validateManifestPath (value : Str) : Except Error Unit := do
  rejectIf (value = [] ∨ utf8Len value > 4096 ∨ '\\' ∈ value ∨ '\x00' ∈ value)
    (.bail "manifest path is invalid")
  rejectIf (value.head? = some '/') (.bail "manifest path must be relative")
  (components value).forM checkComponent
  rejectIf (components value = []) (.bail "manifest path is empty")

def pathForManifest (root : PathBuf) (manifestPath : Str) : Except Error PathBuf := do
  validateManifestPath manifestPath
  .ok (root ++ split manifestPath)

/-- The check on one local file name in `relative_manifest_path`. -/
def checkFileName (name : Str) : Except Error Unit :=
  rejectIf (name = [] ∨ '\\' ∈ name ∨ '/' ∈ name)
    (.bail "local file name cannot be represented safely in a manifest")

/-- `relative_manifest_path`, on the names below the root. -/
def relativeManifestPath (names : List Str) : Except Error Str := do
  names.forM checkFileName
  validateManifestPath (join names)
  .ok (join names)

/-! ## What the validator accepts -/

structure Accepted (p : Str) : Prop where
  nonempty : p ≠ []
  short : utf8Len p ≤ 4096
  noBackslash : '\\' ∉ p
  noNul : '\x00' ∉ p
  relative : p.head? ≠ some '/'
  noDot : (split p).head? ≠ some ['.']
  noDotDot : ['.', '.'] ∉ split p

/-- No part is dropped by normalisation: the names a scan reports. -/
def Canonical (p : Str) : Prop := ∀ part ∈ split p, isName part

instance (p : Str) : Decidable (Canonical p) := inferInstanceAs (Decidable (∀ _ ∈ _, _))

theorem checkComponent_ofPart {part : Str} :
    (Component.ofPart part).forM checkComponent = .ok () ↔ part ≠ ['.', '.'] := by
  unfold Component.ofPart
  split
  · rename_i h
    refine ⟨fun _ hp => ?_, fun _ => rfl⟩
    rcases h with h | h <;> rw [h] at hp <;> cases hp
  · rename_i h
    split
    · rename_i hp
      refine ⟨fun h => ?_, fun h => absurd hp h⟩
      have := forM_eq_ok.mp h .parentDir (List.mem_singleton.mpr rfl)
      cases this
    · rename_i hp
      refine ⟨fun _ => hp, fun _ => ?_⟩
      refine forM_eq_ok.mpr fun x hx => ?_
      rw [List.mem_singleton.mp hx]
      simp only [checkComponent, rejectIf_eq_ok]
      exact fun hn => h (.inl hn)

/-- The first part of an accepted path is a name, so a path is never empty after
normalisation. -/
theorem head_of_relative {p : Str} (hne : p ≠ []) (hrel : p.head? ≠ some '/') :
    ∃ first rest, split p = first :: rest ∧ first ≠ [] := by
  cases p with
  | nil => exact absurd rfl hne
  | cons c p =>
      have hc : c ≠ '/' := fun h => hrel (by rw [h]; rfl)
      cases hp : split p with
      | nil => exact absurd hp (split_ne_nil p)
      | cons first rest =>
          refine ⟨c :: first, rest, ?_, List.cons_ne_nil _ _⟩
          have := List.splitOn_cons_eq_if_modifyHead (a := '/') c p
          simp only [split] at hp ⊢
          rw [this, hp]
          simp [hc]

theorem validateManifestPath_eq_ok {p : Str} : validateManifestPath p = .ok () ↔ Accepted p := by
  simp only [validateManifestPath, bind_eq_ok, rejectIf_eq_ok, not_or, not_lt]
  constructor
  · rintro ⟨_, ⟨hne, hlen, hb, hz⟩, _, hrel, _, hcs, _⟩
    obtain ⟨first, rest, hs, hf⟩ := head_of_relative hne hrel
    have hcs : ∀ c ∈ components p, checkComponent c = .ok () := forM_eq_ok.mp hcs
    have hall : ∀ c ∈ (if first = ['.'] then [Component.curDir] else Component.ofPart first)
        ++ rest.flatMap Component.ofPart, checkComponent c = .ok () := by
      intro c hc
      refine hcs c ?_
      simp only [components, hs]
      exact List.mem_append_right _ hc
    have hdot : first ≠ ['.'] := by
      intro h
      have := hall .curDir (by rw [if_pos h]; exact List.mem_cons_self)
      cases this
    refine ⟨hne, hlen, hb, hz, hrel, ?_, ?_⟩
    · rw [hs]; simpa using hdot
    · rw [hs]
      intro hmem
      rcases List.mem_cons.mp hmem with h | h
      · refine checkComponent_ofPart.mp (forM_eq_ok.mpr fun c hc => ?_) h.symm
        exact hall c (List.mem_append_left _ (by rw [if_neg hdot]; exact hc))
      · refine checkComponent_ofPart.mp (forM_eq_ok.mpr fun c hc => ?_) rfl
        exact hall c (List.mem_append_right _ (List.mem_flatMap.mpr ⟨_, h, hc⟩))
  · intro h
    obtain ⟨first, rest, hs, hf⟩ := head_of_relative h.nonempty h.relative
    have hdot : first ≠ ['.'] := by have := h.noDot; rw [hs] at this; simpa using this
    have hdd : ∀ part ∈ first :: rest, part ≠ ['.', '.'] := fun part hp he =>
      h.noDotDot (hs ▸ he ▸ hp)
    have hcs : components p = Component.ofPart first ++ rest.flatMap Component.ofPart := by
      simp only [components, hs, if_neg h.relative, if_neg hdot, List.nil_append]
    refine ⟨(), ⟨h.nonempty, h.short, h.noBackslash, h.noNul⟩, (), h.relative, (), ?_, ?_⟩
    · refine forM_eq_ok.mpr fun c hc => ?_
      rw [hcs] at hc
      rcases List.mem_append.mp hc with hc | hc
      · exact forM_eq_ok.mp (checkComponent_ofPart.mpr (hdd first List.mem_cons_self)) c hc
      · obtain ⟨part, hpart, hc⟩ := List.mem_flatMap.mp hc
        exact forM_eq_ok.mp
          (checkComponent_ofPart.mpr (hdd part (List.mem_cons_of_mem _ hpart))) c hc
    · rw [hcs]
      have : Component.ofPart first = [.normal first] := by
        unfold Component.ofPart
        rw [if_neg (not_or.mpr ⟨hf, hdot⟩), if_neg (hdd first List.mem_cons_self)]
      simp [this]

theorem Accepted.head_isName {p : Str} (h : Accepted p) :
    ∃ first rest, split p = first :: rest ∧ isName first = true := by
  obtain ⟨first, rest, hs, hf⟩ := head_of_relative h.nonempty h.relative
  refine ⟨first, rest, hs, ?_⟩
  have hdot : first ≠ ['.'] := by have := h.noDot; rw [hs] at this; simpa using this
  simp [isName, hf, hdot]

theorem Canonical.names_split {p : Str} (h : Canonical p) : names (split p) = split p :=
  List.filter_eq_self.mpr h

/-! ## Ancestors -/

/-- `a` is what precedes some separator of `p`. -/
def IsAncestor (a p : Str) : Prop := ∃ s, p = a ++ '/' :: s

theorem split_of_isAncestor {a p : Str} (h : IsAncestor a p) :
    ∃ rest, rest ≠ [] ∧ split p = split a ++ rest := by
  obtain ⟨s, rfl⟩ := h
  exact ⟨split s, split_ne_nil s, split_append_sep a s⟩

theorem isAncestor_of_split {a p : Str} {rest : List Str} (hr : rest ≠ [])
    (h : split p = split a ++ rest) : IsAncestor a p := by
  have hsep : ∀ part ∈ rest, '/' ∉ part := fun part hp =>
    sep_notMem_of_mem_split (p := p) part (h ▸ List.mem_append_right _ hp)
  refine ⟨join rest, split_injective ?_⟩
  rw [split_append_sep, split_join hsep hr, h]

theorem isAncestor_iff {a p : Str} : IsAncestor a p ↔ ∃ rest, rest ≠ [] ∧ split p = split a ++ rest :=
  ⟨split_of_isAncestor, fun ⟨_, hr, h⟩ => isAncestor_of_split hr h⟩

theorem IsAncestor.trans {a b c : Str} (hab : IsAncestor a b) (hbc : IsAncestor b c) :
    IsAncestor a c := by
  obtain ⟨s, rfl⟩ := hab
  obtain ⟨t, rfl⟩ := hbc
  exact ⟨s ++ '/' :: t, by simp⟩

theorem IsAncestor.ne {a p : Str} (h : IsAncestor a p) : a ≠ p := by
  rintro rfl
  obtain ⟨s, hs⟩ := h
  simpa using congrArg List.length hs

/-- `manifest_path_depth`: the separators, plus one. -/
def manifestPathDepth (p : Str) : Nat := p.count '/' + 1

theorem IsAncestor.depth_lt {a p : Str} (h : IsAncestor a p) :
    manifestPathDepth a < manifestPathDepth p := by
  obtain ⟨s, rfl⟩ := h
  simp only [manifestPathDepth, List.count_append, List.count_cons_self]
  omega

/-! ## Names by number -/

/-- A name for each number, in binary. -/
def binaryName (n : Nat) : Str := (List.range 17).map fun i => if n.testBit i then 'b' else 'a'

theorem mem_binaryName {n : Nat} {c : Char} (h : c ∈ binaryName n) : c = 'a' ∨ c = 'b' := by
  obtain ⟨i, -, rfl⟩ := List.mem_map.mp h
  split
  · exact .inr rfl
  · exact .inl rfl

theorem length_binaryName (n : Nat) : (binaryName n).length = 17 := by simp [binaryName]

theorem utf8Len_binaryName (n : Nat) : utf8Len (binaryName n) = 17 := by
  have hone : (binaryName n).map Char.utf8Size = List.replicate 17 1 := by
    rw [List.eq_replicate_iff]
    refine ⟨by rw [List.length_map, length_binaryName], fun k hk => ?_⟩
    obtain ⟨c, hc, rfl⟩ := List.mem_map.mp hk
    rcases mem_binaryName hc with rfl | rfl <;> rfl
  rw [utf8Len, hone]
  rfl

theorem notMem_binaryName {n : Nat} {c : Char} (ha : c ≠ 'a') (hb : c ≠ 'b') : c ∉ binaryName n :=
  fun h => (mem_binaryName h).elim ha hb

theorem binaryName_injOn {n m : Nat} (hn : n < 2 ^ 17) (hm : m < 2 ^ 17)
    (h : binaryName n = binaryName m) : n = m := by
  refine Nat.eq_of_testBit_eq fun i => ?_
  by_cases hi : i < 17
  · have hat := congrArg (fun s : Str => s[i]?) h
    simp only [binaryName, List.getElem?_map, List.getElem?_range hi, Option.map_some,
      Option.some.injEq] at hat
    cases hb : n.testBit i <;> cases hb' : m.testBit i <;> simp_all
  · have hpow : 2 ^ 17 ≤ 2 ^ i := Nat.pow_le_pow_right (by decide) (Nat.le_of_not_lt hi)
    rw [Nat.testBit_lt_two_pow (hn.trans_le hpow), Nat.testBit_lt_two_pow (hm.trans_le hpow)]

theorem accepted_binaryName (n : Nat) : Accepted (binaryName n) := by
  have hlen := length_binaryName n
  have hsplit : split (binaryName n) = [binaryName n] := by
    have hslash : '/' ∉ binaryName n := notMem_binaryName (by decide) (by decide)
    have hjoin : split (join [binaryName n]) = [binaryName n] :=
      split_join (by simpa using hslash) (List.cons_ne_nil _ _)
    rwa [join_singleton] at hjoin
  have hne : ∀ s : Str, s.length ≠ 17 → binaryName n ≠ s := fun s hs heq => hs (heq ▸ hlen)
  constructor
  · exact hne _ (by decide)
  · rw [utf8Len_binaryName]
    decide
  · exact notMem_binaryName (by decide) (by decide)
  · exact notMem_binaryName (by decide) (by decide)
  · intro hhead
    exact notMem_binaryName (n := n) (c := '/') (by decide) (by decide) (List.mem_of_head? hhead)
  · rw [hsplit, List.head?_cons]
    exact fun heq => hne _ (by decide) (Option.some.inj heq)
  · rw [hsplit, List.mem_singleton]
    exact fun heq => hne _ (by decide) heq.symm

end Syncbox

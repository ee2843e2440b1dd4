/-
# `Syncbox.Network.Realized` — the tree that a manifest describes

A tree realizes a manifest when the node at every path is the one its record describes:
a file with the size, the hash and the mode, a directory with the mode, a link with the
target, and nothing at a path that is deleted or unknown.

While a remote manifest is applied the tree follows the records step by step
(`Run.standing`), with two exceptions.  A parent may have been made for a path below it
before its own record arrives, if it ever does, and the modes of directories are set at the
very end.  Both are kept as cases of `Standing`; the first is excluded in the end by the
validation of the candidate, the second by the last loop.

## What is proved

  * `Run.standing`: along the plan, every node is the one its record describes, up to the two
    exceptions, wherever the run has got to;
  * `apply_inStep`: an application that succeeds leaves a tree that realizes the manifest it
    saved, and what the remote manifest did not win is as it was;
  * `Realizes.scanSilent`: a scan reads the tree and compares it with the manifest, so a tree
    that realizes its manifest gives it nothing to publish.  What came from a peer keeps the
    peer's version.
-/
import Syncbox.Manifest.Laws
import Syncbox.Network.Containment
import Syncbox.Network.Partial

namespace Syncbox

open Rust Unix Prog

/-! ## Paths and places -/

/-- A path all of whose parts are names of files, so that it spells one place below a root. -/
def Proper (p : Str) : Prop := ∀ part ∈ split p, isFileName part = true

section Places

variable {root : Loc} {p q : Str}

theorem Proper.canonical (hp : Proper p) : Canonical p := fun part hpart =>
  Disk.isName_of_isFileName (hp part hpart)

theorem proper_of_canonical (ha : Accepted p) (hc : Canonical p) : Proper p := fun _ hpart =>
  isFileName_of_canonical ha hc hpart

theorem Proper.ancestor (hp : Proper p) (h : IsAncestor q p) : Proper q := by
  obtain ⟨rest, -, hsplit⟩ := isAncestor_iff.mp h
  exact fun part hpart => hp part (hsplit ▸ List.mem_append_left _ hpart)

theorem target_eq (hc : Canonical p) : target root p = root ++ split p := by
  rw [target, hc.names_split]

theorem place_injective (h : root ++ split p = root ++ split q) : p = q :=
  split_injective (List.append_cancel_left h)

/-- The parents of a path are the root and the places of its ancestors. -/
theorem place_mem_chain (hp : Canonical p) : root ++ split q ∈ chain root p ↔ IsAncestor q p := by
  have hfront : ∀ {init}, init <+: (split p).dropLast → names init = init := fun hi =>
    List.filter_eq_self.mpr fun part hpart =>
      hp part (List.dropLast_subset _ (hi.subset hpart))
  rw [isAncestor_iff]
  constructor
  · rintro ⟨init, hi, heq⟩
    rw [hfront hi] at heq
    obtain rfl := List.append_cancel_left heq
    obtain ⟨rest, hrest⟩ := hi
    obtain ⟨front, last, hsplit⟩ := (List.eq_nil_or_concat (split p)).resolve_left (split_ne_nil p)
    rw [List.concat_eq_append] at hsplit
    rw [hsplit, List.dropLast_concat] at hrest
    exact ⟨rest ++ [last], by simp, by rw [hsplit, ← hrest, List.append_assoc]⟩
  · rintro ⟨rest, hne, hsplit⟩
    have hi : split q <+: (split p).dropLast := by
      obtain ⟨front, last, rfl⟩ := (List.eq_nil_or_concat rest).resolve_left hne
      rw [hsplit, List.concat_eq_append, ← List.append_assoc, List.dropLast_concat]
      exact List.prefix_append _ _
    exact ⟨split q, hi, by rw [hfront hi]⟩

theorem target_notMem (hc : Canonical p) : target root p ∉ chain root p := by
  rw [target_eq hc, place_mem_chain hc]
  exact fun h => h.ne rfl

end Places

/-! ## Records and nodes -/

/-- The mode is the one asked for, if one is. -/
def FitsMode (permissions : Option U16) (m : Mode) : Prop :=
  ∀ mode, permissions = some mode → m = mode.setWidth 12

/-- The node, or the absence of one, that a record describes. -/
inductive Depicts [Crypto] : Option ManifestRecord → Option Node → Prop
  | file {e : ManifestEntry} {c : Content} {m : Mode} {t : U64} (size : c.len = e.size)
      (sha256 : sha256Hex c.val = e.sha256) (mode : FitsMode e.permissions m) :
      Depicts (some (.file e)) (some (.file c m t))
  | directory {e : DirectoryEntry} {m : Mode} (mode : FitsMode e.permissions m) :
      Depicts (some (.directory e)) (some (.dir m))
  | symlink {e : SymlinkEntry} : Depicts (some (.symlink e)) (some (.symlink e.target))
  | tombstone {e : Tombstone} : Depicts (some (.tombstone e)) none
  | absent : Depicts none none

/-- No record of something that exists. -/
def Dead (r : Option ManifestRecord) : Prop := ∀ x, r = some x → x.isTombstone = true

structure Realizes [Crypto] (root : Loc) (m : Manifest) (d : Disk) : Prop where
  isDir : d.IsDir root
  each : ∀ {p}, Proper p → Depicts (m.record p) (d.get (root ++ split p))

/-! ## Records that are level -/

section Level

variable {x y : Option ManifestRecord}

/-- Two records that differ in nothing that is synchronized. -/
def Level (x y : Option ManifestRecord) : Prop :=
  x.map ManifestRecord.synced = y.map ManifestRecord.synced

theorem Level.symm (h : Level x y) : Level y x := Eq.symm h

theorem Level.some_right {x : Option ManifestRecord} {r : ManifestRecord} (h : Level x (some r)) :
    ∃ r', x = some r' ∧ r'.synced = r.synced :=
  Option.map_eq_some_iff.mp h

theorem eq_of_synced {r r' : ManifestRecord} (h : r'.synced = r.synced) :
    r' = r ∨ ∃ e e', r = .file e ∧ r' = .file e' ∧ e'.size = e.size ∧ e'.sha256 = e.sha256
      ∧ e'.permissions = e.permissions := by
  cases r with
  | file e =>
      cases r' with
      | file e' =>
          obtain ⟨hsize, -, hsha, hpermissions, -⟩ := ManifestEntry.mk.inj (ManifestRecord.file.inj h)
          exact .inr ⟨e, e', rfl, rfl, hsize, hsha, hpermissions⟩
      | _ => cases h
  | directory e => cases r' with
      | directory e' => exact .inl h
      | _ => cases h
  | symlink e => cases r' with
      | symlink e' => exact .inl h
      | _ => cases h
  | tombstone e => cases r' with
      | tombstone e' => exact .inl h
      | _ => cases h

end Level

section Depicts

variable [Crypto] {r : Option ManifestRecord} {o : Option Node}

theorem Depicts.dead (hd : Depicts r none) : Dead r := by
  cases hd with
  | tombstone => rintro x ⟨⟩; rfl
  | absent => rintro x ⟨⟩

theorem Depicts.directory_of_dir {m : Mode} (hd : Depicts r (some (.dir m))) :
    ∃ e, r = some (.directory e) := by
  cases hd with
  | directory => exact ⟨_, rfl⟩

theorem Depicts.ne_special (hd : Depicts r o) : o ≠ some .special := by
  rintro rfl
  cases hd

theorem Depicts.level {x y : Option ManifestRecord} (hd : Depicts x o)
    (h : Level y x) : Depicts y o := by
  cases x with
  | none => rwa [Option.map_eq_none_iff.mp h]
  | some r =>
      obtain ⟨r', rfl, hsynced⟩ := h.some_right
      rcases eq_of_synced hsynced with rfl | ⟨e, e', rfl, rfl, hsize, hsha, hpermissions⟩
      · exact hd
      · cases hd with
        | file size sha256 mode =>
            exact .file (size.trans hsize.symm) (sha256.trans hsha.symm) (hpermissions ▸ mode)

end Depicts

/-! ## One step -/

section Step

variable [Crypto] {h : Host} {tmp root : Loc} {local_ : Manifest} {w w' : World} {x : Planned × Bool}

/-- At a path that is not its own a step leaves what is there, or makes a parent. -/
theorem Planned.Did.elsewhere {q : Str} (hd : Planned.Did h tmp root local_ w x w')
    (ht : Tidy tmp root w.disk) (hop : x.1.Sound tmp) (hc : Canonical x.1.path) (hne : q ≠ x.1.path) :
    w'.disk.get (root ++ split q) = w.disk.get (root ++ split q)
      ∨ (w.disk.get (root ++ split q) = none ∧ w'.disk.IsDir (root ++ split q)
        ∧ x.1.creates = true ∧ IsAncestor q x.1.path) := by
  have htarget : root ++ split q ≠ target root x.1.path := by
    rw [target_eq hc]
    exact fun heq => hne (place_injective heq)
  by_cases hin : root ++ split q ∈ chain root x.1.path
  · rcases hd.parents hin htarget with hsame | ⟨hnone, hcreates, hdir⟩
    · exact .inl hsame
    · exact .inr ⟨hnone, hdir, hcreates, (place_mem_chain hc).mp hin⟩
  · refine .inl (hd.effect.changes.frame ?_)
    rintro ((hchain | hsingle) | hstaging)
    · exact hin hchain
    · exact htarget hsingle
    · exact (ht.staging.apart (Planned.staging_subset hop.delivered) _ hstaging).1 (List.prefix_append _ _)

/-- In the staging directory a step takes away its own file, apart from names of temporary links. -/
theorem Planned.Did.inStaging {y : Loc} (hd : Planned.Did h tmp root local_ w x w')
    (ht : Tidy tmp root w.disk) (hbytes : x.1.usesBytes = false) (hy : y ∈ inTmp tmp)
    (hlink : y ∉ linkTemps h tmp) :
    w'.disk.get y = w.disk.get y
      ∨ (w'.disk.get y = none ∧ ∃ p e, x.1 = .file p e (some (.staged y))) := by
  have hout := notMem_chain_of_apart (p := x.1.path) (ht.staging.apart (le_refl _)) hy
  have hframe : y ∉ x.1.staging h tmp → w'.disk.get y = w.disk.get y := by
    intro hno
    refine hd.effect.changes.frame ?_
    rintro ((hin | hin) | hin)
    · exact hout.1 hin
    · exact hout.2 hin
    · exact hno hin
  obtain ⟨op, b⟩ := x
  cases op with
  | symlink p e => exact .inl (hframe hlink)
  | file p e incoming =>
      rcases incoming with _ | (data | z)
      · exact .inl (hframe id)
      · cases hbytes
      · by_cases hz : y = z
        · subst hz
          exact .inr ⟨hd.2.2.2.1, p, e, rfl⟩
        · exact .inl (hframe hz)
  | _ => exact .inl (hframe id)

end Step

/-! ## The order of the plan -/

section Order

variable {local_ remote : Manifest} {fileData : BTreeMap Str IncomingFile}

/-- The five loops, in their order. -/
def Planned.phase : Planned → Nat
  | delete .. => 0
  | directory .. => 1
  | symlink .. => 2
  | file .. => 3
  | mode .. => 4

/-- `x` may be planned before `y`: deletions go upwards, directories downwards. -/
structure Planned.InOrder (x y : Planned) : Prop where
  phase : x.phase ≤ y.phase
  deeper : x.phase = 0 → y.phase = 0 → manifestPathDepth y.path ≤ manifestPathDepth x.path
  sorted : x.phase = 1 → y.phase = 1 → compare x.path y.path = .lt

theorem Planned.InOrder.of_lt {x y : Planned} (h : x.phase < y.phase) : x.InOrder y :=
  ⟨h.le, fun hx hy => by omega, fun hx hy => by omega⟩

theorem record_eq_none_iff {op : Planned} : op.record = none ↔ op.phase = 4 := by
  cases op <;> simp [Planned.record, Planned.phase]

theorem deletions_sorted : (deletions local_ remote).Pairwise fun x y =>
    manifestPathDepth y.1 ≤ manifestPathDepth x.1 := by
  have htotal : Std.Total (@deeperFirst Tombstone) := ⟨fun x y => by
    simp only [deeperFirst]
    rcases le_total x.1 y.1 with hle | hle <;> simp only [hle, and_true] <;> omega⟩
  have htrans : IsTrans (Str × Tombstone) deeperFirst := ⟨fun x y z hxy hyz => by
    simp only [deeperFirst] at *
    rcases hxy with hxy | ⟨hxy, hle⟩ <;> rcases hyz with hyz | ⟨hyz, hle'⟩
    · omega
    · omega
    · omega
    · exact .inr ⟨hyz.trans hxy, hle'.trans hle⟩⟩
  refine (List.pairwise_insertionSort deeperFirst _).imp fun {x y} h => ?_
  rcases h with h | ⟨h, -⟩ <;> omega

theorem winners_sorted {V : Type} {records : BTreeMap Str V} {wrap : V → ManifestRecord} :
    (winners local_ records wrap).Pairwise fun x y => compare x.1 y.1 = .lt :=
  List.Pairwise.filter _ Std.ExtTreeMap.ordered_keys_toList

theorem Planned.InOrder.of_loops {V V' : Type} {l : List V} {l' : List V'} {f : V → Planned}
    {g : V' → Planned} {x y : Planned} (hx : x ∈ l.map f) (hy : y ∈ l'.map g)
    (hlt : ∀ a b, (f a).phase < (g b).phase) : x.InOrder y := by
  obtain ⟨a, -, rfl⟩ := List.mem_map.mp hx
  obtain ⟨b, -, rfl⟩ := List.mem_map.mp hy
  exact .of_lt (hlt a b)

/-- The order in which the loops meet the records. -/
theorem plan_ordered : (plan local_ remote fileData).Pairwise Planned.InOrder := by
  have later : ∀ {V : Type} {l : List (Str × V)} {f : Str × V → Planned} {n : Nat},
      (∀ x, (f x).phase = n) → 2 ≤ n → (l.map f).Pairwise Planned.InOrder := by
    intro V l f n hf hn
    rw [List.pairwise_map]
    exact List.pairwise_of_forall fun x y =>
      ⟨by rw [hf, hf], fun hx => by rw [hf] at hx; omega, fun hx => by rw [hf] at hx; omega⟩
  simp only [plan, List.pairwise_append, List.mem_append]
  refine ⟨⟨⟨⟨?_, ?_, ?_⟩, later (fun _ => rfl) le_rfl, ?_⟩, later (fun _ => rfl) (by decide), ?_⟩,
    later (fun _ => rfl) (by decide), ?_⟩
  · rw [List.pairwise_map]
    exact deletions_sorted.imp fun h => ⟨le_rfl, fun _ _ => h, fun hx => by cases hx⟩
  · rw [List.pairwise_map]
    exact winners_sorted.imp fun h => ⟨le_rfl, fun hx => (by cases hx), fun _ _ => h⟩
  · intro x hx y hy
    exact .of_loops hx hy fun _ _ => by simp [Planned.phase]
  · rintro x (hx | hx) y hy <;> exact .of_loops hx hy fun _ _ => by simp [Planned.phase]
  · rintro x ((hx | hx) | hx) y hy <;> exact .of_loops hx hy fun _ _ => by simp [Planned.phase]
  · rintro x (((hx | hx) | hx) | hx) y hy <;> exact .of_loops hx hy fun _ _ => by simp [Planned.phase]

variable {pre post : List Planned} {op : Planned}

theorem plan_wins (hsep : remote.Separated) (hop : op ∈ plan local_ remote fileData) :
    ∃ r, Wins local_ remote op.path r := by
  cases hr : op.record with
  | some r => exact ⟨r, wins_of_mem_plan hsep hop hr⟩
  | none =>
      cases op with
      | mode p permissions =>
          obtain ⟨e, he, hwins, -⟩ := mem_directoryPermissions.mp (mem_plan.mp hop)
          exact ⟨_, hsep.directories_iff.mpr he, hwins⟩
      | _ => cases hr

theorem inOrder_of_before (hplan : plan local_ remote fileData = pre ++ op :: post) {y : Planned}
    (hy : y ∈ pre) : y.InOrder op := by
  have hordered := hplan ▸ @plan_ordered local_ remote fileData
  exact (List.pairwise_append.mp hordered).2.2 y hy op List.mem_cons_self

/-- A step that may not come after another one is done before it. -/
theorem before_of_not_inOrder (hplan : plan local_ remote fileData = pre ++ op :: post) {y : Planned}
    (hy : y ∈ plan local_ remote fileData) (hne : y ≠ op) (hno : ¬ op.InOrder y) : y ∈ pre := by
  have hordered := hplan ▸ @plan_ordered local_ remote fileData
  rw [hplan, List.mem_append, List.mem_cons] at hy
  rcases hy with hy | hy | hy
  · exact hy
  · exact absurd hy hne
  · exact absurd ((List.pairwise_cons.mp (List.pairwise_append.mp hordered).2.1).1 y hy) hno

theorem before_of_phase_lt (hplan : plan local_ remote fileData = pre ++ op :: post) {y : Planned}
    (hy : y ∈ plan local_ remote fileData) (hlt : y.phase < op.phase) : y ∈ pre :=
  before_of_not_inOrder hplan hy (fun heq => (heq ▸ hlt).false) fun hin => absurd hin.phase hlt.not_ge

end Order

/-! ## What stands at a path along the plan -/

/-- The files delivered are those of the remote manifest, each under its own name. -/
def Verified [Crypto] (tmp : Loc) (remote : Manifest) (fileData : BTreeMap Str IncomingFile)
    (d : Disk) : Prop :=
  ∀ p incoming, fileData[p]? = some incoming → ∃ e, remote.record p = some (.file e)
    ∧ incoming = .staged (partialPath tmp p e.sha256)
    ∧ HasContent d (partialPath tmp p e.sha256) e.size e.sha256

/-- The node at `p` while the plan is carried out: `l` has been done and `r` is the record
that results at `p`. -/
inductive Standing [Crypto] (l : List (Planned × Bool)) (p : Str) (r : Option ManifestRecord)
    (o : Option Node) : Prop
  | fits (depicts : Depicts r o)
  /-- A directory that nothing records yet, made for a path below it. -/
  | made (dead : Dead r) (dir : ∃ m, o = some (.dir m))
      (below : ∃ x ∈ l, x.1.creates = true ∧ IsAncestor p x.1.path)
  /-- A directory whose mode is still to be set. -/
  | unset (e : DirectoryEntry) (record : r = some (.directory e)) (dir : ∃ m, o = some (.dir m))
      (applied : ∃ b, (.directory p e, b) ∈ l) (waiting : ∀ x ∈ l, x.1.path = p → x.1.record ≠ none)

section Standing

variable [Crypto] {l : List (Planned × Bool)} {p : Str} {r : Option ManifestRecord} {o : Option Node}

theorem Standing.dead (hs : Standing l p r none) : Dead r := by
  cases hs with
  | fits h => exact h.dead
  | made _ dir _ => obtain ⟨m, hm⟩ := dir; cases hm
  | unset _ _ dir _ _ => obtain ⟨m, hm⟩ := dir; cases hm

theorem Standing.ne_special (hs : Standing l p r o) : o ≠ some .special := by
  cases hs with
  | fits h => exact h.ne_special
  | made _ dir _ => obtain ⟨m, rfl⟩ := dir; simp
  | unset _ _ dir _ _ => obtain ⟨m, rfl⟩ := dir; simp

theorem Standing.dir {e : DirectoryEntry} (hs : Standing l p (some (.directory e)) o) :
    ∃ m, o = some (.dir m) := by
  cases hs with
  | fits h => cases h with | directory => exact ⟨_, rfl⟩
  | made dead _ _ => cases dead _ rfl
  | unset _ _ dir _ _ => exact dir

theorem Standing.snoc {x : Planned × Bool} (hs : Standing l p r o)
    (hx : x.1.path = p → x.1.record ≠ none) : Standing (l ++ [x]) p r o := by
  cases hs with
  | fits h => exact .fits h
  | made dead dir below =>
      obtain ⟨y, hy, hbelow⟩ := below
      exact .made dead dir ⟨y, List.mem_append_left _ hy, hbelow⟩
  | unset e record dir applied waiting =>
      obtain ⟨b, hb⟩ := applied
      refine .unset e record dir ⟨b, List.mem_append_left _ hb⟩ fun y hy hpath => ?_
      rcases List.mem_append.mp hy with hy | hy
      · exact waiting y hy hpath
      · rw [List.mem_singleton] at hy
        exact hy ▸ hx (hy ▸ hpath)

end Standing

section Step

variable [Crypto] {h : Host} {tmp root : Loc} {local_ remote : Manifest}
  {fileData : BTreeMap Str IncomingFile} {w₀ w w' : World} {l : List (Planned × Bool)}
  {x : Planned × Bool} {post : List Planned}

/-- Staged files are at most taken away. -/
def StagingKept (h : Host) (tmp : Loc) (d d' : Disk) : Prop :=
  ∀ {y}, y ∈ inTmp tmp → y ∉ linkTemps h tmp → d'.get y = d.get y ∨ d'.get y = none

theorem partialPath_notMem_linkTemps (p sha : Str) : partialPath tmp p sha ∉ linkTemps h tmp := by
  rintro ⟨random, heq⟩
  have hname := List.head_eq_of_cons_eq (List.append_cancel_left heq)
  have hhead : some 'c' = some 's' := congrArg List.head? hname
  simp at hhead

theorem StagingKept.content {d d' : Disk} {p sha : Str} {size : U64} {sha' : Str} {c : Content}
    {m : Mode} {t : U64} (hk : StagingKept h tmp d d')
    (hcontent : HasContent d (partialPath tmp p sha) size sha')
    (hget : d'.get (partialPath tmp p sha) = some (.file c m t)) :
    c.len = size ∧ sha256Hex c.val = sha' := by
  have hmem : partialPath tmp p sha ∈ inTmp tmp := ⟨_, rfl⟩
  obtain ⟨c₀, m₀, t₀, hold, hsize, hsha⟩ := hcontent
  rcases hk hmem (partialPath_notMem_linkTemps p sha) with hsame | hnone
  · rw [hsame, hold] at hget
    cases hget
    exact ⟨hsize, hsha⟩
  · rw [hget] at hnone
    cases hnone

theorem Verified.delivers {d : Disk} (hv : Verified tmp remote fileData d) :
    Delivers tmp fileData := by
  intro p incoming hp
  obtain ⟨e, -, rfl, -⟩ := hv _ _ hp
  exact ⟨_, isFileName_partialName p e.sha256, rfl⟩

theorem depicts_of_modeSet {loc : Loc} {d d' : Disk} {e : ManifestEntry} {c : Content} {m : Mode}
    {t : U64} (hget : d.get loc = some (.file c m t)) (hsize : c.len = e.size)
    (hsha : sha256Hex c.val = e.sha256) (hset : ModeSet false e.permissions loc d d') :
    Depicts (some (.file e)) (d'.get loc) := by
  cases hperm : e.permissions with
  | none =>
      rw [hperm] at hset
      rw [show d'.get loc = d.get loc from hset, hget]
      exact .file hsize hsha (by rw [hperm]; rintro _ ⟨⟩)
  | some mode =>
      rw [hperm] at hset
      obtain ⟨node, hnode, -, hnew⟩ := hset
      rw [hget] at hnode
      cases hnode
      rw [hnew]
      refine .file hsize hsha ?_
      rw [hperm]
      rintro _ ⟨⟩
      rfl

theorem depicts_of_directoryModeSet {loc : Loc} {d d' : Disk} {e : DirectoryEntry} {m : Mode}
    {permissions : Option U16} (hperm : e.permissions = permissions)
    (hget : d.get loc = some (.dir m)) (hset : ModeSet true permissions loc d d') :
    Depicts (some (.directory e)) (d'.get loc) := by
  cases permissions with
  | none =>
      rw [show d'.get loc = d.get loc from hset, hget]
      exact .directory (by rw [hperm]; rintro _ ⟨⟩)
  | some mode =>
      obtain ⟨node, hnode, -, hnew⟩ := hset
      rw [hget] at hnode
      cases hnode
      rw [hnew]
      refine .directory ?_
      rw [hperm]
      rintro _ ⟨⟩
      rfl

omit [Crypto] in
theorem before_apart (hsep : remote.Separated)
    (hplan : plan local_ remote fileData = l.map Prod.fst ++ post) :
    (l.map Prod.fst).Pairwise Planned.Apart :=
  (List.pairwise_append.mp (hplan ▸ plan_distinct hsep)).1

/-- What a step leaves at its own path. -/
theorem Planned.Did.standing (hd : Planned.Did h tmp root local_ w x w')
    (hplan : plan local_ remote fileData = l.map Prod.fst ++ x.1 :: post)
    (hsep : remote.Separated) (hc : Canonical x.1.path) (hv : Verified tmp remote fileData w₀.disk)
    (hstaged : StagingKept h tmp w₀.disk w.disk)
    (hs : Standing l x.1.path (overlay local_.record l x.1.path)
      (w.disk.get (root ++ split x.1.path))) :
    Standing (l ++ [x]) x.1.path (overlay local_.record (l ++ [x]) x.1.path)
      (w'.disk.get (root ++ split x.1.path)) := by
  have hchain : target root x.1.path ∉ chain root x.1.path := target_notMem hc
  rw [← target_eq hc] at hs ⊢
  rw [overlay_snoc]
  obtain ⟨op, b⟩ := x
  cases op with
  | delete p t =>
      obtain ⟨-, -, hremoved⟩ := hd
      rcases hremoved hchain with hnone | ⟨hspecial, -⟩
      · refine .fits ?_
        simp only [brings, Planned.record, Planned.path, Function.update_self, hnone]
        exact .tombstone
      · exact absurd hspecial hs.ne_special
  | directory p e =>
      obtain ⟨-, -, hensured⟩ := hd
      have hdir : ∃ m, w'.disk.get (target root p) = some (.dir m) := by
        rcases hensured hchain with ⟨m, -, hm⟩ | ⟨-, hm⟩
        · exact ⟨m, hm⟩
        · exact ⟨_, hm⟩
      refine .unset e ?_ hdir ⟨b, by simp [Planned.path]⟩ fun y hy _ => ?_
      · simp only [brings, Planned.record, Planned.path, Function.update_self]
      · rcases List.mem_append.mp hy with hy | hy
        · have hphase := (inOrder_of_before hplan (List.mem_map_of_mem hy)).phase
          intro hnone
          rw [record_eq_none_iff.mp hnone] at hphase
          exact absurd hphase (by simp [Planned.phase])
        · rw [List.mem_singleton.mp hy]
          exact Option.some_ne_none _
  | symlink p e =>
      obtain ⟨-, -, -, hget, -⟩ := hd
      refine .fits ?_
      simp only [brings, Planned.record, Planned.path, Function.update_self, hget]
      exact .symlink
  | file p e incoming =>
      have hmem : Planned.file p e incoming ∈ plan local_ remote fileData := by simp [hplan]
      obtain ⟨hwins, hincoming⟩ := mem_plan.mp hmem
      rcases incoming with _ | incoming
      · rcases hd with ⟨-, rfl, rfl⟩ | ⟨-, -, hb, hset, hkeep⟩
        · exact hs.snoc fun _ => Option.some_ne_none _
        · cases b with
          | false =>
              have hs : Standing l p (overlay local_.record l p) (w.disk.get (target root p)) := hs
              rw [← hkeep rfl hchain] at hs
              exact hs.snoc fun _ => Option.some_ne_none _
          | true =>
              obtain ⟨c, m, t, hget, hsize, hsha⟩ := hb.mp rfl
              refine .fits ?_
              simp only [brings, Planned.record, Planned.path, Function.update_self]
              exact depicts_of_modeSet hget hsize hsha (hset rfl).2
      · obtain ⟨e', hrecord, rfl, hcontent⟩ := hv _ _ hincoming.symm
        obtain rfl : e' = e := by
          have := Manifest.record_file_iff.mp hrecord
          rw [(mem_winners.mp hwins).1] at this
          exact (Option.some.inj this).symm
        obtain ⟨-, -, -, -, c, m, t, m', t', hold, hnew, hmode⟩ := hd
        obtain ⟨hsize, hsha⟩ := hstaged.content hcontent hold
        refine .fits ?_
        simp only [brings, Planned.record, Planned.path, Function.update_self, hnew]
        exact .file hsize hsha hmode
  | mode p permissions =>
      have hmem : Planned.mode p permissions ∈ plan local_ remote fileData := by simp [hplan]
      obtain ⟨e, hdirs, hwins, hperm⟩ := mem_directoryPermissions.mp (mem_plan.mp hmem)
      have hstep : Planned.directory p e ∈ plan local_ remote fileData :=
        mem_plan.mpr (mem_winners.mpr ⟨hdirs, hwins⟩)
      obtain ⟨y, hy, hyop⟩ := List.mem_map.mp
        (before_of_phase_lt hplan hstep (by decide : 1 < 4))
      obtain ⟨op, b'⟩ := y
      obtain rfl : op = .directory p e := hyop
      have hrecord : overlay local_.record l p = some (.directory e) :=
        overlay_of_brings (before_apart hsep hplan) hy rfl
      obtain ⟨m, hm⟩ := (hrecord ▸ hs : Standing l p (some (.directory e)) _).dir
      obtain ⟨-, -, hset⟩ := hd
      refine .fits ?_
      simp only [brings, Planned.record, Planned.path, hrecord]
      exact depicts_of_directoryModeSet hperm hm (hset hchain)

theorem Standing.step (hd : Planned.Did h tmp root local_ w x w')
    (hplan : plan local_ remote fileData = l.map Prod.fst ++ x.1 :: post)
    (hsep : remote.Separated) (hsound : x.1.Sound tmp) (hc : Canonical x.1.path)
    (hv : Verified tmp remote fileData w₀.disk) (ht : Tidy tmp root w.disk)
    (hstaged : StagingKept h tmp w₀.disk w.disk)
    (hs : ∀ {q}, Proper q → Standing l q (overlay local_.record l q) (w.disk.get (root ++ split q)))
    {q : Str} (hq : Proper q) :
    Standing (l ++ [x]) q (overlay local_.record (l ++ [x]) q) (w'.disk.get (root ++ split q)) := by
  by_cases heq : q = x.1.path
  · subst heq
    exact hd.standing hplan hsep hc hv hstaged (hs hq)
  · have hrecord : overlay local_.record (l ++ [x]) q = overlay local_.record l q := by
      rw [overlay_snoc]
      cases brings x with
      | none => rfl
      | some r => exact Function.update_of_ne heq _ _
    rw [hrecord]
    rcases hd.elsewhere ht hsound hc heq with hsame | ⟨hnone, hdir, hcreates, hbelow⟩
    · rw [hsame]
      exact (hs hq).snoc fun hpath => absurd hpath.symm heq
    · have hdead := hs hq
      rw [hnone] at hdead
      exact .made hdead.dead hdir ⟨x, by simp, hcreates, hbelow⟩

namespace Run

variable {q : Str} (hr : Run h tmp root local_ w₀ l w)
include hr

/-- A run keeps the staged files but for those it installs. -/
theorem staged (ht : Tidy tmp root w₀.disk)
    (hsound : ∀ y ∈ l, y.1.Sound tmp ∧ y.1.usesBytes = false) {y : Loc} (hy : y ∈ inTmp tmp)
    (hlink : y ∉ linkTemps h tmp) :
    w.disk.get y = w₀.disk.get y
      ∨ (w.disk.get y = none ∧ ∃ x ∈ l, ∃ p e, x.1 = .file p e (some (.staged y))) := by
  induction hr with
  | nil => exact .inl rfl
  | @snoc l w x w' run did ih =>
      have hbefore : ∀ z ∈ l, z.1.Sound tmp ∧ z.1.usesBytes = false := fun z hz =>
        hsound z (List.mem_append_left _ hz)
      have htidy := run.tidy (fun z hz => (hbefore z hz).1) ht
      rcases did.inStaging htidy (hsound x (by simp)).2 hy hlink with hsame | ⟨hnone, hx⟩
      · rw [hsame]
        refine (ih hbefore).imp_right ?_
        rintro ⟨hnone, z, hz, hfile⟩
        exact ⟨hnone, z, List.mem_append_left _ hz, hfile⟩
      · exact .inr ⟨hnone, x, by simp, hx⟩

theorem stagingKept (ht : Tidy tmp root w₀.disk)
    (hsound : ∀ y ∈ l, y.1.Sound tmp ∧ y.1.usesBytes = false) : StagingKept h tmp w₀.disk w.disk :=
  fun hy hlink => (hr.staged ht hsound hy hlink).imp_right And.left

/-- Along the plan, what stands at every path follows the records. -/
theorem standing (hplan : plan local_ remote fileData = l.map Prod.fst ++ post)
    (hsep : remote.Separated)
    (hsound : ∀ op ∈ plan local_ remote fileData, op.Sound tmp ∧ op.usesBytes = false)
    (hcan : ∀ op ∈ plan local_ remote fileData, Canonical op.path)
    (hv : Verified tmp remote fileData w₀.disk) (ht : Tidy tmp root w₀.disk)
    (hreal : Realizes root local_ w₀.disk) (hq : Proper q) :
    Standing l q (overlay local_.record l q) (w.disk.get (root ++ split q)) := by
  induction hr generalizing post q with
  | nil => exact .fits (hreal.each hq)
  | @snoc l w x w' run did ih =>
      have hplan' : plan local_ remote fileData = l.map Prod.fst ++ x.1 :: post := by
        rw [hplan]; simp
      have hmem : ∀ z ∈ l ++ [x], z.1 ∈ plan local_ remote fileData := fun z hz => by
        rw [hplan]
        exact List.mem_append_left _ (List.mem_map_of_mem hz)
      have hbefore : ∀ z ∈ l, z.1.Sound tmp ∧ z.1.usesBytes = false := fun z hz =>
        hsound _ (hmem z (List.mem_append_left _ hz))
      have hx := hmem x (by simp)
      exact Standing.step did hplan' hsep (hsound _ hx).1 (hcan _ hx) hv
        (run.tidy (fun z hz => (hbefore z hz).1) ht) (run.stagingKept ht hbefore)
        (fun hq => ih hplan' hq) hq

/-- Where no step is planned, a node stays as it is. -/
theorem untouched (ht : Tidy tmp root w₀.disk) (hsound : ∀ y ∈ l, y.1.Sound tmp)
    (hcan : ∀ y ∈ l, Canonical y.1.path) (hq : ∀ y ∈ l, q ≠ y.1.path) {node : Node}
    (hget : w₀.disk.get (root ++ split q) = some node) :
    w.disk.get (root ++ split q) = some node := by
  induction hr with
  | nil => exact hget
  | @snoc l w x w' run did ih =>
      have hbefore : ∀ z ∈ l, z ∈ l ++ [x] := fun z hz => List.mem_append_left _ hz
      have hx : x ∈ l ++ [x] := by simp
      have hold := ih (fun z hz => hsound z (hbefore z hz)) (fun z hz => hcan z (hbefore z hz))
        fun z hz => hq z (hbefore z hz)
      have htidy := run.tidy (fun z hz => hsound z (hbefore z hz)) ht
      rcases did.elsewhere htidy (hsound x hx) (hcan x hx) (hq x hx) with hsame | ⟨hnone, -⟩
      · rw [hsame, hold]
      · cases hold.symm.trans hnone

theorem exists_did (hx : x ∈ l) :
    ∃ w₁ w₂, Planned.Did h tmp root local_ w₁ x w₂ := by
  induction hr with
  | nil => cases hx
  | @snoc l w y w' run did ih =>
      rcases List.mem_append.mp hx with hx | hx
      · exact ih hx
      · rw [List.mem_singleton.mp hx]
        exact ⟨w, w', did⟩

theorem overlaid (hlocal : local_.Separated) (hsep : remote.Separated)
    (hl : l.map Prod.fst = plan local_ remote fileData) :
    Overlaid local_ l (Applying.afterAll local_ l) := by
  refine overlaid_afterAll hlocal (hl ▸ plan_distinct hsep) fun {p e} hmem => ?_
  obtain ⟨w₁, w₂, hdid⟩ := hr.exists_did hmem
  rcases hdid with ⟨-, hfalse, -⟩ | ⟨hmatch, -⟩
  · cases hfalse
  · rw [localContentMatches, Option.any_eq_true] at hmatch
    obtain ⟨e', he', -⟩ := hmatch
    exact ⟨e', Manifest.record_file_iff.mpr he'⟩

end Run

end Step

/-! ## The end of the plan -/

/-- Every path of the manifest spells one place in one way. -/
def Manifest.CanonicalPaths (m : Manifest) : Prop := ∀ {p r}, m.record p = some r → Canonical p

instance (m : Manifest) : Decidable m.CanonicalPaths :=
  decidable_of_iff (∀ p ∈ m.paths, Canonical p) <| by
    simp only [Manifest.mem_paths]
    exact ⟨fun h {p r} hr => h p ⟨r, hr⟩, fun h p hp => hp.elim fun r hr => h hr⟩

section Finish

variable {h : Host} {tmp root : Loc} {local_ remote candidate : Manifest} {shareId : ShareId}
  {fileData : BTreeMap Str IncomingFile} {w₀ w : World} {l : List (Planned × Bool)}

theorem brings_of_creates {x : Planned × Bool} (hx : x.1.creates = true) :
    ∃ r, brings x = some r ∧ x.1.record = some r ∧ r.isTombstone = false := by
  obtain ⟨op, b⟩ := x
  cases op with
  | delete p t => cases hx
  | directory p e => exact ⟨_, rfl, rfl, rfl⟩
  | symlink p e => exact ⟨_, rfl, rfl, rfl⟩
  | file p e incoming =>
      cases incoming with
      | none => cases hx
      | some incoming => exact ⟨_, rfl, rfl, rfl⟩
  | mode p permissions => cases hx

theorem overlay_ne_none (hsep : remote.Separated) (hl : l.map Prod.fst = plan local_ remote fileData)
    {p : Str} {e : DirectoryEntry} (hremote : remote.record p = some (.directory e)) :
    overlay local_.record l p ≠ none := by
  have hpending : p ∉ pendingPaths l := by
    intro hp
    obtain ⟨e', hwins, -⟩ := wins_of_pending hsep hl hp
    cases hremote.symm.trans hwins.1
  rw [overlay_eq hsep hl, if_neg hpending]
  rcases @select_eq local_ remote p with ⟨r, -, hr⟩ | ⟨hno, hr⟩
  · rw [hr]
    exact Option.some_ne_none _
  · rw [hr]
    intro hnone
    exact hno _ ⟨hremote, by rw [hnone]; rfl⟩

variable [Crypto]

/-- A parent that nothing records would stand above a live path: the candidate rejects it. -/
theorem Standing.not_made {p : Str} (hsep : remote.Separated)
    (hl : l.map Prod.fst = plan local_ remote fileData)
    (hholds : candidate.Holds (overlay local_.record l)) (hvalid : candidate.Valid shareId)
    (hrecorded : remote.AncestorsRecorded) (hdead : Dead (overlay local_.record l p))
    {x : Planned × Bool} (hx : x ∈ l) (hcreates : x.1.creates = true)
    (hbelow : IsAncestor p x.1.path) : False := by
  obtain ⟨r, hbrings, hrecord, hlive⟩ := brings_of_creates hcreates
  have hmem : x.1 ∈ plan local_ remote fileData := hl ▸ List.mem_map_of_mem hx
  have hwins := wins_of_mem_plan hsep hmem hrecord
  obtain ⟨e, he⟩ := hrecorded ⟨r, hwins.1, hlive⟩ hbelow
  have hx' : candidate.record x.1.path = some r := by
    rw [hholds.record_eq]
    exact overlay_of_brings (hl ▸ plan_distinct hsep) hx hbrings
  rcases hvalid.hierarchy ⟨r, hx', hlive⟩ hbelow with hnone | ⟨e', hdir⟩
  · rw [hholds.record_eq] at hnone
    exact overlay_ne_none hsep hl he hnone
  · rw [hholds.record_eq] at hdir
    cases hdead _ hdir

/-- When the plan is done and its outcome is valid, the tree realizes it. -/
theorem Run.realizes (hr : Run h tmp root local_ w₀ l w)
    (hl : l.map Prod.fst = plan local_ remote fileData) (hremote : remote.Valid shareId)
    (hcanonical : remote.CanonicalPaths) (hrecorded : remote.AncestorsRecorded)
    (hholds : candidate.Holds (overlay local_.record l)) (hvalid : candidate.Valid shareId)
    (hv : Verified tmp remote fileData w₀.disk) (ht : Tidy tmp root w₀.disk)
    (hreal : Realizes root local_ w₀.disk) : Realizes root candidate w.disk := by
  have hsound : ∀ op ∈ plan local_ remote fileData, op.Sound tmp ∧ op.usesBytes = false :=
    plan_sound hremote hv.delivers
  have hcan : ∀ op ∈ plan local_ remote fileData, Canonical op.path := by
    intro op hop
    obtain ⟨r, hr, -⟩ := plan_wins hremote.separated hop
    exact hcanonical hr
  refine ⟨(hr.tidy (fun x hx => (hsound _ (hl ▸ List.mem_map_of_mem hx)).1) ht).dir, ?_⟩
  intro p hp
  rw [hholds.record_eq]
  have hplan : plan local_ remote fileData = l.map Prod.fst ++ [] := by rw [hl, List.append_nil]
  have hstands := hr.standing hplan hremote.separated hsound hcan hv ht hreal hp
  cases hstands with
  | fits h => exact h
  | made hdead _ hbelow =>
      obtain ⟨x, hx, hcreates, hbelow⟩ := hbelow
      exact (Standing.not_made hremote.separated hl hholds hvalid hrecorded hdead hx hcreates hbelow).elim
  | unset e _ _ happlied hwaiting =>
      obtain ⟨b, hb⟩ := happlied
      have hmem : Planned.directory p e ∈ plan local_ remote fileData := hl ▸ List.mem_map_of_mem hb
      obtain ⟨hdirs, hwins⟩ := mem_winners.mp (mem_plan.mp hmem)
      have hmode : Planned.mode p e.permissions ∈ plan local_ remote fileData :=
        mem_plan.mpr (mem_directoryPermissions.mpr ⟨e, hdirs, hwins, rfl⟩)
      obtain ⟨y, hy, hyop⟩ := List.mem_map.mp (hl ▸ hmode)
      refine absurd ?_ (hwaiting y hy (by rw [hyop]; rfl))
      rw [hyop]
      rfl

end Finish

/-! ## The next scan -/

section Scan

variable {root : Loc} {m : Manifest} {d : Disk} {shareId : ShareId}

theorem setWidth_setWidth {mode : U16} (hm : mode.toNat ≤ 0o7777) :
    (mode.setWidth 12).setWidth 16 = mode := by
  apply BitVec.eq_of_toNat_eq
  simp only [BitVec.toNat_setWidth]
  omega

theorem FitsMode.matches {permissions : Option U16} {node : Node} (hf : FitsMode permissions node.mode)
    (hvalid : validatePermissions permissions = .ok ()) :
    permissionsMatch permissions (permissionsFromMetadata node) true = true := by
  cases permissions with
  | none => rfl
  | some mode =>
      have hle : mode.toNat ≤ 0o7777 := by simpa [validatePermissions] using hvalid
      simp [permissionsMatch, permissionsFromMetadata, hf mode rfl, setWidth_setWidth hle]

variable [Crypto]

theorem describeFile_matches {p : Str} {e : ManifestEntry} {c : Content} {mode : Mode} {t : U64}
    (hentry : m.entries[p]? = some e) (hsize : c.len = e.size) (hsha : sha256Hex c.val = e.sha256)
    (hmode : permissionsMatch e.permissions (permissionsFromMetadata (.file c mode t)) true = true) :
    fileMatches true e (describeFile m true p c (.file c mode t)) = true := by
  unfold describeFile
  rw [hentry, Option.filter_some]
  by_cases hstill : stillDescribes (.file c mode t) true e = true
  · simp [hstill, fileMatches, permissionsMatch]
  · simp [hstill, fileMatches, Node.len, hsize, hsha, hmode]

theorem Depicts.unchanged {p : Str} (hd : Depicts (m.record p) (d.get (root ++ split p)))
    (hvalid : m.Valid shareId) : ¬ Changed m true p (look m true d root p) := by
  unfold look
  generalize hr : m.record p = r at hd
  generalize d.get (root ++ split p) = o at hd
  cases hd with
  | @file e c mode t hsize hsha hmode =>
      have hentry := Manifest.record_file_iff.mp hr
      have hperm : validatePermissions e.permissions = .ok () := by
        have hok := hvalid.record_valid hr
        simp only [ManifestRecord.validate, ManifestEntry.validate, Check.bind_eq_ok] at hok
        obtain ⟨-, -, u, hperm, -⟩ := hok
        exact hperm
      have hfits : FitsMode e.permissions (Node.file c mode t).mode := hmode
      have hmatch := describeFile_matches hentry hsize hsha (hfits.matches hperm)
      simp [Changed, describe, retained, hentry, Option.filter_some, hmatch]
  | @directory e mode hmode =>
      have hentry := Manifest.record_directory hr
      have hperm : validatePermissions e.permissions = .ok () := by
        have hok := hvalid.record_valid hr
        simp only [ManifestRecord.validate, DirectoryEntry.validate, Check.bind_eq_ok] at hok
        obtain ⟨u, hperm, -⟩ := hok
        exact hperm
      have hfits : FitsMode e.permissions (Node.dir mode).mode := hmode
      simp [Changed, describe, retained, hentry, Option.filter_some, directoryMatches,
        hfits.matches hperm]
  | @symlink e =>
      have hentry := Manifest.record_symlink hr
      simp [Changed, describe, retained, hentry, Option.filter_some, symlinkMatches]
  | tombstone =>
      rintro ⟨r, hr', hlive⟩
      rw [hr] at hr'
      cases hr'
      cases hlive
  | absent =>
      rintro ⟨r, hr', -⟩
      cases hr.symm.trans hr'

theorem Realizes.unchanged (hreal : Realizes root m d) (hvalid : m.Valid shareId)
    (hcanonical : m.CanonicalPaths) (p : Str) : ¬ Changed m true p (look m true d root p) := by
  by_cases hp : Proper p
  · exact (hreal.each hp).unchanged hvalid
  · have hnone : d.get (root ++ split p) = none := by
      cases hget : d.get (root ++ split p) with
      | none => rfl
      | some node =>
          refine absurd (fun part hpart => ?_) hp
          exact Disk.isFileName_of_get hget part (List.mem_append_right _ hpart)
    rw [look, hnone]
    rintro ⟨r, hr, -⟩
    exact hp (proper_of_canonical (hvalid.accepted hr) (hcanonical hr))

/-- In a tree every node stands in directories, so a manifest it realizes records them. -/
theorem Realizes.recorded (hreal : Realizes root m d) (hvalid : m.Valid shareId)
    (hcanonical : m.CanonicalPaths) : m.AncestorsRecorded := by
  rintro p a ⟨r, hr, hlive⟩ ha
  have hp : Proper p := proper_of_canonical (hvalid.accepted hr) (hcanonical hr)
  obtain ⟨node, hnode⟩ : ∃ node, d.get (root ++ split p) = some node := by
    refine Option.ne_none_iff_exists'.mp fun hnone => ?_
    have hdead := (hnone ▸ hreal.each hp :).dead r hr
    rw [hlive] at hdead
    cases hdead
  obtain ⟨rest, hne, hsplit⟩ := isAncestor_iff.mp ha
  rw [hsplit, ← List.append_assoc] at hnode
  obtain ⟨mode, hdir⟩ := Disk.isDir_of_prefix hnode hne
  exact (hdir ▸ hreal.each (hp.ancestor ha) :).directory_of_dir

end Scan

/-! ## The whole application -/

theorem unknownPermissionsMatch_current {m : Manifest}
    (hformat : m.formatVersion = MANIFEST_FORMAT_VERSION) : unknownPermissionsMatch m = true := by
  rw [unknownPermissionsMatch, hformat]
  decide

section Apply

variable [Crypto] {share : ActiveShare} {h : Host} {s : ShareState} {remote : Manifest}
  {fileData : BTreeMap Str IncomingFile}

/-- A scan finds nothing to publish: it counts no change and authors no version. -/
structure ScanSilent (share : ActiveShare) (s : ShareState) : Prop where
  scan : ∀ {h clock endpointId nowMs},
    (scanManifestCachedAfterValidation share.localDirectory s.manifestFile clock endpointId nowMs).wp
      h s.world (fun r w' => r.changes = 0 ∧ w'.disk = s.world.disk
        ∧ r.manifest.syncDigestAfterValidation = s.manifestFile.syncDigestAfterValidation)
      fun _ _ => ¬ (clock.validate = .ok () ∧ Scannable h s.world.disk share.localDirectory)
  save : ∀ {h}, (scanAndSave share).wp h s (fun _ s' => s'.clockFile = s.clockFile
        ∧ s'.manifestFile.syncDigestAfterValidation = s.manifestFile.syncDigestAfterValidation)
      fun _ s' =>
        s'.manifestFile.syncDigestAfterValidation = s.manifestFile.syncDigestAfterValidation

/-- A tree that realizes the saved manifest has nothing new. -/
theorem Realizes.sight_unchanged (hs : s.Consistent share)
    (hformat : s.manifestFile.formatVersion = MANIFEST_FORMAT_VERSION)
    (hcanonical : s.manifestFile.CanonicalPaths)
    (hreal : Realizes share.localDirectory s.manifestFile s.world.disk) (p : Str) :
    ¬ Changed s.manifestFile (unknownPermissionsMatch s.manifestFile) p
      (sight s.manifestFile s.world.disk share.localDirectory p) := by
  rw [sight, unknownPermissionsMatch_current hformat]
  exact hreal.unchanged hs.valid hcanonical p

/-- Nothing is published from a tree that realizes the saved manifest. -/
theorem Realizes.scanSilent (hs : s.Consistent share)
    (hformat : s.manifestFile.formatVersion = MANIFEST_FORMAT_VERSION)
    (hcanonical : s.manifestFile.CanonicalPaths)
    (hreal : Realizes share.localDirectory s.manifestFile s.world.disk) : ScanSilent share s := by
  have hvalid := hs.valid
  have hun := hreal.sight_unchanged hs hformat hcanonical
  have hsynced : ∀ {clock endpointId m n c}, Rescanned s.manifestFile clock endpointId
      (unknownPermissionsMatch s.manifestFile) (sight s.manifestFile s.world.disk share.localDirectory)
      m n c → m.SyncEq s.manifestFile := fun hre p =>
    (hre.rescans p).synced_of_not_changed hvalid.separated (hun p)
  refine ⟨?_, ?_⟩
  · intro h clock endpointId nowMs
    refine wp_mono (scan_spec hreal.isDir (hvalid.share ▸ hvalid)) ?_ ?_
    · rintro r w' ⟨hdisk, hre, hr, -⟩
      rw [hvalid.share] at hr
      exact ⟨hre.changes.mpr hun, hdisk,
        (hsynced hre).digest hr hvalid (hre.format.trans hformat.symm)⟩
    · rintro _ w' ⟨-, hno⟩ ⟨hclock, hscannable⟩
      exact hno ⟨hclock, hscannable, hun⟩
  · intro h
    have hsaved : ∀ {n s'}, s'.Consistent share → ScanSaved share s n s' →
        s'.clockFile = s.clockFile
          ∧ s'.manifestFile.syncDigestAfterValidation = s.manifestFile.syncDigestAfterValidation := by
      rintro n s' hc ⟨⟨m, c, hgives, hrecord, hclock⟩, hformat'⟩
      rw [if_pos (hgives.changes.mpr hun)] at hclock
      refine ⟨hclock, Manifest.SyncEq.digest (fun p => ?_) hc.valid hvalid
        (hformat'.trans hformat.symm)⟩
      rw [hrecord]
      exact hsynced hgives p
    refine wp_mono (scanAndSave_spec hreal.isDir hs) ?_ ?_
    · rintro _ s' ⟨hframe, n, hn⟩
      exact hsaved hframe.consistent hn
    · rintro _ s' ⟨hframe, hstarted | ⟨n, hn⟩, -⟩
      · rw [hstarted.manifest]
      · exact (hsaved hframe.consistent hn).2

/-- What holds after an application, on either exit: it ended before its loops, in them, or after
them with the saved manifest it had or with the candidate. -/
theorem apply_exits {P : ShareState → Prop} (hs : s.Consistent share)
    (hstart : ∀ {s'}, Stored share s s.manifestFile s.clockFile s' → P s')
    (htree : ∀ {root s₁}, Opening share h s root s₁ →
      (applyTree share.shareTmpDir root s.manifestFile remote fileData).wp h s₁.world
        (fun a w => ∀ s' m c, Stored share { s₁ with world := w } m c s' →
          (m = s.manifestFile ∨ ∃ nowMs, m = { a.candidate with scannedAtMs := nowMs }) → P s')
        fun _ w => P { s₁ with world := w }) :
    (applyRemoteTransferImpl share remote fileData).wp h s (fun _ s' => P s') fun _ s' => P s' := by
  refine wp_mono (applyRemoteTransferImpl_spec hs) ?_ ?_
  · rintro outcome s' ⟨root, s₁, a, w₂, hopen, hrun, -, hend⟩
    have hdone := (wp_ok (htree hopen) hrun :)
    rcases hend with ⟨-, rfl⟩ | ⟨nowMs, -, ⟨-, hst⟩ | ⟨c, -, hst⟩⟩
    · exact hdone _ _ _ (Stored.refl ⟨hopen.stored.consistent.valid, hopen.stored.consistent.cache⟩)
        (.inl hopen.stored.manifest)
    · exact hdone _ _ _ hst (.inl hopen.stored.manifest)
    · exact hdone _ _ _ hst (.inr ⟨nowMs, rfl⟩)
  · rintro e s' (hst | ⟨root, s₁, hopen, ⟨e, w₂, hrun, rfl⟩ | ⟨a, w₂, hrun, hend⟩⟩)
    · exact hstart hst
    · exact (wp_error (htree hopen) hrun :)
    · have hdone := (wp_ok (htree hopen) hrun :)
      rcases hend with hst | ⟨c, -, hst | ⟨nowMs, -, hst⟩⟩
      · exact hdone _ _ _ hst (.inl hopen.stored.manifest)
      · exact hdone _ _ _ hst (.inl hopen.stored.manifest)
      · exact hdone _ _ _ hst (.inr ⟨nowMs, rfl⟩)

/-- The manifest and the tree that an application leaves. -/
theorem apply_ok_spec (hs : s.Consistent share) (hremote : remote.Valid share.shareId)
    (hdata : Delivers share.shareTmpDir fileData)
    (ht : Tidy share.shareTmpDir share.localDirectory s.world.disk) {outcome : ApplyOutcome}
    {s' : ShareState} (hrun : applyRemoteTransferImpl share remote fileData h s = .ok outcome s') :
    ∃ (l : List (Planned × Bool)) (candidate : Manifest) (w w' : World),
      w.disk = s.world.disk ∧ w'.disk = s'.world.disk
      ∧ l.map Prod.fst = plan s.manifestFile remote fileData
      ∧ Run h share.shareTmpDir share.localDirectory s.manifestFile w l w'
      ∧ candidate.Holds (overlay s.manifestFile.record l) ∧ candidate.Valid share.shareId
      ∧ s'.Consistent share ∧ s'.manifestFile.formatVersion = s.manifestFile.formatVersion
      ∧ (∀ p, s'.manifestFile.record p = candidate.record p)
      ∧ outcome.pendingDownloads = (pendingPaths l).length := by
  obtain ⟨root, s₁, a, w₂, hopen, htree, rfl, hend⟩ :=
    (wp_ok (applyRemoteTransferImpl_spec hs) hrun :)
  obtain rfl := hopen.root_eq ht.dir
  have hdisk := hopen.stored.same.disk
  obtain ⟨l, hl, hr, rfl⟩ :=
    (wp_ok (applyTree_run hremote hdata (hdisk ▸ ht)) htree :)
  obtain ⟨hholds, hformat, -, hpending, hborrowed⟩ :=
    hr.overlaid hs.valid.separated hremote.separated hl
  rcases hend with ⟨howned, rfl⟩ | hend
  · rw [hborrowed howned] at hholds
    refine ⟨l, s.manifestFile, s₁.world, w₂, hdisk, rfl, hl, hr, hholds, hs.valid,
      ⟨hopen.stored.consistent.valid, hopen.stored.consistent.cache⟩, ?_, fun p => ?_, hpending⟩
    · exact congrArg Manifest.formatVersion hopen.stored.manifest
    · exact congrArg (fun m => Manifest.record m p) hopen.stored.manifest
  · have hrecord := hend.record hopen.stored.manifest
    obtain ⟨nowMs, hvalid, hst⟩ := hend
    refine ⟨l, { (Applying.afterAll s.manifestFile l).candidate with scannedAtMs := nowMs }, s₁.world,
      w₂, hdisk, ?_, hl, hr, ⟨hholds.entries, hholds.directories, hholds.symlinks, hholds.tombstones⟩,
      hvalid, ?_, ?_, hrecord, hpending⟩
    · rcases hst with ⟨-, hst⟩ | ⟨c, -, hst⟩ <;> exact hst.same.disk.symm
    · rcases hst with ⟨-, hst⟩ | ⟨c, -, hst⟩ <;> exact hst.consistent
    · rcases hst with ⟨-, hst⟩ | ⟨c, -, hst⟩
      · rw [hst.manifest]
        exact congrArg Manifest.formatVersion hopen.stored.manifest
      · rw [hst.manifest]
        exact hformat

/-! ## The tree and the manifest, after an application -/

/-- The tree realizes the saved manifest, and what the remote manifest did not win is as it was. -/
structure InStep (share : ActiveShare) (remote : Manifest) (s s' : ShareState) : Prop where
  consistent : s'.Consistent share
  format : s'.manifestFile.formatVersion = s.manifestFile.formatVersion
  canonical : s'.manifestFile.CanonicalPaths
  realizes : Realizes share.localDirectory s'.manifestFile s'.world.disk
  kept : ∀ {p node}, (∀ r, ¬ Wins s.manifestFile remote p r) →
    s.world.disk.get (share.localDirectory ++ split p) = some node →
    s'.world.disk.get (share.localDirectory ++ split p) = some node

section InStep

variable (hs : s.Consistent share) (hformat : s.manifestFile.formatVersion = MANIFEST_FORMAT_VERSION)
  (hlocal : s.manifestFile.CanonicalPaths) (hremote : remote.Valid share.shareId)
  (hcanonical : remote.CanonicalPaths) (hrecorded : remote.AncestorsRecorded)
  (hstaging : Staging share.localDirectory share.shareTmpDir s.world.disk)
  (hv : Verified share.shareTmpDir remote fileData s.world.disk)
  (hreal : Realizes share.localDirectory s.manifestFile s.world.disk) {outcome : ApplyOutcome}
  {s' : ShareState} (hrun : applyRemoteTransferImpl share remote fileData h s = .ok outcome s')

include hs hlocal hremote hcanonical hrecorded hstaging hv hreal hrun in
theorem apply_inStep : InStep share remote s s' := by
  have ht : Tidy share.shareTmpDir share.localDirectory s.world.disk := ⟨hreal.isDir, hstaging⟩
  obtain ⟨l, candidate, w, w', hw, hw', hl, hr, hholds, hvalid, hc, hformat', hrecord, -⟩ :=
    apply_ok_spec hs hremote hv.delivers ht hrun
  rw [← hw] at hv ht hreal
  have hmem : ∀ y ∈ l, y.1 ∈ plan s.manifestFile remote fileData := fun y hy =>
    hl ▸ List.mem_map_of_mem hy
  have hcan : ∀ y ∈ l, Canonical y.1.path := by
    intro y hy
    obtain ⟨r, hr, -⟩ := plan_wins hremote.separated (hmem y hy)
    exact hcanonical hr
  refine ⟨hc, hformat', ?_, ?_, ?_⟩
  · intro p r hp
    rw [hrecord, hholds.record_eq, overlay_eq hremote.separated hl, selectRecord_eq_ite] at hp
    split_ifs at hp
    · exact hlocal hp
    · exact hcanonical hp
    · exact hlocal hp
  · have hend := hr.realizes hl hremote hcanonical hrecorded hholds hvalid hv ht hreal
    rw [← hw']
    exact ⟨hend.isDir, fun {p} hp => hrecord p ▸ hend.each hp⟩
  · intro p node hno hget
    rw [← hw] at hget
    rw [← hw']
    refine hr.untouched ht (fun y hy => (plan_sound hremote hv.delivers _ (hmem y hy)).1) hcan ?_ hget
    rintro y hy rfl
    obtain ⟨r, hr⟩ := plan_wins hremote.separated (hmem y hy)
    exact hno r hr

include hs hformat hlocal hremote hcanonical hrecorded hstaging hv hreal hrun

/-- An application keeps the tree and the saved manifest together: afterwards the tree realizes
the manifest that was saved, what the remote manifest did not win is as it was, and the next
scan has nothing to publish. -/
theorem apply_realizes : Realizes share.localDirectory s'.manifestFile s'.world.disk
    ∧ (∀ {p node}, (∀ r, ¬ Wins s.manifestFile remote p r) →
      s.world.disk.get (share.localDirectory ++ split p) = some node →
      s'.world.disk.get (share.localDirectory ++ split p) = some node)
    ∧ ScanSilent share s' := by
  have h := apply_inStep hs hlocal hremote hcanonical hrecorded hstaging hv hreal hrun
  exact ⟨h.realizes, h.kept, h.realizes.scanSilent h.consistent (h.format.trans hformat) h.canonical⟩

end InStep

end Apply

/-! ## A file, a directory and a tree to put them in -/

theorem plainDisk_get {loc : Loc} {node : Node} (hget : plainDisk.get loc = some node) :
    loc ∈ [[], [['s']], [['d']], [['d'], "tmp".toList]] := by
  simp only [plainDisk, Disk.get_put] at hget
  split_ifs at hget with htmp hd hs
  · simp [← htmp]
  · simp [← hd]
  · simp [← hs]
  · have hbare : ((∅ : BTreeMap Loc Node).insert [] (.dir 0o755))[loc]? = some node := hget
    rw [lookup_insert] at hbare
    split_ifs at hbare with hroot
    · simp [← hroot]
    · simp at hbare

theorem plainDisk_share (p : Str) : plainDisk.get (['s'] :: split p) = none := by
  cases hnode : plainDisk.get (['s'] :: split p) with
  | none => rfl
  | some node => exact absurd (plainDisk_get hnode) (by simp [split_ne_nil p])

section Witness

theorem zeros_fit : (List.replicate 3 (0 : Byte)).length < 2 ^ 64 := by decide

variable [Crypto]

/-- The name under which the file of `fileAndDirectory` is staged. -/
def stagedName : Str := partialName ['a'] (List.replicate 64 '0')

theorem canPut_stagedName : plainDisk.CanPut plainShare.shareTmpDir stagedName := by
  refine ⟨isFileName_partialName _ _, ⟨0o755, by decide +kernel⟩, ?_⟩
  rintro ⟨mode, hget⟩
  have hlen : ∀ loc ∈ [[], [['s']], [['d']], [['d'], "tmp".toList]], List.length loc ≤ 2 := by decide
  exact absurd (hlen _ (plainDisk_get hget)) (by show ¬ 3 ≤ 2; decide)

/-- A share just joined, with the file already received. -/
def received : ShareState :=
  { joined with world := ⟨plainDisk.put plainShare.shareTmpDir stagedName
    (.file ⟨List.replicate 3 0, zeros_fit⟩ 0o600 0) canPut_stagedName, 0, []⟩ }

def receivedFile : BTreeMap Str IncomingFile :=
  (∅ : BTreeMap Str IncomingFile).insert ['a'] (.staged (plainShare.shareTmpDir ++ [stagedName]))

theorem received_get (loc : Loc) : received.world.disk.get loc =
    if plainShare.shareTmpDir ++ [stagedName] = loc then
      some (.file ⟨List.replicate 3 0, zeros_fit⟩ 0o600 0)
    else plainDisk.get loc :=
  Disk.get_put _ _ _ _ canPut_stagedName loc

theorem received_share (loc : Loc) :
    received.world.disk.get (['s'] :: loc) = plainDisk.get (['s'] :: loc) := by
  rw [received_get, if_neg]
  simp [plainShare, ActiveShare.shareTmpDir, ActiveShare.sharePath]

theorem realizes_received :
    Realizes plainShare.localDirectory received.manifestFile received.world.disk := by
  refine ⟨⟨0o755, (received_share []).trans (by decide +kernel)⟩, fun {p} hp => ?_⟩
  rw [show plainShare.localDirectory ++ split p = ['s'] :: split p from rfl, received_share,
    plainDisk_share]
  exact .absent

theorem verified_received (hsha : sha256Hex (List.replicate 3 0) = List.replicate 64 '0') :
    Verified plainShare.shareTmpDir fileAndDirectory receivedFile received.world.disk := by
  intro p incoming hp
  rw [receivedFile, lookup_insert] at hp
  split_ifs at hp with heq
  · subst heq
    cases hp
    refine ⟨⟨3, 1, List.replicate 64 '0', some 0o644, .ofWall 7⟩,
      Manifest.record_file_iff.mpr (by decide +kernel), rfl, ⟨List.replicate 3 0, zeros_fit⟩, 0o600, 0, ?_,
      rfl, hsha⟩
    rw [received_get]
    exact if_pos rfl
  · simp at hp

end Witness

theorem received_applied :
    let _ := Crypto.plain
    ∃ outcome s', applyRemoteTransferImpl plainShare fileAndDirectory receivedFile .quiet received
      = .ok outcome s' ∧ s'.world.disk.get [['s'], ['b']] = some (.dir 0o700) := by
  intro _
  apply exists_ok_of_wp
  decide +kernel

/-- All that is asked of the share and of what it has received. -/
theorem received_ready :
    let _ := Crypto.plain
    received.Consistent plainShare ∧ received.manifestFile.formatVersion = MANIFEST_FORMAT_VERSION
      ∧ Manifest.CanonicalPaths received.manifestFile ∧ fileAndDirectory.Valid plainShare.shareId
      ∧ fileAndDirectory.CanonicalPaths ∧ fileAndDirectory.AncestorsRecorded
      ∧ Staging plainShare.localDirectory plainShare.shareTmpDir received.world.disk
      ∧ Verified plainShare.shareTmpDir fileAndDirectory receivedFile received.world.disk := by
  intro _
  exact ⟨⟨Manifest.valid_empty _ _, fun _ hsome => by cases hsome⟩, rfl, by decide +kernel,
    by decide +kernel, by decide +kernel, by decide +kernel,
    ⟨⟨0o755, by decide +kernel⟩, by decide, by decide⟩, verified_received (by decide +kernel)⟩

/-- The file is installed and the directory is made, and a scan finds both as recorded. -/
theorem apply_realizes_received :
    let _ := Crypto.plain
    received.Consistent plainShare ∧ fileAndDirectory.Valid plainShare.shareId
      ∧ fileAndDirectory.AncestorsRecorded
      ∧ Verified plainShare.shareTmpDir fileAndDirectory receivedFile received.world.disk
      ∧ Realizes plainShare.localDirectory received.manifestFile received.world.disk
      ∧ ∃ outcome s', applyRemoteTransferImpl plainShare fileAndDirectory receivedFile .quiet received
          = .ok outcome s'
        ∧ s'.world.disk.get [['s'], ['b']] = some (.dir 0o700)
        ∧ Realizes plainShare.localDirectory s'.manifestFile s'.world.disk ∧ ScanSilent plainShare s' := by
  intro _
  obtain ⟨hs, hformat, hlocal, hremote, hcanonical, hrecorded, hstaging, hv⟩ := received_ready
  obtain ⟨outcome, s', hok, hdir⟩ := received_applied
  have hreal := realizes_received
  -- nothing else is used of that state
  generalize received = s at hs hv hstaging hok hlocal hformat hreal ⊢
  obtain ⟨hend, -, hsilent⟩ := apply_realizes hs hformat hlocal hremote hcanonical hrecorded hstaging hv
    hreal hok
  exact ⟨hs, hremote, hrecorded, hv, hreal, outcome, s', hok, hdir, hend, hsilent⟩

end Syncbox

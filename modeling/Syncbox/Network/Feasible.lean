/-
# `Syncbox.Network.Feasible` — when an application can be carried out

The loops delete from the deepest path upwards, then make directories from the root
downwards, then install links and files, and every one of these steps first inspects all
parents of its path.  With a valid outcome this order is feasible: whatever stands above a
live path is a directory by the time the path is reached, and whatever has to make way for a
file or a link is empty by then.

There is one exception.  A deletion inspects the parents of a path that nothing stands at, and
nothing in a valid manifest forbids a tombstone below a file or a link.  If the local
manifest has a file or a link there, the step fails, every time.  This is the only way for
the shape of the tree to stop an application (`applyTree_completes_iff`).

The failure is not one of a moment.  The manifest is saved only at the end, so the same
tombstone wins in the next session and stops it again, whatever files are delivered.
The hypotheses say what is left out of the account: a host on which no
call fails by itself (`Equipped`), staged files that can be read (`Provided`), and a clock that
is away from its limit (`RoomFor`).
-/
import Syncbox.Network.Counter
import Syncbox.Network.Realized

namespace Syncbox

open Rust Unix Prog

/-! ## Ancestors -/

section Ancestors

variable {root : Loc} {p q : Str}

theorem IsAncestor.compare_lt (h : IsAncestor q p) : compare q p = .lt := by
  obtain ⟨s, rfl⟩ := h
  induction q with
  | nil => rfl
  | cons c q ih =>
      have hsame : compare c c = .eq := Std.ReflCmp.compare_self
      change List.compareLex compare (c :: q) (c :: (q ++ '/' :: s)) = .lt
      rw [List.compareLex_cons_cons, hsame]
      exact ih

theorem IsAncestor.compare_gt (h : IsAncestor q p) : compare p q = .gt :=
  Std.OrientedCmp.gt_of_lt h.compare_lt

theorem eq_root_or_ancestor {c : Loc} (hp : Canonical p) (hc : c ∈ chain root p) :
    c = root ∨ ∃ q, IsAncestor q p ∧ c = root ++ split q := by
  obtain ⟨init, hi, rfl⟩ := hc
  have hsub : ∀ part ∈ init, part ∈ split p := fun part hpart =>
    List.dropLast_subset _ (hi.subset hpart)
  have hnames : names init = init := List.filter_eq_self.mpr fun part hpart => hp part (hsub part hpart)
  rw [hnames]
  by_cases hnil : init = []
  · exact .inl (by rw [hnil, List.append_nil])
  · have hsplit : split (join init) = init :=
      split_join (fun part hpart => sep_notMem_of_mem_split part (hsub part hpart)) hnil
    have hmem : root ++ split (join init) ∈ chain root p := ⟨init, hi, by rw [hsplit, hnames]⟩
    exact .inr ⟨join init, (place_mem_chain hp).mp hmem, by rw [hsplit]⟩

theorem split_child {name : Str} (hname : isFileName name = true) :
    split (p ++ '/' :: name) = split p ++ [name] := by
  have hsep : '/' ∉ name := by
    intro hmem
    simp [isFileName, hmem] at hname
  have hjoin : split (join [name]) = [name] := split_join (by simpa using hsep) (List.cons_ne_nil _ _)
  rw [split_append_sep, ← hjoin, join_singleton]

end Ancestors

/-! ## What the outcome allows -/

/-- What a path may hold above something else: nothing that exists, or a directory. -/
def Crossable (r : Option ManifestRecord) : Prop := Dead r ∨ ∃ e, r = some (.directory e)

/-- Nothing that exists in the outcome of the merge has a file, a link or a tombstone above it. -/
def Mergeable (local_ remote : Manifest) : Prop :=
  ∀ {p a r}, selectRecord (local_.record p) (remote.record p) = some r → r.isTombstone = false →
    IsAncestor a p → selectRecord (local_.record a) (remote.record a) = none
      ∨ ∃ e, selectRecord (local_.record a) (remote.record a) = some (.directory e)

/-- No tombstone that is to be applied has a local file or link above it. -/
def Unobstructed (local_ remote : Manifest) : Prop :=
  ∀ {p t a}, Wins local_ remote p (.tombstone t) → IsAncestor a p → Crossable (local_.record a)

theorem Standing.crossable_iff [Crypto] {l : List (Planned × Bool)} {p : Str}
    {r : Option ManifestRecord} {o : Option Node} (hs : Standing l p r o) :
    Crossable r ↔ o = none ∨ ∃ m, o = some (.dir m) := by
  cases hs with
  | made hdead dir _ => exact ⟨fun _ => .inr dir, fun _ => .inl hdead⟩
  | unset e hrecord dir _ _ => exact ⟨fun _ => .inr dir, fun _ => .inr ⟨e, hrecord⟩⟩
  | fits h =>
      cases h with
      | directory => exact ⟨fun _ => .inr ⟨_, rfl⟩, fun _ => .inr ⟨_, rfl⟩⟩
      | tombstone => exact ⟨fun _ => .inl rfl, fun _ => .inl (by rintro _ ⟨⟩; rfl)⟩
      | absent => exact ⟨fun _ => .inl rfl, fun _ => .inl (by rintro _ ⟨⟩)⟩
      | file => simp [Crossable, Dead, ManifestRecord.isTombstone]
      | symlink => simp [Crossable, Dead, ManifestRecord.isTombstone]

theorem Standing.not_link [Crypto] {l : List (Planned × Bool)} {p : Str} {e : ManifestEntry} {target : Str}
    (hs : Standing l p (some (.file e)) (some (.symlink target))) : False := by
  cases hs with
  | fits h => cases h
  | made hdead => cases hdead _ rfl
  | unset _ hrecord => cases hrecord

section Overlay

variable {local_ remote : Manifest} {fileData : BTreeMap Str IncomingFile}
  {l : List (Planned × Bool)} {op : Planned} {post : List Planned} {q : Str}

theorem mem_plan_of_mem (hplan : plan local_ remote fileData = l.map Prod.fst ++ op :: post)
    {x : Planned × Bool} (hx : x ∈ l) : x.1 ∈ plan local_ remote fileData := by
  rw [hplan]
  exact List.mem_append_left _ (List.mem_map_of_mem hx)

theorem overlay_of_not_stepped (hno : ∀ x ∈ l, x.1.path ≠ q) : overlay local_.record l q = local_.record q :=
  overlay_of_not_brings fun x hx hpath => absurd hpath (hno x hx)

/-- Above a path to be deleted, nothing has changed yet. -/
theorem overlay_above_deleted {p : Str} {t : Tombstone}
    (hplan : plan local_ remote fileData = l.map Prod.fst ++ .delete p t :: post)
    (hq : IsAncestor q p) : overlay local_.record l q = local_.record q := by
  refine overlay_of_not_stepped ?_
  rintro x hx rfl
  have hin := inOrder_of_before hplan (List.mem_map_of_mem hx)
  have hdeeper := hin.deeper (Nat.le_zero.mp hin.phase) rfl
  exact absurd hq.depth_lt hdeeper.not_gt

variable (hsep : remote.Separated) (hplan : plan local_ remote fileData = l.map Prod.fst ++ op :: post)
include hsep hplan

theorem overlay_of_not_wins (hno : ∀ r, ¬ Wins local_ remote q r) : overlay local_.record l q = local_.record q := by
  refine overlay_of_not_stepped fun x hx hpath => ?_
  obtain ⟨r, hr⟩ := plan_wins hsep (mem_plan_of_mem hplan hx)
  exact hno r (hpath ▸ hr)

/-- A step that was due before the next one has left its record. -/
theorem overlay_of_before {y : Planned} (hy : y ∈ l.map Prod.fst) {r : ManifestRecord}
    (hr : ∀ b, brings (y, b) = some r) :
    overlay local_.record l y.path = some r := by
  obtain ⟨⟨z, b⟩, hz, rfl⟩ := List.mem_map.mp hy
  exact overlay_of_brings (before_apart hsep hplan) hz (hr b)

theorem overlay_at_next (hop : op.record ≠ none) :
    overlay local_.record l op.path = local_.record op.path := by
  refine overlay_of_not_brings fun x hx hpath => ?_
  by_contra hbrings
  have hrecord : x.1.record ≠ none := by
    intro hnone
    rw [brings_eq, hnone, ite_self] at hbrings
    exact hbrings rfl
  have hapart := (List.pairwise_append.mp (hplan ▸ plan_distinct hsep)).2.2 _ (List.mem_map_of_mem hx) _
    List.mem_cons_self
  exact hapart hrecord hop hpath

/-- Above a live path, a directory is in place when the path is reached. -/
theorem crossable_above_live (hmerge : Mergeable local_ remote) (hphase : 1 ≤ op.phase)
    {r : ManifestRecord} (hlive : selectRecord (local_.record op.path) (remote.record op.path) = some r)
    (hr : r.isTombstone = false) (hq : IsAncestor q op.path) : Crossable (overlay local_.record l q) := by
  rcases @select_eq local_ remote q with ⟨r', hwins, hselect⟩ | ⟨hno, hselect⟩
  · -- the remote record wins, so it is a directory, and its turn was before
    rcases hmerge hlive hr hq with hnone | ⟨e, hdir⟩
    · cases hselect.symm.trans hnone
    · obtain rfl : r' = .directory e := Option.some.inj (hselect.symm.trans hdir)
      have hstep : Planned.directory q e ∈ plan local_ remote fileData :=
        mem_plan_of_wins hwins
      have hbefore : Planned.directory q e ∈ l.map Prod.fst := by
        refine before_of_not_inOrder hplan hstep (fun heq => hq.ne (heq ▸ rfl)) fun hin => ?_
        have hlt : compare op.path q = .lt := hin.sorted (le_antisymm hin.phase hphase) rfl
        cases hlt.symm.trans hq.compare_gt
      exact .inr ⟨e, overlay_of_before hsep hplan hbefore fun _ => rfl⟩
  · rw [overlay_of_not_wins hsep hplan hno, ← hselect]
    rcases hmerge hlive hr hq with hnone | hdir
    · rw [hnone]
      exact .inl (by rintro _ ⟨⟩)
    · exact .inr hdir

/-- Below a path that is to hold something else than a directory, nothing is left. -/
theorem dead_below (hmerge : Mergeable local_ remote) {r : ManifestRecord}
    (hselect : selectRecord (local_.record op.path) (remote.record op.path) = some r)
    (hr : ∀ e, r ≠ .directory e) (hq : IsAncestor op.path q) : Dead (overlay local_.record l q) := by
  have hdead : Dead (selectRecord (local_.record q) (remote.record q)) := by
    intro r' hr'
    by_contra hlive
    rcases hmerge hr' (Bool.eq_false_iff.mpr hlive) hq with hnone | ⟨e, hdir⟩
    · cases hselect.symm.trans hnone
    · exact hr e (Option.some.inj (hselect.symm.trans hdir))
  rcases @select_eq local_ remote q with ⟨r', hwins, hselect'⟩ | ⟨hno, hselect'⟩
  · -- a tombstone wins, and deeper paths are deleted first
    rw [hselect'] at hdead
    cases r' with
    | tombstone t =>
        have hstep : Planned.delete q t ∈ plan local_ remote fileData := mem_plan_of_wins hwins
        have hbefore : Planned.delete q t ∈ l.map Prod.fst := by
          refine before_of_not_inOrder hplan hstep (fun heq => hq.ne (heq ▸ rfl)) fun hin => ?_
          have hdeeper := hin.deeper (Nat.le_zero.mp hin.phase) rfl
          exact absurd hq.depth_lt hdeeper.not_gt
        have hover : overlay local_.record l q = some (.tombstone t) :=
          overlay_of_before hsep hplan hbefore fun _ => rfl
        rw [hover]
        rintro _ ⟨⟩
        rfl
    | _ => cases hdead _ rfl
  · rw [overlay_of_not_wins hsep hplan hno, ← hselect']
    exact hdead

end Overlay

/-! ## What stands in the way -/

/-- A manifest to be applied to a tree that realizes the local one, with a valid outcome. -/
structure Prospect [Crypto] (tmp root : Loc) (shareId : ShareId) (local_ remote : Manifest)
    (fileData : BTreeMap Str IncomingFile) (d : Disk) : Prop where
  valid : remote.Valid shareId
  canonical : remote.CanonicalPaths
  merges : ∃ nowMs, (local_.mergeRecords remote nowMs).Valid shareId
  verified : Verified tmp remote fileData d
  tidy : Tidy tmp root d
  realizes : Realizes root local_ d

/-- What the steps need of the host and of the staging directory. -/
structure Equipped (h : Host) (tmp root : Loc) (d : Disk) : Prop where
  reach : Reach h d root
  staging : StagingOpen h d tmp
  links : Unused d (linkTemps h tmp)

section Prospect

variable [Crypto] {h : Host} {tmp root : Loc} {shareId : ShareId} {local_ remote : Manifest}
  {fileData : BTreeMap Str IncomingFile} {w₀ w w' : World} {l : List (Planned × Bool)} {op : Planned}
  {post : List Planned}

theorem Prospect.mergeable {d : Disk} (hp : Prospect tmp root shareId local_ remote fileData d) :
    Mergeable local_ remote := by
  obtain ⟨nowMs, hvalid⟩ := hp.merges
  have hrecord := (Manifest.mergeRecords_holds local_ remote nowMs).record_eq
  intro p a r hselect hlive ha
  have hmay := hvalid.hierarchy ⟨r, (hrecord p).trans hselect, hlive⟩ ha
  rwa [Manifest.MayContain, hrecord a] at hmay

theorem Prospect.sound {d : Disk} (hp : Prospect tmp root shareId local_ remote fileData d)
    (hop : op ∈ plan local_ remote fileData) : op.Sound tmp ∧ op.usesBytes = false :=
  plan_sound hp.valid hp.verified.delivers op hop

theorem Prospect.proper {d : Disk} (hp : Prospect tmp root shareId local_ remote fileData d)
    (hop : op ∈ plan local_ remote fileData) : Proper op.path := by
  obtain ⟨r, hr, -⟩ := plan_wins hp.valid.separated hop
  exact proper_of_canonical (hp.valid.accepted hr) (hp.canonical hr)

theorem Prospect.standing (hp : Prospect tmp root shareId local_ remote fileData w₀.disk)
    (hrun : Run h tmp root local_ w₀ l w) (hplan : plan local_ remote fileData = l.map Prod.fst ++ post)
    {q : Str} (hq : Proper q) :
    Standing l q (overlay local_.record l q) (w.disk.get (root ++ split q)) :=
  hrun.standing hplan hp.valid.separated (fun _ => hp.sound) (fun _ hop => (hp.proper hop).canonical)
    hp.verified hp.tidy hp.realizes hq

theorem Standing.made_of_dead {q : Str} {r : Option ManifestRecord} {node : Node}
    (hs : Standing l q r (some node)) (hr : Dead r) :
    ∃ x ∈ l, x.1.creates = true ∧ IsAncestor q x.1.path := by
  cases hs with
  | made _ _ hbelow => exact hbelow
  | unset e hrecord => cases hr _ hrecord
  | fits hd => cases hd <;> cases hr _ rfl

namespace Prospect

variable (hp : Prospect tmp root shareId local_ remote fileData w₀.disk) (hrun : Run h tmp root local_ w₀ l w)
  (hplan : plan local_ remote fileData = l.map Prod.fst ++ op :: post)
include hp hrun hplan

theorem tidy_after : Tidy tmp root w.disk :=
  hrun.tidy (fun _ hx => (hp.sound (mem_plan_of_mem hplan hx)).1) hp.tidy

theorem clean (hreach : Reach h w.disk root)
    (habove : ∀ {q}, IsAncestor q op.path → Crossable (overlay local_.record l q)) :
    Clean h w.disk root op.path := by
  have hmem : op ∈ plan local_ remote fileData := by simp [hplan]
  have hproper := hp.proper hmem
  refine ⟨(hp.sound hmem).1.accepted, hproper.canonical, hreach, fun {c} hc => ?_⟩
  rcases eq_root_or_ancestor hproper.canonical hc with rfl | ⟨q, hq, rfl⟩
  · exact .inr (hp.tidy_after hrun hplan).dir
  · exact (hp.standing hrun hplan (hproper.ancestor hq)).crossable_iff.mp (habove hq)

/-- Nothing is left below a path that is to hold something else than a directory. -/
theorem empty {r : ManifestRecord}
    (hselect : selectRecord (local_.record op.path) (remote.record op.path) = some r)
    (hr : ∀ e, r ≠ .directory e) (name : Str) : w.disk.get (target root op.path ++ [name]) = none := by
  have hsep := hp.valid.separated
  have hproper := hp.proper (show op ∈ plan local_ remote fileData by simp [hplan])
  rw [target_eq hproper.canonical, List.append_assoc]
  cases hget : w.disk.get (root ++ (split op.path ++ [name])) with
  | none => rfl
  | some node =>
      have hname : isFileName name = true := Disk.isFileName_of_get hget name (by simp)
      have hchild : IsAncestor op.path (op.path ++ '/' :: name) := ⟨name, rfl⟩
      have hq : Proper (op.path ++ '/' :: name) := by
        rw [Proper, split_child hname]
        intro part hpart
        rcases List.mem_append.mp hpart with hpart | hpart
        · exact hproper part hpart
        · rwa [List.mem_singleton.mp hpart]
      have hs := hp.standing hrun hplan hq
      rw [split_child hname, hget] at hs
      obtain ⟨x, hx, hcreates, hbelow⟩ :=
        hs.made_of_dead (dead_below hsep hplan hp.mergeable hselect hr hchild)
      obtain ⟨r', hbrings, -, hlive⟩ := brings_of_creates hcreates
      have hover : overlay local_.record l x.1.path = some r' :=
        overlay_of_brings (before_apart hsep hplan) hx hbrings
      have hdead := dead_below hsep hplan hp.mergeable hselect hr (hchild.trans hbelow) r' hover
      rw [hlive] at hdead
      cases hdead

end Prospect

/-- The delivered files can be read, and each serves one path. -/
structure Provided (h : Host) (fileData : BTreeMap Str IncomingFile) (d : Disk) : Prop where
  readable : ∀ {p : Str} {x : PathBuf}, fileData[p]? = some (.staged x) → Installable h d x
  distinct : ∀ {p q : Str} {incoming : IncomingFile}, fileData[p]? = some incoming →
    fileData[q]? = some incoming → p = q

theorem Prospect.installable (hp : Prospect tmp root shareId local_ remote fileData w₀.disk)
    (hfiles : Provided h fileData w₀.disk) (hrun : Run h tmp root local_ w₀ l w) {p : Str}
    {e : ManifestEntry} {x : PathBuf}
    (hplan : plan local_ remote fileData = l.map Prod.fst ++ .file p e (some (.staged x)) :: post) :
    Installable h w.disk x := by
  have hsep := hp.valid.separated
  have hmem : Planned.file p e (some (.staged x)) ∈ plan local_ remote fileData := by simp [hplan]
  have hdata := (mem_plan.mp hmem).2.symm
  obtain ⟨e', -, hx, -⟩ := hp.verified p _ hdata
  obtain rfl : x = partialPath tmp p e'.sha256 := IncomingFile.staged.inj hx
  rcases hrun.staged hp.tidy (fun y hy => hp.sound (mem_plan_of_mem hplan hy)) ⟨_, rfl⟩
    (partialPath_notMem_linkTemps p e'.sha256) with hsame | ⟨-, y, hy, p', e'', hfile⟩
  · obtain ⟨c, m, t, hget, hread⟩ := hfiles.readable hdata
    exact ⟨c, m, t, hsame.trans hget, hread⟩
  · -- the file was already installed: at the same path, which occurs only once
    have hmem' : Planned.file p' e'' (some (.staged (partialPath tmp p e'.sha256)))
        ∈ plan local_ remote fileData := hfile ▸ mem_plan_of_mem hplan hy
    obtain rfl := hfiles.distinct hdata (mem_plan.mp hmem').2.symm
    have hapart := (List.pairwise_append.mp (hplan ▸ plan_distinct hsep)).2.2 _ (List.mem_map_of_mem hy) _
      List.mem_cons_self
    refine absurd ?_ (hapart (by rw [hfile]; simp [Planned.record]) (by simp [Planned.record]))
    rw [hfile]
    rfl

/-- A step that is carried out whatever the disk holds, or for which the disk is ready. -/
def Planned.Passes (h : Host) (tmp root : Loc) (local_ : Manifest) (d : Disk) (op : Planned) : Prop :=
  op.Good h tmp root d ∨ ∃ p e, op = .file p e none ∧ localContentMatches local_ p e = false

/-- In its turn, every step can be carried out. -/
theorem Prospect.passes (hp : Prospect tmp root shareId local_ remote fileData w₀.disk)
    (hfiles : Provided h fileData w₀.disk) (hfree : Unobstructed local_ remote)
    (hrun : Run h tmp root local_ w₀ l w)
    (hplan : plan local_ remote fileData = l.map Prod.fst ++ op :: post)
    (hequipped : Equipped h tmp root w.disk) : op.Passes h tmp root local_ w.disk := by
  have hsep := hp.valid.separated
  have hmem : op ∈ plan local_ remote fileData := by simp [hplan]
  have hcanonical := (hp.proper hmem).canonical
  have hclean : ∀ {r}, selectRecord (local_.record op.path) (remote.record op.path) = some r →
      r.isTombstone = false → 1 ≤ op.phase → Clean h w.disk root op.path := fun hselect hlive hphase =>
    hp.clean hrun hplan hequipped.reach fun hq =>
      crossable_above_live hsep hplan hp.mergeable hphase hselect hlive hq
  have hstands := hp.standing hrun hplan (hp.proper hmem)
  rw [← target_eq hcanonical] at hstands
  have hreplace : ∀ {r}, selectRecord (local_.record op.path) (remote.record op.path) = some r →
      r.isTombstone = false → 1 ≤ op.phase → (∀ e, r ≠ .directory e) →
      Replaceable h w.disk root op.path := fun hselect hlive hphase hr =>
    ⟨hclean hselect hlive hphase, hstands.ne_special, fun _ => hp.empty hrun hplan hselect hr⟩
  cases op with
  | delete p t =>
      have hwins := wins_of_mem_plan hsep hmem rfl
      refine .inl ⟨hp.clean hrun hplan hequipped.reach fun hq => ?_,
        fun _ => hp.empty hrun hplan (select_of_wins hwins) (by simp)⟩
      rw [overlay_above_deleted hplan hq]
      exact hfree hwins hq
  | directory p e =>
      have hselect := select_of_wins (wins_of_mem_plan hsep hmem rfl)
      exact .inl ⟨hclean hselect rfl (by simp [Planned.phase]), hstands.ne_special⟩
  | symlink p e =>
      have hwins := wins_of_mem_plan hsep hmem rfl
      have htarget : validateSymlinkTarget e.target = .ok () := by
        have hok := hp.valid.record_valid hwins.1
        simp only [ManifestRecord.validate, SymlinkEntry.validate, Check.bind_eq_ok] at hok
        obtain ⟨u, hu, -⟩ := hok
        exact hu
      refine .inl ⟨hreplace (select_of_wins hwins) rfl (by simp [Planned.phase]) (by simp),
        hequipped.staging, hequipped.links, ?_⟩
      simpa [validateSymlinkTarget] using htarget
  | file p e incoming =>
      have hselect := select_of_wins (wins_of_mem_plan hsep hmem rfl)
      rcases incoming with _ | (data | x)
      · cases hmatch : localContentMatches local_ p e with
        | false => exact .inr ⟨p, e, rfl, hmatch⟩
        | true =>
            refine .inl ⟨hclean hselect rfl (by simp [Planned.phase]), ?_⟩
            rw [localContentMatches, Option.any_eq_true] at hmatch
            obtain ⟨e', he', -⟩ := hmatch
            have hover : overlay local_.record l p = some (.file e') :=
              (overlay_at_next hsep hplan (Option.some_ne_none _)).trans (Manifest.record_file_iff.mpr he')
            rintro ⟨link, hlink⟩
            rw [show (Planned.file p e none).path = p from rfl, hover, hlink] at hstands
            exact hstands.not_link
      · cases (hp.sound hmem).2
      · exact .inl ⟨hreplace hselect rfl (by simp [Planned.phase]) (by simp), hequipped.staging,
          hp.installable hfiles hrun hplan⟩
  | mode p permissions =>
      obtain ⟨e, he, hwins, -⟩ := mem_directoryPermissions.mp (mem_plan.mp hmem)
      have hwins : Wins local_ remote p (.directory e) := ⟨hsep.directories_iff.mpr he, hwins⟩
      have hstep : Planned.directory p e ∈ plan local_ remote fileData := mem_plan_of_wins hwins
      have hover : overlay local_.record l p = some (.directory e) :=
        overlay_of_before hsep hplan (before_of_phase_lt hplan hstep (by simp [Planned.phase])) fun _ => rfl
      rw [show (Planned.mode p permissions).path = p from rfl, hover] at hstands
      exact .inl ⟨hclean (select_of_wins hwins) rfl (by simp [Planned.phase]), hstands.dir⟩

omit [Crypto] in
theorem Equipped.of_effect {p : Str} {X : Set Loc} {d : Disk} (he : Equipped h tmp root w.disk)
    (hs : Staging root tmp d) (hX : X ⊆ inTmp tmp) (heff : Effect root p X w w')
    (hlinks : Unused w'.disk (linkTemps h tmp)) : Equipped h tmp root w'.disk := by
  refine ⟨⟨he.reach.noFault, fun {init} hi hne => ?_⟩, he.staging.of_effect hs hX heff, hlinks⟩
  -- nothing above the root is touched
  rw [heff.changes.frame]
  · exact he.reach.search hi hne
  · have hshort : ∀ {rest}, init ≠ root ++ rest := fun {rest} heq => hne
      (hi.eq_of_length_le (by rw [heq]; simp))
    rintro ((⟨_, -, heq⟩ | heq) | hin)
    · exact hshort heq
    · exact hshort heq
    · exact (hs.apart hX _ hin).2 hi

theorem Planned.Did.equipped {x : Planned × Bool} (hd : Planned.Did h tmp root local_ w x w')
    (he : Equipped h tmp root w.disk) (ht : Tidy tmp root w.disk)
    (hsound : x.1.Sound tmp ∧ x.1.usesBytes = false) (hpass : x.1.Passes h tmp root local_ w.disk) :
    Equipped h tmp root w'.disk := by
  refine he.of_effect ht.staging (Planned.staging_subset hsound.1.delivered) hd.effect ?_
  intro y hy
  have hframe : y ∉ x.1.staging h tmp → w'.disk.get y = none := by
    intro hno
    have hout := notMem_chain_of_apart (p := x.1.path) (ht.staging.apart (le_refl _)) (tempNames_subset hy)
    rw [hd.effect.changes.frame]
    · exact he.links y hy
    · rintro ((hin | hin) | hin)
      · exact hout.1 hin
      · exact hout.2 hin
      · exact hno hin
  obtain ⟨op, b⟩ := x
  cases op with
  | symlink p e =>
      rcases hpass with hgood | ⟨_, _, hfile, -⟩
      · exact hd.2.2.2.2 ⟨hgood.1, he.staging, he.links⟩ y hy
      · cases hfile
  | file p e incoming =>
      rcases incoming with _ | (data | z)
      · exact hframe id
      · cases hsound.2
      · by_cases hz : y = z
        · exact hz ▸ hd.2.2.2.1
        · exact hframe hz
  | _ => exact hframe id

theorem execute_passes {a : Applying} (ht : Tidy tmp root w.disk)
    (hsound : op.Sound tmp ∧ op.usesBytes = false) (hpass : op.Passes h tmp root local_ w.disk) :
    (execute tmp root local_ a op).wp h w
      (fun a' w' => ∃ b, Planned.Did h tmp root local_ w (op, b) w' ∧ a' = a.after (op, b))
      (fun _ _ => False) := by
  rcases hpass with hgood | ⟨p, e, rfl, hmatch⟩
  · have hbytes : op.usesBytes = true → NoLinks w.disk (fileTemps h tmp) := fun hb => by
      cases hsound.2.symm.trans hb
    exact wp_mono (execute_spec ht hsound.1.delivered hbytes) (fun _ _ hdid => hdid)
      fun _ _ hf => hf.2 hgood
  · show Prog.wp (adoptFile root local_ p e >>= _) _ _ _ _
    rw [adoptFile, if_neg (by rw [hmatch]; exact Bool.false_ne_true)]
    exact ⟨false, .inl ⟨hmatch, rfl, rfl⟩, rfl⟩

theorem Prospect.completes (hp : Prospect tmp root shareId local_ remote fileData w₀.disk)
    (hfiles : Provided h fileData w₀.disk) (hfree : Unobstructed local_ remote)
    {todo : List Planned} :
    ∀ {l : List (Planned × Bool)} {w : World}, plan local_ remote fileData = l.map Prod.fst ++ todo →
      Run h tmp root local_ w₀ l w → Equipped h tmp root w.disk →
      (todo.foldlM (execute tmp root local_) (Applying.afterAll local_ l)).wp h w
        (fun _ _ => True) fun _ _ => False := by
  induction todo with
  | nil =>
      intro l w _ _ _
      exact trivial
  | cons op todo ih =>
      intro l w hplan hrun he
      have hmem : op ∈ plan local_ remote fileData := by simp [hplan]
      have ht := hp.tidy_after hrun hplan
      have hpass := hp.passes hfiles hfree hrun hplan he
      rw [List.foldlM_cons, wp_bind]
      refine wp_mono (execute_passes ht (hp.sound hmem) hpass) ?_ fun _ _ hno => hno
      rintro _ w' ⟨b, hdid, rfl⟩
      rw [← Applying.afterAll_snoc]
      exact ih (by simp [hplan]) (hrun.snoc hdid) (hdid.equipped he ht (hp.sound hmem) hpass)

/-- A deletion that was carried out has met directories only. -/
theorem Planned.Did.deleted_parent {p q : Str} {t : Tombstone} {b : Bool}
    (hd : Planned.Did h tmp root local_ w (.delete p t, b) w') (hp : Canonical p) (hq : IsAncestor q p) :
    w.disk.get (root ++ split q) = none ∨ ∃ m, w.disk.get (root ++ split q) = some (.dir m) := by
  have hchain : root ++ split q ∈ chain root p := (place_mem_chain hp).mpr hq
  have hne : root ++ split q ≠ target root p := by
    rw [target_eq hp]
    exact fun heq => hq.ne (place_injective heq)
  rcases hd.2.1.parents _ hchain hne with ⟨m, hm, -⟩ | ⟨-, hfalse, -⟩ | ⟨hnone, -⟩
  · exact .inr ⟨m, hm⟩
  · cases hfalse
  · exact .inl hnone

theorem Run.split {x : Planned × Bool} {l' : List (Planned × Bool)}
    (hrun : Run h tmp root local_ w₀ (l ++ x :: l') w) :
    ∃ w₁ w₂, Run h tmp root local_ w₀ l w₁ ∧ Planned.Did h tmp root local_ w₁ x w₂ := by
  generalize hall : l ++ x :: l' = all at hrun
  induction hrun generalizing l' with
  | nil => simp at hall
  | @snoc all w y w' run did ih =>
      rcases List.eq_nil_or_concat l' with rfl | ⟨init, last, rfl⟩
      · obtain ⟨rfl, heq⟩ := List.append_inj' hall rfl
        obtain rfl : x = y := (List.cons.inj heq).1
        exact ⟨w, w', run, did⟩
      · rw [List.concat_eq_append, ← List.cons_append, ← List.append_assoc] at hall
        exact ih (List.append_inj' hall rfl).1

/-- The loops reach their end exactly if no tombstone is obstructed. -/
theorem applyTree_completes_iff (hp : Prospect tmp root shareId local_ remote fileData w₀.disk)
    (hfiles : Provided h fileData w₀.disk) (he : Equipped h tmp root w₀.disk) :
    (∃ a w, applyTree tmp root local_ remote fileData h w₀ = .ok a w) ↔ Unobstructed local_ remote := by
  constructor
  · rintro ⟨a, w, hok⟩ p t q hwins hq
    obtain ⟨l, hl, hrun, -⟩ :=
      (wp_ok (applyTree_run hp.valid hp.verified.delivers hp.tidy) hok :)
    have hstep : Planned.delete p t ∈ l.map Prod.fst := hl ▸ mem_plan_of_wins hwins
    obtain ⟨x, hx, hxop⟩ := List.mem_map.mp hstep
    obtain ⟨l₁, l₂, rfl⟩ := List.append_of_mem hx
    obtain ⟨w₁, w₂, hrun₁, hdid⟩ := hrun.split
    obtain ⟨op, b⟩ := x
    obtain rfl : op = .delete p t := hxop
    have hplan : plan local_ remote fileData = l₁.map Prod.fst ++ .delete p t :: l₂.map Prod.fst := by
      rw [← hl]; simp
    have hproper : Proper p := hp.proper (show Planned.delete p t ∈ _ by simp [hplan])
    have hstands := hp.standing hrun₁ hplan (hproper.ancestor hq)
    rw [← overlay_above_deleted hplan hq]
    exact hstands.crossable_iff.mpr (hdid.deleted_parent hproper.canonical hq)
  · intro hfree
    have hwp : ((plan local_ remote fileData).foldlM (execute tmp root local_) (.start local_)).wp h w₀
        (fun _ _ => True) fun _ _ => False := hp.completes hfiles hfree (l := []) rfl .nil he
    rw [applyTree_eq]
    obtain ⟨a, w, hok, -⟩ := exists_ok_of_wp hwp
    exact ⟨a, w, hok⟩

end Prospect

/-! ## The whole application -/

section Apply

variable [Crypto] {share : ActiveShare} {h : Host} {s : ShareState} {remote : Manifest}
  {fileData : BTreeMap Str IncomingFile} {cap : Nat}

/-- The clock has room for everything it is to observe. -/
structure RoomFor (share : ActiveShare) (cap : Nat) (s : ShareState) : Prop where
  within : Within share cap s
  clock : s.clockFile.validate = .ok ()
  room : cap + MAX_MANIFEST_ENTRIES < 2 ^ 32

theorem RoomFor.world (hs : RoomFor share cap s) (w : World) : RoomFor share cap { s with world := w } :=
  ⟨hs.within.world w, hs.clock, hs.room⟩

theorem RoomFor.stored {s' : ShareState} (hs : RoomFor share cap s)
    (hst : Stored share s s.manifestFile s.clockFile s') : RoomFor share cap s' :=
  ⟨hst.within hs.within.counter hs.within.manifest, by rw [hst.clock]; exact hs.clock, hs.room⟩

theorem observeManifestClock_succeeds {m : Manifest} (hs : RoomFor share cap s)
    (hfault : ∀ n, h.fault n = false) (hm : m.Capped cap) (hcount : m.paths.length ≤ MAX_MANIFEST_ENTRIES) :
    (observeManifestClock share m).wp h s (fun _ s' => s'.Consistent share) fun _ _ => False := by
  unfold observeManifestClock
  refine wp_seq (loadClock_spec hs.within.consistent) ?_ fun _ _ hno => hno.2 ⟨hfault, hs.clock⟩
  rintro c s₁ ⟨rfl, hvalid, hst₁⟩
  rw [wp_bind, wp_onDisk, wp_currentTimeMs, wp_bind]
  have hroom : cap + (observedVersions m).length < 2 ^ 32 :=
    (Nat.add_le_add_left ((length_observedVersions_le m).trans hcount) cap).trans_lt hs.room
  obtain ⟨c', hc', hbelow⟩ := observeAll_below (h.clockMs s₁.world.calls) hvalid hs.within.counter
    (fun _ => hm.of_mem_observedVersions) hroom
  rw [hc', wp_ofExcept_ok]
  have hs₁ := (hs.stored hst₁).world { s₁.world with calls := s₁.world.calls + 1 }
  exact wp_mono (saveClock_spec hs₁.within.consistent) (fun _ _ hs₂ => hs₂.1.consistent)
    fun _ _ hno => hno.2 ⟨hfault, hbelow.1⟩

theorem saveCandidate_succeeds {local_ candidate : Manifest} (hs : RoomFor share cap s)
    (hfault : ∀ n, h.fault n = false) (hcandidate : candidate.Capped cap)
    (hvalid : ∀ nowMs, Manifest.Valid { candidate with scannedAtMs := nowMs } share.shareId) :
    (saveCandidate share local_ candidate).wp h s (fun _ _ => True) fun _ _ => False := by
  unfold saveCandidate
  rw [wp_bind, wp_onDisk, wp_currentTimeMs, wp_bind]
  have hv := hvalid (h.clockMs s.world.calls)
  rw [Manifest.validate_eq_ok.mpr hv, wp_ofExcept_ok]
  refine wp_when (fun _ => ?_) fun _ => trivial
  refine wp_seq (observeManifestClock_succeeds (hs.world _) hfault
    ⟨hcandidate.entries, hcandidate.directories, hcandidate.symlinks, hcandidate.tombstones⟩ hv.count) ?_
    fun _ _ hno => hno
  intro _ s₁ hs₁
  exact wp_mono (saveManifest_spec hs₁) (fun _ _ _ => trivial) fun _ _ hno => hno.2 ⟨hfault, hv⟩

theorem opening_succeeds (hs : RoomFor share cap s) (hdir : s.world.disk.IsDir share.localDirectory)
    (hreach : Reach h s.world.disk share.localDirectory) {Q : ApplyOutcome → ShareState → Prop}
    (hloops : ∀ {s₁}, Stored share s s.manifestFile s.clockFile s₁ →
      (do let a ← onDisk (applyTree share.shareTmpDir share.localDirectory s.manifestFile remote fileData)
          Prog.when a.owned (saveCandidate share s.manifestFile a.candidate)
          pure ⟨a.pendingDownloads, a.appliedRecords, 0⟩ : App ApplyOutcome).wp h s₁ Q fun _ _ => False) :
    (applyRemoteTransferImpl share remote fileData).wp h s Q fun _ _ => False := by
  unfold applyRemoteTransferImpl localRoot
  rw [wp_bind, wp_onDisk]
  refine wp_mono (directoryRoot_spec hdir) ?_ fun _ _ hno => hno.2 hreach
  rintro root w₁ ⟨rfl, hsame⟩
  have hst₁ : Stored share s s.manifestFile s.clockFile { s with world := w₁ } :=
    ⟨hsame, rfl, rfl, rfl, (hs.world w₁).within.consistent⟩
  refine wp_seq (manifestSnapshot_spec hst₁.consistent) ?_ fun _ _ hno => hno.2 hreach.noFault
  rintro snapshot s₂ ⟨rfl, hst₂⟩
  exact hloops (hst₁.trans hst₂)

section Both

variable (hs : RoomFor share cap s)
  (hp : Prospect share.shareTmpDir share.localDirectory share.shareId s.manifestFile remote fileData
    s.world.disk)
  (hfiles : Provided h fileData s.world.disk)
  (he : Equipped h share.shareTmpDir share.localDirectory s.world.disk)
include hs hp hfiles he

theorem unobstructed_of_apply {outcome : ApplyOutcome} {s' : ShareState}
    (hok : applyRemoteTransferImpl share remote fileData h s = .ok outcome s') :
    Unobstructed s.manifestFile remote := by
  obtain ⟨root, s₁, a, w₂, hopen, hrun, -⟩ :=
    (wp_ok (applyRemoteTransferImpl_spec hs.within.consistent) hok :)
  obtain rfl := hopen.root_eq hp.tidy.dir
  have hw := hopen.stored.same.disk
  intro p t a'
  exact (applyTree_completes_iff (hw ▸ hp) (hw ▸ hfiles) (hw ▸ he)).mp ⟨a, w₂, hrun⟩

theorem apply_completes (hremote : remote.Capped cap) (hfree : Unobstructed s.manifestFile remote) :
    ∃ outcome s', applyRemoteTransferImpl share remote fileData h s = .ok outcome s' := by
  have hc := hs.within.consistent
  suffices hwp : (applyRemoteTransferImpl share remote fileData).wp h s (fun _ _ => True)
      fun _ _ => False by
    obtain ⟨outcome, s', hok, -⟩ := exists_ok_of_wp hwp
    exact ⟨outcome, s', hok⟩
  refine opening_succeeds hs hp.tidy.dir he.reach fun {s₁} hst => ?_
  have hw := hst.same.disk
  obtain ⟨a, w, hok⟩ := (applyTree_completes_iff (hw ▸ hp) (hw ▸ hfiles) (hw ▸ he)).mpr hfree
  obtain ⟨nowMs, hmerge⟩ := hp.merges
  obtain ⟨l, hl, hover, -⟩ := applyTree_overlaid hc.valid.separated hp.valid.separated hok
  have hcapped : a.candidate.Capped cap :=
    (wp_ok (applyTree_capped hs.within.manifest hremote) hok :)
  have hvalid : ∀ nowMs', Manifest.Valid { a.candidate with scannedAtMs := nowMs' } share.shareId :=
    fun nowMs' => overlay_valid hc.valid hp.valid hl
      ⟨hover.holds.entries, hover.holds.directories, hover.holds.symlinks, hover.holds.tombstones⟩
      hover.format hover.share (Manifest.mergeRecords_holds _ _ nowMs) hmerge
  rw [wp_bind, wp_onDisk, Prog.wp, hok]
  show Prog.wp (Prog.when _ _ >>= _) _ _ _ _
  rw [wp_bind]
  exact wp_when (fun _ => saveCandidate_succeeds ((hs.stored hst).world w) he.reach.noFault
    hcapped hvalid) fun _ => trivial

end Both

/-- Without faults of the host, an application of a manifest that merges validly succeeds, unless it
has to apply a tombstone below a local file or link — and then it never does. -/
theorem apply_succeeds_iff (hs : RoomFor share cap s) (hremote : remote.Capped cap)
    (hp : Prospect share.shareTmpDir share.localDirectory share.shareId s.manifestFile remote fileData
      s.world.disk)
    (hfiles : Provided h fileData s.world.disk)
    (he : Equipped h share.shareTmpDir share.localDirectory s.world.disk) :
    (∃ outcome s', applyRemoteTransferImpl share remote fileData h s = .ok outcome s')
      ↔ Unobstructed s.manifestFile remote :=
  ⟨fun ⟨_, _, hok⟩ => unobstructed_of_apply hs hp hfiles he hok, apply_completes hs hp hfiles he hremote⟩

omit [Crypto] in
theorem provided_none {d : Disk} : Provided h ∅ d :=
  ⟨fun hnone => by simp at hnone, fun hnone => by simp at hnone⟩

/-- Whatever files have been delivered, the application succeeds — exactly if no tombstone that it has
to apply lies below a local file or link. -/
theorem never_stuck_iff (hs : RoomFor share cap s) (hremote : remote.Capped cap)
    (hp : Prospect share.shareTmpDir share.localDirectory share.shareId s.manifestFile remote ∅
      s.world.disk)
    (he : Equipped h share.shareTmpDir share.localDirectory s.world.disk) :
    (∀ fileData, Verified share.shareTmpDir remote fileData s.world.disk →
        Provided h fileData s.world.disk →
        ∃ outcome s', applyRemoteTransferImpl share remote fileData h s = .ok outcome s')
      ↔ Unobstructed s.manifestFile remote := by
  constructor
  · intro hall
    obtain ⟨outcome, s', hok⟩ := hall ∅ hp.verified provided_none
    exact unobstructed_of_apply hs hp provided_none he hok
  · intro hfree fileData hv hfiles
    exact apply_completes hs { hp with verified := hv } hfiles he hremote hfree

end Apply

/-! ## A tombstone below a link -/

theorem canPut_link : plainDisk.CanPut plainShare.localDirectory ['a'] := by decide +kernel

/-- A share that has received `linkOut`. -/
def linked [Crypto] : ShareState :=
  { joined with
    world := ⟨plainDisk.put plainShare.localDirectory ['a'] (.symlink ['/']) canPut_link, 0, []⟩
    manifestFile := linkOut }

theorem linked_get [Crypto] (loc : Loc) : linked.world.disk.get loc =
    if [['s'], ['a']] = loc then some (.symlink ['/']) else plainDisk.get loc :=
  Disk.get_put _ _ _ _ canPut_link loc

theorem linkOut_record (p : Str) :
    linkOut.record p = if ['a'] = p then some (.symlink ⟨['/'], .ofWall 1⟩) else none := by
  simp only [Manifest.record, linkOut, lookup_insert, Manifest.empty]
  split_ifs <;> simp

theorem realizes_linked [Crypto] :
    Realizes plainShare.localDirectory linked.manifestFile linked.world.disk := by
  refine ⟨⟨0o755, (linked_get _).trans (by decide +kernel)⟩, fun {p} hp => ?_⟩
  rw [show plainShare.localDirectory ++ split p = ['s'] :: split p from rfl, linked_get,
    show linked.manifestFile = linkOut from rfl, linkOut_record]
  by_cases ha : ['a'] = p
  · subst ha
    exact .symlink
  · have hne : [['s'], ['a']] ≠ ['s'] :: split p := fun heq =>
      ha (split_injective (List.cons.inj heq).2)
    rw [if_neg ha, if_neg hne, plainDisk_share]
    exact .absent

theorem equipped_linked [Crypto] :
    Equipped .quiet plainShare.shareTmpDir plainShare.localDirectory linked.world.disk := by
  have hsearch : ∀ init ∈ [[], [['d']], [['d'], "tmp".toList]],
      ∃ mode, linked.world.disk.get init = some (.dir mode) ∧ Host.quiet.canSearch mode = true
        ∧ Host.quiet.canWrite mode = true := by
    intro init hi
    refine ⟨0o755, ?_, rfl, rfl⟩
    have hplain : ∀ init ∈ [[], [['d']], [['d'], "tmp".toList]],
        [['s'], ['a']] ≠ init ∧ plainDisk.get init = some (.dir 0o755) := by decide +kernel
    rw [linked_get, if_neg (hplain init hi).1, (hplain init hi).2]
  refine ⟨⟨fun _ => rfl, fun {init} hi hne => ?_⟩, ⟨⟨fun _ => rfl, fun {init} hi hne => ?_⟩, ?_⟩, ?_⟩
  · have hroot : init ∈ plainShare.localDirectory.inits := (List.mem_inits _ _).mpr hi
    obtain ⟨mode, hget, hs, -⟩ := hsearch init (by
      simp [plainShare] at hroot hne
      simp [hroot.resolve_right hne])
    exact ⟨mode, hget, hs⟩
  · have htmp : init ∈ plainShare.shareTmpDir.inits := (List.mem_inits _ _).mpr hi
    obtain ⟨mode, hget, hs, -⟩ := hsearch init (by
      simp [plainShare, ActiveShare.shareTmpDir, ActiveShare.sharePath] at htmp ⊢
      exact htmp)
    exact ⟨mode, hget, hs⟩
  · exact hsearch plainShare.shareTmpDir (by decide)
  · rintro _ ⟨random, rfl⟩
    rw [linked_get, if_neg (by simp [plainShare, ActiveShare.shareTmpDir, ActiveShare.sharePath])]
    cases hnode : plainDisk.get (plainShare.shareTmpDir ++ [temporaryName _ _ random]) with
    | none => rfl
    | some node =>
        exact absurd (plainDisk_get hnode)
          (by simp [plainShare, ActiveShare.shareTmpDir, ActiveShare.sharePath])

theorem linked_ready :
    let _ := Crypto.plain
    RoomFor plainShare 0 linked ∧ removalBeyond.Capped 0
      ∧ (linkOut.mergeRecords removalBeyond 0).Valid plainShare.shareId
      ∧ Prospect plainShare.shareTmpDir plainShare.localDirectory plainShare.shareId linkOut removalBeyond
        ∅ linked.world.disk := by
  intro _
  have hc : linked.Consistent plainShare := ⟨by decide +kernel, fun _ hsome => by cases hsome⟩
  have hmerge : (linkOut.mergeRecords removalBeyond 0).Valid plainShare.shareId := by decide +kernel
  exact ⟨⟨⟨hc, le_rfl, .empty, .empty, .insert .empty _ le_rfl, .empty⟩, by decide +kernel, by decide⟩,
    ⟨.empty, .empty, .empty, .insert .empty _ le_rfl⟩, hmerge, by decide +kernel, by decide +kernel,
    ⟨0, hmerge⟩, fun _ _ hnone => by simp at hnone,
    ⟨⟨0o755, by decide +kernel⟩, ⟨⟨0o755, by decide +kernel⟩, by decide, by decide⟩⟩, realizes_linked⟩

theorem linked_obstructed : ¬ Unobstructed linkOut removalBeyond := by
  intro hfree
  have hwins : Wins linkOut removalBeyond "a/d".toList (.tombstone ⟨.ofWall 2⟩) :=
    ⟨by decide +kernel, by decide +kernel⟩
  have hpass := hfree hwins (a := ['a']) ⟨['d'], rfl⟩
  rw [linkOut_record] at hpass
  rcases hpass with hdead | ⟨e, he⟩
  · cases hdead _ rfl
  · cases he

/-- The tombstone of a path that is not there cannot be applied below a link. -/
theorem apply_succeeds_iff_link :
    let _ := Crypto.plain
    linked.Consistent plainShare ∧ (linkOut.mergeRecords removalBeyond 0).Valid plainShare.shareId
      ∧ Realizes plainShare.localDirectory linked.manifestFile linked.world.disk
      ∧ ¬ ∃ outcome s', applyRemoteTransferImpl plainShare removalBeyond ∅ .quiet linked
          = .ok outcome s' := by
  intro _
  obtain ⟨hroom, hcapped, hmerge, hp⟩ := linked_ready
  have he := equipped_linked
  have hlocal : linked.manifestFile = linkOut := rfl
  generalize linked = s at hroom hp he hlocal ⊢
  rw [← hlocal] at hp
  refine ⟨hroom.within.consistent, hmerge, hp.realizes, ?_⟩
  rw [apply_succeeds_iff hroom hcapped hp provided_none he, hlocal]
  exact linked_obstructed

theorem never_stuck_iff_link :
    let _ := Crypto.plain
    ¬ ∀ fileData, Verified plainShare.shareTmpDir removalBeyond fileData linked.world.disk →
        Provided .quiet fileData linked.world.disk →
        ∃ outcome s', applyRemoteTransferImpl plainShare removalBeyond fileData .quiet linked
          = .ok outcome s' := by
  intro _
  obtain ⟨hroom, hcapped, -, hp⟩ := linked_ready
  have he := equipped_linked
  have hlocal : linked.manifestFile = linkOut := rfl
  generalize linked = s at hroom hp he hlocal ⊢
  rw [← hlocal] at hp
  rw [never_stuck_iff hroom hcapped hp he, hlocal]
  exact linked_obstructed

/-- The run itself: everything that is asked of the share and of the two manifests is there, and the
application fails. -/
theorem stuck_below_link :
    let _ := Crypto.plain
    RoomFor plainShare 0 linked ∧ removalBeyond.Capped 0
      ∧ Prospect plainShare.shareTmpDir plainShare.localDirectory plainShare.shareId linkOut removalBeyond
        ∅ linked.world.disk
      ∧ Equipped .quiet plainShare.shareTmpDir plainShare.localDirectory linked.world.disk
      ∧ (applyRemoteTransferImpl plainShare removalBeyond ∅).wp .quiet linked (fun _ _ => False)
        fun _ _ => True := by
  intro _
  obtain ⟨hroom, hcapped, -, hp⟩ := linked_ready
  exact ⟨hroom, hcapped, hp, equipped_linked, by decide +kernel⟩

end Syncbox

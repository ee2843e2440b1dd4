/-
# `Syncbox.Network.Merged` — what an application saves

`apply_remote_transfer_impl` does not call the merge.  It goes through the four maps of the
remote manifest one after the other, asks `remote_record_wins` for each record, and takes
paths out of maps as it puts them into others.  Here this is compared with the merge rule,
path by path.

The plan has at most one step with a record for each path (`plan_distinct`), so the records
that are brought are an overlay over the local ones (`overlay_of_brings`), and the only
freedom is which files were adopted.  A file that was not is *pending* and keeps its old
record; but the merge has a file there too, so whatever the merge allows around it the
overlay does (`overlay_valid`).

`applyRemoteTransferImpl_spec` takes an application apart into its loops and what comes
before and after them; other files use it too.
-/
import Syncbox.Network.Candidate

namespace Syncbox

open Rust Unix Prog

/-! ## The records that are brought -/

/-- The record a step has brought, given whether a file without data was adopted. -/
def brings : Planned × Bool → Option ManifestRecord
  | (.file _ _ none, false) => none
  | (op, _) => op.record

/-- A file without data that was not adopted. -/
def isPending : Planned × Bool → Bool
  | (.file _ _ none, false) => true
  | _ => false

theorem brings_eq (x : Planned × Bool) : brings x = if isPending x then none else x.1.record := by
  rcases x with ⟨op, b⟩
  cases op with
  | file p e incoming => cases incoming <;> cases b <;> rfl
  | _ => rfl

/-- The records after a list of steps. -/
def overlay (f : Str → Option ManifestRecord) (l : List (Planned × Bool)) :
    Str → Option ManifestRecord :=
  l.foldl (fun f x => match brings x with
    | some r => Function.update f x.1.path (some r)
    | none => f) f

section Overlay

variable {f : Str → Option ManifestRecord} {l : List (Planned × Bool)} {x : Planned × Bool} {p : Str}

theorem overlay_snoc : overlay f (l ++ [x]) = match brings x with
    | some r => Function.update (overlay f l) x.1.path (some r)
    | none => overlay f l := by
  rw [overlay, List.foldl_append]
  rfl

theorem overlay_of_not_brings (h : ∀ x ∈ l, x.1.path = p → brings x = none) : overlay f l p = f p := by
  induction l using List.reverseRecOn with
  | nil => rfl
  | append_singleton l x ih =>
      have hl := ih fun y hy => h y (List.mem_append_left _ hy)
      rw [overlay_snoc]
      cases hb : brings x with
      | none => exact hl
      | some r =>
          have hne : p ≠ x.1.path := fun he => by
            rw [h x (List.mem_append_right _ List.mem_cons_self) he.symm] at hb
            cases hb
          show Function.update (overlay f l) x.1.path (some r) p = f p
          rw [Function.update_of_ne hne]
          exact hl

theorem overlay_of_brings {r : ManifestRecord} (hapart : (l.map Prod.fst).Pairwise Planned.Apart)
    (hx : x ∈ l) (hb : brings x = some r) : overlay f l x.1.path = some r := by
  have hrecord : ∀ {y : Planned × Bool} {s}, brings y = some s → y.1.record ≠ none := by
    intro y s hy hnone
    rw [brings_eq, hnone] at hy
    split at hy <;> cases hy
  induction l using List.reverseRecOn with
  | nil => cases hx
  | append_singleton l y ih =>
      rw [List.map_append, List.pairwise_append] at hapart
      rw [overlay_snoc]
      rcases List.mem_append.mp hx with hx | hx
      · have hl := ih hapart.1 hx
        cases hy : brings y with
        | none => exact hl
        | some s =>
            have hne : x.1.path ≠ y.1.path := hapart.2.2 x.1 (List.mem_map_of_mem hx) y.1 (by simp)
              (hrecord hb) (hrecord hy)
            show Function.update (overlay f l) y.1.path (some s) x.1.path = some r
            rw [Function.update_of_ne hne]
            exact hl
      · rw [List.mem_singleton.mp hx] at hb ⊢
        rw [hb]
        exact Function.update_self ..

end Overlay

/-! ## The candidate -/

section Candidate

variable {local_ : Manifest} {l : List (Planned × Bool)}

/-- A step changes the record of its path and no other.  When a file is adopted without data,
the link map is left alone: the path has to have a file already. -/
theorem after_holds {s : Applying} {f : Str → Option ManifestRecord} (hf : s.candidate.Holds f)
    {x : Planned × Bool}
    (hfile : ∀ {p e}, x = (.file p e none, true) → ∃ e', f p = some (.file e')) :
    (s.after x).candidate.Holds (match brings x with
      | some r => Function.update f x.1.path (some r)
      | none => f) := by
  have hupd : ∀ {p : Str} {r : ManifestRecord} (q : Str),
      Function.update f p (some r) q = if p = q then some r else f q := fun q => by
    rw [Function.update_apply]; simp only [eq_comm]
  rcases x with ⟨op, b⟩
  cases op with
  | delete p t | directory p e | symlink p e =>
      constructor <;> intro q <;> simp only [brings, Planned.record, Planned.path, hupd, Applying.after,
        Applying.record, lookup_insert, lookup_erase, hf.entries, hf.directories, hf.symlinks,
        hf.tombstones] <;> split <;> rfl
  | mode p o => exact hf
  | file p e incoming =>
      cases incoming with
      | some data =>
          constructor <;> intro q <;> simp only [brings, Planned.record, Planned.path, hupd,
            Applying.after, Applying.record, lookup_insert, lookup_erase, hf.entries, hf.directories,
            hf.symlinks, hf.tombstones] <;> split <;> rfl
      | none =>
          cases b with
          | false => exact hf
          | true =>
              obtain ⟨e', he'⟩ := hfile rfl
              constructor <;> intro q <;> simp only [brings, Planned.record, Planned.path, hupd,
                Applying.after, Applying.record, lookup_insert, lookup_erase, hf.entries,
                hf.directories, hf.symlinks, hf.tombstones] <;> split
              all_goals try rfl
              rename_i hq
              rw [← hq, he']
              rfl

theorem after_header (s : Applying) (x : Planned × Bool) :
    (s.after x).candidate.formatVersion = s.candidate.formatVersion
      ∧ (s.after x).candidate.shareId = s.candidate.shareId := by
  rcases x with ⟨op, b⟩
  cases op with
  | file p e incoming => cases incoming <;> cases b <;> exact ⟨rfl, rfl⟩
  | _ => exact ⟨rfl, rfl⟩

theorem after_pending (s : Applying) (x : Planned × Bool) : (s.after x).pendingDownloads
    = s.pendingDownloads + if isPending x then 1 else 0 := by
  rcases x with ⟨op, b⟩
  cases op with
  | file p e incoming => cases incoming <;> cases b <;> rfl
  | _ => rfl

theorem after_owned {s : Applying} {x : Planned × Bool} (hs : s.owned = false → s.candidate = local_)
    (hx : (s.after x).owned = false) : (s.after x).candidate = local_ := by
  rcases x with ⟨op, b⟩
  cases op with
  | file p e incoming =>
      cases incoming with
      | some data => cases hx
      | none =>
          cases b with
          | true => cases hx
          | false => exact hs hx
  | mode p o => exact hs hx
  | _ => cases hx

/-- The files that were left pending. -/
def pendingPaths (l : List (Planned × Bool)) : List Str := (l.filter isPending).map fun x => x.1.path

theorem mem_pendingPaths {p : Str} : p ∈ pendingPaths l ↔ ∃ e, (.file p e none, false) ∈ l := by
  simp only [pendingPaths, List.mem_map, List.mem_filter]
  constructor
  · rintro ⟨⟨op, b⟩, ⟨hmem, hpending⟩, rfl⟩
    cases op with
    | file q e incoming =>
        cases incoming with
        | some data => cases hpending
        | none =>
            cases b with
            | true => cases hpending
            | false => exact ⟨e, hmem⟩
    | _ => cases hpending
  · rintro ⟨e, hmem⟩
    exact ⟨_, ⟨hmem, rfl⟩, rfl⟩

/-- What a list of steps makes of the local manifest. -/
structure Overlaid (local_ : Manifest) (l : List (Planned × Bool)) (s : Applying) : Prop where
  holds : s.candidate.Holds (overlay local_.record l)
  format : s.candidate.formatVersion = local_.formatVersion
  share : s.candidate.shareId = local_.shareId
  pending : s.pendingDownloads = (pendingPaths l).length
  borrowed : s.owned = false → s.candidate = local_

theorem overlaid_afterAll (hsep : local_.Separated) (hapart : (l.map Prod.fst).Pairwise Planned.Apart)
    (hfile : ∀ {p e}, (Planned.file p e none, true) ∈ l → ∃ e', local_.record p = some (.file e')) :
    Overlaid local_ l (Applying.afterAll local_ l) := by
  induction l using List.reverseRecOn with
  | nil => exact ⟨hsep.holds, rfl, rfl, rfl, fun _ => rfl⟩
  | append_singleton l x ih =>
      rw [List.map_append, List.pairwise_append] at hapart
      have hl := ih hapart.1 fun hmem => hfile (List.mem_append_left _ hmem)
      rw [Applying.afterAll_snoc]
      refine ⟨?_, (after_header _ _).1.trans hl.format, (after_header _ _).2.trans hl.share, ?_,
        after_owned hl.borrowed⟩
      · rw [overlay_snoc]
        refine after_holds hl.holds ?_
        rintro p e rfl
        obtain ⟨e', he'⟩ := hfile (List.mem_append_right _ (List.mem_singleton_self _))
        refine ⟨e', ?_⟩
        -- no earlier step has the path of this one
        rw [overlay_of_not_brings, he']
        intro y hy hpath
        rw [brings_eq]
        split
        · rfl
        · by_contra hrecord
          exact hapart.2.2 y.1 (List.mem_map_of_mem hy) (.file p e none) (by simp) hrecord
            (by simp [Planned.record]) hpath
      · rw [after_pending, hl.pending, pendingPaths, pendingPaths, List.filter_append, List.map_append,
          List.length_append, List.length_map, List.length_map]
        cases hx : isPending x <;> simp [hx]

end Candidate

/-! ## The merge -/

section Merge

variable {local_ remote : Manifest} {fileData : BTreeMap Str IncomingFile} {l : List (Planned × Bool)}
  {p : Str}

theorem step_unique {x y : Planned × Bool} (hapart : (l.map Prod.fst).Pairwise Planned.Apart)
    (hx : x ∈ l) (hy : y ∈ l) (hxr : x.1.record ≠ none) (hyr : y.1.record ≠ none)
    (hpath : x.1.path = y.1.path) : x = y := by
  by_contra hne
  have hpair : l.Pairwise fun x y => x.1.Apart y.1 := List.pairwise_map.mp hapart
  have : Std.Symm fun x y : Planned × Bool => x.1.Apart y.1 := ⟨fun _ _ => Planned.Apart.symm⟩
  exact hpair.forall hx hy hne hxr hyr hpath

theorem exists_step (hl : l.map Prod.fst = plan local_ remote fileData) {r : ManifestRecord}
    (hw : Wins local_ remote p r) : ∃ b, (plannedStep fileData p r, b) ∈ l := by
  have hmem : plannedStep fileData p r ∈ l.map Prod.fst := hl ▸ mem_plan_of_wins hw
  obtain ⟨⟨op, b⟩, hmem, rfl⟩ := List.mem_map.mp hmem
  exact ⟨b, hmem⟩

theorem wins_of_pending (hsep : remote.Separated) (hl : l.map Prod.fst = plan local_ remote fileData)
    (hp : p ∈ pendingPaths l) : ∃ e, Wins local_ remote p (.file e) ∧ fileData[p]? = none
      ∧ (.file p e none, false) ∈ l := by
  obtain ⟨e, hmem⟩ := mem_pendingPaths.mp hp
  have hplan : Planned.file p e none ∈ plan local_ remote fileData := hl ▸ List.mem_map_of_mem hmem
  exact ⟨e, wins_of_mem_plan hsep hplan rfl, (mem_plan.mp hplan).2.symm, hmem⟩

/-- The record of every path after a whole plan. -/
theorem overlay_eq (hsep : remote.Separated) (hl : l.map Prod.fst = plan local_ remote fileData) :
    overlay local_.record l p = if p ∈ pendingPaths l then local_.record p
      else selectRecord (local_.record p) (remote.record p) := by
  have hapart : (l.map Prod.fst).Pairwise Planned.Apart := hl ▸ plan_distinct hsep
  have hwins : ∀ {x r}, x ∈ l → x.1.record = some r → Wins local_ remote x.1.path r :=
    fun {x r} hx hr => wins_of_mem_plan hsep (hl ▸ List.mem_map_of_mem hx) hr
  split
  · rename_i hp
    refine overlay_of_not_brings fun x hx hpath => ?_
    obtain ⟨e, hmem⟩ := mem_pendingPaths.mp hp
    rw [brings_eq]
    split
    · rfl
    · rename_i hnot
      by_contra hrecord
      rw [step_unique hapart hx hmem hrecord (by simp [Planned.record]) hpath] at hnot
      exact hnot rfl
  · rename_i hp
    rcases @select_eq local_ remote p with ⟨r, hw, hsel⟩ | ⟨hno, hsel⟩
    · obtain ⟨b, hmem⟩ := exists_step hl hw
      have hb : brings (plannedStep fileData p r, b) = some r := by
        rw [brings_eq, if_neg, record_plannedStep]
        intro hpending
        refine hp (List.mem_map.mpr ⟨_, List.mem_filter.mpr ⟨hmem, hpending⟩, ?_⟩)
        exact path_plannedStep p r
      rw [hsel, ← overlay_of_brings (f := local_.record) hapart hmem hb, path_plannedStep]
    · rw [hsel]
      refine overlay_of_not_brings fun x hx hpath => ?_
      rw [brings_eq]
      split
      · rfl
      · refine Option.eq_none_iff_forall_ne_some.mpr fun r hr => ?_
        exact hno r (hpath ▸ hwins hx hr)

theorem nodup_pendingPaths (hapart : (l.map Prod.fst).Pairwise Planned.Apart) :
    (pendingPaths l).Nodup := by
  rw [pendingPaths, List.Nodup, List.pairwise_map]
  have hpair : l.Pairwise fun x y => x.1.Apart y.1 := List.pairwise_map.mp hapart
  refine (hpair.filter isPending).imp_of_mem fun {x y} hx hy hxy => ?_
  have hrecord : ∀ {x : Planned × Bool}, x ∈ l.filter isPending → x.1.record ≠ none := by
    rintro ⟨op, b⟩ hx hnone
    have hpending := (List.mem_filter.mp hx).2
    cases op <;> cases hnone
    cases hpending
  exact hxy (hrecord hx) (hrecord hy)

/-- The step over a file without data is pending when its answer was no. -/
theorem mem_pendingPaths_iff {e : ManifestEntry} {b : Bool}
    (hapart : (l.map Prod.fst).Pairwise Planned.Apart) (hmem : (.file p e none, b) ∈ l) :
    p ∈ pendingPaths l ↔ b = false := by
  constructor
  · intro hp
    obtain ⟨e', hmem'⟩ := mem_pendingPaths.mp hp
    have heq := step_unique hapart hmem hmem' (by simp [Planned.record]) (by simp [Planned.record]) rfl
    exact congrArg Prod.snd heq
  · rintro rfl
    exact mem_pendingPaths.mpr ⟨e, hmem⟩

/-- Whatever the merge allows around a file, the overlay does, pending or not. -/
theorem overlay_valid [Crypto] {shareId : ShareId} {candidate merged : Manifest}
    (hlocal : local_.Valid shareId) (hremote : remote.Valid shareId)
    (hl : l.map Prod.fst = plan local_ remote fileData)
    (hholds : candidate.Holds (overlay local_.record l))
    (hformat : candidate.formatVersion = local_.formatVersion)
    (hshare : candidate.shareId = local_.shareId)
    (hmerged : merged.Holds fun p => selectRecord (local_.record p) (remote.record p))
    (hvalid : merged.Valid shareId) : candidate.Valid shareId := by
  have hrecord : ∀ p, candidate.record p = if p ∈ pendingPaths l then local_.record p
      else merged.record p := fun p => by
    rw [hholds.record_eq, overlay_eq hremote.separated hl, hmerged.record_eq]
  -- where a file is pending, the merge has that file
  have hpending : ∀ {p}, p ∈ pendingPaths l → ∃ e, merged.record p = some (.file e) := by
    intro p hp
    obtain ⟨e, hw, -⟩ := wins_of_pending hremote.separated hl hp
    exact ⟨e, by rw [hmerged.record_eq, select_of_wins hw]⟩
  have hside : ∀ {p r}, candidate.record p = some r →
      local_.record p = some r ∨ remote.record p = some r := by
    intro p r hr
    rw [hrecord] at hr
    split at hr
    · exact .inl hr
    · rw [hmerged.record_eq] at hr
      rcases selectRecord_or (local_.record p) (remote.record p) with heq | heq
      · exact .inl (heq ▸ hr)
      · exact .inr (heq ▸ hr)
  have hlive : ∀ {p}, candidate.Live p → merged.Live p := by
    rintro p ⟨r, hr, hdead⟩
    rw [hrecord] at hr
    split at hr
    · rename_i hp
      obtain ⟨e, he⟩ := hpending hp
      exact ⟨_, he, rfl⟩
    · exact ⟨r, hr, hdead⟩
  refine
    { format := hformat ▸ hlocal.format
      share := hshare.trans hlocal.share
      separated := hholds.separated
      count := (hholds.separated.length_paths_le fun p hnone => ?_).trans hvalid.count
      accepted := fun hr => (hside hr).elim hlocal.accepted hremote.accepted
      record_valid := fun hr => (hside hr).elim hlocal.record_valid hremote.record_valid
      hierarchy := fun {p a} hp ha => ?_ }
  · rw [hmerged.record_eq, selectRecord_eq_none] at hnone
    rw [hrecord]
    split
    · exact hnone.1
    · rw [hmerged.record_eq, hnone.1, hnone.2]
      rfl
  · have hmay := hvalid.hierarchy (hlive hp) ha
    have hnot : a ∉ pendingPaths l := by
      intro hin
      obtain ⟨e, he⟩ := hpending hin
      rcases hmay with hnone | ⟨d, hd⟩
      · rw [he] at hnone
        cases hnone
      · rw [he] at hd
        cases hd
    rw [Manifest.MayContain, hrecord, if_neg hnot]
    exact hmay

end Merge

/-! ## The loops -/

section Loops

variable [Crypto] {h : Host} {tmp root : Loc} {local_ : Manifest} {w : World}

/-- The loops come to a step with this disk. -/
def Meets (h : Host) (tmp root : Loc) (local_ : Manifest) (ops : List Planned) (w : World)
    (op : Planned) (w₁ : World) : Prop :=
  ∃ before after s, ops = before ++ op :: after
    ∧ before.foldlM (execute tmp root local_) (.start local_) h w = .ok s w₁

/-- What a step over a file without data finds out. -/
def Answers (h : Host) (root : Loc) (local_ : Manifest) (w : World) : Planned × Bool → Prop
  | (.file p e none, b) => ∃ w', adoptFile root local_ p e h w = .ok b w'
  | _ => True

theorem wp_work {α : Type} {work : Fs α} {s s' : Applying} {op : Planned} {b : Bool}
    (hs : s' = s.after (op, b)) (ha : Answers h root local_ w (op, b)) :
    (do let _ ← work; pure s' : Fs Applying).wp h w
      (fun s' _ => ∃ b, s' = s.after (op, b) ∧ Answers h root local_ w (op, b)) (fun _ _ => True) := by
  rw [wp_bind]
  exact wp_of_forall (fun _ _ => ⟨b, hs, ha⟩) fun _ _ => trivial

theorem execute_after {s : Applying} {op : Planned} :
    (execute tmp root local_ s op).wp h w
      (fun s' _ => ∃ b, s' = s.after (op, b) ∧ Answers h root local_ w (op, b)) (fun _ _ => True) := by
  cases op with
  | delete p t => exact wp_work (b := true) rfl trivial
  | directory p e => exact wp_work (b := true) rfl trivial
  | symlink p e => exact wp_work (b := true) rfl trivial
  | mode p o => exact wp_work (b := true) rfl trivial
  | file p e incoming =>
      cases incoming with
      | some data => exact wp_work (b := true) rfl trivial
      | none =>
          show (adoptFile root local_ p e >>= _).wp h w _ _
          refine wp_seq (wp_self _ _ _) ?_ fun _ _ _ => trivial
          intro b w' hadopt
          cases b with
          | true => exact ⟨true, rfl, w', hadopt⟩
          | false => exact ⟨false, rfl, w', hadopt⟩

/-- A file is adopted without data only if the local manifest has it. -/
theorem Answers.file {p : Str} {e : ManifestEntry}
    (ha : Answers h root local_ w (.file p e none, true)) : ∃ e', local_.record p = some (.file e') := by
  obtain ⟨w', hrun⟩ := ha
  cases hmatch : localContentMatches local_ p e with
  | false =>
      rw [adoptFile, if_neg (by simp [hmatch])] at hrun
      cases hrun
  | true =>
      cases he : local_.entries[p]? with
      | none => simp [localContentMatches, he] at hmatch
      | some e' => exact ⟨e', Manifest.record_file_iff.mpr he⟩

theorem execute_all_after {ops : List Planned} :
    (ops.foldlM (execute tmp root local_) (.start local_)).wp h w
      (fun s _ => ∃ l, l.map Prod.fst = ops ∧ s = Applying.afterAll local_ l
        ∧ ∀ x ∈ l, ∃ w₁, Meets h tmp root local_ ops w x.1 w₁ ∧ Answers h root local_ w₁ x)
      (fun _ _ => True) := by
  have hloop := wp_foldlM (f := execute tmp root local_) (r := h) (E := fun _ _ => True)
    (I := fun done s w' => done.foldlM (execute tmp root local_) (.start local_) h w = .ok s w'
      ∧ ∃ l, l.map Prod.fst = done ∧ s = Applying.afterAll local_ l
        ∧ ∀ x ∈ l, ∃ w₁, Meets h tmp root local_ ops w x.1 w₁ ∧ Answers h root local_ w₁ x)
    ops [] (.start local_) w ⟨rfl, [], rfl, rfl, fun _ hx => by cases hx⟩ ?_
  · exact wp_conseq hloop fun s w' hs => hs.2
  · rintro before op after s w₁ hops ⟨hrun, l, hl, rfl, hall⟩
    refine wp_mono (wp_both execute_after (wp_self _ _ _)) ?_ fun _ _ _ => trivial
    rintro s' w₂ ⟨⟨b, rfl, hans⟩, hstep⟩
    refine ⟨?_, l ++ [(op, b)], by rw [List.map_append, hl]; rfl, by rw [Applying.afterAll_snoc], ?_⟩
    · rw [List.foldlM_append, run_bind, hrun]
      dsimp only
      rw [List.foldlM_cons, run_bind, hstep]
      rfl
    · intro x hx
      rcases List.mem_append.mp hx with hx | hx
      · exact hall x hx
      · rw [List.mem_singleton.mp hx]
        exact ⟨w₁, ⟨before, after, _, hops, hrun⟩, hans⟩

theorem Answers.content (tmp : Loc) {p : Str} {e : ManifestEntry} {b : Bool} (hroot : w.disk.IsDir root)
    (ha : Answers h root local_ w (.file p e none, b)) :
    b = true ↔ localContentMatches local_ p e = true ∧ HasContent w.disk (target root p) e.size e.sha256 := by
  obtain ⟨w', hrun⟩ := ha
  rcases wp_ok (adoptFile_spec tmp hroot) hrun with ⟨hno, rfl, -⟩ | ⟨hyes, -, hiff, -⟩
  · simp [hno]
  · simp [hyes, hiff]

end Loops

/-! ## Saving -/

section Save

variable [Crypto] {share : ActiveShare} {h : Host} {s : ShareState} {local_ candidate m : Manifest}

/-- The clock after it has seen the versions of a manifest. -/
def Observes (m : Manifest) (clock clock' : ClockState) : Prop :=
  ∃ nowMs, observeAll nowMs (observedVersions m) clock = .ok clock'

theorem wp_nowMs {Q : U64 → ShareState → Prop} {E : Error → ShareState → Prop}
    (hc : s.Consistent share)
    (hQ : ∀ nowMs s', Stored share s s.manifestFile s.clockFile s' → Q nowMs s') :
    (onDisk currentTimeMs).wp h s Q E := by
  rw [wp_onDisk, wp_currentTimeMs]
  exact hQ _ _ (Stored.called hc)

theorem observeManifestClock_stored (hc : s.Consistent share) :
    (observeManifestClock share m).wp h s
      (fun _ s' => ∃ c, Observes m s.clockFile c ∧ Stored share s s.manifestFile c s')
      (fun _ s' => Stored share s s.manifestFile s.clockFile s'
        ∨ ∃ c, Observes m s.clockFile c ∧ Stored share s s.manifestFile c s') := by
  unfold observeManifestClock
  refine wp_seq (loadClock_spec hc) ?_ fun _ _ hs₁ => .inl hs₁.1
  rintro c s₁ ⟨rfl, -, hs₁⟩
  rw [wp_bind]
  refine wp_nowMs hs₁.consistent fun nowMs s₂ hs₂ => ?_
  rw [hs₁.manifest, hs₁.clock] at hs₂
  replace hs₂ := hs₁.trans hs₂
  rw [wp_bind]
  cases hobs : observeAll nowMs (observedVersions m) s.clockFile with
  | error e => exact .inl hs₂
  | ok c =>
      rw [wp_ofExcept_ok]
      have hsaved := saveClock_spec (h := h) (c := c) hs₂.consistent
      rw [hs₂.manifest, hs₂.clock] at hsaved
      refine wp_mono hsaved ?_ ?_
      · rintro _ s₃ ⟨hs₃, -⟩
        exact ⟨c, ⟨nowMs, hobs⟩, hs₂.trans hs₃⟩
      · rintro _ s₃ ⟨hs₃ | ⟨-, hs₃⟩, -⟩
        · exact .inl (hs₂.trans hs₃)
        · exact .inr ⟨c, ⟨nowMs, hobs⟩, hs₂.trans hs₃⟩

/-- The end of an application in which every step went well: the candidate is saved after the clock
has seen its versions, unless it has the maps of the local manifest. -/
def Concluded (share : ActiveShare) (local_ candidate : Manifest) (s s' : ShareState) : Prop :=
  ∃ nowMs, Manifest.Valid { candidate with scannedAtMs := nowMs } share.shareId
    ∧ ((mapsDiffer candidate local_ = false ∧ Stored share s s.manifestFile s.clockFile s')
      ∨ ∃ c, Observes candidate s.clockFile c
        ∧ Stored share s { candidate with scannedAtMs := nowMs } c s')

/-- The end of one in which the validation or a write failed: a write that fails may have taken
effect. -/
def Abandoned (share : ActiveShare) (candidate : Manifest) (s s' : ShareState) : Prop :=
  Stored share s s.manifestFile s.clockFile s' ∨ ∃ c, Observes candidate s.clockFile c
    ∧ (Stored share s s.manifestFile c s' ∨ ∃ nowMs,
      Manifest.Valid { candidate with scannedAtMs := nowMs } share.shareId
        ∧ Stored share s { candidate with scannedAtMs := nowMs } c s')

theorem saveCandidate_spec (hc : s.Consistent share) :
    (saveCandidate share local_ candidate).wp h s
      (fun _ s' => Concluded share local_ candidate s s')
      (fun _ s' => Abandoned share candidate s s') := by
  unfold saveCandidate
  rw [wp_bind]
  refine wp_nowMs hc fun nowMs s₁ hs₁ => ?_
  rw [wp_bind]
  cases hv : Manifest.validate { candidate with scannedAtMs := nowMs } share.shareId with
  | error e => exact .inl hs₁
  | ok u =>
      have hvalid := Manifest.validate_eq_ok.mp hv
      rw [wp_ofExcept_ok]
      refine wp_when (fun _ => ?_) fun hsame =>
        ⟨nowMs, hvalid, .inl ⟨Bool.eq_false_iff.mpr hsame, hs₁⟩⟩
      rw [wp_bind]
      have hobserve := observeManifestClock_stored (h := h)
        (m := { candidate with scannedAtMs := nowMs }) hs₁.consistent
      rw [hs₁.manifest, hs₁.clock] at hobserve
      refine wp_mono hobserve ?_ ?_
      · rintro _ s₂ ⟨c, hobs, hs₂⟩
        have hsaved := saveManifest_spec (h := h) (m := { candidate with scannedAtMs := nowMs })
          hs₂.consistent
        rw [hs₂.manifest, hs₂.clock] at hsaved
        refine wp_mono hsaved ?_ ?_
        · rintro _ s₃ ⟨hs₃, -⟩
          exact ⟨nowMs, hvalid, .inr ⟨c, hobs, hs₁.trans (hs₂.trans hs₃)⟩⟩
        · rintro _ s₃ ⟨hs₃ | ⟨-, hs₃⟩, -⟩
          · exact .inr ⟨c, hobs, .inl (hs₁.trans (hs₂.trans hs₃))⟩
          · exact .inr ⟨c, hobs, .inr ⟨nowMs, hvalid, hs₁.trans (hs₂.trans hs₃)⟩⟩
      · rintro _ s₂ (hs₂ | ⟨c, hobs, hs₂⟩)
        · exact .inl (hs₁.trans hs₂)
        · exact .inr ⟨c, hobs, .inl (hs₁.trans hs₂)⟩

theorem localRoot_stored (hc : s.Consistent share) :
    (localRoot share).wp h s
      (fun root s' => s.world.disk.IsDir root ∧ Stored share s s.manifestFile s.clockFile s')
      (fun _ s' => Stored share s s.manifestFile s.clockFile s') := by
  have hworld : ∀ {w : World}, Same s.world w →
      Stored share s s.manifestFile s.clockFile { s with world := w } := fun hsame =>
    ⟨hsame, rfl, rfl, rfl, ⟨hc.valid, hc.cache⟩⟩
  unfold localRoot
  rw [wp_onDisk]
  exact wp_mono directoryRoot_looks (fun _ _ hr => ⟨hr.1, hworld hr.2⟩) fun _ _ he => hworld he.1

/-- The root was found and the local manifest read: the loops can start. -/
structure Opening (share : ActiveShare) (h : Host) (s : ShareState) (root : Loc) (s₁ : ShareState) :
    Prop where
  found : ∃ s₀, localRoot share h s = .ok root s₀
  dir : s.world.disk.IsDir root
  stored : Stored share s s.manifestFile s.clockFile s₁

/-- What an application does, apart from its loops. -/
theorem applyRemoteTransferImpl_spec {remote : Manifest} {fileData : BTreeMap Str IncomingFile}
    (hc : s.Consistent share) :
    (applyRemoteTransferImpl share remote fileData).wp h s
      (fun outcome s' => ∃ root s₁ a w₂, Opening share h s root s₁
        ∧ applyTree share.shareTmpDir root s.manifestFile remote fileData h s₁.world = .ok a w₂
        ∧ outcome = ⟨a.pendingDownloads, a.appliedRecords, 0⟩
        ∧ ((a.owned = false ∧ s' = { s₁ with world := w₂ })
          ∨ Concluded share s.manifestFile a.candidate { s₁ with world := w₂ } s'))
      (fun _ s' => Stored share s s.manifestFile s.clockFile s'
        ∨ ∃ root s₁, Opening share h s root s₁
          ∧ ((∃ e w₂, applyTree share.shareTmpDir root s.manifestFile remote fileData h s₁.world
                = .error e w₂ ∧ s' = { s₁ with world := w₂ })
            ∨ ∃ a w₂, applyTree share.shareTmpDir root s.manifestFile remote fileData h s₁.world
                = .ok a w₂ ∧ Abandoned share a.candidate { s₁ with world := w₂ } s')) := by
  unfold applyRemoteTransferImpl
  refine wp_seq (wp_both (localRoot_stored hc) (wp_self _ _ _)) ?_
    fun _ _ hs₀ => .inl hs₀.1
  rintro root s₀ ⟨⟨hdir, hs₀⟩, hroot⟩
  rw [wp_bind]
  have hsnapshot := manifestSnapshot_spec (h := h) hs₀.consistent
  rw [hs₀.manifest, hs₀.clock] at hsnapshot
  refine wp_mono hsnapshot ?_ fun _ _ hs₁ => .inl (hs₀.trans hs₁.1)
  rintro snapshot s₁ ⟨rfl, hs₁⟩
  have hopen : Opening share h s root s₁ := ⟨⟨s₀, hroot⟩, hdir, hs₀.trans hs₁⟩
  rw [wp_bind, wp_onDisk]
  refine wp_mono (wp_self _ _ _) ?_
    fun e w₂ herror => .inr ⟨root, s₁, hopen, .inl ⟨e, w₂, herror, rfl⟩⟩
  intro a w₂ hrun
  rw [wp_bind]
  refine wp_when (fun _ => ?_) fun howned =>
    ⟨root, s₁, a, w₂, hopen, hrun, rfl, .inl ⟨Bool.eq_false_iff.mpr howned, rfl⟩⟩
  have hc₂ : ShareState.Consistent share { s₁ with world := w₂ } :=
    ⟨hs₁.consistent.valid, hs₁.consistent.cache⟩
  refine wp_mono (saveCandidate_spec hc₂) ?_ ?_
  · intro _ s' hs'
    exact ⟨root, s₁, a, w₂, hopen, hrun, rfl, .inr hs'⟩
  · intro _ s' hs'
    exact .inr ⟨root, s₁, hopen, .inr ⟨a, w₂, hrun, hs'⟩⟩

theorem localRoot_eq {root : Loc} {s₀ : ShareState} (hfound : localRoot share h s = .ok root s₀)
    (hdir : s.world.disk.IsDir share.localDirectory) : root = share.localDirectory := by
  have hspec : (localRoot share).wp h s (fun root _ => root = share.localDirectory) (fun _ _ => True) :=
    (wp_onDisk _ _ _ _ _).mpr (wp_mono (directoryRoot_spec hdir) (fun _ _ hr => hr.1)
      fun _ _ _ => trivial)
  exact (wp_ok hspec hfound :)

theorem Opening.root_eq {root : Loc} {s₁ : ShareState} (hopen : Opening share h s root s₁)
    (hdir : s.world.disk.IsDir share.localDirectory) : root = share.localDirectory := by
  obtain ⟨s₀, hfound⟩ := hopen.found
  exact localRoot_eq hfound hdir

/-- What the loops establish of the world, an application establishes on either exit. -/
theorem apply_rule {remote : Manifest} {fileData : BTreeMap Str IncomingFile} {Q : World → Prop}
    (hc : s.Consistent share) (hsame : ∀ {w w' : World}, Same w w' → Q w → Q w') (hstart : Q s.world)
    (htree : ∀ {root s₁}, Opening share h s root s₁ →
      (applyTree share.shareTmpDir root s.manifestFile remote fileData).wp h s₁.world (fun _ w => Q w)
        fun _ w => Q w) :
    (applyRemoteTransferImpl share remote fileData).wp h s (fun _ s' => s'.Consistent share ∧ Q s'.world)
      (fun _ s' => s'.Consistent share ∧ Q s'.world) := by
  have hkept : ∀ {root : Loc} {s₁ : ShareState} {w : World}, Opening share h s root s₁ →
      ShareState.Consistent share { s₁ with world := w } := fun hopen =>
    ⟨hopen.stored.consistent.valid, hopen.stored.consistent.cache⟩
  refine wp_mono (applyRemoteTransferImpl_spec hc) ?_ ?_
  · rintro outcome s' ⟨root, s₁, a, w₂, hopen, hrun, -, ⟨-, rfl⟩ | ⟨nowMs, -, ⟨-, hst⟩ | ⟨c, -, hst⟩⟩⟩
    all_goals have hdone := wp_ok (htree hopen) hrun
    · exact ⟨hkept hopen, hdone⟩
    · exact ⟨hst.consistent, hsame hst.same hdone⟩
    · exact ⟨hst.consistent, hsame hst.same hdone⟩
  · rintro e s' (hst | ⟨root, s₁, hopen, ⟨e, w₂, hrun, rfl⟩ | ⟨a, w₂, hrun, hend⟩⟩)
    · exact ⟨hst.consistent, hsame hst.same hstart⟩
    · have hfailed := wp_error (htree hopen) hrun
      exact ⟨hkept hopen, hfailed⟩
    · have hdone := wp_ok (htree hopen) hrun
      rcases hend with hst | ⟨c, -, hst | ⟨nowMs, -, hst⟩⟩
      · exact ⟨hst.consistent, hsame hst.same hdone⟩
      · exact ⟨hst.consistent, hsame hst.same hdone⟩
      · exact ⟨hst.consistent, hsame hst.same hdone⟩

theorem Concluded.record {s' : ShareState} (hd : Concluded share local_ candidate s s')
    (hlocal : s.manifestFile = local_) (p : Str) : s'.manifestFile.record p = candidate.record p := by
  obtain ⟨nowMs, -, ⟨hsame, hst⟩ | ⟨c, -, hst⟩⟩ := hd
  · rw [hst.manifest, hlocal]
    simp only [mapsDiffer, ne_eq, Bool.or_eq_false_iff, decide_eq_false_iff_not, not_not] at hsame
    obtain ⟨⟨⟨he, hd⟩, hl⟩, ht⟩ := hsame
    simp only [Manifest.record, he, hd, hl, ht]
  · rw [hst.manifest]
    rfl

theorem Concluded.separated {s' : ShareState} (hd : Concluded share local_ candidate s s') :
    s'.manifestFile.Separated := by
  obtain ⟨nowMs, hvalid, ⟨hsame, hst⟩ | ⟨c, hobs, hst⟩⟩ := hd
  · exact hst.consistent.valid.separated
  · exact hst.consistent.valid.separated

end Save

/-! ## What is left saved -/

section Saved

variable [Crypto] {share : ActiveShare} {h : Host} {s : ShareState} {remote : Manifest}
  {fileData : BTreeMap Str IncomingFile}

/-- The loops give the candidate that the plan describes. -/
theorem applyTree_overlaid {local_ : Manifest} {tmp root : Loc} {w w' : World} {a : Applying}
    (hlocal : local_.Separated) (hremote : remote.Separated)
    (hrun : applyTree tmp root local_ remote fileData h w = .ok a w') :
    ∃ l, l.map Prod.fst = plan local_ remote fileData ∧ Overlaid local_ l a
      ∧ ∀ x ∈ l, ∃ w₁, Meets h tmp root local_ (plan local_ remote fileData) w x.1 w₁
        ∧ Answers h root local_ w₁ x := by
  rw [applyTree_eq] at hrun
  obtain ⟨l, hl, rfl, hall⟩ := wp_ok execute_all_after hrun
  refine ⟨l, hl, overlaid_afterAll hlocal (hl ▸ plan_distinct hremote) ?_, hall⟩
  intro p e hmem
  obtain ⟨w₁, -, hans⟩ := hall _ hmem
  exact hans.file

/-- The manifest that `apply_remote_transfer_impl` leaves saved is the merge of the local and the
remote one, path by path, but for the files it counts as pending.  Those are files that win, for
which nothing was delivered and whose contents the local file was found not to have; they keep their
local record.  And a merge that is valid leaves nothing for the final validation to find, whatever
was delivered. -/
theorem apply_saves_merge (hs : s.Consistent share) (hremote : remote.Valid share.shareId) :
    (∀ {outcome s'}, applyRemoteTransferImpl share remote fileData h s = .ok outcome s' →
      s'.manifestFile.Separated ∧ ∃ (root : Loc) (w : World) (pending : List Str),
        (∃ s₀, localRoot share h s = .ok root s₀) ∧ w.disk = s.world.disk
        ∧ pending.Nodup ∧ pending.length = outcome.pendingDownloads
        ∧ (∀ p, s'.manifestFile.record p = if p ∈ pending then s.manifestFile.record p
            else selectRecord (s.manifestFile.record p) (remote.record p))
        ∧ (∀ p ∈ pending, ∃ e, Wins s.manifestFile remote p (.file e) ∧ fileData[p]? = none)
        ∧ ∀ {p e}, Wins s.manifestFile remote p (.file e) → fileData[p]? = none →
          ∃ w₁, Meets h share.shareTmpDir root s.manifestFile (plan s.manifestFile remote fileData) w
              (.file p e none) w₁
            ∧ (∃ w₂, adoptFile root s.manifestFile p e h w₁ = .ok (p ∉ pending) w₂)
            ∧ (w₁.disk.IsDir root → (p ∉ pending ↔ localContentMatches s.manifestFile p e = true
              ∧ HasContent w₁.disk (target root p) e.size e.sha256)))
    ∧ ∀ {nowMs tmp root w a w'}, (s.manifestFile.mergeRecords remote nowMs).Valid share.shareId →
        applyTree tmp root s.manifestFile remote fileData h w = .ok a w' →
        ∀ nowMs, Manifest.validate { a.candidate with scannedAtMs := nowMs } share.shareId = .ok () := by
  constructor
  · intro outcome s' hok
    obtain ⟨root, s₁, a, w₂, hopen, hrun, rfl, hend⟩ := wp_ok (applyRemoteTransferImpl_spec hs) hok
    obtain ⟨l, hl, hover, hall⟩ := applyTree_overlaid hs.valid.separated hremote.separated hrun
    have hapart : (l.map Prod.fst).Pairwise Planned.Apart := hl ▸ plan_distinct hremote.separated
    have hrecord : ∀ p, s'.manifestFile.record p = a.candidate.record p := by
      intro p
      rcases hend with ⟨howned, rfl⟩ | hend
      · rw [hover.borrowed howned]
        exact congrArg (fun m => Manifest.record m p) hopen.stored.manifest
      · exact hend.record hopen.stored.manifest p
    have hsep : s'.manifestFile.Separated := by
      rcases hend with ⟨-, rfl⟩ | hend
      · exact hopen.stored.consistent.valid.separated
      · exact hend.separated
    refine ⟨hsep, root, s₁.world, pendingPaths l, hopen.found, hopen.stored.same.disk,
      nodup_pendingPaths hapart, hover.pending.symm, ?_, ?_, ?_⟩
    · intro p
      rw [hrecord, hover.holds.record_eq, overlay_eq hremote.separated hl]
    · intro p hp
      obtain ⟨e, hw, hnone, -⟩ := wins_of_pending hremote.separated hl hp
      exact ⟨e, hw, hnone⟩
    · intro p e hw hnone
      obtain ⟨b, hmem⟩ := exists_step hl hw
      rw [plannedStep, hnone] at hmem
      obtain ⟨w₁, hmeets, hans⟩ := hall _ hmem
      have hb : decide (p ∉ pendingPaths l) = b := by
        have hiff := mem_pendingPaths_iff hapart hmem
        cases b <;> simp [hiff]
      refine ⟨w₁, hmeets, hb ▸ hans, fun hroot => ?_⟩
      rw [← hans.content share.shareTmpDir hroot, mem_pendingPaths_iff hapart hmem, Bool.not_eq_false]
  · intro nowMs tmp root w a w' hmerge hrun nowMs'
    obtain ⟨l, hl, hover, -⟩ := applyTree_overlaid hs.valid.separated hremote.separated hrun
    obtain ⟨hentries, hdirectories, hsymlinks, htombstones⟩ := hover.holds
    rw [Manifest.validate_eq_ok]
    exact overlay_valid hs.valid hremote hl ⟨hentries, hdirectories, hsymlinks, htombstones⟩ hover.format
      hover.share (Manifest.mergeRecords_holds _ _ nowMs) hmerge

end Saved

/-- A file and an empty directory. -/
def fileAndDirectory : Manifest :=
  { Manifest.oneFile 1 2 with
    directories := (∅ : BTreeMap Str DirectoryEntry).insert ['b'] ⟨some 0o700, .ofWall 7⟩ }

/-- The directory is applied, and the file that was not delivered is pending. -/
theorem apply_saves_merge_pending :
    let _ := Crypto.plain
    newState.Consistent newShare ∧ fileAndDirectory.Valid newShare.shareId
      ∧ (newState.manifestFile.mergeRecords fileAndDirectory 0).Valid newShare.shareId
      ∧ ∃ outcome s', applyRemoteTransferImpl newShare fileAndDirectory ∅ .quiet newState = .ok outcome s'
        ∧ outcome.pendingDownloads = 1
        ∧ (∀ p, s'.manifestFile.record p = if p = ['a'] then none else fileAndDirectory.record p)
        ∧ (∃ (e : ManifestEntry) (w₁ : World), Wins newState.manifestFile fileAndDirectory ['a'] (.file e)
          ∧ w₁.disk.IsDir [] ∧ ¬ (localContentMatches newState.manifestFile ['a'] e = true
            ∧ HasContent w₁.disk (target [] ['a']) e.size e.sha256))
        ∧ ∃ a w', applyTree newShare.shareTmpDir [] newState.manifestFile fileAndDirectory ∅ .quiet
            newState.world = .ok a w'
          ∧ Manifest.validate { a.candidate with scannedAtMs := 9 } newShare.shareId = .ok () := by
  intro _
  have hvalid : newState.manifestFile.Valid newShare.shareId := by decide +kernel
  have hs : newState.Consistent newShare := ⟨hvalid, fun _ hnone => by cases hnone⟩
  have hremote : fileAndDirectory.Valid newShare.shareId := by decide +kernel
  have hmerge : (newState.manifestFile.mergeRecords fileAndDirectory 0).Valid newShare.shareId := by
    decide +kernel
  obtain ⟨outcome, s', hok, hone⟩ := exists_ok_of_wp (show
    (applyRemoteTransferImpl newShare fileAndDirectory ∅).wp .quiet newState
      (fun outcome _ => outcome.pendingDownloads = 1) (fun _ _ => False) from by decide +kernel)
  obtain ⟨root, s₀, hroot, rfl⟩ := exists_ok_of_wp (show
    (localRoot newShare).wp .quiet newState (fun root _ => root = []) (fun _ _ => False) from by
      decide +kernel)
  obtain ⟨a, w', hrun, -⟩ := exists_ok_of_wp (show
    (applyTree newShare.shareTmpDir [] newState.manifestFile fileAndDirectory ∅).wp .quiet newState.world
      (fun _ _ => True) (fun _ _ => False) from by decide +kernel)
  have hsaves := @apply_saves_merge _ newShare .quiet newState fileAndDirectory ∅ hs hremote
  obtain ⟨-, root', w, pending, ⟨s₁, hroot'⟩, -, -, hcount, hrecord, hpending, hfile⟩ := hsaves.1 hok
  obtain rfl : root' = [] := by
    rw [hroot] at hroot'
    exact (EStateM.Result.ok.inj hroot').1.symm
  have hmem : ∀ p ∈ pending, p = ['a'] := by
    intro p hp
    obtain ⟨e, hw, -⟩ := hpending p hp
    have hentry := Manifest.record_file_iff.mp hw.1
    by_contra hne
    change ((∅ : BTreeMap Str ManifestEntry).insert ['a'] _)[p]? = some e at hentry
    rw [lookup_insert, if_neg (Ne.symm hne)] at hentry
    cases hentry
  rw [hone] at hcount
  obtain ⟨q, rfl⟩ := List.length_eq_one_iff.mp hcount
  obtain rfl := hmem q List.mem_cons_self
  obtain ⟨e, hw, hnone⟩ := hpending ['a'] List.mem_cons_self
  obtain ⟨w₁, -, -, hcontent⟩ := hfile hw hnone
  refine ⟨hs, hremote, hmerge, outcome, s', hok, hone, ?_, ⟨e, w₁, hw, w₁.disk.root, ?_⟩, a, w', hrun,
    hsaves.2 hmerge hrun 9⟩
  · intro p
    rw [hrecord]
    simp only [List.mem_singleton]
    rfl
  · rw [← hcontent w₁.disk.root]
    exact fun hnot => hnot List.mem_cons_self

end Syncbox

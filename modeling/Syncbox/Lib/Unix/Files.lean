/-
# `Unix.Files` — open files and the directories they need

Rules for the calls that work on a file piece by piece: opening it for reading and writing,
resizing it, reading some of it.  Each says what the call did, and under which
circumstances it does not fail.

`createDirAll` makes whatever is missing of a path.  What it leaves of a disk that it does
not concern is `Grown`: every node is as it was, and what is new is a directory.
-/
import Syncbox.Lib.Unix.Spec

namespace Unix

open Rust Prog Check

variable {ε : Type} {E : ε → World → Prop} {h : Host} {w : World} {path : PathBuf} {file : Loc}

/-! ## Calls that succeed -/

/-- The path leads to the node. -/
def Leads (h : Host) (d : Disk) (follow : Follow) (path : PathBuf) (node : Node) : Prop :=
  ∃ place, resolve h d follow path = .ok place ∧ d.nodeAt place = .ok node

theorem callAt_ok {α : Type} {follow : Follow} {place : Place} {a : α} {log : Log}
    {core : Host → Nat → Disk → Place → Except IoKind (α × Disk × Log)}
    (hno : ∀ n, h.fault n = false) (hr : resolve h w.disk follow path = .ok place)
    (hcore : core h w.calls w.disk place = .ok (a, w.disk, log)) :
    (callAt follow path core : Prog Host ε World _).wp h w
      (fun r w' => r = .ok a ∧ w'.disk = w.disk) E := by
  have hc : (resolve h w.disk follow path >>= core h w.calls w.disk) = .ok (a, w.disk, log) := by
    rw [hr]
    exact hcore
  unfold callAt
  refine wp_call ?_ ?_
  · intro a' d' log' hc'
    rw [hc] at hc'
    cases hc'
    exact ⟨rfl, rfl⟩
  · rintro kind (⟨hfault, -⟩ | hc')
    · rw [hno] at hfault
      cases hfault
    · rw [hc] at hc'
      cases hc'

theorem lstat_leads {node : Node} (hno : ∀ n, h.fault n = false)
    (hleads : Leads h w.disk .slash path node) :
    (lstat path : Prog Host ε World _).wp h w (fun r w' => r = .ok node ∧ w'.disk = w.disk) E := by
  obtain ⟨place, hr, hnode⟩ := hleads
  exact callAt_ok hno hr (by rw [hnode]; rfl)

theorem openRead_leads {c : Content} {m : Mode} {t : U64} (hno : ∀ n, h.fault n = false)
    (hleads : Leads h w.disk .always path (.file c m t)) (hread : h.canRead m = true) :
    (openRead path : Prog Host ε World _).wp h w (fun r w' => w'.disk = w.disk
      ∧ ∃ loc, r = .ok loc ∧ w.disk.get loc = some (.file c m t)) E := by
  obtain ⟨place, hr, hnode⟩ := hleads
  unfold openRead
  refine wp_conseq (@callAt_ok _ _ _ _ _ _ _ place place.loc [] _ hno hr ?_) fun r w' ⟨hr, hdisk⟩ =>
    ⟨hdisk, place.loc, hr, nodeAt_ok hnode⟩
  simp [hnode, hread, bind, Except.bind]

/-! ## Open files -/

theorem syncAll_spec : (syncAll : Prog Host ε World _).wp h w (fun r w' => Same w w'
    ∧ (r = .ok () ∨ ∃ kind, r = .error kind ∧ ¬ ∀ n, h.fault n = false)) E := by
  refine wp_call ?_ ?_
  · intro _ d log hc
    cases hc
    exact ⟨⟨rfl, rfl⟩, .inl rfl⟩
  · rintro kind (⟨hfault, rfl⟩ | hc)
    · refine ⟨⟨rfl, rfl⟩, .inr ⟨_, rfl, fun hno => ?_⟩⟩
      rw [hno] at hfault
      cases hfault
    · cases hc

theorem seek_spec : (seek : Prog Host ε World _).wp h w (fun r w' => Same w w'
    ∧ (r = .ok () ∨ ∃ kind, r = .error kind ∧ ¬ ∀ n, h.fault n = false)) E :=
  syncAll_spec

theorem readAt_spec {position wanted : Nat} :
    (readAt file position wanted : Prog Host ε World _).wp h w (fun r w' => w'.disk = w.disk
      ∧ ((∃ c m t piece, r = .ok piece ∧ w.disk.get file = some (.file c m t)
          ∧ piece <+: (c.val.drop position).take wanted
          ∧ (wanted ≠ 0 → position < c.val.length → piece ≠ []))
        ∨ ∃ kind, r = .error kind ∧ ¬ ((∀ n, h.fault n = false)
          ∧ ∃ c m t, w.disk.get file = some (.file c m t)))) E := by
  refine wp_call ?_ ?_
  · intro piece d log hc
    split at hc
    · rename_i c m t hget
      cases hc
      refine ⟨rfl, .inl ⟨c, m, t, _, rfl, hget, List.take_prefix _ _, fun hwanted hlt hnil => ?_⟩⟩
      have hlen := congrArg List.length hnil
      rw [List.length_take, List.length_take, List.length_drop, List.length_nil] at hlen
      omega
    · cases hc
    · cases hc
  · rintro kind (⟨hfault, rfl⟩ | hc)
    · refine ⟨rfl, .inr ⟨_, rfl, fun hno => ?_⟩⟩
      rw [hno.1] at hfault
      cases hfault
    · refine ⟨rfl, .inr ⟨_, rfl, ?_⟩⟩
      rintro ⟨-, c, m, t, hget⟩
      rw [hget] at hc
      cases hc

theorem readAt_changes {position wanted : Nat} :
    (readAt file position wanted : Prog Host ε World _).wp h w
      (fun _ w' => w'.disk = w.disk ∧ Changes {file} w w') E := by
  refine wp_call ?_ fun _ _ => ⟨rfl, .of_same ⟨rfl, rfl⟩⟩
  intro piece d log hc
  split at hc
  · cases hc
    exact ⟨rfl, fun _ => rfl, [(.read, file)], rfl, by simp⟩
  · cases hc
  · cases hc

theorem Disk.bytes_congr {d d' : Disk} {loc : Loc} (hget : d'.get loc = d.get loc) :
    d'.bytes loc = d.bytes loc := by
  unfold Disk.bytes
  rw [hget]

theorem setLen_spec {len : Nat} {c : Content} {m : Mode} {t : U64}
    (hget : w.disk.get file = some (.file c m t)) :
    (setLen file len : Prog Host ε World _).wp h w (fun r w' =>
      (r = .ok () ∧ ∃ c' t', c'.val = c.val.take len ++ List.replicate (len - c.val.length) 0
        ∧ Did w w' file (some (.file c' m t')) .write)
      ∨ ∃ kind, r = .error kind ∧ Same w w' ∧ ¬ ((∀ n, h.fault n = false) ∧ len < 2 ^ 64)) E := by
  have hbytes : w.disk.bytes file = c.val := by simp [Disk.bytes, hget]
  refine wp_call ?_ ?_
  · intro _ d log hc
    dsimp only at hc
    rw [hbytes] at hc
    obtain ⟨⟨c', hc', hsets⟩, rfl⟩ := rewrite_ok hget hc
    exact .inl ⟨rfl, c', _, hc', hsets, rfl⟩
  · rintro kind (⟨hfault, rfl⟩ | hc)
    · refine .inr ⟨_, rfl, ⟨rfl, rfl⟩, fun hno => ?_⟩
      rw [hno.1] at hfault
      cases hfault
    · refine .inr ⟨_, rfl, ⟨rfl, rfl⟩, fun hno => ?_⟩
      dsimp only at hc
      rw [hbytes] at hc
      refine rewrite_error hget hc ?_
      rw [List.length_append, List.length_take, List.length_replicate]
      omega

theorem openReadWrite_new_spec (hd : Direct w.disk path) :
    (openReadWrite path true : Prog Host ε World _).wp h w (fun r w' =>
      (r = .ok (names path) ∧ w.disk.get (names path) = none
        ∧ ∃ t, Did w w' (names path) (some (.file .empty (0o666 &&& ~~~h.umask) t)) .create)
      ∨ ∃ kind, r = .error kind ∧ Same w w'
        ∧ ¬ (Ready h w.disk path ∧ w.disk.get (names path) = none)) E := by
  refine wp_callAt hd (by simp) ?_ ?_
  · intro place loc d log hreach hc
    simp only [if_true] at hc
    rcases place with _ | ⟨parent, name, slash⟩
    · cases hc
    · have hloc := hreach.entry_loc
      dsimp only at hc
      rw [hloc] at hc
      split at hc
      · cases hc
      · rename_i hnone
        cases slash with
        | true => cases hc
        | false =>
            obtain ⟨⟨_, d', log'⟩, hcreate, heq⟩ := map_eq_ok.mp hc
            cases heq
            obtain ⟨hsets, rfl⟩ := create_ok hcreate
            rw [hloc] at hsets
            exact .inl ⟨rfl, hnone, _, hsets, by rw [hloc]; rfl⟩
  · intro kind hf
    refine .inr ⟨kind, rfl, ⟨rfl, rfl⟩, ?_⟩
    rintro ⟨hr, hnone⟩
    obtain ⟨parent, name, hloc, hw, hn, -, hc⟩ := hf.of_ready hr
    rw [hloc] at hnone
    simp only [if_true, hnone, Bool.false_eq_true, if_false] at hc
    cases hcreate : w.disk.create h parent name
        (.file .empty (0o666 &&& ~~~h.umask) (h.clockNs w.calls)) with
    | ok x => rw [hcreate] at hc; cases hc
    | error kind' =>
        obtain ⟨mode, hdir⟩ := create_error hcreate hw hn
        rw [hnone] at hdir
        cases hdir

theorem openReadWrite_existing_spec (hd : Direct w.disk path)
    (hlast : ¬ w.disk.IsLink (names path)) :
    (openReadWrite path false : Prog Host ε World _).wp h w (fun r w' => Same w w'
      ∧ ((r = .ok (names path) ∧ ∃ c m t, w.disk.get (names path) = some (.file c m t))
        ∨ ∃ kind, r = .error kind ∧ ¬ (Smooth h w.disk path ∧ ∃ c m t,
          w.disk.get (names path) = some (.file c m t) ∧ h.canRead m = true ∧ h.canWrite m = true))) E := by
  refine wp_callAt hd (fun _ => hlast) ?_ ?_
  · intro place loc d log hreach hc
    have hloc : place.loc = names path := hreach.loc
    simp only [Bool.false_eq_true, if_false] at hc
    split at hc
    · rename_i c m t hnode
      split at hc
      · cases hc
        have hget := nodeAt_ok hnode
        rw [hloc] at hget
        exact ⟨⟨rfl, rfl⟩, .inl ⟨by rw [hloc], c, m, t, hget⟩⟩
      · cases hc
    · cases hc
    · cases hc
    · cases hc
  · intro kind hf
    refine ⟨⟨rfl, rfl⟩, .inr ⟨kind, rfl, ?_⟩⟩
    rintro ⟨hs, c, m, t, hget, hread, hwrite⟩
    obtain ⟨place, -, hn, hc⟩ := hf.of_there hs (fun _ => hlast) hget
    simp [hn, hread, hwrite] at hc

/-! ## Missing directories -/

/-- Off `S` every node is as it was, and what is new is a directory on the way to `dir`. -/
def Grown (S : Set Loc) (dir : Loc) (mode : Mode) (d d' : Disk) : Prop :=
  ∀ ⦃loc⦄, loc ∉ S → d'.get loc = d.get loc
    ∨ loc <+: dir ∧ d.get loc = none ∧ d'.get loc = some (.dir mode)

namespace Grown

variable {S T : Set Loc} {dir loc : Loc} {mode : Mode} {d d' d'' : Disk}

theorem refl (S : Set Loc) (dir : Loc) (mode : Mode) (d : Disk) : Grown S dir mode d d :=
  fun _ _ => .inl rfl

theorem of_eq (heq : d' = d) : Grown S dir mode d d' := heq ▸ refl S dir mode d

theorem mono {longer : Loc} (hg : Grown S dir mode d d') (hsub : S ⊆ T) (hdir : dir <+: longer) :
    Grown T longer mode d d' :=
  fun _ hloc => (hg fun hS => hloc (hsub hS)).imp_right fun ⟨hi, hnew⟩ => ⟨hi.trans hdir, hnew⟩

theorem trans (h₁ : Grown S dir mode d d') (h₂ : Grown S dir mode d' d'') :
    Grown S dir mode d d'' := by
  intro loc hloc
  rcases h₁ hloc with heq | ⟨hi, hnone, hdir⟩
  · rcases h₂ hloc with heq' | ⟨hi, hnone', hdir'⟩
    · exact .inl (heq'.trans heq)
    · exact .inr ⟨hi, heq ▸ hnone', hdir'⟩
  · refine .inr ⟨hi, hnone, ?_⟩
    rcases h₂ hloc with heq' | ⟨-, hnone', -⟩
    · rw [heq', hdir]
    · rw [hdir] at hnone'
      cases hnone'

theorem of_sets_dir (hnone : d.get loc = none) (hi : loc <+: dir)
    (hs : Sets d loc (some (.dir mode)) d') : Grown S dir mode d d' := by
  intro l _
  by_cases hl : loc = l
  · subst hl
    exact .inr ⟨hi, hnone, hs.at⟩
  · exact .inl (hs.off hl)

theorem of_sets {o : Option Node} (hs : Sets d loc o d') (hloc : loc ∈ S) :
    Grown S dir mode d d' := by
  intro l hl
  refine .inl (hs.off ?_)
  rintro rfl
  exact hl hloc

theorem off (hg : Grown S dir mode d d') (hloc : loc ∉ S) (hi : ¬ loc <+: dir) :
    d'.get loc = d.get loc :=
  (hg hloc).resolve_right fun hnew => hi hnew.1

theorem get {node : Node} (hg : Grown S dir mode d d') (hloc : loc ∉ S)
    (hget : d.get loc = some node) : d'.get loc = some node := by
  rcases hg hloc with heq | ⟨-, hnone, -⟩
  · rw [heq, hget]
  · rw [hnone] at hget
    cases hget

theorem notLink (hg : Grown S dir mode d d') (hloc : loc ∉ S) (hlink : ¬ d.IsLink loc) :
    ¬ d'.IsLink loc := by
  rintro ⟨target, htarget⟩
  rcases hg hloc with heq | ⟨-, -, hdir⟩
  · exact hlink ⟨target, heq ▸ htarget⟩
  · rw [htarget] at hdir
    cases hdir

theorem direct {path : PathBuf} (hg : Grown S dir mode d d') (hd : Direct d path)
    (hS : ∀ {init}, init <+: path → init ≠ path → names init ∉ S) : Direct d' path :=
  ⟨hd.noDotDot, fun hi hne => hg.notLink (hS hi hne) (hd.noLink hi hne)⟩

theorem smooth {h : Host} {path : PathBuf} (hg : Grown S dir mode d d') (hs : Smooth h d path)
    (hsearch : h.canSearch mode = true) (hS : ∀ {init}, init <+: path → init ≠ path → init ∉ S) :
    Smooth h d' path := by
  refine ⟨hs.noFault, hs.named, fun hi hne => ?_⟩
  rcases hg (hS hi hne) with heq | ⟨-, -, hdir⟩
  · rw [heq]
    exact hs.passable hi hne
  · exact .inr ⟨mode, hdir, hsearch⟩

end Grown

/-- The directory is there and can be written to, or it can be made. -/
inductive Makeable (h : Host) (d : Disk) : Loc → Prop
  | there {path : Loc} {mode : Mode} (hget : d.get path = some (.dir mode))
      (hwrite : h.canWrite mode = true) (hsearch : h.canSearch mode = true) : Makeable h d path
  | missing {parent : Loc} {name : Str} (hnone : d.get (parent ++ [name]) = none)
      (hname : isFileName name = true) (hparent : Makeable h d parent) :
      Makeable h d (parent ++ [name])

theorem Makeable.get {d : Disk} {path : Loc} (hm : Makeable h d path) : d.get path = none
    ∨ ∃ mode, d.get path = some (.dir mode) ∧ h.canWrite mode = true ∧ h.canSearch mode = true := by
  cases hm with
  | there hget hwrite hsearch => exact .inr ⟨_, hget, hwrite, hsearch⟩
  | missing hnone _ _ => exact .inl hnone

theorem Makeable.grown {S : Set Loc} {dir : Loc} {mode : Mode} {d d' : Disk} {path : Loc}
    (hm : Makeable h d path) (hg : Grown S dir mode d d') (hwrite : h.canWrite mode = true)
    (hsearch : h.canSearch mode = true) (hS : ∀ {init}, init <+: path → init ∉ S) :
    Makeable h d' path := by
  induction hm with
  | there hget hw hs => exact .there (hg.get (hS (List.prefix_refl _)) hget) hw hs
  | missing hnone hname _ ih =>
      rcases hg (hS (List.prefix_refl _)) with heq | ⟨-, -, hdir⟩
      · exact .missing (heq.trans hnone) hname
          (ih fun hi => hS (hi.trans (List.prefix_append _ _)))
      · exact .there hdir hwrite hsearch

theorem unlessDir_spec {kind : IoKind} :
    (unlessDir path kind : Prog Host ε World _).wp h w (fun _ w' => w'.disk = w.disk) E := by
  have hstat : (stat path : Prog Host ε World _).wp h w (fun _ w' => w'.disk = w.disk) E := by
    unfold stat callAt
    refine wp_call ?_ fun _ _ => rfl
    intro node d log hc
    obtain ⟨place, -, hc⟩ := bind_eq_ok.mp hc
    obtain ⟨_, -, heq⟩ := map_eq_ok.mp hc
    cases heq
    rfl
  unfold unlessDir pathIsDir
  rw [wp_bind, wp_bind]
  refine wp_conseq hstat fun r w' hsame => ?_
  cases r with
  | ok node => exact wp_ite (fun _ => hsame) fun _ => hsame
  | error kind => exact hsame

theorem Direct.dropLast {d : Disk} (hd : Direct d path) (hne : path ≠ []) :
    Direct d path.dropLast where
  noDotDot := fun hm => hd.noDotDot (List.dropLast_subset _ hm)
  noLink := by
    intro init hi _
    refine hd.noLink (hi.trans (List.dropLast_prefix _)) fun heq => ?_
    have hle := hi.length_le
    have hpos := List.length_pos_iff.mpr hne
    rw [heq, List.length_dropLast] at hle
    omega

section Grow

variable {w : World} {path : PathBuf}

theorem mkdir_grown (hd : Direct w.disk path) : (mkdir path : Prog Host ε World _).wp h w
    (fun _ w' => Grown ∅ (names path) (0o777 &&& ~~~h.umask) w.disk w'.disk) E := by
  refine wp_conseq (mkdir_spec hd) fun r w' hr => ?_
  rcases hr with ⟨-, hnone, hdid⟩ | ⟨kind, -, hsame, -⟩
  · exact .of_sets_dir hnone (List.prefix_refl _) hdid.sets
  · exact .of_eq hsame.disk

theorem createDirAll_grown {w : World} {path : PathBuf} (hd : Direct w.disk path) :
    (createDirAll path : Prog Host ε World _).wp h w
      (fun _ w' => Grown ∅ (names path) (0o777 &&& ~~~h.umask) w.disk w'.disk) E := by
  have hunless : ∀ kind {w'}, Grown ∅ (names path) (0o777 &&& ~~~h.umask) w.disk w'.disk →
      (unlessDir path kind : Prog Host ε World _).wp h w'
        (fun _ w'' => Grown ∅ (names path) (0o777 &&& ~~~h.umask) w.disk w''.disk) E :=
    fun kind w' hg => wp_conseq unlessDir_spec fun _ _ heq => heq ▸ hg
  have hshorter : names path.dropLast <+: names path := (List.dropLast_prefix path).filter isName
  unfold createDirAll
  refine wp_then (mkdir_grown hd) fun r w' hg => ?_
  split
  · exact hg
  · split
    · exact hg
    · rename_i hne
      have hd' := hg.direct hd fun _ _ => Set.notMem_empty _
      refine wp_then (createDirAll_grown (hd'.dropLast hne)) fun r w'' hg' => ?_
      have hg₂ := hg.trans (hg'.mono (Set.Subset.refl _) hshorter)
      cases r with
      | error kind => exact hg₂
      | ok _ =>
          refine wp_then (mkdir_grown (hg₂.direct hd fun _ _ => Set.notMem_empty _))
            fun r w₃ hg₃ => ?_
          cases r with
          | ok _ => exact hg₂.trans hg₃
          | error kind => exact hunless kind (hg₂.trans hg₃)
  · exact hunless _ hg
termination_by path.length
decreasing_by
  have := List.length_pos_iff.mpr ‹path ≠ []›
  rw [List.length_dropLast]
  omega

theorem searched_of_walkWith {d : Disk} {follow : Follow}
    {onLink : Loc → List Str → Except IoKind Place} :
    ∀ {rest : List Str} {b : Loc} {place : Place}, Named rest →
    (∀ {init}, init <+: rest → init ≠ rest → ¬ d.IsLink (b ++ init)) →
    (follow = .always → ¬ d.IsLink (b ++ rest)) →
    walkWith h d follow onLink b rest = .ok place → ∀ {init}, init <+: rest → init ≠ rest →
    ∃ mode, d.get (b ++ init) = some (.dir mode) ∧ h.canSearch mode = true
  | [], b, place, _, _, _, _, init, hi, hne => absurd (List.prefix_nil.mp hi) hne
  | part :: rest, b, place, hn, hlink, hlast, hw, init, hi, hne => by
      rcases @walkWith_stuck h d follow onLink b part rest with ⟨mode, hget, hs⟩ | hbad | hbad
      · cases init with
        | nil =>
            rw [List.append_nil]
            exact ⟨mode, hget, hs⟩
        | cons x init =>
            obtain ⟨rfl, hi'⟩ := List.cons_prefix_cons.mp hi
            have hne' : init ≠ rest := fun heq => hne (by rw [heq])
            have hrest : rest ≠ [] := by
              rintro rfl
              exact hne' (List.prefix_nil.mp hi')
            obtain ⟨hname, hdd⟩ := hn x List.mem_cons_self
            have hn' : Named rest := fun p hp => hn p (List.mem_cons_of_mem _ hp)
            have hhere : ¬ d.IsLink (b ++ [x]) :=
              hlink ((List.prefix_cons_inj x).mpr List.nil_prefix)
                (fun heq => hrest (List.cons.inj heq).2.symm)
            have hsome : ¬ (rest.all fun p => p = []) = true := by
              obtain ⟨p, rest, rfl⟩ := List.exists_cons_of_ne_nil hrest
              have := (hn' p List.mem_cons_self).1
              rintro hall
              simp only [List.all_cons, Bool.and_eq_true, decide_eq_true_eq] at hall
              rw [hall.1] at this
              cases this
            rw [walkWith_cons hget hs hname hdd (fun _ => hhere) (fun _ => hhere), if_neg hsome] at hw
            split at hw
            · cases hw
            · have hassoc : ∀ l, b ++ x :: l = (b ++ [x]) ++ l := by simp
              rw [hassoc]
              refine searched_of_walkWith hn' (fun {i} hi hne => ?_) ?_ hw hi' hne'
              · rw [← hassoc]
                exact hlink ((List.prefix_cons_inj x).mpr hi) fun heq => hne (List.cons.inj heq).2
              · rwa [hassoc] at hlast
      · rw [hbad] at hw; cases hw
      · rw [hbad] at hw; cases hw

theorem searched_of_resolve {d : Disk} {follow : Follow} {place : Place} (hn : Named path)
    (hd : Direct d path) (hlast : follow = .always → ¬ d.IsLink path)
    (hr : resolve h d follow path = .ok place) {init : Loc} (hi : init <+: path) (hne : init ≠ path) :
    ∃ mode, d.get init = some (.dir mode) ∧ h.canSearch mode = true := by
  have := @searched_of_walkWith h d follow _ path [] place hn (fun {i} hi hne => by
    have := hd.noLink hi hne
    rwa [Named.names fun p hp => hn p (hi.subset hp)] at this) (by simpa using hlast) hr init hi hne
  simpa using this

theorem callAt_searched {α : Type} {follow : Follow}
    {core : Host → Nat → Disk → Place → Except IoKind (α × Disk × Log)} (hn : Named path)
    (hd : Direct w.disk path) (hlast : follow = .always → ¬ w.disk.IsLink path) :
    (callAt follow path core : Prog Host ε World _).wp h w (fun r _ => ∀ {a}, r = .ok a →
      ∀ {init}, init <+: path → init ≠ path →
        ∃ mode, w.disk.get init = some (.dir mode) ∧ h.canSearch mode = true) E := by
  refine wp_call (fun a d log hc b _ init hi hne => ?_) fun kind _ a hr => by cases hr
  obtain ⟨place, hr, -⟩ := bind_eq_ok.mp hc
  exact searched_of_resolve hn hd hlast hr hi hne

theorem unlessDir_ok {kind : IoKind} (hd : Direct w.disk path)
    (hlast : ¬ w.disk.IsLink (names path)) :
    (unlessDir path kind : Prog Host ε World _).wp h w
      (fun r w' => w'.disk = w.disk ∧ (r = .ok () → w.disk.IsDir (names path))) E := by
  unfold unlessDir pathIsDir
  rw [wp_bind, wp_bind]
  refine wp_conseq (stat_spec hd hlast) ?_
  rintro (kind' | node) w' hlooked
  · exact ⟨hlooked.same.disk, fun hr => by cases hr⟩
  · refine wp_ite (fun hdir => ⟨hlooked.same.disk, fun _ => ?_⟩)
      fun _ => ⟨hlooked.same.disk, fun hr => by cases hr⟩
    rcases node with _ | mode | _ | _
    case dir => exact ⟨mode, hlooked.ok rfl⟩
    all_goals cases hdir

theorem mkdir_ok (hd : Direct w.disk path) : (mkdir path : Prog Host ε World _).wp h w
    (fun r w' => Grown ∅ (names path) (0o777 &&& ~~~h.umask) w.disk w'.disk
      ∧ (r = .ok () → w'.disk.IsDir (names path))) E := by
  refine wp_conseq (mkdir_spec hd) ?_
  rintro r w' (⟨rfl, hnone, hdid⟩ | ⟨kind, rfl, hsame, -⟩)
  · exact ⟨.of_sets_dir hnone List.prefix_rfl hdid.sets, fun _ => ⟨_, hdid.sets.at⟩⟩
  · exact ⟨.of_eq hsame.disk, fun hr => by cases hr⟩

theorem createDirAll_ok {w : World} {path : PathBuf} (hd : Direct w.disk path)
    (hlast : ¬ w.disk.IsLink (names path)) :
    (createDirAll path : Prog Host ε World _).wp h w
      (fun r w' => Grown ∅ (names path) (0o777 &&& ~~~h.umask) w.disk w'.disk
        ∧ (r = .ok () → w'.disk.IsDir (names path))) E := by
  have hunless : ∀ kind {w'}, Grown ∅ (names path) (0o777 &&& ~~~h.umask) w.disk w'.disk →
      (unlessDir path kind : Prog Host ε World _).wp h w'
        (fun r w'' => Grown ∅ (names path) (0o777 &&& ~~~h.umask) w.disk w''.disk
          ∧ (r = .ok () → w''.disk.IsDir (names path))) E := by
    intro kind w' hg
    refine wp_conseq (unlessDir_ok (hg.direct hd fun _ _ => Set.notMem_empty _)
      (hg.notLink (Set.notMem_empty _) hlast)) ?_
    rintro r w'' ⟨heq, hdir⟩
    exact ⟨heq ▸ hg, fun hr => heq ▸ hdir hr⟩
  have hshorter : names path.dropLast <+: names path := (List.dropLast_prefix path).filter isName
  unfold createDirAll
  refine wp_then (mkdir_ok hd) ?_
  rintro r w' ⟨hg, hdir⟩
  split
  · exact ⟨hg, fun _ => hdir rfl⟩
  · split
    · exact ⟨hg, fun hr => by cases hr⟩
    · rename_i hne
      have hd' := hg.direct hd fun _ _ => Set.notMem_empty _
      refine wp_then (createDirAll_grown (hd'.dropLast hne)) fun r w'' hg' => ?_
      have hg₂ := hg.trans (hg'.mono (Set.Subset.refl _) hshorter)
      cases r with
      | error kind => exact ⟨hg₂, fun hr => by cases hr⟩
      | ok _ =>
          refine wp_then (mkdir_ok (hg₂.direct hd fun _ _ => Set.notMem_empty _)) ?_
          rintro r w₃ ⟨hg₃, hdir₃⟩
          cases r with
          | ok _ => exact ⟨hg₂.trans hg₃, fun _ => hdir₃ rfl⟩
          | error kind => exact hunless kind (hg₂.trans hg₃)
  · exact hunless _ hg

theorem callAt_missing {α : Type} {follow : Follow} {parent : Loc} {name : Str}
    {core : Host → Nat → Disk → Place → Except IoKind (α × Disk × Log)}
    (hs : Smooth h w.disk (parent ++ [name]))
    (hlast : follow = .always → ¬ w.disk.IsLink (parent ++ [name])) (hno : ¬ w.disk.IsDir parent) :
    (callAt follow (parent ++ [name]) core : Prog Host ε World _).wp h w
      (fun r w' => r = .error .notFound ∧ Same w w') E := by
  unfold callAt
  refine wp_call ?_ ?_
  · intro a d log hc
    rw [hs.resolve hlast, if_neg hno] at hc
    cases hc
  · rintro kind (⟨hfault, -⟩ | hc)
    · rw [hs.noFault] at hfault
      cases hfault
    · rw [hs.resolve hlast, if_neg hno] at hc
      cases hc
      exact ⟨rfl, rfl, rfl⟩

theorem createDirAll_made {parent : Loc} {name : Str} (hm : Makeable h w.disk parent)
    (hwrite : h.canWrite (0o777 &&& ~~~h.umask) = true)
    (hsearch : h.canSearch (0o777 &&& ~~~h.umask) = true)
    (hs : Smooth h w.disk (parent ++ [name])) (hnone : w.disk.get (parent ++ [name]) = none)
    (hname : isFileName name = true) :
    (createDirAll (parent ++ [name]) : Prog Host ε World _).wp h w (fun r w' => r = .ok ()
      ∧ w'.disk.get (parent ++ [name]) = some (.dir (0o777 &&& ~~~h.umask))
      ∧ Grown ∅ (parent ++ [name]) (0o777 &&& ~~~h.umask) w.disk w'.disk) E := by
  generalize hd : w.disk = d at hm
  induction hm generalizing w name with
  | @there parent mode hget hw _ =>
      -- only the last directory is missing
      subst hd
      have hready : Ready h w.disk (parent ++ [name]) :=
        ⟨parent, name, rfl, hs, by simpa [Disk.writable, hget] using hw, hname⟩
      unfold createDirAll
      refine wp_then (mkdir_spec hs.direct) fun r w' hmade => ?_
      rw [hs.named.names] at hmade
      rcases hmade with ⟨rfl, -, hdid⟩ | ⟨kind, rfl, -, hnot⟩
      · exact ⟨rfl, hdid.sets.at, .of_sets_dir hnone (List.prefix_refl _) hdid.sets⟩
      · exact absurd ⟨hready, hnone⟩ hnot
  | @missing grand dir hgone hdir _ ih =>
      -- the parent is missing too, and is made first
      subst hd
      have hno : ¬ w.disk.IsDir (grand ++ [dir]) := by
        rintro ⟨mode, hmode⟩
        rw [hgone] at hmode
        cases hmode
      have hproper : ∀ {init}, init <+: grand ++ [dir] → init ≠ grand ++ [dir] ++ [name] := by
        rintro init hi rfl
        have := hi.length_le
        simp at this
      have hparent : Smooth h w.disk (grand ++ [dir]) :=
        ⟨hs.noFault, fun part hpart => hs.named part (List.mem_append_left _ hpart), fun hi _ =>
          hs.passable (hi.trans (List.prefix_append _ _)) (hproper hi)⟩
      unfold createDirAll
      refine wp_then (callAt_missing hs (by simp) hno) fun r w₁ ⟨hr, hsame⟩ => ?_
      subst hr
      dsimp only
      rw [dif_neg (by simp), List.dropLast_concat, wp_bind]
      refine wp_conseq (ih (hsame.disk ▸ hparent) (hsame.disk ▸ hgone) hdir hsame.disk)
        fun r w₂ ⟨hr, hmade, hgrown⟩ => ?_
      subst hr
      have hfree : w₂.disk.get (grand ++ [dir] ++ [name]) = none :=
        (hgrown.off (Set.notMem_empty _) fun hi => hproper hi rfl).trans hnone
      have hs₂ : Smooth h w₂.disk (grand ++ [dir] ++ [name]) :=
        hgrown.smooth hs hsearch fun _ _ => Set.notMem_empty _
      have hready : Ready h w₂.disk (grand ++ [dir] ++ [name]) :=
        ⟨_, name, rfl, hs₂, by simpa [Disk.writable, hmade] using hwrite, hname⟩
      refine wp_then (mkdir_spec hs₂.direct) fun r w₃ hlast => ?_
      rw [hs.named.names] at hlast
      rcases hlast with ⟨rfl, -, hdid⟩ | ⟨kind, rfl, -, hnot⟩
      · exact ⟨rfl, hdid.sets.at, (hgrown.mono (Set.Subset.refl _) (List.prefix_append _ _)).trans
          (.of_sets_dir hfree (List.prefix_refl _) hdid.sets)⟩
      · exact absurd ⟨hready, hfree⟩ hnot

end Grow

end Unix

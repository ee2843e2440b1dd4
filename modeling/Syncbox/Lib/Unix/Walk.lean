/-
# `Unix.Walk` — path resolution

How the kernel turns a path into a place on the disk: part by part, through every
symbolic link on the way, with at most forty links.  Whether the last part is
followed too depends on the call, and a trailing slash makes it be followed where
it otherwise would not.

The point of the file is the converse of following links.  A path none of whose
proper prefixes is a link — a `Direct` path — resolves to the location it spells,
whatever the last part is (`reached_of_resolve`), and when it resolves to nothing then
nothing is there (`get_none_of_resolve`).  Programs that check every prefix for links
stay inside their root by these two lemmas.
-/
import Syncbox.Lib.Unix.Disk

namespace Unix

open Rust

/-- The process and the machine it runs on.  `fault n` makes the `n`-th call fail
for a reason of its own; `written n` is how far a failing write got, and `readable n` how
much a read may answer.  The `walkdir` crate lists a tree in an order of its own: `walkOrder`
is any rearrangement of what is there. -/
structure Host where
  privileged : Bool
  umask : Mode
  /-- Renames cross a mount point. -/
  crossDevice : Bool
  pid : Nat
  fault : Nat → Bool
  written : Nat → Nat
  readable : Nat → Nat
  clockNs : Nat → U64
  clockMs : Nat → U64
  random : Nat → U64
  walkOrder : List (List Str × Node) → List (List Str × Node)
  walkOrder_perm : ∀ entries, (walkOrder entries).Perm entries

namespace Host

/-- The process owns what it works on, so the owner's bits decide. -/
def canRead (h : Host) (mode : Mode) : Bool := h.privileged || mode &&& 0o400 == 0o400
def canWrite (h : Host) (mode : Mode) : Bool := h.privileged || mode &&& 0o200 == 0o200
def canSearch (h : Host) (mode : Mode) : Bool := h.privileged || mode &&& 0o100 == 0o100

/-- A host on which nothing fails. -/
def quiet : Host where
  privileged := false
  umask := 0o022
  crossDevice := false
  pid := 1
  fault := fun _ => false
  written := fun _ => 0
  readable := fun _ => 1
  clockNs := fun _ => 0
  clockMs := fun _ => 0
  random := fun _ => 0
  walkOrder := id
  walkOrder_perm := List.Perm.refl

end Host

/-- Whether the last part of a path is followed when it is a link. -/
inductive Follow where
  | never
  | slash
  | always
  deriving DecidableEq

/-- Where a path leads: a directory by way of `.`, or an entry of a directory. -/
inductive Place where
  | dir (loc : Loc)
  | entry (parent : Loc) (name : Str) (slash : Bool)
  deriving DecidableEq

def Place.loc : Place → Loc
  | dir loc => loc
  | entry parent name _ => parent ++ [name]

/-- The walk ends at the last name, unless it is a link to be followed. -/
def Follow.stops (follow : Follow) (slash : Bool) : Option Node → Bool
  | some (.symlink _) =>
      match follow with
      | .never => true
      | .slash => !slash
      | .always => false
  | _ => true

section Walk

variable (h : Host) (d : Disk) (follow : Follow)

/-- The walk up to the first link that has to be followed, which `onLink` takes over. -/
def walkWith (onLink : Loc → List Str → Except IoKind Place) :
    Loc → List Str → Except IoKind Place
  | cur, [] => .ok (.dir cur)
  | cur, part :: rest =>
      match d.get cur with
      | some (.dir mode) =>
          if h.canSearch mode = false then .error .permissionDenied
          else if isName part = false then walkWith onLink cur rest
          else if part = ['.', '.'] then walkWith onLink cur.dropLast rest
          else if (rest.all fun p => p = []) ∧ follow.stops (rest ≠ []) (d.get (cur ++ [part])) then
            .ok (.entry cur part (rest ≠ []))
          else
            match d.get (cur ++ [part]) with
            | none => .error .notFound
            | some (.symlink target) =>
                onLink (if target.head? = some '/' then [] else cur) (split target ++ rest)
            | some _ => walkWith onLink (cur ++ [part]) rest
      | _ => .error .notADirectory

/-- The walk through at most `links` links. -/
def walk : Nat → Loc → List Str → Except IoKind Place
  | 0 => walkWith h d follow fun _ _ => .error .filesystemLoop
  | links + 1 => walkWith h d follow (walk links)

def resolve (path : PathBuf) : Except IoKind Place := walk h d follow 40 [] path

end Walk

/-! ## Direct paths -/

/-- No proper prefix of the path is a link, and no part is `..`. -/
structure Direct (d : Disk) (path : PathBuf) : Prop where
  noDotDot : ['.', '.'] ∉ path
  noLink : ∀ {init}, init <+: path → init ≠ path → ¬ d.IsLink (names init)

/-- What a walk along `rest` from `b` that meets no link ends in. -/
structure Reached (d : Disk) (b : Loc) (rest : List Str) (place : Place) : Prop where
  loc : place.loc = b ++ names rest
  dir : ∀ {l}, place = .dir l → rest = [] ∨ d.IsDir l
  entry : ∀ {parent name slash}, place = .entry parent name slash →
    d.IsDir parent ∧ (slash = false → ∃ init, rest = init ++ [name] ∧ parent = b ++ names init
      ∧ isName name = true)

section Direct

variable {h : Host} {d : Disk} {follow : Follow} {onLink : Loc → List Str → Except IoKind Place}

theorem walkWith_cons {b : Loc} {part : Str} {rest : List Str} {mode : Mode}
    (hget : d.get b = some (.dir mode)) (hs : h.canSearch mode = true)
    (hname : isName part = true) (hdd : part ≠ ['.', '.'])
    (hlink : rest ≠ [] → ¬ d.IsLink (b ++ [part]))
    (hlast : follow = .always → ¬ d.IsLink (b ++ [part])) :
    walkWith h d follow onLink b (part :: rest) =
      if (rest.all fun p => p = []) = true then .ok (.entry b part (rest ≠ []))
      else if d.get (b ++ [part]) = none then .error .notFound
      else walkWith h d follow onLink (b ++ [part]) rest := by
  rw [walkWith, hget]
  simp only [hs, hname, hdd, if_false, Bool.true_eq_false]
  rcases hchild : d.get (b ++ [part]) with _ | (_ | _ | target | _)
  case some.symlink =>
    have hrest : rest = [] := by_contra fun hne => hlink hne ⟨target, hchild⟩
    have hfollow : follow ≠ .always := fun hf => hlast hf ⟨target, hchild⟩
    subst hrest
    cases follow <;> simp_all [Follow.stops]
  all_goals simp [Follow.stops]

theorem walkWith_skip {b : Loc} {part : Str} {rest : List Str} {mode : Mode}
    (hget : d.get b = some (.dir mode)) (hs : h.canSearch mode = true)
    (hname : isName part = false) :
    walkWith h d follow onLink b (part :: rest) = walkWith h d follow onLink b rest := by
  rw [walkWith, hget]
  simp [hs, hname]

theorem names_of_all_empty {rest : List Str} (h : (rest.all fun p => p = []) = true) :
    names rest = [] := by
  simp only [List.all_eq_true, decide_eq_true_eq] at h
  exact List.filter_eq_nil_iff.mpr fun p hp => by simp [h p hp, isName]

theorem names_cons_name {part : Str} {rest : List Str} (h : isName part = true) :
    names (part :: rest) = part :: names rest := by simp [names, h]

theorem names_cons_skip {part : Str} {rest : List Str} (h : isName part = false) :
    names (part :: rest) = names rest := by simp [names, h]

theorem walkWith_stuck {b : Loc} {part : Str} {rest : List Str} :
    (∃ mode, d.get b = some (.dir mode) ∧ h.canSearch mode = true)
      ∨ walkWith h d follow onLink b (part :: rest) = .error .permissionDenied
      ∨ walkWith h d follow onLink b (part :: rest) = .error .notADirectory := by
  rw [walkWith]
  rcases hget : d.get b with _ | (_ | mode | _ | _)
  case some.dir =>
    cases hs : h.canSearch mode with
    | true => exact .inl ⟨mode, rfl, hs⟩
    | false => exact .inr (.inl (by simp [hs]))
  all_goals exact .inr (.inr rfl)

section Way

variable {P : Loc → Prop} {b : Loc} {part : Str} {rest init : List Str}

theorem way_tail (hname : isName part = true)
    (hP : ∀ {init}, init <+: part :: rest → init ≠ part :: rest → P (b ++ names init))
    (hi : init <+: rest) (hne : init ≠ rest) : P ((b ++ [part]) ++ names init) := by
  have := @hP (part :: init) ((List.prefix_cons_inj part).mpr hi) (fun he => hne (List.cons.inj he).2)
  rwa [names_cons_name hname, ← List.singleton_append, ← List.append_assoc] at this

theorem way_skip (hname : isName part = false)
    (hP : ∀ {init}, init <+: part :: rest → init ≠ part :: rest → P (b ++ names init))
    (hi : init <+: rest) (hne : init ≠ rest) : P (b ++ names init) := by
  have := @hP (part :: init) ((List.prefix_cons_inj part).mpr hi) (fun he => hne (List.cons.inj he).2)
  rwa [names_cons_skip hname] at this

end Way

/-- The course of a walk that meets no link to be followed. -/
inductive Straight (h : Host) (d : Disk) : Loc → List Str → Except IoKind Place → Prop
  | done (b : Loc) : Straight h d b [] (.ok (.dir b))
  | stuck {b : Loc} {part : Str} {rest : List Str} {kind : IoKind} (hkind : kind ≠ .notFound)
      (hno : ∀ {mode}, d.get b = some (.dir mode) → h.canSearch mode = false) :
      Straight h d b (part :: rest) (.error kind)
  | skip {b : Loc} {part : Str} {rest : List Str} {r : Except IoKind Place} (hdir : d.IsDir b)
      (hname : isName part = false) (hrest : Straight h d b rest r) : Straight h d b (part :: rest) r
  | last {b : Loc} {part : Str} {rest : List Str} (hdir : d.IsDir b) (hname : isName part = true)
      (hall : (rest.all fun p => p = []) = true) :
      Straight h d b (part :: rest) (.ok (.entry b part (rest ≠ [])))
  | missing {b : Loc} {part : Str} {rest : List Str} (hname : isName part = true)
      (hnone : d.get (b ++ [part]) = none) : Straight h d b (part :: rest) (.error .notFound)
  | step {b : Loc} {part : Str} {rest : List Str} {r : Except IoKind Place} (hname : isName part = true)
      (hall : ¬ (rest.all fun p => p = []) = true) (hsome : d.get (b ++ [part]) ≠ none)
      (hrest : Straight h d (b ++ [part]) rest r) : Straight h d b (part :: rest) r

theorem straight_walkWith : ∀ {rest : List Str} {b : Loc}, ['.', '.'] ∉ rest →
    (∀ {init}, init <+: rest → init ≠ rest → ¬ d.IsLink (b ++ names init)) →
    (follow = .always → ¬ d.IsLink (b ++ names rest)) →
    Straight h d b rest (walkWith h d follow onLink b rest)
  | [], b, _, _, _ => .done b
  | part :: rest, b, hdd, hlink, hlast => by
      have hdd' : ['.', '.'] ∉ rest := fun hm => hdd (List.mem_cons_of_mem _ hm)
      by_cases hgo : ∃ mode, d.get b = some (.dir mode) ∧ h.canSearch mode = true
      · obtain ⟨mode, hget, hs⟩ := hgo
        cases hname : isName part with
        | false =>
            rw [walkWith_skip hget hs hname]
            rw [names_cons_skip hname] at hlast
            exact .skip ⟨mode, hget⟩ hname (straight_walkWith hdd' (way_skip (P := (¬ d.IsLink ·)) hname hlink) hlast)
        | true =>
            have hpart : part ≠ ['.', '.'] := fun he => hdd (he ▸ List.mem_cons_self)
            have hhere : rest ≠ [] → ¬ d.IsLink (b ++ [part]) := fun hne => by
              simpa [names] using way_tail (P := (¬ d.IsLink ·)) hname hlink List.nil_prefix hne.symm
            have hend : follow = .always → ¬ d.IsLink (b ++ [part]) := fun hf => by
              by_cases hr : rest = []
              · have := hlast hf
                rwa [hr, names_cons_name hname] at this
              · exact hhere hr
            rw [walkWith_cons hget hs hname hpart hhere hend]
            rw [names_cons_name hname] at hlast
            split
            · exact .last ⟨mode, hget⟩ hname ‹_›
            · split
              · exact .missing hname ‹_›
              · exact .step hname ‹_› ‹_›
                  (straight_walkWith hdd' (way_tail (P := (¬ d.IsLink ·)) hname hlink) (by simpa using hlast))
      · have hno : ∀ {mode}, d.get b = some (.dir mode) → h.canSearch mode = false := fun hget =>
          Bool.eq_false_iff.mpr fun hs => hgo ⟨_, hget, hs⟩
        rcases @walkWith_stuck h d follow onLink b part rest with hok | hbad | hbad
        · exact absurd hok hgo
        · exact hbad ▸ .stuck IoKind.noConfusion hno
        · exact hbad ▸ .stuck IoKind.noConfusion hno

theorem Straight.reached {rest : List Str} {b : Loc} {r : Except IoKind Place} {place : Place}
    (hw : Straight h d b rest r) (hr : r = .ok place) : Reached d b rest place := by
  induction hw with
  | done b =>
      cases hr
      exact ⟨by simp [Place.loc, names], fun _ => .inl rfl, fun he => by cases he⟩
  | stuck => cases hr
  | missing => cases hr
  | skip hdir hname hrest ih =>
      have ih := ih hr
      refine ⟨by rw [ih.loc, names_cons_skip hname], fun he => .inr ?_, fun he => ?_⟩
      · rcases ih.dir he with rfl | hl
        · cases hrest
          cases hr
          cases he
          exact hdir
        · exact hl
      · refine ⟨(ih.entry he).1, fun hslash => ?_⟩
        obtain ⟨init, hrest, hp, hn⟩ := (ih.entry he).2 hslash
        exact ⟨_ :: init, by rw [hrest]; rfl, by rw [hp, names_cons_skip hname], hn⟩
  | @last b part rest hdir hname hall =>
      cases hr
      refine ⟨?_, fun he => (by cases he), fun he => ?_⟩
      · rw [names_cons_name hname, names_of_all_empty hall]
        rfl
      · cases he
        refine ⟨hdir, fun hslash => ⟨[], ?_, by simp [names], hname⟩⟩
        have hr : rest = [] := by simpa using hslash
        rw [hr]
        rfl
  | step hname hall _ _ ih =>
      have ih := ih hr
      refine ⟨by rw [ih.loc, names_cons_name hname]; simp, fun he => .inr ?_, fun he => ?_⟩
      · rcases ih.dir he with hnil | hl
        · exact absurd (by rw [hnil]; rfl) hall
        · exact hl
      · refine ⟨(ih.entry he).1, fun hslash => ?_⟩
        obtain ⟨init, hrest, hp, hn⟩ := (ih.entry he).2 hslash
        exact ⟨_ :: init, by rw [hrest]; rfl, by rw [hp, names_cons_name hname]; simp, hn⟩

theorem Straight.get_none {rest : List Str} {b : Loc} {r : Except IoKind Place}
    (hw : Straight h d b rest r) (hr : r = .error .notFound) : d.get (b ++ names rest) = none := by
  induction hw with
  | done => cases hr
  | stuck hkind => exact absurd (Except.error.inj hr) hkind
  | skip _ hname _ ih => rw [names_cons_skip hname]; exact ih hr
  | last => cases hr
  | missing hname hnone =>
      rw [names_cons_name hname, ← List.singleton_append, ← List.append_assoc]
      exact Disk.get_append_of_none hnone _
  | step hname _ _ _ ih =>
      rw [names_cons_name hname, ← List.singleton_append, ← List.append_assoc]
      exact ih hr

variable {path : PathBuf}

theorem Direct.straight (hd : Direct d path) (hlast : follow = .always → ¬ d.IsLink (names path)) :
    Straight h d [] path (resolve h d follow path) :=
  straight_walkWith hd.noDotDot (fun hi hne => by simpa using hd.noLink hi hne) (by simpa using hlast)

theorem reached_of_resolve {place : Place} (hd : Direct d path)
    (hlast : follow = .always → ¬ d.IsLink (names path)) (hr : resolve h d follow path = .ok place) :
    Reached d [] path place :=
  (hd.straight hlast).reached hr

theorem get_none_of_resolve (hd : Direct d path)
    (hlast : follow = .always → ¬ d.IsLink (names path))
    (hr : resolve h d follow path = .error .notFound) : d.get (names path) = none :=
  (hd.straight hlast).get_none hr

end Direct

/-! ## Passable paths

A walk along names succeeds when every directory on the way may be searched, and
fails with `notFound` when one is missing. -/

/-- Every part is the name of something. -/
def Named (loc : Loc) : Prop := ∀ part ∈ loc, isName part = true ∧ part ≠ ['.', '.']

theorem Named.names {loc : Loc} (hn : Named loc) : names loc = loc :=
  List.filter_eq_self.mpr fun part hp => (hn part hp).1

section Passable

variable {h : Host} {d : Disk} {follow : Follow} {onLink : Loc → List Str → Except IoKind Place}

theorem walkWith_of_passable : ∀ {mid : List Str} {name : Str} {b : Loc}, Named (mid ++ [name]) →
    d.IsDir b →
    (∀ {init}, init <+: mid → d.get (b ++ init) = none
      ∨ ∃ mode, d.get (b ++ init) = some (.dir mode) ∧ h.canSearch mode = true) →
    (follow = .always → ¬ d.IsLink (b ++ mid ++ [name])) →
    walkWith h d follow onLink b (mid ++ [name]) =
      if d.IsDir (b ++ mid) then .ok (.entry (b ++ mid) name false) else .error .notFound
  | [], name, b, hn, hb, hpass, hlast => by
      obtain ⟨hname, hdd⟩ := hn name (by simp)
      have hhere := @hpass [] (List.nil_prefix)
      simp only [List.append_nil] at hhere hlast ⊢
      rcases hhere with hnone | ⟨mode, hget, hs⟩
      · obtain ⟨mode, hget⟩ := hb
        rw [hnone] at hget
        cases hget
      · rw [List.nil_append, walkWith_cons hget hs hname hdd (fun hne => absurd rfl hne) hlast,
          if_pos hb]
        simp
  | x :: mid, name, b, hn, hb, hpass, hlast => by
      obtain ⟨hname, hdd⟩ := hn x (by simp)
      have hrest : mid ++ [name] ≠ [] := by simp
      have hchild := @hpass [x] (by simp)
      have hnot : ¬ d.IsLink (b ++ [x]) := by
        rintro ⟨target, ht⟩
        rcases hchild with hnone | ⟨mode, hget, -⟩
        · rw [ht] at hnone; cases hnone
        · rw [ht] at hget; cases hget
      have hnonempty : ¬ ((mid ++ [name]).all fun p => p = []) = true := by
        have := (hn name (by simp)).1
        simp only [isName] at this
        simp only [List.all_append, List.all_cons, List.all_nil]
        simp_all
      have hstart := @hpass [] (List.nil_prefix)
      simp only [List.append_nil] at hstart
      rcases hstart with hnone | ⟨mode, hget, hs⟩
      · obtain ⟨mode, hget⟩ := hb
        rw [hnone] at hget
        cases hget
      · rw [List.cons_append, walkWith_cons hget hs hname hdd (fun _ => hnot) (fun _ => hnot),
          if_neg hnonempty]
        have hassoc : b ++ x :: mid = (b ++ [x]) ++ mid := by simp
        rcases hchild with hnone | ⟨mode', hget', hs'⟩
        · rw [if_pos hnone, hassoc, if_neg]
          rintro ⟨m, hm⟩
          rw [Disk.get_append_of_none hnone] at hm
          cases hm
        · rw [if_neg (by rw [hget']; simp), hassoc]
          refine walkWith_of_passable (fun part hp => hn part ?_) ⟨mode', hget'⟩ (fun {init} hi => ?_)
            (by simpa using hlast)
          · exact List.mem_cons_of_mem _ hp
          · have := @hpass (x :: init) ((List.prefix_cons_inj x).mpr hi)
            simpa using this

end Passable

/-- Nothing on the way to the last part is an obstacle, and no call fails by itself. -/
structure Smooth (h : Host) (d : Disk) (path : PathBuf) : Prop where
  noFault : ∀ n, h.fault n = false
  named : Named path
  passable : ∀ {init}, init <+: path → init ≠ path → d.get init = none
    ∨ ∃ mode, d.get init = some (.dir mode) ∧ h.canSearch mode = true

theorem Smooth.resolve {h : Host} {d : Disk} {follow : Follow} {parent : Loc} {name : Str}
    (hs : Smooth h d (parent ++ [name])) (hlast : follow = .always → ¬ d.IsLink (parent ++ [name])) :
    resolve h d follow (parent ++ [name]) =
      if d.IsDir parent then .ok (.entry parent name false) else .error .notFound := by
  have := @walkWith_of_passable h d follow (walk h d follow 39) parent name []
    hs.named d.isDir_nil
    (fun hi => hs.passable (hi.trans (List.prefix_append _ _)) fun he => by
      have hle := hi.length_le
      have hlen := congrArg List.length he
      simp only [List.nil_append, List.length_append, List.length_singleton] at hlen
      omega)
    (by simpa using hlast)
  simp only [List.nil_append] at this
  exact this

theorem Smooth.direct {h : Host} {d : Disk} {path : PathBuf} (hs : Smooth h d path) :
    Direct d path where
  noDotDot := fun hm => (hs.named _ hm).2 rfl
  noLink := by
    rintro init hi hne ⟨target, ht⟩
    rw [Named.names fun part hp => hs.named part (hi.subset hp)] at ht
    rcases hs.passable hi hne with hnone | ⟨mode, hget, -⟩
    · rw [ht] at hnone; cases hnone
    · rw [ht] at hget; cases hget

end Unix

/-
# `Unix.Route` — where a path leads, made or not

`resolve` answers for what exists.  `Route` is the same walk for a path of which some is
still to be made: a name that is missing stands for the directory it will be, links are
followed where they are met, and `..` leaves the directory the walk is in — not the one
the path spells.  The walk knows how many links it may still follow, so that it can be
cut in two (`Route.append`, `Route.split`).

Where `resolve` finds something, `Route` goes to the same place (`route_of_walk`).  The
converse needs the walk itself to be cut: `walk_front` and `walk_append` do that for
`resolve`.
-/
import Syncbox.Lib.Unix.Files

namespace Unix

open Rust

section Route

variable (h : Host) (d : Disk)

/-- A walk may take a part from here: from a directory it may search, or from one that is
not there yet.  An empty part asks for a directory only. -/
def Passes (cur : Loc) (part : Str) : Prop :=
  d.get cur = none ∨ ∃ mode, d.get cur = some (.dir mode) ∧ (part = [] ∨ h.canSearch mode = true)

/-- From `cur`, with `links` links to spare, the parts lead to `loc`; `left` links are
left then. -/
inductive Route : Nat → Loc → List Str → Nat → Loc → Prop
  | done {links cur} : Route links cur [] links cur
  | skip {links cur part rest left loc} : Passes h d cur part → isName part = false →
      Route links cur rest left loc → Route links cur (part :: rest) left loc
  | up {links cur rest left loc} : Passes h d cur ['.', '.'] →
      Route links cur.dropLast rest left loc → Route links cur (['.', '.'] :: rest) left loc
  | link {links cur part rest target left loc} : Passes h d cur part → isName part = true →
      part ≠ ['.', '.'] → d.get (cur ++ [part]) = some (.symlink target) →
      Route links (if target.head? = some '/' then [] else cur) (split target ++ rest) left loc →
      Route (links + 1) cur (part :: rest) left loc
  | name {links cur part rest left loc} : Passes h d cur part → isName part = true →
      part ≠ ['.', '.'] → ¬ d.IsLink (cur ++ [part]) →
      Route links (cur ++ [part]) rest left loc → Route links cur (part :: rest) left loc

/-- The location a path leads to. -/
def LeadsTo (path : PathBuf) (loc : Loc) : Prop := ∃ left, Route h d 40 [] path left loc

/-- Something is there, as `lstat` or `stat` look. -/
def Found (follow : Follow) (path : PathBuf) : Prop := ∃ node, Leads h d follow path node

/-- A link to nothing. -/
def Dangling (path : PathBuf) : Prop := Found h d .slash path ∧ ¬ Found h d .always path

/-- No part of a location is a link, and a walk may pass all but the last. -/
structure Clear (loc : Loc) : Prop where
  noLink : ∀ {init}, init <+: loc → ¬ d.IsLink init
  passes : ∀ {init part}, init ++ [part] <+: loc → Passes h d init part

end Route

section Cut

variable {h : Host} {d : Disk} {links left : Nat} {cur loc : Loc} {parts : List Str}

theorem isName_dotDot : isName ['.', '.'] = true := by decide

theorem Route.unique {left' : Nat} {loc' : Loc} (hl : Route h d links cur parts left loc)
    (hl' : Route h d links cur parts left' loc') : left = left' ∧ loc = loc' := by
  induction hl with
  | done => cases hl'; exact ⟨rfl, rfl⟩
  | skip _ hn _ ih =>
      cases hl' with
      | skip _ _ hr => exact ih hr
      | up _ hr => rw [isName_dotDot] at hn; cases hn
      | link _ hn' => rw [hn'] at hn; cases hn
      | name _ hn' => rw [hn'] at hn; cases hn
  | up _ _ ih =>
      cases hl' with
      | skip _ hn => rw [isName_dotDot] at hn; cases hn
      | up _ hr => exact ih hr
      | link _ _ hne => exact absurd rfl hne
      | name _ _ hne => exact absurd rfl hne
  | link _ hn hne hget _ ih =>
      cases hl' with
      | skip _ hn' => rw [hn'] at hn; cases hn
      | up _ hr => exact absurd rfl hne
      | link _ _ _ hget' hr =>
          rw [hget] at hget'
          cases hget'
          exact ih hr
      | name _ _ _ hnot => exact absurd ⟨_, hget⟩ hnot
  | name _ hn hne hnot _ ih =>
      cases hl' with
      | skip _ hn' => rw [hn'] at hn; cases hn
      | up _ hr => exact absurd rfl hne
      | link _ _ _ hget' => exact absurd ⟨_, hget'⟩ hnot
      | name _ _ _ _ hr => exact ih hr

theorem LeadsTo.unique {path : PathBuf} {loc' : Loc} (hl : LeadsTo h d path loc)
    (hl' : LeadsTo h d path loc') : loc = loc' := by
  obtain ⟨_, hl⟩ := hl
  obtain ⟨_, hl'⟩ := hl'
  exact (hl.unique hl').2

theorem Route.append {mid : Loc} {between : Nat} {rest : List Str}
    (hl : Route h d links cur parts between mid) (hr : Route h d between mid rest left loc) :
    Route h d links cur (parts ++ rest) left loc := by
  induction hl with
  | done => exact hr
  | skip hp hn _ ih => exact .skip hp hn (ih hr)
  | up hp _ ih => exact .up hp (ih hr)
  | link hp hn hne hget _ ih =>
      have := ih hr
      rw [List.append_assoc] at this
      exact .link hp hn hne hget this
  | name hp hn hne hnot _ ih => exact .name hp hn hne hnot (ih hr)

theorem Route.split {a b : List Str} (hl : Route h d links cur (a ++ b) left loc) :
    ∃ between mid, Route h d links cur a between mid ∧ Route h d between mid b left loc := by
  generalize hab : a ++ b = ab at hl
  induction hl generalizing a with
  | done =>
      obtain ⟨rfl, rfl⟩ := List.append_eq_nil_iff.mp hab
      exact ⟨_, _, .done, .done⟩
  | @skip links cur part rest left loc hp hn hr ih =>
      rcases List.append_eq_cons_iff.mp hab with ⟨rfl, rfl⟩ | ⟨a, rfl, rfl⟩
      · exact ⟨_, _, .done, .skip hp hn hr⟩
      · obtain ⟨between, mid, h₁, h₂⟩ := ih rfl
        exact ⟨between, mid, .skip hp hn h₁, h₂⟩
  | @up links cur rest left loc hp hr ih =>
      rcases List.append_eq_cons_iff.mp hab with ⟨rfl, rfl⟩ | ⟨a, rfl, rfl⟩
      · exact ⟨_, _, .done, .up hp hr⟩
      · obtain ⟨between, mid, h₁, h₂⟩ := ih rfl
        exact ⟨between, mid, .up hp h₁, h₂⟩
  | @link links cur part rest target left loc hp hn hne hget hr ih =>
      rcases List.append_eq_cons_iff.mp hab with ⟨rfl, rfl⟩ | ⟨a, rfl, rfl⟩
      · exact ⟨_, _, .done, .link hp hn hne hget hr⟩
      · obtain ⟨between, mid, h₁, h₂⟩ := ih (List.append_assoc ..)
        exact ⟨between, mid, .link hp hn hne hget h₁, h₂⟩
  | @name links cur part rest left loc hp hn hne hnot hr ih =>
      rcases List.append_eq_cons_iff.mp hab with ⟨rfl, rfl⟩ | ⟨a, rfl, rfl⟩
      · exact ⟨_, _, .done, .name hp hn hne hnot hr⟩
      · obtain ⟨between, mid, h₁, h₂⟩ := ih rfl
        exact ⟨between, mid, .name hp hn hne hnot h₁, h₂⟩

theorem Route.names (hl : Route h d links cur parts left loc) :
    Route h d links cur (names parts) left loc := by
  induction parts generalizing links cur with
  | nil => exact hl
  | cons part rest ih =>
      cases hl with
      | skip hp hn hr =>
          rw [names_cons_skip hn]
          exact ih hr
      | up hp hr =>
          rw [names_cons_name isName_dotDot]
          exact .up hp (ih hr)
      | link hp hn hne hget hr =>
          obtain ⟨between, mid, h₁, h₂⟩ := hr.split
          rw [names_cons_name hn]
          exact .link hp hn hne hget (h₁.append (ih h₂))
      | name hp hn hne hnot hr =>
          rw [names_cons_name hn]
          exact .name hp hn hne hnot (ih hr)

/-! ## Clear locations -/

theorem clear_nil : Clear h d [] where
  noLink := by
    intro init hi
    rw [List.prefix_nil.mp hi]
    rintro ⟨target, ht⟩
    obtain ⟨mode, hm⟩ := d.isDir_nil
    rw [ht] at hm
    cases hm
  passes := by
    intro init part hi
    cases List.append_eq_nil_iff.mp (List.prefix_nil.mp hi) |>.2

theorem Clear.of_prefix {above : Loc} (hc : Clear h d loc) (hp : above <+: loc) : Clear h d above where
  noLink hi := hc.noLink (hi.trans hp)
  passes hi := hc.passes (hi.trans hp)

theorem Clear.snoc {part : Str} (hc : Clear h d loc) (hp : Passes h d loc part)
    (hnot : ¬ d.IsLink (loc ++ [part])) : Clear h d (loc ++ [part]) where
  noLink := by
    intro init hi
    rcases List.prefix_concat_iff.mp hi with rfl | hi
    · exact hnot
    · exact hc.noLink hi
  passes := by
    intro init part' hi
    rcases List.prefix_concat_iff.mp hi with heq | hi
    · obtain ⟨rfl, heq'⟩ := List.append_inj' heq rfl
      cases heq'
      exact hp
    · exact hc.passes hi

theorem Route.clear (hl : Route h d links cur parts left loc) (hc : Clear h d cur) :
    Clear h d loc := by
  induction hl with
  | done => exact hc
  | skip _ _ _ ih => exact ih hc
  | up _ _ ih => exact ih (hc.of_prefix (List.dropLast_prefix _))
  | link _ _ _ _ _ ih =>
      apply ih
      split
      · exact clear_nil
      · exact hc
  | name hp _ _ hnot _ ih => exact ih (hc.snoc hp hnot)

theorem LeadsTo.clear {path : PathBuf} (hl : LeadsTo h d path loc) : Clear h d loc := by
  obtain ⟨_, hl⟩ := hl
  exact hl.clear clear_nil

theorem Clear.route {tail : List Str} (hn : Named tail) (hc : Clear h d (cur ++ tail)) :
    Route h d links cur tail links (cur ++ tail) := by
  induction tail generalizing cur with
  | nil =>
      rw [List.append_nil]
      exact .done
  | cons part tail ih =>
      have hassoc : cur ++ part :: tail = (cur ++ [part]) ++ tail := by simp
      obtain ⟨hname, hdd⟩ := hn part List.mem_cons_self
      rw [hassoc] at hc ⊢
      have hhere : cur ++ [part] <+: (cur ++ [part]) ++ tail := List.prefix_append ..
      exact .name (hc.passes hhere) hname hdd (hc.noLink hhere)
        (ih (fun p hp => hn p (List.mem_cons_of_mem _ hp)) hc)

theorem Clear.of_none {tail : List Str} (hc : Clear h d loc) (hnone : d.get loc = none) :
    Clear h d (loc ++ tail) := by
  induction tail using List.reverseRecOn with
  | nil => rwa [List.append_nil]
  | append_singleton tail part ih =>
      rw [← List.append_assoc]
      refine ih.snoc (.inl (Disk.get_append_of_none hnone tail)) ?_
      rintro ⟨target, ht⟩
      rw [List.append_assoc, Disk.get_append_of_none hnone] at ht
      cases ht

end Cut

/-! ## Cutting `walk` -/

section Walk

variable {h : Host} {d : Disk}

theorem walkWith_here {follow : Follow} {onLink : Loc → List Str → Except IoKind Place} {cur : Loc}
    {part : Str} {rest : List Str} {place : Place}
    (hw : walkWith h d follow onLink cur (part :: rest) = .ok place) :
    ∃ mode, d.get cur = some (.dir mode) ∧ h.canSearch mode = true := by
  rcases @walkWith_stuck h d follow onLink cur part rest with hhere | hbad | hbad
  · exact hhere
  · rw [hbad] at hw; cases hw
  · rw [hbad] at hw; cases hw

theorem walkWith_up {follow : Follow} {onLink : Loc → List Str → Except IoKind Place} {cur : Loc}
    {rest : List Str} {mode : Mode} (hget : d.get cur = some (.dir mode))
    (hs : h.canSearch mode = true) :
    walkWith h d follow onLink cur (['.', '.'] :: rest)
      = walkWith h d follow onLink cur.dropLast rest := by
  rw [walkWith, hget]
  simp [hs, isName_dotDot]

theorem walkWith_link {follow : Follow} {onLink : Loc → List Str → Except IoKind Place} {cur : Loc}
    {part target : Str} {rest : List Str} {mode : Mode} (hget : d.get cur = some (.dir mode))
    (hs : h.canSearch mode = true) (hname : isName part = true) (hdd : part ≠ ['.', '.'])
    (ht : d.get (cur ++ [part]) = some (.symlink target))
    (hgo : follow = .always ∨ (rest.all fun p => p = []) = false) :
    walkWith h d follow onLink cur (part :: rest)
      = onLink (if target.head? = some '/' then [] else cur) (split target ++ rest) := by
  rw [walkWith, hget]
  simp only [hs, hname, hdd, if_false, Bool.true_eq_false, ht]
  rcases hgo with rfl | hall
  · rw [if_neg]
    rintro ⟨-, hst⟩
    cases hst
  · rw [if_neg]
    rintro ⟨hst, -⟩
    rw [hall] at hst
    cases hst

theorem route_empties {links : Nat} {cur : Loc} {rest : List Str}
    (hall : (rest.all fun p => p = []) = true) (hdir : rest ≠ [] → d.IsDir cur) :
    Route h d links cur rest links cur := by
  induction rest with
  | nil => exact .done
  | cons part rest ih =>
      simp only [List.all_cons, Bool.and_eq_true, decide_eq_true_eq] at hall
      obtain ⟨rfl, hall⟩ := hall
      obtain ⟨mode, hm⟩ := hdir (by simp)
      exact .skip (.inr ⟨mode, hm, .inl rfl⟩) (by decide) (ih hall fun _ => ⟨mode, hm⟩)

theorem isDir_of_nodeAt_slash {parent : Loc} {name : Str} {node : Node}
    (hn : d.nodeAt (.entry parent name true) = .ok node) : d.IsDir (parent ++ [name]) := by
  unfold Disk.nodeAt at hn
  rcases hget : d.get (parent ++ [name]) with _ | (_ | m | _ | _)
  case some.dir => exact ⟨m, hget⟩
  all_goals
    simp only [Place.loc, hget, Node.isDir] at hn
    cases hn

/-- What a walk finds is where the path leads. -/
theorem route_of_walkWith {links : Nat} {onLink : Loc → List Str → Except IoKind Place}
    {place : Place} {node : Node} (hnode : d.nodeAt place = .ok node)
    (hlink : ∀ {cur rest}, onLink cur rest = .ok place →
      ∃ fewer left, links = fewer + 1 ∧ Route h d fewer cur rest left place.loc) :
    ∀ {parts : List Str} {cur : Loc}, walkWith h d .always onLink cur parts = .ok place →
      ∃ left, Route h d links cur parts left place.loc := by
  intro parts
  induction parts with
  | nil =>
      intro cur hw
      cases hw
      exact ⟨links, .done⟩
  | cons part rest ih =>
      intro cur hw
      obtain ⟨mode, hget, hs⟩ := walkWith_here hw
      have hp : ∀ p, Passes h d cur p := fun p => .inr ⟨mode, hget, .inr hs⟩
      cases hname : isName part with
      | false =>
          rw [walkWith_skip hget hs hname] at hw
          obtain ⟨left, hl⟩ := ih hw
          exact ⟨left, .skip (hp _) hname hl⟩
      | true =>
          by_cases hdd : part = ['.', '.']
          · subst hdd
            rw [walkWith_up hget hs] at hw
            obtain ⟨left, hl⟩ := ih hw
            exact ⟨left, .up (hp _) hl⟩
          · by_cases hl : d.IsLink (cur ++ [part])
            · obtain ⟨target, ht⟩ := hl
              rw [walkWith_link hget hs hname hdd ht (.inl rfl)] at hw
              obtain ⟨fewer, left, rfl, hl⟩ := hlink hw
              exact ⟨left, .link (hp _) hname hdd ht hl⟩
            · rw [walkWith_cons hget hs hname hdd (fun _ => hl) (fun _ => hl)] at hw
              split at hw
              · rename_i hall
                cases hw
                refine ⟨links, .name (hp _) hname hdd hl (route_empties hall fun hne => ?_)⟩
                rw [decide_eq_true hne] at hnode
                exact isDir_of_nodeAt_slash hnode
              · split at hw
                · cases hw
                · obtain ⟨left, hl'⟩ := ih hw
                  exact ⟨left, .name (hp _) hname hdd hl hl'⟩

theorem route_of_walk {place : Place} {node : Node} (hnode : d.nodeAt place = .ok node) :
    ∀ {links : Nat} {cur : Loc} {parts : List Str},
      walk h d .always links cur parts = .ok place →
      ∃ left, Route h d links cur parts left place.loc := by
  intro links
  induction links with
  | zero =>
      intro cur parts hw
      exact route_of_walkWith hnode (fun hl => by cases hl) hw
  | succ links ih =>
      intro cur parts hw
      refine route_of_walkWith hnode (fun hl => ?_) hw
      obtain ⟨left, hl⟩ := ih hl
      exact ⟨links, left, rfl, hl⟩

/-- Not only slashes. -/
def HasName (parts : List Str) : Prop := (parts.all fun p => p = []) = false

theorem HasName.append {a b : List Str} (hb : HasName b) : HasName (a ++ b) := by
  show ((a ++ b).all fun p => p = []) = false
  rw [List.all_append, hb, Bool.and_false]

theorem HasName.ne_nil {b : List Str} (hb : HasName b) : b ≠ [] := by
  rintro rfl
  cases hb

theorem HasName.not_all {b : List Str} (hb : HasName b) : ¬ (b.all fun p => p = []) = true := by
  rw [hb]
  exact Bool.false_ne_true

theorem isDir_of_walkWith {follow : Follow} {onLink : Loc → List Str → Except IoKind Place}
    {cur : Loc} {parts : List Str} {place : Place} (hne : parts ≠ [])
    (hw : walkWith h d follow onLink cur parts = .ok place) : d.IsDir cur := by
  obtain ⟨part, rest, rfl⟩ := List.exists_cons_of_ne_nil hne
  obtain ⟨mode, hget, -⟩ := walkWith_here hw
  exact ⟨mode, hget⟩

/-- The walk of an initial part of the way, when there is a way on. -/
theorem walkWith_front {follow : Follow} {onLink onFront : Loc → List Str → Except IoKind Place}
    {b : List Str} (hb : HasName b) {r : Place}
    (hlink : ∀ {cur rest}, onLink cur (rest ++ b) = .ok r →
      ∃ place, onFront cur rest = .ok place ∧ d.IsDir place.loc) :
    ∀ {a : List Str} {cur : Loc}, walkWith h d follow onLink cur (a ++ b) = .ok r →
      ∃ place, walkWith h d .always onFront cur a = .ok place ∧ d.IsDir place.loc := by
  intro a
  induction a with
  | nil =>
      intro cur hw
      exact ⟨.dir cur, rfl, isDir_of_walkWith hb.ne_nil hw⟩
  | cons part rest ih =>
      intro cur hw
      rw [List.cons_append] at hw
      obtain ⟨mode, hget, hs⟩ := walkWith_here hw
      cases hname : isName part with
      | false =>
          rw [walkWith_skip hget hs hname] at hw ⊢
          exact ih hw
      | true =>
          by_cases hdd : part = ['.', '.']
          · subst hdd
            rw [walkWith_up hget hs] at hw ⊢
            exact ih hw
          · by_cases hl : d.IsLink (cur ++ [part])
            · obtain ⟨target, ht⟩ := hl
              rw [walkWith_link hget hs hname hdd ht (.inr hb.append), ← List.append_assoc] at hw
              rw [walkWith_link hget hs hname hdd ht (.inl rfl)]
              exact hlink hw
            · rw [walkWith_cons hget hs hname hdd (fun _ => hl) (fun _ => hl),
                if_neg hb.append.not_all] at hw
              rw [walkWith_cons hget hs hname hdd (fun _ => hl) (fun _ => hl)]
              split at hw
              · cases hw
              · rename_i hsome
                split
                · exact ⟨_, rfl, isDir_of_walkWith hb.append.ne_nil hw⟩
                · exact ih hw

theorem walk_front {follow : Follow} {b : List Str} (hb : HasName b) {r : Place} :
    ∀ {links : Nat} {cur : Loc} {a : List Str}, walk h d follow links cur (a ++ b) = .ok r →
      ∃ place, walk h d .always links cur a = .ok place ∧ d.IsDir place.loc := by
  intro links
  induction links with
  | zero =>
      intro cur a hw
      exact walkWith_front hb (fun hl => by cases hl) hw
  | succ links ih =>
      intro cur a hw
      exact walkWith_front hb ih hw

theorem walkWith_empties {follow : Follow} {onLink : Loc → List Str → Except IoKind Place}
    {b : List Str} (hb : b ≠ []) {cur : Loc} : ∀ {a : List Str}, (a.all fun p => p = []) = true →
      walkWith h d follow onLink cur (a ++ b) = walkWith h d follow onLink cur b
  | [], _ => rfl
  | part :: a, hall => by
      simp only [List.all_cons, Bool.and_eq_true, decide_eq_true_eq] at hall
      obtain ⟨rfl, hall⟩ := hall
      rw [← walkWith_empties hb hall]
      obtain ⟨p, tail, htail⟩ := List.exists_cons_of_ne_nil
        (List.append_ne_nil_of_right_ne_nil a hb)
      rw [List.cons_append, htail]
      rcases hget : d.get cur with _ | (_ | mode | _ | _)
      case some.dir =>
        cases hs : h.canSearch mode with
        | false => simp [walkWith, hget, hs]
        | true => rw [walkWith_skip hget hs (by decide)]
      all_goals simp [walkWith, hget]

/-- The walk goes on from what its initial part finds, or the first link takes it over. -/
theorem walkWith_append {follow : Follow} {onLink onFront : Loc → List Str → Except IoKind Place}
    {place : Place} {node : Node} (hnode : d.nodeAt place = .ok node) :
    ∀ {a : List Str} {cur : Loc}, walkWith h d .always onFront cur a = .ok place →
      (∀ {b}, HasName b →
        walkWith h d follow onLink cur (a ++ b) = walkWith h d follow onLink place.loc b)
      ∨ ∃ start rest, onFront start rest = .ok place ∧ ∀ {b}, HasName b →
        walkWith h d follow onLink cur (a ++ b) = onLink start (rest ++ b) := by
  intro a
  induction a with
  | nil =>
      intro cur hw
      cases hw
      exact .inl fun _ => rfl
  | cons part rest ih =>
      intro cur hw
      obtain ⟨mode, hget, hs⟩ := walkWith_here hw
      simp only [List.cons_append]
      cases hname : isName part with
      | false =>
          rw [walkWith_skip hget hs hname] at hw
          simp only [walkWith_skip hget hs hname]
          exact ih hw
      | true =>
          by_cases hdd : part = ['.', '.']
          · subst hdd
            rw [walkWith_up hget hs] at hw
            simp only [walkWith_up hget hs]
            exact ih hw
          · by_cases hl : d.IsLink (cur ++ [part])
            · obtain ⟨target, ht⟩ := hl
              rw [walkWith_link hget hs hname hdd ht (.inl rfl)] at hw
              refine .inr ⟨_, _, hw, fun hb => ?_⟩
              rw [walkWith_link hget hs hname hdd ht (.inr hb.append), List.append_assoc]
            · rw [walkWith_cons hget hs hname hdd (fun _ => hl) (fun _ => hl)] at hw
              have hstep : d.get (cur ++ [part]) ≠ none → ∀ {b}, HasName b →
                  walkWith h d follow onLink cur (part :: (rest ++ b))
                    = walkWith h d follow onLink (cur ++ [part]) (rest ++ b) := fun hsome b hb => by
                rw [walkWith_cons hget hs hname hdd (fun _ => hl) (fun _ => hl),
                  if_neg hb.append.not_all, if_neg hsome]
              split at hw
              · rename_i hall
                cases hw
                have hsome := nodeAt_ok hnode
                refine .inl fun hb => ?_
                rw [hstep (by rw [Place.loc] at hsome; rw [hsome]; simp) hb,
                  walkWith_empties hb.ne_nil hall]
                rfl
              · split at hw
                · cases hw
                · rename_i hsome
                  rcases ih hw with hgo | ⟨start, rest', hfront, hgo⟩
                  · exact .inl fun hb => (hstep hsome hb).trans (hgo hb)
                  · exact .inr ⟨start, rest', hfront, fun hb => (hstep hsome hb).trans (hgo hb)⟩

theorem walk_append {follow : Follow} {place : Place} {node : Node}
    (hnode : d.nodeAt place = .ok node) :
    ∀ {links : Nat} {cur : Loc} {a : List Str}, walk h d .always links cur a = .ok place →
      ∃ left, ∀ {b}, HasName b →
        walk h d follow links cur (a ++ b) = walk h d follow left place.loc b := by
  intro links
  induction links with
  | zero =>
      intro cur a hw
      rcases @walkWith_append h d follow (fun _ _ => .error .filesystemLoop) _ _ _ hnode _ _ hw with hgo | ⟨_, _, hl, -⟩
      · exact ⟨0, hgo⟩
      · cases hl
  | succ links ih =>
      intro cur a hw
      rcases walkWith_append hnode hw with hgo | ⟨start, rest, hl, hgo⟩
      · exact ⟨links + 1, hgo⟩
      · obtain ⟨left, hleft⟩ := ih hl
        exact ⟨left, fun hb => (hgo hb).trans (hleft hb)⟩

end Walk

/-! ## What is found -/

section Found

variable {h : Host} {d : Disk} {path : PathBuf}

theorem Named.hasName {parts : List Str} (hn : Named parts) (hne : parts ≠ []) : HasName parts := by
  obtain ⟨part, rest, rfl⟩ := List.exists_cons_of_ne_nil hne
  obtain ⟨hname, -⟩ := hn part List.mem_cons_self
  show ((part :: rest).all fun p => p = []) = false
  have hpart : part ≠ [] := by
    rintro rfl
    cases hname
  simp [hpart]

theorem nodeAt_of_isDir {place : Place} (hd : d.IsDir place.loc) : ∃ node, d.nodeAt place = .ok node := by
  obtain ⟨mode, hm⟩ := hd
  refine ⟨.dir mode, ?_⟩
  unfold Disk.nodeAt
  rw [hm]
  rcases place with _ | ⟨_, _, _ | _⟩ <;> rfl

theorem found_nil : Found h d .always [] := by
  obtain ⟨node, hn⟩ := @nodeAt_of_isDir d (.dir []) d.isDir_nil
  exact ⟨node, .dir [], rfl, hn⟩

theorem Found.front {follow : Follow} {a b : List Str} (hb : HasName b)
    (hf : Found h d follow (a ++ b)) : Found h d .always a := by
  obtain ⟨node, place, hr, -⟩ := hf
  obtain ⟨above, ha, hdir⟩ := walk_front hb hr
  obtain ⟨node', hn⟩ := nodeAt_of_isDir hdir
  exact ⟨node', above, ha, hn⟩

theorem resolve_snoc {follow : Follow} {a : PathBuf} {part : Str} {place : Place} {node : Node}
    (hr : resolve h d .always a = .ok place) (hnode : d.nodeAt place = .ok node)
    (hname : isName part = true) (hdd : part ≠ ['.', '.']) (hp : Passes h d place.loc part)
    (hlast : follow = .always → ¬ d.IsLink (place.loc ++ [part])) :
    resolve h d follow (a ++ [part]) = .ok (.entry place.loc part false) := by
  have hb : HasName [part] :=
    Named.hasName (fun p hp => by rw [List.mem_singleton.mp hp]; exact ⟨hname, hdd⟩) (by simp)
  obtain ⟨left, hleft⟩ := @walk_append h d follow place node hnode 40 [] a hr
  have hthere := nodeAt_ok hnode
  obtain ⟨mode, hget, hs⟩ : ∃ mode, d.get place.loc = some (.dir mode) ∧ h.canSearch mode = true := by
    rcases hp with hnone | ⟨mode, hget, hempty | hs⟩
    · rw [hthere] at hnone; cases hnone
    · subst hempty; cases hname
    · exact ⟨mode, hget, hs⟩
  show walk h d follow 40 [] (a ++ [part]) = _
  rw [hleft hb]
  cases left with
  | zero => exact walkWith_cons hget hs hname hdd (fun hne => absurd rfl hne) hlast
  | succ left => exact walkWith_cons hget hs hname hdd (fun hne => absurd rfl hne) hlast

/-- The node of a name, by `lstat` and, when it is not a link, by `stat`. -/
theorem found_snoc_iff {follow : Follow} {a : PathBuf} {part : Str} {place : Place} {node : Node}
    (hr : resolve h d .always a = .ok place) (hnode : d.nodeAt place = .ok node)
    (hname : isName part = true) (hdd : part ≠ ['.', '.']) (hp : Passes h d place.loc part)
    (hlast : follow = .always → ¬ d.IsLink (place.loc ++ [part])) :
    Found h d follow (a ++ [part]) ↔ d.get (place.loc ++ [part]) ≠ none := by
  have hres := resolve_snoc hr hnode hname hdd hp hlast
  constructor
  · rintro ⟨node', place', hr', hn'⟩
    rw [hres] at hr'
    cases hr'
    have := nodeAt_ok hn'
    rw [Place.loc] at this
    rw [this]
    simp
  · intro hsome
    obtain ⟨node', hn'⟩ := Option.ne_none_iff_exists'.mp hsome
    refine ⟨node', _, hres, ?_⟩
    unfold Disk.nodeAt
    rw [Place.loc, hn']

end Found

end Unix

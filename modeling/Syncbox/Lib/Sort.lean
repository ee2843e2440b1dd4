/-
# `Sorting` — stable sorting and search by halves

Lists of records under a key.  Two lists *have the same ties* when for every key they hold
the same records with that key in the same order.  That is all a stable sort keeps, and with
sortedness it is all there is: sorted lists with the same ties are equal
(`SameTies.eq_of_sorted`).  So whether a list is sorted after every insertion or once at the
end cannot be told from the result, whatever was in it before.  Nor does it matter that only
a fixed number of slots is kept while the records go by: what falls out of them would not
have been among the first (`foldl_seat`).

A search by halves of a list whose keys increase finds what a search from the front finds.
-/
import Mathlib

namespace Sorting

variable {α κ : Type} [LinearOrder κ]

/-! ## Search by halves -/

section Search

variable (key : α → κ) (l : List α) (value : κ)

/-- `slice::binary_search_by_key`, between two bounds. -/
def searchBetween (low high : Nat) : Option Nat :=
  if _ : low < high then
    let middle := low + (high - low) / 2
    match l[middle]? with
    | none => none
    | some a =>
        if key a = value then some middle
        else if key a < value then searchBetween (middle + 1) high
        else searchBetween low middle
  else none
termination_by high - low
decreasing_by all_goals omega

/-- `slice::binary_search_by_key`. -/
def binarySearch : Option Nat := searchBetween key l value 0 l.length

variable {key l value}

theorem getElem?_searchBetween {low high i : Nat} (hi : searchBetween key l value low high = some i) :
    ∃ a, l[i]? = some a ∧ key a = value := by
  fun_induction searchBetween key l value low high with
  | case1 | case5 => cases hi
  | case2 _ _ _ _ a ha hkey =>
      obtain rfl := Option.some.inj hi
      exact ⟨a, ha, hkey⟩
  | case3 _ _ _ _ _ _ _ _ ih | case4 _ _ _ _ _ _ _ _ ih => exact ih hi

theorem searchBetween_ne_none (hsorted : (l.map key).Pairwise (· ≤ ·)) {low high i : Nat} {a : α}
    (hend : high ≤ l.length) (hlow : low ≤ i) (hhigh : i < high) (ha : l[i]? = some a)
    (hkey : key a = value) : searchBetween key l value low high ≠ none := by
  have hle : ∀ {j k : Nat} {b c : α}, j ≤ k → l[j]? = some b → l[k]? = some c → key b ≤ key c := by
    intro j k b c hjk hb hc
    rcases hjk.eq_or_lt with rfl | hlt
    · rw [hb] at hc
      cases hc
      exact le_rfl
    · obtain ⟨hj, rfl⟩ := List.getElem?_eq_some_iff.mp hb
      obtain ⟨hk, rfl⟩ := List.getElem?_eq_some_iff.mp hc
      exact List.pairwise_iff_getElem.mp (List.pairwise_map.mp hsorted) j k hj hk hlt
  fun_induction searchBetween key l value low high with
  | case1 low high hlt middle hnone =>
      rw [List.getElem?_eq_none_iff] at hnone
      omega
  | case2 => exact Option.some_ne_none _
  | case3 low high hlt middle b hb hne hbelow ih =>
      refine ih hend ?_ hhigh
      by_contra hi
      have := hle (by omega : i ≤ middle) ha hb
      rw [hkey] at this
      exact absurd this (not_le.mpr hbelow)
  | case4 low high hlt middle b hb hne hnot ih =>
      refine ih (by omega) hlow ?_
      by_contra hi
      have := hle (by omega : middle ≤ i) hb ha
      rw [hkey] at this
      exact hnot (lt_of_le_of_ne this hne)
  | case5 low high hlt => omega

/-- With increasing keys both searches find the one record with the key. -/
theorem binarySearch_eq_findIdx? {p : α → Bool} (hp : ∀ a, p a = true ↔ key a = value)
    (hsorted : (l.map key).Pairwise (· < ·)) : binarySearch key l value = l.findIdx? p := by
  have hunique : ∀ {i j : Nat} {a b : α}, l[i]? = some a → l[j]? = some b → key a = key b → i = j := by
    intro i j a b ha hb heq
    have hi : (l.map key)[i]? = some (key a) := by rw [List.getElem?_map, ha]; rfl
    have hj : (l.map key)[j]? = some (key a) := by rw [List.getElem?_map, hb, heq]; rfl
    obtain ⟨hlt, -⟩ := List.getElem?_eq_some_iff.mp hi
    exact (List.getElem?_inj hlt (hsorted.imp ne_of_lt)).mp (hi.trans hj.symm)
  cases hfind : l.findIdx? p with
  | none =>
      rw [Option.eq_none_iff_forall_ne_some]
      intro i hi
      obtain ⟨a, ha, hkey⟩ := getElem?_searchBetween hi
      have hnot := List.findIdx?_eq_none_iff.mp hfind a (List.mem_of_getElem? ha)
      rw [(hp a).mpr hkey] at hnot
      cases hnot
  | some j =>
      obtain ⟨hj, hkey, -⟩ := List.findIdx?_eq_some_iff_getElem.mp hfind
      have hkey : key l[j] = value := (hp _).mp hkey
      have hget : l[j]? = some l[j] := List.getElem?_eq_getElem hj
      cases hsearch : binarySearch key l value with
      | none =>
          exact absurd hsearch
            (searchBetween_ne_none (hsorted.imp le_of_lt) le_rfl (Nat.zero_le _) hj hget hkey)
      | some i =>
          obtain ⟨a, ha, hkey'⟩ := getElem?_searchBetween hsearch
          rw [hunique ha hget (hkey'.trans hkey.symm)]

end Search

/-! ## The first record with a key -/

section First

variable (f : α → α)

/-- Changes the first element that satisfies a test. -/
def modifyFirst (p : α → Bool) : List α → List α
  | [] => []
  | a :: l => if p a then f a :: l else a :: modifyFirst p l

variable {f}

theorem modify_findIdx? {p : α → Bool} {l : List α} {i : Nat} (hi : l.findIdx? p = some i) :
    l.modify i f = modifyFirst f p l := by
  induction l generalizing i with
  | nil => cases hi
  | cons a l ih =>
      rw [List.findIdx?_cons] at hi
      unfold modifyFirst
      cases hp : p a with
      | true =>
          rw [hp] at hi
          cases hi
          rfl
      | false =>
          rw [hp] at hi
          obtain ⟨j, hj, rfl⟩ := Option.map_eq_some_iff.mp hi
          show a :: l.modify j f = a :: modifyFirst f p l
          rw [ih hj]

omit [LinearOrder κ] in
theorem map_modifyFirst {key : α → κ} (hf : ∀ a, key (f a) = key a) (p : α → Bool) (l : List α) :
    (modifyFirst f p l).map key = l.map key := by
  induction l with
  | nil => rfl
  | cons a l ih =>
      unfold modifyFirst
      split
      · rw [List.map_cons, List.map_cons, hf]
      · rw [List.map_cons, List.map_cons, ih]

end First

/-! ## Stable sorting -/

section Stable

variable (key : α → κ)

/-- `slice::sort_by` on the keys, which is stable. -/
def sortBy (l : List α) : List α := l.insertionSort fun a b => key a ≤ key b

/-- For every key the same records, in the same order. -/
def SameTies (l l' : List α) : Prop :=
  ∀ k, (l.filter fun a => key a = k) = l'.filter fun a => key a = k

def Sorted (l : List α) : Prop := (l.map key).Pairwise (· ≤ ·)

variable {key} {l l' l'' : List α}

theorem sorted_sortBy (l : List α) : Sorted key (sortBy key l) :=
  have : Std.Total fun a b : α => key a ≤ key b := ⟨fun a b => le_total (key a) (key b)⟩
  have : IsTrans α fun a b => key a ≤ key b := ⟨fun _ _ _ => le_trans⟩
  List.pairwise_map.mpr (List.pairwise_insertionSort _ l)

theorem perm_sortBy (l : List α) : (sortBy key l).Perm l := List.perm_insertionSort _ l

namespace SameTies

theorem refl (l : List α) : SameTies key l l := fun _ => rfl

theorem symm (h : SameTies key l l') : SameTies key l' l := fun k => (h k).symm

theorem trans (h : SameTies key l l') (h' : SameTies key l' l'') : SameTies key l l'' :=
  fun k => (h k).trans (h' k)

theorem append (h : SameTies key l l') (added : List α) : SameTies key (l ++ added) (l' ++ added) := by
  intro k
  rw [List.filter_append, List.filter_append, h k]

theorem mem_iff (h : SameTies key l l') {a : α} : a ∈ l ↔ a ∈ l' := by
  have hmem : ∀ l : List α, a ∈ l ↔ a ∈ l.filter fun b => key b = key a := by
    intro l
    simp only [List.mem_filter, decide_true, and_true]
  rw [hmem l, hmem l', h]

theorem sortBy (l : List α) : SameTies key (sortBy key l) l := by
  intro k
  have : Std.Total fun a b : α => key a ≤ key b := ⟨fun a b => le_total (key a) (key b)⟩
  have : IsTrans α fun a b => key a ≤ key b := ⟨fun _ _ _ => le_trans⟩
  let ties := l.filter fun a => key a = k
  have hkey : ∀ a ∈ ties, key a = k := fun a ha => of_decide_eq_true (List.mem_filter.mp ha).2
  have hties : ties.Pairwise fun a b => key a ≤ key b := by
    refine List.pairwise_iff_forall_sublist.mpr ?_
    intro a b hab
    rw [hkey a (hab.subset (by simp)), hkey b (hab.subset (by simp))]
  have hsub : ties.Sublist (Sorting.sortBy key l) :=
    List.sublist_insertionSort hties List.filter_sublist
  have hsub := hsub.filter fun a => key a = k
  rw [List.filter_eq_self.mpr fun a ha => decide_eq_true (hkey a ha)] at hsub
  exact (hsub.eq_of_length ((perm_sortBy l).filter _).length_eq.symm).symm

theorem cons_inv {a : α} (h : SameTies key (a :: l) (a :: l')) : SameTies key l l' := by
  intro k
  have := h k
  rw [List.filter_cons, List.filter_cons] at this
  split at this
  · exact (List.cons.inj this).2
  · exact this

theorem eq_of_sorted (h : SameTies key l l') (hl : Sorted key l) (hl' : Sorted key l') : l = l' := by
  induction l generalizing l' with
  | nil =>
      cases l' with
      | nil => rfl
      | cons b l' => cases h.mem_iff.mpr List.mem_cons_self
  | cons a l ih =>
      cases l' with
      | nil => cases h.mem_iff.mp List.mem_cons_self
      | cons b l' =>
          -- each head is a record of the other list, so the heads have one key
          have hfirst : ∀ {c d : α} {m : List α}, Sorted key (c :: m) → d ∈ c :: m → key c ≤ key d := by
            intro c d m hm hd
            rcases List.mem_cons.mp hd with rfl | hd
            · exact le_rfl
            · exact (List.pairwise_cons.mp hm).1 _ (List.mem_map_of_mem hd)
          have hkey : key a = key b :=
            le_antisymm (hfirst hl (h.mem_iff.mpr List.mem_cons_self))
              (hfirst hl' (h.mem_iff.mp List.mem_cons_self))
          have hheads := h (key b)
          simp only [List.filter_cons, hkey, decide_true, if_true] at hheads
          obtain rfl := (List.cons.inj hheads).1
          rw [ih h.cons_inv hl.of_cons hl'.of_cons]

theorem modifyFirst {f : α → α} {p : α → Bool} {value : κ} (hf : ∀ a, key (f a) = key a)
    (hp : ∀ a, p a = true ↔ key a = value) (h : SameTies key l l') :
    SameTies key (modifyFirst f p l) (modifyFirst f p l') := by
  -- the records of one key are changed as the whole list is, or not at all
  have hties : ∀ (k : κ) (l : List α), ((Sorting.modifyFirst f p l).filter fun a => key a = k)
      = if k = value then Sorting.modifyFirst f p (l.filter fun a => key a = k)
        else l.filter fun a => key a = k := by
    intro k l
    induction l with
    | nil => split <;> rfl
    | cons a l ih =>
        simp only [Sorting.modifyFirst, List.filter_cons, hp]
        by_cases ha : key a = value
        · by_cases hk : k = value
          · rw [if_pos hk] at ih ⊢
            simp only [ha, hf, hk, Sorting.modifyFirst, hp, List.filter_cons, decide_true, if_true]
          · rw [if_neg hk] at ih ⊢
            simp only [ha, hf, Ne.symm hk, List.filter_cons, decide_false, Bool.false_eq_true, if_true,
              if_false]
        · rw [if_neg ha, List.filter_cons, ih]
          by_cases hak : key a = k
          · have hk : k ≠ value := fun hk => ha (hak.trans hk)
            simp only [hk, if_false]
          · simp only [hak, decide_false, Bool.false_eq_true, if_false]
  intro k
  rw [hties, hties, h k]

end SameTies

/-! ## One more record -/

variable (key) in
/-- Puts a record behind those whose keys are not greater. -/
def insertLast (x : α) : List α → List α
  | [] => [x]
  | a :: l => if key x < key a then x :: a :: l else a :: insertLast x l

theorem mem_insertLast {x a : α} : a ∈ insertLast key x l ↔ a = x ∨ a ∈ l := by
  induction l with
  | nil => simp [insertLast]
  | cons b l ih =>
      unfold insertLast
      split
      · exact List.mem_cons
      · rw [List.mem_cons, ih, List.mem_cons]
        exact or_left_comm

theorem sorted_insertLast {x : α} (hl : Sorted key l) : Sorted key (insertLast key x l) := by
  unfold Sorted at hl ⊢
  rw [List.pairwise_map] at hl ⊢
  induction l with
  | nil => exact List.pairwise_singleton _ _
  | cons a l ih =>
      obtain ⟨hfirst, hrest⟩ := List.pairwise_cons.mp hl
      unfold insertLast
      split
      · rename_i hlt
        refine List.pairwise_cons.mpr ⟨fun b hb => ?_, hl⟩
        rcases List.mem_cons.mp hb with rfl | hb
        · exact hlt.le
        · exact hlt.le.trans (hfirst b hb)
      · rename_i hle
        refine List.pairwise_cons.mpr ⟨fun b hb => ?_, ih hrest⟩
        rcases mem_insertLast.mp hb with rfl | hb
        · exact not_lt.mp hle
        · exact hfirst b hb

/-- No record that comes later has its key: a new record is the last of its ties. -/
theorem SameTies.insertLast {x : α} (hl : Sorted key l) :
    SameTies key (insertLast key x l) (l ++ [x]) := by
  intro k
  induction l with
  | nil => rfl
  | cons a l ih =>
      have hfirst : ∀ b ∈ l, key a ≤ key b := fun b hb =>
        (List.pairwise_cons.mp hl).1 _ (List.mem_map_of_mem hb)
      unfold Sorting.insertLast
      split
      · rename_i hlt
        have hnone : ∀ {b}, b ∈ a :: l → key x < key b := by
          intro b hb
          rcases List.mem_cons.mp hb with rfl | hb
          · exact hlt
          · exact hlt.trans_le (hfirst b hb)
        rw [List.filter_append, List.filter_cons]
        by_cases hk : key x = k
        · have hempty : ((a :: l).filter fun b => key b = k) = [] := by
            rw [List.filter_eq_nil_iff]
            intro b hb
            have := (hnone hb).ne'
            rw [hk] at this
            simpa using this
          rw [hempty]
          simp [hk]
        · simp [hk]
      · rw [List.filter_cons, ih hl.of_cons, List.cons_append, List.filter_cons]

theorem sortBy_snoc (l : List α) (x : α) : sortBy key (l ++ [x]) = insertLast key x (sortBy key l) := by
  refine SameTies.eq_of_sorted ?_ (sorted_sortBy _) (sorted_insertLast (sorted_sortBy l))
  refine (SameTies.sortBy _).trans ?_
  exact ((SameTies.sortBy l).append [x]).symm.trans (SameTies.insertLast (sorted_sortBy l)).symm

end Stable

/-! ## A fixed number of slots -/

section Slots

variable {l : List α}

/-- `slice::rotate_right(1)`. -/
def rotateRight {β : Type} (l : List β) : List β := l.drop (l.length - 1) ++ l.take (l.length - 1)

/-- The first of a fixed number of slots are filled. -/
def slots : Nat → List α → List (Option α)
  | 0, _ => []
  | n + 1, [] => none :: slots n []
  | n + 1, a :: l => some a :: slots n l

variable (key : α → κ)

/-- Puts a record into the first slot that is empty or holds a greater key.  The ones behind
move by one, and the last slot is lost. -/
def seat (selected : List (Option α)) (x : α) : List (Option α) :=
  match selected.findIdx? fun entry => entry.all fun a => key x < key a with
  | some position =>
      (selected.take position ++ rotateRight (selected.drop position)).set position (some x)
  | none => selected

variable {key}

theorem dropLast_slots : ∀ {n : Nat} {l : List α}, (slots (n + 1) l).dropLast = slots n l
  | 0, [] => rfl
  | 0, _ :: _ => rfl
  | n + 1, [] => by
      show none :: (slots (n + 1) []).dropLast = slots (n + 1) []
      rw [dropLast_slots]
      rfl
  | n + 1, a :: l => by
      show (some a :: slots (n + 1) l).dropLast = some a :: slots n l
      cases l with
      | nil =>
          show some a :: (slots (n + 1) []).dropLast = some a :: slots n []
          rw [dropLast_slots]
      | cons b l =>
          show some a :: (slots (n + 1) (b :: l)).dropLast = some a :: slots n (b :: l)
          rw [dropLast_slots]

theorem flatten_slots : ∀ {n : Nat} {l : List α}, (slots n l).filterMap id = l.take n
  | 0, l => rfl
  | n + 1, [] => by
      show (slots n []).filterMap id = []
      rw [flatten_slots, List.take_nil]
  | n + 1, a :: l => by
      show a :: (slots n l).filterMap id = a :: l.take n
      rw [flatten_slots]

theorem set_rotateRight {β : Type} {a b : β} {l : List β} :
    (rotateRight (a :: l)).set 0 b = b :: (a :: l).dropLast := by
  have hlast : (a :: l).drop ((a :: l).length - 1) = [(a :: l).getLast (by simp)] :=
    List.drop_length_sub_one (by simp)
  rw [rotateRight, hlast, List.dropLast_eq_take]
  rfl

theorem seat_cons (entry : Option α) (selected : List (Option α)) (x : α) :
    seat key (entry :: selected) x = if (entry.all fun a => key x < key a) = true
      then some x :: (entry :: selected).dropLast else entry :: seat key selected x := by
  unfold seat
  rw [List.findIdx?_cons]
  split_ifs with hfirst
  · show ([] ++ rotateRight (entry :: selected)).set 0 (some x) = _
    rw [List.nil_append, set_rotateRight]
  · cases hfind : selected.findIdx? fun entry => entry.all fun a => key x < key a with
    | none => rfl
    | some position => rfl

/-- The slots hold the first records of a sorted list, and go on doing so. -/
theorem seat_slots : ∀ {n : Nat} {l : List α} {x : α},
    seat key (slots n l) x = slots n (insertLast key x l)
  | 0, l, x => rfl
  | n + 1, [], x => by
      rw [slots, seat_cons, if_pos (Option.all_none)]
      show some x :: (slots (n + 1) []).dropLast = some x :: slots n []
      rw [dropLast_slots]
  | n + 1, a :: l, x => by
      rw [slots, seat_cons, insertLast]
      by_cases hlt : key x < key a
      · rw [if_pos (by simpa using hlt), if_pos hlt]
        show some x :: (slots (n + 1) (a :: l)).dropLast = some x :: slots n (a :: l)
        rw [dropLast_slots]
      · rw [if_neg (by simpa using hlt), if_neg hlt, seat_slots]
        rfl

/-- Seating one record after the other selects the first of the sorted list. -/
theorem foldl_seat (n : Nat) (l : List α) :
    l.foldl (seat key) (slots n []) = slots n (sortBy key l) := by
  induction l using List.reverseRecOn with
  | nil => rfl
  | append_singleton l x ih => rw [List.foldl_append, ih, sortBy_snoc, List.foldl_cons, List.foldl_nil,
      seat_slots]

end Slots

end Sorting

import Colloc.Lib.Order
import Mathlib.Data.List.Basic
import Mathlib.Logic.Function.Basic

/-!
# `Colloc.Lib.ListMerge`: merging lists by their heads

A merge of sorted lists takes, over and over, the head of one of them, one that belongs before no
other head. `Takes` is this relation between the lists at the start, what was taken from them, and
what is left. It says nothing of how a head is found, so any merge refines it: one that compares
the heads one by one, or one that keeps them in a heap.

Whatever was taken, each list is what was taken from it and then what is left of it
(`Takes.each`), and together these are all elements (`Takes.perm`). When the lists are sorted,
so is what was taken, and it precedes all that is left (`Takes.sorted`).

The lists are numbered, and a list without a number below some `n` is empty.
-/

set_option autoImplicit false

namespace Colloc.Lib

section
variable {α : Type}

/-- No element of `l` belongs before an earlier one. -/
def Sorted (comp : α → α → Bool) (l : List α) : Prop :=
  l.Pairwise (fun x y => comp x y = false)

/-! ### The elements of one list, and of all -/

/-- The elements that come from the list `i`. -/
def ofList (i : Nat) (ps : List (α × Nat)) : List α :=
  (ps.filter (fun p => decide (p.2 = i))).map Prod.fst

/-- Of two parts, those of the first come first. -/
theorem ofList_append (i : Nat) (ps qs : List (α × Nat)) :
    ofList i (ps ++ qs) = ofList i ps ++ ofList i qs := by
  rw [ofList, List.filter_append, List.map_append]
  rfl

/-- An element of the list in front is the first of the list. -/
@[simp] theorem ofList_cons_self (x : α) (i : Nat) (ps : List (α × Nat)) :
    ofList i ((x, i) :: ps) = x :: ofList i ps := by
  simp [ofList]

/-- An element of another list in front does not matter. -/
theorem ofList_cons_ne {i j : Nat} (h : j ≠ i) (x : α) (ps : List (α × Nat)) :
    ofList i ((x, j) :: ps) = ofList i ps := by
  simp [ofList, h]

/-- A number that does not occur has no elements. -/
theorem ofList_of_not_mem {i : Nat} {ps : List (α × Nat)} (h : i ∉ ps.map Prod.snd) :
    ofList i ps = [] := by
  have hnone : ps.filter (fun p => decide (p.2 = i)) = [] :=
    List.filter_eq_nil_iff.mpr (fun p hp hi => h (of_decide_eq_true hi ▸ List.mem_map_of_mem hp))
  rw [ofList, hnone]
  rfl

/-- The elements of a list are as many as its number occurs. -/
theorem length_ofList (i : Nat) (ps : List (α × Nat)) :
    (ofList i ps).length = (ps.map Prod.snd).count i := by
  rw [ofList, List.length_map, ← List.countP_eq_length_filter, List.count, List.countP_map]
  rfl

/-- With one element of each list at most, the order of the whole does not matter to the elements
of one list. -/
theorem ofList_perm {ps qs : List (α × Nat)} (h : ps.Perm qs) (hnd : (qs.map Prod.snd).Nodup)
    (i : Nat) : ofList i ps = ofList i qs := by
  have hperm : (ofList i ps).Perm (ofList i qs) := (h.filter _).map _
  have hlen : (ofList i qs).length ≤ 1 := by
    rw [length_ofList]
    exact List.nodup_iff_count_le_one.mp hnd i
  cases hqs : ofList i qs with
  | nil => exact (hqs ▸ hperm).eq_nil
  | cons x xs =>
      rw [hqs, List.length_cons] at hlen
      obtain rfl : xs = [] := List.eq_nil_of_length_eq_zero (by omega)
      exact List.perm_singleton.mp (hqs ▸ hperm)

/-- The elements of the lists with numbers below `n`. -/
def allOf (n : Nat) (lists : Nat → List α) : List α := (List.range n).flatMap lists

/-- Lists that are the same give the same elements. -/
theorem allOf_congr {n : Nat} {lists lists' : Nat → List α}
    (h : ∀ i < n, lists i = lists' i) : allOf n lists = allOf n lists' :=
  List.flatMap_congr (fun i hi => h i (List.mem_range.mp hi))

/-- Lists of the same lengths have as many elements. -/
theorem length_allOf_congr {n : Nat} {lists lists' : Nat → List α}
    (h : ∀ i < n, (lists i).length = (lists' i).length) :
    (allOf n lists).length = (allOf n lists').length := by
  simp only [allOf, List.length_flatMap]
  exact congrArg List.sum (List.map_congr_left (fun i hi => h i (List.mem_range.mp hi)))

/-- A list that loses its head: the head and the elements that are left are all elements. The
induction is on the number of lists. The list is the last one, or one before it. -/
theorem allOf_update_perm {n i : Nat} {lists : Nat → List α} {x : α} {l : List α} (hi : i < n)
    (h : lists i = x :: l) :
    (allOf n lists).Perm (x :: allOf n (Function.update lists i l)) := by
  induction n with
  | zero => exact absurd hi (Nat.not_lt_zero i)
  | succ n ih =>
      have hsucc : ∀ f : Nat → List α, allOf (n + 1) f = allOf n f ++ f n := by
        intro f
        simp [allOf, List.range_succ]
      rw [hsucc, hsucc]
      by_cases hin : i = n
      · subst hin
        have hbelow : allOf i lists = allOf i (Function.update lists i l) :=
          allOf_congr (fun j hj => (Function.update_of_ne (Nat.ne_of_lt hj) _ _).symm)
        rw [h, Function.update_self, hbelow]
        exact List.perm_middle
      · rw [Function.update_of_ne (Ne.symm hin), ← List.cons_append]
        exact (ih (by omega)).append_right _

/-- Elements with numbers below `n` are those of the lists by number. The head of the list comes
off one of these, and the others stay. -/
theorem allOf_ofList_perm {n : Nat} (ps : List (α × Nat)) (h : ∀ p ∈ ps, p.2 < n) :
    (allOf n (fun i => ofList i ps)).Perm (ps.map Prod.fst) := by
  induction ps with
  | nil => simp [allOf, ofList]
  | cons p ps ih =>
      obtain ⟨x, i⟩ := p
      have hi : i < n := h (x, i) List.mem_cons_self
      have htail : Function.update (fun j => ofList j ((x, i) :: ps)) i (ofList i ps)
          = fun j => ofList j ps := by
        funext j
        by_cases hj : j = i
        · rw [hj, Function.update_self]
        · rw [Function.update_of_ne hj]
          exact ofList_cons_ne (Ne.symm hj) x ps
      have hperm := @allOf_update_perm _ _ _ (fun j => ofList j ((x, i) :: ps)) _ _ hi
        (ofList_cons_self x i ps)
      rw [htail] at hperm
      exact hperm.trans ((ih (fun p hp => h p (List.mem_cons_of_mem _ hp))).cons x)

/-- The elements of lists that are made of two parts. -/
theorem allOf_append_perm (n : Nat) (lists lists' : Nat → List α) :
    (allOf n (fun i => lists i ++ lists' i)).Perm (allOf n lists ++ allOf n lists') :=
  (List.flatMap_append_perm (List.range n) lists lists').symm

end

/-! ### Taking heads -/

section
variable {α : Type} (comp : α → α → Bool)

/-- From the lists at the start, `taken` was taken, each element with the number of its list, and
`now` is left. What is taken is a head that belongs after no other head. -/
inductive Takes (lists : Nat → List α) : List (α × Nat) → (Nat → List α) → Prop
  | start : Takes lists [] lists
  | next {taken : List (α × Nat)} {now : Nat → List α} {x : α} {i : Nat} {l : List α} :
      Takes lists taken now → now i = x :: l → (∀ j, ∀ y ∈ (now j).head?, comp x y = false) →
      Takes lists (taken ++ [(x, i)]) (Function.update now i l)

variable {comp} {lists now : Nat → List α} {taken : List (α × Nat)}

/-- Each list is what was taken from it, and then what is left of it. Elements are taken from the
front only. -/
theorem Takes.each (h : Takes comp lists taken now) (j : Nat) :
    lists j = ofList j taken ++ now j := by
  induction h with
  | start => rfl
  | @next taken now x i l _ hi _ ih =>
      rw [ih, ofList_append, List.append_assoc]
      congr 1
      by_cases hj : j = i
      · subst hj
        rw [Function.update_self, hi, ofList_cons_self]
        rfl
      · rw [Function.update_of_ne hj, ofList_cons_ne (Ne.symm hj)]
        rfl

/-- What was taken and what is left are all elements. No element is lost or shown twice, whatever
list is taken from next. -/
theorem Takes.perm (h : Takes comp lists taken now) {n : Nat}
    (hn : ∀ i, n ≤ i → lists i = []) :
    (allOf n lists).Perm (taken.map Prod.fst ++ allOf n now) := by
  induction h with
  | start => exact List.Perm.refl _
  | @next taken now x i l ht hi _ ih =>
      -- A list with a head has a number below `n`.
      have hlt : i < n := by
        by_contra hge
        have hnil := ht.each i
        rw [hn i (Nat.le_of_not_lt hge), hi] at hnil
        exact absurd (congrArg List.length hnil) (by simp)
      rw [List.map_append, List.append_assoc]
      exact ih.trans ((allOf_update_perm hlt hi).append_left _)

/-- An element that is left was there at the start. -/
theorem Takes.mem (h : Takes comp lists taken now) {j : Nat} {x : α} (hx : x ∈ now j) :
    x ∈ lists j := by
  rw [h.each j]
  exact List.mem_append_right _ hx

/-- From sorted lists: what was taken is sorted, and nothing that is left belongs before it. The
head that is taken precedes the other heads, and these precede what is behind them. -/
theorem Takes.sorted (h : Takes comp lists taken now) (hs : ∀ j, Sorted comp (lists j))
    {S : α → Prop} (hc : StrictWeakOn comp S) (hS : ∀ j, ∀ x ∈ lists j, S x) :
    Sorted comp (taken.map Prod.fst) ∧
      ∀ p ∈ taken, ∀ j, ∀ x ∈ now j, comp p.1 x = false := by
  induction h with
  | start => exact ⟨List.Pairwise.nil, fun p hp => absurd hp List.not_mem_nil⟩
  | @next taken now x i l ht hi hleast ih =>
      obtain ⟨hsorted, hbefore⟩ := ih
      have hxi : x ∈ now i := hi ▸ List.mem_cons_self
      -- What is left of a list is sorted.
      have hnow : ∀ j, Sorted comp (now j) := fun j =>
        (List.pairwise_append.mp (ht.each j ▸ hs j)).2.1
      have hfirst : ∀ j, ∀ y ∈ now j, comp x y = false := by
        intro j y hy
        cases hj : now j with
        | nil => exact absurd (hj ▸ hy) List.not_mem_nil
        | cons z zs =>
            have hxz : comp x z = false := hleast j z (by rw [hj]; exact Option.mem_some_self z)
            rcases List.mem_cons.mp (hj ▸ hy) with rfl | hyz
            · exact hxz
            · have hz : (z :: zs).Pairwise (fun x y => comp x y = false) := hj ▸ hnow j
              have hzy : comp z y = false := List.rel_of_pairwise_cons hz hyz
              exact hc.negTrans x z y (hS i x (ht.mem hxi))
                (hS j z (ht.mem (hj ▸ List.mem_cons_self))) (hS j y (ht.mem hy)) hxz hzy
      have hsub : ∀ j, ∀ y ∈ Function.update now i l j, y ∈ now j := by
        intro j y hy
        by_cases hj : j = i
        · subst hj
          rw [Function.update_self] at hy
          rw [hi]
          exact List.mem_cons_of_mem x hy
        · rwa [Function.update_of_ne hj] at hy
      refine ⟨?_, fun p hp j y hy => ?_⟩
      · rw [List.map_append, List.map_singleton]
        refine List.pairwise_append.mpr ⟨hsorted, List.pairwise_singleton _ _, ?_⟩
        intro y hy z hz
        obtain ⟨p, hp, rfl⟩ := List.mem_map.mp hy
        rw [List.mem_singleton.mp hz]
        exact hbefore p hp i x hxi
      · rcases List.mem_append.mp hp with hp | hp
        · exact hbefore p hp j y (hsub j y hy)
        · rw [List.mem_singleton.mp hp]
          exact hfirst j y (hsub j y hy)

end

end Colloc.Lib

import Colloc.Lib.Runs
import Mathlib.Algebra.BigOperators.Ring.List
import Mathlib.Algebra.Order.BigOperators.Group.List
import Mathlib.Algebra.Order.Field.Rat
import Mathlib.Data.List.Count
import Mathlib.Data.List.Nodup
import Mathlib.Tactic.Ring

/-!
# `Colloc.Lib.Marginal`: sums of shares over lists

Observations `ts` are distributed over results `R`: the part of `t` that goes to `r` is
`f t r`. `sum_exchange` sums by results or by observations. `marginal_le` is the inequality
for marginals: when a result has two components and the parts factor, the results with one
first component get at most what the observations give to that component.

`sum_timesIn_mul` sums a function over a list by its distinct elements.
-/

set_option autoImplicit false

namespace Colloc.Lib

section Multiplicity
variable {K : Type} [DecidableEq K]

/-- How often `k` is listed. -/
def timesIn (l : List K) (k : K) : Nat := l.countP (fun x => decide (x = k))

/-- The head counts once when it is the key. -/
theorem timesIn_cons (x : K) (l : List K) (k : K) :
    timesIn (x :: l) k = (if x = k then 1 else 0) + timesIn l k := by
  unfold timesIn
  rw [List.countP_cons, Nat.add_comm]
  simp

/-- Occurrences add up over parts of a list. -/
theorem timesIn_append (l₁ l₂ : List K) (k : K) :
    timesIn (l₁ ++ l₂) k = timesIn l₁ k + timesIn l₂ k :=
  List.count_append

/-- What occurs is in the list. -/
theorem timesIn_pos {l : List K} {k : K} : 0 < timesIn l k ↔ k ∈ l :=
  List.count_pos_iff

/-- A key occurs at most at every place. -/
theorem timesIn_le_length (l : List K) (k : K) : timesIn l k ≤ l.length :=
  List.count_le_length

/-- A sublist has no occurrence that the list lacks. -/
theorem timesIn_le_of_sublist {l₁ l₂ : List K} (h : l₁.Sublist l₂) (k : K) :
    timesIn l₁ k ≤ timesIn l₂ k :=
  h.count_le k

/-- Mapping can only bring occurrences together. -/
theorem timesIn_le_map {L : Type} [DecidableEq L] (f : K → L) (l : List K) (k : K) :
    timesIn l k ≤ timesIn (l.map f) (f k) :=
  List.count_le_count_map

/-- An injective map brings none together. -/
theorem timesIn_map {L : Type} [DecidableEq L] {f : K → L} (hf : Function.Injective f)
    (l : List K) (k : K) : timesIn (l.map f) (f k) = timesIn l k :=
  List.count_map_of_injective l f hf k

/-- One element of a duplicate-free list is picked out once, and the others add nothing. -/
theorem sum_ite_eq {D : List K} (hnd : D.Nodup) (x : K) (f : K → ℚ) :
    (D.map (fun d => if x = d then f d else 0)).sum = if x ∈ D then f x else 0 := by
  induction D with
  | nil => simp
  | cons d D ih =>
      obtain ⟨hd, hD⟩ := List.nodup_cons.mp hnd
      rw [List.map_cons, List.sum_cons, ih hD]
      by_cases h : x = d
      · subst h
        rw [if_pos rfl, if_neg hd, if_pos List.mem_cons_self, add_zero]
      · rw [if_neg h, zero_add]
        simp [h]

/-- Summing over the distinct elements `D`, each as often as it is listed, is summing over the
list. -/
theorem sum_timesIn_mul {D : List K} (hnd : D.Nodup) (f : K → ℚ) (ks : List K) :
    (D.map (fun d => (timesIn ks d : ℚ) * f d)).sum
      = ((ks.filter (fun k => decide (k ∈ D))).map f).sum := by
  induction ks with
  | nil => simp [timesIn]
  | cons x ks ih =>
      -- The head adds one to its own multiplicity and to no other.
      have hsplit : (fun d => (timesIn (x :: ks) d : ℚ) * f d)
          = fun d => (if x = d then f d else 0) + (timesIn ks d : ℚ) * f d := by
        funext d
        rw [timesIn_cons]
        by_cases h : x = d
        · rw [if_pos h, if_pos h]
          push_cast
          ring
        · rw [if_neg h, if_neg h, Nat.zero_add, zero_add]
      rw [hsplit, List.sum_map_add, ih, sum_ite_eq hnd]
      by_cases h : x ∈ D
      · simp [h]
      · simp [h]

/-- When `D` has every element of the list, nothing is left out. -/
theorem sum_timesIn_mul_of_subset {D : List K} (hnd : D.Nodup) (f : K → ℚ) {ks : List K}
    (h : ∀ k ∈ ks, k ∈ D) :
    (D.map (fun d => (timesIn ks d : ℚ) * f d)).sum = (ks.map f).sum := by
  rw [sum_timesIn_mul hnd, List.filter_eq_self.mpr (fun k hk => decide_eq_true (h k hk))]

/-- The multiplicities of distinct elements add up to at most the length. -/
theorem sum_timesIn_le {D : List K} (hnd : D.Nodup) (ks : List K) :
    (D.map (fun d => (timesIn ks d : ℚ))).sum ≤ (ks.length : ℚ) := by
  have h := sum_timesIn_mul hnd (fun _ => 1) ks
  simp only [mul_one] at h
  rw [h, List.map_const', List.sum_replicate, nsmul_eq_mul, mul_one]
  exact Nat.cast_le.mpr (List.length_filter_le _ _)

/-- The occurrences of all keys are the length of the list. -/
theorem sum_timesIn_of_subset {D : List K} (hnd : D.Nodup) {ks : List K}
    (h : ∀ k ∈ ks, k ∈ D) :
    (D.map (fun d => (timesIn ks d : ℚ))).sum = (ks.length : ℚ) := by
  have hsum := sum_timesIn_mul_of_subset hnd (fun _ => 1) h
  simp only [mul_one] at hsum
  rw [hsum, List.map_const', List.sum_replicate, nsmul_eq_mul, mul_one]

end Multiplicity

section Exchange
variable {T X : Type}

/-- Summing by results or by observations. -/
theorem sum_exchange (f : T → X → ℚ) (R : List X) (ts : List T) :
    (R.map (fun r => (ts.map (fun t => f t r)).sum)).sum
      = (ts.map (fun t => (R.map (f t)).sum)).sum := by
  induction ts with
  | nil => simp
  | cons t ts ih =>
      simp only [List.map_cons, List.sum_cons]
      rw [List.sum_map_add, ih]

variable {Y Z : Type} [DecidableEq Y]

/-- The results with the first component `y` get at most what the observations give to `y`,
when no observation gives more than everything to the second components. -/
theorem marginal_le (ts : List T) {R : List X} (hnd : R.Nodup) (fst : X → Y) (snd : X → Z)
    (hinj : ∀ r r', fst r = fst r' → snd r = snd r' → r = r') (u : T → Y → ℚ) (v : T → Z → ℚ)
    (hu : ∀ t y, 0 ≤ u t y) (hv : ∀ t (zs : List Z), zs.Nodup → (zs.map (v t)).sum ≤ 1) (y : Y) :
    ((withKey fst R y).map (fun r => (ts.map (fun t => u t (fst r) * v t (snd r))).sum)).sum
      ≤ (ts.map (fun t => u t y)).sum := by
  -- With equal first components, results differ in the second one.
  have hsnd : ((withKey fst R y).map snd).Nodup := by
    refine (List.nodup_map_iff_inj_on (hnd.filter _)).mpr (fun r hr r' hr' heq => ?_)
    have h := ((mem_withKey fst).mp hr).2
    have h' := ((mem_withKey fst).mp hr').2
    exact hinj r r' (h.trans h'.symm) heq
  rw [sum_exchange (fun t r => u t (fst r) * v t (snd r))]
  refine List.sum_le_sum (fun t _ => ?_)
  -- The first component is fixed, so its factor comes out of the sum.
  have hfix : (withKey fst R y).map (fun r => u t (fst r) * v t (snd r))
      = (withKey fst R y).map (fun r => u t y * v t (snd r)) := by
    refine List.map_congr_left (fun r hr => ?_)
    rw [((mem_withKey fst).mp hr).2]
  rw [hfix, List.sum_map_mul_left]
  have hone := hv t _ hsnd
  rw [List.map_map] at hone
  calc u t y * ((withKey fst R y).map (fun r => v t (snd r))).sum
      ≤ u t y * 1 := mul_le_mul_of_nonneg_left hone (hu t y)
    _ = u t y := mul_one _

end Exchange

end Colloc.Lib

import Mathlib.Data.List.Basic

/-!
# `Colloc.Lib.Positions`: the elements of a list at some positions

A traversal that counts what it meets and looks at some of the counts picks the elements of a
list by position. The list may come in parts, so the position of the first element is a
parameter (`pickFrom_append`). Positions from a number on are a `drop`, and positions of an
interval a `take` of it (`pickFrom_interval`).
-/

set_option autoImplicit false

namespace Colloc.Lib

variable {α : Type}

/-- The elements at the positions with `P`, when the first element is at the position `n`. -/
def pickFrom (P : Nat → Bool) : Nat → List α → List α
  | _, [] => []
  | n, a :: l => if P n then a :: pickFrom P (n + 1) l else pickFrom P (n + 1) l

/-- Picking from two lists: the positions of the second one come behind those of the first. -/
theorem pickFrom_append (P : Nat → Bool) (l₁ l₂ : List α) (n : Nat) :
    pickFrom P n (l₁ ++ l₂) = pickFrom P n l₁ ++ pickFrom P (n + l₁.length) l₂ := by
  induction l₁ generalizing n with
  | nil => rfl
  | cons a l₁ ih =>
      have hlen : n + (a :: l₁).length = n + 1 + l₁.length := by
        rw [List.length_cons]
        omega
      rw [hlen, List.cons_append, pickFrom, pickFrom, ih (n + 1)]
      by_cases h : P n
      · rw [if_pos h, if_pos h, List.cons_append]
      · rw [if_neg h, if_neg h]

/-- Nothing is picked when no position from here on is chosen. -/
theorem pickFrom_eq_nil {P : Nat → Bool} {l : List α} {n : Nat}
    (h : ∀ i, n ≤ i → P i = false) : pickFrom P n l = [] := by
  induction l generalizing n with
  | nil => rfl
  | cons a l ih =>
      have hn : ¬ P n = true := by simp [h n (Nat.le_refl n)]
      rw [pickFrom, if_neg hn]
      exact ih (fun i hi => h i (by omega))

/-- The positions from `start` on. The list begins at position `n`, so that many elements fewer
are dropped. -/
theorem pickFrom_ge (start : Nat) (l : List α) (n : Nat) :
    pickFrom (fun i => decide (start ≤ i)) n l = l.drop (start - n) := by
  induction l generalizing n with
  | nil => rw [pickFrom, List.drop_nil]
  | cons a l ih =>
      rw [pickFrom, ih]
      by_cases h : start ≤ n
      · have hzero : start - n = 0 := by omega
        have hnext : start - (n + 1) = 0 := by omega
        rw [if_pos (decide_eq_true h), hzero, hnext, List.drop_zero, List.drop_zero]
      · have hsucc : start - n = start - (n + 1) + 1 := by omega
        rw [if_neg (by simpa using h), hsucc, List.drop_succ_cons]

/-- The elements at the positions from `start` on, below `stop`: what `drop` and `take` give. The
induction is on the list, with the position of its head. -/
theorem pickFrom_interval (start stop : Nat) (l : List α) (n : Nat) :
    pickFrom (fun i => decide (start ≤ i) && decide (i < stop)) n l
      = (l.drop (start - n)).take (stop - max start n) := by
  induction l generalizing n with
  | nil => rw [pickFrom, List.drop_nil, List.take_nil]
  | cons a l ih =>
      rw [pickFrom, ih]
      by_cases hstart : start ≤ n
      · have hmax : max start n = n := Nat.max_eq_right hstart
        have hmax' : max start (n + 1) = n + 1 := Nat.max_eq_right (by omega)
        have hzero : start - n = 0 := by omega
        have hnext : start - (n + 1) = 0 := by omega
        rw [hmax, hmax', hzero, hnext, List.drop_zero, List.drop_zero]
        by_cases hstop : n < stop
        · have hsucc : stop - n = stop - (n + 1) + 1 := by omega
          rw [if_pos (by simp [hstart, hstop]), hsucc, List.take_succ_cons]
        · have hnone : stop - n = 0 := by omega
          have hnone' : stop - (n + 1) = 0 := by omega
          rw [if_neg (by simp [hstop]), hnone, hnone', List.take_zero, List.take_zero]
      · have hmax : max start n = start := Nat.max_eq_left (by omega)
        have hmax' : max start (n + 1) = start := Nat.max_eq_left (by omega)
        have hsucc : start - n = start - (n + 1) + 1 := by omega
        rw [if_neg (by simp [hstart]), hmax, hmax', hsucc, List.drop_succ_cons]

/-- Abutting intervals of one length are the list up to their end. -/
theorem flatMap_windows (l : List α) (k n : Nat) :
    (List.range n).flatMap (fun i => (l.drop (i * k)).take k) = l.take (n * k) := by
  induction n with
  | zero => simp
  | succ n ih =>
      rw [List.range_succ, List.flatMap_append, ih, List.flatMap_singleton, Nat.succ_mul,
        ← List.take_add]

end Colloc.Lib

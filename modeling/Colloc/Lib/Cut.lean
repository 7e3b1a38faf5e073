import Mathlib.Data.List.Basic

/-!
# `Colloc.Lib.Cut`: lists cut at marks

A list with marks in it is read in one of two ways. The marks end the parts:
`splitOn_flatMap_concat` gives the parts back, and nothing follows the last mark. Or the marks are
dropped: `runsBetween` lists the maximal runs of the other elements, none of them empty.
-/

set_option autoImplicit false

namespace Colloc.Lib

variable {α : Type}

/-- Parts with a mark behind each are cut into these parts. Nothing follows the last mark, and
this nothing is a part of its own. -/
theorem splitOn_flatMap_concat [BEq α] [LawfulBEq α] (a : α) {parts : List (List α)}
    (h : ∀ part ∈ parts, a ∉ part) :
    (parts.flatMap (fun part => part ++ [a])).splitOn a = parts ++ [[]] := by
  induction parts with
  | nil => rfl
  | cons part parts ih =>
      have hcons : (part :: parts).flatMap (fun part => part ++ [a])
          = part ++ a :: parts.flatMap (fun part => part ++ [a]) := by simp
      rw [hcons, List.splitOn_append_cons_self_of_not_mem (h part List.mem_cons_self),
        ih (fun part' hpart' => h part' (List.mem_cons_of_mem part hpart')), List.cons_append]

variable (mark : α → Bool)

/-- The maximal runs of elements that are no mark. -/
def runsBetween (l : List α) : List (List α) := (l.splitOnP mark).filter (fun run => !run.isEmpty)

/-- Without a mark the list is one run, unless it is empty. -/
theorem runsBetween_of_unmarked {l : List α} (h : ∀ a ∈ l, mark a = false) :
    runsBetween mark l = if l = [] then [] else [l] := by
  unfold runsBetween
  rw [List.splitOnP_eq_singleton h]
  by_cases hl : l = []
  · simp [hl]
  · simp [hl]

/-- Marks alone have no run between them: the runs are the parts that are not empty. -/
theorem runsBetween_of_marked {l : List α} (h : ∀ a ∈ l, mark a = true) :
    runsBetween mark l = [] := by
  induction l with
  | nil => rfl
  | cons a l ih =>
      have hsplit := List.splitOnP_append_cons (p := mark) [] l (h a List.mem_cons_self)
      rw [List.nil_append] at hsplit
      have hrest : (l.splitOnP mark).filter (fun run => !run.isEmpty) = [] :=
        ih (fun b hb => h b (List.mem_cons_of_mem a hb))
      rw [runsBetween, hsplit, List.filter_append, hrest]
      rfl

/-- A mark separates the runs before it from those behind it. -/
theorem runsBetween_append_cons (l l' : List α) {a : α} (ha : mark a = true) :
    runsBetween mark (l ++ a :: l') = runsBetween mark l ++ runsBetween mark l' := by
  unfold runsBetween
  rw [List.splitOnP_append_cons _ _ ha, List.filter_append]

/-- A run is not empty: two marks side by side have none between them. -/
theorem ne_nil_of_mem_runsBetween {l run : List α} (h : run ∈ runsBetween mark l) : run ≠ [] := by
  have hne := (List.mem_filter.mp h).2
  simpa using hne

/-- There is a run when some element is no mark. Marks at the front are skipped until that element
or an earlier one opens a run. -/
theorem runsBetween_ne_nil {l : List α} (h : ∃ a ∈ l, mark a = false) :
    runsBetween mark l ≠ [] := by
  obtain ⟨a, ha, hmark⟩ := h
  induction l with
  | nil => exact absurd ha List.not_mem_nil
  | cons b l ih =>
      cases hb : mark b with
      | true =>
          have hmem : a ∈ l := by
            rcases List.mem_cons.mp ha with rfl | ha
            · rw [hmark] at hb
              cases hb
            · exact ha
          have hsplit := runsBetween_append_cons mark [] l hb
          rw [List.nil_append] at hsplit
          rw [hsplit]
          exact fun hnil => ih hmem (List.append_eq_nil_iff.mp hnil).2
      | false =>
          -- The head is in the first run.
          obtain ⟨run, runs, hrun⟩ := List.exists_cons_of_ne_nil (List.splitOnP_ne_nil mark l)
          unfold runsBetween
          rw [List.splitOnP_cons_eq_if_modifyHead, hb, hrun]
          simp

/-- The runs have the elements that are no mark, in order. The induction is on the list, and a
mark at its head only ends a run. -/
theorem flatten_runsBetween (l : List α) :
    (runsBetween mark l).flatten = l.filter (fun a => !mark a) := by
  induction l with
  | nil => rfl
  | cons a l ih =>
      cases ha : mark a with
      | true =>
          have hsplit := runsBetween_append_cons mark [] l ha
          rw [List.nil_append] at hsplit
          rw [hsplit, List.flatten_append, ih, List.filter_cons_of_neg (by simp [ha])]
          rfl
      | false =>
          -- The head joins the first run, which may have been empty.
          obtain ⟨run, runs, hrun⟩ := List.exists_cons_of_ne_nil (List.splitOnP_ne_nil mark l)
          rw [List.filter_cons_of_pos (by simp [ha]), ← ih]
          unfold runsBetween
          rw [List.splitOnP_cons_eq_if_modifyHead, ha, hrun]
          cases run with
          | nil => simp
          | cons b run => simp

end Colloc.Lib

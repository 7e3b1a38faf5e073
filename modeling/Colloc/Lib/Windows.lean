import Mathlib.Data.List.Basic

/-!
# `Colloc.Lib.Windows`: adjacent elements of a list

`pairs` and `triples` are the elements of a list at two and at three consecutive positions,
in order, one entry for each position.
-/

set_option autoImplicit false

namespace Colloc.Lib

variable {α : Type}

/-- The elements at two consecutive positions. -/
def pairs (l : List α) : List (α × α) := l.zip l.tail

/-- The elements at three consecutive positions. -/
def triples (l : List α) : List (α × α × α) := l.zip (l.tail.zip l.tail.tail)

/-- No element, no pair. -/
@[simp] theorem pairs_nil : pairs ([] : List α) = [] := rfl

/-- One element makes no pair. -/
@[simp] theorem pairs_singleton (a : α) : pairs [a] = [] := rfl

/-- The first two elements are the first pair. -/
@[simp] theorem pairs_cons_cons (a b : α) (l : List α) :
    pairs (a :: b :: l) = (a, b) :: pairs (b :: l) := rfl

/-- No element, no triple. -/
@[simp] theorem triples_nil : triples ([] : List α) = [] := rfl

/-- One element makes no triple. -/
@[simp] theorem triples_singleton (a : α) : triples [a] = [] := rfl

/-- Two elements make no triple. -/
@[simp] theorem triples_pair (a b : α) : triples [a, b] = [] := rfl

/-- The first three elements are the first triple. -/
@[simp] theorem triples_cons_cons_cons (a b c : α) (l : List α) :
    triples (a :: b :: c :: l) = (a, b, c) :: triples (b :: c :: l) := rfl

section Map
variable {β : Type} (f : α → β)

/-- The pairs of the images are the images of the pairs. -/
theorem pairs_map (l : List α) : pairs (l.map f) = (pairs l).map (Prod.map f f) := by
  rw [pairs, pairs, ← List.map_tail, List.zip_map]

/-- So it is for the triples. -/
theorem triples_map (l : List α) :
    triples (l.map f) = (triples l).map (Prod.map f (Prod.map f f)) := by
  rw [triples, triples, ← List.map_tail, ← List.map_tail, List.zip_map, List.zip_map]

end Map

/-- The first elements of the pairs are the list without its last element. -/
theorem map_fst_pairs (l : List α) : (pairs l).map Prod.fst = l.dropLast := by
  induction l with
  | nil => rfl
  | cons a l ih =>
      cases l with
      | nil => rfl
      | cons b l =>
          rw [pairs_cons_cons, List.map_cons, ih]
          rfl

/-- The second elements of the pairs are the list without its first element. -/
theorem map_snd_pairs (l : List α) : (pairs l).map Prod.snd = l.tail := by
  induction l with
  | nil => rfl
  | cons a l ih =>
      cases l with
      | nil => rfl
      | cons b l =>
          rw [pairs_cons_cons, List.map_cons, ih]
          rfl

/-- The first two elements of the triples are the pairs without the last one, which begins no
triple. -/
theorem map_init_triples (l : List α) :
    (triples l).map (fun t => (t.1, t.2.1)) = (pairs l).dropLast := by
  induction l with
  | nil => rfl
  | cons a l ih =>
      cases l with
      | nil => rfl
      | cons b l =>
          cases l with
          | nil => rfl
          | cons c l =>
              rw [triples_cons_cons_cons, List.map_cons, ih]
              rfl

/-- Sublists of the parts make a sublist of the whole. -/
theorem flatMap_sublist {β : Type} {f g : α → List β} (h : ∀ a, (f a).Sublist (g a))
    (l : List α) : (l.flatMap f).Sublist (l.flatMap g) := by
  induction l with
  | nil => exact List.Sublist.refl _
  | cons a l ih =>
      rw [List.flatMap_cons, List.flatMap_cons]
      exact (h a).append ih

/-- Every pair in a list of lists has its own first element. -/
theorem map_fst_flatMap_pairs_sublist (ls : List (List α)) :
    ((ls.flatMap pairs).map Prod.fst).Sublist ls.flatten := by
  rw [List.map_flatMap, ← List.flatMap_id']
  refine flatMap_sublist (fun l => ?_) ls
  rw [map_fst_pairs]
  exact List.dropLast_sublist l

/-- Every pair has its own second element. -/
theorem map_snd_flatMap_pairs_sublist (ls : List (List α)) :
    ((ls.flatMap pairs).map Prod.snd).Sublist ls.flatten := by
  rw [List.map_flatMap, ← List.flatMap_id']
  refine flatMap_sublist (fun l => ?_) ls
  rw [map_snd_pairs]
  exact List.tail_sublist l

/-- Every triple has its own pair of first elements. -/
theorem map_init_flatMap_triples_sublist (ls : List (List α)) :
    ((ls.flatMap triples).map (fun t => (t.1, t.2.1))).Sublist (ls.flatMap pairs) := by
  rw [List.map_flatMap]
  refine flatMap_sublist (fun l => ?_) ls
  rw [map_init_triples]
  exact List.dropLast_sublist _

/-- The first component of a pair is in the list. -/
theorem fst_mem_of_mem_pairs {l : List α} {p : α × α} (h : p ∈ pairs l) : p.1 ∈ l :=
  (List.of_mem_zip h).1

/-- So is the second. -/
theorem snd_mem_of_mem_pairs {l : List α} {p : α × α} (h : p ∈ pairs l) : p.2 ∈ l :=
  List.mem_of_mem_tail (List.of_mem_zip h).2

/-- A triple begins with an adjacent pair. -/
theorem init_mem_of_mem_triples {l : List α} {t : α × α × α} (h : t ∈ triples l) :
    (t.1, t.2.1) ∈ pairs l := by
  have hinit : (t.1, t.2.1) ∈ (triples l).map (fun t => (t.1, t.2.1)) := List.mem_map_of_mem h
  rw [map_init_triples] at hinit
  exact (List.dropLast_sublist _).mem hinit

/-- Its last component is in the list. -/
theorem last_mem_of_mem_triples {l : List α} {t : α × α × α} (h : t ∈ triples l) : t.2.2 ∈ l :=
  List.mem_of_mem_tail (List.mem_of_mem_tail (List.of_mem_zip (List.of_mem_zip h).2).2)

end Colloc.Lib

import Colloc.Lib.Order
import Mathlib.Algebra.Group.Nat.Defs
import Mathlib.Data.List.Sort

/-!
# `Colloc.Lib.Stdlib`: the C++ library algorithms, as far as the standard fixes them

`std::sort` is unstable, `std::push_heap` and `std::pop_heap` fix the heap property but not
the arrangement, and a hash table iterates in an order of its own. A model that picked one
arrangement would prove more than the standard promises. `Stdlib` is the interface instead:
the functions with their laws as fields, so a theorem that takes a `Stdlib` holds for every
conforming implementation.

`IsHeap` is the standard's own heap property, by index. `IsHeap.head_max` derives from it
that the front compares greatest, the only fact about `std::priority_queue` a merge uses.

`popHeap` takes the elements behind the front. `std::pop_heap` moves the front to the back
and makes a heap of the rest, so the value at the front never enters a comparison.
`popHeap` cannot read it.

`Stdlib.sorting` implements the interface by sorting, so the laws are satisfiable.
-/

set_option autoImplicit false

namespace Colloc.Lib

/-- The heap property of `[alg.heap.operations]`: no element is greater than its parent,
which for index `i` is index `(i - 1) / 2`. -/
def IsHeap {α : Type} (comp : α → α → Bool) (v : List α) : Prop :=
  ∀ (i : Nat) (_ : 0 < i) (h : i < v.length),
    comp (v.get ⟨(i - 1) / 2, by omega⟩) v[i] = false

/-- The front of a heap compares greatest: it is not before any element. The induction is
on the index, one parent step at a time. -/
theorem IsHeap.head_max {α : Type} {comp : α → α → Bool} {r : α} {v : List α}
    (h : IsHeap comp (r :: v)) (hc : StrictWeakOn comp (· ∈ r :: v)) :
    ∀ x ∈ r :: v, comp r x = false := by
  have key : ∀ (i : Nat) (hi : i < (r :: v).length), comp r (r :: v)[i] = false := by
    intro i
    induction i using Nat.strongRecOn with
    | ind i ih =>
        intro hi
        by_cases h0 : i = 0
        · subst h0
          exact hc.irrefl r (by simp)
        · -- `r` is not before the parent, and the parent is not before the child.
          have hp : (i - 1) / 2 < i := by omega
          exact hc.negTrans r _ _ (by simp) (List.getElem_mem _) (List.getElem_mem _)
            (ih _ hp (by omega)) (h i (by omega) hi)
  intro x hx
  obtain ⟨i, hi, rfl⟩ := List.getElem_of_mem hx
  exact key i hi

/-- A list sorted greatest first is a heap. -/
theorem IsHeap.of_pairwise {α : Type} {comp : α → α → Bool} {v : List α}
    (h : v.Pairwise (fun a b => comp a b = false)) : IsHeap comp v := by
  intro i h0 hi
  exact List.pairwise_iff_getElem.mp h ((i - 1) / 2) i (by omega) hi (by omega)

/-- The parts of the C++ standard library whose result the standard leaves open, with what
it promises. `hashOrder` is the iteration order of a hash table over the listed entries,
and `readdir` the order in which a directory lists its entries. `maxSize` is `max_size()` of
a vector of records: what a pointer difference can count, over the size of a record, so a
record of less than `2 ^ 31` bytes leaves room for `2 ^ 32` of them. -/
structure Stdlib where
  maxSize : Nat
  maxSize_ge : 2 ^ 32 ≤ maxSize
  sort : {α : Type} → (α → α → Bool) → List α → List α
  sort_perm : ∀ {α : Type} (comp : α → α → Bool) (v : List α),
    StrictWeakOn comp (· ∈ v) → (sort comp v).Perm v
  sort_sorted : ∀ {α : Type} (comp : α → α → Bool) (v : List α),
    StrictWeakOn comp (· ∈ v) → (sort comp v).Pairwise (fun a b => comp b a = false)
  pushHeap : {α : Type} → (α → α → Bool) → List α → α → List α
  pushHeap_perm : ∀ {α : Type} (comp : α → α → Bool) (v : List α) (x : α),
    StrictWeakOn comp (· ∈ x :: v) → IsHeap comp v → (pushHeap comp v x).Perm (x :: v)
  pushHeap_isHeap : ∀ {α : Type} (comp : α → α → Bool) (v : List α) (x : α),
    StrictWeakOn comp (· ∈ x :: v) → IsHeap comp v → IsHeap comp (pushHeap comp v x)
  popHeap : {α : Type} → (α → α → Bool) → List α → List α
  popHeap_perm : ∀ {α : Type} (comp : α → α → Bool) (r : α) (v : List α),
    StrictWeakOn comp (· ∈ r :: v) → IsHeap comp (r :: v) → (popHeap comp v).Perm v
  popHeap_isHeap : ∀ {α : Type} (comp : α → α → Bool) (r : α) (v : List α),
    StrictWeakOn comp (· ∈ r :: v) → IsHeap comp (r :: v) → IsHeap comp (popHeap comp v)
  hashOrder : {α : Type} → List α → List α
  hashOrder_perm : ∀ {α : Type} (v : List α), (hashOrder v).Perm v
  readdir : {α : Type} → List α → List α
  readdir_perm : ∀ {α : Type} (v : List α), (readdir v).Perm v

/-- A vector has room for any number of records up to `2 ^ 32`. -/
theorem Stdlib.le_maxSize (std : Stdlib) {n : Nat} (h : n ≤ 2 ^ 32) : n ≤ std.maxSize :=
  Nat.le_trans h std.maxSize_ge

/-! ### An implementation -/

/-- `v` sorted greatest first. The sort runs on the elements with their membership proofs,
because `comp` is an ordering only on the elements of `v`. -/
def sortDesc {α : Type} (comp : α → α → Bool) (v : List α) : List α :=
  (v.attach.insertionSort (fun a b => comp a.1 b.1 = false)).map Subtype.val

/-- The insertion sort keeps the elements. -/
theorem sortDesc_perm {α : Type} (comp : α → α → Bool) (v : List α) :
    (sortDesc comp v).Perm v := by
  have h := (List.perm_insertionSort
    (fun a b : {x // x ∈ v} => comp a.1 b.1 = false) v.attach).map Subtype.val
  rwa [List.attach_map_subtype_val] at h

/-- No element of the sorted list is before a later one. This is Mathlib's result on the merge
sort, which asks for a total and transitive relation on the elements that are there. -/
theorem sortDesc_sorted {α : Type} (comp : α → α → Bool) (v : List α)
    (hc : StrictWeakOn comp (· ∈ v)) :
    (sortDesc comp v).Pairwise (fun a b => comp a b = false) := by
  -- The membership proofs turn the two laws on `v` into laws of the relation.
  have htrans : IsTrans {x // x ∈ v} (fun a b => comp a.1 b.1 = false) :=
    ⟨fun a b c hab hbc => hc.negTrans a.1 b.1 c.1 a.2 b.2 c.2 hab hbc⟩
  have htotal : Std.Total (fun a b : {x // x ∈ v} => comp a.1 b.1 = false) := by
    refine ⟨fun a b => ?_⟩
    cases hab : comp a.1 b.1 with
    | false => exact Or.inl rfl
    | true => exact Or.inr (hc.asymm a.1 b.1 a.2 b.2 hab)
  exact List.pairwise_map.mpr (List.pairwise_insertionSort _ v.attach)

/-- The interface is satisfiable: a sorted list is a heap, and every order may be the
order of the list. -/
def Stdlib.sorting : Stdlib where
  maxSize := 2 ^ 57
  maxSize_ge := by decide
  sort comp v := sortDesc (fun a b => comp b a) v
  sort_perm _ v _ := sortDesc_perm _ v
  sort_sorted _ v hc := sortDesc_sorted _ v hc.flip
  pushHeap comp v x := sortDesc comp (x :: v)
  pushHeap_perm comp v x _ _ := sortDesc_perm comp (x :: v)
  pushHeap_isHeap comp v x hc _ := IsHeap.of_pairwise (sortDesc_sorted comp (x :: v) hc)
  popHeap comp v := sortDesc comp v
  popHeap_perm comp _ v _ _ := sortDesc_perm comp v
  popHeap_isHeap comp r v hc _ :=
    IsHeap.of_pairwise (sortDesc_sorted comp v
      (hc.mono (fun _ ha => List.mem_cons_of_mem r ha)))
  hashOrder v := v
  hashOrder_perm v := List.Perm.refl v
  readdir v := v
  readdir_perm v := List.Perm.refl v

end Colloc.Lib

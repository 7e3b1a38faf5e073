import Mathlib.Data.List.Basic

/-!
# `Colloc.Lib.Merge`: merges that only add

A merge of records overwrites, field by field, what is set and appends what is repeated. `Adds`
says that merging `new` into a target gives `new` itself or something with more fields set. It
holds of the merges of single fields, and of records when it holds of their fields. So a merge that
changes a record leaves a trace: what comes out has more fields than what was merged.
-/

set_option autoImplicit false

namespace Colloc.Lib

/-- Merging into a target gives the record, or more. -/
def Adds {α : Type} (merge : α → α → α) (filled : α → Nat) : Prop :=
  ∀ target new, merge target new = new ∨ filled new < filled (merge target new)

namespace Adds

variable {α β : Type} {merge : α → α → α} {filled : α → Nat}

/-- A merge loses no field of what is merged. -/
theorem le (h : Adds merge filled) (target new : α) : filled new ≤ filled (merge target new) := by
  rcases h target new with heq | hlt
  · exact Nat.le_of_eq (congrArg filled heq.symm)
  · exact Nat.le_of_lt hlt

/-- A scalar field whose default `d` is not written. -/
theorem scalar {d : α → Bool} {z : α} (hd : ∀ x, d x = true → x = z) :
    Adds (fun target new => if d new then target else new) (fun x => if d x then 0 else 1) := by
  intro target new
  cases hnew : d new with
  | false => exact Or.inl (by simp [hnew])
  | true =>
      cases htarget : d target with
      | false => exact Or.inr (by simp [hnew, htarget])
      | true => exact Or.inl (by simp [hd target htarget, hd new hnew])

/-- A repeated field. -/
theorem append : Adds (fun target new : List α => target ++ new) List.length := by
  intro target new
  cases target with
  | nil => exact Or.inl rfl
  | cons x target =>
      refine Or.inr ?_
      rw [List.length_append, List.length_cons]
      omega

/-- Two fields, each of which is merged by itself: the merge gives the record, or fills more in
one of them. -/
theorem prod {mergeB : β → β → β} {filledB : β → Nat} (h : Adds merge filled)
    (hB : Adds mergeB filledB) :
    Adds (fun target new : α × β => (merge target.1 new.1, mergeB target.2 new.2))
      (fun p => filled p.1 + filledB p.2) := by
  intro target new
  have hle := h.le target.1 new.1
  have hleB := hB.le target.2 new.2
  rcases h target.1 new.1 with heq | hlt
  · rcases hB target.2 new.2 with heqB | hltB
    · exact Or.inl (Prod.ext heq heqB)
    · exact Or.inr (Nat.add_lt_add_of_le_of_lt hle hltB)
  · exact Or.inr (Nat.add_lt_add_of_lt_of_le hlt hleB)

/-- A record with the fields that `fields` gives. They determine it, so the result about them
carries over to it. -/
theorem comap {mergeB : β → β → β} (h : Adds merge filled) (fields : β → α)
    (hinj : Function.Injective fields)
    (hmerge : ∀ target new, fields (mergeB target new) = merge (fields target) (fields new)) :
    Adds mergeB (fun x => filled (fields x)) := by
  intro target new
  rcases h (fields target) (fields new) with heq | hlt
  · exact Or.inl (hinj ((hmerge target new).trans heq))
  · refine Or.inr ?_
    show filled (fields new) < filled (fields (mergeB target new))
    rw [hmerge]
    exact hlt

end Adds

end Colloc.Lib

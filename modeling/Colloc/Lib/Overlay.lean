import Colloc.Lib.Numbered
import Mathlib.Data.List.Forall2
import Mathlib.Data.List.Induction

/-!
# `Colloc.Lib.Overlay`: lists written one over the other

Values that are stored under the numbers `1`, `2`, ... replace what was stored under the same
numbers, and greater numbers keep what they had. Seen as a list, the store is then the new values
followed by the old ones that are further back (`overlay`). `overlays` is a whole history of such
writes: at each place it has the value of the last list that is long enough.

`Stores` ties the list to the store, and `Stores.write` is the step.
-/

set_option autoImplicit false

namespace Colloc.Lib

section Overlay
variable {α β : Type}

/-- The new values, and the old ones that are further back. -/
def overlay (new old : List α) : List α := new ++ old.drop new.length

/-- The longer of the two lists gives the length. -/
theorem length_overlay (new old : List α) :
    (overlay new old).length = max new.length old.length := by
  rw [overlay, List.length_append, List.length_drop]
  omega

/-- A relation that holds place by place survives the overlay, since the lists have the same
lengths. -/
theorem forall₂_overlay {r : α → β → Prop} {new old : List α} {new' old' : List β}
    (hnew : List.Forall₂ r new new') (hold : List.Forall₂ r old old') :
    List.Forall₂ r (overlay new old) (overlay new' old') := by
  unfold overlay
  rw [← hnew.length_eq]
  exact List.rel_append hnew (List.forall₂_drop new.length hold)

/-- Lists written one over the other, the first one first. -/
def overlays (ls : List (List α)) : List α := ls.foldl (fun old new => overlay new old) []

/-- The last list of a history is on top. -/
theorem overlays_concat (ls : List (List α)) (l : List α) :
    overlays (ls ++ [l]) = overlay l (overlays ls) := by
  rw [overlays, List.foldl_append]
  rfl

end Overlay

/-! ### Numbered stores -/

section Store
variable {N V : Type} [DecidableEq N] {name : UInt32 → N}

/-- An entry after the writes was there before, or is one of those that were written. A name that
is written again keeps the last value. -/
theorem mem_writeNumbered {m : AList (fun _ : N => V)} {c : UInt32} {vs : List V}
    {e : Sigma fun _ : N => V} (he : e ∈ (writeNumbered name m c vs).entries) :
    e ∈ m.entries ∨ e.1 ∈ numberedKeys name c vs ∧ e.2 ∈ vs := by
  induction vs generalizing m c with
  | nil => exact Or.inl he
  | cons v vs ih =>
      have hkeys : numberedKeys name c (v :: vs) = name c :: numberedKeys name (c + 1) vs := rfl
      rw [hkeys, List.mem_cons]
      rcases ih he with he | ⟨hname, hv⟩
      · rw [entries_insert_perm, List.mem_cons] at he
        rcases he with rfl | he
        · exact Or.inr ⟨Or.inl rfl, List.mem_cons_self⟩
        · exact Or.inl (List.mem_of_mem_filter he)
      · exact Or.inr ⟨Or.inr hname, List.mem_cons_of_mem v hv⟩

/-- The values stand under the numbers from `1` on, and there is nothing else. -/
structure Stores (name : UInt32 → N) (m : AList (fun _ : N => V)) (vs : List V) : Prop where
  length : vs.length ≤ 2 ^ 32
  entries : m.entries.Perm (numbered name 1 vs)

omit [DecidableEq N] in
/-- The empty store stores nothing. -/
theorem Stores.empty : Stores name (∅ : AList (fun _ : N => V)) [] :=
  ⟨Nat.zero_le _, List.Perm.refl _⟩

omit [DecidableEq N] in
/-- The numbers go on behind the first list. -/
theorem numbered_append (c : UInt32) (us vs : List V) : numbered name c (us ++ vs)
    = numbered name c us ++ numbered name (c + UInt32.ofNat us.length) vs := by
  induction us generalizing c with
  | nil => simp [numbered]
  | cons u us ih =>
      rw [List.cons_append, numbered, ih, numbered, List.cons_append, List.length_cons,
        add_ofNat_succ]

variable (hname : Function.Injective name)

include hname

/-- Under the names that the new values do not use stand the old values that are further back. The
induction goes along both lists, and each head is replaced under its own name. -/
theorem filter_numbered (new : List V) {old : List V} (hold : old.length ≤ 2 ^ 32) (c : UInt32) :
    (numbered name c old).filter (fun e => e.1 ∉ numberedKeys name c new)
      = numbered name (c + UInt32.ofNat new.length) (old.drop new.length) := by
  induction new generalizing c old with
  | nil => simp [numberedKeys, numbered]
  | cons v new ih =>
      cases old with
      | nil => rfl
      | cons o old =>
          have hkeys : numberedKeys name c (v :: new) = name c :: numberedKeys name (c + 1) new :=
            rfl
          have hlen : old.length < 2 ^ 32 := hold
          rw [numbered, hkeys, List.filter_cons_of_neg (by simp), List.length_cons, add_ofNat_succ,
            List.drop_succ_cons, ← ih (Nat.le_of_lt hlen) (c + 1)]
          -- The name of the head is not used again.
          refine List.filter_congr (fun e he => ?_)
          have hkey : e.1 ∈ numberedKeys name (c + 1) old := List.mem_map_of_mem he
          have hne : e.1 ≠ name c := fun heq =>
            name_not_mem_numberedKeys hname hlen (heq ▸ hkey)
          simp [hne]

/-- A write replaces the values with the same numbers. -/
theorem Stores.write {m : AList (fun _ : N => V)} {old : List V} (h : Stores name m old)
    {new : List V} (hnew : new.length ≤ 2 ^ 32) :
    Stores name (writeNumbered name m 1 new) (overlay new old) := by
  refine ⟨by rw [length_overlay]; exact max_le hnew h.length, ?_⟩
  rw [overlay, numbered_append, ← filter_numbered hname new h.length]
  exact (writeNumbered_entries_of_le hname new m 1 hnew).trans
    (List.Perm.append_left _ (h.entries.filter _))

end Store

end Colloc.Lib

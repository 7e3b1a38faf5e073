import Mathlib.Data.List.Basic
import Mathlib.Data.List.Forall2
import Mathlib.Data.List.Nodup
import Mathlib.Data.List.Perm.Subperm
import Mathlib.Data.Prod.Basic

/-!
# `Colloc.Lib.Order`: comparators that return a `Bool`

A C++ container takes its order as a callable `comp(a, b)`. The standard asks that it be a
strict weak ordering of the values it is called on. `StrictWeakOn` is that requirement, on
a set of values and not on the whole type, because a comparator can be sound on the values
a program stores and unsound elsewhere.

`StrictTotal` is `operator<` of a key type whose incomparable keys are equal. `Prod` gets
the lexicographic order, which is the order of `std::pair` and of a nested `std::tuple`.

A sort leaves the order of tied elements open and nothing else: two sorted permutations of each
other are tied at each place (`StrictWeakOn.forall₂_of_perm`).
-/

set_option autoImplicit false

namespace Colloc.Lib

/-- `comp` is a strict weak ordering of the values in `S`: it is asymmetric, and the
relation "not before" is transitive. -/
structure StrictWeakOn {α : Type} (comp : α → α → Bool) (S : α → Prop) : Prop where
  asymm : ∀ a b, S a → S b → comp a b = true → comp b a = false
  negTrans : ∀ a b c, S a → S b → S c →
    comp a b = false → comp b c = false → comp a c = false

namespace StrictWeakOn

variable {α : Type} {comp : α → α → Bool} {S T : α → Prop}

/-- An order on a set is one on a smaller set. -/
theorem mono (h : StrictWeakOn comp S) (hST : ∀ a, T a → S a) : StrictWeakOn comp T where
  asymm a b ha hb := h.asymm a b (hST a ha) (hST b hb)
  negTrans a b c ha hb hc := h.negTrans a b c (hST a ha) (hST b hb) (hST c hc)

/-- Nothing is before itself. -/
theorem irrefl (h : StrictWeakOn comp S) (a : α) (ha : S a) : comp a a = false := by
  cases hc : comp a a with
  | false => rfl
  | true => rw [← hc]; exact h.asymm a a ha ha hc

/-- The reversed comparator `(a, b) ↦ comp(b, a)` is a strict weak ordering too. -/
theorem flip (h : StrictWeakOn comp S) : StrictWeakOn (fun a b => comp b a) S where
  asymm a b ha hb := h.asymm b a hb ha
  negTrans a b c ha hb hc hab hbc := h.negTrans c b a hc hb ha hbc hab

/-- Comparing through a projection: `comp` on the images orders the originals. -/
theorem comap {β : Type} (h : StrictWeakOn comp S) (f : β → α) :
    StrictWeakOn (fun a b => comp (f a) (f b)) (fun b => S (f b)) where
  asymm a b ha hb := h.asymm (f a) (f b) ha hb
  negTrans a b c ha hb hc := h.negTrans (f a) (f b) (f c) ha hb hc

end StrictWeakOn

/-- `operator<` of a key type: a strict weak ordering whose ties are equalities. -/
class StrictTotal (K : Type) where
  less : K → K → Bool
  asymm : ∀ a b, less a b = true → less b a = false
  negTrans : ∀ a b c, less a b = false → less b c = false → less a c = false
  total : ∀ a b, less a b = false → less b a = false → a = b

open StrictTotal (less)

section StrictTotal
variable {K : Type} [StrictTotal K]

/-- A strict total order is a strict weak one. -/
theorem less_strictWeakOn (S : K → Prop) : StrictWeakOn (less (K := K)) S where
  asymm a b _ _ := StrictTotal.asymm a b
  negTrans a b c _ _ _ := StrictTotal.negTrans a b c

/-- Nothing is less than itself. -/
theorem less_irrefl (a : K) : less a a = false :=
  (less_strictWeakOn (fun _ => True)).irrefl a trivial

/-- What is less is another element. -/
theorem less_ne {a b : K} (h : less a b = true) : a ≠ b := by
  intro hab
  subst hab
  rw [less_irrefl] at h
  exact Bool.false_ne_true h

/-- The order is transitive. -/
theorem less_trans {a b c : K} (hab : less a b = true) (hbc : less b c = true) :
    less a c = true := by
  cases hac : less a c with
  | true => rfl
  | false =>
      -- `c` is not before `b`, so `a` not before `c` makes `a` not before `b`.
      have h := StrictTotal.negTrans a c b hac (StrictTotal.asymm b c hbc)
      rw [hab] at h
      exact h.symm

/-- A key that is not after `b` is before it or equal to it. -/
theorem less_or_eq {a b : K} (h : less b a = false) : less a b = true ∨ a = b := by
  cases hab : less a b with
  | true => exact Or.inl rfl
  | false => exact Or.inr (StrictTotal.total a b hab h)

/-- What is less than something is less than all that is not less than that. -/
theorem less_of_less_of_not {a b c : K} (hab : less a b = true) (hcb : less c b = false) :
    less a c = true := by
  rcases less_or_eq hcb with h | h
  · exact less_trans hab h
  · exact h ▸ hab

end StrictTotal

/-- `operator<` on `std::uint32_t`. -/
instance : StrictTotal UInt32 where
  less a b := decide (a < b)
  asymm a b h := by
    simp only [decide_eq_true_eq, decide_eq_false_iff_not, UInt32.lt_iff_toNat_lt] at *
    omega
  negTrans a b c hab hbc := by
    simp only [decide_eq_false_iff_not, UInt32.lt_iff_toNat_lt] at *
    omega
  total a b hab hba := by
    simp only [decide_eq_false_iff_not, UInt32.lt_iff_toNat_lt] at *
    exact UInt32.toNat_inj.mp (by omega)

/-- `operator<` of `std::pair`: the first components decide, and the second ones break
a tie. -/
def lexLess {A B : Type} [StrictTotal A] [StrictTotal B] (a b : A × B) : Bool :=
  less a.1 b.1 || (!less b.1 a.1 && less a.2 b.2)

/-- Pairs compare by their first components, and then by the second ones. In a total order two
components of which neither is less are equal. -/
theorem lexLess_eq_true {A B : Type} [StrictTotal A] [StrictTotal B] {a b : A × B} :
    lexLess a b = true ↔ less a.1 b.1 = true ∨ (a.1 = b.1 ∧ less a.2 b.2 = true) := by
  unfold lexLess
  rw [Bool.or_eq_true, Bool.and_eq_true, Bool.not_eq_true']
  constructor
  · rintro (h | ⟨h1, h2⟩)
    · exact Or.inl h
    · rcases less_or_eq h1 with h | h
      · exact Or.inl h
      · exact Or.inr ⟨h, h2⟩
  · rintro (h | ⟨h1, h2⟩)
    · exact Or.inl h
    · exact Or.inr ⟨by rw [h1]; exact less_irrefl _, h2⟩

/-- A pair is not less when its first component is greater, or is the same and the second one is
not less. -/
theorem lexLess_eq_false {A B : Type} [StrictTotal A] [StrictTotal B] {a b : A × B} :
    lexLess a b = false ↔
      less b.1 a.1 = true ∨ (a.1 = b.1 ∧ less a.2 b.2 = false) := by
  rw [← Bool.not_eq_true, lexLess_eq_true]
  constructor
  · intro h
    have h1 : less a.1 b.1 = false := by
      rw [← Bool.not_eq_true]; exact fun hl => h (Or.inl hl)
    rcases less_or_eq h1 with h2 | h2
    · exact Or.inl h2
    · refine Or.inr ⟨h2.symm, ?_⟩
      rw [← Bool.not_eq_true]
      exact fun hl => h (Or.inr ⟨h2.symm, hl⟩)
  · rintro (h | ⟨h1, h2⟩) (h3 | ⟨h3, h4⟩)
    · rw [StrictTotal.asymm _ _ h] at h3
      exact Bool.false_ne_true h3
    · exact less_ne h h3.symm
    · exact less_ne h3 h1
    · rw [h2] at h4
      exact Bool.false_ne_true h4

instance {A B : Type} [StrictTotal A] [StrictTotal B] : StrictTotal (A × B) where
  less := lexLess
  asymm a b h := by
    rw [lexLess_eq_true] at h
    rw [lexLess_eq_false]
    rcases h with h | ⟨h1, h2⟩
    · exact Or.inl h
    · exact Or.inr ⟨h1.symm, StrictTotal.asymm _ _ h2⟩
  negTrans a b c hab hbc := by
    rw [lexLess_eq_false] at *
    rcases hab with h | ⟨h1, h2⟩ <;> rcases hbc with h' | ⟨h1', h2'⟩
    · exact Or.inl (less_trans h' h)
    · exact Or.inl (h1' ▸ h)
    · exact Or.inl (h1 ▸ h')
    · exact Or.inr ⟨h1.trans h1', StrictTotal.negTrans _ _ _ h2 h2'⟩
  total a b hab hba := by
    rw [lexLess_eq_false] at hab hba
    rcases hab with h | ⟨h1, h2⟩ <;> rcases hba with h' | ⟨h1', h2'⟩
    · rw [StrictTotal.asymm _ _ h] at h'
      exact absurd h' Bool.false_ne_true
    · exact absurd h1' (less_ne h)
    · exact absurd h1 (less_ne h')
    · exact Prod.ext h1 (StrictTotal.total _ _ h2 h2')

/-! ### Ascending lists -/

/-- The keys of `l` are strictly ascending. -/
def Ascending {M K : Type} [StrictTotal K] (key : M → K) (l : List M) : Prop :=
  l.Pairwise (fun a b => less (key a) (key b) = true)

/-- Ascending keys are distinct. -/
theorem Ascending.nodup_keys {M K : Type} [StrictTotal K] {key : M → K} {l : List M}
    (h : Ascending key l) : (l.map key).Nodup :=
  List.pairwise_map.mpr (h.imp (fun hab => less_ne hab))

/-- So are the elements. -/
theorem Ascending.nodup {M K : Type} [StrictTotal K] {key : M → K} {l : List M}
    (h : Ascending key l) : l.Nodup :=
  h.nodup_keys.of_map key

/-- Two strictly ascending lists with the same elements are equal. -/
theorem Ascending.eq_of_mem_iff {M K : Type} [StrictTotal K] {key : M → K} {l₁ l₂ : List M}
    (h₁ : Ascending key l₁) (h₂ : Ascending key l₂) (h : ∀ m, m ∈ l₁ ↔ m ∈ l₂) :
    l₁ = l₂ := by
  have hperm : l₁.Perm l₂ := (List.perm_ext_iff_of_nodup h₁.nodup h₂.nodup).mpr h
  refine hperm.eq_of_pairwise (fun a b _ _ hab hba => ?_) h₁ h₂
  rw [StrictTotal.asymm _ _ hab] at hba
  exact absurd hba Bool.false_ne_true

/-- A strictly ascending list of some elements of another one is a part of it. -/
theorem Ascending.sublist_of_subset {M K : Type} [StrictTotal K] {key : M → K} {l₁ l₂ : List M}
    (h₁ : Ascending key l₁) (h₂ : Ascending key l₂) (h : l₁ ⊆ l₂) : l₁.Sublist l₂ := by
  obtain ⟨l, hperm, hsub⟩ := h₁.nodup.subperm h
  have hl : Ascending key l := h₂.sublist hsub
  rwa [hl.eq_of_mem_iff h₁ (fun m => hperm.mem_iff)] at hsub

/-! ### Sorted permutations -/

/-- When a property passes from an element to all before it, the elements with it come first, and
their number says where they end. -/
theorem getElem_iff_lt_countP {α : Type} {p : α → Bool} {l : List α}
    (h : l.Pairwise (fun a b => p b = true → p a = true)) :
    ∀ (i : Nat) (hi : i < l.length), p l[i] = true ↔ i < l.countP p := by
  induction h with
  | nil => exact fun i hi => absurd hi (Nat.not_lt_zero i)
  | @cons a l hhead _ ih =>
      intro i hi
      cases ha : p a with
      | true =>
          rw [List.countP_cons_of_pos ha]
          cases i with
          | zero => simp [ha]
          | succ i =>
              rw [List.getElem_cons_succ, ih i (Nat.lt_of_succ_lt_succ hi)]
              omega
      | false =>
          -- No element has the property.
          have hnone : ∀ b ∈ a :: l, ¬ p b = true := by
            intro b hb hpb
            rcases List.mem_cons.mp hb with rfl | hb
            · exact Bool.false_ne_true (ha ▸ hpb)
            · exact Bool.false_ne_true (ha ▸ hhead b hb hpb)
          rw [List.countP_eq_zero.mpr hnone]
          have hnot := hnone _ (List.getElem_mem hi)
          simp [hnot]

section Sorted
variable {α : Type} {comp : α → α → Bool} {l l' : List α}

/-- At no place has a sorted list an element after that of a sorted permutation: the elements
after the latter are equally many in both. -/
theorem StrictWeakOn.getElem_of_perm (hc : StrictWeakOn comp (· ∈ l)) (hperm : l.Perm l')
    (h : l.Pairwise (fun a b => comp a b = false)) (h' : l'.Pairwise (fun a b => comp a b = false))
    {i : Nat} (hi : i < l.length) (hi' : i < l'.length) : comp l'[i] l[i] = false := by
  have hx : l'[i] ∈ l := hperm.mem_iff.mpr (List.getElem_mem hi')
  have hclosed : ∀ m : List α, (∀ a ∈ m, a ∈ l) → m.Pairwise (fun a b => comp a b = false) →
      m.Pairwise (fun a b => comp l'[i] b = true → comp l'[i] a = true) := by
    intro m hm hs
    refine hs.imp_of_mem (fun {a b} ha hb hab hxb => ?_)
    cases hxa : comp l'[i] a with
    | true => rfl
    | false =>
        rw [hc.negTrans l'[i] a b hx (hm a ha) (hm b hb) hxa hab] at hxb
        exact hxb
  have hcount := hperm.countP_eq (comp l'[i])
  cases hcomp : comp l'[i] l[i] with
  | false => rfl
  | true =>
      have hlt := (getElem_iff_lt_countP (hclosed l (fun a ha => ha) h) i hi).mp hcomp
      rw [hcount] at hlt
      have hself := (getElem_iff_lt_countP (hclosed l' (fun a ha => hperm.mem_iff.mpr ha) h')
        i hi').mpr hlt
      rw [hc.irrefl _ hx] at hself
      exact absurd hself Bool.false_ne_true

/-- Two sorted permutations of each other differ in the order of tied elements alone. -/
theorem StrictWeakOn.forall₂_of_perm (hc : StrictWeakOn comp (· ∈ l)) (hperm : l.Perm l')
    (h : l.Pairwise (fun a b => comp a b = false))
    (h' : l'.Pairwise (fun a b => comp a b = false)) :
    List.Forall₂ (fun a b => comp a b = false ∧ comp b a = false) l l' := by
  rw [List.forall₂_iff_get]
  refine ⟨hperm.length_eq, fun i hi hi' => ⟨?_, ?_⟩⟩
  · exact (hc.mono (fun a ha => hperm.mem_iff.mpr ha)).getElem_of_perm hperm.symm h' h hi' hi
  · exact hc.getElem_of_perm hperm h h' hi hi'

end Sorted

end Colloc.Lib

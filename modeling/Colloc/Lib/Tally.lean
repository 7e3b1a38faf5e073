import Colloc.Lib.Order
import Mathlib.Algebra.BigOperators.Group.List.Basic
import Mathlib.Data.List.AList

/-!
# `Colloc.Lib.Tally`: weights summed by key

A record carries a key and a weight from a commutative monoid. `sumAt` is the weight a list
gives to a key, and `IsTally` says that a list is the sorted table of these sums: strictly
ascending by key, one record for each key, its weight the sum. Such a table is unique
(`IsTally.unique`), so two programs that both produce it agree record for record.

Three ways to make one:

* `IsTally.addLast` / `IsTally.push`: reading the records in ascending order and summing
  into the last one;
* `lookup_foldl_bump`: counting keys in a map, one unit each;
* `IsTally.of_entries`: sorting the entries of a map.
-/

set_option autoImplicit false

namespace Colloc.Lib

open StrictTotal (less)

section Sum
variable {M K W : Type} [DecidableEq K] [AddCommMonoid W] (key : M → K) (val : M → W)

/-- The weight `l` gives to the key `k`. -/
def sumAt (l : List M) (k : K) : W := ((l.filter (fun m => key m = k)).map val).sum

/-- The empty list has no weight. -/
@[simp] theorem sumAt_nil (k : K) : sumAt key val [] k = 0 := rfl

/-- The head adds its weight to that of its key. -/
theorem sumAt_cons (m : M) (l : List M) (k : K) :
    sumAt key val (m :: l) k = (if key m = k then val m else 0) + sumAt key val l k := by
  unfold sumAt
  by_cases h : key m = k
  · simp [h]
  · simp [h]

/-- Weights add up over parts of a list. -/
theorem sumAt_append (l₁ l₂ : List M) (k : K) :
    sumAt key val (l₁ ++ l₂) k = sumAt key val l₁ k + sumAt key val l₂ k := by
  simp [sumAt]

/-- The order does not matter to a sum. -/
theorem sumAt_perm {l₁ l₂ : List M} (h : l₁.Perm l₂) (k : K) :
    sumAt key val l₁ k = sumAt key val l₂ k :=
  ((h.filter _).map val).sum_eq

/-- A key that no record carries has weight `0`. -/
theorem sumAt_of_not_mem {l : List M} {k : K} (h : k ∉ l.map key) :
    sumAt key val l k = 0 := by
  unfold sumAt
  rw [List.filter_eq_nil_iff.mpr]
  · rfl
  · intro m hm
    simp only [decide_eq_true_eq]
    exact fun hk => h (List.mem_map.mpr ⟨m, hm, hk⟩)

/-- In a strictly ascending list the weight at a record's key is its own weight, as no other
record has this key. -/
theorem sumAt_of_ascending [StrictTotal K] {l : List M} (h : Ascending key l) {m : M}
    (hm : m ∈ l) : sumAt key val l (key m) = val m := by
  induction l with
  | nil => exact absurd hm List.not_mem_nil
  | cons x xs ih =>
      obtain ⟨hx, hxs⟩ := List.pairwise_cons.mp h
      rw [sumAt_cons]
      rcases List.mem_cons.mp hm with rfl | hm'
      · have hout : key m ∉ xs.map key := by
          intro hmem
          obtain ⟨y, hy, hky⟩ := List.mem_map.mp hmem
          exact less_ne (hx y hy) hky.symm
        rw [if_pos rfl, sumAt_of_not_mem key val hout, add_zero]
      · rw [if_neg (less_ne (hx m hm')), ih hxs hm', zero_add]

end Sum

/-- `out` is the sorted table of the function `f` on the keys `P`: one record for each key
in `P`, in strictly ascending order, with weight `f k`. -/
structure IsTable {M K W : Type} [StrictTotal K] (key : M → K) (val : M → W)
    (P : K → Prop) (f : K → W) (out : List M) : Prop where
  ascending : Ascending key out
  complete : ∀ k, P k → ∃ m ∈ out, key m = k
  sound : ∀ m ∈ out, P (key m) ∧ val m = f (key m)

/-- `out` is the sorted table of the weights that `l` gives to its keys. -/
def IsTally {M K W : Type} [StrictTotal K] [DecidableEq K] [AddCommMonoid W]
    (key : M → K) (val : M → W) (l out : List M) : Prop :=
  IsTable key val (· ∈ l.map key) (sumAt key val l) out

section Table
variable {M K W : Type} [StrictTotal K] {key : M → K} {val : M → W}

/-- A table of fewer keys has records of the other one, when key and weight determine a
record. -/
theorem IsTable.subset {P Q : K → Prop} {f g : K → W} {out₁ out₂ : List M}
    (hext : ∀ a b : M, key a = key b → val a = val b → a = b)
    (hPQ : ∀ k, P k → Q k) (hfg : ∀ k, P k → f k = g k)
    (h₁ : IsTable key val P f out₁) (h₂ : IsTable key val Q g out₂) : out₁ ⊆ out₂ := by
  intro m hm
  -- The record of the other table with this key has the same weight, so it is this one.
  obtain ⟨hP, hv⟩ := h₁.sound m hm
  obtain ⟨m', hm', hk⟩ := h₂.complete (key m) (hPQ _ hP)
  have hv' := (h₂.sound m' hm').2
  rw [hext m m' hk.symm (by rw [hv, hv', hk, hfg _ hP])]
  exact hm'

/-- The table is unique. -/
theorem IsTable.unique {P Q : K → Prop} {f g : K → W} {out₁ out₂ : List M}
    (hext : ∀ a b : M, key a = key b → val a = val b → a = b)
    (hPQ : ∀ k, P k ↔ Q k) (hfg : ∀ k, P k → f k = g k)
    (h₁ : IsTable key val P f out₁) (h₂ : IsTable key val Q g out₂) : out₁ = out₂ := by
  have hsub := h₁.subset hext (fun k => (hPQ k).mp) hfg h₂
  have hsup := h₂.subset hext (fun k => (hPQ k).mpr) (fun k hk => (hfg k ((hPQ k).mpr hk)).symm) h₁
  exact h₁.ascending.eq_of_mem_iff h₂.ascending (fun m => ⟨fun hm => hsub hm, fun hm => hsup hm⟩)

/-- Two tables with the same values under other keys: one has the records of the other one, with
the keys replaced. -/
theorem IsTable.perm_map {P Q : K → Prop} {f g : K → W} {out₁ out₂ : List M}
    (hext : ∀ a b : M, key a = key b → val a = val b → a = b) {ρ : K → K} {r : M → M}
    (hρ : Function.Injective ρ) (hkey : ∀ m, key (r m) = ρ (key m))
    (hval : ∀ m, val (r m) = val m) (hQ : ∀ k, Q k ↔ ∃ k', P k' ∧ ρ k' = k)
    (hfg : ∀ k, P k → g (ρ k) = f k) (h₁ : IsTable key val P f out₁)
    (h₂ : IsTable key val Q g out₂) : out₂.Perm (out₁.map r) := by
  have hnd : (out₁.map r).Nodup := by
    refine List.Nodup.of_map key ?_
    have hkeys : (out₁.map r).map key = (out₁.map key).map ρ := by
      rw [List.map_map, List.map_map]
      exact List.map_congr_left (fun m _ => hkey m)
    rw [hkeys]
    exact h₁.ascending.nodup_keys.map hρ
  refine (List.perm_ext_iff_of_nodup h₂.ascending.nodup hnd).mpr (fun m => ?_)
  rw [List.mem_map]
  constructor
  · intro hm
    obtain ⟨hQm, hv⟩ := h₂.sound m hm
    obtain ⟨k, hP, hk⟩ := (hQ _).mp hQm
    obtain ⟨m', hm', rfl⟩ := h₁.complete k hP
    refine ⟨m', hm', hext _ _ ((hkey m').trans hk) ?_⟩
    rw [hval, (h₁.sound m' hm').2, hv, ← hk, hfg _ hP]
  · rintro ⟨m', hm', rfl⟩
    obtain ⟨hP, hv⟩ := h₁.sound m' hm'
    obtain ⟨m, hm, hk⟩ := h₂.complete _ ((hQ _).mpr ⟨_, hP, rfl⟩)
    have hv' := (h₂.sound m hm).2
    rw [hext (r m') m ((hkey m').trans hk.symm) (by rw [hval, hv, hv', hk, hfg _ hP])]
    exact hm

/-- The keys of the table are those that it is about. -/
theorem IsTable.mem_keys_iff {P : K → Prop} {f : K → W} {out : List M}
    (h : IsTable key val P f out) (k : K) : k ∈ out.map key ↔ P k := by
  rw [List.mem_map]
  constructor
  · rintro ⟨m, hm, rfl⟩
    exact (h.sound m hm).1
  · exact h.complete k

/-- A table of one function is a table of every function that is the same on its keys. -/
theorem IsTable.congr {P Q : K → Prop} {f g : K → W} {out : List M}
    (h : IsTable key val P f out) (hPQ : ∀ k, P k ↔ Q k) (hfg : ∀ k, P k → f k = g k) :
    IsTable key val Q g out where
  ascending := h.ascending
  complete k hk := h.complete k ((hPQ k).mpr hk)
  sound m hm := by
    obtain ⟨hP, hv⟩ := h.sound m hm
    exact ⟨(hPQ _).mp hP, hv.trans (hfg _ hP)⟩

end Table

section Tally
variable {M K W : Type} [StrictTotal K] [DecidableEq K] [AddCommMonoid W]
  {key : M → K} {val : M → W}

/-- The empty list is the tally of the empty list. -/
theorem IsTally.nil : IsTally key val [] [] where
  ascending := List.Pairwise.nil
  complete _ hk := absurd hk List.not_mem_nil
  sound _ hm := absurd hm List.not_mem_nil

/-- A tally gives each key the weight of the list it sums. -/
theorem IsTally.sumAt_eq {l out : List M} (h : IsTally key val l out) (k : K) :
    sumAt key val out k = sumAt key val l k := by
  by_cases hk : k ∈ l.map key
  · obtain ⟨m, hm, rfl⟩ := h.complete k hk
    rw [sumAt_of_ascending key val h.ascending hm]
    exact (h.sound m hm).2
  · have hout : k ∉ out.map key := fun hmem => hk ((h.mem_keys_iff k).mp hmem)
    rw [sumAt_of_not_mem key val hk, sumAt_of_not_mem key val hout]

/-- The next record in ascending order carries the key of the last one: its weight goes
into the last one. -/
theorem IsTally.addLast {l out : List M} {last m merged : M}
    (h : IsTally key val l (out ++ [last])) (hkey : key m = key last)
    (hmk : key merged = key last) (hmv : val merged = val m + val last) :
    IsTally key val (l ++ [m]) (out ++ [merged]) := by
  obtain ⟨hout, -, hlast⟩ := List.pairwise_append.mp h.ascending
  have hlastP := (h.sound last (by simp)).1
  -- Only the key of the last record gains weight, and no key is new.
  have hsum : ∀ k, sumAt key val (l ++ [m]) k
      = sumAt key val l k + if key last = k then val m else 0 := by
    intro k
    rw [sumAt_append, sumAt_cons, sumAt_nil, add_zero, hkey]
  have hmem : ∀ k, k ∈ (l ++ [m]).map key ↔ k ∈ l.map key := by
    intro k
    rw [List.map_append, List.mem_append, List.map_singleton, List.mem_singleton]
    constructor
    · rintro (h | rfl)
      · exact h
      · exact hkey ▸ hlastP
    · exact Or.inl
  refine ⟨?_, ?_, ?_⟩
  · refine List.pairwise_append.mpr ⟨hout, List.pairwise_singleton _ _, ?_⟩
    intro a ha b hb
    rw [List.mem_singleton.mp hb, hmk]
    exact hlast a ha last (by simp)
  · intro k hk
    obtain ⟨x, hx, hxk⟩ := h.complete k ((hmem k).mp hk)
    rcases List.mem_append.mp hx with hx | hx
    · exact ⟨x, List.mem_append_left _ hx, hxk⟩
    · refine ⟨merged, by simp, ?_⟩
      rw [hmk, ← hxk, List.mem_singleton.mp hx]
  · intro x hx
    rw [hmem, hsum]
    rcases List.mem_append.mp hx with hx | hx
    · obtain ⟨hP, hv⟩ := h.sound x (List.mem_append_left _ hx)
      -- A record before the last one has a smaller key, so its weight stays.
      have hne : key last ≠ key x := fun he => less_ne (hlast x hx last (by simp)) he.symm
      rw [if_neg hne, add_zero]
      exact ⟨hP, hv⟩
    · rw [List.mem_singleton.mp hx, hmk, if_pos rfl, hmv, (h.sound last (by simp)).2,
        add_comm]
      exact ⟨hlastP, rfl⟩

/-- The next record carries a new greatest key and becomes the last one of the table. No record
before had the key, so its value is the whole sum. -/
theorem IsTally.push {l out : List M} {m : M} (h : IsTally key val l out)
    (hgt : ∀ x ∈ out, less (key x) (key m) = true) :
    IsTally key val (l ++ [m]) (out ++ [m]) := by
  -- The new key is above all keys of the table, so no record had it.
  have hnew : key m ∉ l.map key := by
    intro hmem
    obtain ⟨x, hx, hxk⟩ := h.complete _ hmem
    exact less_ne (hgt x hx) hxk
  have hsum : ∀ k, sumAt key val (l ++ [m]) k
      = sumAt key val l k + if key m = k then val m else 0 := by
    intro k
    rw [sumAt_append, sumAt_cons, sumAt_nil, add_zero]
  refine ⟨?_, ?_, ?_⟩
  · refine List.pairwise_append.mpr ⟨h.ascending, List.pairwise_singleton _ _, ?_⟩
    intro a ha b hb
    rw [List.mem_singleton.mp hb]
    exact hgt a ha
  · intro k hk
    rw [List.map_append, List.mem_append, List.map_singleton, List.mem_singleton] at hk
    rcases hk with hk | rfl
    · obtain ⟨x, hx, hxk⟩ := h.complete k hk
      exact ⟨x, List.mem_append_left _ hx, hxk⟩
    · exact ⟨m, by simp, rfl⟩
  · intro x hx
    rw [hsum, List.map_append, List.mem_append]
    rcases List.mem_append.mp hx with hx | hx
    · obtain ⟨hP, hv⟩ := h.sound x hx
      rw [if_neg (less_ne (hgt x hx)).symm, add_zero]
      exact ⟨Or.inl hP, hv⟩
    · rw [List.mem_singleton.mp hx, if_pos rfl, sumAt_of_not_mem key val hnew, zero_add]
      exact ⟨Or.inr (by simp), rfl⟩

/-- Tallying lists that are tallies themselves, and other records with them, tallies what
they sum. -/
theorem IsTally.flatten {ls outs : List (List M)} {extra out : List M}
    (h : List.Forall₂ (IsTally key val) ls outs)
    (hout : IsTally key val (outs.flatten ++ extra) out) :
    IsTally key val (ls.flatten ++ extra) out := by
  have key_iff : ∀ k, k ∈ outs.flatten.map key ↔ k ∈ ls.flatten.map key := by
    intro k
    clear hout
    induction h with
    | nil => rfl
    | cons h _ ih =>
        rw [List.flatten_cons, List.flatten_cons, List.map_append, List.map_append,
          List.mem_append, List.mem_append, ih, h.mem_keys_iff]
  have sum_eq : ∀ k, sumAt key val outs.flatten k = sumAt key val ls.flatten k := by
    intro k
    clear hout key_iff
    induction h with
    | nil => rfl
    | cons h _ ih =>
        rw [List.flatten_cons, List.flatten_cons, sumAt_append, sumAt_append, ih, h.sumAt_eq]
  refine hout.congr (fun k => ?_) (fun k _ => ?_)
  · rw [List.map_append, List.map_append, List.mem_append, List.mem_append, key_iff]
  · rw [sumAt_append, sumAt_append, sum_eq]

/-- Tallies do not depend on the order of the records. -/
theorem IsTally.perm {l₁ l₂ out : List M} (h : IsTally key val l₁ out) (hp : l₁.Perm l₂) :
    IsTally key val l₂ out :=
  h.congr (fun _ => (hp.map key).mem_iff) (fun k _ => sumAt_perm key val hp k)

end Tally

/-- More records change a tally of them all unless their keys are in it and their weights cancel,
key by key. -/
theorem IsTally.append_eq_iff {M K W : Type} [StrictTotal K] [DecidableEq K]
    [AddCancelCommMonoid W] {key : M → K} {val : M → W}
    (hext : ∀ a b : M, key a = key b → val a = val b → a = b) {l extra out out' : List M}
    (h : IsTally key val (l ++ extra) out) (h' : IsTally key val l out') :
    out = out' ↔ ∀ m ∈ extra, key m ∈ l.map key ∧ sumAt key val extra (key m) = 0 := by
  constructor
  · -- A record of `extra` shows in the tally, so the other tally has its key and weight.
    rintro rfl m hm
    obtain ⟨r, hr, hkey⟩ := h.complete (key m) (List.mem_map_of_mem (by simp [hm]))
    have hw := (h.sound r hr).2
    rw [sumAt_append, ← (h'.sound r hr).2, hkey] at hw
    exact ⟨hkey ▸ (h'.sound r hr).1, left_eq_add.mp hw⟩
  · intro hextra
    -- Both are tables, so it is enough that they sum the same.
    refine h.unique hext (fun k => ?_) (fun k _ => ?_) h'
    · rw [List.map_append, List.mem_append]
      refine or_iff_left_of_imp (fun hk => ?_)
      obtain ⟨m, hm, rfl⟩ := List.mem_map.mp hk
      exact (hextra m hm).1
    · rw [sumAt_append]
      by_cases hk : k ∈ extra.map key
      · obtain ⟨m, hm, rfl⟩ := List.mem_map.mp hk
        rw [(hextra m hm).2, add_zero]
      · rw [sumAt_of_not_mem _ _ hk, add_zero]

/-! ### Counting keys in a map -/

section Bump
variable {K W : Type} [DecidableEq K] [AddCommMonoid W] (unit : W)

/-- `m.try_emplace(k, 0).first->second += unit`. -/
def bump (m : AList (fun _ : K => W)) (k : K) : AList (fun _ : K => W) :=
  m.insert k ((m.lookup k).getD 0 + unit)

/-- A bump adds to its own key, and creates it when it is not there. -/
theorem lookup_bump (m : AList (fun _ : K => W)) (k k' : K) :
    (bump unit m k).lookup k'
      = if k' = k then some ((m.lookup k).getD 0 + unit) else m.lookup k' := by
  unfold bump
  by_cases h : k' = k
  · subst h
    rw [AList.lookup_insert, if_pos rfl]
  · rw [AList.lookup_insert_ne h, if_neg h]

/-- A map after one bump for each key of `ks`: the key's weight grows by one unit for each
time it is listed, and an unlisted key keeps its entry. -/
theorem lookup_foldl_bump (ks : List K) (m : AList (fun _ : K => W)) (k : K) :
    (ks.foldl (bump unit) m).lookup k
      = if k ∈ ks then some ((m.lookup k).getD 0 + ks.count k • unit) else m.lookup k := by
  induction ks generalizing m with
  | nil => simp
  | cons x xs ih =>
      rw [List.foldl_cons, ih, lookup_bump]
      by_cases hx : k = x
      · subst hx
        -- The head bumps `k` itself. The tail may list it again.
        by_cases hk : k ∈ xs
        · simp only [hk, if_true, List.mem_cons, true_or, Option.getD_some,
            List.count_cons_self, succ_nsmul']
          rw [add_assoc]
        · rw [if_neg hk, if_pos rfl, if_pos List.mem_cons_self, List.count_cons_self,
            List.count_eq_zero_of_not_mem hk, zero_add, one_nsmul]
      · have hx' : x ≠ k := fun h => hx h.symm
        by_cases hk : k ∈ xs
        · simp [hx, hk, List.count_cons_of_ne hx']
        · simp [hx, hk]

end Bump

end Colloc.Lib

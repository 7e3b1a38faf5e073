import Colloc.Lib.Total
import Colloc.Proofs.GroupLem
import Colloc.Proofs.Lemmer
import Mathlib.Tactic.Positivity
import Mathlib.Tactic.Ring

/-!
# `Colloc.Proofs.LemWeights`: the weights of lemmas and lemma tuples

A word gives its count to its lemmas in equal shares, and a pair or a triple of words gives
its count to its lemma tuples in equal shares. `lemWeight` is the sum of the shares of a
tuple over a list of records, in exact rationals.

`build_lem_weights` computes it for the lemmas of `uni.bin` (`buildLemWeights_getD`), and the
loop over the sorted records computes it for a group (`weightOf_eq`). The keys of `lid_w` are
the lemmas of the words in `uni.bin`, whatever the type of the weights is
(`buildLemWeights_ok`).
-/

set_option autoImplicit false

namespace Colloc.Proofs

open Colloc.Lib
open Colloc.Spec

/-- The part of a record's count that goes to the tuple `k`, when it goes to `mult` of `times`
tuples. -/
def share (count : UInt32) (mult times : Nat) : ℚ := (count.toNat : ℚ) * (mult : ℚ) / (times : ℚ)

/-- The weight of the tuple `k`: the sum of the shares that the records give to it. -/
def lemWeight {K : Type} [LemTuple K] [DecidableEq K] (lems : List (List UInt32))
    (grams : List (Gram K)) (k : K) : ℚ :=
  (grams.map (fun g =>
    share g.weight (timesIn (combos lems g.ids) k) (combos lems g.ids).length)).sum

/-- A share is not negative. -/
theorem share_nonneg (count : UInt32) (mult times : Nat) : 0 ≤ share count mult times := by
  unfold share
  positivity

/-- A word record, as a record with one id. -/
def unigramOf (m : Unigram) : Gram UInt32 := { ids := m.id, weight := m.weight }

/-! ### `build_lem_weights` -/

section Keys
variable {R : Type} [Double R] {lems : List (List UInt32)}

/-- A weight is added to its own lemma. -/
theorem lookup_addWeight (w : R) (lidW : FlatHashMap UInt32 R) (lid l : UInt32) :
    (addWeight w lidW lid).lookup l
      = if l = lid then some ((lidW.lookup lid).getD 0 + w) else lidW.lookup l := by
  unfold addWeight
  by_cases h : l = lid
  · subst h
    rw [AList.lookup_insert, if_pos rfl]
  · rw [AList.lookup_insert_ne h, if_neg h]

/-- The terms of a word get an entry, and no entry goes. The induction is on the terms. -/
theorem isSome_addWeights (w : R) (terms : List UInt32) (l : UInt32) :
    ∀ lidW : FlatHashMap UInt32 R, ((terms.foldl (addWeight w) lidW).lookup l).isSome ↔
      (lidW.lookup l).isSome ∨ l ∈ terms := by
  induction terms with
  | nil => intro lidW; simp
  | cons lid terms ih =>
      intro lidW
      rw [List.foldl_cons, ih, lookup_addWeight, List.mem_cons]
      by_cases h : l = lid
      · simp [h]
      · simp [h]

/-- A covered word gives each of its lemmas the same part of its weight. -/
theorem lemWeightsWord_eq {m : Unigram} (h : Covered lems m.id) (lidW : FlatHashMap UInt32 R) :
    lemWeightsWord lems lidW m
      = .ok ((combos lems m.id).foldl
          (addWeight ((m.weight.toNat : R) / ((combos lems m.id).length : R))) lidW) := by
  unfold lemWeightsWord
  rw [h.lemsAt]

variable (lems) in
/-- The map has an entry for each lemma of a word. Each word has a row in the table, so no lookup
fails. -/
theorem buildLemWeights_ok {uni : RecordFile Unigram} (hcov : ∀ m ∈ uni.msgs, Covered lems m.id) :
    ∃ lidW : FlatHashMap UInt32 R, buildLemWeights uni lems = .ok lidW ∧
      ∀ l, (lidW.lookup l).isSome ↔ ∃ m ∈ uni.msgs, l ∈ combos lems m.id := by
  obtain ⟨lidW, hrun, hkeys⟩ := foldlM_list (f := lemWeightsWord (R := R) lems)
    (P := fun before lidW => ∀ l, (lidW.lookup l).isSome ↔ ∃ m ∈ before, l ∈ combos lems m.id)
    (l := uni.msgs) (s := ∅)
    (fun m hm before lidW hkeys => by
      refine ⟨_, lemWeightsWord_eq (hcov m hm) lidW, fun l => ?_⟩
      rw [isSome_addWeights, hkeys]
      simp [or_and_right, exists_or])
    (fun l => by simp)
  refine ⟨lidW, ?_, hkeys⟩
  rw [buildLemWeights, readApply_eq]
  exact hrun

end Keys

section Values
variable {lems : List (List UInt32)}

/-- The terms of a word add its share once for each time they are listed. The induction is on the
terms, with the table so far. -/
theorem getD_addWeights (w : ℚ) (terms : List UInt32) (l : UInt32) :
    ∀ lidW : FlatHashMap UInt32 ℚ, ((terms.foldl (addWeight w) lidW).lookup l).getD 0
      = (lidW.lookup l).getD 0 + (timesIn terms l : ℚ) * w := by
  induction terms with
  | nil => intro lidW; simp [timesIn]
  | cons lid terms ih =>
      intro lidW
      rw [List.foldl_cons, ih, lookup_addWeight, timesIn_cons]
      by_cases h : l = lid
      · subst h
        rw [if_pos rfl, if_pos rfl]
        show ((lidW.lookup l).getD 0 + w) + _ = _
        push_cast
        ring
      · rw [if_neg h, if_neg (fun heq => h heq.symm), Nat.zero_add]

/-- After the loop the weight of a lemma has grown by its shares of the words. The induction is on
the words. -/
theorem lemWeights_run_getD (uni : List Unigram) (hcov : ∀ m ∈ uni, Covered lems m.id)
    (l : UInt32) :
    ∀ lidW₀ lidW : FlatHashMap UInt32 ℚ, uni.foldlM (lemWeightsWord lems) lidW₀ = .ok lidW →
      (lidW.lookup l).getD 0
        = (lidW₀.lookup l).getD 0 + lemWeight lems (uni.map unigramOf) l := by
  induction uni with
  | nil =>
      intro lidW₀ lidW hok
      rw [← Except.ok.inj hok]
      exact (add_zero _).symm
  | cons m uni ih =>
      intro lidW₀ lidW hok
      rw [List.foldlM_cons, lemWeightsWord_eq (hcov m List.mem_cons_self)] at hok
      have hrest := ih (fun m' hm' => hcov m' (List.mem_cons_of_mem m hm')) _ lidW hok
      -- The terms of `m` that are `l` add one share each.
      have hshare : (timesIn (combos lems m.id) l : ℚ)
          * ((m.weight.toNat : ℚ) / ((combos lems m.id).length : ℚ))
          = share m.weight (timesIn (combos lems m.id) l) (combos lems m.id).length := by
        unfold share
        ring
      rw [hrest, getD_addWeights]
      show _ + (timesIn (combos lems m.id) l : ℚ)
        * ((m.weight.toNat : ℚ) / ((combos lems m.id).length : ℚ)) + _ = _
      rw [hshare, add_assoc]
      rfl

/-- `build_lem_weights` computes the weights of the lemmas. -/
theorem buildLemWeights_getD {uni : RecordFile Unigram}
    (hcov : ∀ m ∈ uni.msgs, Covered lems m.id) {lidW : FlatHashMap UInt32 ℚ}
    (hok : buildLemWeights uni lems = .ok lidW) (l : UInt32) :
    (lidW.lookup l).getD 0 = lemWeight lems (uni.msgs.map unigramOf) l := by
  rw [buildLemWeights, readApply_eq] at hok
  rw [lemWeights_run_getD uni.msgs hcov l ∅ lidW hok]
  exact zero_add _

end Values

/-! ### The groups -/

section Groups
variable {K : Type} [LemTuple K] [DecidableEq K] (lems : List (List UInt32))

/-- The records of a gram that go to the tuple `k`: as many as the number of times that the
reading `k` is listed. -/
theorem withKey_expanded (g : Gram K) (k : K) :
    withKey LemAndWords.lids (expanded lems g) k
      = List.replicate (timesIn (combos lems g.ids) k)
          { lids := k, wids := g.ids, count := g.weight } := by
  unfold expanded
  induction combos lems g.ids with
  | nil => rfl
  | cons lid lids ih =>
      rw [List.map_cons, withKey_cons, ih, timesIn_cons]
      by_cases h : lid = k
      · rw [if_pos h, if_pos h, Nat.add_comm, List.replicate_succ, h]
      · rw [if_neg h, if_neg h, Nat.zero_add]

/-- The records of all grams that go to the tuple `k`. -/
theorem withKey_flatMap_expanded (grams : List (Gram K)) (k : K) :
    withKey LemAndWords.lids (grams.flatMap (expanded lems)) k
      = grams.flatMap (fun g => List.replicate (timesIn (combos lems g.ids) k)
          { lids := k, wids := g.ids, count := g.weight }) := by
  induction grams with
  | nil => rfl
  | cons g grams ih =>
      rw [List.flatMap_cons, withKey_append, withKey_expanded, ih, List.flatMap_cons]

omit [DecidableEq K] in
/-- A weight that is summed up from zero is a sum. In the rationals the order does not matter. -/
theorem weightOf_eq_sum (run : List (LemAndWords K)) :
    weightOf lems run = (run.map (shareOf (R := ℚ) lems)).sum := by
  have hfold : ∀ (run : List (LemAndWords K)) (w : ℚ),
      run.foldl (fun w it => w + shareOf lems it) w = w + (run.map (shareOf lems)).sum := by
    intro run
    induction run with
    | nil => intro w; exact (add_zero w).symm
    | cons it run ih =>
        intro w
        rw [List.foldl_cons, ih, List.map_cons, List.sum_cons, add_assoc]
  exact (hfold run 0).trans (zero_add _)

omit [DecidableEq K] in
/-- The records of one gram give its share to the tuple. -/
theorem sum_shareOf_replicate (g : Gram K) (k : K) (n : Nat) :
    ((List.replicate n (LemAndWords.mk k g.ids g.weight)).map (shareOf (R := ℚ) lems)).sum
      = share g.weight n (combos lems g.ids).length := by
  rw [List.map_replicate, List.sum_replicate, nsmul_eq_mul]
  show (n : ℚ) * ((g.weight.toNat : ℚ) / ((combos lems g.ids).length : ℚ)) = _
  unfold share
  ring

/-- The weight of the group of `k` in a permutation of the records. -/
theorem weightOf_eq {grams : List (Gram K)} {out : List (LemAndWords K)}
    (hperm : out.Perm (grams.flatMap (expanded lems))) (k : K) :
    weightOf lems (withKey LemAndWords.lids out k) = lemWeight lems grams k := by
  -- A sum does not depend on the order in which the sort left the records.
  have hrun := (hperm.filter (fun it => decide (it.lids = k))).map (shareOf (R := ℚ) lems)
  rw [weightOf_eq_sum, withKey, hrun.sum_eq, ← withKey, withKey_flatMap_expanded, List.map_flatMap,
    List.flatMap, List.sum_flatten, List.map_map]
  refine congrArg List.sum (List.map_congr_left (fun g _ => ?_))
  exact sum_shareOf_replicate lems g k _

end Groups

end Colloc.Proofs

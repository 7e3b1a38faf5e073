import Colloc.Proofs.Corpus
import Colloc.Proofs.GramCounts
import Colloc.Proofs.GroupExact
import Mathlib.Data.List.Dedup

/-!
# `Colloc.Proofs.Marginals`: the weights as marginals

An occurrence of a word, a pair or a triple is distributed over its lemma tuples: `part` is
what one tuple gets. A tuple of lemmas gets the product of the parts of its components
(`part_prod`), and all tuples together get at most one occurrence (`sum_part_le_one`). A
weight is therefore a sum of parts over the corpus (`lemWeight_of_counts`), and the marginal
inequalities come down to two facts: every occurrence of a pair has its own occurrence of a
word, its first or its second one, and every occurrence of a triple has its own occurrence of
a pair.

`accumulate` is the group-by with the accumulated weights as its output, before the
threshold and the scores.
-/

set_option autoImplicit false

namespace Colloc.Proofs

open Colloc.Lib
open Colloc.Spec

/-! ### Parts -/

section Part
variable {K : Type} [LemTuple K] [DecidableEq K] (lems : List (List UInt32))

/-- The part of one occurrence of `k` that goes to the tuple `l`. -/
def part (k l : K) : ℚ :=
  (timesIn (combos lems k) l : ℚ) / ((combos lems k).length : ℚ)

/-- A part is not negative. -/
theorem part_nonneg (k l : K) : 0 ≤ part lems k l := by
  unfold part
  positivity

/-- The share of a record is its count times its part. -/
theorem share_eq (g : Gram K) (l : K) :
    share g.weight (timesIn (combos lems g.ids) l) (combos lems g.ids).length
      = (g.weight.toNat : ℚ) * part lems g.ids l := by
  unfold share part
  ring

/-- The parts of several tuples, over the readings of one key. -/
theorem sum_part (k : K) (ls : List K) :
    (ls.map (part lems k)).sum
      = (ls.map (fun l => (timesIn (combos lems k) l : ℚ))).sum / ((combos lems k).length : ℚ) := by
  have hpart : ls.map (part lems k)
      = ls.map (fun l => (timesIn (combos lems k) l : ℚ)
          * ((combos lems k).length : ℚ)⁻¹) :=
    List.map_congr_left (fun l _ => div_eq_mul_inv _ _)
  rw [hpart, List.sum_map_mul_right, ← div_eq_mul_inv]

/-- The parts of distinct tuples add up to at most one occurrence. -/
theorem sum_part_le_one (k : K) (ls : List K) (hnd : ls.Nodup) :
    (ls.map (part lems k)).sum ≤ 1 := by
  rw [sum_part]
  exact div_le_one_of_le₀ (sum_timesIn_le hnd (combos lems k)) (Nat.cast_nonneg _)

/-- They add up to one occurrence when no tuple of `k` is left out. -/
theorem sum_part_eq_one {k : K} (hne : combos lems k ≠ []) {ls : List K} (hnd : ls.Nodup)
    (h : ∀ l ∈ combos lems k, l ∈ ls) : (ls.map (part lems k)).sum = 1 := by
  -- The divisor is the number of tuples, which is not zero.
  have hlen : ((combos lems k).length : ℚ) ≠ 0 :=
    Nat.cast_ne_zero.mpr (List.length_pos_of_ne_nil hne).ne'
  rw [sum_part, sum_timesIn_of_subset hnd h]
  exact div_self hlen

end Part

/-- The parts of a pair multiply, since its readings are chosen independently. -/
theorem part_prod {A B : Type} [LemTuple A] [LemTuple B] [DecidableEq A] [DecidableEq B]
    (lems : List (List UInt32)) (k l : A × B) :
    part lems k l = part lems k.1 l.1 * part lems k.2 l.2 := by
  unfold part
  rw [timesIn_combos_prod, length_combos_prod]
  push_cast
  exact mul_div_mul_comm _ _ _ _

/-! ### Weights as sums over the corpus -/

section Weights
variable {K : Type} [LemTuple K] [DecidableEq K] (lems : List (List UInt32))

/-- The weight of a tuple is the sum of its parts of the records. -/
theorem lemWeight_eq (grams : List (Gram K)) (l : K) :
    lemWeight lems grams l
      = (grams.map (fun g => (g.weight.toNat : ℚ) * part lems g.ids l)).sum := by
  unfold lemWeight
  exact congrArg List.sum (List.map_congr_left (fun g _ => share_eq lems g l))

/-- The weights of all tuples add up to the weights of the records. Each record shares its count
out among its readings, so nothing is lost. -/
theorem sum_lemWeight {grams : List (Gram K)} (hne : ∀ g ∈ grams, combos lems g.ids ≠ [])
    {ls : List K} (hnd : ls.Nodup) (h : ∀ g ∈ grams, ∀ l ∈ combos lems g.ids, l ∈ ls) :
    (ls.map (lemWeight lems grams)).sum = (grams.map (fun g => (g.weight.toNat : ℚ))).sum := by
  -- Sum by records first: each gives its count to its tuples and to no other ones.
  have hweight : ls.map (lemWeight lems grams) = ls.map (fun l =>
      (grams.map (fun g => (g.weight.toNat : ℚ) * part lems g.ids l)).sum) :=
    List.map_congr_left (fun l _ => lemWeight_eq lems grams l)
  rw [hweight, sum_exchange (fun (g : Gram K) l => (g.weight.toNat : ℚ) * part lems g.ids l)]
  refine congrArg List.sum (List.map_congr_left (fun g hg => ?_))
  rw [List.sum_map_mul_left, sum_part_eq_one lems (hne g hg) hnd (h g hg), mul_one]

omit [LemTuple K] in
/-- The number of occurrences does not wrap. -/
theorem toNat_occurrences {ks : List K} {k : K} (h : timesIn ks k < 2 ^ 32) :
    (occurrences ks k).toNat = timesIn ks k := by
  have hcount : ks.count k = timesIn ks k := rfl
  unfold occurrences
  rw [UInt32.toNat_ofNat', hcount, Nat.mod_eq_of_lt h]

/-- The weight of a tuple over records with the counts of `ks` is the sum of its parts over
the occurrences that are counted. -/
theorem lemWeight_of_counts {grams : List (Gram K)} {ks : List K}
    (hnd : (grams.map Gram.ids).Nodup)
    (hweight : ∀ g ∈ grams, g.weight = occurrences ks g.ids)
    (hcount : ∀ k, timesIn ks k < 2 ^ 32) (l : K) :
    lemWeight lems grams l
      = ((ks.filter (fun k => decide (k ∈ grams.map Gram.ids))).map
          (fun k => part lems k l)).sum := by
  rw [lemWeight_eq, ← sum_timesIn_mul hnd (fun k => part lems k l), List.map_map]
  refine congrArg List.sum (List.map_congr_left (fun g hg => ?_))
  show (g.weight.toNat : ℚ) * part lems g.ids l = (timesIn ks g.ids : ℚ) * _
  rw [hweight g hg, toNat_occurrences (hcount _)]

/-- When every occurrence is counted, it is the sum over all of them. -/
theorem lemWeight_of_all {grams : List (Gram K)} {ks : List K}
    (hnd : (grams.map Gram.ids).Nodup)
    (hweight : ∀ g ∈ grams, g.weight = occurrences ks g.ids)
    (hcount : ∀ k, timesIn ks k < 2 ^ 32) (hall : ∀ k ∈ ks, k ∈ grams.map Gram.ids) (l : K) :
    lemWeight lems grams l = (ks.map (fun k => part lems k l)).sum := by
  rw [lemWeight_of_counts lems hnd hweight hcount, List.filter_eq_self.mpr
    (fun k hk => decide_eq_true (hall k hk))]

end Weights

/-! ### The accumulated weights -/

section Accumulate
variable {K : Type} [LemTuple K] [DecidableEq K] [LawfulTuple K] {lems : List (List UInt32)}

omit [LawfulTuple K] in
/-- The groups of `group_lem2` or `group_lem3` with the weight that `write_one` finds. -/
def accumulate (std : Stdlib) (lems : List (List UInt32)) (grams : RecordFile (Gram K)) :
    Except Error (List (K × ℚ)) :=
  groupLemBy std (fun msg weight => .ok (some (msg.lids, weight))) lems grams

/-- The tuple `l` arises from a gram. -/
def Arises (lems : List (List UInt32)) (grams : List (Gram K)) (l : K) : Prop :=
  ∃ g ∈ grams, l ∈ combos lems g.ids

variable (lems) in
/-- The accumulated weights are the table of the weights of the tuples that arise: the loop of a
group stage, in which every run is emitted. -/
theorem accumulate_spec (std : Stdlib) (grams : RecordFile (Gram K))
    (hcov : ∀ g ∈ grams.msgs, Covered lems g.ids)
    (hne : ∀ g ∈ grams.msgs, combos lems g.ids ≠ [])
    (hmax : (grams.msgs.map (fun g => (combos lems g.ids).length)).sum
      ≤ 80000000 * (2 ^ 32 - 1)) :
    ∃ recs, accumulate std lems grams = .ok recs ∧
      IsTable Prod.fst Prod.snd (Arises lems grams.msgs) (lemWeight lems grams.msgs) recs := by
  obtain ⟨out, hsorted, -, hperm, hok⟩ := groupLemBy_spec (R := ℚ)
    (f := fun r => some (r.1, weightOf lems r.2))
    (fun msg weight => .ok (some (msg.lids, weight))) std hcov hne (fun k run _ _ _ => rfl)
  rw [length_expanded_flatMap] at hperm
  have htable := runs_table LemAndWords.lids out hsorted
  -- Every run is emitted.
  have hmap : (runs LemAndWords.lids out).flatMap
        (fun r => (some (r.1, weightOf (R := ℚ) lems r.2)).toList)
      = (runs LemAndWords.lids out).map (fun r => (r.1, weightOf (R := ℚ) lems r.2)) :=
    List.map_eq_flatMap.symm
  refine ⟨_, hok, ?_⟩
  rw [hmap]
  refine ⟨List.pairwise_map.mpr htable.ascending, fun k hk => ?_, fun r hr => ?_⟩
  · obtain ⟨r, hr, hkey⟩ := htable.complete k ((mem_lids_iff (hperm hmax) k).mpr hk)
    exact ⟨_, List.mem_map_of_mem hr, hkey⟩
  · obtain ⟨run, hmem, rfl⟩ := List.mem_map.mp hr
    obtain ⟨hkey, hrun⟩ := htable.sound run hmem
    refine ⟨(mem_lids_iff (hperm hmax) run.1).mp hkey, ?_⟩
    show weightOf lems run.2 = _
    rw [hrun, weightOf_eq lems (hperm hmax)]

omit [LawfulTuple K] in
/-- A tuple that does not arise has no weight. -/
theorem lemWeight_of_not_arises {grams : List (Gram K)} {l : K} (h : ¬ Arises lems grams l) :
    lemWeight lems grams l = 0 := by
  have hzero : ∀ g ∈ grams, timesIn (combos lems g.ids) l = 0 := by
    intro g hg
    by_contra hne
    exact h ⟨g, hg, timesIn_pos.mp (Nat.pos_of_ne_zero hne)⟩
  unfold lemWeight
  rw [List.map_congr_left (g := fun _ => (0 : ℚ)) (fun g hg => by rw [hzero g hg]; simp [share])]
  simp

omit [LawfulTuple K] in
/-- The accumulated weight of a tuple, `0` when it does not arise. -/
theorem sumAt_accumulated {grams : List (Gram K)} {recs : List (K × ℚ)}
    (h : IsTable Prod.fst Prod.snd (Arises lems grams) (lemWeight lems grams) recs) (l : K) :
    sumAt Prod.fst Prod.snd recs l = lemWeight lems grams l := by
  by_cases hl : Arises lems grams l
  · obtain ⟨r, hr, rfl⟩ := h.complete l hl
    rw [sumAt_of_ascending Prod.fst Prod.snd h.ascending hr, (h.sound r hr).2]
  · rw [lemWeight_of_not_arises hl, sumAt_of_not_mem]
    rw [h.mem_keys_iff]
    exact hl

omit [LawfulTuple K] in
/-- The accumulated weights add up to the weights of the records. The table has all tuples that
arise, each of them once. -/
theorem sum_accumulated {grams : List (Gram K)} {recs : List (K × ℚ)}
    (h : IsTable Prod.fst Prod.snd (Arises lems grams) (lemWeight lems grams) recs)
    (hne : ∀ g ∈ grams, combos lems g.ids ≠ []) :
    (recs.map Prod.snd).sum = (grams.map (fun g => (g.weight.toNat : ℚ))).sum := by
  have hval : recs.map Prod.snd = (recs.map Prod.fst).map (lemWeight lems grams) := by
    rw [List.map_map]
    exact List.map_congr_left (fun r hr => (h.sound r hr).2)
  have hnd := h.ascending.nodup_keys
  rw [hval]
  exact sum_lemWeight lems hne hnd (fun g hg l hl => (h.mem_keys_iff l).mpr ⟨g, hg, hl⟩)

omit [LawfulTuple K] in
/-- The accumulated weights of the tuples with the component `fst` are at most what the
occurrences `ks` give to it, when the parts factor and each of the `ts` has its own one. -/
theorem sumAt_accumulated_le {Y Z : Type} [LemTuple Y] [LemTuple Z] [DecidableEq Y]
    [DecidableEq Z] {grams : List (Gram K)} {recs : List (K × ℚ)} {ts : List K} {ks : List Y}
    (h : IsTable Prod.fst Prod.snd (Arises lems grams) (lemWeight lems grams) recs)
    (hsum : ∀ l, lemWeight lems grams l = (ts.map (fun t => part lems t l)).sum)
    (fst : K → Y) (snd : K → Z) (hinj : ∀ l l', fst l = fst l' → snd l = snd l' → l = l')
    (hpart : ∀ t l, part lems t l = part lems (fst t) (fst l) * part lems (snd t) (snd l))
    (hsub : (ts.map fst).Sublist ks) (y : Y) :
    sumAt (fun r : K × ℚ => fst r.1) Prod.snd recs y
      ≤ (ks.map (fun k => part lems k y)).sum := by
  have hnd := h.ascending.nodup_keys
  -- The bound over the observations `ts`, and from these to all occurrences `ks`.
  have hmarginal := marginal_le ts hnd fst snd hinj (fun t y => part lems (fst t) y)
    (fun t z => part lems (snd t) z) (fun t y => part_nonneg lems (fst t) y)
    (fun t zs hzs => sum_part_le_one lems (snd t) zs hzs) y
  have hfilter : withKey fst (recs.map Prod.fst) y
      = (withKey (fun r : K × ℚ => fst r.1) recs y).map Prod.fst := by
    unfold withKey
    rw [List.filter_map]
    rfl
  have hval : sumAt (fun r : K × ℚ => fst r.1) Prod.snd recs y
      = ((withKey fst (recs.map Prod.fst) y).map (fun l => (ts.map (fun t =>
          part lems (fst t) (fst l) * part lems (snd t) (snd l))).sum)).sum := by
    rw [hfilter, List.map_map]
    refine congrArg List.sum (List.map_congr_left (fun r hr => ?_))
    rw [(h.sound r (List.mem_of_mem_filter hr)).2, hsum]
    exact congrArg List.sum (List.map_congr_left (fun t _ => hpart t r.1))
  -- The parts are not negative, so more occurrences give more.
  have hsublist : (ts.map (fun t => part lems (fst t) y)).sum
      ≤ (ks.map (fun k => part lems k y)).sum := by
    have hmap := hsub.map (fun k => part lems k y)
    rw [List.map_map] at hmap
    refine hmap.sum_le_sum (fun x hx => ?_)
    obtain ⟨k, -, rfl⟩ := List.mem_map.mp hx
    exact part_nonneg lems k y
  rw [hval]
  exact hmarginal.trans hsublist

end Accumulate

/-! ### The results -/

/-- `lid_w` adds up to the weights of the words. Each word shares its weight out among its lemmas,
and loses none of it. -/
theorem sum_lidW (std : Stdlib) {lems : List (List UInt32)} {uni : RecordFile Unigram}
    (hcov : ∀ m ∈ uni.msgs, Covered lems m.id) (hne : ∀ m ∈ uni.msgs, combos lems m.id ≠ [])
    {lidW : FlatHashMap UInt32 ℚ} (hok : buildLemWeights uni lems = .ok lidW) :
    ((lidW.iter std).map Prod.snd).sum = (uni.msgs.map (fun m => (m.weight.toNat : ℚ))).sum := by
  obtain ⟨lidW', hok', hkeys⟩ := buildLemWeights_ok (R := ℚ) lems hcov
  have hsame : lidW = lidW' := Except.ok.inj (hok.symm.trans hok')
  -- `lid_w` maps each lemma to its weight.
  have hval : (lidW.iter std).map Prod.snd
      = ((lidW.iter std).map Prod.fst).map (lemWeight lems (uni.msgs.map unigramOf)) := by
    rw [List.map_map]
    refine List.map_congr_left (fun e he => ?_)
    have hlook := (FlatHashMap.mem_iter std lidW e.1 e.2).mp he
    show e.2 = lemWeight lems _ e.1
    rw [← buildLemWeights_getD hcov hok, hlook]
    rfl
  rw [hval, sum_lemWeight lems ?_ (FlatHashMap.nodup_iter_keys std lidW) ?_, List.map_map]
  · rfl
  · intro g hg
    obtain ⟨m, hm, rfl⟩ := List.mem_map.mp hg
    exact hne m hm
  · intro g hg l hl
    obtain ⟨m, hm, rfl⟩ := List.mem_map.mp hg
    have hsome : (lidW.lookup l).isSome := by
      rw [hsame, hkeys]
      exact ⟨m, hm, hl⟩
    obtain ⟨w, hw⟩ := Option.isSome_iff_exists.mp hsome
    exact List.mem_map.mpr ⟨(l, w), (FlatHashMap.mem_iter std lidW l w).mpr hw, rfl⟩

/-- The number of records that the extension of these tuples writes. -/
def extendedCount {K : Type} [LemTuple K] (lems : List (List UInt32)) (ks : List K) : Nat :=
  (ks.map (fun k => (combos lems k).length)).sum

instance {R : Type} (bifiltered : RecordFile (Lem2Group R)) (p : Idd) :
    Decidable (FilteredPair bifiltered p) :=
  inferInstanceAs (Decidable (∃ lg ∈ bifiltered.msgs, ∃ cs ∈ lg.cases, cs.wids = p))

/-- The triples of the corpus with a filtered pair. -/
def filteredTriples {R : Type} (bifiltered : RecordFile (Lem2Group R)) (corpus : List Phrase) :
    List Iddd :=
  (corpus.flatMap triples).filter (fun t =>
    decide (FilteredPair bifiltered (t.1, t.2.1) ∨ FilteredPair bifiltered (t.2.1, t.2.2)))

/-- No `u32` wraps: the ids of the words, their counts, the numbers of the chunks and of the
parts that are sorted on disk. -/
structure NoWrap {R : Type} (lems : List (List UInt32)) (bifiltered : RecordFile (Lem2Group R))
    (c : Converted) : Prop where
  words : c.uni.msgs.length < 2 ^ 32
  counts : ∀ w, timesIn c.corpus.flatten w < 2 ^ 32
  chunks : partCount chunkFull c.corpus ≤ 2 ^ 32
  pairs : extendedCount lems (c.corpus.flatMap pairs).dedup ≤ 80000000 * (2 ^ 32 - 1)
  triples : extendedCount lems (filteredTriples bifiltered c.corpus).dedup
    ≤ 80000000 * (2 ^ 32 - 1)

/-- The weights are consistent: the weights of the lemmas and of the pairs add up to the
counts of the words and of the pairs of words, and a pair or a triple has at most the weight
of its components. -/
structure Consistent (std : Stdlib) (uni : RecordFile Unigram) (bi : RecordFile Bigram)
    (lidW : FlatHashMap UInt32 ℚ) (recs2 : List (Idd × ℚ)) (recs3 : List (Iddd × ℚ)) : Prop where
  uni : ((lidW.iter std).map Prod.snd).sum = (uni.msgs.map (fun m => (m.weight.toNat : ℚ))).sum
  bi : (recs2.map Prod.snd).sum = (bi.msgs.map (fun g => (g.weight.toNat : ℚ))).sum
  left : ∀ l, sumAt (fun r : Idd × ℚ => r.1.1) Prod.snd recs2 l ≤ lidWeight lidW l
  right : ∀ l, sumAt (fun r : Idd × ℚ => r.1.2) Prod.snd recs2 l ≤ lidWeight lidW l
  tri : ∀ p, sumAt (fun r : Iddd × ℚ => (r.1.1, r.1.2.1)) Prod.snd recs3 p
    ≤ sumAt Prod.fst Prod.snd recs2 p

section Table
variable {K : Type} [LemTuple K] [DecidableEq K] {out : List (Gram K)} {P : K → Prop}
  {f : K → UInt32}

/-- The records of a table extend to those of its tuples, whose number does not depend on the
order of the table. -/
theorem extendedCount_eq (lems : List (List UInt32)) (h : IsTable Gram.ids Gram.weight P f out)
    {ks : List K} (hks : ∀ k, k ∈ ks ↔ P k) :
    (out.map (fun g => (combos lems g.ids).length)).sum = extendedCount lems ks.dedup := by
  -- A table has each key once.
  have hperm : (out.map Gram.ids).Perm ks.dedup := by
    refine (List.perm_ext_iff_of_nodup h.ascending.nodup_keys (List.nodup_dedup ks)).mpr
      (fun k => ?_)
    rw [h.mem_keys_iff, List.mem_dedup, hks]
  have hsum := (hperm.map (fun k => (combos lems k).length)).sum_eq
  rw [List.map_map] at hsum
  exact hsum

end Table

/-! ### The corpus -/

/-- A filtered triple is one of the corpus that begins or ends with a filtered pair. -/
theorem mem_filteredTriples {R : Type} {bifiltered : RecordFile (Lem2Group R)}
    {corpus : List Phrase} (t : Iddd) :
    t ∈ filteredTriples bifiltered corpus ↔ t ∈ corpus.flatMap triples ∧
      (FilteredPair bifiltered (t.1, t.2.1) ∨ FilteredPair bifiltered (t.2.1, t.2.2)) := by
  unfold filteredTriples
  rw [List.mem_filter, decide_eq_true_eq]

section Corpus
variable {lems : List (List UInt32)} {corpus : List Phrase}

/-- No pair is counted more often than its first word. -/
theorem timesIn_pairs_lt (hcount : ∀ w, timesIn corpus.flatten w < 2 ^ 32) (p : Idd) :
    timesIn (corpus.flatMap Lib.pairs) p < 2 ^ 32 :=
  calc timesIn (corpus.flatMap Lib.pairs) p
      ≤ timesIn ((corpus.flatMap Lib.pairs).map Prod.fst) p.1 :=
        timesIn_le_map Prod.fst _ p
    _ ≤ timesIn corpus.flatten p.1 :=
        timesIn_le_of_sublist (map_fst_flatMap_pairs_sublist corpus) p.1
    _ < 2 ^ 32 := hcount p.1

/-- A triple occurs no more often than its first word. -/
theorem timesIn_triples_lt (hcount : ∀ w, timesIn corpus.flatten w < 2 ^ 32)
    (t : Iddd) : timesIn (corpus.flatMap Lib.triples) t < 2 ^ 32 :=
  calc timesIn (corpus.flatMap Lib.triples) t
      ≤ timesIn ((corpus.flatMap Lib.triples).map (fun t => (t.1, t.2.1))) (t.1, t.2.1) :=
        timesIn_le_map (fun t => (t.1, t.2.1)) _ t
    _ ≤ timesIn (corpus.flatMap Lib.pairs) (t.1, t.2.1) :=
        timesIn_le_of_sublist (map_init_flatMap_triples_sublist corpus) _
    _ < 2 ^ 32 := timesIn_pairs_lt hcount _

variable (lems) in
/-- The weight of a pair of lemmas, as a sum over the pairs of the corpus. -/
theorem lemWeight_pairs (hcount : ∀ w, timesIn corpus.flatten w < 2 ^ 32) {bi : List Bigram}
    (h : BigramTable corpus bi) (l : Idd) :
    lemWeight lems bi l = ((corpus.flatMap Lib.pairs).map (fun p => part lems p l)).sum :=
  lemWeight_of_all lems h.ascending.nodup_keys (fun g hg => (h.sound g hg).2)
    (timesIn_pairs_lt hcount) (fun p hp => (h.mem_keys_iff p).mpr hp) l

variable (lems) in
/-- The weight of a triple of lemmas, as a sum over the triples of the corpus that are
counted. -/
theorem lemWeight_triples {B : Idd → Prop}
    (hcount : ∀ w, timesIn corpus.flatten w < 2 ^ 32) {tri : List Trigram}
    (h : TrigramTable B corpus tri) :
    ∃ ts : List Iddd, ts.Sublist (corpus.flatMap Lib.triples) ∧
      ∀ l, lemWeight lems tri l = (ts.map (fun t => part lems t l)).sum :=
  ⟨_, List.filter_sublist, fun l =>
    lemWeight_of_counts lems h.ascending.nodup_keys (fun g hg => (h.sound g hg).2)
      (timesIn_triples_lt hcount) l⟩

/-- The weight of a lemma in `lid_w`, as a sum over the words of the corpus: each occurrence gives
its share. No count has wrapped around. -/
theorem lidWeight_words {uni : RecordFile Unigram} (huni : ListsWords uni corpus.flatten)
    (hcount : ∀ w, timesIn corpus.flatten w < 2 ^ 32)
    (hcov : ∀ m ∈ uni.msgs, Covered lems m.id) {lidW : FlatHashMap UInt32 ℚ}
    (hok : buildLemWeights uni lems = .ok lidW) (l : UInt32) :
    lidWeight lidW l = (corpus.flatten.map (fun w => part lems w l)).sum := by
  -- `uni.bin` is a table of the words of the corpus with their counts.
  have hids : (uni.msgs.map unigramOf).map Gram.ids = uni.msgs.map StrIdWeight.id :=
    List.map_map
  rw [lidWeight, buildLemWeights_getD hcov hok]
  refine lemWeight_of_all lems (hids ▸ huni.nodup) (fun g hg => ?_) hcount
    (fun w hw => hids ▸ (huni.mem_iff w).mpr hw) l
  obtain ⟨m, hm, rfl⟩ := List.mem_map.mp hg
  exact huni.weight m hm

end Corpus

/-- The marginals of the files that `convert`, `bigram_stat` and `trigram_stat` wrote. A word
begins at most as many pairs as it has occurrences, and a pair at most as many triples; each of
them shares its weight out among its lemmas. -/
theorem consistent_of_tables (std : Stdlib) {lems : List (List UInt32)} {corpus : List Phrase}
    {uni : RecordFile Unigram} {bi : RecordFile Bigram} {tri : RecordFile Trigram}
    {B : Idd → Prop} (hcount : ∀ w, timesIn corpus.flatten w < 2 ^ 32)
    (hlems : HaveLemmas lems corpus) (huni : ListsWords uni corpus.flatten)
    (hbi : BigramTable corpus bi.msgs) (htri : TrigramTable B corpus tri.msgs)
    {lidW : FlatHashMap UInt32 ℚ} (hok : buildLemWeights uni lems = .ok lidW)
    {recs2 : List (Idd × ℚ)} {recs3 : List (Iddd × ℚ)}
    (h2 : IsTable Prod.fst Prod.snd (Arises lems bi.msgs) (lemWeight lems bi.msgs) recs2)
    (h3 : IsTable Prod.fst Prod.snd (Arises lems tri.msgs) (lemWeight lems tri.msgs) recs3) :
    Consistent std uni bi lidW recs2 recs3 := by
  have hword : ∀ m ∈ uni.msgs, Covered lems m.id ∧ combos lems m.id ≠ [] :=
    fun m hm => hlems m.id ((huni.mem_iff m.id).mp (List.mem_map_of_mem hm))
  have hlid := lidWeight_words huni hcount (fun m hm => (hword m hm).1) hok
  have hpair := lemWeight_pairs lems hcount hbi
  refine ⟨sum_lidW std (fun m hm => (hword m hm).1) (fun m hm => (hword m hm).2) hok,
    sum_accumulated h2 (fun g hg => (hlems.window windowsOf_pairs (hbi.sound g hg).1).2),
    fun l => ?_, fun l => ?_, fun p => ?_⟩
  · -- Every occurrence of a pair has its own occurrence of its first word.
    rw [hlid]
    exact sumAt_accumulated_le h2 hpair Prod.fst Prod.snd (fun _ _ => Prod.ext)
      (part_prod lems) (map_fst_flatMap_pairs_sublist corpus) l
  · -- It has its own occurrence of its second word too.
    rw [hlid]
    refine sumAt_accumulated_le h2 hpair Prod.snd Prod.fst
      (fun _ _ hsnd hfst => Prod.ext hfst hsnd) (fun t l => ?_)
      (map_snd_flatMap_pairs_sublist corpus) l
    rw [part_prod, mul_comm]
  · -- Every occurrence of a triple has its own occurrence of its first pair.
    obtain ⟨ts, hsub, htriple⟩ := lemWeight_triples lems hcount htri
    rw [sumAt_accumulated h2, hpair]
    refine sumAt_accumulated_le h3 htriple (fun t => (t.1, t.2.1)) (fun t => t.2.2)
      (fun t t' hinit hlast => ?_) (fun t l => ?_)
      ((hsub.map _).trans (map_init_flatMap_triples_sublist corpus)) p
    · obtain ⟨h1, h2⟩ := Prod.mk.inj hinit
      exact Prod.ext h1 (Prod.ext h2 hlast)
    · rw [part_prod, part_prod, part_prod, mul_assoc]

/-- The lemma weights of a corpus that `convert` wrote are consistent marginals, for each
table of lemmas with an entry for each word and no empty entry, and every set of filtered
pairs. -/
theorem marginals_consistent {R : Type} [Double R] (std : Stdlib) (lib : Baalbek)
    (dcorpus dsave : String) (tree : List (DirEntry (List Bytes))) (start limit : Nat)
    {c : Converted} (hc : convert std lib dcorpus tree start limit = c)
    (lems : List (List UInt32)) (bifiltered : RecordFile (Lem2Group R))
    (hne : ∀ lids ∈ lems, lids ≠ []) (hlen : c.uni.msgs.length ≤ lems.length)
    (hwrap : NoWrap lems bifiltered c) :
    ∃ lidW bi biDir tri triDir recs2 recs3,
      buildLemWeights c.uni lems = .ok lidW ∧
      bigramStat std dsave c.corpus ∅ = .ok (bi, biDir) ∧
      trigramStat std dsave bifiltered c.corpus ∅ = .ok (tri, triDir) ∧
      accumulate std lems bi = .ok recs2 ∧ accumulate std lems tri = .ok recs3 ∧
      Consistent std c.uni bi lidW recs2 recs3 := by
  obtain ⟨-, -, -, -, hlists⟩ := convert_spec (P := fun _ => True) std lib dcorpus tree start
    limit (fun _ _ _ _ => trivial)
  rw [hc] at hlists
  have huni := hlists hwrap.words
  -- The ids of the words are the positions of the table.
  have hcov : ∀ m ∈ c.uni.msgs, Covered lems m.id := by
    intro m hm
    have hlt := huni.index_lt m hm
    exact (covered_word_iff lems m.id).mpr (by omega)
  have hlems : HaveLemmas lems c.corpus := by
    intro w hw
    obtain ⟨m, hm, rfl⟩ := List.mem_map.mp ((huni.mem_iff w).mpr hw)
    exact ⟨hcov m hm, hne _ (combos_mem_of_covered lems (hcov m hm))⟩
  obtain ⟨lidW, hlidW, -⟩ := buildLemWeights_ok (R := ℚ) lems hcov
  obtain ⟨bi, biDir, hbiok, hbi⟩ := bigramStatBy_fresh std chunkFull dsave c.corpus hwrap.chunks
  obtain ⟨tri, triDir, htriok, htri⟩ := trigramStatBy_fresh std chunkFull dsave bifiltered
    c.corpus hwrap.chunks
  obtain ⟨recs2, hrecs2, h2⟩ := accumulate_spec lems std { total := 0, msgs := bi }
    (fun g hg => (hlems.window windowsOf_pairs (hbi.sound g hg).1).1)
    (fun g hg => (hlems.window windowsOf_pairs (hbi.sound g hg).1).2)
    (by rw [extendedCount_eq lems hbi (fun k => Iff.rfl)]; exact hwrap.pairs)
  obtain ⟨recs3, hrecs3, h3⟩ := accumulate_spec lems std { total := 0, msgs := tri }
    (fun g hg => (hlems.window windowsOf_triples (htri.sound g hg).1.1).1)
    (fun g hg => (hlems.window windowsOf_triples (htri.sound g hg).1.1).2)
    (by rw [extendedCount_eq lems htri mem_filteredTriples]; exact hwrap.triples)
  exact ⟨lidW, _, biDir, _, triDir, recs2, recs3, hlidW, hbiok, htriok, hrecs2, hrecs3,
    consistent_of_tables std hwrap.counts hlems huni hbi htri hlidW h2 h3⟩

/-- A library that takes every byte of a text for a word of one letter. -/
def letterLib : Baalbek :=
  { wordBreakDocument := fun buff => buff.map (fun b => ⟨false, [1072 + b.toNat]⟩)
    makeDocumentImage := fun _ => []
    strtolower := id
    widetombcs := fun s => s.map UInt8.ofNat
    mbcstowide := fun b => b.map UInt8.toNat }

/-- The text of the words `1`, `2`, `1`, where the second word is a homonym. Its pairs and its
triple are shared out by two lemmas. -/
theorem marginals_consistent_letters :
    ∃ lidW bi tri recs2 recs3,
      buildLemWeights { total := 2, msgs := [⟨[48], 1, 2⟩, ⟨[49], 2, 1⟩] } [[1], [1, 2]]
        = .ok lidW ∧
      bigramStat Stdlib.sorting "save" [[1, 2, 1], []] ∅ = .ok bi ∧
      trigramStat Stdlib.sorting "save" onePair [[1, 2, 1], []] ∅ = .ok tri ∧
      accumulate Stdlib.sorting [[1], [1, 2]] bi.1 = .ok recs2 ∧
      accumulate Stdlib.sorting [[1], [1, 2]] tri.1 = .ok recs3 ∧
      Consistent Stdlib.sorting { total := 2, msgs := [⟨[48], 1, 2⟩, ⟨[49], 2, 1⟩] } bi.1 lidW
        recs2 recs3 := by
  have hcount : ∀ w, timesIn ([[1, 2, 1], []] : List Phrase).flatten w < 2 ^ 32 := by
    intro w
    have hle := timesIn_le_length ([[1, 2, 1], []] : List Phrase).flatten w
    exact lt_of_le_of_lt hle (by decide)
  have hconvert : convert Stdlib.sorting letterLib "corpus/" [.reg "a.zip" [[0, 1, 0]]] 0 0
      = { corpus := [[1, 2, 1], []]
          uni := { total := 2, msgs := [⟨[48], 1, 2⟩, ⟨[49], 2, 1⟩] }
          totalCount := 1 } := rfl
  obtain ⟨lidW, bi, biDir, tri, triDir, recs2, recs3, hlidW, hbi, htri, h2, h3, h⟩ :=
    marginals_consistent Stdlib.sorting letterLib "corpus/" "save" [.reg "a.zip" [[0, 1, 0]]] 0 0
      hconvert [[1], [1, 2]] onePair (by decide) (by decide)
      ⟨by decide, hcount, by decide, by decide, by decide⟩
  exact ⟨lidW, (bi, biDir), (tri, triDir), recs2, recs3, hlidW, hbi, htri, h2, h3, h⟩

end Colloc.Proofs

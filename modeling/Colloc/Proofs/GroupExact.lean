import Colloc.Lib.Index
import Colloc.Proofs.Groups
import Mathlib.Algebra.Order.BigOperators.Group.List
import Mathlib.Tactic.FieldSimp
import Mathlib.Tactic.NormNum

/-!
# `Colloc.Proofs.GroupExact`: `group_lem2` and `group_lem3` in exact rationals

`GroupFile` describes the group file over any score: one group for each lemma tuple that
arises from a gram and whose score is above zero, with the words it arises from as its cases
and with its score as its weight. `groupFile_of_runs` proves it of the runs of the sorted
records.

`GroupsExact` says what the group file is for: the tuples are those with a weight above the
threshold. A group file is exact when the score is a positive factor times the weight above
the threshold (`GroupFile.exact`), and `groupLemBy_exact` is the group-by with such a score.
The scores of `group_lem2` and `group_lem3` have this form (`score2_eq`, `score3_eq`), because
every lemma of a word with a positive count has a positive weight.

The external sort opens the parts below a `u32` counter. With `80,000,000 * 2 ^ 32` records
the counter is back at zero, and the group file is empty (`groupLem2_wraps`).
-/

set_option autoImplicit false

namespace Colloc.Proofs

open Colloc.Lib
open Colloc.Spec
open StrictTotal (less)

/-! ### The statement -/

/-- How often the pair of lemmas `l` is a pair of lemmas of the words of `g`. -/
def pairMult (lems : List (List UInt32)) (g : Bigram) (l : Idd) : Nat :=
  timesIn (combos lems g.ids.1) l.1 * timesIn (combos lems g.ids.2) l.2

/-- The number of pairs of lemmas of the words of `g`. -/
def pairTimes (lems : List (List UInt32)) (g : Bigram) : Nat :=
  (combos lems g.ids.1).length * (combos lems g.ids.2).length

/-- How often the triple of lemmas `l` is a triple of lemmas of the words of `g`. -/
def tripleMult (lems : List (List UInt32)) (g : Trigram) (l : Iddd) : Nat :=
  timesIn (combos lems g.ids.1) l.1 * (timesIn (combos lems g.ids.2.1) l.2.1
    * timesIn (combos lems g.ids.2.2) l.2.2)

/-- The number of triples of lemmas of the words of `g`. -/
def tripleTimes (lems : List (List UInt32)) (g : Trigram) : Nat :=
  (combos lems g.ids.1).length * ((combos lems g.ids.2.1).length
    * (combos lems g.ids.2.2).length)

section Statement
variable {K : Type}

/-- The weight of the tuple `k` over the records, which go to it `mult` of `times` times. -/
def weightBy (mult : Gram K → K → Nat) (times : Gram K → Nat) (grams : List (Gram K)) (k : K) :
    ℚ :=
  (grams.map (fun g => share g.weight (mult g k) (times g))).sum

/-- The cases of the tuple `k`: each record as often as it goes to `k`. -/
def casesBy (mult : Gram K → K → Nat) (grams : List (Gram K)) (k : K) : List (Case K) :=
  grams.flatMap (fun g => List.replicate (mult g k) { wids := g.ids, count := g.weight })

/-- The groups of the tuples with a weight above `t`, each with its cases and its score. -/
structure GroupsExact [StrictTotal K] (mult : Gram K → K → Nat) (times : Gram K → Nat)
    (score : ℚ → K → ℚ) (t : ℚ) (grams : List (Gram K)) (out : List (LemGroup K ℚ)) : Prop where
  ascending : Ascending LemGroup.lids out
  complete : ∀ k, (∃ g ∈ grams, 0 < mult g k) → t < weightBy mult times grams k →
    ∃ m ∈ out, m.lids = k
  sound : ∀ m ∈ out,
    (∃ g ∈ grams, 0 < mult g m.lids) ∧ t < weightBy mult times grams m.lids
  cases : ∀ m ∈ out, m.cases.Perm (casesBy mult grams m.lids)
  weight : ∀ m ∈ out, m.weight = score (weightBy mult times grams m.lids) m.lids

end Statement

/-- The multiplicity of a pair of lemmas counts it among the readings. -/
theorem pairMult_eq (lems : List (List UInt32)) :
    pairMult lems = fun g l => timesIn (combos lems g.ids) l := by
  funext g l
  exact (timesIn_combos_prod lems g.ids l).symm

/-- The number of readings of a pair of words. -/
theorem pairTimes_eq (lems : List (List UInt32)) :
    pairTimes lems = fun g => (combos lems g.ids).length := by
  funext g
  exact (length_combos_prod lems g.ids).symm

/-- The multiplicity of a triple of lemmas counts it among the readings. -/
theorem tripleMult_eq (lems : List (List UInt32)) :
    tripleMult lems = fun g l => timesIn (combos lems g.ids) l := by
  funext g l
  rw [timesIn_combos_prod, timesIn_combos_prod]
  rfl

/-- The number of readings of a triple of words. -/
theorem tripleTimes_eq (lems : List (List UInt32)) :
    tripleTimes lems = fun g => (combos lems g.ids).length := by
  funext g
  rw [length_combos_prod, length_combos_prod]
  rfl

/-! ### Positive weights -/

section Positive
variable {K : Type} [LemTuple K] [DecidableEq K] {lems : List (List UInt32)}

/-- A tuple that arises from a record with a positive count has a positive weight, as its share of
this record is positive and the other shares are not negative. -/
theorem lemWeight_pos {grams : List (Gram K)} {g : Gram K} (hg : g ∈ grams)
    (hpos : g.weight ≠ 0) {k : K} (hk : k ∈ combos lems g.ids) : 0 < lemWeight lems grams k := by
  have hshare : 0 < share g.weight (timesIn (combos lems g.ids) k)
      (combos lems g.ids).length := by
    have hcount : 0 < g.weight.toNat := by
      refine Nat.pos_of_ne_zero (fun h0 => hpos ?_)
      exact UInt32.toNat_inj.mp (h0.trans UInt32.toNat_zero.symm)
    have hmult := timesIn_pos.mpr hk
    have htimes := List.length_pos_of_mem hk
    unfold share
    positivity
  -- No share is negative, so one positive share is enough.
  refine lt_of_lt_of_le hshare (List.single_le_sum (fun x hx => ?_) _ ?_)
  · obtain ⟨g', -, rfl⟩ := List.mem_map.mp hx
    exact share_nonneg _ _ _
  · exact List.mem_map.mpr ⟨g, hg, rfl⟩

end Positive

/-! ### The group file -/

section File
variable {K : Type} [LemTuple K] [DecidableEq K] {lems : List (List UInt32)}

/-- The cases of the tuple `k`: each record as often as it goes to `k`. -/
abbrev casesIn (lems : List (List UInt32)) (grams : List (Gram K)) (k : K) : List (Case K) :=
  casesBy (fun g k => timesIn (combos lems g.ids) k) grams k

/-- The groups of the tuples that arise from the grams and have a score above zero, in
ascending order. -/
structure GroupFile (lems : List (List UInt32)) (score : ℚ → K → Except Error ℚ)
    (grams : List (Gram K)) (out : List (LemGroup K ℚ)) : Prop where
  ascending : Ascending LemGroup.lids out
  complete : ∀ k s, (∃ g ∈ grams, k ∈ combos lems g.ids) →
    score (lemWeight lems grams k) k = .ok s → 0 < s → ∃ lg ∈ out, lg.lids = k
  arises : ∀ lg ∈ out, ∃ g ∈ grams, lg.lids ∈ combos lems g.ids
  weight : ∀ lg ∈ out, score (lemWeight lems grams lg.lids) lg.lids = .ok lg.weight
  positive : ∀ lg ∈ out, 0 < lg.weight
  cases : ∀ lg ∈ out, lg.cases.Perm (casesIn lems grams lg.lids)

/-- The tuples of the groups are those that arise with a score above zero. A group with another
score is not written. -/
theorem GroupFile.mem_lids_iff {score : ℚ → K → Except Error ℚ} {grams : List (Gram K)}
    {out : List (LemGroup K ℚ)} (h : GroupFile lems score grams out) {k : K} {s : ℚ}
    (hs : score (lemWeight lems grams k) k = .ok s) :
    k ∈ out.map LemGroup.lids ↔ (∃ g ∈ grams, k ∈ combos lems g.ids) ∧ 0 < s := by
  constructor
  · intro hk
    obtain ⟨lg, hlg, rfl⟩ := List.mem_map.mp hk
    have hweight := h.weight lg hlg
    rw [hs] at hweight
    rw [Except.ok.inj hweight]
    exact ⟨h.arises lg hlg, h.positive lg hlg⟩
  · rintro ⟨hk, hpos⟩
    obtain ⟨lg, hlg, rfl⟩ := h.complete k s hk hs hpos
    exact List.mem_map_of_mem hlg

omit [DecidableEq K] in
/-- A run is written when its score is above zero, with the score as its weight. A score that
fails writes nothing. -/
theorem mem_emittedBy {score : ℚ → K → Except Error ℚ} {r : K × List (LemAndWords K)}
    {lg : LemGroup K ℚ} :
    lg ∈ (emittedBy (emitBy score) lems r).toList ↔
      ∃ s, score (weightOf lems r.2) r.1 = .ok s ∧ 0 < s ∧
        lg = { groupMsg (R := ℚ) r with weight := s } := by
  have hlids : (groupMsg (R := ℚ) r).lids = r.1 := rfl
  unfold emittedBy emitBy
  rw [hlids]
  cases score (weightOf lems r.2) r.1 with
  | error e => simp
  | ok s =>
      have hless : Double.less (0 : ℚ) s = true ↔ 0 < s := decide_eq_true_iff
      by_cases hs : 0 < s
      · simp [hless, hs, hlids]
      · simp [hless, hs]

omit [DecidableEq K] in
/-- A tuple has a run if and only if it arises from a gram. The sort keeps the records, so all of
one tuple stand together. -/
theorem mem_lids_iff {grams : List (Gram K)} {out : List (LemAndWords K)}
    (hperm : out.Perm (grams.flatMap (expanded lems))) (k : K) :
    k ∈ out.map LemAndWords.lids ↔ ∃ g ∈ grams, k ∈ combos lems g.ids := by
  rw [(hperm.map LemAndWords.lids).mem_iff, List.mem_map]
  constructor
  · rintro ⟨it, hit, rfl⟩
    obtain ⟨g, hg, hmem⟩ := List.mem_flatMap.mp hit
    exact ⟨g, hg, ((mem_expanded lems).mp hmem).1⟩
  · rintro ⟨g, hg, hk⟩
    exact ⟨⟨k, g.ids, g.weight⟩, List.mem_flatMap.mpr
      ⟨g, hg, (mem_expanded lems).mpr ⟨hk, rfl, rfl⟩⟩, rfl⟩

omit [DecidableEq K] in
/-- A group has the ids of its run, so the groups of ascending runs ascend. Runs that are not
written leave no gap in the order. -/
theorem ascending_emitted {score : ℚ → K → Except Error ℚ} {rs : List (K × List (LemAndWords K))}
    (h : Ascending Prod.fst rs) :
    Ascending LemGroup.lids
      (rs.flatMap (fun r => (emittedBy (emitBy score) lems r).toList)) := by
  have hlids : ∀ r, ∀ lg ∈ (emittedBy (emitBy score) lems r).toList, lg.lids = r.1 := by
    intro r lg hlg
    obtain ⟨s, -, -, rfl⟩ := mem_emittedBy.mp hlg
    rfl
  refine List.pairwise_flatMap.mpr ⟨fun r _ => ?_, h.imp (fun {a b} hab => ?_)⟩
  · cases emittedBy (emitBy score) lems r with
    | none => exact List.Pairwise.nil
    | some lg => exact List.pairwise_singleton _ _
  · intro x hx y hy
    rw [hlids a x hx, hlids b y hy]
    exact hab

/-- The cases of a run are those of the records with its ids. -/
theorem casesIn_of_perm {grams : List (Gram K)} {recs : List (LemAndWords K)}
    (hperm : recs.Perm (grams.flatMap (expanded lems))) (k : K) :
    ((withKey LemAndWords.lids recs k).map caseOf).Perm (casesIn lems grams k) := by
  have hcases := (hperm.filter (fun it => decide (it.lids = k))).map caseOf
  refine hcases.trans (List.Perm.of_eq ?_)
  show (withKey LemAndWords.lids _ k).map caseOf = _
  rw [withKey_flatMap_expanded, List.map_flatMap]
  simp only [List.map_replicate]
  rfl

/-- The groups of sorted records. A run of equal tuples has all records of its tuple, so its
weight is that of the tuple, and it is written when the score of this is above zero. -/
theorem groupFile_of_runs {score : ℚ → K → Except Error ℚ} {grams : List (Gram K)}
    {recs : List (LemAndWords K)} (hperm : recs.Perm (grams.flatMap (expanded lems)))
    (hsorted : SortedBy LemAndWords.lids recs) :
    GroupFile lems score grams ((runs LemAndWords.lids recs).flatMap
      (fun r => (emittedBy (emitBy score) lems r).toList)) := by
  have htable := runs_table LemAndWords.lids recs hsorted
  have hrun : ∀ r ∈ runs LemAndWords.lids recs, r.2 = withKey LemAndWords.lids recs r.1 :=
    fun r hr => (htable.sound r hr).2
  -- A group in the file: its run, and a score above zero.
  have hmem : ∀ lg, lg ∈ (runs LemAndWords.lids recs).flatMap
        (fun r => (emittedBy (emitBy score) lems r).toList) ↔
      ∃ r ∈ runs LemAndWords.lids recs, ∃ s, score (lemWeight lems grams r.1) r.1 = .ok s ∧
        0 < s ∧ lg = { groupMsg (R := ℚ) r with weight := s } := by
    intro lg
    rw [List.mem_flatMap]
    refine exists_congr (fun r => and_congr_right (fun hr => ?_))
    rw [mem_emittedBy, hrun r hr, weightOf_eq lems hperm]
  refine ⟨ascending_emitted htable.ascending, fun k s hk hs hpos => ?_, fun lg hlg => ?_,
    fun lg hlg => ?_, fun lg hlg => ?_, fun lg hlg => ?_⟩
  · obtain ⟨r, hr, rfl⟩ := htable.complete k ((mem_lids_iff hperm k).mpr hk)
    exact ⟨_, (hmem _).mpr ⟨r, hr, s, hs, hpos, rfl⟩, rfl⟩
  · obtain ⟨r, hr, s, -, -, rfl⟩ := (hmem lg).mp hlg
    exact (mem_lids_iff hperm r.1).mp (htable.sound r hr).1
  · obtain ⟨r, hr, s, hs, -, rfl⟩ := (hmem lg).mp hlg
    exact hs
  · obtain ⟨r, hr, s, -, hpos, rfl⟩ := (hmem lg).mp hlg
    exact hpos
  · obtain ⟨r, hr, s, -, -, rfl⟩ := (hmem lg).mp hlg
    show (r.2.map caseOf).Perm _
    rw [hrun r hr]
    exact casesIn_of_perm hperm r.1

end File

/-! ### The group-by -/

section Exact
variable {K : Type} [LemTuple K] [DecidableEq K] [LawfulTuple K] {lems : List (List UInt32)}

omit [LemTuple K] [DecidableEq K] [LawfulTuple K] in
/-- `std::max` with zero is above zero when its argument is. -/
theorem maxZero_pos_iff (x : ℚ) : Double.less 0 (maxZero x) = true ↔ 0 < x := by
  unfold maxZero
  by_cases h : Double.less 0 x = true
  · rw [if_pos h]
    exact decide_eq_true_iff
  · rw [if_neg h]
    have hx : ¬ 0 < x := fun hpos => h (decide_eq_true hpos)
    refine iff_of_false (fun h0 => ?_) hx
    exact absurd (of_decide_eq_true h0) (lt_irrefl (0 : ℚ))

omit [LemTuple K] [DecidableEq K] [LawfulTuple K] in
/-- The cut at zero keeps the positive scores. -/
theorem pos_maxZero_iff (x : ℚ) : 0 < maxZero x ↔ 0 < x := by
  have hless : Double.less (0 : ℚ) (maxZero x) = true ↔ 0 < maxZero x := decide_eq_true_iff
  rw [← hless, maxZero_pos_iff]

/-- What the group `r` emits: its message with the score, when its weight is above `t`. -/
def emitted (lems : List (List UInt32)) (c : K → ℚ) (t : ℚ) (r : K × List (LemAndWords K)) :
    Option (LemGroup K ℚ) :=
  if t < weightOf (R := ℚ) lems r.2 then
    some { groupMsg (R := ℚ) r with weight := c r.1 * (weightOf lems r.2 - t) }
  else none

omit [DecidableEq K] [LawfulTuple K] in
/-- `write_one` emits it, when the score is a positive factor times the weight above `t`. The
factor does not change the sign. -/
theorem emitBy_eq {score : ℚ → K → Except Error ℚ} {c : K → ℚ} {t : ℚ}
    {r : K × List (LemAndWords K)} (hc : 0 < c r.1)
    (hscore : score (weightOf lems r.2) r.1 = .ok (maxZero (c r.1 * (weightOf lems r.2 - t)))) :
    emitBy score (groupMsg r) (weightOf lems r.2) = .ok (emitted lems c t r) := by
  -- The factor is positive, so the sign is that of the weight above `t`.
  have hiff : Double.less 0 (maxZero (c r.1 * (weightOf lems r.2 - t))) = true ↔
      t < weightOf (R := ℚ) lems r.2 := by
    rw [maxZero_pos_iff, mul_pos_iff_of_pos_left hc, sub_pos]
  have hok : emitBy score (groupMsg r) (weightOf lems r.2)
      = .ok (if Double.less 0 (maxZero (c r.1 * (weightOf lems r.2 - t))) = true then
          some { groupMsg (R := ℚ) r with weight := maxZero (c r.1 * (weightOf lems r.2 - t)) }
        else none) := by
    have hlids : (groupMsg (R := ℚ) r).lids = r.1 := rfl
    unfold emitBy
    rw [hlids, hscore]
    rfl
  rw [hok, emitted]
  by_cases hlt : t < weightOf (R := ℚ) lems r.2
  · rw [if_pos (hiff.mpr hlt), if_pos hlt, maxZero, if_pos]
    exact decide_eq_true (mul_pos hc (sub_pos.mpr hlt))
  · rw [if_neg (fun h => hlt (hiff.mp h)), if_neg hlt]

omit [LawfulTuple K] in
/-- A group file is exact when the score is a positive factor times the weight above the
threshold. -/
theorem GroupFile.exact {score : ℚ → K → Except Error ℚ} {grams : List (Gram K)}
    {out : List (LemGroup K ℚ)} (h : GroupFile lems score grams out) {c : K → ℚ} {t : ℚ}
    (hscore : ∀ g ∈ grams, ∀ k ∈ combos lems g.ids,
      0 < c k ∧ ∀ w, score w k = .ok (maxZero (c k * (w - t)))) :
    GroupsExact (fun g k => timesIn (combos lems g.ids) k)
      (fun g => (combos lems g.ids).length) (fun w k => c k * (w - t)) t grams out := by
  -- The weight of a group is the score itself: it is above zero, so `std::max` is the score.
  have hweight : ∀ m ∈ out, t < lemWeight lems grams m.lids ∧
      m.weight = c m.lids * (lemWeight lems grams m.lids - t) := by
    intro m hm
    obtain ⟨g, hg, hk⟩ := h.arises m hm
    obtain ⟨hc, hs⟩ := hscore g hg m.lids hk
    have hok := h.weight m hm
    rw [hs] at hok
    have hpos : 0 < maxZero (c m.lids * (lemWeight lems grams m.lids - t)) := by
      rw [Except.ok.inj hok]
      exact h.positive m hm
    rw [pos_maxZero_iff, mul_pos_iff_of_pos_left hc, sub_pos] at hpos
    refine ⟨hpos, (Except.ok.inj hok).symm.trans ?_⟩
    rw [maxZero, if_pos]
    exact decide_eq_true (mul_pos hc (sub_pos.mpr hpos))
  refine ⟨h.ascending, fun k hk hlt => ?_, fun m hm => ⟨?_, (hweight m hm).1⟩, h.cases,
    fun m hm => (hweight m hm).2⟩
  · obtain ⟨g, hg, hmult⟩ := hk
    have hmem := timesIn_pos.mp hmult
    obtain ⟨hc, hs⟩ := hscore g hg k hmem
    have hpos : 0 < c k * (lemWeight lems grams k - t) := mul_pos hc (sub_pos.mpr hlt)
    exact h.complete k _ ⟨g, hg, hmem⟩ (hs _) ((pos_maxZero_iff _).mpr hpos)
  · obtain ⟨g, hg, hk⟩ := h.arises m hm
    exact ⟨g, hg, timesIn_pos.mpr hk⟩

omit [LawfulTuple K] in
/-- The emitted groups of the sorted records are exact. Each tuple that arises has a positive
factor, so the groups are those whose weight is above the threshold. -/
theorem emitted_exact {score : ℚ → K → Except Error ℚ} {grams : List (Gram K)}
    {recs : List (LemAndWords K)} {c : K → ℚ} {t : ℚ}
    (hperm : recs.Perm (grams.flatMap (expanded lems))) (hsorted : SortedBy LemAndWords.lids recs)
    (hscore : ∀ g ∈ grams, ∀ k ∈ combos lems g.ids,
      0 < c k ∧ ∀ w, score w k = .ok (maxZero (c k * (w - t)))) :
    GroupsExact (fun g k => timesIn (combos lems g.ids) k)
      (fun g => (combos lems g.ids).length) (fun w k => c k * (w - t)) t grams
      ((runs LemAndWords.lids recs).flatMap (fun r => (emitted lems c t r).toList)) := by
  have hemitted : ∀ r ∈ runs LemAndWords.lids recs,
      (emitted lems c t r).toList = (emittedBy (emitBy score) lems r).toList := by
    intro r hr
    have hkey := ((runs_table LemAndWords.lids recs hsorted).sound r hr).1
    obtain ⟨g, hg, hk⟩ := (mem_lids_iff hperm r.1).mp hkey
    obtain ⟨hc, hs⟩ := hscore g hg r.1 hk
    rw [emittedBy, emitBy_eq hc (hs _)]
  rw [List.flatMap_congr hemitted]
  exact (groupFile_of_runs hperm hsorted).exact hscore

/-- The group-by is exact for a score that is a positive factor times the weight above the
threshold. -/
theorem groupLemBy_exact (std : Stdlib) (grams : RecordFile (Gram K))
    (score : ℚ → K → Except Error ℚ) (c : K → ℚ) (t : ℚ)
    (hcov : ∀ g ∈ grams.msgs, Covered lems g.ids)
    (hne : ∀ g ∈ grams.msgs, combos lems g.ids ≠ [])
    (hmax : (grams.msgs.flatMap (expanded lems)).length ≤ 80000000 * (2 ^ 32 - 1))
    (hscore : ∀ g ∈ grams.msgs, ∀ k ∈ combos lems g.ids,
      0 < c k ∧ ∀ w, score w k = .ok (maxZero (c k * (w - t)))) :
    ∃ out, groupLemBy std (emitBy score) lems grams = .ok out ∧
      GroupsExact (fun g k => timesIn (combos lems g.ids) k)
        (fun g => (combos lems g.ids).length) (fun w k => c k * (w - t)) t grams.msgs out := by
  obtain ⟨out, hsorted, -, hperm, hok⟩ := groupLemBy_spec (f := emitted lems c t) (emitBy score)
    std hcov hne (fun k run hrun hkey hfrom => by
      obtain ⟨it, hit⟩ := List.exists_mem_of_ne_nil run hrun
      obtain ⟨g, hg, hmem⟩ := hfrom it hit
      have hk : k ∈ combos lems g.ids := hkey it hit ▸ ((mem_expanded lems).mp hmem).1
      obtain ⟨hc, hs⟩ := hscore g hg k hk
      exact emitBy_eq hc (hs _))
  exact ⟨_, hok, emitted_exact (hperm hmax) hsorted hscore⟩

omit [DecidableEq K] [LawfulTuple K] in
/-- Each record is extended to as many messages as it has readings. -/
theorem length_expanded_flatMap (lems : List (List UInt32)) (grams : List (Gram K)) :
    (grams.flatMap (expanded lems)).length
      = (grams.map (fun g => (combos lems g.ids).length)).sum := by
  rw [List.length_flatMap]
  simp [expanded]

end Exact

/-! ### The scores -/

section Scores

/-- The weight of a lemma in `lid_w`. -/
def lidWeight (lidW : FlatHashMap UInt32 ℚ) (l : UInt32) : ℚ := (lidW.lookup l).getD 0

variable {lidW : FlatHashMap UInt32 ℚ}

/-- A lemma with a positive weight is in the map. -/
theorem lookup_of_lidWeight_pos {l : UInt32} (h : 0 < lidWeight lidW l) :
    lidW.lookup l = some (lidWeight lidW l) := by
  unfold lidWeight at h ⊢
  cases hl : lidW.lookup l with
  | none =>
      rw [hl] at h
      exact absurd h (lt_irrefl (0 : ℚ))
  | some w => rfl

/-- So its weight can be looked up. -/
theorem deref_of_lidWeight_pos {l : UInt32} (h : 0 < lidWeight lidW l) (what : String) :
    lidW.deref l what = .ok (lidWeight lidW l) := by
  unfold FlatHashMap.deref
  rw [lookup_of_lidWeight_pos h]

/-- So the map is not empty. -/
theorem size_pos_of_lidWeight_pos {l : UInt32} (h : 0 < lidWeight lidW l) : 0 < lidW.size := by
  have hmem := AList.mem_lookup_iff.mp (lookup_of_lidWeight_pos h)
  exact List.length_pos_of_mem hmem

/-- A positive number is not zero. -/
theorem not_isZero {x : ℚ} (h : 0 < x) : ¬ Double.isZero x = true :=
  fun hz => h.ne' (of_decide_eq_true hz)

/-- The score of a pair. Neither weight is zero, so the two divisions are one by the product. -/
theorem score2_eq {l : Idd} (h1 : 0 < lidWeight lidW l.1) (h2 : 0 < lidWeight lidW l.2)
    (t w : ℚ) :
    score2 lidW t w l = .ok (maxZero
      ((lidW.size : ℚ) / (lidWeight lidW l.1 * lidWeight lidW l.2) * (w - t))) := by
  have hval : (lidW.size : ℚ) * (w - t) / lidWeight lidW l.1 / lidWeight lidW l.2
      = (lidW.size : ℚ) / (lidWeight lidW l.1 * lidWeight lidW l.2) * (w - t) := by
    field_simp
  unfold score2
  simp only [deref_of_lidWeight_pos h1, deref_of_lidWeight_pos h2, if_neg (not_isZero h1),
    if_neg (not_isZero h2)]
  rw [← hval]

/-- The score of a triple, in one fraction. The source divides by the three weights one after the
other. -/
theorem score3_eq {l : Iddd} (h1 : 0 < lidWeight lidW l.1) (h2 : 0 < lidWeight lidW l.2.1)
    (h3 : 0 < lidWeight lidW l.2.2) (t w : ℚ) :
    score3 lidW t w l = .ok (maxZero
      ((lidW.size : ℚ) ^ 2
        / (lidWeight lidW l.1 * lidWeight lidW l.2.1 * lidWeight lidW l.2.2) * (w - t))) := by
  have hval : (lidW.size : ℚ)
        * ((lidW.size : ℚ) * (w - t) / lidWeight lidW l.1 / lidWeight lidW l.2.1)
        / lidWeight lidW l.2.2
      = (lidW.size : ℚ) ^ 2
        / (lidWeight lidW l.1 * lidWeight lidW l.2.1 * lidWeight lidW l.2.2) * (w - t) := by
    field_simp
  unfold score3
  simp only [deref_of_lidWeight_pos h1, deref_of_lidWeight_pos h2, deref_of_lidWeight_pos h3,
    if_neg (not_isZero h1), if_neg (not_isZero h2), if_neg (not_isZero h3)]
  rw [← hval]

end Scores

/-! ### The stages -/

/-- `uni.bin` and a lemma table: positive counts, a lemma list for each word, none empty. -/
structure Vocabulary (lems : List (List UInt32)) (uni : RecordFile Unigram) : Prop where
  positive : ∀ m ∈ uni.msgs, m.weight ≠ 0
  covered : ∀ m ∈ uni.msgs, Covered lems m.id
  nonempty : ∀ lids ∈ lems, lids ≠ []

/-- The ids of the words of `uni.bin`. -/
def wordIds (uni : RecordFile Unigram) : List UInt32 := uni.msgs.map StrIdWeight.id

section Vocabulary
variable {lems : List (List UInt32)} {uni : RecordFile Unigram}

/-- The words of the vocabulary are covered. -/
theorem Vocabulary.covered_of_mem (h : Vocabulary lems uni) {w : UInt32} (hw : w ∈ wordIds uni) :
    Covered lems w := by
  obtain ⟨m, hm, rfl⟩ := List.mem_map.mp hw
  exact h.covered m hm

/-- And each has a reading. -/
theorem Vocabulary.combos_ne_nil (h : Vocabulary lems uni) {w : UInt32} (hw : w ∈ wordIds uni) :
    combos lems w ≠ [] :=
  h.nonempty _ (combos_mem_of_covered lems (h.covered_of_mem hw))

/-- The lemmas of the words have a positive weight in `lid_w`. -/
theorem Vocabulary.lidWeight_pos (h : Vocabulary lems uni) {lidW : FlatHashMap UInt32 ℚ}
    (hok : buildLemWeights uni lems = .ok lidW) {w l : UInt32} (hw : w ∈ wordIds uni)
    (hl : l ∈ combos lems w) : 0 < lidWeight lidW l := by
  obtain ⟨m, hm, rfl⟩ := List.mem_map.mp hw
  rw [lidWeight, buildLemWeights_getD h.covered hok]
  exact lemWeight_pos (g := unigramOf m) (List.mem_map_of_mem hm) (h.positive m hm) hl

end Vocabulary

section Stages
variable {lemsFile : RecordFile PhraseMsg} {uni : RecordFile Unigram}

/-- `group_lem2` is exact: when its records fit the sorter, the groups are those of the pairs of
lemmas, each once, with its cases and its score. Both lemmas of a pair have a positive weight, so
no zero stops the score. -/
theorem groupLem2_exact (std : Stdlib) (h : Vocabulary (tableOf lemsFile) uni)
    {bi : RecordFile Bigram}
    (hbi : ∀ g ∈ bi.msgs, g.ids.1 ∈ wordIds uni ∧ g.ids.2 ∈ wordIds uni)
    (hmax : (bi.msgs.map (pairTimes (tableOf lemsFile))).sum ≤ 80000000 * (2 ^ 32 - 1))
    (t : ℚ) {lidW : FlatHashMap UInt32 ℚ}
    (hlidW : buildLemWeights uni (tableOf lemsFile) = .ok lidW) :
    ∃ out, groupLem2 std lemsFile uni bi t = .ok { total := 0, msgs := out } ∧
      GroupsExact (pairMult (tableOf lemsFile)) (pairTimes (tableOf lemsFile))
        (fun w l => (lidW.size : ℚ) * (w - t) / (lidWeight lidW l.1 * lidWeight lidW l.2))
        t bi.msgs out := by
  -- Both lemmas of a pair have a positive weight, so no zero stops the score.
  have hscore : ∀ g ∈ bi.msgs, ∀ l ∈ combos (tableOf lemsFile) g.ids,
      0 < lidWeight lidW l.1 ∧ 0 < lidWeight lidW l.2 := by
    intro g hg l hl
    obtain ⟨hl1, hl2⟩ := (mem_combos_prod (tableOf lemsFile) g.ids l).mp hl
    exact ⟨h.lidWeight_pos hlidW (hbi g hg).1 hl1, h.lidWeight_pos hlidW (hbi g hg).2 hl2⟩
  obtain ⟨out, hok, hexact⟩ := groupLemBy_exact std bi (score2 lidW t)
    (fun l => (lidW.size : ℚ) / (lidWeight lidW l.1 * lidWeight lidW l.2)) t
    (fun g hg => (covered_prod_iff _ _).mpr
      ⟨h.covered_of_mem (hbi g hg).1, h.covered_of_mem (hbi g hg).2⟩)
    (fun g hg => combos_prod_ne_nil (h.combos_ne_nil (hbi g hg).1) (h.combos_ne_nil (hbi g hg).2))
    (by rw [length_expanded_flatMap, ← pairTimes_eq]; exact hmax)
    (fun g hg l hl => by
      obtain ⟨h1, h2⟩ := hscore g hg l hl
      have hsize : 0 < (lidW.size : ℚ) := Nat.cast_pos.mpr (size_pos_of_lidWeight_pos h1)
      exact ⟨by positivity, score2_eq h1 h2 t⟩)
  refine ⟨out, ?_, ?_⟩
  · unfold groupLem2 groupLem
    simp only [loadLems_eq, hlidW, hok]
  · rw [← pairMult_eq, ← pairTimes_eq] at hexact
    simp only [div_mul_eq_mul_div] at hexact
    exact hexact

/-- `group_lem3` is exact in the same way, with the weights of three lemmas. -/
theorem groupLem3_exact (std : Stdlib) (h : Vocabulary (tableOf lemsFile) uni)
    {tri : RecordFile Trigram}
    (htri : ∀ g ∈ tri.msgs, g.ids.1 ∈ wordIds uni ∧ g.ids.2.1 ∈ wordIds uni ∧
      g.ids.2.2 ∈ wordIds uni)
    (hmax : (tri.msgs.map (tripleTimes (tableOf lemsFile))).sum ≤ 80000000 * (2 ^ 32 - 1))
    (t : ℚ) {lidW : FlatHashMap UInt32 ℚ}
    (hlidW : buildLemWeights uni (tableOf lemsFile) = .ok lidW) :
    ∃ out, groupLem3 std lemsFile uni tri t = .ok { total := 0, msgs := out } ∧
      GroupsExact (tripleMult (tableOf lemsFile)) (tripleTimes (tableOf lemsFile))
        (fun w l => (lidW.size : ℚ) ^ 2 * (w - t)
          / (lidWeight lidW l.1 * lidWeight lidW l.2.1 * lidWeight lidW l.2.2))
        t tri.msgs out := by
  have hscore : ∀ g ∈ tri.msgs, ∀ l ∈ combos (tableOf lemsFile) g.ids,
      0 < lidWeight lidW l.1 ∧ 0 < lidWeight lidW l.2.1 ∧ 0 < lidWeight lidW l.2.2 := by
    intro g hg l hl
    obtain ⟨hl1, hl23⟩ := (mem_combos_prod (tableOf lemsFile) g.ids l).mp hl
    obtain ⟨hl2, hl3⟩ := (mem_combos_prod (tableOf lemsFile) g.ids.2 l.2).mp hl23
    exact ⟨h.lidWeight_pos hlidW (htri g hg).1 hl1, h.lidWeight_pos hlidW (htri g hg).2.1 hl2,
      h.lidWeight_pos hlidW (htri g hg).2.2 hl3⟩
  obtain ⟨out, hok, hexact⟩ := groupLemBy_exact std tri (score3 lidW t)
    (fun l => (lidW.size : ℚ) ^ 2
      / (lidWeight lidW l.1 * lidWeight lidW l.2.1 * lidWeight lidW l.2.2)) t
    (fun g hg => (covered_prod_iff _ _).mpr ⟨h.covered_of_mem (htri g hg).1,
      (covered_prod_iff _ _).mpr
        ⟨h.covered_of_mem (htri g hg).2.1, h.covered_of_mem (htri g hg).2.2⟩⟩)
    (fun g hg => combos_prod_ne_nil (h.combos_ne_nil (htri g hg).1)
      (combos_prod_ne_nil (h.combos_ne_nil (htri g hg).2.1) (h.combos_ne_nil (htri g hg).2.2)))
    (by rw [length_expanded_flatMap, ← tripleTimes_eq]; exact hmax)
    (fun g hg l hl => by
      obtain ⟨h1, h2, h3⟩ := hscore g hg l hl
      have hsize : 0 < (lidW.size : ℚ) := Nat.cast_pos.mpr (size_pos_of_lidWeight_pos h1)
      exact ⟨by positivity, score3_eq h1 h2 h3 t⟩)
  refine ⟨out, ?_, ?_⟩
  · unfold groupLem3 groupLem
    simp only [loadLems_eq, hlidW, hok]
  · rw [← tripleMult_eq, ← tripleTimes_eq] at hexact
    simp only [div_mul_eq_mul_div] at hexact
    exact hexact

/-- `group_lem2` and `group_lem3` are exact, with `lid_w` as `build_lem_weights` built it,
when at most `80,000,000 * (2 ^ 32 - 1)` records are sorted. -/
theorem groupLems_exact (std : Stdlib) (h : Vocabulary (tableOf lemsFile) uni)
    (bi : RecordFile Bigram) (tri : RecordFile Trigram)
    (hbi : ∀ g ∈ bi.msgs, g.ids.1 ∈ wordIds uni ∧ g.ids.2 ∈ wordIds uni)
    (htri : ∀ g ∈ tri.msgs, g.ids.1 ∈ wordIds uni ∧ g.ids.2.1 ∈ wordIds uni ∧
      g.ids.2.2 ∈ wordIds uni)
    (hmax2 : (bi.msgs.map (pairTimes (tableOf lemsFile))).sum ≤ 80000000 * (2 ^ 32 - 1))
    (hmax3 : (tri.msgs.map (tripleTimes (tableOf lemsFile))).sum ≤ 80000000 * (2 ^ 32 - 1))
    (t : ℚ) :
    ∃ lidW, buildLemWeights uni (tableOf lemsFile) = .ok lidW ∧
      (∃ out, groupLem2 std lemsFile uni bi t = .ok { total := 0, msgs := out } ∧
        GroupsExact (pairMult (tableOf lemsFile)) (pairTimes (tableOf lemsFile))
          (fun w l => (lidW.size : ℚ) * (w - t) / (lidWeight lidW l.1 * lidWeight lidW l.2))
          t bi.msgs out) ∧
      ∃ out, groupLem3 std lemsFile uni tri t = .ok { total := 0, msgs := out } ∧
        GroupsExact (tripleMult (tableOf lemsFile)) (tripleTimes (tableOf lemsFile))
          (fun w l => (lidW.size : ℚ) ^ 2 * (w - t)
            / (lidWeight lidW l.1 * lidWeight lidW l.2.1 * lidWeight lidW l.2.2))
          t tri.msgs out := by
  obtain ⟨lidW, hlidW, -⟩ := buildLemWeights_ok (R := ℚ) (tableOf lemsFile) h.covered
  exact ⟨lidW, hlidW, groupLem2_exact std h hbi hmax2 t hlidW,
    groupLem3_exact std h htri hmax3 t hlidW⟩

end Stages

/-- The second word is a homonym. -/
def homonymLems : RecordFile PhraseMsg := { total := 2, msgs := [⟨[1]⟩, ⟨[1, 2]⟩] }

/-- A count of `3` for the two words gives each of the two pairs of lemmas the weight `3 / 2`,
which is above `1`. -/
theorem groupLems_exact_homonym :
    ∃ out, groupLem2 Stdlib.sorting homonymLems
        { total := 2, msgs := [⟨[97], 1, 3⟩, ⟨[98], 2, 3⟩] }
        { total := 0, msgs := [⟨(1, 2), 3⟩] } (1 : ℚ) = .ok { total := 0, msgs := out } ∧
      ∃ m ∈ out, m.lids = (1, 2) ∧ m.cases = [⟨(1, 2), 3⟩] := by
  have hvoc : Vocabulary (tableOf homonymLems)
      { total := 2, msgs := [⟨[97], 1, 3⟩, ⟨[98], 2, 3⟩] } :=
    ⟨by decide, fun m hm => (covered_word_iff _ _).mpr (by revert m; decide), by decide⟩
  obtain ⟨lidW, -, ⟨out, hok, hexact⟩, -⟩ := groupLems_exact Stdlib.sorting hvoc
    { total := 0, msgs := [⟨(1, 2), 3⟩] } { total := 0, msgs := [] } (by decide)
    (fun g hg => absurd hg List.not_mem_nil) (by decide) (by decide) 1
  have hweight : weightBy (pairMult (tableOf homonymLems)) (pairTimes (tableOf homonymLems))
      [⟨(1, 2), 3⟩] (1, 2) = 3 / 2 := by
    have hcount : ((UInt32.toNat 3 : Nat) : ℚ) = 3 := rfl
    show share 3 1 2 + 0 = 3 / 2
    rw [share, hcount]
    norm_num
  obtain ⟨m, hm, hlids⟩ := hexact.complete (1, 2) ⟨_, List.mem_singleton_self _, by decide⟩
    (by rw [hweight]; norm_num)
  refine ⟨out, hok, m, hm, hlids, List.perm_singleton.mp ?_⟩
  have hcases := hexact.cases m hm
  rw [hlids] at hcases
  exact hcases

/-! ### The part counter -/

/-- The words `1`, ..., `n`, once each. -/
def manyWords (n : Nat) : RecordFile Unigram :=
  { total := n
    msgs := (List.range n).map (fun i => { str := [97], id := UInt32.ofNat (i + 1), weight := 1 }) }

/-- One lemma for all of them. -/
def oneLemma (n : Nat) : RecordFile PhraseMsg :=
  { total := n, msgs := List.replicate n { ids := [1] } }

/-- The pairs of a word up to `n` and a word up to `m`, once each. -/
def manyPairs (n m : Nat) : RecordFile Bigram :=
  { total := 0
    msgs := (List.range n).flatMap (fun i => (List.range m).map (fun j =>
      { ids := (UInt32.ofNat (i + 1), UInt32.ofNat (j + 1)), weight := 1 })) }

section Wraps
variable {n : Nat}

/-- Each word has the lemma `1`. -/
theorem combos_oneLemma (hn : n < 2 ^ 32) {i : Nat} (hi : i < n) :
    lemsAt (tableOf (oneLemma n)) (UInt32.ofNat (i + 1)) = .ok [1] := by
  have htable : tableOf (oneLemma n) = List.replicate n [1] := List.map_replicate
  unfold lemsAt
  rw [htable, Indexes.toNat_sub_one hi hn, List.getElem?_replicate, if_pos hi]

/-- So each word is covered. -/
theorem covered_oneLemma (hn : n < 2 ^ 32) {i : Nat} (hi : i < n) :
    Covered (tableOf (oneLemma n)) (UInt32.ofNat (i + 1)) :=
  ⟨[1], combos_oneLemma hn hi⟩

/-- The words and their lemma are a vocabulary: each word has a positive weight, and a row of
one lemma. -/
theorem vocabulary_oneLemma (hn : n < 2 ^ 32) :
    Vocabulary (tableOf (oneLemma n)) (manyWords n) where
  positive m hm := by
    obtain ⟨i, -, rfl⟩ := List.mem_map.mp hm
    show ¬ (1 : UInt32) = 0
    decide
  covered m hm := by
    obtain ⟨i, hi, rfl⟩ := List.mem_map.mp hm
    exact covered_oneLemma hn (List.mem_range.mp hi)
  nonempty lids hlids := by
    have htable : tableOf (oneLemma n) = List.replicate n [1] := List.map_replicate
    rw [htable] at hlids
    rw [List.eq_of_mem_replicate hlids]
    simp

/-- The pairs are made of the words. -/
theorem mem_manyPairs {m : Nat} (hm : m ≤ n) {g : Bigram} (hg : g ∈ (manyPairs n m).msgs) :
    ∃ i j, i < n ∧ j < n ∧ g = ⟨(UInt32.ofNat (i + 1), UInt32.ofNat (j + 1)), 1⟩ := by
  obtain ⟨i, hi, hg⟩ := List.mem_flatMap.mp hg
  obtain ⟨j, hj, rfl⟩ := List.mem_map.mp hg
  have hi' := List.mem_range.mp hi
  have hj' := List.mem_range.mp hj
  exact ⟨i, j, hi', by omega, rfl⟩

/-- The pair of the first word with itself is one of them. -/
theorem first_mem_manyPairs {m : Nat} (hn : 0 < n) (hm : 0 < m) :
    (⟨(UInt32.ofNat (0 + 1), UInt32.ofNat (0 + 1)), 1⟩ : Bigram) ∈ (manyPairs n m).msgs :=
  List.mem_flatMap.mpr ⟨0, List.mem_range.mpr hn, List.mem_map.mpr ⟨0, List.mem_range.mpr hm, rfl⟩⟩

/-- The words have the ids from `1` on. -/
theorem mem_wordIds_manyWords {i : Nat} (hi : i < n) :
    UInt32.ofNat (i + 1) ∈ wordIds (manyWords n) := by
  refine List.mem_map.mpr ⟨{ str := [97], id := UInt32.ofNat (i + 1), weight := 1 }, ?_, rfl⟩
  exact List.mem_map.mpr ⟨i, List.mem_range.mpr hi, rfl⟩

/-- Each pair has one reading, the pair of the lemma with itself, so all pairs go to one group. -/
theorem combos_manyPairs {m : Nat} (hn : n < 2 ^ 32) (hm : m ≤ n) {g : Bigram}
    (hg : g ∈ (manyPairs n m).msgs) :
    Covered (tableOf (oneLemma n)) g.ids ∧ combos (tableOf (oneLemma n)) g.ids = [(1, 1)] := by
  obtain ⟨i, j, hi, hj, rfl⟩ := mem_manyPairs hm hg
  have hci := covered_oneLemma hn hi
  have hcj := covered_oneLemma hn hj
  refine ⟨(covered_prod_iff _ _).mpr ⟨hci, hcj⟩, ?_⟩
  have h1 : combos (tableOf (oneLemma n)) (UInt32.ofNat (i + 1)) = [1] :=
    Except.ok.inj (hci.lemsAt.symm.trans (combos_oneLemma hn hi))
  have h2 : combos (tableOf (oneLemma n)) (UInt32.ofNat (j + 1)) = [1] :=
    Except.ok.inj (hcj.lemsAt.symm.trans (combos_oneLemma hn hj))
  rw [combos_prod]
  simp only [h1, h2]
  rfl

/-- When the number of full parts is a multiple of `2 ^ 32`, the group file is empty. Each pair of
words here has one pair of lemmas, so each gram is one record of the sorter. -/
theorem groupLem2_manyPairs {m q : Nat} (hn : n < 2 ^ 32) (hm : m ≤ n)
    (hq : n * m = 80000000 * q) (hzero : UInt32.ofNat q = 0) (t : ℚ) :
    ∃ out, groupLem2 Stdlib.sorting (oneLemma n) (manyWords n) (manyPairs n m) t = .ok out ∧
      out.msgs = [] := by
  -- Every pair of words has one pair of lemmas, so each gram is one record.
  have hexp : ∀ g ∈ (manyPairs n m).msgs,
      extendGram (tableOf (oneLemma n)) g = .ok [⟨(1, 1), g.ids, g.weight⟩] := by
    intro g hg
    obtain ⟨hcov, hcombos⟩ := combos_manyPairs hn hm hg
    rw [extendGram_ok hcov, expanded, hcombos]
    rfl
  have hdel := delivers_transformer (extendGram (tableOf (oneLemma n))) (manyPairs n m).msgs
    (fun g hg => ⟨_, _, hexp g hg⟩) []
  have hlen : ((manyPairs n m).msgs.flatMap
      (Transformer.outputs (extendGram (tableOf (oneLemma n))))).length = 80000000 * q := by
    have hone : ∀ g ∈ (manyPairs n m).msgs,
        Transformer.outputs (extendGram (tableOf (oneLemma n))) g
          = [⟨(1, 1), g.ids, g.weight⟩] := by
      intro g hg
      rw [Transformer.outputs, Message.empty_mergeFrom, hexp g hg]
    rw [List.flatMap_congr hone, ← hq]
    simp [manyPairs, List.length_flatMap]
  rw [List.nil_append] at hdel
  have hsort : extendGrams Stdlib.sorting 80000000 (manyPairs n m) (tableOf (oneLemma n))
      = .ok (KMerge.new []) :=
    sortUnstable_wraps_zero Stdlib.sorting lemAndWordsMore hdel (by decide) (by decide) hlen hzero
  obtain ⟨lidW, hlidW, -⟩ := buildLemWeights_ok (R := ℚ) (tableOf (oneLemma n))
    (vocabulary_oneLemma hn).covered
  refine ⟨{ total := 0, msgs := [] }, ?_, rfl⟩
  unfold groupLem2 groupLem groupLemBy
  simp only [loadLems_eq, hlidW, hsort]
  rfl

end Wraps

/-- The vocabulary of `2 ^ 31` words with one lemma, and `2 ^ 31 * 160,000,000` pairs of
words: the counter of the parts is zero, and the pair of that lemma is lost. -/
theorem groupLem2_wraps :
    Vocabulary (tableOf (oneLemma (2 ^ 31))) (manyWords (2 ^ 31)) ∧
    (∀ g ∈ (manyPairs (2 ^ 31) 160000000).msgs,
      g.ids.1 ∈ wordIds (manyWords (2 ^ 31)) ∧ g.ids.2 ∈ wordIds (manyWords (2 ^ 31))) ∧
    ¬ ∃ out score, groupLem2 Stdlib.sorting (oneLemma (2 ^ 31)) (manyWords (2 ^ 31))
        (manyPairs (2 ^ 31) 160000000) 0 = .ok out ∧
      GroupsExact (pairMult (tableOf (oneLemma (2 ^ 31))))
        (pairTimes (tableOf (oneLemma (2 ^ 31)))) score 0
        (manyPairs (2 ^ 31) 160000000).msgs out.msgs := by
  -- Over variables: no step may evaluate the numbers.
  have hgeneral : ∀ n m q : Nat, n < 2 ^ 32 → m ≤ n → 0 < n → 0 < m → n * m = 80000000 * q →
      UInt32.ofNat q = 0 →
      Vocabulary (tableOf (oneLemma n)) (manyWords n) ∧
      (∀ g ∈ (manyPairs n m).msgs,
        g.ids.1 ∈ wordIds (manyWords n) ∧ g.ids.2 ∈ wordIds (manyWords n)) ∧
      ¬ ∃ out score, groupLem2 Stdlib.sorting (oneLemma n) (manyWords n) (manyPairs n m) 0
          = .ok out ∧
        GroupsExact (pairMult (tableOf (oneLemma n))) (pairTimes (tableOf (oneLemma n))) score 0
          (manyPairs n m).msgs out.msgs := by
    intro n m q hn hm hn0 hm0 hq hzero
    refine ⟨vocabulary_oneLemma hn, fun g hg => ?_, ?_⟩
    · obtain ⟨i, j, hi, hj, rfl⟩ := mem_manyPairs hm hg
      exact ⟨mem_wordIds_manyWords hi, mem_wordIds_manyWords hj⟩
    · rintro ⟨out, score, hok, hexact⟩
      obtain ⟨out', hok', hnil⟩ := groupLem2_manyPairs hn hm hq hzero 0
      have hout : out = out' := Except.ok.inj (hok.symm.trans hok')
      -- The first pair of words gives the pair `(1, 1)` of lemmas a positive weight.
      have hg := first_mem_manyPairs hn0 hm0
      have hin : ((1, 1) : Idd) ∈ combos (tableOf (oneLemma n))
          (UInt32.ofNat (0 + 1), UInt32.ofNat (0 + 1)) := by
        rw [(combos_manyPairs hn hm hg).2]
        exact List.mem_singleton_self _
      have hw := lemWeight_pos hg (by decide) hin
      rw [pairMult_eq, pairTimes_eq] at hexact
      obtain ⟨msg, hmsg, -⟩ := hexact.complete (1, 1) ⟨_, hg, timesIn_pos.mpr hin⟩ hw
      rw [hout, hnil] at hmsg
      exact absurd hmsg List.not_mem_nil
  exact hgeneral (2 ^ 31) 160000000 (2 ^ 32) (by decide) (by decide) (by decide) (by decide)
    (by decide) (by decide)

end Colloc.Proofs

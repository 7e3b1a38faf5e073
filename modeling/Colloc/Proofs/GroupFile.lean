import Colloc.Proofs.GroupExact

/-!
# `Colloc.Proofs.GroupFile`: the group file of a stage that ended

`groupLem_file` proves `GroupFile` of `extended2.bin` and `extended3.bin`, for every stage that
ends. It asks nothing of the words of the grams but lemma lists that are not empty. A stage
that ends has looked up no lemma in vain, so its run is also one of an `emit` that cannot fail
(`groupLemBy_skipFailed`).

The scores do not fail on a tuple with a score above zero, whatever the threshold and the
weight are, and a lower threshold or a greater weight does not lower them (`ScoreMono`). So
more grams and a lower threshold give all the groups again, and none of a lower weight
(`GroupFile.mono`).
-/

set_option autoImplicit false

namespace Colloc.Proofs

open Colloc.Lib
open Colloc.Spec

/-! ### An `emit` that does not fail -/

section Skip
variable {K R A : Type} [LemTuple K] [DecidableEq K] [Double R]

/-- `emit`, with no record in the place of a failure. -/
def skipFailed (emit : LemGroup K R → R → Except Error (Option A)) (msg : LemGroup K R)
    (weight : R) : Except Error (Option A) :=
  match emit msg weight with
  | .ok out => .ok out
  | .error _ => .ok none

variable {emit : LemGroup K R → R → Except Error (Option A)} {lems : List (List UInt32)}

omit [DecidableEq K] in
/-- Where the score can be computed, skipping the failures changes nothing. So a stage that
succeeds may be read as one that never fails. -/
theorem writeOne_skipFailed {st st' : GroupState K R A} (h : writeOne emit st = .ok st') :
    writeOne (skipFailed emit) st = .ok st' := by
  unfold writeOne at h ⊢
  by_cases hcases : st.msg.cases.length = 0
  · rw [if_pos hcases] at h ⊢
    exact h
  · rw [if_neg hcases] at h ⊢
    cases hemit : emit st.msg st.weight with
    | error e => simp only [hemit] at h; cases h
    | ok out =>
        simp only [hemit] at h
        simp only [skipFailed, hemit]
        exact h

/-- So for a whole pass of the loop, which may close one group and adds a case. -/
theorem groupBody_skipFailed {st st' : GroupState K R A} {it : LemAndWords K}
    (h : groupBody emit lems st it = .ok st') :
    groupBody (skipFailed emit) lems st it = .ok st' := by
  unfold groupBody at h ⊢
  by_cases hlids : st.msg.lids ≠ it.lids
  · rw [if_pos hlids] at h ⊢
    cases hwrite : writeOne emit st with
    | error e => simp only [hwrite] at h; cases h
    | ok st₁ =>
        simp only [hwrite] at h
        simp only [writeOne_skipFailed hwrite]
        exact h
  · rw [if_neg hlids] at h ⊢
    exact h

/-- A stage that ends did not meet a failure, so it has written what the stage writes that skips
over failures. -/
theorem groupLemBy_skipFailed [LawfulTuple K] (std : Stdlib) {grams : RecordFile (Gram K)}
    (hcov : ∀ g ∈ grams.msgs, Covered lems g.ids)
    (hne : ∀ g ∈ grams.msgs, combos lems g.ids ≠ []) {out : List A}
    (h : groupLemBy std emit lems grams = .ok out) :
    groupLemBy std (skipFailed emit) lems grams = .ok out := by
  obtain ⟨merger, recs, hok, hm, -⟩ :=
    extendGrams_spec std (std.le_maxSize (by decide : 80000000 ≤ 2 ^ 32)) hcov hne
  unfold groupLemBy at h ⊢
  simp only [hok, hm.forEach_keep] at h ⊢
  -- Each step of the loop that succeeds is a step of the other one.
  cases hrun : recs.foldlM (groupBody emit lems)
      ({ msg := Message.empty, weight := 0, written := [] } : GroupState K R A) with
  | error e => simp only [hrun] at h; cases h
  | ok st =>
      have hskip := foldlM_agrees (g := groupBody (skipFailed emit) lems)
        (fun _ _ _ hst => groupBody_skipFailed hst) recs _ st hrun
      simp only [hrun] at h
      simp only [hskip]
      cases hwrite : writeOne emit st with
      | error e => simp only [hwrite] at h; cases h
      | ok st₁ =>
          simp only [hwrite] at h
          simp only [writeOne_skipFailed hwrite]
          exact h

omit [DecidableEq K] in
/-- With the failures skipped, a group ends in what it emits. -/
theorem skipFailed_eq (r : K × List (LemAndWords K)) :
    skipFailed emit (groupMsg r) (weightOf lems r.2) = .ok (emittedBy emit lems r) := by
  unfold skipFailed emittedBy
  cases emit (groupMsg r) (weightOf lems r.2) with
  | error e => rfl
  | ok out => rfl

end Skip

/-! ### A stage that ended -/

section File
variable {K : Type} [LemTuple K] [DecidableEq K]

/-- What a group stage has written when it ends: the groups of the tuples that arise from its
records, with a positive score. Nothing is asked of the words but that they have lemmas. -/
theorem groupLem_file [LawfulTuple K] (std : Stdlib)
    {score : FlatHashMap UInt32 ℚ → ℚ → ℚ → K → Except Error ℚ} {lemsFile : RecordFile PhraseMsg}
    {uni : RecordFile Unigram} {grams : RecordFile (Gram K)} {t : ℚ}
    (hcov : ∀ g ∈ grams.msgs, Covered (tableOf lemsFile) g.ids)
    (hne : ∀ g ∈ grams.msgs, combos (tableOf lemsFile) g.ids ≠ [])
    (hmax : (grams.msgs.map (fun g => (combos (tableOf lemsFile) g.ids).length)).sum
      ≤ 80000000 * (2 ^ 32 - 1))
    {file : RecordFile (LemGroup K ℚ)}
    (hok : groupLem std score lemsFile uni grams t = .ok file) :
    ∃ lidW, buildLemWeights uni (tableOf lemsFile) = .ok lidW ∧
      GroupFile (tableOf lemsFile) (score lidW t) grams.msgs file.msgs := by
  unfold groupLem at hok
  rw [loadLems_eq] at hok
  cases hlidW : buildLemWeights (R := ℚ) uni (tableOf lemsFile) with
  | error e => simp only [hlidW] at hok; cases hok
  | ok lidW =>
      simp only [hlidW] at hok
      cases hgroup : groupLemBy std (emitBy (score lidW t)) (tableOf lemsFile) grams with
      | error e => simp only [hgroup] at hok; cases hok
      | ok msgs =>
          simp only [hgroup] at hok
          obtain ⟨recs, hsorted, -, hperm, hskip⟩ := groupLemBy_spec
            (skipFailed (emitBy (score lidW t))) std hcov hne
            (fun k run _ _ _ => skipFailed_eq (k, run))
          rw [groupLemBy_skipFailed std hcov hne hgroup] at hskip
          rw [length_expanded_flatMap] at hperm
          refine ⟨lidW, rfl, ?_⟩
          rw [← Except.ok.inj hok, Except.ok.inj hskip]
          exact groupFile_of_runs (hperm hmax) hsorted

end File

/-! ### Lower thresholds and more grams -/

/-- No lemma has a negative weight in `lid_w`, since each word adds its share, which is not
negative. -/
theorem lidWeight_nonneg {lems : List (List UInt32)} {uni : RecordFile Unigram}
    {lidW : FlatHashMap UInt32 ℚ} (hok : buildLemWeights uni lems = .ok lidW) (l : UInt32) :
    0 ≤ lidWeight lidW l := by
  rw [buildLemWeights, readApply_eq] at hok
  refine foldlM_keeps (P := fun _ lidW => ∀ l, 0 ≤ lidWeight lidW l) hok
    (fun m _ before lidW₀ lidW₁ hnonneg hstep l => ?_) (fun l => le_refl (0 : ℚ)) l
  -- A word adds its share, which is not negative.
  unfold lemWeightsWord at hstep
  cases hterms : lemsAt lems m.id with
  | error e => simp only [hterms] at hstep; cases hstep
  | ok terms =>
      simp only [hterms] at hstep
      rw [← Except.ok.inj hstep, lidWeight, getD_addWeights]
      have hold : 0 ≤ (lidW₀.lookup l).getD 0 := hnonneg l
      positivity

/-- A score above zero stays, and does not get lower, when the threshold falls and the weight
rises. -/
def ScoreMono {K : Type} (score : FlatHashMap UInt32 ℚ → ℚ → ℚ → K → Except Error ℚ) : Prop :=
  ∀ lidW, (∀ l, 0 ≤ lidWeight lidW l) → ∀ t t' w w' k s', t ≤ t' → w' ≤ w →
    score lidW t' w' k = .ok s' → 0 < s' → ∃ s, score lidW t w k = .ok s ∧ s' ≤ s

section Scores
variable {lidW : FlatHashMap UInt32 ℚ}

/-- The weight of a lemma that is found. -/
theorem lidWeight_of_deref {l : UInt32} {what : String} {w : ℚ}
    (h : lidW.deref l what = .ok w) : lidWeight lidW l = w := by
  unfold FlatHashMap.deref at h
  unfold lidWeight
  cases hl : lidW.lookup l with
  | none => rw [hl] at h; cases h
  | some v =>
      rw [hl] at h
      exact Except.ok.inj h

/-- A factor that stops the score when it is zero. -/
theorem ne_zero_of_not_isZero {x : ℚ} (h : ¬ Double.isZero x = true) : x ≠ 0 :=
  fun h0 => h (decide_eq_true h0)

/-- The lemmas of a pair with a score above zero have weights: a weight of zero would have made
the score zero. -/
theorem score2_ne_zero {t w s : ℚ} {k : Idd} (h : score2 lidW t w k = .ok s) (hs : 0 < s) :
    lidWeight lidW k.1 ≠ 0 ∧ lidWeight lidW k.2 ≠ 0 := by
  unfold score2 at h
  cases h1 : lidW.deref k.1 "it1->second" with
  | error e => simp only [h1] at h; cases h
  | ok w1 =>
      simp only [h1] at h
      split at h
      · exact absurd (Except.ok.inj h) hs.ne
      · next hw1 =>
        cases h2 : lidW.deref k.2 "it2->second" with
        | error e => simp only [h2] at h; cases h
        | ok w2 =>
            simp only [h2] at h
            split at h
            · exact absurd (Except.ok.inj h) hs.ne
            · next hw2 =>
              rw [lidWeight_of_deref h1, lidWeight_of_deref h2]
              exact ⟨ne_zero_of_not_isZero hw1, ne_zero_of_not_isZero hw2⟩

/-- The lemmas of a triple with a score above zero have weights, by the same checks one after the
other. -/
theorem score3_ne_zero {t w s : ℚ} {k : Iddd} (h : score3 lidW t w k = .ok s) (hs : 0 < s) :
    lidWeight lidW k.1 ≠ 0 ∧ lidWeight lidW k.2.1 ≠ 0 ∧ lidWeight lidW k.2.2 ≠ 0 := by
  unfold score3 at h
  cases h1 : lidW.deref k.1 "it1->second" with
  | error e => simp only [h1] at h; cases h
  | ok w1 =>
      simp only [h1] at h
      split at h
      · exact absurd (Except.ok.inj h) hs.ne
      · next hw1 =>
        cases h2 : lidW.deref k.2.1 "it2->second" with
        | error e => simp only [h2] at h; cases h
        | ok w2 =>
            simp only [h2] at h
            split at h
            · exact absurd (Except.ok.inj h) hs.ne
            · next hw2 =>
              cases h3 : lidW.deref k.2.2 "it3->second" with
              | error e => simp only [h3] at h; cases h
              | ok w3 =>
                  simp only [h3] at h
                  split at h
                  · exact absurd (Except.ok.inj h) hs.ne
                  · next hw3 =>
                    rw [lidWeight_of_deref h1, lidWeight_of_deref h2, lidWeight_of_deref h3]
                    exact ⟨ne_zero_of_not_isZero hw1, ne_zero_of_not_isZero hw2,
                      ne_zero_of_not_isZero hw3⟩

/-- `std::max` with zero keeps the order, and so does whatever is computed from it. -/
theorem maxZero_mono {x y : ℚ} (h : x ≤ y) : maxZero x ≤ maxZero y := by
  unfold maxZero
  by_cases hx : Double.less 0 x = true
  · have hy : Double.less 0 y = true := decide_eq_true ((of_decide_eq_true hx).trans_le h)
    rw [if_pos hx, if_pos hy]
    exact h
  · rw [if_neg hx]
    by_cases hy : Double.less 0 y = true
    · rw [if_pos hy]
      exact (of_decide_eq_true hy).le
    · rw [if_neg hy]

/-- A positive factor keeps the order of weights and turns that of thresholds. -/
theorem maxZero_factor_mono {c t t' w w' : ℚ} (hc : 0 ≤ c) (ht : t ≤ t') (hw : w' ≤ w) :
    maxZero (c * (w' - t')) ≤ maxZero (c * (w - t)) :=
  maxZero_mono (mul_le_mul_of_nonneg_left (sub_le_sub hw ht) hc)

/-- The score of a pair grows with the weight above the threshold. -/
theorem score2_mono : ScoreMono score2 := by
  intro lidW hnonneg t t' w w' k s' ht hw hs' hpos
  obtain ⟨hne1, hne2⟩ := score2_ne_zero hs' hpos
  have h1 : 0 < lidWeight lidW k.1 := lt_of_le_of_ne (hnonneg k.1) hne1.symm
  have h2 : 0 < lidWeight lidW k.2 := lt_of_le_of_ne (hnonneg k.2) hne2.symm
  rw [score2_eq h1 h2] at hs' ⊢
  refine ⟨_, rfl, ?_⟩
  rw [← Except.ok.inj hs']
  exact maxZero_factor_mono (by positivity) ht hw

/-- So does that of a triple. A score above zero has three weights above zero, so the divisions
keep the order too. -/
theorem score3_mono : ScoreMono score3 := by
  intro lidW hnonneg t t' w w' k s' ht hw hs' hpos
  obtain ⟨hne1, hne2, hne3⟩ := score3_ne_zero hs' hpos
  have h1 : 0 < lidWeight lidW k.1 := lt_of_le_of_ne (hnonneg k.1) hne1.symm
  have h2 : 0 < lidWeight lidW k.2.1 := lt_of_le_of_ne (hnonneg k.2.1) hne2.symm
  have h3 : 0 < lidWeight lidW k.2.2 := lt_of_le_of_ne (hnonneg k.2.2) hne3.symm
  rw [score3_eq h1 h2 h3] at hs' ⊢
  refine ⟨_, rfl, ?_⟩
  rw [← Except.ok.inj hs']
  exact maxZero_factor_mono (by positivity) ht hw

end Scores

section Mono
variable {K : Type} [LemTuple K] [DecidableEq K] {lems : List (List UInt32)}

/-- More records give no tuple a lower weight. -/
theorem lemWeight_mono {grams grams' : List (Gram K)} (h : grams'.Sublist grams) (k : K) :
    lemWeight lems grams' k ≤ lemWeight lems grams k := by
  refine (h.map _).sum_le_sum (fun x hx => ?_)
  obtain ⟨g, -, rfl⟩ := List.mem_map.mp hx
  exact share_nonneg _ _ _

/-- More records and a lower threshold give all the groups again, with no smaller weight. The
weight of a tuple grows with the records, and its score with the weight. -/
theorem GroupFile.mono {score : FlatHashMap UInt32 ℚ → ℚ → ℚ → K → Except Error ℚ}
    (hscore : ScoreMono score) {lidW : FlatHashMap UInt32 ℚ}
    (hnonneg : ∀ l, 0 ≤ lidWeight lidW l) {t t' : ℚ} (ht : t ≤ t')
    {grams grams' : List (Gram K)} (hsub : grams'.Sublist grams) {out out' : List (LemGroup K ℚ)}
    (h : GroupFile lems (score lidW t) grams out)
    (h' : GroupFile lems (score lidW t') grams' out') {lg' : LemGroup K ℚ} (hlg' : lg' ∈ out') :
    ∃ lg ∈ out, lg.lids = lg'.lids ∧ lg'.weight ≤ lg.weight := by
  have hpos := h'.positive lg' hlg'
  obtain ⟨s, hs, hle⟩ := hscore lidW hnonneg t t' _ _ lg'.lids lg'.weight ht
    (lemWeight_mono hsub lg'.lids) (h'.weight lg' hlg') hpos
  obtain ⟨g, hg, hmem⟩ := h'.arises lg' hlg'
  obtain ⟨lg, hlg, hkey⟩ := h.complete lg'.lids s ⟨g, hsub.subset hg, hmem⟩ hs
    (hpos.trans_le hle)
  -- The group of these lemmas in the other file has the score as its weight.
  have hweight := h.weight lg hlg
  rw [hkey, hs] at hweight
  exact ⟨lg, hlg, hkey, (Except.ok.inj hweight) ▸ hle⟩

end Mono

end Colloc.Proofs

import Colloc.Lib.Total
import Colloc.Proofs.Corpus
import Colloc.Proofs.ExternalSort
import Colloc.Proofs.LemWeights
import Colloc.Spec.Freq

/-!
# `Colloc.Proofs.Groups`: the group files of a corpus

A group of `extended2.bin` or `extended3.bin` comes from the corpus: its lemmas are lemmas
of a window of a phrase, and so are the words of its cases, of which there is at least one
(`FromCorpus`). `group_lem2` and `group_lem3` write only such groups and look no lemma up in
vain (`groupLem_fromCorpus`), whatever the weights are. The table that counts their documents is
loaded with the first record of each tuple (`loadFreqs_eq`).
-/

set_option autoImplicit false

namespace Colloc.Proofs

open Colloc.Lib
open Colloc.Spec

/-- A group comes from the windows of the corpus. -/
structure FromCorpus {K R : Type} [LemTuple K] [Double R] (windows : Phrase → List K)
    (lems : List (List UInt32)) (corpus : List Phrase) (lg : LemGroup K R) : Prop where
  arises : ∃ k ∈ corpus.flatMap windows, lg.lids ∈ combos lems k
  cases_ne : lg.cases ≠ []
  words : ∀ cs ∈ lg.cases, cs.wids ∈ corpus.flatMap windows
  isNumber : Double.isNumber lg.weight

/-! ### The group-by -/

section Emitted
variable {K R A : Type} [LemTuple K] [DecidableEq K] [Double R]

/-- What `emit` makes of the group `r`. -/
def emittedBy (emit : LemGroup K R → R → Except Error (Option A)) (lems : List (List UInt32))
    (r : K × List (LemAndWords K)) : Option A :=
  match emit (groupMsg r) (weightOf lems r.2) with
  | .ok out => out
  | .error _ => none

omit [DecidableEq K] in
/-- A group that does not fail emits what `emittedBy` says. -/
theorem emit_eq_emittedBy {emit : LemGroup K R → R → Except Error (Option A)}
    {lems : List (List UInt32)} {r : K × List (LemAndWords K)}
    (h : ∃ out, emit (groupMsg r) (weightOf lems r.2) = .ok out) :
    emit (groupMsg r) (weightOf lems r.2) = .ok (emittedBy emit lems r) := by
  obtain ⟨out, hout⟩ := h
  rw [emittedBy, hout]

omit [LemTuple K] [DecidableEq K] in
/-- A group does not fail when its score can be computed. -/
theorem emitBy_ok {score : R → K → Except Error R} {msg : LemGroup K R} {weight : R}
    (h : ∃ s, score weight msg.lids = .ok s) : ∃ out, emitBy score msg weight = .ok out := by
  obtain ⟨s, hs⟩ := h
  unfold emitBy
  rw [hs]
  exact ⟨_, rfl⟩

omit [DecidableEq K] in
/-- A written group is the message of its run, with a weight above zero in its place. -/
theorem of_mem_emittedBy {score : R → K → Except Error R} {lems : List (List UInt32)}
    {r : K × List (LemAndWords K)} {lg : LemGroup K R}
    (h : lg ∈ (emittedBy (emitBy score) lems r).toList) :
    ∃ w, Double.less 0 w = true ∧ lg = { groupMsg (R := R) r with weight := w } := by
  unfold emittedBy emitBy at h
  cases hscore : score (weightOf lems r.2) (groupMsg (R := R) r).lids with
  | error e =>
      rw [hscore] at h
      exact absurd h List.not_mem_nil
  | ok w =>
      rw [hscore] at h
      by_cases hw : Double.less 0 w = true
      · -- The group is written only when its weight is above zero.
        simp only [hw, if_true, Option.toList_some, List.mem_singleton] at h
        exact ⟨w, hw, h⟩
      · simp only [hw, if_false, Bool.false_eq_true] at h
        exact absurd h List.not_mem_nil

end Emitted

/-- A score is found when the lemmas of the tuple have entries. -/
def ScoreFound {K R : Type} [IdTuple K] [Double R]
    (score : FlatHashMap UInt32 R → R → R → K → Except Error R) : Prop :=
  ∀ lidW t w k, (∀ l ∈ IdTuple.toList k, (lidW.lookup l).isSome) →
    ∃ s, score lidW t w k = .ok s

section Score
variable {R : Type} [Double R]

/-- A key that is in a map can be dereferenced. -/
theorem deref_of_isSome {κ ν : Type} [DecidableEq κ] {m : FlatHashMap κ ν} {k : κ}
    (h : (m.lookup k).isSome) (what : String) :
    ∃ v, m.lookup k = some v ∧ m.deref k what = .ok v := by
  obtain ⟨v, hv⟩ := Option.isSome_iff_exists.mp h
  exact ⟨v, hv, by rw [FlatHashMap.deref, hv]⟩

/-- The score of a pair can be computed when the weights of its lemmas are found. A weight of zero
gives the score zero, so no division is by zero. -/
theorem score2_found : ScoreFound (score2 (R := R)) := by
  intro lidW t w k hk
  obtain ⟨w1, -, h1⟩ := deref_of_isSome (hk k.1 (by simp [IdTuple.toList])) "it1->second"
  obtain ⟨w2, -, h2⟩ := deref_of_isSome (hk k.2 (by simp [IdTuple.toList])) "it2->second"
  unfold score2
  simp only [h1, h2]
  -- `||` may stop at a zero, and then the later lemmas are not looked up.
  by_cases hz1 : Double.isZero w1 = true
  · exact ⟨0, by rw [if_pos hz1]⟩
  · by_cases hz2 : Double.isZero w2 = true
    · exact ⟨0, by rw [if_neg hz1, if_pos hz2]⟩
    · exact ⟨_, by rw [if_neg hz1, if_neg hz2]⟩

/-- So can that of a triple, by three lookups. -/
theorem score3_found : ScoreFound (score3 (R := R)) := by
  intro lidW t w k hk
  obtain ⟨w1, -, h1⟩ := deref_of_isSome (hk k.1 (by simp [IdTuple.toList])) "it1->second"
  obtain ⟨w2, -, h2⟩ := deref_of_isSome (hk k.2.1 (by simp [IdTuple.toList])) "it2->second"
  obtain ⟨w3, -, h3⟩ := deref_of_isSome (hk k.2.2 (by simp [IdTuple.toList])) "it3->second"
  unfold score3
  simp only [h1, h2, h3]
  by_cases hz1 : Double.isZero w1 = true
  · exact ⟨0, by rw [if_pos hz1]⟩
  · by_cases hz2 : Double.isZero w2 = true
    · exact ⟨0, by rw [if_neg hz1, if_pos hz2]⟩
    · by_cases hz3 : Double.isZero w3 = true
      · exact ⟨0, by rw [if_neg hz1, if_neg hz2, if_pos hz3]⟩
      · exact ⟨_, by rw [if_neg hz1, if_neg hz2, if_neg hz3]⟩

end Score

section GroupLem
variable {K R : Type} [LemTuple K] [DecidableEq K] [LawfulTuple K] [Double R]
  {windows : Phrase → List K} {corpus : List Phrase} {lemsFile : RecordFile PhraseMsg}

omit [DecidableEq K] [Double R] in
/-- The lemmas of a gram are lemmas of words in `uni.bin`, so they have weights. The words of the
corpus are those of this file. -/
theorem isSome_of_gram {uni : RecordFile Unigram} (huni : ListsWords uni corpus.flatten)
    (hwin : WindowsOf windows) {lidW : FlatHashMap UInt32 R}
    (hkeys : ∀ l, (lidW.lookup l).isSome ↔
      ∃ m ∈ uni.msgs, l ∈ combos (tableOf lemsFile) m.id)
    {g : Gram K} (hg : g.ids ∈ corpus.flatMap windows) {k : K}
    (hk : k ∈ combos (tableOf lemsFile) g.ids) :
    ∀ l ∈ IdTuple.toList k, (lidW.lookup l).isSome := by
  intro l hl
  obtain ⟨w, hw, hmem⟩ := LawfulTuple.mem_toList _ g.ids k hk l hl
  obtain ⟨m, hm, rfl⟩ := List.mem_map.mp ((huni.mem_iff w).mpr (hwin.mem_flatten hg hw))
  exact (hkeys l).mpr ⟨m, hm, hmem⟩

omit [DecidableEq K] [LawfulTuple K] in
/-- A run of records that come from grams of the corpus is a group from the corpus: its lemmas and
its cases are those of windows of the corpus. -/
theorem fromCorpus_of_run {grams : List (Gram K)}
    (hgrams : ∀ g ∈ grams, g.ids ∈ corpus.flatMap windows) {k : K} {run : List (LemAndWords K)}
    (hne : run ≠ []) (hkey : ∀ it ∈ run, it.lids = k)
    (hfrom : ∀ it ∈ run, ∃ g ∈ grams, it ∈ expanded (tableOf lemsFile) g) {w : R}
    (hw : Double.less 0 w = true) :
    FromCorpus windows (tableOf lemsFile) corpus ⟨k, w, run.map caseOf⟩ := by
  obtain ⟨it, hit⟩ := List.exists_mem_of_ne_nil run hne
  refine ⟨?_, ?_, fun cs hcs => ?_, Double.isNumber_of_pos w hw⟩
  · obtain ⟨g, hg, hexp⟩ := hfrom it hit
    refine ⟨g.ids, hgrams g hg, ?_⟩
    rw [← hkey it hit]
    exact ((mem_expanded _).mp hexp).1
  · exact List.ne_nil_of_mem (List.mem_map_of_mem (f := caseOf) hit)
  · obtain ⟨it', hit', rfl⟩ := List.mem_map.mp hcs
    obtain ⟨g, hg, hexp⟩ := hfrom it' hit'
    show it'.wids ∈ _
    rw [((mem_expanded _).mp hexp).2.1]
    exact hgrams g hg

/-- Grams from the corpus give groups from the corpus, and the stage does not fail: all words have
lemmas, and all lemmas of the corpus have weights. -/
theorem groupLem_fromCorpus {score : FlatHashMap UInt32 R → R → R → K → Except Error R}
    (hscore : ScoreFound score) (std : Stdlib) (hlems : HaveLemmas (tableOf lemsFile) corpus)
    {uni : RecordFile Unigram} (huni : ListsWords uni corpus.flatten)
    (hwin : WindowsOf windows) (grams : RecordFile (Gram K))
    (hgrams : ∀ g ∈ grams.msgs, g.ids ∈ corpus.flatMap windows) (t : R) :
    ∃ out, groupLem std score lemsFile uni grams t = .ok { total := 0, msgs := out } ∧
      ∀ lg ∈ out, FromCorpus windows (tableOf lemsFile) corpus lg := by
  have hword : ∀ m ∈ uni.msgs, Covered (tableOf lemsFile) m.id :=
    fun m hm => (hlems m.id ((huni.mem_iff m.id).mp (List.mem_map_of_mem hm))).1
  obtain ⟨lidW, hlidW, hkeys⟩ := buildLemWeights_ok (R := R) (tableOf lemsFile) hword
  obtain ⟨out, hsorted, hmem, -, hok⟩ := groupLemBy_spec (emitBy (score lidW t)) std
    (f := emittedBy (emitBy (score lidW t)) (tableOf lemsFile))
    (fun g hg => (hlems.window hwin (hgrams g hg)).1)
    (fun g hg => (hlems.window hwin (hgrams g hg)).2)
    (fun k run hrun hkey hfrom => by
      obtain ⟨it, hit⟩ := List.exists_mem_of_ne_nil run hrun
      obtain ⟨g, hg, hexp⟩ := hfrom it hit
      have hk : k ∈ combos (tableOf lemsFile) g.ids :=
        hkey it hit ▸ ((mem_expanded _).mp hexp).1
      exact emit_eq_emittedBy (emitBy_ok (hscore lidW t _ k
        (isSome_of_gram huni hwin hkeys (hgrams g hg) hk))))
  have hstage : groupLem std score lemsFile uni grams t
      = .ok (RecordFile.mk 0 ((runs LemAndWords.lids out).flatMap (fun r =>
          (emittedBy (emitBy (score lidW t)) (tableOf lemsFile) r).toList))) := by
    unfold groupLem
    simp only [loadLems_eq, hlidW, hok]
  refine ⟨_, hstage, fun lg hlg => ?_⟩
  obtain ⟨r, hr, hemitted⟩ := List.mem_flatMap.mp hlg
  obtain ⟨w, hw, rfl⟩ := of_mem_emittedBy hemitted
  -- Each record of the run comes from a gram.
  obtain ⟨hne, hkeys⟩ := of_mem_runs LemAndWords.lids hsorted hr
  exact fromCorpus_of_run hgrams hne (fun it hit => (hkeys it hit).2)
    (fun it hit => List.mem_flatMap.mp (hmem it (hkeys it hit).1)) hw

end GroupLem

/-! ### The document counts -/

section Counts
variable {K : Type} [IdTuple K] [DecidableEq K]

/-- The document count of a tuple in `bifreq.bin` or `trifreq.bin`: `try_emplace` keeps that of
the first record. -/
def docCountIn (freq : RecordFile (Gram K)) (k : K) : UInt32 :=
  ((freq.msgs.find? (fun g => decide (g.ids = k))).map Gram.weight).getD 0

/-- The table that is loaded has the first record of each tuple. -/
theorem loadFreqs_eq (file : RecordFile (Gram K)) :
    ∃ freqs, loadFreqs file = .ok freqs ∧ ∀ k,
      freqs.lookup k = (file.msgs.find? (fun g => decide (g.ids = k))).map Gram.weight := by
  refine ⟨_, readApply_pure _ _ _, fun k => ?_⟩
  rw [FlatHashMap.lookup_foldl_tryEmplace Gram.ids Gram.weight, AList.lookup_empty,
    Option.none_or]

omit [IdTuple K] in
/-- A tuple of the file has a record, and the count that is looked up is that of the first one. -/
theorem find_eq_docCountIn {file : RecordFile (Gram K)} {k : K}
    (h : k ∈ file.msgs.map Gram.ids) :
    (file.msgs.find? (fun g => decide (g.ids = k))).map Gram.weight
      = some (docCountIn file k) := by
  obtain ⟨g, hg, hk⟩ := List.mem_map.mp h
  cases hfind : file.msgs.find? (fun g => decide (g.ids = k)) with
  | none =>
      have hne := List.find?_eq_none.mp hfind g hg
      simp [hk] at hne
  | some g' => simp [docCountIn, hfind]

/-- The loaded frequencies have the keys of the file, each with the weight of one of its records.
-/
theorem loadFreqs_spec (file : RecordFile (Gram K)) :
    ∃ freqs, loadFreqs file = .ok freqs ∧
      (∀ k, (freqs.lookup k).isSome ↔ k ∈ file.msgs.map Gram.ids) ∧
      ∀ k c, freqs.lookup k = some c → ∃ g ∈ file.msgs, g.ids = k ∧ g.weight = c := by
  obtain ⟨freqs, hload, hlookup⟩ := loadFreqs_eq file
  refine ⟨freqs, hload, fun k => ?_, fun k c hc => ?_⟩
  · rw [hlookup, Option.isSome_map, List.find?_isSome]
    simp
  · rw [hlookup] at hc
    obtain ⟨g, hfind, hweight⟩ := Option.map_eq_some_iff.mp hc
    exact ⟨g, List.mem_of_find?_eq_some hfind, by simpa using List.find?_some hfind, hweight⟩

end Counts

end Colloc.Proofs

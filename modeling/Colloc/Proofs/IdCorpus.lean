import Colloc.Lib.CorpusRename
import Colloc.Proofs.Marginals
import Colloc.Proofs.RenameRun

/-!
# `Colloc.Proofs.IdCorpus`: the collocations of a run, in ids

`idCorpus` is the corpus of the documents of `corpus.bin` with the lemma table of `lems.bin`:
its words are word ids and its lemmas lemma ids. A tuple of ids is the list of its ids
(`ListedTuple`), and the pairs and triples of a phrase are its windows of two and three words
(`ListsNgrams`).

The counts of the stages are the notions of the corpus: the document counts
(`docFreq_idCorpus`), the accumulated weights (`CountsSelected.weight`), the cases
(`CountsSelected.cases`) and the weights of the lemmas (`lemmaWeight_idCorpus`). So the groups that
a filter keeps are the collocations (`CountsSelected.lists`), and a run writes the collocations of
two and of three lemmas (`Run.lists2`, `Run.lists3`).
-/

set_option autoImplicit false

namespace Colloc.Proofs

open Colloc.Lib
open Colloc.Spec

/-! ### Tuples as lists -/

/-- Lists of the same length that are related place by place, in two parts. -/
theorem forall₂_append_iff {α β : Type} {R : α → β → Prop} {as as' : List α} {bs bs' : List β}
    (h : as.length = bs.length) :
    List.Forall₂ R (as ++ as') (bs ++ bs') ↔ List.Forall₂ R as bs ∧ List.Forall₂ R as' bs' := by
  induction as generalizing bs with
  | nil =>
      rw [List.length_nil] at h
      rw [List.eq_nil_of_length_eq_zero h.symm]
      simp
  | cons a as ih =>
      cases bs with
      | nil => cases h
      | cons b bs =>
          rw [List.cons_append, List.cons_append, List.forall₂_cons, List.forall₂_cons,
            ih (Nat.succ.inj h), and_assoc]

/-- A type of tuples of ids of one length. The lemma tuples of a tuple are chosen id by id. -/
class ListedTuple (K : Type) [LemTuple K] : Prop where
  length_eq : ∀ k k' : K, (IdTuple.toList k).length = (IdTuple.toList k').length
  injective : Function.Injective (IdTuple.toList : K → List UInt32)
  exists_of_length : ∀ (k : K) {ids : List UInt32}, (IdTuple.toList k).length = ids.length →
    ∃ k' : K, IdTuple.toList k' = ids
  mem_combos_iff : ∀ (lems : List (List UInt32)) (k l : K), l ∈ combos lems k ↔
    List.Forall₂ (fun w y => y ∈ combos lems w) (IdTuple.toList k) (IdTuple.toList l)
  length_combos : ∀ (lems : List (List UInt32)) (k : K),
    (combos lems k).length = ((IdTuple.toList k).map (fun w => (combos lems w).length)).prod
  timesIn_combos : ∀ [DecidableEq K] (lems : List (List UInt32)) (k l : K),
    timesIn (combos lems k) l = (List.zipWith (fun w y => (combos lems w).count y)
      (IdTuple.toList k) (IdTuple.toList l)).prod

instance : ListedTuple UInt32 where
  length_eq _ _ := rfl
  injective _ _ h := List.singleton_inj.mp h
  exists_of_length _ ids h := by
    obtain ⟨id, rfl⟩ := List.length_eq_one_iff.mp h.symm
    exact ⟨id, rfl⟩
  mem_combos_iff lems k l := by
    show _ ↔ List.Forall₂ _ [k] [l]
    simp
  length_combos lems k := by
    show _ = ([k].map (fun w => (combos lems w).length)).prod
    simp
  timesIn_combos {inst} lems k l := by
    show _ = (List.zipWith _ [k] [l]).prod
    rw [List.zipWith_cons_cons, List.zipWith_nil_left, List.prod_singleton]
    exact List.countP_congr (fun x _ => by simp)

instance {A B : Type} [LemTuple A] [LemTuple B] [ListedTuple A] [ListedTuple B] :
    ListedTuple (A × B) where
  length_eq k k' := by
    show (IdTuple.toList k.1 ++ IdTuple.toList k.2).length
      = (IdTuple.toList k'.1 ++ IdTuple.toList k'.2).length
    rw [List.length_append, List.length_append, ListedTuple.length_eq k.1 k'.1,
      ListedTuple.length_eq k.2 k'.2]
  injective k k' h := by
    obtain ⟨h1, h2⟩ := List.append_inj h (ListedTuple.length_eq k.1 k'.1)
    exact Prod.ext (ListedTuple.injective h1) (ListedTuple.injective h2)
  exists_of_length k ids h := by
    have hlen : (IdTuple.toList k.1).length + (IdTuple.toList k.2).length = ids.length := by
      rw [← h, ← List.length_append]
      rfl
    have htake : (IdTuple.toList k.1).length
        = (ids.take (IdTuple.toList k.1).length).length := by
      rw [List.length_take]
      omega
    have hdrop : (IdTuple.toList k.2).length
        = (ids.drop (IdTuple.toList k.1).length).length := by
      rw [List.length_drop]
      omega
    obtain ⟨a, ha⟩ := ListedTuple.exists_of_length k.1 htake
    obtain ⟨b, hb⟩ := ListedTuple.exists_of_length k.2 hdrop
    refine ⟨(a, b), ?_⟩
    show IdTuple.toList a ++ IdTuple.toList b = ids
    rw [ha, hb, List.take_append_drop]
  mem_combos_iff lems k l := by
    show _ ↔ List.Forall₂ _ (IdTuple.toList k.1 ++ IdTuple.toList k.2)
      (IdTuple.toList l.1 ++ IdTuple.toList l.2)
    rw [forall₂_append_iff (ListedTuple.length_eq k.1 l.1), mem_combos_prod,
      ListedTuple.mem_combos_iff, ListedTuple.mem_combos_iff]
  length_combos lems k := by
    show _ = ((IdTuple.toList k.1 ++ IdTuple.toList k.2).map _).prod
    rw [length_combos_prod, ListedTuple.length_combos, ListedTuple.length_combos, List.map_append,
      List.prod_append]
  timesIn_combos {inst} lems k l := by
    classical
    rw [Subsingleton.elim inst instDecidableEqProd, timesIn_combos_prod,
      ListedTuple.timesIn_combos, ListedTuple.timesIn_combos]
    show _ = (List.zipWith _ (IdTuple.toList k.1 ++ IdTuple.toList k.2)
      (IdTuple.toList l.1 ++ IdTuple.toList l.2)).prod
    rw [List.zipWith_append (ListedTuple.length_eq k.1 l.1), List.prod_append]

/-- The windows of a phrase, as lists, are its contiguous sublists of length `n`. -/
def ListsNgrams {K : Type} [IdTuple K] (windows : Phrase → List K) (n : Nat) : Prop :=
  ∀ ids, ngrams n ids = (windows ids).map IdTuple.toList

/-- The words are the windows of one. -/
theorem listsNgrams_id : ListsNgrams (id : Phrase → List UInt32) 1 := fun ids => ngrams_one ids

/-- The pairs are the windows of two. -/
theorem listsNgrams_pairs : ListsNgrams pairs 2 := fun ids => ngrams_two ids

/-- The triples are the windows of three. -/
theorem listsNgrams_triples : ListsNgrams triples 3 := fun ids => ngrams_three ids

/-! ### The corpus of ids -/

/-- The documents of `corpus.bin` with the lemma table. -/
def idCorpus (docs : List (List Phrase)) (lems : List (List UInt32)) : Corpus UInt32 UInt32 :=
  { docs := docs, lemmas := combos lems }

/-- The empty phrases between the documents add nothing. -/
theorem flatMap_corpusOf {A : Type} (docs : List (List Phrase)) {f : Phrase → List A}
    (hf : f [] = []) : (corpusOf docs).flatMap f = docs.flatten.flatMap f := by
  induction docs with
  | nil => rfl
  | cons doc docs ih =>
      show ((doc ++ [[]]) ++ corpusOf docs).flatMap f = (doc ++ docs.flatten).flatMap f
      rw [List.flatMap_append, List.flatMap_append, List.flatMap_append, ih]
      simp [hf]

variable {docs : List (List Phrase)} {lems : List (List UInt32)}

variable (docs lems) in
/-- The words of the corpus of ids are those of `corpus.bin`. -/
theorem words_idCorpus : (idCorpus docs lems).words = (corpusOf docs).flatten := by
  have hflat := @flatMap_corpusOf UInt32 docs id rfl
  rw [List.flatMap_id, List.flatMap_id] at hflat
  exact hflat.symm

section Windows
variable {K : Type} [LemTuple K] {windows : Phrase → List K} {n : Nat}
  (hwin : ListsNgrams windows n)

include hwin

variable (docs lems) in
/-- Its windows are those that a stage counts. -/
theorem grams_idCorpus :
    (idCorpus docs lems).grams n = ((corpusOf docs).flatMap windows).map IdTuple.toList := by
  have hnil : windows [] = [] := List.map_eq_nil_iff.mp (hwin []).symm
  rw [flatMap_corpusOf docs hnil, List.map_flatMap]
  exact List.flatMap_congr (fun ids _ => hwin ids)

variable [ListedTuple K] [DecidableEq K]

variable (docs) in
omit hwin [DecidableEq K] in
/-- A window carries the tuples that are among its readings. -/
theorem carries_idCorpus (k l : K) :
    (idCorpus docs lems).Carries (IdTuple.toList k) (IdTuple.toList l) ↔ l ∈ combos lems k :=
  (ListedTuple.mem_combos_iff lems k l).symm

omit hwin in
/-- As often as they are there. -/
theorem multiplicity_idCorpus (k l : K) :
    (idCorpus docs lems).multiplicity (IdTuple.toList k) (IdTuple.toList l)
      = timesIn (combos lems k) l :=
  (ListedTuple.timesIn_combos lems k l).symm

omit hwin in
/-- So the part that it gives to a tuple is that of the stage. -/
theorem part_idCorpus (k l : K) :
    (idCorpus docs lems).part (IdTuple.toList k) (IdTuple.toList l) = part lems k l := by
  unfold Corpus.part part
  rw [multiplicity_idCorpus, ListedTuple.length_combos]
  rfl

/-- The document frequency of a tuple is what the stage counts. -/
theorem docFreq_idCorpus {k : K} (hlen : (IdTuple.toList k).length = n) :
    (idCorpus docs lems).docFreq (IdTuple.toList k) = docCount windows lems docs k := by
  subst hlen
  refine List.countP_congr (fun doc _ => ?_)
  rw [decide_eq_true_eq, decide_eq_true_eq, mem_docKeys]
  constructor
  · rintro ⟨ids, hids, ws, hws, hcarries⟩
    rw [hwin ids] at hws
    obtain ⟨w, hw, rfl⟩ := List.mem_map.mp hws
    exact ⟨ids, hids, w, hw, (carries_idCorpus docs w k).mp hcarries⟩
  · rintro ⟨ids, hids, w, hw, hk⟩
    refine ⟨ids, hids, IdTuple.toList w, ?_, (carries_idCorpus docs w k).mpr hk⟩
    rw [hwin ids]
    exact List.mem_map_of_mem hw

end Windows

/-- The weight of a lemma is the sum of its parts of the words. -/
theorem lemmaWeight_idCorpus (l : UInt32) :
    (idCorpus docs lems).lemmaWeight l
      = ((corpusOf docs).flatten.map (fun w => part lems w l)).sum := by
  have hgrams := grams_idCorpus docs lems listsNgrams_id
  rw [List.flatMap_id] at hgrams
  show (((idCorpus docs lems).selected Set.univ 1).map _).sum = _
  rw [Corpus.selected_univ, hgrams, List.map_map]
  exact congrArg List.sum (List.map_congr_left (fun w _ => part_idCorpus w l))

/-! ### The groups that a filter keeps -/

/-- A group, its tuples as lists. -/
def listGroup {K : Type} [IdTuple K] (lg : LemGroup K ℚ) :
    List UInt32 × ℚ × Multiset (List UInt32 × Nat) :=
  (IdTuple.toList lg.lids, lg.weight,
    (lg.cases.map (fun cs => (IdTuple.toList cs.wids, cs.count.toNat)) : List _))

/-- What a filter keeps, without the counter. -/
theorem mem_filtered_iff {K : Type} [LemTuple K] [DecidableEq K] {windows : Phrase → List K}
    {docs : List (List Phrase)} {lems : List (List UInt32)} (hdocs : docs.length < 2 ^ 32)
    {extended filtered : List (LemGroup K ℚ)} {th1 : UInt32} {th2 : ℚ}
    (hperm : filtered.Perm (extended.filter
      (aboveBoth (fun k => UInt32.ofNat (docCount windows lems docs k)) th1 th2)))
    (lg : LemGroup K ℚ) : lg ∈ filtered ↔
      lg ∈ extended ∧ th1.toNat < docCount windows lems docs lg.lids ∧ th2 < lg.weight := by
  rw [hperm.mem_iff, List.mem_filter, aboveBoth, Bool.and_eq_true, decide_eq_true_eq]
  have hcount : docCount windows lems docs lg.lids < 2 ^ 32 :=
    (docCount_le_length windows lems docs lg.lids).trans_lt hdocs
  have hless : Double.less th2 lg.weight = true ↔ th2 < lg.weight := decide_eq_true_iff
  rw [hless, gt_iff_lt, UInt32.lt_iff_toNat_lt, UInt32.toNat_ofNat', Nat.mod_eq_of_lt hcount]

/-- The records count the windows of the documents that are in the selection. -/
structure CountsSelected {K : Type} [LemTuple K] [DecidableEq K] (windows : Phrase → List K)
    (n : Nat) (docs : List (List Phrase)) (sel : Set (List UInt32)) (grams : List (Gram K)) :
    Prop where
  ngrams : ListsNgrams windows n
  nodup : (grams.map Gram.ids).Nodup
  mem_iff : ∀ k, k ∈ grams.map Gram.ids ↔
    k ∈ (corpusOf docs).flatMap windows ∧ IdTuple.toList k ∈ sel
  few : ∀ k, timesIn ((corpusOf docs).flatMap windows) k < 2 ^ 32
  weight : ∀ g ∈ grams, g.weight = occurrences ((corpusOf docs).flatMap windows) g.ids

namespace CountsSelected
variable {K : Type} [LemTuple K] [ListedTuple K] [DecidableEq K] {windows : Phrase → List K}
  {n : Nat} {sel : Set (List UInt32)} {grams : List (Gram K)}
  (h : CountsSelected windows n docs sel grams)

include h

omit [ListedTuple K] in
/-- The selected windows are those whose keys are in the file. -/
theorem selected : (idCorpus docs lems).selected sel n
    = (((corpusOf docs).flatMap windows).filter (fun k =>
        decide (k ∈ grams.map Gram.ids))).map IdTuple.toList := by
  classical
  unfold Corpus.selected
  rw [grams_idCorpus docs lems h.ngrams, List.filter_map]
  refine congrArg _ (List.filter_congr (fun k hk => ?_))
  rw [Function.comp_apply]
  exact decide_eq_decide.mpr ((h.mem_iff k).trans (and_iff_right hk)).symm

/-- The accumulated weights. -/
theorem weight_eq {l : K} (hlen : (IdTuple.toList l).length = n) :
    (idCorpus docs lems).weight sel (IdTuple.toList l) = lemWeight lems grams l := by
  subst hlen
  unfold Corpus.weight
  rw [h.selected, List.map_map, lemWeight_of_counts lems h.nodup h.weight h.few]
  exact congrArg List.sum (List.map_congr_left (fun k _ => part_idCorpus k l))

/-- A lemma tuple arises from a record if and only if a selected window carries it. The records
are the selected windows, each with its count. -/
theorem arises_iff {l : K} (hlen : (IdTuple.toList l).length = n) :
    (∃ ws ∈ (idCorpus docs lems).selected sel (IdTuple.toList l).length,
      (idCorpus docs lems).Carries ws (IdTuple.toList l)) ↔
      ∃ g ∈ grams, l ∈ combos lems g.ids := by
  subst hlen
  rw [h.selected]
  constructor
  · rintro ⟨ws, hws, hcarries⟩
    obtain ⟨k, hk, rfl⟩ := List.mem_map.mp hws
    obtain ⟨g, hg, rfl⟩ := List.mem_map.mp (of_decide_eq_true (List.mem_filter.mp hk).2)
    exact ⟨g, hg, (carries_idCorpus docs g.ids l).mp hcarries⟩
  · rintro ⟨g, hg, hl⟩
    have hmem : g.ids ∈ grams.map Gram.ids := List.mem_map_of_mem hg
    refine ⟨IdTuple.toList g.ids, List.mem_map_of_mem (List.mem_filter.mpr
      ⟨((h.mem_iff g.ids).mp hmem).1, decide_eq_true hmem⟩), ?_⟩
    exact (carries_idCorpus docs g.ids l).mpr hl

/-- A list that a selected window carries is a tuple. -/
theorem exists_tuple {ls : List UInt32}
    (harises : ∃ ws ∈ (idCorpus docs lems).selected sel ls.length,
      (idCorpus docs lems).Carries ws ls) (hlen : ls.length = n) :
    ∃ l : K, IdTuple.toList l = ls := by
  obtain ⟨ws, hws, hcarries⟩ := harises
  rw [hlen, h.selected] at hws
  obtain ⟨k, -, rfl⟩ := List.mem_map.mp hws
  exact ListedTuple.exists_of_length k (hcarries.length_eq)

/-- The distinct selected windows are those of the records. -/
theorem dedup_selected : ((idCorpus docs lems).selected sel n).dedup.Perm
    ((grams.map Gram.ids).map IdTuple.toList) := by
  have hnd := h.nodup.map ListedTuple.injective
  refine (List.perm_ext_iff_of_nodup (List.nodup_dedup _) hnd).mpr (fun ws => ?_)
  rw [List.mem_dedup, h.selected, List.mem_map, List.mem_map]
  refine exists_congr (fun k => and_congr_left (fun _ => ?_))
  rw [List.mem_filter, decide_eq_true_eq]
  exact ⟨And.right, fun hk => ⟨((h.mem_iff k).mp hk).1, hk⟩⟩

/-- A record has the count of its window. -/
theorem weight_toNat {g : Gram K} (hg : g ∈ grams) :
    g.weight.toNat = ((idCorpus docs lems).grams n).count (IdTuple.toList g.ids) := by
  have hcount : (((corpusOf docs).flatMap windows).map IdTuple.toList).count (IdTuple.toList g.ids)
      = timesIn ((corpusOf docs).flatMap windows) g.ids :=
    List.count_map_of_injective _ _ ListedTuple.injective _
  rw [h.weight g hg, toNat_occurrences (h.few g.ids), grams_idCorpus docs lems h.ngrams, hcount]

/-- The cases of a group. -/
theorem cases_eq {l : K} (hlen : (IdTuple.toList l).length = n) {cases : List (Case K)}
    (hcases : cases.Perm (casesIn lems grams l)) :
    (idCorpus docs lems).cases sel (IdTuple.toList l)
      = ((cases.map (fun cs => (IdTuple.toList cs.wids, cs.count.toNat)) : List _) :
          Multiset (List UInt32 × Nat)) := by
  subst hlen
  unfold Corpus.cases
  rw [Multiset.coe_eq_coe]
  refine (h.dedup_selected.flatMap_right _).trans ?_
  refine List.Perm.trans (List.Perm.of_eq ?_) (hcases.map _).symm
  rw [List.flatMap_map, List.flatMap_map, casesIn, casesBy, List.map_flatMap]
  refine List.flatMap_congr (fun g hg => ?_)
  rw [multiplicity_idCorpus, ← h.weight_toNat hg, List.map_replicate]

variable {score : ℚ → K → Except Error ℚ} {t : ℚ}

section Extended
variable {extended : List (LemGroup K ℚ)} (hlen : ∀ k : K, (IdTuple.toList k).length = n)
  (hscore : ∀ g ∈ grams, ∀ l ∈ combos lems g.ids,
    0 < (idCorpus docs lems).factor (IdTuple.toList l) ∧ ∀ w,
      score w l = .ok (maxZero ((idCorpus docs lems).factor (IdTuple.toList l) * (w - t))))
  (hfile : GroupFile lems score grams extended)

include hlen hscore hfile

/-- The groups are the lemma tuples in the windows with a weight above the threshold. -/
theorem mem_extended_iff (l : K) : l ∈ extended.map LemGroup.lids ↔
    (∃ ws ∈ (idCorpus docs lems).selected sel (IdTuple.toList l).length,
      (idCorpus docs lems).Carries ws (IdTuple.toList l)) ∧
    t < (idCorpus docs lems).weight sel (IdTuple.toList l) := by
  have hexact := hfile.exact hscore
  rw [h.arises_iff (hlen l), h.weight_eq (hlen l), List.mem_map]
  constructor
  · rintro ⟨lg, hlg, rfl⟩
    exact ⟨hfile.arises lg hlg, (hexact.sound lg hlg).2⟩
  · rintro ⟨⟨g, hg, hl⟩, habove⟩
    exact hexact.complete l ⟨g, hg, timesIn_pos.mpr hl⟩ habove

/-- The groups are those of the tuples with a weight above the threshold, with their scores and
cases. -/
theorem records : (idCorpus docs lems).Records ((idCorpus docs lems).Heavy sel t) sel t n
    (extended.map listGroup) := by
  have hexact := hfile.exact hscore
  have hids : (extended.map listGroup).map Prod.fst
      = (extended.map LemGroup.lids).map IdTuple.toList := by
    rw [List.map_map, List.map_map]
    rfl
  refine ⟨?_, fun ls => ?_, fun r hr => ?_⟩
  · rw [hids]
    exact hfile.ascending.nodup_keys.map ListedTuple.injective
  · rw [hids]
    constructor
    · intro hls
      obtain ⟨l, hl, rfl⟩ := List.mem_map.mp hls
      obtain ⟨harises, hweigh⟩ := (h.mem_extended_iff hlen hscore hfile l).mp hl
      exact ⟨hlen l, harises, hweigh⟩
    · rintro ⟨hn, hs⟩
      -- A tuple that arises is carried by a window, so it is a tuple of ids.
      obtain ⟨l, rfl⟩ := h.exists_tuple hs.arises hn
      exact List.mem_map_of_mem
        ((h.mem_extended_iff hlen hscore hfile l).mpr ⟨hs.arises, hs.weight⟩)
  · obtain ⟨lg, hlg, rfl⟩ := List.mem_map.mp hr
    have hcases := h.cases_eq (hlen lg.lids) (hfile.cases lg hlg)
    refine Prod.ext rfl (Prod.ext ?_ hcases.symm)
    show lg.weight = (idCorpus docs lems).score sel t (IdTuple.toList lg.lids)
    rw [Corpus.score_eq, h.weight_eq (hlen lg.lids)]
    exact hexact.weight lg hlg

/-- The groups that a filter keeps are the collocations: those of the recorded tuples whose
document frequency and score are above the bounds, in the order of the scores. -/
theorem lists {filtered : List (LemGroup K ℚ)} (hdocs : docs.length < 2 ^ 32) {th1 : UInt32}
    {th2 : ℚ} (hperm : filtered.Perm (extended.filter
      (aboveBoth (fun k => UInt32.ofNat (docCount windows lems docs k)) th1 th2)))
    (hsorted : Sorted lemGroupLess filtered) :
    (idCorpus docs lems).Lists sel ⟨t, th1.toNat, th2⟩ n (filtered.map listGroup) := by
  have hrecords := h.records hlen hscore hfile
  have hmem := mem_filtered_iff hdocs hperm
  have hrecord : ∀ lg ∈ extended,
      listGroup lg = (idCorpus docs lems).record sel t (IdTuple.toList lg.lids) :=
    fun lg hlg => hrecords.record _ (List.mem_map_of_mem hlg)
  have hweight : ∀ lg ∈ extended,
      lg.weight = (idCorpus docs lems).score sel t (IdTuple.toList lg.lids) :=
    fun lg hlg => congrArg (fun r => r.2.1) (hrecord lg hlg)
  have hkeys : ∀ groups : List (LemGroup K ℚ), (groups.map listGroup).map Prod.fst
      = groups.map (fun lg => IdTuple.toList lg.lids) := by
    intro groups
    rw [List.map_map]
    rfl
  refine ⟨⟨?_, fun ls => ?_, fun r hr => ?_⟩, ?_⟩
  · have hnd := hrecords.nodup
    rw [hkeys] at hnd ⊢
    exact (hperm.map _).nodup_iff.mpr (hnd.sublist (List.filter_sublist.map _))
  · rw [hkeys]
    constructor
    · intro hls
      obtain ⟨lg, hlg, rfl⟩ := List.mem_map.mp hls
      obtain ⟨hext, hdoc, habove⟩ := (hmem lg).mp hlg
      obtain ⟨hn, hheavy⟩ := (hrecords.mem_iff _).mp
        (List.mem_map_of_mem (f := Prod.fst) (List.mem_map_of_mem (f := listGroup) hext))
      refine ⟨hn, hheavy, ?_, ?_⟩
      · rw [docFreq_idCorpus h.ngrams (hlen lg.lids)]
        exact hdoc
      · rw [← hweight lg hext]
        exact habove
    · rintro ⟨hn, hs⟩
      obtain ⟨r, hr, rfl⟩ := List.mem_map.mp ((hrecords.mem_iff ls).mpr ⟨hn, hs.toHeavy⟩)
      obtain ⟨lg, hlg, rfl⟩ := List.mem_map.mp hr
      refine List.mem_map_of_mem (f := fun lg => IdTuple.toList lg.lids)
        ((hmem lg).mpr ⟨hlg, ?_, ?_⟩)
      · rw [← docFreq_idCorpus h.ngrams (hlen lg.lids)]
        exact hs.docs
      · rw [hweight lg hlg]
        exact hs.score
  · obtain ⟨lg, hlg, rfl⟩ := List.mem_map.mp hr
    exact hrecord lg ((hmem lg).mp hlg).1
  · refine List.pairwise_map.mpr (hsorted.imp (fun {lg lg'} hle => ?_))
    exact not_lt.mp (of_decide_eq_false hle)

end Extended

end CountsSelected

/-! ### A run -/

section Run
variable {std : Stdlib} {dsave : String} {th : Thresholds ℚ} {c : Converted} {lm : Lemmatized}
  (h : Ready docs c lm) (hwords : c.corpus.flatten.length < 2 ^ 32)

include h

/-- The words of the corpus are those of `uni.bin`. -/
theorem Ready.mem_words_iff (w : UInt32) :
    w ∈ (idCorpus docs (tableOf lm.lems)).words ↔ w ∈ c.uni.msgs.map StrIdWeight.id := by
  rw [words_idCorpus, h.uni.mem_iff]

/-- `build_lem_weights` gives each lemma that occurs a weight, and no other one. So the size of
its table is the number of lemmas. -/
theorem Ready.lidW_size {lidW : FlatHashMap UInt32 ℚ}
    (hok : buildLemWeights c.uni (tableOf lm.lems) = .ok lidW) :
    lidW.size = (idCorpus docs (tableOf lm.lems)).lemmaCount := by
  obtain ⟨lidW', hok', hkeys⟩ := buildLemWeights_ok (R := ℚ) (tableOf lm.lems) h.covered
  rw [Except.ok.inj (hok.symm.trans hok')]
  unfold Corpus.lemmaCount
  rw [List.card_toFinset]
  refine size_eq_length (List.nodup_dedup _) (fun l => ?_)
  rw [hkeys, List.mem_dedup]
  constructor
  · rintro ⟨m, hm, hl⟩
    exact List.mem_flatMap.mpr ⟨m.id, (h.mem_words_iff m.id).mpr (List.mem_map_of_mem hm), hl⟩
  · intro hl
    obtain ⟨w, hw, hl⟩ := List.mem_flatMap.mp hl
    obtain ⟨m, hm, rfl⟩ := List.mem_map.mp ((h.mem_words_iff w).mp hw)
    exact ⟨m, hm, hl⟩

omit h in
/-- In a short list no key occurs too often for a `u32`. -/
theorem timesIn_lt_of_length {K : Type} [DecidableEq K] {ks : List K} (hks : ks.length < 2 ^ 32)
    (k : K) : timesIn ks k < 2 ^ 32 :=
  (timesIn_le_length ks k).trans_lt hks

include hwords

/-- The weight that `build_lem_weights` gives a lemma is that of the corpus. -/
theorem Ready.lidWeight_eq {lidW : FlatHashMap UInt32 ℚ}
    (hok : buildLemWeights c.uni (tableOf lm.lems) = .ok lidW) (l : UInt32) :
    lidWeight lidW l = (idCorpus docs (tableOf lm.lems)).lemmaWeight l := by
  rw [lemmaWeight_idCorpus]
  rw [h.corpus] at hwords
  exact lidWeight_words h.uni (timesIn_lt_of_length hwords) h.covered hok l

/-- The score of a pair of lemmas is the factor of the corpus times the weight above `t`, and zero
below. -/
theorem Ready.score2_factor {lidW : FlatHashMap UInt32 ℚ}
    (hok : buildLemWeights c.uni (tableOf lm.lems) = .ok lidW) {l : Idd}
    (hl : ∀ y ∈ IdTuple.toList l, y ∈ (idCorpus docs (tableOf lm.lems)).occurring) (t w : ℚ) :
    score2 lidW t w l = .ok (maxZero
      ((idCorpus docs (tableOf lm.lems)).factor (IdTuple.toList l) * (w - t))) := by
  have hpos : ∀ y ∈ IdTuple.toList l, 0 < lidWeight lidW y := by
    intro y hy
    rw [h.lidWeight_eq hwords hok]
    exact Corpus.lemmaWeight_pos _ (hl y hy)
  have hfactor : (idCorpus docs (tableOf lm.lems)).factor (IdTuple.toList l)
      = (lidW.size : ℚ) / (lidWeight lidW l.1 * lidWeight lidW l.2) := by
    rw [h.lidW_size hok, h.lidWeight_eq hwords hok, h.lidWeight_eq hwords hok]
    show _ ^ 1 / (_ * (_ * 1)) = _
    rw [pow_one, mul_one]
  rw [hfactor]
  exact score2_eq (hpos l.1 (by simp [IdTuple.toList])) (hpos l.2 (by simp [IdTuple.toList])) t w

/-- So is that of a triple. The square of the number of lemmas comes from the two multiplications
in the source. -/
theorem Ready.score3_factor {lidW : FlatHashMap UInt32 ℚ}
    (hok : buildLemWeights c.uni (tableOf lm.lems) = .ok lidW) {l : Iddd}
    (hl : ∀ y ∈ IdTuple.toList l, y ∈ (idCorpus docs (tableOf lm.lems)).occurring) (t w : ℚ) :
    score3 lidW t w l = .ok (maxZero
      ((idCorpus docs (tableOf lm.lems)).factor (IdTuple.toList l) * (w - t))) := by
  have hpos : ∀ y ∈ IdTuple.toList l, 0 < lidWeight lidW y := by
    intro y hy
    rw [h.lidWeight_eq hwords hok]
    exact Corpus.lemmaWeight_pos _ (hl y hy)
  have hfactor : (idCorpus docs (tableOf lm.lems)).factor (IdTuple.toList l)
      = (lidW.size : ℚ) ^ 2
        / (lidWeight lidW l.1 * lidWeight lidW l.2.1 * lidWeight lidW l.2.2) := by
    rw [h.lidW_size hok, h.lidWeight_eq hwords hok, h.lidWeight_eq hwords hok,
      h.lidWeight_eq hwords hok]
    show _ ^ 2 / (_ * (_ * (_ * 1))) = _
    rw [mul_one, mul_assoc]
  rw [hfactor]
  exact score3_eq (hpos l.1 (by simp [IdTuple.toList])) (hpos l.2.1 (by simp [IdTuple.toList]))
    (hpos l.2.2 (by simp [IdTuple.toList])) t w

omit h hwords in
/-- The lemmas of a tuple that arises from a window of the corpus occur. -/
theorem mem_occurring_of_combos {K : Type} [LemTuple K] [ListedTuple K] {windows : Phrase → List K}
    {n : Nat} (hwin : ListsNgrams windows n) {k l : K} (hk : k ∈ (corpusOf docs).flatMap windows)
    (hl : l ∈ combos lems k) : ∀ y ∈ IdTuple.toList l, y ∈ (idCorpus docs lems).occurring := by
  have hgram : IdTuple.toList k ∈ (idCorpus docs lems).grams n := by
    rw [grams_idCorpus docs lems hwin]
    exact List.mem_map_of_mem hk
  exact ((carries_idCorpus docs k l).mpr hl).mem_occurring
    (Corpus.mem_words_of_mem_grams _ hgram)

end Run

/-- The bounds of the pairs. -/
def bounds2 (th : Thresholds ℚ) : Bounds := ⟨th.lem2, th.bi1.toNat, th.bi2⟩

/-- The bounds of the triples. -/
def bounds3 (th : Thresholds ℚ) : Bounds := ⟨th.lem3, th.tri1.toNat, th.tri2⟩

namespace Run
variable {std : Stdlib} {dsave : String} {th : Thresholds ℚ} {c : Converted} {lm : Lemmatized}
  (r : Run ℚ std dsave th c lm) (h : Ready docs c lm)

include h

/-- `bifiltered.bin` comes out of the external sort, so its weights never increase. -/
theorem bifiltered_sorted (hmax : r.extended2.msgs.length ≤ 20000000 * (2 ^ 32 - 1)) :
    Sorted lemGroupLess r.bifiltered.msgs := by
  obtain ⟨out, hok, hout⟩ := filterOnDisk_filtered std
    (FilterInput.ofTable (r.bifreq_table h.splits) (fun _ _ => trivial)) th.bi1 th.bi2
    (std.le_maxSize (by decide)) (Or.inr hmax)
  have hfilter := r.filterBilems_eq
  rw [Proofs.filterBilems_eq] at hfilter
  rw [← Except.ok.inj (hok.symm.trans hfilter)]
  exact hout.sorted

/-- `trifiltered.bin` comes out of the sort in memory. -/
theorem trifiltered_sorted : Sorted lemGroupLess r.trifiltered.msgs := by
  obtain ⟨out, hok, hout⟩ := filterInMemory_filtered std
    (FilterInput.ofTable (r.trifreq_table h.splits) (fun _ _ => trivial)) th.tri1 th.tri2
  have hfilter := r.filterTrilems_eq
  rw [Proofs.filterTrilems_eq] at hfilter
  rw [← Except.ok.inj (hok.symm.trans hfilter)]
  exact hout.sorted

variable (hwords : c.corpus.flatten.length < 2 ^ 32)

include hwords

/-- `bi.bin` counts all pairs. -/
theorem countsPairs : CountsSelected pairs 2 docs Set.univ r.bi.msgs := by
  have htable := r.bi_table
  rw [h.lastKeys_eq] at htable
  rw [h.corpus] at hwords
  exact {
    ngrams := listsNgrams_pairs
    nodup := htable.ascending.nodup_keys
    mem_iff := fun k => (htable.mem_keys_iff k).trans (and_iff_left (Set.mem_univ _)).symm
    few := timesIn_pairs_lt (timesIn_lt_of_length hwords)
    weight := fun g hg => (htable.sound g hg).2 }

variable (hfit : SortsFit r)

include hfit

/-- `extended2.bin` has the groups of the pairs, with the score of the corpus. -/
theorem extended2_scored : ∃ lidW,
    GroupFile (tableOf lm.lems) (score2 lidW th.lem2) r.bi.msgs r.extended2.msgs ∧
    ∀ g ∈ r.bi.msgs, ∀ l ∈ combos (tableOf lm.lems) g.ids,
      0 < (idCorpus docs (tableOf lm.lems)).factor (IdTuple.toList l) ∧
      ∀ w, score2 lidW th.lem2 w l = .ok (maxZero
        ((idCorpus docs (tableOf lm.lems)).factor (IdTuple.toList l) * (w - th.lem2))) := by
  obtain ⟨lidW, hok, hfile⟩ := r.extended2_file h.splits hfit.pairs
  refine ⟨lidW, hfile, fun g hg l hl => ?_⟩
  have hmem := (((r.countsPairs h hwords).mem_iff g.ids).mp (List.mem_map_of_mem hg)).1
  have hoccur := mem_occurring_of_combos listsNgrams_pairs hmem hl
  exact ⟨Corpus.factor_pos _ (List.cons_ne_nil _ _) hoccur,
    fun w => h.score2_factor hwords hok hoccur th.lem2 w⟩

/-- `extended2.bin` has the pairs of lemmas with a weight above the threshold. -/
theorem records2 : (idCorpus docs (tableOf lm.lems)).Records
    ((idCorpus docs (tableOf lm.lems)).Heavy Set.univ th.lem2) Set.univ th.lem2 2
    (r.extended2.msgs.map listGroup) := by
  obtain ⟨lidW, hfile, hscore⟩ := r.extended2_scored h hwords hfit
  exact (r.countsPairs h hwords).records (fun _ => rfl) hscore hfile

/-- `bifiltered.bin` lists the collocations of two lemmas. -/
theorem lists2 : (idCorpus docs (tableOf lm.lems)).Lists Set.univ (bounds2 th) 2
    (r.bifiltered.msgs.map listGroup) := by
  obtain ⟨lidW, hfile, hscore⟩ := r.extended2_scored h hwords hfit
  exact (r.countsPairs h hwords).lists (fun _ => rfl) hscore hfile h.few
    (r.bifiltered_perm h.splits hfit.groups) (r.bifiltered_sorted h hfit.groups)

/-- The filtered pairs are the windows that carry a collocation of two lemmas. -/
theorem filteredPair_iff_named (p : Idd) : FilteredPair r.bifiltered p ↔
    IdTuple.toList p ∈ (idCorpus docs (tableOf lm.lems)).named Set.univ (bounds2 th) := by
  have hcase := (r.lists2 h hwords hfit).exists_case_iff (IdTuple.toList p)
  have hlen : (IdTuple.toList p).length = 2 := rfl
  rw [and_iff_right hlen] at hcase
  rw [← hcase]
  constructor
  · rintro ⟨lg, hlg, cs, hcs, rfl⟩
    exact ⟨listGroup lg, List.mem_map_of_mem hlg, cs.count.toNat,
      Multiset.mem_coe.mpr (List.mem_map_of_mem hcs)⟩
  · rintro ⟨rec, hrec, k, hk⟩
    obtain ⟨lg, hlg, rfl⟩ := List.mem_map.mp hrec
    obtain ⟨cs, hcs, heq⟩ := List.mem_map.mp (Multiset.mem_coe.mp hk)
    exact ⟨lg, hlg, cs, hcs, ListedTuple.injective (congrArg Prod.fst heq)⟩

/-- `tri.bin` counts the triples that extend such a window. -/
theorem countsTriples : CountsSelected triples 3 docs
    (extending ((idCorpus docs (tableOf lm.lems)).named Set.univ (bounds2 th))) r.tri.msgs := by
  have hpair := r.filteredPair_iff_named h hwords hfit
  have htable := r.tri_table
  rw [h.lastKeys_eq] at htable
  rw [h.corpus] at hwords
  exact {
    ngrams := listsNgrams_triples
    nodup := htable.ascending.nodup_keys
    mem_iff := fun k => (htable.mem_keys_iff k).trans
      (and_congr_right (fun _ => or_congr (hpair (k.1, k.2.1)) (hpair (k.2.1, k.2.2))))
    few := timesIn_triples_lt (timesIn_lt_of_length hwords)
    weight := fun g hg => (htable.sound g hg).2 }

/-- `extended3.bin` has the groups of these triples, with the score of the corpus. -/
theorem extended3_scored : ∃ lidW,
    GroupFile (tableOf lm.lems) (score3 lidW th.lem3) r.tri.msgs r.extended3.msgs ∧
    ∀ g ∈ r.tri.msgs, ∀ l ∈ combos (tableOf lm.lems) g.ids,
      0 < (idCorpus docs (tableOf lm.lems)).factor (IdTuple.toList l) ∧
      ∀ w, score3 lidW th.lem3 w l = .ok (maxZero
        ((idCorpus docs (tableOf lm.lems)).factor (IdTuple.toList l) * (w - th.lem3))) := by
  obtain ⟨lidW, hok, hfile⟩ := r.extended3_file h.splits hfit.triples
  refine ⟨lidW, hfile, fun g hg l hl => ?_⟩
  have hmem := (((r.countsTriples h hwords hfit).mem_iff g.ids).mp (List.mem_map_of_mem hg)).1
  have hoccur := mem_occurring_of_combos listsNgrams_triples hmem hl
  exact ⟨Corpus.factor_pos _ (List.cons_ne_nil _ _) hoccur,
    fun w => h.score3_factor hwords hok hoccur th.lem3 w⟩

/-- `extended3.bin` has the triples of lemmas with a weight above the threshold. -/
theorem records3 : (idCorpus docs (tableOf lm.lems)).Records
    ((idCorpus docs (tableOf lm.lems)).Heavy
      (extending ((idCorpus docs (tableOf lm.lems)).named Set.univ (bounds2 th))) th.lem3)
    (extending ((idCorpus docs (tableOf lm.lems)).named Set.univ (bounds2 th))) th.lem3 3
    (r.extended3.msgs.map listGroup) := by
  obtain ⟨lidW, hfile, hscore⟩ := r.extended3_scored h hwords hfit
  exact (r.countsTriples h hwords hfit).records (fun _ => rfl) hscore hfile

/-- `trifiltered.bin` lists the collocations of three lemmas in these windows. -/
theorem lists3 : (idCorpus docs (tableOf lm.lems)).Lists
    (extending ((idCorpus docs (tableOf lm.lems)).named Set.univ (bounds2 th))) (bounds3 th) 3
    (r.trifiltered.msgs.map listGroup) := by
  obtain ⟨lidW, hfile, hscore⟩ := r.extended3_scored h hwords hfit
  exact (r.countsTriples h hwords hfit).lists (fun _ => rfl) hscore hfile h.few
    (r.trifiltered_perm h.splits) (r.trifiltered_sorted h)

end Run

end Colloc.Proofs

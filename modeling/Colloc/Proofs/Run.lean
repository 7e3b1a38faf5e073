import Colloc.Proofs.DocTables
import Colloc.Proofs.Extract
import Colloc.Proofs.GramCounts
import Colloc.Proofs.GroupFile

/-!
# `Colloc.Proofs.Run`: the files of a run

`Run` is a run of the stages from `bigram_stat` to `filter_trilems` that ends: the files, and
for each stage the equation that it wrote them. These are the runs of `extractBigrams` and
`extractTrigrams` (`exists_run`), and over what `convert` and `lemmatize` prepare there is one
for all thresholds (`Ready.nonempty_run`).

The lemmas below it say what each file is, for any corpus, any `uni.bin` and any lemma table
without empty entries. That the words have lemmas needs no assumption, because `bifreq_stat`
looks each of them up. Only the external sorts have to fit their part counters (`SortsFit`).
-/

set_option autoImplicit false

namespace Colloc.Proofs

open Colloc.Lib
open Colloc.Spec

section Run
variable {R : Type} [Double R]

/-- A run of the stages over `corpus.bin`, `uni.bin` and the lemma table that ends, in a fresh
save directory. -/
structure Run (R : Type) [Double R] (std : Stdlib) (dsave : String) (th : Thresholds R)
    (c : Converted) (l : Lemmatized) where
  bi : RecordFile Bigram
  extended2 : RecordFile (Lem2Group R)
  bifreq : RecordFile Bigram
  lemfreq : RecordFile LemFreq
  bifiltered : RecordFile (Lem2Group R)
  tri : RecordFile Trigram
  extended3 : RecordFile (Lem3Group R)
  trifreq : RecordFile Trigram
  trifiltered : RecordFile (Lem3Group R)
  bigramStat_eq : (bigramStat std dsave c.corpus ∅).map Prod.fst = .ok bi
  groupLem2_eq : groupLem2 std l.lems c.uni bi th.lem2 = .ok extended2
  bifreqStat_eq : bifreqStat std l.lems l.lemid extended2 c.corpus = .ok (bifreq, lemfreq)
  filterBilems_eq : filterBilems std bifreq extended2 th.bi1 th.bi2 = .ok bifiltered
  trigramStat_eq : (trigramStat std dsave bifiltered c.corpus ∅).map Prod.fst = .ok tri
  groupLem3_eq : groupLem3 std l.lems c.uni tri th.lem3 = .ok extended3
  trifreqStat_eq : trifreqStat std l.lems extended3 c.corpus = .ok trifreq
  filterTrilems_eq : filterTrilems std trifreq extended3 th.tri1 th.tri2 = .ok trifiltered

variable {std : Stdlib} {dsave : String} {th : Thresholds R} {c : Converted} {l : Lemmatized}

/-- The stages from `bigram_stat` to `filter_bilems`, when they end: each of them has succeeded on
the files of those before it. -/
theorem extractBigrams_ok {b : BigramFiles R} (h : extractBigrams std dsave th c l = .ok b) :
    ∃ bi, (bigramStat std dsave c.corpus ∅).map Prod.fst = .ok bi ∧
      groupLem2 std l.lems c.uni bi th.lem2 = .ok b.extended2 ∧
      bifreqStat std l.lems l.lemid b.extended2 c.corpus = .ok (b.bifreq, b.lemfreq) ∧
      filterBilems std b.bifreq b.extended2 th.bi1 th.bi2 = .ok b.bifiltered := by
  unfold extractBigrams extractBigramsIn PartDirs.empty at h
  cases h1 : bigramStat std dsave c.corpus ∅ with
  | error e => simp only [h1] at h; cases h
  | ok bi =>
      simp only [h1] at h
      cases h2 : groupLem2 std l.lems c.uni bi.1 th.lem2 with
      | error e => simp only [h2] at h; cases h
      | ok extended2 =>
          simp only [h2] at h
          cases h3 : bifreqStat std l.lems l.lemid extended2 c.corpus with
          | error e => simp only [h3] at h; cases h
          | ok freqs =>
              simp only [h3] at h
              cases h4 : filterBilems std freqs.1 extended2 th.bi1 th.bi2 with
              | error e => simp only [h4] at h; cases h
              | ok bifiltered =>
                  simp only [h4] at h
                  rw [← Except.ok.inj h]
                  exact ⟨bi.1, rfl, h2, h3, h4⟩

/-- The stages from `trigram_stat` to `filter_trilems`, when they end: each of them has succeeded
on the files of those before it. -/
theorem extractTrigrams_ok {bifiltered : RecordFile (Lem2Group R)} {t : TrigramFiles R}
    (h : extractTrigrams std dsave th c l bifiltered = .ok t) :
    ∃ tri, (trigramStat std dsave bifiltered c.corpus ∅).map Prod.fst = .ok tri ∧
      groupLem3 std l.lems c.uni tri th.lem3 = .ok t.extended3 ∧
      trifreqStat std l.lems t.extended3 c.corpus = .ok t.trifreq ∧
      filterTrilems std t.trifreq t.extended3 th.tri1 th.tri2 = .ok t.trifiltered := by
  unfold extractTrigrams extractTrigramsIn PartDirs.empty at h
  cases h1 : trigramStat std dsave bifiltered c.corpus ∅ with
  | error e => simp only [h1] at h; cases h
  | ok tri =>
      simp only [h1] at h
      cases h2 : groupLem3 std l.lems c.uni tri.1 th.lem3 with
      | error e => simp only [h2] at h; cases h
      | ok extended3 =>
          simp only [h2] at h
          cases h3 : trifreqStat std l.lems extended3 c.corpus with
          | error e => simp only [h3] at h; cases h
          | ok trifreq =>
              simp only [h3] at h
              cases h4 : filterTrilems std trifreq extended3 th.tri1 th.tri2 with
              | error e => simp only [h4] at h; cases h
              | ok trifiltered =>
                  simp only [h4] at h
                  rw [← Except.ok.inj h]
                  exact ⟨tri.1, rfl, h2, h3, h4⟩

/-- When the stages of the program end, they make a run with these files. The results about runs
are so about the program. -/
theorem exists_run {b : BigramFiles R} {t : TrigramFiles R}
    (hb : extractBigrams std dsave th c l = .ok b)
    (ht : extractTrigrams std dsave th c l b.bifiltered = .ok t) :
    ∃ r : Run R std dsave th c l,
      b = BigramFiles.mk r.extended2 r.bifreq r.lemfreq r.bifiltered ∧
      t = TrigramFiles.mk r.extended3 r.trifreq r.trifiltered := by
  obtain ⟨bi, hbi, hextended2, hbifreq, hbifiltered⟩ := extractBigrams_ok hb
  obtain ⟨tri, htri, hextended3, htrifreq, htrifiltered⟩ := extractTrigrams_ok ht
  exact ⟨{
    bi := bi
    extended2 := b.extended2
    bifreq := b.bifreq
    lemfreq := b.lemfreq
    bifiltered := b.bifiltered
    tri := tri
    extended3 := t.extended3
    trifreq := t.trifreq
    trifiltered := t.trifiltered
    bigramStat_eq := hbi
    groupLem2_eq := hextended2
    bifreqStat_eq := hbifreq
    filterBilems_eq := hbifiltered
    trigramStat_eq := htri
    groupLem3_eq := hextended3
    trifreqStat_eq := htrifreq
    filterTrilems_eq := htrifiltered }, rfl, rfl⟩

variable (std dsave th) in
/-- Over a prepared corpus the stages end. -/
theorem Ready.nonempty_run {docs : List (List Phrase)} (h : Ready docs c l) :
    Nonempty (Run R std dsave th c l) := by
  obtain ⟨b, hb, -⟩ := extractBigrams_total std dsave th h
  obtain ⟨t, ht, -⟩ := extractTrigrams_total std dsave th h b.bifiltered
  obtain ⟨r, -, -⟩ := exists_run hb ht
  exact ⟨r⟩

end Run

/-! ### The files of a run in exact rationals -/

/-- No external sort of the run fills more parts than its `u32` counter can number. -/
structure SortsFit {std : Stdlib} {dsave : String} {th : Thresholds ℚ} {c : Converted}
    {l : Lemmatized} (r : Run ℚ std dsave th c l) : Prop where
  pairs : (r.bi.msgs.map (pairTimes (tableOf l.lems))).sum ≤ 80000000 * (2 ^ 32 - 1)
  groups : r.extended2.msgs.length ≤ 20000000 * (2 ^ 32 - 1)
  triples : (r.tri.msgs.map (tripleTimes (tableOf l.lems))).sum ≤ 80000000 * (2 ^ 32 - 1)

/-- A corpus and a lemma table: the closed documents of the corpus and the phrases behind
them, all of whose words have lemmas. -/
structure Split (lems : List (List UInt32)) (corpus : List Phrase) (docs : List (List Phrase))
    (last : List Phrase) : Prop where
  split : corpus = corpusOf docs ++ last
  docs_ne : ∀ doc ∈ docs, ∀ ids ∈ doc, ids ≠ []
  last_ne : ∀ ids ∈ last, ids ≠ []
  lemmas : HaveLemmas lems corpus

namespace Run
variable {std : Stdlib} {dsave : String} {th : Thresholds ℚ} {c : Converted} {l : Lemmatized}
  (r : Run ℚ std dsave th c l)

include r in
/-- A run that ends has looked up the lemmas of all words, at the latest when it counted them in
their document. -/
theorem exists_split (hne : ∀ lids ∈ tableOf l.lems, lids ≠ []) :
    ∃ docs last, Split (tableOf l.lems) c.corpus docs last := by
  obtain ⟨docs, last, hcorpus, hdocs, hlast⟩ := exists_documents c.corpus
  have hfreq := r.bifreqStat_eq
  rw [hcorpus] at hfreq
  obtain ⟨hcov, -⟩ := bifreqStat_table std hdocs hlast hfreq
  refine ⟨docs, last, hcorpus, hdocs, hlast, fun w hw => ?_⟩
  obtain ⟨ids, hids, hw⟩ := List.mem_flatten.mp hw
  have hw := hcov ids (hcorpus ▸ hids) w hw
  exact ⟨hw, hne _ (combos_mem_of_covered _ hw)⟩

/-- `bi.bin` of a run is the table of the pairs in the last parts. -/
theorem bi_table : KeyTable (lastKeys chunkFull pairs c.corpus) r.bi.msgs := by
  obtain ⟨out, dir, hok, htable⟩ := bigramStat_table std dsave c.corpus
  have hbi := r.bigramStat_eq
  rw [hok] at hbi
  rw [← Except.ok.inj hbi]
  exact htable

/-- `tri.bin` is that of the triples whose pairs the filter kept. -/
theorem tri_table :
    TripleTable (FilteredPair r.bifiltered) (lastKeys chunkFull triples c.corpus) r.tri.msgs := by
  obtain ⟨out, dir, hok, htable⟩ := trigramStat_table std dsave r.bifiltered c.corpus
  have htri := r.trigramStat_eq
  rw [hok] at htri
  rw [← Except.ok.inj htri]
  exact htable

section Split
variable {docs : List (List Phrase)} {last : List Phrase}
  (h : Split (tableOf l.lems) c.corpus docs last)

include h

/-- The groups of `extended2.bin`, by lemma pairs that arise, with the scores of their weights. -/
theorem extended2_file
    (hmax : (r.bi.msgs.map (pairTimes (tableOf l.lems))).sum ≤ 80000000 * (2 ^ 32 - 1)) :
    ∃ lidW, buildLemWeights c.uni (tableOf l.lems) = .ok lidW ∧
      GroupFile (tableOf l.lems) (score2 lidW th.lem2) r.bi.msgs r.extended2.msgs := by
  have hwords : ∀ g ∈ r.bi.msgs, Covered (tableOf l.lems) g.ids ∧
      combos (tableOf l.lems) g.ids ≠ [] := fun g hg =>
    h.lemmas.window windowsOf_pairs (mem_of_mem_lastKeys (r.bi_table.sound g hg).1)
  rw [pairTimes_eq] at hmax
  exact groupLem_file std (fun g hg => (hwords g hg).1) (fun g hg => (hwords g hg).2) hmax
    r.groupLem2_eq

/-- The groups of `extended3.bin`, by lemma triples that arise, with the scores of their weights.
-/
theorem extended3_file
    (hmax : (r.tri.msgs.map (tripleTimes (tableOf l.lems))).sum ≤ 80000000 * (2 ^ 32 - 1)) :
    ∃ lidW, buildLemWeights c.uni (tableOf l.lems) = .ok lidW ∧
      GroupFile (tableOf l.lems) (score3 lidW th.lem3) r.tri.msgs r.extended3.msgs := by
  have hwords : ∀ g ∈ r.tri.msgs, Covered (tableOf l.lems) g.ids ∧
      combos (tableOf l.lems) g.ids ≠ [] := fun g hg =>
    h.lemmas.window windowsOf_triples (mem_of_mem_lastKeys (r.tri_table.sound g hg).1.1)
  rw [tripleTimes_eq] at hmax
  exact groupLem_file std (fun g hg => (hwords g hg).1) (fun g hg => (hwords g hg).2) hmax
    r.groupLem3_eq

/-- `bifreq.bin` has the documents of each pair that was scored. -/
theorem bifreq_table : DocTable pairs (tableOf l.lems) docs r.extended2 r.bifreq := by
  have hfreq := r.bifreqStat_eq
  rw [h.split] at hfreq
  exact (bifreqStat_table std h.docs_ne h.last_ne hfreq).2

/-- `trifreq.bin` has those of each triple. -/
theorem trifreq_table : DocTable triples (tableOf l.lems) docs r.extended3 r.trifreq := by
  have hfreq := r.trifreqStat_eq
  rw [h.split] at hfreq
  refine trifreqStat_table std (fun ids hids w hw => ?_) h.docs_ne h.last_ne hfreq
  exact (h.lemmas w (List.mem_flatten_of_mem (h.split ▸ hids) hw)).1

/-- The groups of `bifiltered.bin` are those of `extended2.bin` that are above both thresholds.
The documents of a pair are counted as in `bifreq.bin`. -/
theorem bifiltered_perm (hmax : r.extended2.msgs.length ≤ 20000000 * (2 ^ 32 - 1)) :
    r.bifiltered.msgs.Perm (r.extended2.msgs.filter
      (aboveBoth (fun p => UInt32.ofNat (docCount pairs (tableOf l.lems) docs p))
        th.bi1 th.bi2)) := by
  obtain ⟨out, hok, hperm⟩ := filterBilems_table std th.bi1 th.bi2 (r.bifreq_table h)
    (fun lg _ => trivial) hmax
  have hfilter := r.filterBilems_eq
  rw [hok] at hfilter
  rw [← Except.ok.inj hfilter]
  exact hperm

/-- The groups of `trifiltered.bin` are those of `extended3.bin` that are above both thresholds.
They are sorted in memory, so no bound is needed. -/
theorem trifiltered_perm :
    r.trifiltered.msgs.Perm (r.extended3.msgs.filter
      (aboveBoth (fun t => UInt32.ofNat (docCount triples (tableOf l.lems) docs t))
        th.tri1 th.tri2)) := by
  obtain ⟨out, hok, hperm⟩ := filterTrilems_table std th.tri1 th.tri2 (r.trifreq_table h)
    (fun lg _ => trivial)
  have hfilter := r.filterTrilems_eq
  rw [hok] at hfilter
  rw [← Except.ok.inj hfilter]
  exact hperm

end Split

end Run

/-! ### The sorts -/

/-- Distinct tuples of a list have no greater sum, as each of them is there at least once. -/
theorem sum_ids_le {K : Type} {grams : List (Gram K)} (hnd : (grams.map Gram.ids).Nodup)
    {ks : List K} (hsub : ∀ g ∈ grams, g.ids ∈ ks) (f : K → Nat) :
    (grams.map (fun g => f g.ids)).sum ≤ (ks.map f).sum := by
  have hids : grams.map Gram.ids ⊆ ks := by
    intro k hk
    obtain ⟨g, hg, rfl⟩ := List.mem_map.mp hk
    exact hsub g hg
  obtain ⟨ids, hperm, hsublist⟩ := List.subperm_of_subset hnd hids
  have hmap : grams.map (fun g => f g.ids) = (grams.map Gram.ids).map f := by
    rw [List.map_map]
    rfl
  rw [hmap, ← (hperm.map f).sum_eq]
  exact (hsublist.map f).sum_le_sum (fun _ _ => Nat.zero_le _)

/-- There are no more groups than lemma tuples, since the groups have distinct ones. -/
theorem GroupFile.length_le {K : Type} [LemTuple K] [DecidableEq K] {lems : List (List UInt32)}
    {score : ℚ → K → Except Error ℚ} {grams : List (Gram K)} {out : List (LemGroup K ℚ)}
    (h : GroupFile lems score grams out) :
    out.length ≤ (grams.map (fun g => (combos lems g.ids).length)).sum := by
  have hsub : out.map LemGroup.lids ⊆ grams.flatMap (fun g => combos lems g.ids) := by
    intro k hk
    obtain ⟨lg, hlg, rfl⟩ := List.mem_map.mp hk
    obtain ⟨g, hg, hmem⟩ := h.arises lg hlg
    exact List.mem_flatMap.mpr ⟨g, hg, hmem⟩
  have hlen := (List.subperm_of_subset h.ascending.nodup_keys hsub).length_le
  rwa [List.length_map, List.length_flatMap] at hlen

/-- The sorts of a run fit when the pairs and triples of the corpus have few lemma tuples. The
records of `bi.bin` and `tri.bin` are distinct tuples of the corpus, so they have no more. -/
theorem sortsFit_of_corpus {std : Stdlib} {dsave : String} {th : Thresholds ℚ} {c : Converted}
    {l : Lemmatized} (hne : ∀ lids ∈ tableOf l.lems, lids ≠ [])
    (hpairs : ((c.corpus.flatMap pairs).map (fun p => (combos (tableOf l.lems) p).length)).sum
      ≤ 20000000 * (2 ^ 32 - 1))
    (htriples : ((c.corpus.flatMap triples).map (fun t => (combos (tableOf l.lems) t).length)).sum
      ≤ 80000000 * (2 ^ 32 - 1)) (r : Run ℚ std dsave th c l) : SortsFit r := by
  obtain ⟨docs, last, hsplit⟩ := r.exists_split hne
  have hbi : (r.bi.msgs.map (pairTimes (tableOf l.lems))).sum ≤ 20000000 * (2 ^ 32 - 1) := by
    rw [pairTimes_eq]
    exact (sum_ids_le r.bi_table.ascending.nodup_keys
      (fun g hg => mem_of_mem_lastKeys (r.bi_table.sound g hg).1)
      (fun p => (combos (tableOf l.lems) p).length)).trans hpairs
  have hmax : (r.bi.msgs.map (pairTimes (tableOf l.lems))).sum ≤ 80000000 * (2 ^ 32 - 1) :=
    hbi.trans (by norm_num)
  refine ⟨hmax, ?_, ?_⟩
  · obtain ⟨lidW, -, hfile⟩ := r.extended2_file hsplit hmax
    rw [pairTimes_eq] at hbi
    exact hfile.length_le.trans hbi
  · rw [tripleTimes_eq]
    exact (sum_ids_le r.tri_table.ascending.nodup_keys
      (fun g hg => mem_of_mem_lastKeys (r.tri_table.sound g hg).1.1)
      (fun t => (combos (tableOf l.lems) t).length)).trans htriples

end Colloc.Proofs

import Colloc.Proofs.Rename
import Colloc.Proofs.Run

/-!
# `Colloc.Proofs.RenameRun`: two runs under other ids

Two runs with the same thresholds, over corpora that differ in the ids and in the order of the
documents (`SameUpToIds`). Stage by stage, each file of the second run is that of the first one
with the ids replaced, in another order: `bi_perm`, `extended2_groups`, `bifreq_perm`,
`bifiltered_groups`, and then the same for the triples. A triple is kept when one of its pairs
is named, and the filtered groups of the two runs name the same pairs of words.

`SameStatistics` compares the files in strings, those that `uni.bin` and `lemid.bin` assign to
the ids, and `SameUpToIds.sameStatistics` is the result; every id has a string (`AllNamed`).
Only the sorts of the first run need to
fit their part counters, since those of the second one sort as many records.
-/

set_option autoImplicit false

namespace Colloc.Proofs

open Colloc.Lib
open Colloc.Spec

/-! ### The statistics in strings -/

/-- The strings of the words in `uni.bin`. -/
def wordStrings (c : Converted) : List (UInt32 × Bytes) := c.uni.msgs.map (fun m => (m.id, m.str))

/-- The strings of the lemmas in `lemid.bin`. -/
def lemmaStrings (lm : Lemmatized) : List (UInt32 × Bytes) :=
  lm.lemid.msgs.map (fun m => (m.id, m.str))

/-- The ids of a tuple, replaced by their strings. -/
def inStrings {K : Type} [IdTuple K] (strings : List (UInt32 × Bytes)) (k : K) :
    List (Option Bytes) :=
  (IdTuple.toList k).map (fun id => strings.lookup id)

/-- A record with its ids replaced by their strings. -/
def gramInStrings {K : Type} [IdTuple K] (strings : List (UInt32 × Bytes)) (g : Gram K) :
    List (Option Bytes) × UInt32 :=
  (inStrings strings g.ids, g.weight)

/-- A group with its lemma ids and word ids replaced by their strings. The cases are a
multiset. -/
def groupInStrings {K : Type} [IdTuple K] (c : Converted) (lm : Lemmatized) (lg : LemGroup K ℚ) :
    List (Option Bytes) × ℚ × Multiset (List (Option Bytes) × UInt32) :=
  readGroup (inStrings (lemmaStrings lm)) (inStrings (wordStrings c)) lg

/-- A string and its count. -/
def strWeight (m : StrIdWeight) : Bytes × UInt32 := (m.str, m.weight)

section Statistics
variable {std std' : Stdlib} {dsave dsave' : String} {th : Thresholds ℚ} {c c' : Converted}
  {lm lm' : Lemmatized}

/-- Two runs have the same statistics: in strings, their files hold the same records. -/
structure SameStatistics (r : Run ℚ std dsave th c lm) (r' : Run ℚ std' dsave' th c' lm') :
    Prop where
  totalCount : c'.totalCount = c.totalCount
  uni : (c'.uni.msgs.map strWeight).Perm (c.uni.msgs.map strWeight)
  lemfreq : (r'.lemfreq.msgs.map strWeight).Perm (r.lemfreq.msgs.map strWeight)
  bifreq : (r'.bifreq.msgs.map (gramInStrings (lemmaStrings lm'))).Perm
    (r.bifreq.msgs.map (gramInStrings (lemmaStrings lm)))
  trifreq : (r'.trifreq.msgs.map (gramInStrings (lemmaStrings lm'))).Perm
    (r.trifreq.msgs.map (gramInStrings (lemmaStrings lm)))
  bifiltered : (r'.bifiltered.msgs.map (groupInStrings c' lm')).Perm
    (r.bifiltered.msgs.map (groupInStrings c lm))
  trifiltered : (r'.trifiltered.msgs.map (groupInStrings c' lm')).Perm
    (r.trifiltered.msgs.map (groupInStrings c lm))

/-- Every id in the frequencies and the filtered groups of a run has a string. -/
structure AllNamed (r : Run ℚ std dsave th c lm) : Prop where
  bifreq : ∀ g ∈ r.bifreq.msgs, none ∉ inStrings (lemmaStrings lm) g.ids
  trifreq : ∀ g ∈ r.trifreq.msgs, none ∉ inStrings (lemmaStrings lm) g.ids
  bifiltered : ∀ lg ∈ r.bifiltered.msgs, none ∉ inStrings (lemmaStrings lm) lg.lids ∧
    ∀ cs ∈ lg.cases, none ∉ inStrings (wordStrings c) cs.wids
  trifiltered : ∀ lg ∈ r.trifiltered.msgs, none ∉ inStrings (lemmaStrings lm) lg.lids ∧
    ∀ cs ∈ lg.cases, none ∉ inStrings (wordStrings c) cs.wids

end Statistics

/-! ### Two corpora -/

/-- The files of `convert` and `lemmatize` differ in the ids `w` and `l` and in order only. -/
structure SameUpToIds (w l : UInt32 → UInt32) (docs docs' : List (List Phrase)) (c c' : Converted)
    (lm lm' : Lemmatized) : Prop where
  ready : Ready docs c lm
  ready' : Ready docs' c' lm'
  renamed : Renamed w l (tableOf lm.lems) (tableOf lm'.lems) docs docs'
  uni : c'.uni.msgs.Perm (c.uni.msgs.map (fun m => { m with id := w m.id }))
  lemid : lm'.lemid.msgs.Perm (lm.lemid.msgs.map (fun m => { m with id := l m.id }))

/-- A prepared corpus is one of closed documents. -/
theorem Ready.splits {docs : List (List Phrase)} {c : Converted} {lm : Lemmatized}
    (h : Ready docs c lm) : Split (tableOf lm.lems) c.corpus docs [] where
  split := by rw [h.corpus, List.append_nil]
  docs_ne := h.phrases_ne
  last_ne ids hids := absurd hids List.not_mem_nil
  lemmas := h.corpus ▸ h.lemmas

/-- No chunk is lost. -/
theorem Ready.lastKeys_eq {docs : List (List Phrase)} {c : Converted} {lm : Lemmatized}
    (h : Ready docs c lm) {K : Type} (keys : Phrase → List K) :
    lastKeys chunkFull keys c.corpus = (corpusOf docs).flatMap keys := by
  rw [h.corpus, lastKeys, survivors_of_le (by rw [length_chunkKeys]; exact h.parts chunkFull),
    chunkKeys_flatten]
  rfl

/-- The words of `uni.bin` are words of the corpus. -/
theorem Ready.covered {docs : List (List Phrase)} {c : Converted} {lm : Lemmatized}
    (h : Ready docs c lm) : ∀ m ∈ c.uni.msgs, Covered (tableOf lm.lems) m.id := fun m hm =>
  (h.lemmas m.id ((h.uni.mem_iff m.id).mp (List.mem_map_of_mem hm))).1

/-- A renamed tuple occurs as often. -/
theorem occurrences_rename {K : Type} [LemTuple K] [RenameTuple K] [DecidableEq K]
    {w : UInt32 → UInt32} (hw : Function.Injective w) {ks ks' : List K}
    (h : ks'.Perm (ks.map (rename w))) (k : K) :
    occurrences ks' (rename w k) = occurrences ks k := by
  rw [occurrences, h.count_eq, List.count_map_of_injective _ _ (RenameTuple.injective w hw)]
  rfl

/-! ### The files -/

section TwoRuns
variable {w l : UInt32 → UInt32} {docs docs' : List (List Phrase)} {std std' : Stdlib}
  {dsave dsave' : String} {th : Thresholds ℚ} {c c' : Converted} {lm lm' : Lemmatized}
  (h : SameUpToIds w l docs docs' c c' lm lm') (r : Run ℚ std dsave th c lm)
  (r' : Run ℚ std' dsave' th c' lm')
include h

/-- `bi.bin` of the second run is that of the first one, renamed. The pairs of the corpora are,
and neither run lost a part file. -/
theorem bi_perm : r'.bi.msgs.Perm (r.bi.msgs.map (renameGram w)) := by
  have htable := r.bi_table
  have htable' := r'.bi_table
  rw [h.ready.lastKeys_eq] at htable
  rw [h.ready'.lastKeys_eq] at htable'
  have hperm := h.renamed.windows_perm renamesWindows_pairs
  refine htable.perm_map (fun _ _ => Gram.ext) (RenameTuple.injective w h.renamed.words)
    (fun _ => rfl) (fun _ => rfl) (fun k => ?_) (fun k _ => ?_) htable'
  · rw [hperm.mem_iff, List.mem_map]
  · exact occurrences_rename h.renamed.words hperm k

/-- The words of `uni.bin`, as records with one id. -/
theorem unigrams_perm : (c'.uni.msgs.map unigramOf).Perm
    ((c.uni.msgs.map unigramOf).map (renameGram w)) := by
  refine (h.uni.map unigramOf).trans (List.Perm.of_eq ?_)
  rw [List.map_map, List.map_map]
  rfl

/-- `lid_w` of both runs. -/
theorem lidW_renamed {lidW lidW' : FlatHashMap UInt32 ℚ}
    (hok : buildLemWeights c.uni (tableOf lm.lems) = .ok lidW)
    (hok' : buildLemWeights c'.uni (tableOf lm'.lems) = .ok lidW') : RenamedWeights l lidW lidW' :=
  h.renamed.lidW (unigrams_perm h) h.ready.covered h.ready'.covered hok hok'

variable (hfit : SortsFit r)
include hfit

/-- `extended2.bin` of the second run. -/
theorem extended2_groups : RenamedGroups w l r.extended2.msgs r'.extended2.msgs := by
  have hpairs := hfit.pairs
  have hsum := h.renamed.sum_length_combos (bi_perm h r r')
  rw [← pairTimes_eq, ← pairTimes_eq] at hsum
  obtain ⟨lidW, hok, hfile⟩ := r.extended2_file h.ready.splits hpairs
  obtain ⟨lidW', hok', hfile'⟩ := r'.extended2_file h.ready'.splits (hsum ▸ hpairs)
  exact h.renamed.groups renamesScore2 (lidW_renamed h hok hok') (bi_perm h r r') hfile hfile'

/-- Both runs count the same documents for the pairs, under the renamed ids. -/
theorem bifreq_perm : r'.bifreq.msgs.Perm (r.bifreq.msgs.map (renameGram l)) :=
  h.renamed.docTable renamesWindows_pairs (extended2_groups h r r' hfit)
    (r.bifreq_table h.ready.splits) (r'.bifreq_table h.ready'.splits)

/-- `bifiltered.bin` of the second run. -/
theorem bifiltered_groups : RenamedGroups w l r.bifiltered.msgs r'.bifiltered.msgs := by
  have hgroups := extended2_groups h r r' hfit
  have hlen := hgroups.length_eq
  have hcount : ∀ p, UInt32.ofNat (docCount pairs (tableOf lm'.lems) docs' (rename l p))
      = UInt32.ofNat (docCount pairs (tableOf lm.lems) docs p) := fun p => by
    rw [h.renamed.docCount renamesWindows_pairs]
  exact (hgroups.filter hcount th.bi1 th.bi2).perm
    (r.bifiltered_perm h.ready.splits hfit.groups)
    (r'.bifiltered_perm h.ready'.splits (hlen ▸ hfit.groups))

/-- The filtered groups name the same pairs of words. -/
theorem filteredPair_iff (p : Idd) :
    FilteredPair r'.bifiltered (rename w p) ↔ FilteredPair r.bifiltered p :=
  (bifiltered_groups h r r' hfit).case_iff h.renamed.words p

/-- `tri.bin` of the second run is that of the first one, renamed. The pairs that are filtered in
are the renamed ones, so the same triples pass the test. -/
theorem tri_perm : r'.tri.msgs.Perm (r.tri.msgs.map (renameGram w)) := by
  have htable := r.tri_table
  have htable' := r'.tri_table
  rw [h.ready.lastKeys_eq] at htable
  rw [h.ready'.lastKeys_eq] at htable'
  have hperm := h.renamed.windows_perm renamesWindows_triples
  have hpairs := filteredPair_iff h r r' hfit
  refine htable.perm_map (fun _ _ => Gram.ext) (RenameTuple.injective w h.renamed.words)
    (fun _ => rfl) (fun _ => rfl) (fun k => ?_) (fun k _ => ?_) htable'
  · rw [hperm.mem_iff, List.mem_map]
    constructor
    · rintro ⟨⟨t, ht, rfl⟩, hB⟩
      exact ⟨t, ⟨ht, hB.imp (hpairs (t.1, t.2.1)).mp (hpairs (t.2.1, t.2.2)).mp⟩, rfl⟩
    · rintro ⟨t, ⟨ht, hB⟩, rfl⟩
      exact ⟨⟨t, ht, rfl⟩, hB.imp (hpairs (t.1, t.2.1)).mpr (hpairs (t.2.1, t.2.2)).mpr⟩
  · exact occurrences_rename h.renamed.words hperm k

/-- `extended3.bin` of the second run. -/
theorem extended3_groups : RenamedGroups w l r.extended3.msgs r'.extended3.msgs := by
  have htri := tri_perm h r r' hfit
  have htriples := hfit.triples
  have hsum := h.renamed.sum_length_combos htri
  rw [← tripleTimes_eq, ← tripleTimes_eq] at hsum
  obtain ⟨lidW, hok, hfile⟩ := r.extended3_file h.ready.splits htriples
  obtain ⟨lidW', hok', hfile'⟩ := r'.extended3_file h.ready'.splits (hsum ▸ htriples)
  exact h.renamed.groups renamesScore3 (lidW_renamed h hok hok') htri hfile hfile'

/-- And for the triples. -/
theorem trifreq_perm : r'.trifreq.msgs.Perm (r.trifreq.msgs.map (renameGram l)) :=
  h.renamed.docTable renamesWindows_triples (extended3_groups h r r' hfit)
    (r.trifreq_table h.ready.splits) (r'.trifreq_table h.ready'.splits)

/-- `trifiltered.bin` of the second run. -/
theorem trifiltered_groups : RenamedGroups w l r.trifiltered.msgs r'.trifiltered.msgs := by
  have hcount : ∀ t, UInt32.ofNat (docCount triples (tableOf lm'.lems) docs' (rename l t))
      = UInt32.ofNat (docCount triples (tableOf lm.lems) docs t) := fun t => by
    rw [h.renamed.docCount renamesWindows_triples]
  exact ((extended3_groups h r r' hfit).filter hcount th.tri1 th.tri2).perm
    (r.trifiltered_perm h.ready.splits) (r'.trifiltered_perm h.ready'.splits)

end TwoRuns

/-! ### The strings -/

section Named
variable {docs : List (List Phrase)} {std : Stdlib} {dsave : String} {th : Thresholds ℚ}
  {c : Converted} {lm : Lemmatized} (h : Ready docs c lm)

/-- Ids that are all in the table have strings, so a printed group has no gap. -/
theorem none_not_mem_inStrings {K : Type} [IdTuple K] {strings : List (UInt32 × Bytes)} {k : K}
    (h : ∀ id ∈ IdTuple.toList k, id ∈ strings.map Prod.fst) : none ∉ inStrings strings k := by
  intro hnone
  obtain ⟨id, hid, hlookup⟩ := List.mem_map.mp hnone
  obtain ⟨e, he, rfl⟩ := List.mem_map.mp (h id hid)
  rw [List.lookup_eq_none_iff] at hlookup
  simpa using hlookup e he

include h

/-- The words of a window are listed in `uni.bin`. -/
theorem named_words {K : Type} [LemTuple K] {windows : Phrase → List K} (hwin : WindowsOf windows)
    {k : K} (hk : k ∈ c.corpus.flatMap windows) : none ∉ inStrings (wordStrings c) k := by
  refine none_not_mem_inStrings (fun w hw => ?_)
  rw [wordStrings, List.map_map]
  have hmem := hwin.mem_flatten hk hw
  rw [h.corpus] at hmem
  exact (h.uni.mem_iff w).mpr hmem

/-- The lemmas of a window are listed in `lemid.bin`. -/
theorem named_lemmas {K : Type} [LemTuple K] [LawfulTuple K] {windows : Phrase → List K}
    (hwin : WindowsOf windows) {k lids : K} (hk : k ∈ c.corpus.flatMap windows)
    (hlids : lids ∈ combos (tableOf lm.lems) k) : none ∉ inStrings (lemmaStrings lm) lids := by
  refine none_not_mem_inStrings (fun l hl => ?_)
  rw [lemmaStrings, List.map_map]
  obtain ⟨w, hw, hmem⟩ := LawfulTuple.mem_toList (tableOf lm.lems) k lids hlids l hl
  have hcorpus := hwin.mem_flatten hk hw
  rw [h.corpus] at hcorpus
  exact (h.lemid.mem_iff l).mpr ((docCount_id_pos_iff l).mpr ⟨w, hcorpus, hmem⟩)

/-- So are the ids of a group file over windows of the corpus: the words of its cases stand in a
window, and its lemmas are theirs. -/
theorem named_groups {K : Type} [LemTuple K] [LawfulTuple K] [DecidableEq K]
    {windows : Phrase → List K} (hwin : WindowsOf windows) {grams : List (Gram K)}
    (hgrams : ∀ g ∈ grams, g.ids ∈ c.corpus.flatMap windows) {score : ℚ → K → Except Error ℚ}
    {out : List (LemGroup K ℚ)} (hfile : GroupFile (tableOf lm.lems) score grams out) :
    ∀ lg ∈ out, none ∉ inStrings (lemmaStrings lm) lg.lids ∧
      ∀ cs ∈ lg.cases, none ∉ inStrings (wordStrings c) cs.wids := by
  intro lg hlg
  obtain ⟨g, hg, hlids⟩ := hfile.arises lg hlg
  refine ⟨named_lemmas h hwin (hgrams g hg) hlids, fun cs hcs => ?_⟩
  -- The words of a case are those of a record.
  obtain ⟨g', hg', hcs'⟩ := List.mem_flatMap.mp ((hfile.cases lg hlg).mem_iff.mp hcs)
  rw [List.eq_of_mem_replicate hcs']
  exact named_words h hwin (hgrams g' hg')

/-- The statistics of a run are about words in `uni.bin` and lemmas in `lemid.bin`. Each record
comes from words of the corpus and their lemmas. -/
theorem Ready.allNamed (r : Run ℚ std dsave th c lm) (hfit : SortsFit r) : AllNamed r := by
  obtain ⟨lidW, -, hfile2⟩ := r.extended2_file h.splits hfit.pairs
  obtain ⟨lidW', -, hfile3⟩ := r.extended3_file h.splits hfit.triples
  have hgroups2 := named_groups h windowsOf_pairs
    (fun g hg => mem_of_mem_lastKeys (r.bi_table.sound g hg).1) hfile2
  have hgroups3 := named_groups h windowsOf_triples
    (fun g hg => mem_of_mem_lastKeys (r.tri_table.sound g hg).1.1) hfile3
  refine ⟨fun g hg => ?_, fun g hg => ?_, fun lg hlg => ?_, fun lg hlg => ?_⟩
  · obtain ⟨lg, hlg, hlids⟩ := List.mem_map.mp ((r.bifreq_table h.splits).sound g hg).1
    rw [← hlids]
    exact (hgroups2 lg hlg).1
  · obtain ⟨lg, hlg, hlids⟩ := List.mem_map.mp ((r.trifreq_table h.splits).sound g hg).1
    rw [← hlids]
    exact (hgroups3 lg hlg).1
  · exact hgroups2 lg (List.mem_filter.mp
      ((r.bifiltered_perm h.splits hfit.groups).mem_iff.mp hlg)).1
  · exact hgroups3 lg (List.mem_filter.mp ((r.trifiltered_perm h.splits).mem_iff.mp hlg)).1

end Named

/-- `lemfreq.bin` gives the lemmas of `lemid.bin` their document counts, in the order of that
file. -/
theorem lemfreq_strWeight {docs : List (List Phrase)} {std : Stdlib} {dsave : String}
    {th : Thresholds ℚ} {c : Converted} {lm : Lemmatized} (h : Ready docs c lm)
    (r : Run ℚ std dsave th c lm) : r.lemfreq.msgs.map strWeight
      = lm.lemid.msgs.map (fun m =>
          (m.str, UInt32.ofNat (docCount id (tableOf lm.lems) docs m.id))) := by
  have hfreq := r.bifreqStat_eq
  rw [h.corpus] at hfreq
  have hfreqs := (bifreqStat_ok std (h.lemmas.documents h.few h.phrases_ne) hfreq).2
  have hmap :=
    congrArg (List.map (fun t : Bytes × UInt32 × Nat => (t.1, UInt32.ofNat t.2.2))) hfreqs
  rw [List.map_map, List.map_map] at hmap
  refine Eq.trans (List.map_congr_left (fun m _ => ?_)) hmap
  show (m.str, m.weight) = (m.str, UInt32.ofNat m.weight.toNat)
  rw [UInt32.ofNat_toNat]

section Strings
variable {w l : UInt32 → UInt32} {docs docs' : List (List Phrase)} {c c' : Converted}
  {lm lm' : Lemmatized} (h : SameUpToIds w l docs docs' c c' lm lm')
include h

/-- A word has the same string under its new id. The ids of each run are distinct, so an id has
one string. -/
theorem inStrings_words {K : Type} [LemTuple K] [RenameTuple K] (k : K) :
    inStrings (wordStrings c') (rename w k) = inStrings (wordStrings c) k := by
  have hnd : ((wordStrings c).map Prod.fst).Nodup := by
    rw [wordStrings, List.map_map]
    exact h.ready.uni.nodup
  have hperm : (wordStrings c').Perm ((wordStrings c).map (Prod.map w id)) := by
    refine (h.uni.map _).trans (List.Perm.of_eq ?_)
    rw [wordStrings, List.map_map, List.map_map]
    rfl
  unfold inStrings
  rw [RenameTuple.toList_rename, List.map_map]
  exact List.map_congr_left (fun id _ => lookup_perm_map h.renamed.words hnd hperm id)

/-- So has a lemma, by the renaming of the lemmas. -/
theorem inStrings_lemmas {K : Type} [LemTuple K] [RenameTuple K] (k : K) :
    inStrings (lemmaStrings lm') (rename l k) = inStrings (lemmaStrings lm) k := by
  have hnd : ((lemmaStrings lm).map Prod.fst).Nodup := by
    rw [lemmaStrings, List.map_map]
    exact h.ready.lemid.nodup
  have hperm : (lemmaStrings lm').Perm ((lemmaStrings lm).map (Prod.map l id)) := by
    refine (h.lemid.map _).trans (List.Perm.of_eq ?_)
    rw [lemmaStrings, List.map_map, List.map_map]
    rfl
  unfold inStrings
  rw [RenameTuple.toList_rename, List.map_map]
  exact List.map_congr_left (fun id _ => lookup_perm_map h.renamed.lemmas hnd hperm id)

/-- Renamed records are the same in strings. -/
theorem gramsInStrings {K : Type} [LemTuple K] [RenameTuple K] {grams grams' : List (Gram K)}
    (hgrams : grams'.Perm (grams.map (renameGram l))) :
    (grams'.map (gramInStrings (lemmaStrings lm'))).Perm
      (grams.map (gramInStrings (lemmaStrings lm))) := by
  refine (hgrams.map _).trans (List.Perm.of_eq ?_)
  rw [List.map_map]
  exact List.map_congr_left (fun g _ => Prod.ext (inStrings_lemmas h g.ids) rfl)

/-- So are renamed groups. -/
theorem groupsInStrings {K : Type} [LemTuple K] [RenameTuple K] {out out' : List (LemGroup K ℚ)}
    (hgroups : RenamedGroups w l out out') :
    (out'.map (groupInStrings c' lm')).Perm (out.map (groupInStrings c lm)) :=
  hgroups.read (fun lg _ => inStrings_lemmas h lg.lids) (fun _ _ cs _ => inStrings_words h cs.wids)

/-- Runs over corpora that differ in ids and order have the same statistics. With the strings in
place of the ids, the renaming is gone. -/
theorem SameUpToIds.sameStatistics {std std' : Stdlib} {dsave dsave' : String} {th : Thresholds ℚ}
    (htotal : c'.totalCount = c.totalCount) (r : Run ℚ std dsave th c lm)
    (r' : Run ℚ std' dsave' th c' lm') (hfit : SortsFit r) : SameStatistics r r' where
  totalCount := htotal
  uni := by
    refine (h.uni.map strWeight).trans (List.Perm.of_eq ?_)
    rw [List.map_map]
    rfl
  lemfreq := by
    rw [lemfreq_strWeight h.ready r, lemfreq_strWeight h.ready' r']
    refine (h.lemid.map _).trans (List.Perm.of_eq ?_)
    rw [List.map_map]
    refine List.map_congr_left (fun m _ => Prod.ext rfl ?_)
    exact congrArg UInt32.ofNat (h.renamed.docCount renamesWindows_id m.id)
  bifreq := gramsInStrings h (bifreq_perm h r r' hfit)
  trifreq := gramsInStrings h (trifreq_perm h r r' hfit)
  bifiltered := groupsInStrings h (bifiltered_groups h r r' hfit)
  trifiltered := groupsInStrings h (trifiltered_groups h r r' hfit)

end Strings

end Colloc.Proofs

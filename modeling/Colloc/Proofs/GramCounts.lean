import Colloc.Proofs.GramStat

/-!
# `Colloc.Proofs.GramCounts`: what `bi.bin` and `tri.bin` hold

`bigramStat_counts` and `trigramStat_counts` state the result of the two counting stages in
a fresh directory: the sorted table of the pairs, and of the triples with a filtered pair,
with the number of their occurrences modulo `2 ^ 32`. The table depends on the corpus and
the filter alone. It does not depend on the documents that end a chunk, on the order of the
directory, or on the order of a hash table.

The chunk counter is a `u32`, so this holds up to `2 ^ 32` part files. Each further one
replaces an earlier one, and the last `2 ^ 32` chunks are counted (`bigramStat_table`,
`trigramStat_table`). `bigramStat_wraps` and `trigramStat_wraps` are corpora that lose a count
so.

`gramStats_rerun` is about a used directory. The stages do not empty it, so a file of an
earlier run that this run does not replace is merged again. The results are those of a
fresh directory exactly when these files add nothing.
-/

set_option autoImplicit false

namespace Colloc.Proofs

open Colloc.Lib
open Colloc.Spec

/-- Chunking commutes with a filter of the keys. Where a chunk ends depends on the number of the
documents, not on the keys in it. -/
theorem chunkKeys_filter {K : Type} (full : UInt32 → Bool) (keys : Phrase → List K)
    (p : K → Bool) (corpus : List Phrase) :
    ∀ (docid : UInt32) (acc : List K),
      chunkKeys full (fun ids => (keys ids).filter p) docid (acc.filter p) corpus
        = (chunkKeys full keys docid acc corpus).map (fun ks => ks.filter p) := by
  induction corpus with
  | nil => intro docid acc; rfl
  | cons ids corpus ih =>
      intro docid acc
      rw [chunkKeys, chunkKeys, ← List.filter_append, ih, ih, ih]
      split
      · split <;> rfl
      · rfl

section Table
variable {K : Type} [IdTuple K] [DecidableEq K]

/-- The records are the sorted table of the keys `ks` and the number of their occurrences. -/
abbrev KeyTable (ks : List K) (out : List (Gram K)) : Prop :=
  IsTable Gram.ids Gram.weight (· ∈ ks) (occurrences ks) out

/-- A tally of keys that weigh one each is a table of their counts. -/
theorem GramTally.keyTable {ks : List K} {out : List (Gram K)}
    (h : GramTally (ks.map unitGram) out) : KeyTable ks out :=
  h.congr (fun k => by rw [map_ids_unitGram]) (fun k _ => sumAt_unitGram ks k)

/-- The keys of the chunks whose part files are there at the end: of all chunks, or of the last
`2 ^ 32` ones when there are more. -/
def lastKeys {K : Type} (full : UInt32 → Bool) (keys : Phrase → List K) (corpus : List Phrase) :
    List K :=
  (survivors (chunkKeys full keys 1 [] corpus)).flatten

omit [IdTuple K] [DecidableEq K] in
/-- The last parts have keys of the corpus only. -/
theorem mem_of_mem_lastKeys {full : UInt32 → Bool} {keys : Phrase → List K}
    {corpus : List Phrase} {k : K} (h : k ∈ lastKeys full keys corpus) :
    k ∈ corpus.flatMap keys := by
  obtain ⟨ks, hks, hk⟩ := List.mem_flatten.mp h
  have hall := List.mem_flatten.mpr ⟨ks, List.mem_of_mem_drop hks, hk⟩
  rw [chunkKeys_flatten] at hall
  exact hall

omit [IdTuple K] [DecidableEq K] in
/-- Which parts are the last ones does not depend on the keys, so the keys can be filtered before
or behind. -/
theorem lastKeys_filter (full : UInt32 → Bool) (keys : Phrase → List K) (p : K → Bool)
    (corpus : List Phrase) :
    lastKeys full (fun ids => (keys ids).filter p) corpus
      = (lastKeys full keys corpus).filter p := by
  unfold lastKeys
  have hchunks := chunkKeys_filter full keys p corpus 1 []
  rw [List.filter_nil] at hchunks
  rw [hchunks, survivors_map, ← List.filter_flatten]

/-- A counting stage in a fresh directory. There are no part files of another run, so what is
merged are the chunks whose files were not replaced. -/
theorem gramStatBy_table (std : Stdlib) (full : UInt32 → Bool)
    (path suffix ending : String) (hsuffix : ending.toList <:+ suffix.toList)
    {count : FlatHashMap K UInt32 → Phrase → FlatHashMap K UInt32} {keys : Phrase → List K}
    (hcount : ∀ m ids, count m ids = (keys ids).foldl countKey m) (corpus : List Phrase) :
    ∃ out dir, gramStatBy std full path suffix ending count corpus ∅
        = .ok ({ total := 0, msgs := out }, dir) ∧ KeyTable (lastKeys full keys corpus) out := by
  have hstale : staleFiles path suffix ending
      (∅ : FlatHashMap String (RecordFile (Gram K))) (partCount full corpus) = [] := rfl
  obtain ⟨out, dir, hrun, htally⟩ := gramStatBy_spec std full path suffix ending hsuffix hcount
    corpus ∅ (by rw [hstale]; exact fun f hf => absurd hf List.not_mem_nil)
  refine ⟨out, dir, hrun, GramTally.keyTable ?_⟩
  rw [staleGrams, hstale, List.flatMap_nil, List.append_nil] at htally
  exact htally

/-- A counting stage in a fresh directory, with at most `2 ^ 32` part files. Each chunk then has a
file of its own, and all windows are counted. -/
theorem gramStatBy_fresh (std : Stdlib) (full : UInt32 → Bool)
    (path suffix ending : String) (hsuffix : ending.toList <:+ suffix.toList)
    {count : FlatHashMap K UInt32 → Phrase → FlatHashMap K UInt32} {keys : Phrase → List K}
    (hcount : ∀ m ids, count m ids = (keys ids).foldl countKey m) (corpus : List Phrase)
    (hparts : partCount full corpus ≤ 2 ^ 32) :
    ∃ out dir, gramStatBy std full path suffix ending count corpus ∅
        = .ok ({ total := 0, msgs := out }, dir) ∧ KeyTable (corpus.flatMap keys) out := by
  obtain ⟨out, dir, hrun, htable⟩ := gramStatBy_table std full path suffix ending hsuffix hcount
    corpus
  refine ⟨out, dir, hrun, ?_⟩
  rw [lastKeys, survivors_of_le (by rw [length_chunkKeys]; exact hparts), chunkKeys_flatten]
    at htable
  exact htable

end Table

/-! ### Pairs -/

/-- The sorted table of the pairs at adjacent positions of a phrase, with the number of
their occurrences modulo `2 ^ 32`. -/
def BigramTable (corpus : List Phrase) (msgs : List Bigram) : Prop :=
  KeyTable (corpus.flatMap pairs) msgs

/-- `bigram_stat` in a fresh directory. -/
theorem bigramStatBy_fresh (std : Stdlib) (full : UInt32 → Bool) (dsave : String)
    (corpus : List Phrase) (hparts : partCount full corpus ≤ 2 ^ 32) :
    ∃ out dir, bigramStatBy std full dsave corpus ∅
      = .ok ({ total := 0, msgs := out }, dir) ∧ BigramTable corpus out :=
  gramStatBy_fresh std full (dsave ++ "/bi_parts/") "_bi.bin" "bi.bin" (by decide)
    (fun m ids => bigramLoop_eq ids m) corpus hparts

/-- `bigram_stat` in a fresh directory, for any number of part files. -/
theorem bigramStat_table (std : Stdlib) (dsave : String) (corpus : List Phrase) :
    ∃ out dir, bigramStat std dsave corpus ∅ = .ok ({ total := 0, msgs := out }, dir) ∧
      KeyTable (lastKeys chunkFull pairs corpus) out :=
  gramStatBy_table std chunkFull (dsave ++ "/bi_parts/") "_bi.bin" "bi.bin" (by decide)
    (fun m ids => bigramLoop_eq ids m) corpus

/-- `bi.bin` is the table of the pairs of adjacent words, when at most `2 ^ 32` part files
are written. The table is the same for every cut into chunks (`chunkFull` is the source's)
and every order of the library. -/
theorem bigramStat_counts (corpus : List Phrase) :
    ∃ out, BigramTable corpus out ∧
      ∀ (std : Stdlib) (full : UInt32 → Bool) (dsave : String),
        partCount full corpus ≤ 2 ^ 32 →
          ∃ dir, bigramStatBy std full dsave corpus ∅
            = .ok ({ total := 0, msgs := out }, dir) := by
  -- A run with one chunk names the table, and every run gives this table.
  obtain ⟨out, -, -, hout⟩ := bigramStatBy_fresh Stdlib.sorting (fun _ => false) "" corpus
    (by simp [partCount])
  refine ⟨out, hout, fun std full dsave h => ?_⟩
  obtain ⟨out', dir, hok, hout'⟩ := bigramStatBy_fresh std full dsave corpus h
  rw [hout.unique (fun _ _ => Gram.ext) (fun k => Iff.rfl) (fun k _ => rfl) hout']
  exact ⟨dir, hok⟩

/-- The pair `1 2` twice and `2 1` once. -/
theorem bigramStat_counts_small :
    ∃ out, BigramTable [[1, 2, 1, 2], []] out ∧
      ∃ dir, bigramStat Stdlib.sorting "save" [[1, 2, 1, 2], []] ∅
        = .ok ({ total := 0, msgs := out }, dir) := by
  obtain ⟨out, hout, hrun⟩ := bigramStat_counts [[1, 2, 1, 2], []]
  exact ⟨out, hout, hrun Stdlib.sorting chunkFull "save" (by decide)⟩

/-! ### Triples -/

/-- The pairs of words that the cases of `bifiltered.bin` name. -/
def FilteredPair {R : Type} (bifiltered : RecordFile (Lem2Group R)) (p : Idd) : Prop :=
  ∃ lg ∈ bifiltered.msgs, ∃ cs ∈ lg.cases, cs.wids = p

/-- Inserting the pairs of one group. -/
theorem contains_insert_cases {R : Type} (lg : Lem2Group R) (s : FlatHashSet Idd) (p : Idd) :
    (lg.cases.foldl (fun s cs => s.insert cs.wids) s).contains p = true
      ↔ (∃ cs ∈ lg.cases, cs.wids = p) ∨ s.contains p = true := by
  generalize lg.cases = cases
  induction cases generalizing s with
  | nil => simp
  | cons cs cases ih =>
      rw [List.foldl_cons, ih, FlatHashSet.contains_insert, List.exists_mem_cons_iff,
        eq_comm (a := p), or_left_comm, or_assoc]

/-- `load_filtered_bigrams` loads the pairs of the cases of all groups. The induction is on the
groups, with the pairs loaded so far arbitrary. -/
theorem loadFilteredBigrams_spec {R : Type} [Double R] (bifiltered : RecordFile (Lem2Group R)) :
    ∃ biwids, loadFilteredBigrams bifiltered = .ok biwids ∧
      ∀ p, biwids.contains p = true ↔ FilteredPair bifiltered p := by
  -- The induction is on the groups, with the pairs loaded so far arbitrary.
  have hload : ∀ (msgs : List (Lem2Group R)) (s : FlatHashSet Idd),
      ∃ s', msgs.foldlM (fun s lg => (.ok (lg.cases.foldl (fun s cs => s.insert cs.wids) s) :
          Except Error (FlatHashSet Idd))) s = .ok s' ∧
        ∀ p, s'.contains p = true
          ↔ (∃ lg ∈ msgs, ∃ cs ∈ lg.cases, cs.wids = p) ∨ s.contains p = true := by
    intro msgs
    induction msgs with
    | nil => intro s; exact ⟨s, rfl, fun p => by simp⟩
    | cons lg msgs ih =>
        intro s
        obtain ⟨s', hok, hs'⟩ := ih (lg.cases.foldl (fun s cs => s.insert cs.wids) s)
        refine ⟨s', hok, fun p => ?_⟩
        rw [hs', contains_insert_cases, List.exists_mem_cons_iff, or_left_comm, or_assoc]
  obtain ⟨biwids, hok, hbi⟩ := hload bifiltered.msgs ∅
  refine ⟨biwids, by rw [loadFilteredBigrams, readApply_eq]; exact hok, fun p => ?_⟩
  rw [hbi, FlatHashSet.contains_empty]
  exact or_iff_left Bool.false_ne_true

/-- The sorted table of the triples at consecutive positions of a phrase with a pair in `B`,
with the number of all their occurrences modulo `2 ^ 32`. -/
def TrigramTable (B : Idd → Prop) (corpus : List Phrase) (msgs : List Trigram) : Prop :=
  IsTable Gram.ids Gram.weight
    (fun t => t ∈ corpus.flatMap triples ∧ (B (t.1, t.2.1) ∨ B (t.2.1, t.2.2)))
    (occurrences (corpus.flatMap triples)) msgs

/-- The table of those of the triples `ts` with a pair in `B`. -/
abbrev TripleTable (B : Idd → Prop) (ts : List Iddd) (msgs : List Trigram) : Prop :=
  IsTable Gram.ids Gram.weight (fun t => t ∈ ts ∧ (B (t.1, t.2.1) ∨ B (t.2.1, t.2.2)))
    (occurrences ts) msgs

/-- The keys that are counted are the occurrences of the triples with a filtered pair. -/
theorem KeyTable.tripleTable {B : Idd → Prop} {biwids : FlatHashSet Idd}
    (hB : ∀ p, biwids.contains p = true ↔ B p) {ts : List Iddd} {msgs : List Trigram}
    (h : KeyTable (ts.filter (hit biwids)) msgs) : TripleTable B ts msgs := by
  have hhit : ∀ t, hit biwids t = true ↔ B (t.1, t.2.1) ∨ B (t.2.1, t.2.2) := by
    intro t
    rw [hit, Bool.or_eq_true, hB, hB]
  refine h.congr (fun t => ?_) (fun t ht => ?_)
  · rw [List.mem_filter, hhit]
  · exact occurrences_filter (List.mem_filter.mp ht).2 _

/-- `trigram_stat` in a fresh directory. The flag of the window says whether one of its pairs was
filtered in. -/
theorem trigramStatBy_fresh {R : Type} [Double R] (std : Stdlib) (full : UInt32 → Bool)
    (dsave : String) (bifiltered : RecordFile (Lem2Group R)) (corpus : List Phrase)
    (hparts : partCount full corpus ≤ 2 ^ 32) :
    ∃ out dir, trigramStatBy std full dsave bifiltered corpus ∅
      = .ok ({ total := 0, msgs := out }, dir) ∧
        TrigramTable (FilteredPair bifiltered) corpus out := by
  obtain ⟨biwids, hload, hB⟩ := loadFilteredBigrams_spec bifiltered
  obtain ⟨out, dir, hok, hout⟩ := gramStatBy_fresh std full (dsave ++ "/tri_parts/") "_tri.bin"
    "tri.bin" (by decide) (fun m ids => trigramLoop_eq biwids ids m) corpus hparts
  rw [← List.filter_flatMap] at hout
  refine ⟨out, dir, ?_, KeyTable.tripleTable hB hout⟩
  rw [trigramStatBy, hload]
  exact hok

/-- `trigram_stat` in a fresh directory, for any number of part files: the table of the chunks
whose files were not replaced. -/
theorem trigramStat_table {R : Type} [Double R] (std : Stdlib) (dsave : String)
    (bifiltered : RecordFile (Lem2Group R)) (corpus : List Phrase) :
    ∃ out dir, trigramStat std dsave bifiltered corpus ∅
        = .ok ({ total := 0, msgs := out }, dir) ∧
      TripleTable (FilteredPair bifiltered) (lastKeys chunkFull triples corpus) out := by
  obtain ⟨biwids, hload, hB⟩ := loadFilteredBigrams_spec bifiltered
  obtain ⟨out, dir, hok, hout⟩ := gramStatBy_table std chunkFull (dsave ++ "/tri_parts/")
    "_tri.bin" "tri.bin" (by decide) (fun m ids => trigramLoop_eq biwids ids m) corpus
  rw [lastKeys_filter] at hout
  refine ⟨out, dir, ?_, KeyTable.tripleTable hB hout⟩
  rw [trigramStat, trigramStatBy, hload]
  exact hok

/-- `tri.bin` is the table of the triples with a filtered pair, when at most `2 ^ 32` part
files are written. -/
theorem trigramStat_counts {R : Type} [Double R] (bifiltered : RecordFile (Lem2Group R))
    (corpus : List Phrase) :
    ∃ out, TrigramTable (FilteredPair bifiltered) corpus out ∧
      ∀ (std : Stdlib) (full : UInt32 → Bool) (dsave : String),
        partCount full corpus ≤ 2 ^ 32 →
          ∃ dir, trigramStatBy std full dsave bifiltered corpus ∅
            = .ok ({ total := 0, msgs := out }, dir) := by
  obtain ⟨out, -, -, hout⟩ := trigramStatBy_fresh Stdlib.sorting (fun _ => false) "" bifiltered
    corpus (by simp [partCount])
  refine ⟨out, hout, fun std full dsave h => ?_⟩
  obtain ⟨out', dir, hok, hout'⟩ := trigramStatBy_fresh std full dsave bifiltered corpus h
  rw [hout.unique (fun _ _ => Gram.ext) (fun k => Iff.rfl) (fun k _ => rfl) hout']
  exact ⟨dir, hok⟩

/-- A `bifiltered.bin` with the one pair `(1, 2)`. -/
def onePair : RecordFile (Lem2Group ℚ) :=
  { total := 0, msgs := [{ lids := (1, 1), weight := 1, cases := [⟨(1, 2), 1⟩] }] }

/-- The triples with the pair `1 2`. -/
theorem trigramStat_counts_small :
    ∃ out, TrigramTable (FilteredPair onePair) [[3, 1, 2, 1, 2], []] out ∧
      ∃ dir, trigramStat Stdlib.sorting "save" onePair [[3, 1, 2, 1, 2], []] ∅
        = .ok ({ total := 0, msgs := out }, dir) := by
  obtain ⟨out, hout, hrun⟩ := trigramStat_counts onePair [[3, 1, 2, 1, 2], []]
  exact ⟨out, hout, hrun Stdlib.sorting chunkFull "save" (by decide)⟩

/-! ### More than `2 ^ 32` part files -/

/-- Among 40,000 documents in a row one ends a chunk. The counter of documents wraps too,
and `0` ends a chunk. -/
theorem exists_chunkFull (docid : UInt32) :
    ∃ i < 40000, chunkFull (docid + UInt32.ofNat i) = true := by
  have hfull : ∀ i, i < 40000 → (docid.toNat + i) % 2 ^ 32 % 40000 = 0 →
      chunkFull (docid + UInt32.ofNat i) = true := by
    intro i hi hmod
    unfold chunkFull
    rw [beq_iff_eq, ← UInt32.toNat_inj, UInt32.toNat_mod, UInt32.toNat_add,
      UInt32.toNat_ofNat', Nat.mod_eq_of_lt (a := i) (by omega)]
    exact hmod
  have hlt : docid.toNat < 2 ^ 32 := docid.toNat_lt
  -- This document, the next multiple of 40,000, or the wrap to `0`, whichever is first.
  by_cases h0 : docid.toNat % 40000 = 0
  · refine ⟨0, by omega, hfull 0 (by omega) ?_⟩
    rw [Nat.add_zero, Nat.mod_eq_of_lt hlt, h0]
  · by_cases hw : docid.toNat + (40000 - docid.toNat % 40000) < 2 ^ 32
    · refine ⟨40000 - docid.toNat % 40000, by omega, hfull _ (by omega) ?_⟩
      rw [Nat.mod_eq_of_lt hw]
      omega
    · refine ⟨2 ^ 32 - docid.toNat, by omega, hfull _ (by omega) ?_⟩
      rw [Nat.add_sub_cancel' (Nat.le_of_lt hlt), Nat.mod_self, Nat.zero_mod]

/-- So `40,000 * n` documents end at least `n` chunks, whatever the test of a chunk does with the
number of a document. -/
theorem le_countP_chunkFull (n : Nat) :
    n ≤ (List.range (40000 * n)).countP (fun i => chunkFull (1 + UInt32.ofNat i)) := by
  induction n with
  | zero => exact Nat.zero_le _
  | succ n ih =>
      obtain ⟨i, hi, hfull⟩ := exists_chunkFull (1 + UInt32.ofNat (40000 * n))
      -- The last 40,000 documents have one that ends a chunk.
      have hpos : 0 < ((List.range 40000).map (40000 * n + ·)).countP
          (fun i => chunkFull (1 + UInt32.ofNat i)) := by
        refine List.countP_pos_iff.mpr ⟨40000 * n + i, ?_, ?_⟩
        · exact List.mem_map_of_mem (List.mem_range.mpr hi)
        · rw [UInt32.ofNat_add, ← UInt32.add_assoc]
          exact hfull
      rw [Nat.mul_succ, List.range_add, List.countP_append]
      omega

/-- The phrase `ids` and then `n` times 40,000 documents without words. -/
def wrapCorpus (n : Nat) (ids : Phrase) : List Phrase := ids :: List.replicate (40000 * n) []

/-- The chunk with the phrase is not among the last `2 ^ 32`, and the others are empty. So many
documents follow the phrase that more chunks than numbers are written. -/
theorem survivors_wrapCorpus {K : Type} (keys : Phrase → List K) (hkeys : keys [] = [])
    {ids : Phrase} (hids : ids ≠ []) {n : Nat} (hn : 2 ^ 32 ≤ n) :
    (survivors (chunkKeys chunkFull keys 1 [] (wrapCorpus n ids))).flatten = [] := by
  have hlen : 2 ^ 32 < (chunkKeys chunkFull keys 1 [] (wrapCorpus n ids)).length := by
    rw [length_chunkKeys, partCount, wrapCorpus, List.count_cons_of_ne hids,
      List.count_replicate_self]
    have := le_countP_chunkFull n
    omega
  -- Behind the first chunk there are only documents without words.
  have htail : ∀ (l : Nat) (docid : UInt32) (acc : List K),
      (chunkKeys chunkFull keys docid acc (List.replicate l [])).tail.flatten = [] := by
    intro l
    induction l with
    | zero => intro docid acc; rfl
    | succ l ih =>
        intro docid acc
        rw [List.replicate_succ, chunkKeys, if_pos (by rfl), hkeys]
        split
        · rw [List.tail_cons, chunkKeys_flatten]
          simp [hkeys]
        · exact ih (docid + 1) (acc ++ [])
  have hcut : chunkKeys chunkFull keys 1 [] (wrapCorpus n ids)
      = chunkKeys chunkFull keys 1 ([] ++ keys ids) (List.replicate (40000 * n) []) := by
    rw [wrapCorpus, chunkKeys, if_neg (by simpa using hids)]
  rw [hcut] at hlen ⊢
  refine List.flatten_eq_nil_iff.mpr (fun ks hks => ?_)
  refine List.flatten_eq_nil_iff.mp (htail (40000 * n) 1 ([] ++ keys ids)) ks ?_
  rw [← List.drop_one]
  exact List.drop_subset_drop_left _ (by omega) hks

/-- A counting stage on such a corpus writes an empty file, since the part of the phrase is
written over by an empty one. -/
theorem gramStatBy_wrapCorpus {K : Type} [IdTuple K] [DecidableEq K] (std : Stdlib)
    (path suffix ending : String) (hsuffix : ending.toList <:+ suffix.toList)
    {count : FlatHashMap K UInt32 → Phrase → FlatHashMap K UInt32} {keys : Phrase → List K}
    (hcount : ∀ m ids, count m ids = (keys ids).foldl countKey m) (hkeys : keys [] = [])
    (ids : Phrase) (hids : ids ≠ []) {n : Nat} (hn : 2 ^ 32 ≤ n) :
    ∃ dir, gramStatBy std chunkFull path suffix ending count (wrapCorpus n ids) ∅
      = .ok ({ total := 0, msgs := [] }, dir) := by
  have hstale : ∀ n, staleFiles path suffix ending
      (∅ : FlatHashMap String (RecordFile (Gram K))) n = [] := fun _ => rfl
  obtain ⟨out, dir, hrun, htally⟩ := gramStatBy_spec std chunkFull path suffix ending hsuffix
    hcount (wrapCorpus n ids) ∅ (by rw [hstale]; exact fun f hf => absurd hf List.not_mem_nil)
  rw [survivors_wrapCorpus keys hkeys hids hn, staleGrams, hstale] at htally
  -- The table of no keys is empty.
  cases out with
  | nil => exact ⟨dir, hrun⟩
  | cons g out => exact absurd (htally.sound g (by simp)).1 List.not_mem_nil

/-- With `2 ^ 32` full parts the file of the first part is written twice, and its pairs are lost.
-/
theorem bigramStat_loses {n : Nat} (hn : 2 ^ 32 ≤ n) :
    ¬ ∃ file dir, bigramStat Stdlib.sorting "save" (wrapCorpus n [1, 2]) ∅ = .ok (file, dir) ∧
      BigramTable (wrapCorpus n [1, 2]) file.msgs := by
  rintro ⟨file, dir, hok, htable⟩
  obtain ⟨dir', hrun⟩ := gramStatBy_wrapCorpus Stdlib.sorting ("save" ++ "/bi_parts/")
    "_bi.bin" "bi.bin" (by decide) (fun m ids => bigramLoop_eq ids m) rfl
    [1, 2] (by decide) hn
  have hfile : (⟨0, []⟩ : RecordFile Bigram) = file :=
    (Prod.ext_iff.mp (Except.ok.inj (hrun.symm.trans hok))).1
  subst hfile
  obtain ⟨g, hg, -⟩ := htable.complete (1, 2)
    (List.mem_flatMap.mpr ⟨[1, 2], List.mem_cons_self, by decide⟩)
  exact absurd hg List.not_mem_nil

/-- With more than `2 ^ 32` part files the one with the pair `(1, 2)` is overwritten, and
the pair is not in `bi.bin`. -/
theorem bigramStat_wraps :
    ¬ ∃ file dir, bigramStat Stdlib.sorting "save" (wrapCorpus (2 ^ 32) [1, 2]) ∅
        = .ok (file, dir) ∧ BigramTable (wrapCorpus (2 ^ 32) [1, 2]) file.msgs :=
  bigramStat_loses (Nat.le_refl (2 ^ 32))

/-- So are its triples: the phrase `1 2 3` has the filtered pair `1 2`, and `tri.bin` is empty. -/
theorem trigramStat_loses {n : Nat} (hn : 2 ^ 32 ≤ n) :
    ¬ ∃ file dir, trigramStat Stdlib.sorting "save" onePair (wrapCorpus n [1, 2, 3]) ∅
        = .ok (file, dir) ∧
      TrigramTable (FilteredPair onePair) (wrapCorpus n [1, 2, 3]) file.msgs := by
  rintro ⟨file, dir, hok, htable⟩
  obtain ⟨biwids, hload, -⟩ := loadFilteredBigrams_spec onePair
  rw [trigramStat, trigramStatBy, hload] at hok
  obtain ⟨dir', hrun⟩ := gramStatBy_wrapCorpus Stdlib.sorting ("save" ++ "/tri_parts/")
    "_tri.bin" "tri.bin" (by decide)
    (fun m ids => trigramLoop_eq biwids ids m) rfl [1, 2, 3] (by decide) hn
  have hfile : (⟨0, []⟩ : RecordFile Trigram) = file :=
    (Prod.ext_iff.mp (Except.ok.inj (hrun.symm.trans hok))).1
  subst hfile
  obtain ⟨g, hg, -⟩ := htable.complete (1, 2, 3)
    ⟨List.mem_flatMap.mpr ⟨[1, 2, 3], List.mem_cons_self, by decide⟩,
      Or.inl ⟨_, List.mem_cons_self, _, List.mem_cons_self, rfl⟩⟩
  exact absurd hg List.not_mem_nil

/-- The same for the triple `(1, 2, 3)` and `tri.bin`. -/
theorem trigramStat_wraps :
    ¬ ∃ file dir, trigramStat Stdlib.sorting "save" onePair (wrapCorpus (2 ^ 32) [1, 2, 3]) ∅
        = .ok (file, dir) ∧
      TrigramTable (FilteredPair onePair) (wrapCorpus (2 ^ 32) [1, 2, 3]) file.msgs :=
  trigramStat_loses (Nat.le_refl (2 ^ 32))

/-! ### A used directory -/

section Rerun
variable {K : Type} [IdTuple K] [DecidableEq K]

/-- What an earlier run may have left in a directory of part files: any number of files with
the names of part files, each ascending by its ids. -/
def LeftByRun (suffix : String) (dout : FlatHashMap String (RecordFile (Gram K))) : Prop :=
  ∀ e ∈ dout.entries, (∃ n, e.1 = partName suffix n) ∧ Ascending Gram.ids e.2.msgs

/-- The leftover records change nothing: this run counts their keys too, and their weights
cancel modulo `2 ^ 32`. -/
def AddsNothing (stale : List (Gram K)) (counted : K → Prop) : Prop :=
  ∀ g ∈ stale, counted g.ids ∧ sumAt Gram.ids Gram.weight stale g.ids = 0

/-- A counting stage in a used directory against a fresh one. Both merge the last chunks, so the
files agree exactly when the leftover parts add nothing to what is counted. -/
theorem gramStatBy_same_iff (std std' : Stdlib) (full : UInt32 → Bool)
    (path suffix ending : String) (hsuffix : ending.toList <:+ suffix.toList)
    {count : FlatHashMap K UInt32 → Phrase → FlatHashMap K UInt32} {keys : Phrase → List K}
    (hcount : ∀ m ids, count m ids = (keys ids).foldl countKey m) (corpus : List Phrase)
    {dout : FlatHashMap String (RecordFile (Gram K))} (hdout : LeftByRun suffix dout) :
    (gramStatBy std full path suffix ending count corpus dout).map Prod.fst
        = (gramStatBy std' full path suffix ending count corpus ∅).map Prod.fst
      ↔ AddsNothing (staleGrams path suffix ending dout (partCount full corpus))
          (· ∈ (survivors (chunkKeys full keys 1 [] corpus)).flatten) := by
  have hnone : staleFiles path suffix ending
      (∅ : FlatHashMap String (RecordFile (Gram K))) (partCount full corpus) = [] := rfl
  obtain ⟨out, dir, hrun, htally⟩ := gramStatBy_spec std full path suffix ending hsuffix hcount
    corpus dout (fun f hf => by
      obtain ⟨e, he, rfl⟩ := List.mem_map.mp hf
      exact (hdout e (List.mem_of_mem_filter he)).2)
  obtain ⟨out', dir', hrun', htally'⟩ := gramStatBy_spec std' full path suffix ending hsuffix
    hcount corpus ∅ (by rw [hnone]; exact fun f hf => absurd hf List.not_mem_nil)
  rw [staleGrams, hnone, List.flatMap_nil, List.append_nil] at htally'
  -- Both runs succeed, so they agree when their records do.
  have hsame : (gramStatBy std full path suffix ending count corpus dout).map Prod.fst
      = (gramStatBy std' full path suffix ending count corpus ∅).map Prod.fst ↔ out = out' := by
    rw [hrun, hrun']
    constructor
    · intro h
      exact congrArg RecordFile.msgs (Except.ok.inj h)
    · rintro rfl
      rfl
  rw [hsame]
  generalize (survivors (chunkKeys full keys 1 [] corpus)).flatten = ks at htally htally' ⊢
  generalize staleGrams path suffix ending dout (partCount full corpus) = stale at htally ⊢
  rw [IsTally.append_eq_iff (fun _ _ => Gram.ext) htally htally', map_ids_unitGram]
  rfl

end Rerun

/-- The leftover records in `bi_parts` for a run over `corpus`. -/
def staleBigrams (dsave : String) (biParts : FlatHashMap String (RecordFile Bigram))
    (corpus : List Phrase) : List Bigram :=
  staleGrams (dsave ++ "/bi_parts/") "_bi.bin" "bi.bin" biParts (partCount chunkFull corpus)

/-- The leftover records in `tri_parts` for a run over `corpus`. -/
def staleTrigrams (dsave : String) (triParts : FlatHashMap String (RecordFile Trigram))
    (corpus : List Phrase) : List Trigram :=
  staleGrams (dsave ++ "/tri_parts/") "_tri.bin" "tri.bin" triParts (partCount chunkFull corpus)

/-- `bigram_stat` and `trigram_stat` in used directories give the results of fresh ones
exactly when the part files that are not replaced add nothing: their keys are counted in
this run's last `2 ^ 32` chunks, and the leftover weights of each key sum to `0`. -/
theorem gramStats_rerun {R : Type} [Double R] (std std' : Stdlib) (dsave : String)
    (corpus : List Phrase) (bifiltered : RecordFile (Lem2Group R))
    (biParts : FlatHashMap String (RecordFile Bigram))
    (triParts : FlatHashMap String (RecordFile Trigram))
    (hbi : LeftByRun "_bi.bin" biParts) (htri : LeftByRun "_tri.bin" triParts) :
    ((bigramStat std dsave corpus biParts).map Prod.fst
          = (bigramStat std' dsave corpus ∅).map Prod.fst ∧
        (trigramStat std dsave bifiltered corpus triParts).map Prod.fst
          = (trigramStat std' dsave bifiltered corpus ∅).map Prod.fst)
      ↔ AddsNothing (staleBigrams dsave biParts corpus)
          (· ∈ (survivors (chunkKeys chunkFull pairs 1 [] corpus)).flatten) ∧
        AddsNothing (staleTrigrams dsave triParts corpus)
          (fun t => t ∈ (survivors (chunkKeys chunkFull triples 1 [] corpus)).flatten ∧
            (FilteredPair bifiltered (t.1, t.2.1) ∨ FilteredPair bifiltered (t.2.1, t.2.2))) := by
  obtain ⟨biwids, hload, hB⟩ := loadFilteredBigrams_spec bifiltered
  have hkeys : ∀ t, t ∈ (survivors (chunkKeys chunkFull
        (fun ids => (triples ids).filter (hit biwids)) 1 [] corpus)).flatten
      ↔ t ∈ (survivors (chunkKeys chunkFull triples 1 [] corpus)).flatten ∧
          (FilteredPair bifiltered (t.1, t.2.1) ∨ FilteredPair bifiltered (t.2.1, t.2.2)) := by
    intro t
    have hfilter := chunkKeys_filter chunkFull triples (hit biwids) corpus 1 []
    rw [List.filter_nil] at hfilter
    rw [hfilter, survivors_map, ← List.filter_flatten, List.mem_filter, hit, Bool.or_eq_true,
      hB, hB]
  refine and_congr ?_ ?_
  · exact gramStatBy_same_iff std std' chunkFull (dsave ++ "/bi_parts/") "_bi.bin" "bi.bin"
      (by decide)
      (fun m ids => bigramLoop_eq ids m) corpus hbi
  · have h := gramStatBy_same_iff std std' chunkFull (dsave ++ "/tri_parts/")
      "_tri.bin" "tri.bin" (by decide)
      (fun m ids => trigramLoop_eq biwids ids m) corpus htri
    simp only [hkeys] at h
    rw [trigramStat, trigramStat, trigramStatBy, trigramStatBy, hload]
    exact h

/-- The directory an earlier run over 40,001 documents with the phrase `1 2` leaves. -/
def usedBiParts : FlatHashMap String (RecordFile Bigram) :=
  ((∅ : FlatHashMap String (RecordFile Bigram)).insert (partName "_bi.bin" 1)
    { total := 1, msgs := [⟨(1, 2), 40000⟩] }).insert (partName "_bi.bin" 2)
    { total := 1, msgs := [⟨(1, 2), 1⟩] }

/-- A run over the phrase `1 2` leaves such a directory, with one part file of one pair. -/
theorem usedBiParts_leftByRun : LeftByRun "_bi.bin" usedBiParts := by
  intro e he
  have h := AList.mem_lookup_iff.mpr he
  unfold usedBiParts at h
  by_cases h2 : e.1 = partName "_bi.bin" 2
  · rw [h2, AList.lookup_insert] at h
    exact ⟨⟨2, h2⟩, Option.some.inj h ▸ List.pairwise_singleton _ _⟩
  · rw [AList.lookup_insert_ne h2] at h
    by_cases h1 : e.1 = partName "_bi.bin" 1
    · rw [h1, AList.lookup_insert] at h
      exact ⟨⟨1, h1⟩, Option.some.inj h ▸ List.pairwise_singleton _ _⟩
    · rw [AList.lookup_insert_ne h1, AList.lookup_empty] at h
      cases h

/-- The leftover pair is not one of the new corpus, so the run after it counts one too many. -/
theorem gramStats_rerun_used :
    ((bigramStat Stdlib.sorting "save" [[3, 4], []] usedBiParts).map Prod.fst
          = (bigramStat Stdlib.sorting "save" [[3, 4], []] ∅).map Prod.fst ∧
        (trigramStat Stdlib.sorting "save" onePair [[3, 4], []] ∅).map Prod.fst
          = (trigramStat Stdlib.sorting "save" onePair [[3, 4], []] ∅).map Prod.fst)
      ↔ AddsNothing (staleBigrams "save" usedBiParts [[3, 4], []])
          (· ∈ (survivors (chunkKeys chunkFull pairs 1 [] [[3, 4], []])).flatten) ∧
        AddsNothing (staleTrigrams "save" ∅ [[3, 4], []])
          (fun t => t ∈ (survivors (chunkKeys chunkFull triples 1 [] [[3, 4], []])).flatten ∧
            (FilteredPair onePair (t.1, t.2.1) ∨ FilteredPair onePair (t.2.1, t.2.2))) :=
  gramStats_rerun Stdlib.sorting Stdlib.sorting "save" [[3, 4], []] onePair usedBiParts ∅
    usedBiParts_leftByRun (fun _ he => absurd he List.not_mem_nil)

/-- One document with the phrase `3 4` makes one part file, so `2_bi.bin` of the earlier run
is merged into `bi.bin`. -/
theorem bigramStat_used_differs :
    LeftByRun "_bi.bin" usedBiParts ∧
      (bigramStat Stdlib.sorting "save" [[3, 4], []] usedBiParts).map Prod.fst
        ≠ (bigramStat Stdlib.sorting "save" [[3, 4], []] ∅).map Prod.fst := by
  refine ⟨usedBiParts_leftByRun, fun hsame => ?_⟩
  have hnothing := (gramStatBy_same_iff Stdlib.sorting Stdlib.sorting chunkFull
    ("save" ++ "/bi_parts/") "_bi.bin" "bi.bin" (by decide)
    (fun m ids => bigramLoop_eq ids m) [[3, 4], []] usedBiParts_leftByRun).mp hsame
  have hcount : partCount chunkFull [[3, 4], []] = 1 := by decide
  -- The second part file is found and not replaced.
  have hstale : (⟨(1, 2), 1⟩ : Bigram) ∈ staleGrams ("save" ++ "/bi_parts/") "_bi.bin" "bi.bin"
      usedBiParts (partCount chunkFull [[3, 4], []]) := by
    have hentry : (⟨partName "_bi.bin" 2, { total := 1, msgs := [⟨(1, 2), 1⟩] }⟩ :
        Sigma fun _ : String => RecordFile Bigram) ∈ usedBiParts.entries :=
      AList.mem_lookup_iff.mp (AList.lookup_insert _)
    rw [hcount]
    refine List.mem_flatMap.mpr ⟨_, List.mem_map_of_mem (List.mem_filter.mpr ⟨hentry, ?_⟩),
      List.mem_cons_self⟩
    rw [isListed_partName _ (by decide), Bool.true_and, decide_eq_true_eq, partNames,
      List.mem_map]
    rintro ⟨i, hi, hname⟩
    have h2 := partName_injective "_bi.bin" hname
    rw [Nat.lt_one_iff.mp (List.mem_range.mp hi)] at h2
    exact absurd h2 (by decide)
  -- Its pair would have to occur in this run.
  have hkey := (hnothing _ hstale).1
  rw [survivors_of_le (by rw [length_chunkKeys, hcount]; decide), chunkKeys_flatten] at hkey
  exact absurd hkey (by decide)

end Colloc.Proofs

import Colloc.Lib.Overlay
import Colloc.Proofs.Marginals
import Colloc.Proofs.Session

/-!
# `Colloc.Proofs.History`: what the part files count

A directory of part files is a list of chunks of keys, the chunk of the number `i + 1` at the place
`i` (`Parts`). A counting stage puts its own chunks in front of those that are further back, and
its file counts the whole list (`partsAfter_parts`, `gramStatBy_parts`).

A run ends in one of the stages or reaches the end. What its counting stages have read is its
`Counting`: there is none when the run ends before `bigram_stat`, and no `bifiltered.bin` when it
ends before `trigram_stat`. So after any history of runs, however they ended, `bi.bin` counts,
besides the pairs of its own corpus, those of the chunks with greater numbers, each of the last
run that had so many, and `tri.bin` does the same with the triples (`countings_exact`).
-/

set_option autoImplicit false

namespace Colloc.Proofs

open Colloc.Lib
open Colloc.Spec

/-! ### One stage -/

section Stage
variable {K : Type} [IdTuple K] [DecidableEq K] {suffix : String}
  {dout : FlatHashMap String (RecordFile (Gram K))} {cs : List (List K)}

/-- The part files count the chunks `cs`, each in the file of its number. -/
def Parts (suffix : String) (dout : FlatHashMap String (RecordFile (Gram K)))
    (cs : List (List K)) : Prop :=
  ∃ files, Stores (partName suffix) dout files ∧
    List.Forall₂ (fun ks f => GramTally (ks.map unitGram) f.msgs) cs files

/-- An empty directory counts nothing. -/
theorem parts_empty (suffix : String) :
    Parts suffix (∅ : FlatHashMap String (RecordFile (Gram K))) [] :=
  ⟨[], Stores.empty, List.Forall₂.nil⟩

omit [IdTuple K] [DecidableEq K] in
/-- Every file in the directory is a part file, so `glob` finds all of them. -/
theorem glob_parts (std : Stdlib) (path ending : String) (hsuffix : ending.toList <:+ suffix.toList)
    {files : List (RecordFile (Gram K))} (h : Stores (partName suffix) dout files) :
    ((glob path (dirEntries std dout) ending).map Prod.snd).Perm files := by
  refine (glob_perm std path ending dout).trans ?_
  have hlisted : dout.entries.filter (fun e => isListed (path ++ "/") ending e.1)
      = dout.entries := by
    refine List.filter_eq_self.mpr (fun e he => ?_)
    obtain ⟨i, -, hi⟩ := (mem_numberedKeys _).mp
      (List.mem_map_of_mem (h.entries.mem_iff.mp he))
    rw [hi]
    exact isListed_partName _ hsuffix _
  rw [hlisted]
  exact (h.entries.map _).trans (List.Perm.of_eq (numbered_map_snd _ 1 files))

/-- The merge of files that count chunks counts them all. Each file is sorted, and the order of
the files does not matter. -/
theorem mergeFiles_chunks (std : Stdlib) {files files' : List (RecordFile (Gram K))}
    (h : List.Forall₂ (fun ks f => GramTally (ks.map unitGram) f.msgs) cs files)
    (hperm : files'.Perm files) : ∃ out,
      mergeFiles std files' = .ok { total := 0, msgs := out } ∧ KeyTable cs.flatten out := by
  have hasc : ∀ f ∈ files, Ascending Gram.ids f.msgs :=
    ((List.forall₂_and_left files cs).mp
      (h.flip.imp (fun f ks htally => ⟨htally.ascending, htally⟩))).1
  obtain ⟨out, hmerge, htally⟩ := mergeFiles_spec std files'
    (fun f hf => sorted_of_ascending (hasc f (hperm.mem_iff.mp hf)))
  refine ⟨out, hmerge, ?_⟩
  have hparts : List.Forall₂ (GramTally (K := K)) (cs.map (fun ks => ks.map unitGram))
      (files.map (fun f => f.msgs)) := by
    rw [List.forall₂_map_left_iff, List.forall₂_map_right_iff]
    exact h
  have htally' : GramTally ((files.map (fun f => f.msgs)).flatten ++ []) out := by
    rw [List.append_nil]
    exact htally.perm (hperm.flatMap_right _)
  have hkeys := IsTally.flatten hparts htally'
  rw [List.append_nil, ← List.map_flatten] at hkeys
  exact GramTally.keyTable hkeys

section Chunks
variable (std : Stdlib) (full : UInt32 → Bool)
  {count : FlatHashMap K UInt32 → Phrase → FlatHashMap K UInt32} {keys : Phrase → List K}
  (hcount : ∀ m ids, count m ids = (keys ids).foldl countKey m) (corpus : List Phrase)
  (hfew : partCount full corpus ≤ 2 ^ 32)

include hcount hfew

/-- A stage writes its chunks over the ones that are there. Up to `2 ^ 32` chunks have different
names, so none of its own is lost. -/
theorem partsAfter_parts (h : Parts suffix dout cs) :
    Parts suffix (partsAfter std full suffix count corpus dout)
      (overlay (chunkKeys full keys 1 [] corpus) cs) := by
  obtain ⟨old, hstores, hold⟩ := h
  have hdir : partsAfter std full suffix count corpus dout = writeNumbered (partName suffix) dout 1
      ((chunkKeys full keys 1 [] corpus).map (chunkFile std)) :=
    gramPhrase_run std full suffix hcount corpus _ [] rfl
  have hlen : ((chunkKeys full keys 1 [] corpus).map (chunkFile std)).length ≤ 2 ^ 32 := by
    rw [List.length_map, length_chunkKeys]
    exact hfew
  have hnew := hstores.write (partName_injective suffix) hlen
  rw [← hdir] at hnew
  -- The files of the stage count its chunks, and those behind them the older ones.
  have htallies : List.Forall₂ (fun ks f => GramTally (ks.map unitGram) f.msgs)
      (chunkKeys full keys 1 [] corpus)
      ((chunkKeys full keys 1 [] corpus).map (chunkFile std)) := by
    rw [List.forall₂_map_right_iff, List.forall₂_same]
    exact fun ks _ => saveGrams_tally std ks
  exact ⟨_, hnew, forall₂_overlay htallies hold⟩

/-- Its file counts all the chunks that are then there. -/
theorem gramStatBy_parts (path ending : String) (hsuffix : ending.toList <:+ suffix.toList)
    (h : Parts suffix dout cs) :
    ∃ out dir, gramStatBy std full path suffix ending count corpus dout
        = .ok ({ total := 0, msgs := out }, dir) ∧
      KeyTable (overlay (chunkKeys full keys 1 [] corpus) cs).flatten out := by
  obtain ⟨files, hstores, hfiles⟩ := partsAfter_parts std full hcount corpus hfew h
  obtain ⟨out, hmerge, htable⟩ := mergeFiles_chunks std hfiles
    (glob_parts std path ending hsuffix hstores)
  refine ⟨out, partsAfter std full suffix count corpus dout, ?_, htable⟩
  unfold gramStatBy
  simp only [hmerge]

end Chunks

end Stage

/-! ### A run -/

/-- What the counting stages of a run have read: the corpus, and `bifiltered.bin` when the run has
come to `trigram_stat`. -/
structure Counting (R : Type) where
  corpus : List Phrase
  bifiltered : Option (RecordFile (Lem2Group R))

section Countings
variable {R : Type} [Double R]

/-- That of a run among part files. There is none when `lemmatize` has ended the run. -/
def counting (j : Job R) (dsave : String) (dirs : PartDirs) : Option (Counting R) :=
  match lemmatize j.std j.lib j.converted.uni with
  | .error _ => none
  | .ok lemmatized =>
      match extractBigramsIn j.std dsave j.th j.converted lemmatized dirs.biParts with
      | .error _ => some { corpus := j.converted.corpus, bifiltered := none }
      | .ok b => some { corpus := j.converted.corpus, bifiltered := some b.bifiltered }

/-- The counting stages read the corpus of their run. -/
theorem counting_corpus {j : Job R} {dsave : String} {dirs : PartDirs} {s : Counting R}
    (h : counting j dsave dirs = some s) : s.corpus = j.converted.corpus := by
  unfold counting at h
  split at h
  · cases h
  · split at h
    · cases h
      rfl
    · cases h
      rfl

/-- Those of runs one after the other, with the part files that are there before them. -/
def countings (dsave : String) : PartDirs → List (Job R) → List (Counting R)
  | _, [] => []
  | dirs, j :: history =>
      (counting j dsave dirs).toList ++ countings dsave (j.runIn dsave dirs).2 history

/-- The filtered triples in each part of a corpus. -/
def filteredChunks (bifiltered : RecordFile (Lem2Group R)) (corpus : List Phrase) :
    List (List Iddd) :=
  chunkKeys chunkFull (fun ids => filteredTriples bifiltered [ids]) 1 [] corpus

/-- The pairs in each part of the corpus. -/
def pairChunks (s : Counting R) : List (List Idd) := chunkKeys chunkFull pairs 1 [] s.corpus

/-- The filtered triples in each part, none without `trigram_stat`. -/
def tripleChunks (s : Counting R) : List (List Iddd) :=
  match s.bifiltered with
  | none => []
  | some bifiltered => filteredChunks bifiltered s.corpus

omit [Double R] in
/-- The triples that the loop counts are the filtered ones. -/
theorem filteredTriples_eq {bifiltered : RecordFile (Lem2Group R)} {biwids : FlatHashSet Idd}
    (h : ∀ p, biwids.contains p = true ↔ FilteredPair bifiltered p) :
    (fun ids => filteredTriples bifiltered [ids])
      = fun ids => (triples ids).filter (hit biwids) := by
  funext ids
  rw [filteredTriples, List.flatMap_singleton]
  refine List.filter_congr (fun t _ => ?_)
  rw [Bool.eq_iff_iff, decide_eq_true_iff, hit, Bool.or_eq_true, h, h]

variable (std : Stdlib) (corpus : List Phrase) (hfew : partCount chunkFull corpus ≤ 2 ^ 32)

include hfew

/-- `bi_parts` after `bigram_stat`. -/
theorem biPartsAfter_parts {biParts : FlatHashMap String (RecordFile Bigram)}
    {bi : List (List Idd)} (h : Parts "_bi.bin" biParts bi) :
    Parts "_bi.bin" (biPartsAfter std corpus biParts)
      (overlay (chunkKeys chunkFull pairs 1 [] corpus) bi) :=
  partsAfter_parts std chunkFull (fun m ids => bigramLoop_eq ids m) corpus hfew h

/-- `bi.bin` counts what is then in `bi_parts`. -/
theorem bigramStat_parts (dsave : String) {biParts : FlatHashMap String (RecordFile Bigram)}
    {bi : List (List Idd)} (h : Parts "_bi.bin" biParts bi) :
    ∃ bis dir, bigramStat std dsave corpus biParts = .ok ({ total := 0, msgs := bis }, dir) ∧
      KeyTable (overlay (chunkKeys chunkFull pairs 1 [] corpus) bi).flatten bis :=
  gramStatBy_parts std chunkFull (fun m ids => bigramLoop_eq ids m) corpus hfew
    (dsave ++ "/bi_parts/") "bi.bin" (by decide) h

/-- `tri_parts` after `trigram_stat`. -/
theorem triPartsAfter_parts (bifiltered : RecordFile (Lem2Group R))
    {triParts : FlatHashMap String (RecordFile Trigram)} {tri : List (List Iddd)}
    (h : Parts "_tri.bin" triParts tri) :
    Parts "_tri.bin" (triPartsAfter std bifiltered corpus triParts)
      (overlay (filteredChunks bifiltered corpus) tri) := by
  obtain ⟨biwids, hload, hB⟩ := loadFilteredBigrams_spec bifiltered
  unfold triPartsAfter filteredChunks
  rw [hload, filteredTriples_eq hB]
  exact partsAfter_parts std chunkFull (fun m ids => trigramLoop_eq biwids ids m) corpus hfew h

/-- `tri.bin` counts what is then in `tri_parts`. -/
theorem trigramStat_parts (dsave : String) (bifiltered : RecordFile (Lem2Group R))
    {triParts : FlatHashMap String (RecordFile Trigram)} {tri : List (List Iddd)}
    (h : Parts "_tri.bin" triParts tri) :
    ∃ tris dir, trigramStat std dsave bifiltered corpus triParts
        = .ok ({ total := 0, msgs := tris }, dir) ∧
      KeyTable (overlay (filteredChunks bifiltered corpus) tri).flatten tris := by
  obtain ⟨biwids, hload, hB⟩ := loadFilteredBigrams_spec bifiltered
  unfold trigramStat trigramStatBy filteredChunks
  rw [hload, filteredTriples_eq hB]
  exact gramStatBy_parts std chunkFull (fun m ids => trigramLoop_eq biwids ids m) corpus hfew
    (dsave ++ "/tri_parts/") "tri.bin" (by decide) h

end Countings

/-! ### Histories -/

section Histories
variable {R : Type} [Double R] (dsave : String) {dirs : PartDirs} {cs : List (Counting R)}

/-- The part files count the chunks of these countings, the last of them on top. -/
structure DirsCount (dirs : PartDirs) (cs : List (Counting R)) : Prop where
  bi : Parts "_bi.bin" dirs.biParts (overlays (cs.map pairChunks))
  tri : Parts "_tri.bin" dirs.triParts (overlays (cs.map tripleChunks))

omit [Double R] in
/-- Before the first run nothing is counted. -/
theorem DirsCount.empty : DirsCount PartDirs.empty ([] : List (Counting R)) :=
  ⟨parts_empty _, parts_empty _⟩

omit [Double R] in
/-- A run more writes its chunks on top. -/
theorem DirsCount.concat {s : Counting R}
    (hbi : Parts "_bi.bin" dirs.biParts (overlay (pairChunks s) (overlays (cs.map pairChunks))))
    (htri : Parts "_tri.bin" dirs.triParts
      (overlay (tripleChunks s) (overlays (cs.map tripleChunks)))) :
    DirsCount dirs (cs ++ [s]) := by
  constructor
  · rw [List.map_append, List.map_singleton, overlays_concat]
    exact hbi
  · rw [List.map_append, List.map_singleton, overlays_concat]
    exact htri

/-- One run: in whatever stage it ends, it leaves its chunks over those that were there. A run
that ends before a counting stage leaves that directory alone. -/
theorem runIn_count (j : Job R) (hfew : partCount chunkFull j.converted.corpus ≤ 2 ^ 32)
    (h : DirsCount dirs cs) :
    DirsCount (j.runIn dsave dirs).2 (cs ++ (counting j dsave dirs).toList) := by
  have hbi := biPartsAfter_parts j.std j.converted.corpus hfew h.bi
  unfold Job.runIn counting
  cases lemmatize j.std j.lib j.converted.uni with
  | error e =>
      rw [Option.toList_none, List.append_nil]
      exact h
  | ok lm =>
      dsimp only
      cases extractBigramsIn j.std dsave j.th j.converted lm dirs.biParts with
      | error e =>
          -- `trigram_stat` has not run, so the triples are as they were.
          exact DirsCount.concat hbi h.tri
      | ok b =>
          have htri := triPartsAfter_parts j.std j.converted.corpus hfew b.bifiltered h.tri
          dsimp only
          cases extractTrigramsIn j.std dsave j.th j.converted lm dirs.triParts b.bifiltered with
          | error e => exact DirsCount.concat hbi htri
          | ok t => exact DirsCount.concat hbi htri

/-- Runs one after the other. -/
theorem runs_count {history : List (Job R)}
    (hfew : ∀ j ∈ history, partCount chunkFull j.converted.corpus ≤ 2 ^ 32)
    (h : DirsCount dirs cs) :
    DirsCount (history.foldl (fun dirs j => (j.runIn dsave dirs).2) dirs)
      (cs ++ countings dsave dirs history) := by
  induction history generalizing dirs cs with
  | nil =>
      rw [countings, List.append_nil]
      exact h
  | cons j history ih =>
      rw [List.foldl_cons, countings, ← List.append_assoc]
      exact ih (fun j' hj' => hfew j' (List.mem_cons_of_mem j hj'))
        (runIn_count dsave j (hfew j List.mem_cons_self) h)

end Histories

/-- What a run counts after others in the same save directory, however they have ended: its own
chunks, and of the earlier ones those with greater numbers, each of the last run that had so many.
A run that comes to `bigram_stat` so makes `bi.bin`, and one that comes to `trigram_stat` so makes
`tri.bin`. -/
theorem countings_exact {R : Type} [Double R] (dsave : String) (history : List (Job R)) (j : Job R)
    (hfew : ∀ j' ∈ history ++ [j], partCount chunkFull j'.converted.corpus ≤ 2 ^ 32)
    (s : Counting R) (hs : counting j dsave (Job.dirsAfter dsave history) = some s) :
    (∃ bis dir, bigramStat j.std dsave s.corpus (Job.dirsAfter dsave history).biParts
        = .ok ({ total := 0, msgs := bis }, dir) ∧
      KeyTable (overlays
        ((countings dsave PartDirs.empty history ++ [s]).map pairChunks)).flatten bis) ∧
    ∀ bifiltered, s.bifiltered = some bifiltered → ∃ tris dir,
      trigramStat j.std dsave bifiltered s.corpus (Job.dirsAfter dsave history).triParts
        = .ok ({ total := 0, msgs := tris }, dir) ∧
      KeyTable (overlays
        ((countings dsave PartDirs.empty history ++ [s]).map tripleChunks)).flatten tris := by
  have hcount : DirsCount (Job.dirsAfter dsave history) (countings dsave PartDirs.empty history) :=
    runs_count dsave (fun j' hj' => hfew j' (List.mem_append_left [j] hj')) DirsCount.empty
  have hcorpus : s.corpus = j.converted.corpus := counting_corpus hs
  have hparts : partCount chunkFull s.corpus ≤ 2 ^ 32 := hcorpus ▸ hfew j (by simp)
  rw [List.map_append, List.map_singleton, overlays_concat, List.map_append, List.map_singleton,
    overlays_concat]
  refine ⟨bigramStat_parts j.std s.corpus hparts dsave hcount.bi, fun bifiltered hb => ?_⟩
  have hchunks : tripleChunks s = filteredChunks bifiltered s.corpus := by
    rw [tripleChunks, hb]
  rw [hchunks]
  exact trigramStat_parts j.std s.corpus hparts dsave bifiltered hcount.tri

/-- After a run over `aba` and `bb`, one over three other documents, which comes to both counting
stages. -/
theorem countings_exact_small :
    ∃ s bifiltered, counting threeJob "save" (Job.dirsAfter "save" [letterJob]) = some s ∧
      s.bifiltered = some bifiltered ∧
      (∃ bis dir, bigramStat Stdlib.sorting "save" s.corpus
          (Job.dirsAfter "save" [letterJob]).biParts = .ok ({ total := 0, msgs := bis }, dir) ∧
        KeyTable (overlays
          ((countings "save" PartDirs.empty [letterJob] ++ [s]).map pairChunks)).flatten bis) ∧
      ∃ tris dir, trigramStat Stdlib.sorting "save" bifiltered s.corpus
          (Job.dirsAfter "save" [letterJob]).triParts = .ok ({ total := 0, msgs := tris }, dir) ∧
        KeyTable (overlays
          ((countings "save" PartDirs.empty [letterJob] ++ [s]).map tripleChunks)).flatten
            tris := by
  have hcomes : ((counting threeJob "save" (Job.dirsAfter "save" [letterJob])).bind
      (fun s => s.bifiltered)).isSome = true := by decide +kernel
  obtain ⟨bifiltered, hb⟩ := Option.isSome_iff_exists.mp hcomes
  obtain ⟨s, hs, hsb⟩ := Option.bind_eq_some_iff.mp hb
  obtain ⟨hbi, htri⟩ := countings_exact "save" [letterJob] threeJob (fun j' hj' => by
    simp only [List.cons_append, List.nil_append, List.mem_cons, List.not_mem_nil, or_false] at hj'
    rcases hj' with rfl | rfl <;> decide) s hs
  exact ⟨s, bifiltered, hs, hsb, hbi, htri bifiltered hsb⟩

end Colloc.Proofs

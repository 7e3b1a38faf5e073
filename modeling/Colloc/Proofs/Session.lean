import Colloc.Lib.Overlay
import Colloc.Proofs.DocOrder
import Colloc.Proofs.GramCounts

/-!
# `Colloc.Proofs.Session`: runs one after the other in one save directory

The part files that earlier runs have left have numbers up to the greatest number of chunks that
one of them had (`LeftBelow`). A run with at least as many chunks replaces all of them, so it ends
as it does in a directory of its own (`extract_history`). The number of chunks grows with the
number of documents, so it is enough that no earlier run has had more documents. It does not
matter how the earlier runs ended.
-/

set_option autoImplicit false

namespace Colloc.Proofs

open Colloc.Lib
open Colloc.Spec

/-! ### One stage -/

section Stage
variable {K : Type} [IdTuple K] [DecidableEq K]

/-- Part files with the first `n` numbers. -/
def LeftBelow (suffix : String) (n : Nat) (dout : FlatHashMap String (RecordFile (Gram K))) :
    Prop :=
  ∀ e ∈ dout.entries, e.1 ∈ partNames suffix n ∧ Ascending Gram.ids e.2.msgs

omit [IdTuple K] [DecidableEq K] in
/-- The names that a stage with `n` parts uses, by number. The counter starts at one and is a
`u32`. -/
theorem mem_partNames {suffix name : String} {n : Nat} :
    name ∈ partNames suffix n ↔ ∃ i < n, name = partName suffix (1 + UInt32.ofNat i) := by
  simp [partNames, eq_comm]

variable {suffix : String} {n m : Nat} {dout : FlatHashMap String (RecordFile (Gram K))}

omit [DecidableEq K] in
/-- A run with more parts uses all names of one with fewer. -/
theorem LeftBelow.mono (h : LeftBelow suffix n dout) (hle : n ≤ m) : LeftBelow suffix m dout := by
  intro e he
  obtain ⟨hname, hasc⟩ := h e he
  obtain ⟨i, hi, heq⟩ := mem_partNames.mp hname
  exact ⟨mem_partNames.mpr ⟨i, by omega, heq⟩, hasc⟩

omit [DecidableEq K] in
/-- What is left below a number is left by a run in the sense of `gramStats_rerun`. -/
theorem LeftBelow.leftByRun (h : LeftBelow suffix n dout) : LeftByRun suffix dout := by
  intro e he
  obtain ⟨hname, hasc⟩ := h e he
  obtain ⟨i, -, heq⟩ := mem_partNames.mp hname
  exact ⟨⟨_, heq⟩, hasc⟩

omit [DecidableEq K] in
/-- An empty directory has nothing below any number. -/
theorem leftBelow_empty (suffix : String) (n : Nat) :
    LeftBelow suffix n (∅ : FlatHashMap String (RecordFile (Gram K))) :=
  fun _ he => absurd he List.not_mem_nil

variable (std : Stdlib) {count : FlatHashMap K UInt32 → Phrase → FlatHashMap K UInt32}
  {keys : Phrase → List K} (hcount : ∀ m ids, count m ids = (keys ids).foldl countKey m)
  (corpus : List Phrase)

include hcount

/-- A stage leaves the files of its chunks, and those with a greater number. The latter stood
there before, so they too are numbered below the bound. -/
theorem LeftBelow.partsAfter (h : LeftBelow suffix n dout) (hn : n ≤ m)
    (hm : partCount chunkFull corpus ≤ m) :
    LeftBelow suffix m (partsAfter std chunkFull suffix count corpus dout) := by
  have hdir : Spec.partsAfter std chunkFull suffix count corpus dout
      = writeNumbered (partName suffix) dout 1
          ((chunkKeys chunkFull keys 1 [] corpus).map (chunkFile std)) :=
    gramPhrase_run std chunkFull suffix hcount corpus _ [] rfl
  rw [hdir]
  intro e he
  rcases mem_writeNumbered he with he | ⟨hname, hfile⟩
  · exact h.mono hn e he
  · obtain ⟨i, hi, heq⟩ := (mem_numberedKeys _).mp hname
    rw [List.length_map, length_chunkKeys] at hi
    obtain ⟨ks, -, hks⟩ := List.mem_map.mp hfile
    exact ⟨mem_partNames.mpr ⟨i, by omega, heq⟩, hks ▸ saveGrams_ascending std _⟩

/-- A stage that replaces all part files gives the result of a fresh directory. No file of another
run is left for the merge. -/
theorem LeftBelow.gramStatBy_eq (h : LeftBelow suffix n dout)
    (hn : n ≤ partCount chunkFull corpus) {path ending : String}
    (hsuffix : ending.toList <:+ suffix.toList) :
    (gramStatBy std chunkFull path suffix ending count corpus dout).map Prod.fst
      = (gramStatBy std chunkFull path suffix ending count corpus ∅).map Prod.fst := by
  refine (gramStatBy_same_iff std std chunkFull path suffix ending hsuffix hcount corpus
    h.leftByRun).mpr (fun g hg => ?_)
  -- No file is left over.
  obtain ⟨f, hf, -⟩ := List.mem_flatMap.mp hg
  obtain ⟨e, he, -⟩ := List.mem_map.mp hf
  obtain ⟨hmem, hcond⟩ := List.mem_filter.mp he
  have hnot := of_decide_eq_true ((Bool.and_eq_true _ _).mp hcond).2
  exact absurd (h.mono hn e hmem).1 hnot

end Stage

/-- More documents make no fewer chunks. -/
theorem partCount_mono (full : UInt32 → Bool) {corpus corpus' : List Phrase}
    (h : corpus.count [] ≤ corpus'.count []) : partCount full corpus ≤ partCount full corpus' :=
  Nat.succ_le_succ (List.range_sublist.mpr h).countP_le

/-! ### A run -/

/-- Two results with the same first component: the same error, or two successes that share it. -/
theorem map_fst_cases {E A B C : Type} {x : Except E (A × B)} {y : Except E (A × C)}
    (h : x.map Prod.fst = y.map Prod.fst) :
    (∃ e, x = .error e ∧ y = .error e) ∨ ∃ a b c, x = .ok (a, b) ∧ y = .ok (a, c) := by
  rcases x with e | ⟨a, b⟩
  · rcases y with e' | ⟨a', c⟩
    · cases h
      exact Or.inl ⟨e, rfl, rfl⟩
    · cases h
  · rcases y with e' | ⟨a', c⟩
    · cases h
    · have ha : a = a' := Except.ok.inj h
      exact Or.inr ⟨a, b, c, rfl, by rw [ha]⟩

section Run
variable {R : Type} [Double R]

/-- Both directories have part files with the first `n` numbers. -/
structure DirsBelow (n : Nat) (dirs : PartDirs) : Prop where
  bi : LeftBelow "_bi.bin" n dirs.biParts
  tri : LeftBelow "_tri.bin" n dirs.triParts

/-- The first run finds both directories empty. -/
theorem DirsBelow.empty (n : Nat) : DirsBelow n PartDirs.empty :=
  ⟨leftBelow_empty _ _, leftBelow_empty _ _⟩

variable (std : Stdlib) (corpus : List Phrase) {n m : Nat}

/-- After a run the directory has the parts of the runs before and those of this one, all below
the larger of both numbers. -/
theorem biPartsAfter_below {biParts : FlatHashMap String (RecordFile Bigram)}
    (h : LeftBelow "_bi.bin" n biParts) (hn : n ≤ m) (hm : partCount chunkFull corpus ≤ m) :
    LeftBelow "_bi.bin" m (biPartsAfter std corpus biParts) :=
  h.partsAfter std (fun m ids => bigramLoop_eq ids m) corpus hn hm

/-- The same for the directory of the triples, whatever set of pairs the run was given. -/
theorem triPartsAfter_below (bifiltered : RecordFile (Lem2Group R))
    {triParts : FlatHashMap String (RecordFile Trigram)} (h : LeftBelow "_tri.bin" n triParts)
    (hn : n ≤ m) (hm : partCount chunkFull corpus ≤ m) :
    LeftBelow "_tri.bin" m (triPartsAfter std bifiltered corpus triParts) := by
  obtain ⟨biwids, hload, -⟩ := loadFilteredBigrams_spec bifiltered
  unfold triPartsAfter
  rw [hload]
  exact h.partsAfter std (fun m ids => trigramLoop_eq biwids ids m) corpus hn hm

variable (dsave : String)

/-- A run that writes at least as many parts as are left writes over all of them, and so counts as
in an empty directory. -/
theorem bigramStat_below {biParts : FlatHashMap String (RecordFile Bigram)}
    (h : LeftBelow "_bi.bin" n biParts) (hn : n ≤ partCount chunkFull corpus) :
    (bigramStat std dsave corpus biParts).map Prod.fst
      = (bigramStat std dsave corpus ∅).map Prod.fst :=
  h.gramStatBy_eq std (fun m ids => bigramLoop_eq ids m) corpus hn (by decide)

/-- The same for the triples. -/
theorem trigramStat_below (bifiltered : RecordFile (Lem2Group R))
    {triParts : FlatHashMap String (RecordFile Trigram)} (h : LeftBelow "_tri.bin" n triParts)
    (hn : n ≤ partCount chunkFull corpus) :
    (trigramStat std dsave bifiltered corpus triParts).map Prod.fst
      = (trigramStat std dsave bifiltered corpus ∅).map Prod.fst := by
  obtain ⟨biwids, hload, -⟩ := loadFilteredBigrams_spec bifiltered
  unfold trigramStat trigramStatBy
  rw [hload]
  exact h.gramStatBy_eq std (fun m ids => trigramLoop_eq biwids ids m) corpus hn (by decide)

variable (th : Thresholds R) (c : Converted) (lm : Lemmatized)

/-- The stages behind `bigram_stat` read its file only. -/
theorem extractBigramsIn_congr {biParts biParts' : FlatHashMap String (RecordFile Bigram)}
    (h : (bigramStat std dsave c.corpus biParts).map Prod.fst
      = (bigramStat std dsave c.corpus biParts').map Prod.fst) :
    extractBigramsIn std dsave th c lm biParts = extractBigramsIn std dsave th c lm biParts' := by
  unfold extractBigramsIn
  rcases map_fst_cases h with ⟨e, hx, hy⟩ | ⟨bi, dir, dir', hx, hy⟩
  · rw [hx, hy]
  · rewrite [hx, hy]
    rfl

/-- And those behind `trigram_stat`. They read `tri.bin`, not the part files. -/
theorem extractTrigramsIn_congr {bifiltered : RecordFile (Lem2Group R)}
    {triParts triParts' : FlatHashMap String (RecordFile Trigram)}
    (h : (trigramStat std dsave bifiltered c.corpus triParts).map Prod.fst
      = (trigramStat std dsave bifiltered c.corpus triParts').map Prod.fst) :
    extractTrigramsIn std dsave th c lm triParts bifiltered
      = extractTrigramsIn std dsave th c lm triParts' bifiltered := by
  unfold extractTrigramsIn
  rcases map_fst_cases h with ⟨e, hx, hy⟩ | ⟨tri, dir, dir', hx, hy⟩
  · rw [hx, hy]
  · rewrite [hx, hy]
    rfl

end Run

section Jobs
variable {R : Type} [Double R] (j : Job R) (dsave : String) {n m : Nat} {dirs : PartDirs}

/-- However a run ends, it leaves the part files of its chunks. A run that ends early leaves those
of the stages that it came to. -/
theorem runIn_below (h : DirsBelow n dirs) (hn : n ≤ m)
    (hm : partCount chunkFull j.converted.corpus ≤ m) : DirsBelow m (j.runIn dsave dirs).2 := by
  have hbi := biPartsAfter_below j.std j.converted.corpus h.bi hn hm
  have htri := h.tri.mono hn
  unfold Job.runIn
  cases lemmatize j.std j.lib j.converted.uni with
  | error e => exact ⟨h.bi.mono hn, htri⟩
  | ok lm =>
      dsimp only
      cases extractBigramsIn j.std dsave j.th j.converted lm dirs.biParts with
      | error e => exact ⟨hbi, htri⟩
      | ok b =>
          have htri' := triPartsAfter_below j.std j.converted.corpus b.bifiltered h.tri hn hm
          dsimp only
          cases extractTrigramsIn j.std dsave j.th j.converted lm dirs.triParts b.bifiltered with
          | error e => exact ⟨hbi, htri'⟩
          | ok t => exact ⟨hbi, htri'⟩

/-- So do runs one after the other. -/
theorem dirsAfter_below {history : List (Job R)}
    (h : ∀ j ∈ history, partCount chunkFull j.converted.corpus ≤ m) :
    DirsBelow m (Job.dirsAfter dsave history) := by
  induction history using List.reverseRecOn with
  | nil => exact DirsBelow.empty m
  | append_singleton history j ih =>
      unfold Job.dirsAfter
      rw [List.foldl_append, List.foldl_cons, List.foldl_nil]
      exact runIn_below j dsave (ih (fun j' hj' => h j' (by simp [hj']))) le_rfl (h j (by simp))

/-- How a run ends depends on the part files through `bi.bin` and `tri.bin` only. No other stage
reads them. -/
theorem runIn_congr {dirs' : PartDirs}
    (hbi : (bigramStat j.std dsave j.converted.corpus dirs.biParts).map Prod.fst
      = (bigramStat j.std dsave j.converted.corpus dirs'.biParts).map Prod.fst)
    (htri : ∀ bifiltered : RecordFile (Lem2Group R),
      (trigramStat j.std dsave bifiltered j.converted.corpus dirs.triParts).map Prod.fst
        = (trigramStat j.std dsave bifiltered j.converted.corpus dirs'.triParts).map Prod.fst) :
    (j.runIn dsave dirs).1 = (j.runIn dsave dirs').1 := by
  unfold Job.runIn
  cases lemmatize j.std j.lib j.converted.uni with
  | error e => rfl
  | ok lm =>
      dsimp only
      rw [extractBigramsIn_congr j.std dsave j.th j.converted lm hbi]
      cases extractBigramsIn j.std dsave j.th j.converted lm dirs'.biParts with
      | error e => rfl
      | ok b =>
          dsimp only
          rw [extractTrigramsIn_congr j.std dsave j.th j.converted lm (htri b.bifiltered)]
          cases extractTrigramsIn j.std dsave j.th j.converted lm dirs'.triParts b.bifiltered with
          | error e => rfl
          | ok t => rfl

/-- A run that replaces all part files ends as it does in a directory of its own. -/
theorem runIn_eq_extract (h : DirsBelow n dirs)
    (hn : n ≤ partCount chunkFull j.converted.corpus) :
    (j.runIn dsave dirs).1 = extract j.std j.lib j.dcorpus dsave j.tree j.th :=
  runIn_congr j dsave (bigramStat_below j.std j.converted.corpus dsave h.bi hn)
    (fun bifiltered => trigramStat_below j.std j.converted.corpus dsave bifiltered h.tri hn)

/-- The documents that `convert` writes for a run. -/
def documents : Nat := j.converted.corpus.count []

end Jobs

/-- A run over the documents `aba` and `bb`. -/
def letterJob : Job ℚ :=
  { std := Stdlib.sorting
    lib := byteLib
    dcorpus := "corpus/"
    tree := letterTree
    th := ⟨0, 0, 0, 0, 0, 0⟩ }

/-- A run over three other documents. -/
def threeJob : Job ℚ := { letterJob with tree := [.reg "c.zip" [[98, 97], [98, 98], [97]]] }

end Colloc.Proofs

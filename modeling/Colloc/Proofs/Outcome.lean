import Colloc.Proofs.Published

/-!
# `Colloc.Proofs.Outcome`: how the program ends

A library that lemmatizes each word by itself makes no stage before `to_zmap` fail, unless a word
has no lemma: then `lems.bin` is too short, and the index of the last words is out of range.

`to_zmap` throws for an entry with an empty text, first for the pairs and then for the triples.
So the program has three failures, and `extract_outcome` says on which texts it ends in which.
-/

set_option autoImplicit false

namespace Colloc.Proofs

open Colloc.Lib
open Colloc.Spec

/-- The result is an exception when a pair is wrong, another one when a triple is, and else a
success. -/
structure EndsBy {A : Type} (wrongPair wrongTriple : Prop) (result : Except Error A) : Prop where
  pair : wrongPair → result = .error (.runtime "bi: wrong data values")
  triple : ¬ wrongPair → wrongTriple → result = .error (.runtime "tri: wrong data values")
  ok : ¬ wrongPair → ¬ wrongTriple → ∃ a, result = .ok a

/-! ### The end of `to_zmap` -/

section Zmap
variable {R : Type} {files : ZmapInput R}

/-- The test of `to_zmap` for wrong values: an empty lemma, an empty word or a count of zero. -/
theorem wrongValues_iff {lems words : List Bytes} {dc : UInt32} :
    wrongValues lems words dc = true ↔ [] ∈ lems ∨ [] ∈ words ∨ dc = 0 := by
  unfold wrongValues
  simp [or_assoc]

/-- The entry is not left out, and one of its values is wrong. -/
def IsWrong {K : Type} [IdTuple K] (files : ZmapInput R) (skip : List Bytes → Bool)
    (el : K × UInt32 × K) : Prop :=
  skip (wordTexts files.uni el.2.2) = false ∧
    wrongValues (lemmaTexts files.lemid el.1) (wordTexts files.uni el.2.2) el.2.1 = true

/-- The loop body for the pairs throws for a wrong entry, and for nothing else. A pair with a
short word is skipped before the check. -/
theorem zmapBigram_error {lib : Baalbek} {texts : Texts} {bifreqs : FlatHashMap Idd (UInt32 × Idd)}
    (hfinds : Finds files files.bifiltered texts bifreqs) {el : Idd × UInt32 × Idd}
    (hel : bifreqs.lookup el.1 = some el.2) (stat : FlatHashMap Bytes ZVal) :
    (IsWrong files (hasShort lib) el →
      zmapBigram lib texts stat el = .error (.runtime "bi: wrong data values")) ∧
    (¬ IsWrong files (hasShort lib) el → ∃ stat', zmapBigram lib texts stat el = .ok stat') := by
  obtain ⟨-, hlems, hwords⟩ := hfinds el.1 el.2 hel
  have heq := zmapBigram_eq lib stat hlems hwords
  rw [show zmapBigram lib texts stat el = _ from heq]
  unfold IsWrong
  cases hskip : hasShort lib (wordTexts files.uni el.2.2) with
  | true => simp
  | false =>
      cases hwrong : wrongValues (lemmaTexts files.lemid el.1) (wordTexts files.uni el.2.2)
          el.2.1 with
      | true => simp
      | false => simp

/-- The loop body of the triples throws exactly on a wrong triple, whatever is in the map. No
triple is skipped. -/
theorem zmapTrigram_error {texts : Texts} {trifreqs : FlatHashMap Iddd (UInt32 × Iddd)}
    (hfinds : Finds files files.trifiltered texts trifreqs) {el : Iddd × UInt32 × Iddd}
    (hel : trifreqs.lookup el.1 = some el.2) (stat : FlatHashMap Bytes ZVal) :
    (IsWrong files (fun _ => false) el →
      zmapTrigram texts stat el = .error (.runtime "tri: wrong data values")) ∧
    (¬ IsWrong files (fun _ => false) el →
      ∃ stat', zmapTrigram texts stat el = .ok stat') := by
  obtain ⟨-, hlems, hwords⟩ := hfinds el.1 el.2 hel
  have heq := zmapTrigram_eq stat hlems hwords
  rw [show zmapTrigram texts stat el = _ from heq]
  unfold IsWrong
  cases hwrong : wrongValues (lemmaTexts files.lemid el.1) (wordTexts files.uni el.2.2)
      el.2.1 with
  | true => simp
  | false => simp

variable [Double R]

/-- Groups with cases and frequencies are loaded: no iterator of the loops is at its end when it
is read. -/
theorem zmapLoad_ok
    (hbi : ∀ lg ∈ files.bifiltered.msgs, lg.cases ≠ [] ∧
      lg.lids ∈ files.bifreq.msgs.map Gram.ids)
    (htri : ∀ lg ∈ files.trifiltered.msgs, lg.cases ≠ [] ∧
      lg.lids ∈ files.trifreq.msgs.map Gram.ids) :
    ∃ load, zmapLoad files = .ok load := by
  obtain ⟨bicnt, hbicnt, hbikeys, -⟩ := loadFreqs_spec files.bifreq
  obtain ⟨tricnt, htricnt, htrikeys, -⟩ := loadFreqs_spec files.trifreq
  obtain ⟨bi, hbirun⟩ := zmapGroups_ok
    (fun lg hlg => ⟨(hbi lg hlg).1, (hbikeys lg.lids).mpr (hbi lg hlg).2⟩)
    { uni := ∅, unilem := ∅ }
  obtain ⟨tri, htrirun⟩ := zmapGroups_ok
    (fun lg hlg => ⟨(htri lg hlg).1, (htrikeys lg.lids).mpr (htri lg hlg).2⟩) bi.1
  rw [zmapLoad_eq hbicnt htricnt, hbirun]
  simp only [Except.bind, htrirun]
  exact ⟨_, rfl⟩

/-- What a load that succeeds leaves to the loops. The first wrong pair ends the run, and when
there is none the first wrong triple. -/
theorem toZmap_ends (std : Stdlib) (lib : Baalbek) (version : String)
    {load : Texts × FlatHashMap Idd (UInt32 × Idd) × FlatHashMap Iddd (UInt32 × Iddd)}
    (hload : zmapLoad files = .ok load) :
    EndsBy (∃ el ∈ load.2.1.iter std, IsWrong files (hasShort lib) el)
      (∃ el ∈ load.2.2.iter std, IsWrong files (fun _ => false) el)
      (toZmap std lib files version) := by
  obtain ⟨texts, bifreqs, trifreqs⟩ := load
  obtain ⟨hbifinds, htrifinds⟩ := zmapLoad_finds hload
  have hbi : ∀ el ∈ bifreqs.iter std, ∀ stat,
      (IsWrong files (hasShort lib) el →
        zmapBigram lib texts stat el = .error (.runtime "bi: wrong data values")) ∧
      (¬ IsWrong files (hasShort lib) el → ∃ s, zmapBigram lib texts stat el = .ok s) :=
    fun el hel stat =>
      zmapBigram_error hbifinds ((FlatHashMap.mem_iter std bifreqs el.1 el.2).mp hel) stat
  have htri : ∀ el ∈ trifreqs.iter std, ∀ stat,
      (IsWrong files (fun _ => false) el →
        zmapTrigram texts stat el = .error (.runtime "tri: wrong data values")) ∧
      (¬ IsWrong files (fun _ => false) el → ∃ s, zmapTrigram texts stat el = .ok s) :=
    fun el hel stat =>
      zmapTrigram_error htrifinds ((FlatHashMap.mem_iter std trifreqs el.1 el.2).mp hel) stat
  have hbiloop : ¬ (∃ el ∈ bifreqs.iter std, IsWrong files (hasShort lib) el) → ∀ stat,
      ∃ s, (bifreqs.iter std).foldlM (zmapBigram lib texts) stat = .ok s := by
    intro hpairs stat
    obtain ⟨s, hrun, -⟩ := foldlM_ok (P := fun _ => True) (s := stat) (fun el hel stat _ => by
      obtain ⟨s, hs⟩ := (hbi el hel stat).2 (fun hwrong => hpairs ⟨el, hel, hwrong⟩)
      exact ⟨s, hs, trivial⟩) trivial
    exact ⟨s, hrun⟩
  unfold toZmap
  simp only [hload, readApply_pure]
  refine ⟨fun hwrong => ?_, fun hpairs hwrong => ?_, fun hpairs htriples => ?_⟩
  · rw [foldlM_error (fun el hel h stat => (hbi el hel stat).1 h)
      (fun el hel h stat => (hbi el hel stat).2 h) hwrong]
  · obtain ⟨s, hs⟩ := hbiloop hpairs (files.lemfreq.msgs.foldl zmapLemma ∅)
    simp only [hs]
    rw [foldlM_error (fun el hel h stat => (htri el hel stat).1 h)
      (fun el hel h stat => (htri el hel stat).2 h) hwrong]
  · obtain ⟨s, hs⟩ := hbiloop hpairs (files.lemfreq.msgs.foldl zmapLemma ∅)
    obtain ⟨s', hs', -⟩ := foldlM_ok (P := fun _ => True) (s := s) (fun el hel stat _ => by
      obtain ⟨s', hs'⟩ := (htri el hel stat).2 (fun hwrong => htriples ⟨el, hel, hwrong⟩)
      exact ⟨s', hs', trivial⟩) trivial
    simp only [hs, hs']
    exact ⟨_, rfl⟩

end Zmap

/-! ### Entries in strings -/

/-- A collocation that is not left out has an empty lemma or an empty word. -/
def WrongEntry (t : Corpus Bytes Bytes) (sel : Set (List Bytes)) (b : Bounds) (n : Nat)
    (text : List Bytes → List Bytes) (skip : List Bytes → Bool) : Prop :=
  ∃ ls, ls.length = n ∧ t.Stable sel b ls ∧ skip (text ls) = false ∧ ([] ∈ ls ∨ [] ∈ text ls)

/-- A published pair is wrong. -/
def WrongPair (lib : Baalbek) (th : Thresholds ℚ) (t : Corpus Bytes Bytes)
    (bitext : List Bytes → List Bytes) : Prop :=
  WrongEntry t Set.univ (bounds2 th) 2 bitext (hasShort lib)

/-- A triple is wrong. -/
def WrongTriple (th : Thresholds ℚ) (t : Corpus Bytes Bytes)
    (tritext : List Bytes → List Bytes) : Prop :=
  WrongEntry t (tripleWindows th t) (bounds3 th) 3 tritext (fun _ => false)

/-- A tuple with wrong values is in the files exactly when the text has a collocation with an
empty lemma or word: the counts are never zero. -/
theorem EntriesOf.wrong_iff {K : Type} [IdTuple K] [DecidableEq K] {t : Corpus Bytes Bytes}
    {sel : Set (List Bytes)} {b : Bounds} {n : Nat} {text : List Bytes → List Bytes}
    {files : ZmapInput ℚ} {freqs : FlatHashMap K (UInt32 × K)}
    (h : EntriesOf t sel b n text files freqs) (std : Stdlib) (skip : List Bytes → Bool) :
    (∃ el ∈ freqs.iter std, IsWrong files skip el) ↔ WrongEntry t sel b n text skip := by
  unfold IsWrong
  simp only [wrongValues_iff]
  constructor
  · rintro ⟨⟨k, e⟩, hmem, hskip, hwrong⟩
    obtain ⟨ls, hreads⟩ := h.entry k e ((FlatHashMap.mem_iter std freqs k e).mp hmem)
    rw [hreads.words] at hskip hwrong
    rw [hreads.lemmas, ← or_assoc] at hwrong
    -- A collocation is in more documents than its bound.
    have hdc : (k, e).2.1 ≠ 0 := by
      intro hzero
      have hdocs := hreads.docs
      rw [hzero] at hdocs
      have hbound := hreads.stable.docs
      rw [← hdocs] at hbound
      exact absurd hbound (Nat.not_lt_zero _)
    exact ⟨ls, hreads.length, hreads.stable, hskip, hwrong.resolve_right hdc⟩
  · rintro ⟨ls, hlen, hstable, hskip, hwrong⟩
    obtain ⟨el, hel, hreads⟩ := h.listed ls hlen hstable
    refine ⟨el, (FlatHashMap.mem_iter std freqs _ _).mpr hel, ?_⟩
    rw [hreads.words, hreads.lemmas, ← or_assoc]
    exact ⟨hskip, Or.inl hwrong⟩

/-! ### The end of the program -/

section Program
variable {lib : Baalbek} {image : Bytes → List Bytes} {docs : List Bytes} {std : Stdlib}
  {c : Converted} {lm : Lemmer}

/-- A word without lemmas makes the saved table shorter than the list of words, as `save` leaves
out its row. -/
theorem length_table_lt (std : Stdlib)
    (himaged : Imaged image c.uni.msgs.length c.uni.msgs lm) {m : Unigram}
    (hm : m ∈ c.uni.msgs) (hnil : image m.str = []) :
    (tableOf (lm.save std).lems).length < c.uni.msgs.length := by
  have hentry := himaged.entry m hm
  rw [hnil] at hentry
  rw [tableOf_save, ← himaged.length]
  refine lt_of_le_of_ne (List.length_filter_le _ _) (fun heq => ?_)
  have hall := List.length_filter_eq_length_iff.mp heq [] (List.mem_of_getElem? hentry)
  exact absurd hall (by decide)

/-- A table that is too short does not have the last word. The loop comes to it, and `vector::at`
throws. -/
theorem buildLemWeights_outOfRange {R : Type} [Double R] {uni : RecordFile Unigram}
    (huni : DenseIds uni) {lems : List (List UInt32)} (hlen : lems.length < uni.msgs.length) :
    buildLemWeights (R := R) uni lems = .error .outOfRange := by
  obtain ⟨m, hm, hidx⟩ := huni.exists_index hlen
  have hshort : ∃ m ∈ uni.msgs, ¬ (m.id - 1).toNat < lems.length := ⟨m, hm, by omega⟩
  rw [buildLemWeights, readApply_eq]
  refine foldlM_error (fun m _ hbad lidW => ?_) (fun m _ hgood lidW => ?_) hshort _
  · unfold lemWeightsWord lemsAt
    rw [List.getElem?_eq_none (by omega)]
  · exact ⟨_, lemWeightsWord_eq ((covered_word_iff lems m.id).mpr (not_not.mp hgood)) lidW⟩

/-- The stages end at `build_lem_weights` when a word has no lemma: the table then has fewer rows
than there are words, and the last word is looked up behind its end. -/
theorem extractBigrams_outOfRange {R : Type} [Double R] (std : Stdlib) (dsave : String)
    (th : Thresholds R)
    (huni : DenseIds c.uni) (himaged : Imaged image c.uni.msgs.length c.uni.msgs lm)
    (hnil : ∃ m ∈ c.uni.msgs, image m.str = []) :
    extractBigrams std dsave th c (lm.save std) = .error .outOfRange := by
  obtain ⟨m, hm, hnil⟩ := hnil
  obtain ⟨bi, dir, hbi, -⟩ := bigramStat_table std dsave c.corpus
  have hweights := buildLemWeights_outOfRange (R := R) huni
    (length_table_lt std himaged hm hnil)
  have hgroup : ∀ bi, groupLem2 std (lm.save std).lems c.uni bi th.lem2
      = .error .outOfRange := by
    intro bi
    unfold groupLem2 groupLem
    simp only [loadLems_eq, hweights]
  unfold extractBigrams extractBigramsIn PartDirs.empty
  simp only [hbi, hgroup]

/-- How `to_zmap` ends on the files of a run. The entries of its loops are those of the
collocations, so they are wrong when the collocations are. -/
theorem TextFiles.zmap_ends (h : TextFiles lib image docs std c lm) {dsave : String}
    {th : Thresholds ℚ} (r : Run ℚ std dsave th c (lm.save std))
    (hbi : HasFreqs pairs (tableOf (lm.save std).lems) (corpusOf (framedOf lib docs))
      r.bifiltered r.bifreq)
    (htri : HasFreqs triples (tableOf (lm.save std).lems) (corpusOf (framedOf lib docs))
      r.trifiltered r.trifreq) :
    ∃ bitext tritext : List Bytes → List Bytes,
      PhraseTexts th (textCorpus lib image docs) bitext tritext ∧
      EndsBy (WrongPair lib th (textCorpus lib image docs) bitext)
        (WrongTriple th (textCorpus lib image docs) tritext)
        (toZmap std lib (TextFiles.zmapInput r) "v1.10") := by
  have hcomputes := h.computes r
  obtain ⟨records2, hrecords2, hgroups2⟩ := hcomputes.pairs
  obtain ⟨records3, hrecords3, hgroups3⟩ := hcomputes.triples
  obtain ⟨⟨texts, bifreqs, trifreqs⟩, hload⟩ : ∃ load, zmapLoad (TextFiles.zmapInput r)
      = .ok load :=
    zmapLoad_ok (fun lg hlg => ⟨(hbi.fromCorpus lg hlg).cases_ne, hbi.listed lg hlg⟩)
      (fun lg hlg => ⟨(htri.fromCorpus lg hlg).cases_ne, htri.listed lg hlg⟩)
  have hloaded := zmapLoad_loaded hload
  obtain ⟨bitext, hbientries⟩ := h.exists_entriesOf hrecords2 hgroups2 hloaded.bi
    hcomputes.extended2.docFreq (TextFiles.zmapInput r) rfl rfl
  obtain ⟨tritext, htrientries⟩ := h.exists_entriesOf hrecords3 hgroups3 hloaded.tri
    hcomputes.extended3.docFreq (TextFiles.zmapInput r) rfl rfl
  have hends := toZmap_ends std lib "v1.10" hload
  rw [hbientries.wrong_iff, htrientries.wrong_iff] at hends
  exact ⟨bitext, tritext, ⟨hbientries.isText, htrientries.isText⟩, hends⟩

end Program

/-- The letter `b` has no lemma. -/
def silentImage (word : Bytes) : List Bytes := if word = [98] then [] else [word]

/-- The library of the letters, with these lemmas. -/
def silentLib : Baalbek :=
  { byteLib with makeDocumentImage := (spacedLib silentImage).makeDocumentImage }

end Colloc.Proofs

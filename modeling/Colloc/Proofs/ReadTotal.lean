import Colloc.Proofs.Gramcat

/-!
# `Colloc.Proofs.ReadTotal`: what the headers of a run say

A header is written before the messages, so a stage that finds its messages one by one leaves the
total `0`: the merge of the part files, the groups and the filters. Of the other files `read_total`
prints the number of messages, which for the words and the lemmas is their number in the text
(`readTotal_tells`).
-/

set_option autoImplicit false

namespace Colloc.Proofs

open Colloc.Lib
open Colloc.Spec

/-! ### The totals of the stages -/

section Stages
variable {std : Stdlib}

/-- The merge writes its messages one by one, to a file that was opened without a number. So the
header of `bi.bin` and `tri.bin` says zero. -/
theorem gramStatBy_header {K : Type} [IdTuple K] [DecidableEq K] {full : UInt32 → Bool}
    {path suffix ending : String} {count : FlatHashMap K UInt32 → Phrase → FlatHashMap K UInt32}
    {corpus : List Phrase} {dout : FlatHashMap String (RecordFile (Gram K))}
    {file : RecordFile (Gram K)}
    (h : (gramStatBy std full path suffix ending count corpus dout).map Prod.fst = .ok file) :
    file.total = 0 := by
  unfold gramStatBy mergeFiles at h
  simp only at h
  split at h
  · cases h
  · rename_i merged hmerged
    split at hmerged
    · cases hmerged
    · cases hmerged
      cases h
      rfl

variable {R : Type} [Double R]

/-- `trigram_stat` merges its parts into `tri.bin` in the same way, and no total is set. -/
theorem trigramStat_header {dsave : String} {bifiltered : RecordFile (Lem2Group R)}
    {corpus : List Phrase} {triParts : FlatHashMap String (RecordFile Trigram)}
    {tri : RecordFile Trigram}
    (h : (trigramStat std dsave bifiltered corpus triParts).map Prod.fst = .ok tri) :
    tri.total = 0 := by
  unfold trigramStat trigramStatBy at h
  cases hload : loadFilteredBigrams bifiltered with
  | error e =>
      rw [hload] at h
      cases h
  | ok biwids =>
      rw [hload] at h
      exact gramStatBy_header h

/-- `group_lem` writes one group after the other, behind a header without a total. -/
theorem groupLem_header {K : Type} [LemTuple K] [DecidableEq K]
    {score : FlatHashMap UInt32 R → R → R → K → Except Error R} {lems : RecordFile PhraseMsg}
    {uni : RecordFile Unigram} {grams : RecordFile (Gram K)} {threshold : R}
    {extended : RecordFile (LemGroup K R)}
    (h : groupLem std score lems uni grams threshold = .ok extended) : extended.total = 0 := by
  unfold groupLem at h
  split at h
  · cases h
  · split at h
    · cases h
    · split at h
      · cases h
      · cases h
        rfl

/-- So do the filters, which write one group after the other. -/
theorem filterBilems_header {bifreq : RecordFile Bigram} {extended2 : RecordFile (Lem2Group R)}
    {th1 : UInt32} {th2 : R} {bifiltered : RecordFile (Lem2Group R)}
    (h : filterBilems std bifreq extended2 th1 th2 = .ok bifiltered) : bifiltered.total = 0 := by
  unfold filterBilems at h
  split at h
  · cases h
  · split at h
    · cases h
    · split at h
      · cases h
      · cases h
        rfl

/-- A sorted map knows its number of entries. -/
theorem saveGrams_header {K : Type} [IdTuple K] (m : FlatHashMap K UInt32) :
    (saveGrams std m).total = (saveGrams std m).msgs.length := by
  unfold saveGrams
  rw [List.length_map]

/-- The frequency stage counts what it writes: `bifreq.bin` has the number of its pairs, and
`lemfreq.bin` takes the total of `lemid.bin` over. -/
theorem bifreqStat_header {lems : RecordFile PhraseMsg} {lemid : RecordFile LemId}
    {extended2 : RecordFile (Lem2Group R)} {corpus : List Phrase} {bifreq : RecordFile Bigram}
    {lemfreq : RecordFile LemFreq}
    (h : bifreqStat std lems lemid extended2 corpus = .ok (bifreq, lemfreq)) :
    bifreq.total = bifreq.msgs.length ∧ lemfreq.total = lemid.total := by
  unfold bifreqStat at h
  split at h
  · cases h
  · split at h
    · cases h
    · rename_i file hmerge
      cases h
      refine ⟨saveGrams_header _, ?_⟩
      unfold mergeUnifreq at hmerge
      split at hmerge
      · cases hmerge
      · rename_i hsize
        split at hmerge
        · cases hmerge
        · cases hmerge
          exact not_not.mp hsize

/-- `trifreq.bin` is written from the table that was counted, with its size in the header. -/
theorem trifreqStat_header {lems : RecordFile PhraseMsg} {extended3 : RecordFile (Lem3Group R)}
    {corpus : List Phrase} {trifreq : RecordFile Trigram}
    (h : trifreqStat std lems extended3 corpus = .ok trifreq) :
    trifreq.total = trifreq.msgs.length := by
  unfold trifreqStat at h
  split at h
  · cases h
  · split at h
    · cases h
    · split at h
      · cases h
      · split at h
        · cases h
        · cases h
          exact saveGrams_header _

end Stages

/-! ### What `read_total` prints -/

/-- The total of a file. -/
def printed (n : Nat) : Except Error Printed := .ok ⟨0, decimal n ++ [10], []⟩

/-- The refusal of a type that `read_total` does not know. -/
def notImplemented : Except Error Printed :=
  .ok ⟨1, [], literalBytes "data type not implemented\n"⟩

/-- On a file of a known type the program prints the header, except for the type that its switch
has no case for. -/
theorem readTotalMain_known {R : Type} [Double R] {fs : String → Option (DataFile R)}
    {fname : String} {type : MsgType} {file : RecordFile (type.Msg R)}
    (h : fs fname = some (.known type file)) :
    readTotalMain fs fname = if type = .lem3Group then notImplemented else printed file.total := by
  have htotal : totalOf fs fname type = printed file.total := by
    unfold totalOf openAs openFile
    simp only [h, dif_pos]
    rfl
  unfold readTotalMain
  simp only [getDataType_known h]
  cases type with
  | unigram => exact htotal
  | bigram => exact htotal
  | trigram => exact htotal
  | lemId => exact htotal
  | lemFreq => exact htotal
  | lem2Group => exact htotal
  | lem3Group => rfl

/-- What `read_total` prints of the files of a run: the numbers of words and of lemmas, the numbers
of recorded tuples, and `0` of the files whose messages came one by one. -/
structure TellsTotals {std : Stdlib} {dsave : String} {th : Thresholds ℚ} {c : Converted}
    {lm : Lemmatized} (t : Corpus Bytes Bytes) (r : Run ℚ std dsave th c lm)
    (fs : String → Option (DataFile ℚ)) : Prop where
  words : readTotalMain fs "uni.bin" = printed t.words.dedup.length
  lemmas : ∀ fname ∈ ["lemid.bin", "lemfreq.bin"], readTotalMain fs fname = printed t.lemmaCount
  bifreq : readTotalMain fs "bifreq.bin" = printed r.bifreq.msgs.length
  trifreq : readTotalMain fs "trifreq.bin" = printed r.trifreq.msgs.length
  unknown : ∀ fname ∈ ["bi.bin", "tri.bin", "extended2.bin", "bifiltered.bin"],
    readTotalMain fs fname = printed 0
  refused : ∀ fname ∈ ["extended3.bin", "trifiltered.bin"], readTotalMain fs fname = notImplemented

/-- The headers of a run over a text, in a directory with its files. The dictionaries and the
frequencies are written with their number; the files of a merge or a sort have zero, and the
program does not know groups of triples. -/
theorem TextFiles.tellsTotals {lib : Baalbek} {image : Bytes → List Bytes} {docs : List Bytes}
    {std : Stdlib} {c : Converted} {lm : Lemmer} (h : TextFiles lib image docs std c lm)
    {dsave : String} {th : Thresholds ℚ} (r : Run ℚ std dsave th c (lm.save std))
    {fs : String → Option (DataFile ℚ)} (hfs : HasFiles r fs) :
    TellsTotals (textCorpus lib image docs) r fs := by
  have huni : c.uni.total = (textCorpus lib image docs).words.dedup.length := by
    have hlen := h.words_perm.length_eq
    rw [List.length_map, List.length_map] at hlen
    rw [← hlen, ← h.converted]
    exact (length_saveUni std _).symm
  have hlemid : (lm.save std).lemid.total = (textCorpus lib image docs).lemmaCount := h.lemid_size
  obtain ⟨hbifreq, hlemfreq⟩ := bifreqStat_header r.bifreqStat_eq
  have hread : ∀ {type : MsgType} {fname : String} {file : RecordFile (type.Msg ℚ)} {n : Nat},
      savedFiles r fname = some (.known type file) → type ≠ .lem3Group → file.total = n →
        readTotalMain fs fname = printed n := by
    intro type fname file n hfile hne hn
    rw [readTotalMain_known (hfs hfile), if_neg hne, hn]
  have hrefused : ∀ {fname : String} {file : RecordFile (MsgType.lem3Group.Msg ℚ)},
      savedFiles r fname = some (.known .lem3Group file) →
        readTotalMain fs fname = notImplemented := by
    intro fname file hfile
    rw [readTotalMain_known (hfs hfile), if_pos rfl]
  refine ⟨hread rfl (by decide) huni, ?_, hread rfl (by decide) hbifreq,
    hread rfl (by decide) (trifreqStat_header r.trifreqStat_eq), ?_, ?_⟩
  · simp only [List.forall_mem_cons]
    exact ⟨hread rfl (by decide) hlemid, hread rfl (by decide) (hlemfreq.trans hlemid),
      fun _ hmem => absurd hmem List.not_mem_nil⟩
  · simp only [List.forall_mem_cons]
    exact ⟨hread rfl (by decide) (gramStatBy_header r.bigramStat_eq),
      hread rfl (by decide) (trigramStat_header r.trigramStat_eq),
      hread rfl (by decide) (groupLem_header r.groupLem2_eq),
      hread rfl (by decide) (filterBilems_header r.filterBilems_eq),
      fun _ hmem => absurd hmem List.not_mem_nil⟩
  · simp only [List.forall_mem_cons]
    exact ⟨hrefused rfl, hrefused rfl, fun _ hmem => absurd hmem List.not_mem_nil⟩

end Colloc.Proofs

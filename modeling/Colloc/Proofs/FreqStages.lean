import Colloc.Lib.Total
import Colloc.Proofs.DocFreq
import Colloc.Proofs.Groups
import Colloc.Proofs.Lemmatize

/-!
# `Colloc.Proofs.FreqStages`: the frequency stages succeed

`bifreq_stat` and `trifreq_stat` over the corpus and the group files that came from it. What
a group file records occurs in a document, so no counter is zero behind the run. The lemmas
that are counted are those of `lemid.bin` (`NumbersLemmas`), so the sizes agree and
`merge_unifreq` finds each of them.
-/

set_option autoImplicit false

namespace Colloc.Proofs

open Colloc.Lib
open Colloc.Spec

/-! ### The documents of a corpus -/

section Docs
variable {W : Type} [LemTuple W] [DecidableEq W] {windows : Phrase → List W}
  {lems : List (List UInt32)} {docs : List (List Phrase)}

omit [LemTuple W] [DecidableEq W] in
/-- The empty phrases between the documents have no windows, so the windows of the corpus are
those of the documents. -/
theorem mem_windows_corpusOf (hnil : windows [] = []) (q : W) :
    q ∈ (corpusOf docs).flatMap windows ↔ ∃ doc ∈ docs, ∃ ids ∈ doc, q ∈ windows ids := by
  rw [List.mem_flatMap]
  constructor
  · rintro ⟨ids, hids, hq⟩
    obtain ⟨doc, hdoc, hmem⟩ := List.mem_flatMap.mp hids
    rcases List.mem_append.mp hmem with hmem | hmem
    · exact ⟨doc, hdoc, ids, hmem, hq⟩
    · -- The end of the document has no window.
      rw [List.mem_singleton.mp hmem, hnil] at hq
      exact absurd hq List.not_mem_nil
  · rintro ⟨doc, hdoc, ids, hids, hq⟩
    exact ⟨ids, List.mem_flatMap.mpr ⟨doc, hdoc, List.mem_append_left _ hids⟩, hq⟩

/-- A tuple is counted when it is a lemma tuple of a window of the corpus. The ends of the
documents have no windows. -/
theorem docCount_pos_iff (hnil : windows [] = []) (k : W) :
    0 < docCount windows lems docs k ↔
      ∃ q ∈ (corpusOf docs).flatMap windows, k ∈ combos lems q := by
  unfold docCount
  rw [List.countP_pos_iff]
  constructor
  · rintro ⟨doc, hdoc, hk⟩
    obtain ⟨ids, hids, q, hq, hmem⟩ := (mem_docKeys windows lems doc k).mp (of_decide_eq_true hk)
    exact ⟨q, (mem_windows_corpusOf hnil q).mpr ⟨doc, hdoc, ids, hids, hq⟩, hmem⟩
  · rintro ⟨q, hq, hmem⟩
    obtain ⟨doc, hdoc, ids, hids, hq⟩ := (mem_windows_corpusOf hnil q).mp hq
    exact ⟨doc, hdoc, decide_eq_true ((mem_docKeys windows lems doc k).mpr
      ⟨ids, hids, q, hq, hmem⟩)⟩

/-- A lemma is counted when it is a lemma of a word of the corpus. -/
theorem docCount_id_pos_iff (l : UInt32) :
    0 < docCount id lems docs l ↔ ∃ w ∈ (corpusOf docs).flatten, l ∈ combos lems w := by
  have hflat : (corpusOf docs).flatMap id = (corpusOf docs).flatten := List.flatMap_id
  rw [docCount_pos_iff rfl, hflat]

/-- Documents over words with lemmas are what `bifreq_stat` and `trifreq_stat` read. -/
theorem HaveLemmas.documents (h : HaveLemmas lems (corpusOf docs)) (hfew : docs.length < 2 ^ 32)
    (hne : ∀ doc ∈ docs, ∀ ids ∈ doc, ids ≠ []) : Documents lems docs where
  few := hfew
  phrases := hne
  covered doc hdoc ids hids w hw := by
    refine (h w (List.mem_flatten_of_mem ?_ hw)).1
    exact List.mem_flatMap.mpr ⟨doc, hdoc, List.mem_append_left _ hids⟩

end Docs

/-! ### `lemid.bin` -/

/-- `lemid.bin` lists the lemmas of the documents, each once, whatever their texts are. -/
structure NumbersLemmas (lems : List (List UInt32)) (docs : List (List Phrase))
    (lemid : RecordFile LemId) : Prop where
  total : readTotal lemid = lemid.msgs.length
  nodup : (lemid.msgs.map LemId.id).Nodup
  mem_iff : ∀ l, l ∈ lemid.msgs.map LemId.id ↔ 0 < docCount id lems docs l

/-- And none of the texts is empty. -/
structure ListsLemmas (lems : List (List UInt32)) (docs : List (List Phrase))
    (lemid : RecordFile LemId) : Prop extends NumbersLemmas lems docs lemid where
  text : ∀ m ∈ lemid.msgs, m.str ≠ []

/-- `lemid.bin` has the entries of the map of lemmas. -/
theorem mem_save_lemid (std : Stdlib) (lm : Lemmer) (m : LemId) :
    m ∈ (lm.save std).lemid.msgs ↔ lm.lemid.lookup m.str = some m.id :=
  FlatHashMap.mem_map_iter std lm.lemid _ (fun m : LemId => (m.str, m.id)) (fun _ => rfl)
    (fun _ => rfl) m

/-- A numbered table is saved as a list of its ids, each once. When the numbered lemmas are those
of the corpus, the file lists the lemmas of the corpus. -/
theorem numbersLemmas_of_index {lems : List (List UInt32)} {docs : List (List Phrase)}
    {lm : Lemmer} {names : List Bytes}
    (hindex : Indexes names (fun name => lm.lemid.lookup name)) (hlen : names.length < 2 ^ 32)
    (hcounted : ∀ l, (∃ name, lm.lemid.lookup name = some l) ↔ 0 < docCount id lems docs l)
    (std : Stdlib) : NumbersLemmas lems docs (lm.save std).lemid where
  total := by
    show lm.lemid.size = ((lm.lemid.iter std).map _).length
    rw [List.length_map, FlatHashMap.length_iter]
  nodup := by
    have hnd := nodup_iter_ids id (by simpa using hindex) hlen std
    show (((lm.lemid.iter std).map _).map LemId.id).Nodup
    rw [List.map_map]
    exact hnd
  mem_iff l := by
    rw [← hcounted l]
    constructor
    · intro hl
      obtain ⟨m, hm, rfl⟩ := List.mem_map.mp hl
      exact ⟨m.str, (mem_save_lemid std lm m).mp hm⟩
    · rintro ⟨name, hname⟩
      exact List.mem_map.mpr ⟨⟨name, l⟩, (mem_save_lemid std lm _).mpr hname, rfl⟩

/-- Every lemma that `lemmatize` numbered is one of a word, and every word is in a document. So
the saved table lists the lemmas of the documents. -/
theorem LemmaTable.listsLemmas {uni : RecordFile Unigram} {lm : Lemmer} {docs : List (List Phrase)}
    (h : LemmaTable uni.msgs.length (uni.msgs.map StrIdWeight.id) lm)
    (huni : ListsWords uni (corpusOf docs).flatten) (hsize : lm.lemid.size < 2 ^ 32)
    (std : Stdlib) : ListsLemmas lm.lems docs (lm.save std).lemid := by
  obtain ⟨names, hindex⟩ := h.index
  have hlen : names.length < 2 ^ 32 := by
    rw [← size_eq_length hindex.nodup (fun name => hindex.isSome_iff name)]
    exact hsize
  have hcounted : ∀ l, (∃ name, lm.lemid.lookup name = some l) ↔
      0 < docCount id lm.lems docs l := by
    intro l
    rw [docCount_id_pos_iff]
    constructor
    · rintro ⟨name, hname⟩
      obtain ⟨w, hw, hmem⟩ := h.used name l hname
      exact ⟨w, (huni.mem_iff w).mp hw, hmem⟩
    · rintro ⟨w, hw, hmem⟩
      exact h.known w ((huni.mem_iff w).mpr hw) l hmem
  refine ⟨numbersLemmas_of_index hindex hlen hcounted std, fun m hm => h.text m.str ?_⟩
  rw [(mem_save_lemid std lm m).mp hm]
  rfl

/-- `merge_unifreq` succeeds on the counters of the documents. Both list the counted lemmas once
each, so the sizes agree and no lookup misses. -/
theorem mergeUnifreq_total {lems : List (List UInt32)} {docs : List (List Phrase)}
    {lemid : RecordFile LemId} (h : NumbersLemmas lems docs lemid)
    {uni : FlatHashMap UInt32 UInt32}
    (huni : CountsDocs id lems docs (fun l => 0 < docCount id lems docs l) uni) :
    ∃ lemfreq, mergeUnifreq uni lemid = .ok lemfreq := by
  have hkeys : ∀ l, (uni.lookup l).isSome ↔ l ∈ lemid.msgs.map LemId.id := fun l =>
    (huni.1 l).trans (h.mem_iff l).symm
  -- Both list the counted lemmas, each once.
  have hsize : uni.size = readTotal lemid := by
    rw [size_eq_length h.nodup hkeys, List.length_map, h.total]
  obtain ⟨msgs, hrun, -⟩ := foldlM_ok (f := mergeLemId uni) (P := fun _ => True)
    (l := lemid.msgs) (s := []) (fun m hm msgs _ => by
      rcases mergeLemId_cases uni msgs m with ⟨c, -, hok⟩ | ⟨hnone, -⟩
      · exact ⟨_, hok, trivial⟩
      · have hsome := (hkeys m.id).mpr (List.mem_map_of_mem hm)
        rw [hnone] at hsome
        cases hsome) trivial
  refine ⟨{ total := uni.size, msgs := msgs }, ?_⟩
  unfold mergeUnifreq
  rw [if_neg (fun hne => hne hsize), readApply_eq, hrun]

/-! ### The stages -/

section Stages
variable {R : Type} [Double R] {lemsFile : RecordFile PhraseMsg} {docs : List (List Phrase)}

/-- The groups of a file come from the corpus, so the tuples it records are counted. -/
theorem docCount_recorded {K : Type} [LemTuple K] [DecidableEq K] {windows : Phrase → List K}
    {lems : List (List UInt32)} (hwin : WindowsOf windows)
    {extended : RecordFile (LemGroup K R)}
    (hfrom : ∀ lg ∈ extended.msgs, FromCorpus windows lems (corpusOf docs) lg) {k : K}
    (hk : k ∈ recorded extended) : 0 < docCount windows lems docs k := by
  obtain ⟨lg, hlg, rfl⟩ := List.mem_map.mp hk
  exact (docCount_pos_iff hwin.nil lg.lids).mpr (hfrom lg hlg).arises

/-- `bifreq_stat` ends over groups that arise from the documents: each pair is in one of them, so
no count is zero. -/
theorem bifreqStat_total (std : Stdlib) (h : Documents (tableOf lemsFile) docs)
    {lemid : RecordFile LemId} (hlemid : NumbersLemmas (tableOf lemsFile) docs lemid)
    (extended2 : RecordFile (Lem2Group R))
    (hfrom : ∀ lg ∈ extended2.msgs, FromCorpus pairs (tableOf lemsFile) (corpusOf docs) lg) :
    ∃ bifreq lemfreq,
      bifreqStat std lemsFile lemid extended2 (corpusOf docs) = .ok (bifreq, lemfreq) ∧
      FreqTable pairs (tableOf lemsFile) docs extended2 bifreq := by
  obtain ⟨st, huni, hbi, hcounts⟩ := bifreqCounts_spec std h extended2
  -- A recorded pair occurs in a document, so its counter is not zero.
  have hnonzero : ¬ ∃ k, st.bi.lookup k = some 0 := by
    rw [hbi.zero_iff]
    rintro ⟨p, hp, h0⟩
    exact absurd h0 (docCount_recorded windowsOf_pairs hfrom hp).ne'
  obtain ⟨lemfreq, hmerge⟩ := mergeUnifreq_total hlemid huni
  have hok : bifreqStat std lemsFile lemid extended2 (corpusOf docs)
      = .ok (saveGrams std st.bi, lemfreq) := by
    unfold bifreqStat
    rw [hcounts, checkCounts_ok std _ hnonzero]
    simp only [Except.map, hmerge]
  exact ⟨_, lemfreq, hok, (bifreqStat_ok std h hok).1⟩

/-- So does `trifreq_stat`. No count is zero, as each recorded triple comes from a window of the
corpus. -/
theorem trifreqStat_total (std : Stdlib) (h : Documents (tableOf lemsFile) docs)
    (extended3 : RecordFile (Lem3Group R))
    (hfrom : ∀ lg ∈ extended3.msgs, FromCorpus triples (tableOf lemsFile) (corpusOf docs) lg) :
    ∃ trifreq, trifreqStat std lemsFile extended3 (corpusOf docs) = .ok trifreq ∧
      FreqTable triples (tableOf lemsFile) docs extended3 trifreq := by
  obtain ⟨tri, htri, hstat⟩ := trifreqStat_spec std h extended3
  have hnonzero : ¬ ∃ k, tri.lookup k = some 0 := by
    rw [htri.zero_iff]
    rintro ⟨t, ht, h0⟩
    exact absurd h0 (docCount_recorded windowsOf_triples hfrom ht).ne'
  have hok : trifreqStat std lemsFile extended3 (corpusOf docs) = .ok (saveGrams std tri) := by
    rw [hstat, checkCounts_ok std _ hnonzero]
    rfl
  exact ⟨_, hok, trifreqStat_ok std h hok⟩

end Stages

end Colloc.Proofs

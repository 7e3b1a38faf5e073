import Colloc.Proofs.DocFreq
import Colloc.Proofs.Filters

/-!
# `Colloc.Proofs.DocTables`: frequencies and filters over any corpus

Every corpus is a list of closed documents and the phrases of one that is still open
(`exists_documents`). `bifreq_stat` and `trifreq_stat` count the closed ones, and the counters
are `u32`: `bifreqStat_table` and `trifreqStat_table` say what a stage that ended has written,
for any number of documents. The phrases of the open document reach the sets only.

The filters keep the groups whose frequency and weight are above the thresholds, each of them
once (`filterBilems_table`, `filterTrilems_table`).
-/

set_option autoImplicit false

namespace Colloc.Proofs

open Colloc.Lib
open Colloc.Spec

/-! ### Any corpus -/

/-- A corpus is closed documents, and phrases behind the last end of a document. The induction is
on the phrases, and an empty one closes a document. -/
theorem exists_documents (corpus : List Phrase) :
    ∃ docs last, corpus = corpusOf docs ++ last ∧
      (∀ doc ∈ docs, ∀ ids ∈ doc, ids ≠ []) ∧ ∀ ids ∈ last, ids ≠ [] := by
  induction corpus with
  | nil => exact ⟨[], [], rfl, by simp, by simp⟩
  | cons ids corpus ih =>
      obtain ⟨docs, last, rfl, hdocs, hlast⟩ := ih
      cases hids : ids with
      | nil =>
          -- The end of a document without phrases.
          refine ⟨[] :: docs, last, rfl, fun doc hdoc => ?_, hlast⟩
          rcases List.mem_cons.mp hdoc with rfl | hdoc
          · simp
          · exact hdocs doc hdoc
      | cons w rest =>
          -- A phrase of the first document, or of the open one when no document ends.
          cases docs with
          | nil =>
              refine ⟨[], (w :: rest) :: last, rfl, by simp, fun ids' hids' => ?_⟩
              rcases List.mem_cons.mp hids' with rfl | hids'
              · simp
              · exact hlast ids' hids'
          | cons doc docs =>
              refine ⟨((w :: rest) :: doc) :: docs, last, rfl, fun doc' hdoc' => ?_, hlast⟩
              rcases List.mem_cons.mp hdoc' with rfl | hdoc'
              · intro ids' hids'
                rcases List.mem_cons.mp hids' with rfl | hids'
                · simp
                · exact hdocs doc List.mem_cons_self ids' hids'
              · exact hdocs doc' (List.mem_cons_of_mem doc hdoc')

/-- When all phrases are covered, so are those of each document. -/
theorem CoversPhrases.of_corpusOf {lems : List (List UInt32)} {docs : List (List Phrase)}
    {last : List Phrase} (h : CoversPhrases lems (corpusOf docs ++ last)) :
    ∀ doc ∈ docs, CoversPhrases lems doc := by
  intro doc hdoc ids hids
  have hmem : ids ∈ corpusOf docs :=
    List.mem_flatMap.mpr ⟨doc, hdoc, List.mem_append_left _ hids⟩
  exact h ids (List.mem_append_left _ hmem)

/-! ### Document frequencies -/

section Table
variable {K : Type} [LemTuple K] [DecidableEq K]

/-- The records are the tuples of `extended`, in ascending order, with the number of closed
documents that have them, modulo `2 ^ 32`. -/
abbrev DocTable {R : Type} (windows : Phrase → List K) (lems : List (List UInt32))
    (docs : List (List Phrase)) (extended : RecordFile (LemGroup K R))
    (freq : RecordFile (Gram K)) : Prop :=
  IsTable Gram.ids Gram.weight (· ∈ recorded extended)
    (fun k => UInt32.ofNat (docCount windows lems docs k)) freq.msgs

/-- The saved counters of the recorded tuples, after a run that counted the documents: a table of
the recorded tuples with their document counts. -/
theorem saveGrams_docTable {R : Type} (std : Stdlib) {windows : Phrase → List K}
    {lems : List (List UInt32)} {docs : List (List Phrase)}
    {extended : RecordFile (LemGroup K R)} {m₀ m : FlatHashMap K UInt32}
    (h₀ : ∀ k, m₀.lookup k = if k ∈ recorded extended then some 0 else none)
    (hm : ∀ k, m.lookup k
      = (m₀.lookup k).map (fun c => c + UInt32.ofNat (docCount windows lems docs k))) :
    DocTable windows lems docs extended (saveGrams std m) := by
  have hlook : ∀ k, m.lookup k = if k ∈ recorded extended
      then some (UInt32.ofNat (docCount windows lems docs k)) else none := by
    intro k
    rw [hm, h₀]
    by_cases hk : k ∈ recorded extended
    · simp [hk]
    · simp [hk]
  refine saveGrams_table std m id (fun k => ?_) (fun k c hc => ?_)
  · rw [hlook]
    by_cases hk : k ∈ recorded extended
    · simp [hk]
    · simp [hk]
  · rw [hlook] at hc
    by_cases hk : k ∈ recorded extended
    · rw [if_pos hk] at hc
      exact (Option.some.inj hc).symm
    · rw [if_neg hk] at hc
      cases hc

end Table

section Runs
variable {lems : List (List UInt32)}

/-- A run over a phrase that ends found all its words in the lemma table. The lookup of a word
comes before anything else is done with it. -/
theorem bifreqIds_covers {bi : FlatHashMap Idd UInt32} (ids : Phrase) :
    ∀ (prev : Option UInt32) (sets sets' : DocSets),
      bifreqIds lems bi prev sets ids = .ok sets' → ∀ w ∈ ids, Covered lems w := by
  induction ids with
  | nil => simp
  | cons it ids ih =>
      intro prev sets sets' hok w hw
      rw [bifreqIds] at hok
      cases hit : lemsAt lems it with
      | error e => simp only [hit] at hok; cases hok
      | ok rids =>
          simp only [hit] at hok
          cases hword : bifreqWord lems bi prev sets rids with
          | error e => simp only [hword] at hok; cases hok
          | ok sets₁ =>
              simp only [hword] at hok
              rcases List.mem_cons.mp hw with rfl | hw
              · exact ⟨rids, hit⟩
              · exact ih (some it) sets₁ sets' hok w hw

/-- A phrase that `bifreq_stat` gets through has words with lemmas only. -/
theorem bifreqPhrase_covers (std : Stdlib) {st st' : BifreqState} {ids : Phrase}
    (h : bifreqPhrase std lems st ids = .ok st') : ∀ w ∈ ids, Covered lems w := by
  unfold bifreqPhrase at h
  generalize (if ids.length = 0 then _ else st : BifreqState) = st₁ at h
  simp only at h
  cases hids : bifreqIds lems st₁.bi none st₁.sets ids with
  | error e => simp only [hids] at h; cases h
  | ok sets => exact bifreqIds_covers ids none st₁.sets sets hids

/-- A phrase of an open document leaves the counters as they are. Only the end of a document adds
to them. -/
theorem bifreqPhrase_open (std : Stdlib) {st st' : BifreqState} {ids : Phrase} (hne : ids ≠ [])
    (h : bifreqPhrase std lems st ids = .ok st') : st'.uni = st.uni ∧ st'.bi = st.bi := by
  unfold bifreqPhrase at h
  rw [if_neg (fun h0 => hne (List.eq_nil_of_length_eq_zero h0))] at h
  cases hids : bifreqIds lems st.bi none st.sets ids with
  | error e => simp only [hids] at h; cases h
  | ok sets =>
      simp only [hids] at h
      rw [← Except.ok.inj h]
      exact ⟨rfl, rfl⟩

/-- Inside a document the counts stay: they are added at its end. -/
theorem trifreqPhrase_open (std : Stdlib) {st st' : TrifreqState} {ids : Phrase} (hne : ids ≠ [])
    (h : trifreqPhrase std lems st ids = .ok st') : st'.tri = st.tri := by
  unfold trifreqPhrase at h
  rw [if_neg (fun h0 => hne (List.eq_nil_of_length_eq_zero h0))] at h
  cases hids : trifreqIds lems st.tri st.triset ids with
  | error e => simp only [hids] at h; cases h
  | ok triset =>
      simp only [hids] at h
      rw [← Except.ok.inj h]

/-- A run that ends found every word. -/
theorem bifreqRun_covers (std : Stdlib) {corpus : List Phrase} {st₀ st : BifreqState}
    (hrun : corpus.foldlM (bifreqPhrase std lems) st₀ = .ok st) : CoversPhrases lems corpus := by
  refine foldlM_keeps (P := fun before _ => CoversPhrases lems before) hrun
    (fun ids _ before s s' hbefore hstep ids' hids' => ?_) (fun ids hids => by cases hids)
  rcases List.mem_append.mp hids' with hids' | hids'
  · exact hbefore ids' hids'
  · rw [List.mem_singleton.mp hids']
    exact bifreqPhrase_covers std hstep

section Open
variable {docs : List (List Phrase)} {last : List Phrase}
  (hdocs : ∀ doc ∈ docs, ∀ ids ∈ doc, ids ≠ []) (hlast : ∀ ids ∈ last, ids ≠ [])
  (hcov : CoversPhrases lems (corpusOf docs ++ last))
include hdocs hlast hcov

/-- The counters of a run: those of the closed documents. No end of a document follows the last
phrases. -/
theorem bifreqRun_bi (std : Stdlib) {uni₀ : FlatHashMap UInt32 UInt32}
    {bi₀ : FlatHashMap Idd UInt32} {st : BifreqState}
    (hrun : (corpusOf docs ++ last).foldlM (bifreqPhrase std lems)
      { uni := uni₀, bi := bi₀, sets := { uniset := ∅, biset := ∅ } } = .ok st) (k : Idd) :
    st.bi.lookup k
      = (bi₀.lookup k).map (fun c => c + UInt32.ofNat (docCount pairs lems docs k)) := by
  obtain ⟨st₁, hclosed, hst₁⟩ := bifreq_run lems std docs uni₀ bi₀ hdocs hcov.of_corpusOf
  rw [List.foldlM_append, hclosed] at hrun
  have hopen : st.bi = st₁.bi := foldlM_keeps (P := fun _ s => s.bi = st₁.bi) hrun
    (fun ids hids _ s s' hs hstep => (bifreqPhrase_open std (hlast ids hids) hstep).2.trans hs)
    rfl
  rw [hopen, hst₁.bi]

/-- After a run of `trifreq_stat` each count has grown by the number of closed documents with the
triple. The induction is on the documents. -/
theorem trifreqRun_tri (std : Stdlib) {tri₀ : FlatHashMap Iddd UInt32} {st : TrifreqState}
    (hrun : (corpusOf docs ++ last).foldlM (trifreqPhrase std lems)
      { tri := tri₀, triset := ∅ } = .ok st) (k : Iddd) :
    st.tri.lookup k
      = (tri₀.lookup k).map (fun c => c + UInt32.ofNat (docCount triples lems docs k)) := by
  obtain ⟨st₁, hclosed, hst₁⟩ := trifreq_run lems std docs tri₀ hdocs hcov.of_corpusOf
  rw [List.foldlM_append, hclosed] at hrun
  have hopen : st.tri = st₁.tri := foldlM_keeps (P := fun _ s => s.tri = st₁.tri) hrun
    (fun ids hids _ s s' hs hstep => (trifreqPhrase_open std (hlast ids hids) hstep).trans hs)
    rfl
  rw [hopen, hst₁]

end Open

end Runs

section Stages
variable {R : Type} [Double R] {lemsFile : RecordFile PhraseMsg} {docs : List (List Phrase)}
  {last : List Phrase}

/-- What `bifreq_stat` has found and written when it ends: all words of the corpus have lemmas,
and `bifreq.bin` is the table of the recorded pairs. The phrases behind the last document are read
and not counted. -/
theorem bifreqStat_table (std : Stdlib) {lemid : RecordFile LemId}
    {extended2 : RecordFile (Lem2Group R)} (hdocs : ∀ doc ∈ docs, ∀ ids ∈ doc, ids ≠ [])
    (hlast : ∀ ids ∈ last, ids ≠ []) {bifreq : RecordFile Bigram} {lemfreq : RecordFile LemFreq}
    (hok : bifreqStat std lemsFile lemid extended2 (corpusOf docs ++ last)
      = .ok (bifreq, lemfreq)) :
    CoversPhrases (tableOf lemsFile) (corpusOf docs ++ last) ∧
      DocTable pairs (tableOf lemsFile) docs extended2 bifreq := by
  obtain ⟨bi₀, hload, hbi₀⟩ := loadExtended_spec extended2
  unfold bifreqStat bifreqCounts at hok
  simp only [loadLems_eq, hload] at hok
  cases hrun : (corpusOf docs ++ last).foldlM (bifreqPhrase std (tableOf lemsFile))
      { uni := ∅, bi := bi₀, sets := { uniset := ∅, biset := ∅ } } with
  | error e => simp only [hrun] at hok; cases hok
  | ok st =>
      simp only [hrun] at hok
      have hcov := bifreqRun_covers std hrun
      refine ⟨hcov, ?_⟩
      have htable := saveGrams_docTable std hbi₀ (bifreqRun_bi hdocs hlast hcov std hrun)
      cases hcheck : checkCounts std "bi: doc count is zero" st.bi with
      | error e => simp only [hcheck] at hok; cases hok
      | ok u =>
          simp only [hcheck] at hok
          cases hmerge : mergeUnifreq st.uni lemid with
          | error e => simp only [hmerge] at hok; cases hok
          | ok file =>
              simp only [hmerge] at hok
              obtain ⟨rfl, -⟩ := Prod.mk.inj (Except.ok.inj hok)
              exact htable

/-- What `trifreq_stat` has written when it ends: the table of the recorded triples. The phrases
behind the last document are read and not counted. -/
theorem trifreqStat_table (std : Stdlib) {extended3 : RecordFile (Lem3Group R)}
    (hcov : CoversPhrases (tableOf lemsFile) (corpusOf docs ++ last))
    (hdocs : ∀ doc ∈ docs, ∀ ids ∈ doc, ids ≠ []) (hlast : ∀ ids ∈ last, ids ≠ [])
    {trifreq : RecordFile Trigram}
    (hok : trifreqStat std lemsFile extended3 (corpusOf docs ++ last) = .ok trifreq) :
    DocTable triples (tableOf lemsFile) docs extended3 trifreq := by
  obtain ⟨tri₀, hload, htri₀⟩ := loadExtended_spec extended3
  unfold trifreqStat at hok
  simp only [loadLems_eq, hload] at hok
  cases hrun : (corpusOf docs ++ last).foldlM (trifreqPhrase std (tableOf lemsFile))
      { tri := tri₀, triset := ∅ } with
  | error e => simp only [hrun] at hok; cases hok
  | ok st =>
      simp only [hrun] at hok
      have htable := saveGrams_docTable std htri₀ (trifreqRun_tri hdocs hlast hcov std hrun)
      cases hcheck : checkCounts std "tri: doc count is zero" st.tri with
      | error e => simp only [hcheck] at hok; cases hok
      | ok u =>
          simp only [hcheck] at hok
          rw [← Except.ok.inj hok]
          exact htable

end Stages

/-! ### The filters -/

section Filters
variable {K R : Type} [IdTuple K] [DecidableEq K] [Double R]

/-- The document counts of a table are those of its records. -/
theorem docCountIn_table {freq : RecordFile (Gram K)} {P : K → Prop} {count : K → UInt32}
    (h : IsTable Gram.ids Gram.weight P count freq.msgs) {k : K} (hk : P k) :
    docCountIn freq k = count k := by
  obtain ⟨g, hfind, hweight⟩ := Option.map_eq_some_iff.mp
    (find_eq_docCountIn ((h.mem_keys_iff k).mpr hk))
  have hids : g.ids = k := by simpa using List.find?_some hfind
  rw [← hweight, (h.sound g (List.mem_of_find?_eq_some hfind)).2, hids]

/-- A table of the groups of a file and the file. -/
def FilterInput.ofTable {freq : RecordFile (Gram K)} {extended : RecordFile (LemGroup K R)}
    {count : K → UInt32}
    (hfreq : IsTable Gram.ids Gram.weight (· ∈ recorded extended) count freq.msgs)
    (hnum : ∀ lg ∈ extended.msgs, Double.isNumber lg.weight) : FilterInput K R where
  freq := freq
  groups := extended
  counted lg hlg := (hfreq.mem_keys_iff lg.lids).mpr (List.mem_map_of_mem hlg)
  number := hnum

/-- A filter of such files keeps the groups above the thresholds of the table. The count it looks
up is that of the table. -/
theorem Filtered.perm_table {freq : RecordFile (Gram K)} {extended : RecordFile (LemGroup K R)}
    {count : K → UInt32}
    {hfreq : IsTable Gram.ids Gram.weight (· ∈ recorded extended) count freq.msgs}
    {hnum : ∀ lg ∈ extended.msgs, Double.isNumber lg.weight} {th1 : UInt32} {th2 : R}
    {out : List (LemGroup K R)} (h : Filtered (FilterInput.ofTable hfreq hnum) th1 th2 out) :
    out.Perm (extended.msgs.filter (aboveBoth count th1 th2)) := by
  have hsame : extended.msgs.filter (aboveBoth (docCountIn freq) th1 th2)
      = extended.msgs.filter (aboveBoth count th1 th2) := by
    refine List.filter_congr (fun lg hlg => ?_)
    unfold aboveBoth
    rw [docCountIn_table hfreq (List.mem_map_of_mem hlg)]
  rw [← hsame]
  exact h.perm

end Filters

section FilterStages
variable {R : Type} [Double R]

/-- `filter_bilems` keeps the groups above the thresholds, when the parts of its sort do not
wrap. -/
theorem filterBilems_table (std : Stdlib) {bifreq : RecordFile Bigram}
    {extended2 : RecordFile (Lem2Group R)} (th1 : UInt32) (th2 : R) {count : Idd → UInt32}
    (hfreq : IsTable Gram.ids Gram.weight (· ∈ recorded extended2) count bifreq.msgs)
    (hnum : ∀ lg ∈ extended2.msgs, Double.isNumber lg.weight)
    (hmax : extended2.msgs.length ≤ 20000000 * (2 ^ 32 - 1)) :
    ∃ out, filterBilems std bifreq extended2 th1 th2 = .ok { total := 0, msgs := out } ∧
      out.Perm (extended2.msgs.filter (aboveBoth count th1 th2)) := by
  rw [filterBilems_eq]
  obtain ⟨out, hok, hout⟩ := filterOnDisk_filtered std (FilterInput.ofTable hfreq hnum) th1 th2
    (std.le_maxSize (by decide)) (Or.inr hmax)
  exact ⟨out, hok, hout.perm_table⟩

/-- When the number of its parts comes back to zero, `filter_bilems` keeps no group. -/
theorem filterBilems_wraps (std : Stdlib) {bifreq : RecordFile Bigram}
    {extended2 : RecordFile (Lem2Group R)} (th1 : UInt32) (th2 : R) {n : Nat}
    (hlen : extended2.msgs.length = 20000000 * n) (hn : UInt32.ofNat n = 0) :
    filterBilems std bifreq extended2 th1 th2 = .ok { total := 0, msgs := [] } := by
  rw [filterBilems_eq]
  exact filterOnDisk_wraps std th1 th2 (std.le_maxSize (by decide)) (by decide) hlen hn

/-- `filter_trilems` keeps the groups above the thresholds. -/
theorem filterTrilems_table (std : Stdlib) {trifreq : RecordFile Trigram}
    {extended3 : RecordFile (Lem3Group R)} (th1 : UInt32) (th2 : R) {count : Iddd → UInt32}
    (hfreq : IsTable Gram.ids Gram.weight (· ∈ recorded extended3) count trifreq.msgs)
    (hnum : ∀ lg ∈ extended3.msgs, Double.isNumber lg.weight) :
    ∃ out, filterTrilems std trifreq extended3 th1 th2 = .ok { total := 0, msgs := out } ∧
      out.Perm (extended3.msgs.filter (aboveBoth count th1 th2)) := by
  rw [filterTrilems_eq]
  obtain ⟨out, hok, hout⟩ := filterInMemory_filtered std (FilterInput.ofTable hfreq hnum) th1 th2
  exact ⟨out, hok, hout.perm_table⟩

end FilterStages

end Colloc.Proofs

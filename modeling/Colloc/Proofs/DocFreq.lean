import Colloc.Proofs.Freq

/-!
# `Colloc.Proofs.DocFreq`: document frequencies are exact

What `bifreq_stat` and `trifreq_stat` write over a corpus of closed documents. The counters
start at the recorded pairs and triples (`loadExtended_spec`), a run adds to each the number
of documents that have it (`Freq`), and the check behind the run throws if and only if one
of them is still zero (`checkCounts_spec`). The number of documents is below `2 ^ 32`, so no
counter wraps back to zero.
-/

set_option autoImplicit false

namespace Colloc.Proofs

open Colloc.Lib
open Colloc.Spec

/-- The tuples that a group file records. -/
def recorded {K R : Type} (extended : RecordFile (LemGroup K R)) : List K :=
  extended.msgs.map LemGroup.lids

section Stages
variable {K R : Type} [IdTuple K] [DecidableEq K] [Double R]

/-- The counters start at zero, one for each recorded tuple. A tuple that is recorded twice keeps
its one counter. -/
theorem loadExtended_spec (extended : RecordFile (LemGroup K R)) :
    ∃ m, loadExtended extended = .ok m ∧
      ∀ k, m.lookup k = if k ∈ recorded extended then some 0 else none := by
  refine ⟨_, readApply_pure _ _ _, fun k => ?_⟩
  -- `try_emplace` leaves an entry alone, and every entry so far is zero.
  have hfold : ∀ (msgs : List (LemGroup K R)) (m : FlatHashMap K UInt32),
      (∀ c ∈ m.lookup k, c = 0) →
      (msgs.foldl (fun m lg => m.tryEmplace lg.lids 0) m).lookup k
        = if k ∈ msgs.map LemGroup.lids ∨ (m.lookup k).isSome then some 0 else none := by
    intro msgs
    induction msgs with
    | nil =>
        intro m hm
        cases hk : m.lookup k with
        | none => simp [hk]
        | some c => simp [hk, hm c hk]
    | cons lg msgs ih =>
        intro m hm
        have hstep := FlatHashMap.lookup_tryEmplace m lg.lids k (0 : UInt32)
        rw [List.foldl_cons, ih, hstep]
        · by_cases hk : k = lg.lids
          · simp [hk]
          · simp [hk]
        · intro c hc
          rw [hstep] at hc
          by_cases hk : k = lg.lids
          · rw [if_pos hk, ← hk] at hc
            cases hlook : m.lookup k with
            | none =>
                rw [hlook] at hc
                exact (Option.some.inj hc).symm
            | some c' =>
                rw [hlook] at hc
                exact hm c (hlook.trans hc)
          · rw [if_neg hk] at hc
            exact hm c hc
  rw [hfold extended.msgs ∅ (fun c hc => nomatch hc)]
  simp [recorded]

omit [IdTuple K] in
/-- The test for a count of zero looks at all entries, in whatever order. -/
theorem any_count_zero_iff (std : Stdlib) (m : FlatHashMap K UInt32) :
    (m.iter std).any (fun el => el.2 == 0) = true ↔ ∃ k, m.lookup k = some 0 := by
  rw [List.any_eq_true]
  constructor
  · rintro ⟨⟨k, c⟩, hmem, hc⟩
    have hzero : c = 0 := eq_of_beq hc
    exact ⟨k, hzero ▸ (FlatHashMap.mem_iter std m k c).mp hmem⟩
  · rintro ⟨k, hk⟩
    exact ⟨(k, 0), (FlatHashMap.mem_iter std m k 0).mpr hk, beq_self_eq_true _⟩

omit [IdTuple K] in
/-- The check passes when no counter is zero. -/
theorem checkCounts_ok (std : Stdlib) (what : String) {m : FlatHashMap K UInt32}
    (h : ¬ ∃ k, m.lookup k = some 0) : checkCounts std what m = .ok () := by
  unfold checkCounts
  rw [if_neg (fun hany => h ((any_count_zero_iff std m).mp hany))]

omit [IdTuple K] in
/-- It throws when some counter is zero. -/
theorem checkCounts_error (std : Stdlib) (what : String) {m : FlatHashMap K UInt32}
    (h : ∃ k, m.lookup k = some 0) : checkCounts std what m = .error (.runtime what) := by
  unfold checkCounts
  rw [if_pos ((any_count_zero_iff std m).mpr h)]

/-- A saved map is the table of its entries, read by `v`. It is written in the order of the keys,
and each key once. -/
theorem saveGrams_table {V : Type} (std : Stdlib) (m : FlatHashMap K UInt32) (v : UInt32 → V)
    {P : K → Prop} {f : K → V} (hP : ∀ k, (m.lookup k).isSome ↔ P k)
    (hf : ∀ k c, m.lookup k = some c → v c = f k) :
    IsTable Gram.ids (fun g => v g.weight) P f (saveGrams std m).msgs where
  ascending := saveGrams_ascending std m
  complete k hk := by
    obtain ⟨c, hc⟩ := Option.isSome_iff_exists.mp ((hP k).mpr hk)
    exact ⟨⟨k, c⟩, (mem_saveGrams std m _).mpr hc, rfl⟩
  sound g hg := by
    have hlook := (mem_saveGrams std m g).mp hg
    refine ⟨(hP g.ids).mp ?_, hf _ _ hlook⟩
    rw [hlook]
    rfl

end Stages

/-- `merge_unifreq` on one message: it appends the counter of the id, or there is none. -/
theorem mergeLemId_cases (uni : FlatHashMap UInt32 UInt32) (msgs : List LemFreq) (m : LemId) :
    (∃ c, uni.lookup m.id = some c ∧
      mergeLemId uni msgs m = .ok (msgs ++ [{ str := m.str, id := m.id, weight := c }])) ∨
    (uni.lookup m.id = none ∧ mergeLemId uni msgs m = .error (.badDereference "it->second")) := by
  unfold mergeLemId FlatHashMap.deref
  cases hm : uni.lookup m.id with
  | none => exact Or.inr ⟨rfl, rfl⟩
  | some c => exact Or.inl ⟨c, rfl, rfl⟩

/-- A run of it over the messages: each lemma of `lemid.bin` is written with its counter, in the
order of that file. -/
theorem mergeLemId_run (uni : FlatHashMap UInt32 UInt32) (ids : List LemId) :
    ∀ msgs out : List LemFreq, ids.foldlM (mergeLemId uni) msgs = .ok out →
      out.map (fun m => (m.str, m.id, some m.weight))
        = msgs.map (fun m => (m.str, m.id, some m.weight))
          ++ ids.map (fun m => (m.str, m.id, uni.lookup m.id)) := by
  induction ids with
  | nil =>
      intro msgs out hout
      rw [Except.ok.inj hout]
      simp
  | cons m ids ih =>
      intro msgs out hout
      rw [List.foldlM_cons] at hout
      rcases mergeLemId_cases uni msgs m with ⟨c, hc, hok⟩ | ⟨-, herr⟩
      · rw [hok] at hout
        rw [ih _ out hout]
        simp [hc]
      · rw [herr] at hout
        cases hout

/-- A run of it does not throw: the only failure is that a lemma has no counter, which is another
one. -/
theorem mergeLemId_run_ne_runtime (uni : FlatHashMap UInt32 UInt32) (what : String)
    (ids : List LemId) :
    ∀ msgs : List LemFreq, ids.foldlM (mergeLemId uni) msgs ≠ .error (.runtime what) := by
  induction ids with
  | nil => exact fun msgs h => nomatch h
  | cons m ids ih =>
      intro msgs h
      rw [List.foldlM_cons] at h
      rcases mergeLemId_cases uni msgs m with ⟨c, -, hok⟩ | ⟨-, herr⟩
      · rw [hok] at h
        exact ih _ h
      · rw [herr] at h
        cases h

/-- `lemfreq.bin` has the messages of `lemid.bin`, with the counters of their ids, in the same
order. A lemma without a counter would have ended the stage. -/
theorem mergeUnifreq_ok {uni : FlatHashMap UInt32 UInt32} {lemid : RecordFile LemId}
    {lemfreq : RecordFile LemFreq} (h : mergeUnifreq uni lemid = .ok lemfreq) :
    lemfreq.msgs.map (fun m => (m.str, m.id, some m.weight))
      = lemid.msgs.map (fun m => (m.str, m.id, uni.lookup m.id)) := by
  unfold mergeUnifreq at h
  split at h
  · cases h
  · rw [readApply_eq] at h
    split at h
    · cases h
    · rename_i msgs hmsgs
      rw [← Except.ok.inj h]
      exact mergeLemId_run uni lemid.msgs [] msgs hmsgs

/-- Merging the lemma counters does not raise the exception of the pairs: its own one has another
text. -/
theorem mergeUnifreq_ne_biZero (uni : FlatHashMap UInt32 UInt32) (lemid : RecordFile LemId) :
    mergeUnifreq uni lemid ≠ .error (.runtime "bi: doc count is zero") := by
  intro h
  unfold mergeUnifreq at h
  split at h
  · -- The sizes differ: another text.
    exact absurd (Error.runtime.inj (Except.error.inj h)) (by decide)
  · rw [readApply_eq] at h
    split at h
    · rename_i e he
      rw [Except.error.inj h] at he
      exact mergeLemId_run_ne_runtime uni _ lemid.msgs [] he
    · cases h

/-! ### The counters of a corpus -/

/-- The documents of a corpus: fewer than `2 ^ 32`, without empty phrases, over the words of
the lemma table. -/
structure Documents (lems : List (List UInt32)) (docs : List (List Phrase)) : Prop where
  few : docs.length < 2 ^ 32
  phrases : ∀ doc ∈ docs, ∀ ids ∈ doc, ids ≠ []
  covered : ∀ doc ∈ docs, CoversPhrases lems doc

/-- No document count wraps. -/
theorem Documents.toNat_docCount {W : Type} [LemTuple W] [DecidableEq W]
    {lems : List (List UInt32)} {docs : List (List Phrase)} (h : Documents lems docs)
    (windows : Phrase → List W) (k : W) :
    (UInt32.ofNat (docCount windows lems docs k)).toNat = docCount windows lems docs k := by
  have hle := docCount_le_length windows lems docs k
  have hfew := h.few
  rw [UInt32.toNat_ofNat', Nat.mod_eq_of_lt (by omega)]

/-- A map that counts the documents of the tuples `P`. -/
def CountsDocs {W : Type} [LemTuple W] [DecidableEq W] (windows : Phrase → List W)
    (lems : List (List UInt32)) (docs : List (List Phrase)) (P : W → Prop)
    (m : FlatHashMap W UInt32) : Prop :=
  (∀ k, (m.lookup k).isSome ↔ P k) ∧
    ∀ k c, m.lookup k = some c → c.toNat = docCount windows lems docs k

/-- Such a map has a zero if and only if one of its tuples is in no document. The counts fit, so
none of them has wrapped around to zero. -/
theorem CountsDocs.zero_iff {W : Type} [LemTuple W] [DecidableEq W]
    {windows : Phrase → List W} {lems : List (List UInt32)} {docs : List (List Phrase)}
    {P : W → Prop} {m : FlatHashMap W UInt32} (h : CountsDocs windows lems docs P m) :
    (∃ k, m.lookup k = some 0) ↔ ∃ k, P k ∧ docCount windows lems docs k = 0 := by
  constructor
  · rintro ⟨k, hk⟩
    exact ⟨k, (h.1 k).mp (by rw [hk]; rfl), (h.2 k 0 hk).symm⟩
  · rintro ⟨k, hP, h0⟩
    obtain ⟨c, hc⟩ := Option.isSome_iff_exists.mp ((h.1 k).mpr hP)
    have hcount := h.2 k c hc
    refine ⟨k, ?_⟩
    rw [h0] at hcount
    rw [hc, UInt32.toNat_inj.mp (hcount.trans UInt32.toNat_zero.symm)]

/-- When the other tuples are in no document, reading zero for them gives all counts. A tuple
without a counter is in no document. -/
theorem CountsDocs.getD {W : Type} [LemTuple W] [DecidableEq W] {windows : Phrase → List W}
    {lems : List (List UInt32)} {docs : List (List Phrase)} {m : FlatHashMap W UInt32}
    (h : CountsDocs windows lems docs (fun k => 0 < docCount windows lems docs k) m) (k : W) :
    ((m.lookup k).getD 0).toNat = docCount windows lems docs k := by
  cases hk : m.lookup k with
  | none =>
      -- A key without a counter is in no document.
      have hnone : ¬ 0 < docCount windows lems docs k := fun hpos => by
        have hsome := (h.1 k).mpr hpos
        rw [hk] at hsome
        cases hsome
      show (0 : UInt32).toNat = _
      rw [UInt32.toNat_zero]
      omega
  | some c => exact h.2 k c hk

/-- The recorded tuples start at zero and end at their document counts, which fit `u32`. -/
theorem CountsDocs.of_recorded {W R : Type} [LemTuple W] [DecidableEq W]
    {windows : Phrase → List W} {lems : List (List UInt32)} {docs : List (List Phrase)}
    (h : Documents lems docs) {extended : RecordFile (LemGroup W R)}
    {m₀ m : FlatHashMap W UInt32}
    (h₀ : ∀ k, m₀.lookup k = if k ∈ recorded extended then some 0 else none)
    (hm : ∀ k, m.lookup k
      = (m₀.lookup k).map (fun c => c + UInt32.ofNat (docCount windows lems docs k))) :
    CountsDocs windows lems docs (· ∈ recorded extended) m := by
  refine ⟨fun k => ?_, fun k c hc => ?_⟩
  · rw [hm, h₀]
    by_cases hk : k ∈ recorded extended
    · simp [hk]
    · simp [hk]
  · rw [hm, h₀] at hc
    by_cases hk : k ∈ recorded extended
    · rw [if_pos hk] at hc
      rw [← Option.some.inj hc]
      show (0 + UInt32.ofNat (docCount windows lems docs k)).toNat = _
      rw [UInt32.zero_add, h.toNat_docCount]
    · rw [if_neg hk] at hc
      cases hc

section Corpus
variable {R : Type} [Double R] {lemsFile : RecordFile PhraseMsg} {docs : List (List Phrase)}

/-- The counters of `bifreq_stat`, with the check behind the run. The lemmas have no counter
before it, so exactly the counted ones get one, and each recorded pair has its own from the start.
-/
theorem bifreqCounts_spec (std : Stdlib) (h : Documents (tableOf lemsFile) docs)
    (extended2 : RecordFile (Lem2Group R)) :
    ∃ st : BifreqState,
      CountsDocs id (tableOf lemsFile) docs
        (fun l => 0 < docCount id (tableOf lemsFile) docs l) st.uni ∧
      CountsDocs pairs (tableOf lemsFile) docs (· ∈ recorded extended2) st.bi ∧
      bifreqCounts std lemsFile extended2 (corpusOf docs)
        = (checkCounts std "bi: doc count is zero" st.bi).map (fun _ => st) := by
  obtain ⟨bi₀, hload, hbi₀⟩ := loadExtended_spec extended2
  obtain ⟨st, hrun, hst⟩ := bifreq_run (tableOf lemsFile) std docs ∅ bi₀ h.phrases
    h.covered
  refine ⟨st, ⟨fun l => ?_, fun l c hc => ?_⟩, CountsDocs.of_recorded h hbi₀ hst.bi, ?_⟩
  · -- The lemmas have no counter before the run, so exactly the counted ones get one.
    rw [hst.uni, AList.lookup_empty]
    by_cases h0 : docCount id (tableOf lemsFile) docs l = 0
    · simp [h0]
    · simp [h0]
      omega
  · rw [hst.uni, AList.lookup_empty] at hc
    by_cases h0 : docCount id (tableOf lemsFile) docs l = 0
    · rw [if_pos h0] at hc
      cases hc
    · rw [if_neg h0] at hc
      rw [← Option.some.inj hc]
      show (0 + UInt32.ofNat (docCount id (tableOf lemsFile) docs l)).toNat = _
      rw [UInt32.zero_add, h.toNat_docCount]
  · unfold bifreqCounts
    simp only [loadLems_eq, hload, hrun]
    cases checkCounts std "bi: doc count is zero" st.bi with
    | error e => rfl
    | ok u => rfl

/-- The counters of `trifreq_stat`, which are saved when the check behind the run finds none at
zero. -/
theorem trifreqStat_spec (std : Stdlib) (h : Documents (tableOf lemsFile) docs)
    (extended3 : RecordFile (Lem3Group R)) :
    ∃ tri : FlatHashMap Iddd UInt32,
      CountsDocs triples (tableOf lemsFile) docs (· ∈ recorded extended3) tri ∧
      trifreqStat std lemsFile extended3 (corpusOf docs)
        = (checkCounts std "tri: doc count is zero" tri).map (fun _ => saveGrams std tri) := by
  obtain ⟨tri₀, hload, htri₀⟩ := loadExtended_spec extended3
  obtain ⟨st, hrun, hst⟩ := trifreq_run (tableOf lemsFile) std docs tri₀ h.phrases
    h.covered
  refine ⟨st.tri, CountsDocs.of_recorded h htri₀ hst, ?_⟩
  unfold trifreqStat
  simp only [loadLems_eq, hload, hrun]
  cases checkCounts std "tri: doc count is zero" st.tri with
  | error e => rfl
  | ok u => rfl

end Corpus

/-! ### The order of the counts -/

section Order
variable {lems : List (List UInt32)}

/-- A tuple that comes with another one in every document has at most its count. -/
theorem docCount_mono {V W : Type} [LemTuple V] [LemTuple W] [DecidableEq V] [DecidableEq W]
    {v : Phrase → List V} {w : Phrase → List W} {k : V} {k' : W}
    (h : ∀ doc, k ∈ docKeys v lems doc → k' ∈ docKeys w lems doc) (docs : List (List Phrase)) :
    docCount v lems docs k ≤ docCount w lems docs k' :=
  List.countP_mono_left (fun doc _ hk => decide_eq_true (h doc (of_decide_eq_true hk)))

/-- A pair is in no more documents than its first lemma. -/
theorem docCount_pairs_le (docs : List (List Phrase)) (p : Idd) :
    docCount pairs lems docs p ≤ docCount id lems docs p.1 := by
  refine docCount_mono (fun doc hp => ?_) docs
  obtain ⟨ids, hids, q, hq, hmem⟩ := (mem_docKeys pairs lems doc p).mp hp
  have hfst := ((mem_combos_prod lems q p).mp hmem).1
  exact (mem_docKeys id lems doc p.1).mpr ⟨ids, hids, q.1, fst_mem_of_mem_pairs hq, hfst⟩

/-- A triple is in no more documents than the pair it begins with. Each phrase with the triple has
the pair. -/
theorem docCount_triples_le (docs : List (List Phrase)) (t : Iddd) :
    docCount triples lems docs t ≤ docCount pairs lems docs (t.1, t.2.1) := by
  refine docCount_mono (fun doc ht => ?_) docs
  obtain ⟨ids, hids, q, hq, hmem⟩ := (mem_docKeys triples lems doc t).mp ht
  -- The first two words of a triple are a pair of the same phrase.
  have hpair : (q.1, q.2.1) ∈ pairs ids := init_mem_of_mem_triples hq
  obtain ⟨h1, h23⟩ := (mem_combos_prod lems q t).mp hmem
  have h2 := ((mem_combos_prod lems q.2 t.2).mp h23).1
  exact (mem_docKeys pairs lems doc _).mpr
    ⟨ids, hids, (q.1, q.2.1), hpair, (mem_combos_prod lems _ _).mpr ⟨h1, h2⟩⟩

end Order

/-! ### The results -/

section Results
variable {R : Type} [Double R] {lemsFile : RecordFile PhraseMsg} {docs : List (List Phrase)}

/-- The records are the tuples of `extended`, in ascending order, with their document
counts. -/
abbrev FreqTable {K : Type} [LemTuple K] [DecidableEq K] (windows : Phrase → List K)
    (lems : List (List UInt32)) (docs : List (List Phrase))
    (extended : RecordFile (LemGroup K R)) (freq : RecordFile (Gram K)) : Prop :=
  IsTable Gram.ids (fun g => g.weight.toNat) (· ∈ recorded extended)
    (docCount windows lems docs) freq.msgs

/-- The messages are those of `lemid.bin`, with the document counts of their lemmas. -/
def LemFreqs (lems : List (List UInt32)) (docs : List (List Phrase)) (lemid : RecordFile LemId)
    (lemfreq : RecordFile LemFreq) : Prop :=
  lemfreq.msgs.map (fun m => (m.str, m.id, m.weight.toNat))
    = lemid.msgs.map (fun m => (m.str, m.id, docCount id lems docs m.id))

/-- What `bifreq_stat` writes when it does not throw: the table of the recorded pairs, and the
lemmas of `lemid.bin` with their counts. -/
theorem bifreqStat_ok (std : Stdlib) (h : Documents (tableOf lemsFile) docs)
    {lemid : RecordFile LemId} {extended2 : RecordFile (Lem2Group R)}
    {bifreq : RecordFile Bigram} {lemfreq : RecordFile LemFreq}
    (hok : bifreqStat std lemsFile lemid extended2 (corpusOf docs) = .ok (bifreq, lemfreq)) :
    FreqTable pairs (tableOf lemsFile) docs extended2 bifreq ∧
      LemFreqs (tableOf lemsFile) docs lemid lemfreq := by
  obtain ⟨st, huni, hbi, hcounts⟩ := bifreqCounts_spec std h extended2
  unfold bifreqStat at hok
  rw [hcounts] at hok
  cases hcheck : checkCounts std "bi: doc count is zero" st.bi with
  | error e =>
      rw [hcheck] at hok
      cases hok
  | ok u =>
      rw [hcheck] at hok
      cases hmerge : mergeUnifreq st.uni lemid with
      | error e =>
          simp only [Except.map, hmerge] at hok
          cases hok
      | ok out =>
          simp only [Except.map, hmerge] at hok
          cases hok
          refine ⟨saveGrams_table std st.bi UInt32.toNat hbi.1 hbi.2, ?_⟩
          -- The messages follow `lemid.bin`, and a lemma without a counter would have thrown.
          have hmsgs := mergeUnifreq_ok hmerge
          have hmap := congrArg (List.map (fun m : Bytes × UInt32 × Option UInt32 =>
            (m.1, m.2.1, (m.2.2.getD 0).toNat))) hmsgs
          rw [List.map_map, List.map_map] at hmap
          refine hmap.trans (List.map_congr_left (fun m _ => ?_))
          show (m.str, m.id, ((st.uni.lookup m.id).getD 0).toNat) = _
          rw [huni.getD]

/-- `bifreq_stat` throws exactly when a recorded pair is in a multiple of `2 ^ 32` documents, zero
included. -/
theorem bifreqStat_throws_iff (std : Stdlib) (h : Documents (tableOf lemsFile) docs)
    (lemid : RecordFile LemId) (extended2 : RecordFile (Lem2Group R)) :
    bifreqStat std lemsFile lemid extended2 (corpusOf docs)
        = .error (.runtime "bi: doc count is zero") ↔
      ∃ p ∈ recorded extended2, docCount pairs (tableOf lemsFile) docs p = 0 := by
  obtain ⟨st, -, hbi, hcounts⟩ := bifreqCounts_spec std h extended2
  rw [← hbi.zero_iff]
  unfold bifreqStat
  rw [hcounts]
  constructor
  · intro herr
    -- Without a zero the check passes, and what is left throws another text or none.
    by_contra hz
    rw [checkCounts_ok std _ hz] at herr
    cases hmerge : mergeUnifreq st.uni lemid with
    | error e =>
        simp only [Except.map, hmerge] at herr
        exact mergeUnifreq_ne_biZero st.uni lemid (by rw [hmerge, Except.error.inj herr])
    | ok out =>
        simp only [Except.map, hmerge] at herr
        cases herr
  · intro hz
    rw [checkCounts_error std _ hz]
    rfl

/-- What `trifreq_stat` writes when it does not throw: the counts, as the check has found no zero
among them. -/
theorem trifreqStat_ok (std : Stdlib) (h : Documents (tableOf lemsFile) docs)
    {extended3 : RecordFile (Lem3Group R)} {trifreq : RecordFile Trigram}
    (hok : trifreqStat std lemsFile extended3 (corpusOf docs) = .ok trifreq) :
    FreqTable triples (tableOf lemsFile) docs extended3 trifreq := by
  obtain ⟨tri, htri, hstat⟩ := trifreqStat_spec std h extended3
  rw [hstat] at hok
  cases hcheck : checkCounts std "tri: doc count is zero" tri with
  | error e =>
      rw [hcheck] at hok
      cases hok
  | ok u =>
      rw [hcheck] at hok
      cases hok
      exact saveGrams_table std tri UInt32.toNat htri.1 htri.2

/-- `trifreq_stat` throws exactly when a recorded triple is in no document, since the check looks
at the counters of the recorded triples only. -/
theorem trifreqStat_throws_iff (std : Stdlib) (h : Documents (tableOf lemsFile) docs)
    (extended3 : RecordFile (Lem3Group R)) :
    trifreqStat std lemsFile extended3 (corpusOf docs)
        = .error (.runtime "tri: doc count is zero") ↔
      ∃ t ∈ recorded extended3, docCount triples (tableOf lemsFile) docs t = 0 := by
  obtain ⟨tri, htri, hstat⟩ := trifreqStat_spec std h extended3
  rw [← htri.zero_iff, hstat]
  constructor
  · intro herr
    by_contra hz
    rw [checkCounts_ok std _ hz] at herr
    cases herr
  · intro hz
    rw [checkCounts_error std _ hz]
    rfl

/-- Document frequencies are exact. `bifreq_stat` counts for each lemma, and for each pair of
`extended2.bin`, the documents that have it, `trifreq_stat` does so for the triples of
`extended3.bin`, and the counts decrease from the documents to the triples. -/
theorem docFreqs_exact (std : Stdlib) (h : Documents (tableOf lemsFile) docs)
    (lemid : RecordFile LemId) (extended2 : RecordFile (Lem2Group R))
    (extended3 : RecordFile (Lem3Group R)) :
    (∀ st, bifreqCounts std lemsFile extended2 (corpusOf docs) = .ok st →
      ∀ l, counter st.uni l = docCount id (tableOf lemsFile) docs l) ∧
    (∀ bifreq lemfreq,
      bifreqStat std lemsFile lemid extended2 (corpusOf docs) = .ok (bifreq, lemfreq) →
        FreqTable pairs (tableOf lemsFile) docs extended2 bifreq ∧
          LemFreqs (tableOf lemsFile) docs lemid lemfreq) ∧
    (bifreqStat std lemsFile lemid extended2 (corpusOf docs)
        = .error (.runtime "bi: doc count is zero") ↔
      ∃ p ∈ recorded extended2, docCount pairs (tableOf lemsFile) docs p = 0) ∧
    (∀ trifreq, trifreqStat std lemsFile extended3 (corpusOf docs) = .ok trifreq →
      FreqTable triples (tableOf lemsFile) docs extended3 trifreq) ∧
    (trifreqStat std lemsFile extended3 (corpusOf docs)
        = .error (.runtime "tri: doc count is zero") ↔
      ∃ t ∈ recorded extended3, docCount triples (tableOf lemsFile) docs t = 0) ∧
    ∀ t : Iddd,
      docCount triples (tableOf lemsFile) docs t
          ≤ docCount pairs (tableOf lemsFile) docs (t.1, t.2.1) ∧
        docCount pairs (tableOf lemsFile) docs (t.1, t.2.1)
          ≤ docCount id (tableOf lemsFile) docs t.1 ∧
        docCount id (tableOf lemsFile) docs t.1 ≤ docs.length := by
  refine ⟨fun st hst l => ?_, fun _ _ hok => bifreqStat_ok std h hok,
    bifreqStat_throws_iff std h lemid extended2, fun _ hok => trifreqStat_ok std h hok,
    trifreqStat_throws_iff std h extended3,
    fun t => ⟨docCount_triples_le docs t, docCount_pairs_le docs (t.1, t.2.1),
      docCount_le_length id (tableOf lemsFile) docs t.1⟩⟩
  obtain ⟨st', huni, -, hcounts⟩ := bifreqCounts_spec std h extended2
  rw [hcounts] at hst
  cases hcheck : checkCounts std "bi: doc count is zero" st'.bi with
  | error e =>
      rw [hcheck] at hst
      cases hst
  | ok u =>
      rw [hcheck] at hst
      cases hst
      exact huni.getD l

/-- One document that says its phrase twice. -/
def echoDocs : List (List Phrase) := [[[1, 2], [1, 2]]]

/-- Both words have the lemma `1`, and the second one has the lemma `2` too. -/
def echoLems : RecordFile PhraseMsg := { total := 2, msgs := [⟨[1]⟩, ⟨[1, 2]⟩] }

/-- The pair `(1, 2)` is counted once in its document, and the pair `(2, 2)` raises the
exception. -/
theorem docFreqs_exact_echo :
    bifreqStat (R := ℚ) Stdlib.sorting echoLems { total := 2, msgs := [⟨[97], 1⟩, ⟨[98], 2⟩] }
        { total := 0, msgs := [⟨(1, 2), 1, []⟩, ⟨(2, 2), 1, []⟩] } (corpusOf echoDocs)
      = .error (.runtime "bi: doc count is zero") ∧
    bifreqStat (R := ℚ) Stdlib.sorting echoLems { total := 2, msgs := [⟨[97], 1⟩, ⟨[98], 2⟩] }
        { total := 0, msgs := [⟨(1, 2), 1, []⟩] } (corpusOf echoDocs)
      ≠ .error (.runtime "bi: doc count is zero") ∧
    docCount pairs (tableOf echoLems) echoDocs (1, 2) = 1 := by
  have hwords : ∀ w ∈ ([1, 2] : Phrase), Covered (tableOf echoLems) w := by
    intro w hw
    rw [covered_word_iff]
    rcases List.mem_pair.mp hw with rfl | rfl <;> decide
  have hdocs : Documents (tableOf echoLems) echoDocs := by
    refine ⟨Nat.one_lt_two_pow (by decide), by decide, fun doc hdoc ids hids w hw => hwords w ?_⟩
    rw [List.mem_singleton.mp hdoc] at hids
    rcases List.mem_pair.mp hids with rfl | rfl
    · exact hw
    · exact hw
  have hexact := fun extended2 : RecordFile (Lem2Group ℚ) =>
    (docFreqs_exact Stdlib.sorting hdocs { total := 2, msgs := [⟨[97], 1⟩, ⟨[98], 2⟩] }
      extended2 { total := 0, msgs := [] }).2.2.1
  refine ⟨(hexact _).mpr ⟨(2, 2), by decide, by decide⟩, fun herr => ?_, by decide⟩
  obtain ⟨p, hp, h0⟩ := (hexact _).mp herr
  rw [List.mem_singleton.mp hp] at h0
  exact absurd h0 (by decide)

end Results

end Colloc.Proofs

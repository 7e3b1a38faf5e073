import Colloc.Spec.GroupLem

/-!
# `Colloc.Spec.Freq`: document frequencies and the filters by them

`bifreq_stat` and `trifreq_stat` read the corpus again. In each document they collect the
lemmas, and the recorded pairs or triples of lemmas, in sets, and at its end `increment`
adds one to the counter of each element and clears the set. The recorded pairs and triples
are those of the group files.

`filter_bilems` and `filter_trilems` keep the groups whose document frequency and weight are
above the thresholds, the greatest weight first.
-/

set_option autoImplicit false

namespace Colloc.Spec

open Colloc.Lib

/-- `increment`: one more for each element of the set, which is cleared after this. -/
def increment {K : Type} [DecidableEq K] (std : Stdlib) (m : FlatHashMap K UInt32)
    (elems : FlatHashSet K) : FlatHashMap K UInt32 :=
  (elems.iter std).foldl countKey m

/-! ### `bifreq_stat` -/

/-- The sets of one document. -/
structure DocSets where
  uniset : FlatHashSet UInt32
  biset : FlatHashSet Idd

/-- The innermost loop of `bifreq_stat`, over the lemmas of the word before. -/
def bifreqPrev (bi : FlatHashMap Idd UInt32) (rid : UInt32) (biset : FlatHashSet Idd) :
    List UInt32 → FlatHashSet Idd
  | [] => biset
  | lid :: lids =>
      let p := (lid, rid)
      bifreqPrev bi rid (if (bi.lookup p).isSome then biset.insert p else biset) lids

/-- The loop over the lemmas `rids` of a word. `prev` is the word before, none at the
beginning of the phrase. -/
def bifreqWord (lems : List (List UInt32)) (bi : FlatHashMap Idd UInt32)
    (prev : Option UInt32) (sets : DocSets) : List UInt32 → Except Error DocSets
  | [] => .ok sets
  | rid :: rids =>
      let sets := { sets with uniset := sets.uniset.insert rid }
      match prev with
      | none => bifreqWord lems bi prev sets rids
      | some word =>
          match lemsAt lems word with
          | .error e => .error e
          | .ok lids =>
              bifreqWord lems bi prev
                { sets with biset := bifreqPrev bi rid sets.biset lids } rids

/-- The loop over the ids of a phrase. -/
def bifreqIds (lems : List (List UInt32)) (bi : FlatHashMap Idd UInt32) :
    Option UInt32 → DocSets → Phrase → Except Error DocSets
  | _, sets, [] => .ok sets
  | prev, sets, it :: ids =>
      match lemsAt lems it with
      | .error e => .error e
      | .ok rids =>
          match bifreqWord lems bi prev sets rids with
          | .error e => .error e
          | .ok sets => bifreqIds lems bi (some it) sets ids

/-- The locals of `bifreq_stat`. -/
structure BifreqState where
  uni : FlatHashMap UInt32 UInt32
  bi : FlatHashMap Idd UInt32
  sets : DocSets

/-- The lambda `fn` of `bifreq_stat` on one phrase. -/
def bifreqPhrase (std : Stdlib) (lems : List (List UInt32)) (st : BifreqState)
    (ids : Phrase) : Except Error BifreqState :=
  let st :=
    -- The end of a document. The sets of a document without this mark are not counted.
    if ids.length = 0 then
      { uni := increment std st.uni st.sets.uniset
        bi := increment std st.bi st.sets.biset
        sets := { uniset := ∅, biset := ∅ } }
    else st
  match bifreqIds lems st.bi none st.sets ids with
  | .error e => .error e
  | .ok sets => .ok { st with sets := sets }

/-- `check validity`: a counter of zero throws. -/
def checkCounts {K : Type} (std : Stdlib) (what : String) (m : FlatHashMap K UInt32) :
    Except Error Unit :=
  if (m.iter std).any (fun el => el.2 == 0) then .error (.runtime what) else .ok ()

/-- `fnf` of `bifreq_stat`, and `load_extended_trilems`: the recorded lemma ids, each with
the count `0`. -/
def loadExtended {K R : Type} [IdTuple K] [DecidableEq K] [Double R]
    (extended : RecordFile (LemGroup K R)) : Except Error (FlatHashMap K UInt32) :=
  readApply extended (fun m lg => .ok (m.tryEmplace lg.lids 0)) ∅

/-- The lambda `fn` of `merge_unifreq`, with the unchecked `find`. -/
def mergeLemId (uni : FlatHashMap UInt32 UInt32) (msgs : List LemFreq) (m : LemId) :
    Except Error (List LemFreq) :=
  match uni.deref m.id "it->second" with
  | .error e => .error e
  | .ok weight => .ok (msgs ++ [{ str := m.str, id := m.id, weight := weight }])

/-- `merge_unifreq`: `lemfreq.bin`, from the counters of the lemmas and `lemid.bin`. -/
def mergeUnifreq (uni : FlatHashMap UInt32 UInt32) (lemid : RecordFile LemId) :
    Except Error (RecordFile LemFreq) :=
  -- Every lemma of `lemid.bin` must have a counter.
  if uni.size ≠ readTotal lemid then
    .error (.runtime "uni size does't match lemid size")
  else
    match readApply lemid (mergeLemId uni) [] with
    | .error e => .error e
    | .ok msgs => .ok { total := uni.size, msgs := msgs }

/-- The counters of `bifreq_stat` after the whole corpus, checked. -/
def bifreqCounts {R : Type} [Double R] (std : Stdlib) (lemsFile : RecordFile PhraseMsg)
    (extended2 : RecordFile (Lem2Group R)) (corpus : List Phrase) :
    Except Error BifreqState :=
  match loadLems lemsFile with
  | .error e => .error e
  | .ok lems =>
      match loadExtended extended2 with
      | .error e => .error e
      | .ok bi =>
          match corpus.foldlM (bifreqPhrase std lems)
              { uni := ∅, bi := bi, sets := { uniset := ∅, biset := ∅ } } with
          | .error e => .error e
          | .ok st =>
              match checkCounts std "bi: doc count is zero" st.bi with
              | .error e => .error e
              | .ok () => .ok st

/-- `bifreq_stat`: `bifreq.bin` and `lemfreq.bin`. -/
def bifreqStat {R : Type} [Double R] (std : Stdlib) (lems : RecordFile PhraseMsg)
    (lemid : RecordFile LemId) (extended2 : RecordFile (Lem2Group R)) (corpus : List Phrase) :
    Except Error (RecordFile Bigram × RecordFile LemFreq) :=
  match bifreqCounts std lems extended2 corpus with
  | .error e => .error e
  | .ok st =>
      match mergeUnifreq st.uni lemid with
      | .error e => .error e
      | .ok lemfreq => .ok (saveGrams std st.bi, lemfreq)

/-! ### `trifreq_stat` -/

/-- The innermost loop of `trifreq_stat`, over the lemmas of the third word. -/
def trifreqRight (tri : FlatHashMap Iddd UInt32) (lid cid : UInt32)
    (triset : FlatHashSet Iddd) : List UInt32 → FlatHashSet Iddd
  | [] => triset
  | rid :: rids =>
      let t := (lid, cid, rid)
      trifreqRight tri lid cid (if (tri.lookup t).isSome then triset.insert t else triset) rids

/-- The loop over the lemmas `cids` of the second word. -/
def trifreqCenter (lems : List (List UInt32)) (tri : FlatHashMap Iddd UInt32) (rit lid : UInt32)
    (triset : FlatHashSet Iddd) : List UInt32 → Except Error (FlatHashSet Iddd)
  | [] => .ok triset
  | cid :: cids =>
      match lemsAt lems rit with
      | .error e => .error e
      | .ok rids =>
          trifreqCenter lems tri rit lid (trifreqRight tri lid cid triset rids) cids

/-- The loop over the lemmas `lids` of the first word. -/
def trifreqLeft (lems : List (List UInt32)) (tri : FlatHashMap Iddd UInt32) (cit rit : UInt32)
    (triset : FlatHashSet Iddd) : List UInt32 → Except Error (FlatHashSet Iddd)
  | [] => .ok triset
  | lid :: lids =>
      match lemsAt lems cit with
      | .error e => .error e
      | .ok cids =>
          match trifreqCenter lems tri rit lid triset cids with
          | .error e => .error e
          | .ok triset => trifreqLeft lems tri cit rit triset lids

/-- The loop over three adjacent ids. -/
def trifreqIds (lems : List (List UInt32)) (tri : FlatHashMap Iddd UInt32)
    (triset : FlatHashSet Iddd) : Phrase → Except Error (FlatHashSet Iddd)
  | lit :: cit :: rit :: ids =>
      match lemsAt lems lit with
      | .error e => .error e
      | .ok lids =>
          match trifreqLeft lems tri cit rit triset lids with
          | .error e => .error e
          | .ok triset => trifreqIds lems tri triset (cit :: rit :: ids)
  -- A phrase of at most two words has no triple.
  | _ => .ok triset

/-- The locals of `trifreq_stat`. -/
structure TrifreqState where
  tri : FlatHashMap Iddd UInt32
  triset : FlatHashSet Iddd

/-- The lambda `fn` of `trifreq_stat` on one phrase. -/
def trifreqPhrase (std : Stdlib) (lems : List (List UInt32)) (st : TrifreqState)
    (ids : Phrase) : Except Error TrifreqState :=
  let st : TrifreqState :=
    if ids.length = 0 then { tri := increment std st.tri st.triset, triset := ∅ } else st
  match trifreqIds lems st.tri st.triset ids with
  | .error e => .error e
  | .ok triset => .ok { st with triset := triset }

/-- `trifreq_stat`: `trifreq.bin`. -/
def trifreqStat {R : Type} [Double R] (std : Stdlib) (lemsFile : RecordFile PhraseMsg)
    (extended3 : RecordFile (Lem3Group R)) (corpus : List Phrase) :
    Except Error (RecordFile Trigram) :=
  match loadLems lemsFile with
  | .error e => .error e
  | .ok lems =>
      match loadExtended extended3 with
      | .error e => .error e
      | .ok tri =>
          match corpus.foldlM (trifreqPhrase std lems) { tri := tri, triset := ∅ } with
          | .error e => .error e
          | .ok st =>
              match checkCounts std "tri: doc count is zero" st.tri with
              | .error e => .error e
              | .ok () => .ok (saveGrams std st.tri)

/-! ### The filters -/

section Filter
variable {K R : Type} [IdTuple K] [DecidableEq K] [Double R]

/-- The map `freqs` of `filter_bilems` and `filter_trilems`. -/
def loadFreqs (file : RecordFile (Gram K)) : Except Error (FlatHashMap K UInt32) :=
  readApply file (fun freqs m => .ok (freqs.tryEmplace m.ids m.weight)) ∅

/-- The test of the filters, with the unchecked `find`. -/
def passes (freqs : FlatHashMap K UInt32) (th1 : UInt32) (th2 : R) (lg : LemGroup K R) :
    Except Error Bool :=
  -- `fit` is dereferenced without a test for `end()`.
  match freqs.deref lg.lids "fit->second" with
  | .error e => .error e
  | .ok freq => .ok (decide (freq > th1) && Double.less th2 lg.weight)

/-- Append the group when it passes. -/
def keepGroup (freqs : FlatHashMap K UInt32) (th1 : UInt32) (th2 : R)
    (written : List (LemGroup K R)) (lg : LemGroup K R) : Except Error (List (LemGroup K R)) :=
  match passes freqs th1 th2 lg with
  | .error e => .error e
  | .ok keep => .ok (if keep then written ++ [lg] else written)

end Filter

/-- `filter_bilems`: sort on disk, then filter. -/
def filterBilems {R : Type} [Double R] (std : Stdlib) (bifreq : RecordFile Bigram)
    (extended2 : RecordFile (Lem2Group R)) (th1 : UInt32) (th2 : R) :
    Except Error (RecordFile (Lem2Group R)) :=
  match loadFreqs bifreq with
  | .error e => .error e
  | .ok freqs =>
      match (ExternalSorter.new 20000000).sortUnstable std lemGroupLess
          (IFStreamer.open extended2) with
      | .error e => .error e
      | .ok merger =>
          match merger.forEach std lemGroupLess
              (fun written lg =>
                (keepGroup freqs th1 th2 written lg).map (fun written => (written, lg))) [] with
          | .error e => .error e
          | .ok msgs => .ok { total := 0, msgs := msgs }

/-- `filter_trilems`: filter, then sort in memory. -/
def filterTrilems {R : Type} [Double R] (std : Stdlib) (trifreq : RecordFile Trigram)
    (extended3 : RecordFile (Lem3Group R)) (th1 : UInt32) (th2 : R) :
    Except Error (RecordFile (Lem3Group R)) :=
  match loadFreqs trifreq with
  | .error e => .error e
  | .ok freqs =>
      match readApply extended3 (keepGroup freqs th1 th2) [] with
      | .error e => .error e
      | .ok v => .ok { total := 0, msgs := std.sort (fun l r => lemGroupLess r l) v }

end Colloc.Spec

import Colloc.Spec.GramStat
import Colloc.Spec.Lemmer

/-!
# `Colloc.Spec.GroupLem`: from words to lemmas

`group_lem2` and `group_lem3` replace the words of each counted pair or triple by their
lemmas, all combinations of them, sort the result by the lemma ids, and fold the records
with equal lemma ids into one group with its cases and its weight.

The two functions differ in the number of ids and in the formula of the weight. `LemTuple`
is what they do with a tuple of word ids: for `Idd` the loops over the lemmas of two words,
for `Iddd` over those of three. `groupLemBy` is the shared part, over `emit`, which makes
the record of a finished group; `emit2` and `emit3` are those of the source.
-/

set_option autoImplicit false

namespace Colloc.Spec

open Colloc.Lib

/-- A tuple of word ids and its lemmas. -/
class LemTuple (K : Type) extends IdTuple K where
  /-- The nested loops `for (auto lid1 : lems.at(id1 - 1)) for (auto lid2 : ...)`. -/
  lemTuples : List (List UInt32) → K → Except Error (List K)
  /-- The product of the sizes of the lemma lists. -/
  times : List (List UInt32) → K → Except Error Nat

instance : LemTuple UInt32 where
  lemTuples lems id := lemsAt lems id
  times lems id :=
    match lemsAt lems id with
    | .error e => .error e
    | .ok lids => .ok lids.length

instance {A B : Type} [LemTuple A] [LemTuple B] : LemTuple (A × B) where
  lemTuples lems ids :=
    match LemTuple.lemTuples lems ids.1 with
    | .error e => .error e
    | .ok prev =>
        match LemTuple.lemTuples lems ids.2 with
        | .error e => .error e
        | .ok cur => .ok (prev.flatMap (fun lid1 => cur.map (fun lid2 => (lid1, lid2))))
  times lems ids :=
    match LemTuple.times lems ids.1 with
    | .error e => .error e
    | .ok prev =>
        match LemTuple.times lems ids.2 with
        | .error e => .error e
        | .ok cur => .ok (prev * cur)

section Extend
variable {K : Type} [LemTuple K] (std : Stdlib)

/-- The lambda `fn` of `extend_bigrams` and `extend_trigrams`. -/
def extendGram (lems : List (List UInt32)) (gram : Gram K) :
    Except Error (List (LemAndWords K)) :=
  match LemTuple.lemTuples lems gram.ids with
  | .error e => .error e
  | .ok lids => .ok (lids.map (fun lid => { lids := lid, wids := gram.ids, count := gram.weight }))

/-- `extend_bigrams` and `extend_trigrams`, with parts of `maxElems` messages. -/
def extendGrams (maxElems : Nat) (grams : RecordFile (Gram K)) (lems : List (List UInt32)) :
    Except Error (KMerge (LemAndWords K)) :=
  (ExternalSorter.new maxElems).sortUnstable std lemAndWordsMore
    (Transformer.new grams (extendGram lems))

end Extend

section Weights
variable {R : Type} [Double R]

/-- The inner loop of `build_lem_weights`. -/
def addWeight (w : R) (lidW : FlatHashMap UInt32 R) (lid : UInt32) : FlatHashMap UInt32 R :=
  lidW.insert lid ((lidW.lookup lid).getD 0 + w)

/-- The lambda `fn` of `build_lem_weights`. -/
def lemWeightsWord (lems : List (List UInt32)) (lidW : FlatHashMap UInt32 R) (m : Unigram) :
    Except Error (FlatHashMap UInt32 R) :=
  match lemsAt lems m.id with
  | .error e => .error e
  | .ok terms =>
      let w : R := (m.weight.toNat : R) / (terms.length : R)
      .ok (terms.foldl (addWeight w) lidW)

/-- `build_lem_weights`. -/
def buildLemWeights (uni : RecordFile Unigram) (lems : List (List UInt32)) :
    Except Error (FlatHashMap UInt32 R) :=
  readApply uni (lemWeightsWord lems) ∅

/-- `std::max(0., x)`. -/
def maxZero (x : R) : R := if Double.less 0 x then x else 0

end Weights

section Group
variable {K R A : Type} [LemTuple K] [DecidableEq K] [Double R]

/-- The locals of `group_lem2` and `group_lem3`, and the records written so far. -/
structure GroupState (K R A : Type) where
  msg : LemGroup K R
  weight : R
  written : List A

/-- The lambda `write_one`. `msg.Clear()` and `weight = 0` come after the early return. -/
def writeOne (emit : LemGroup K R → R → Except Error (Option A)) (st : GroupState K R A) :
    Except Error (GroupState K R A) :=
  if st.msg.cases.length = 0 then .ok st
  else
    match emit st.msg st.weight with
    | .error e => .error e
    | .ok out => .ok { msg := Message.empty, weight := 0, written := st.written ++ out.toList }

/-- The rest of the loop body: the case of the message `it`, its share of the weight, and
its lemma ids. -/
def addCase (lems : List (List UInt32)) (st : GroupState K R A) (it : LemAndWords K) :
    Except Error (GroupState K R A) :=
  match LemTuple.times lems it.wids with
  | .error e => .error e
  | .ok times =>
      .ok { st with
          msg := { st.msg with
            lids := it.lids
            cases := st.msg.cases ++ [{ wids := it.wids, count := it.count }] }
          weight := st.weight + (it.count.toNat : R) / (times : R) }

/-- The loop body of `group_lem2` and `group_lem3`. -/
def groupBody (emit : LemGroup K R → R → Except Error (Option A)) (lems : List (List UInt32))
    (st : GroupState K R A) (it : LemAndWords K) : Except Error (GroupState K R A) :=
  -- An empty `msg` has the ids `0`, and `writeOne` returns early on it.
  if st.msg.lids ≠ it.lids then
    match writeOne emit st with
    | .error e => .error e
    | .ok st => addCase lems st it
  else addCase lems st it

/-- The part that `group_lem2` and `group_lem3` share: the loop over the sorted records and
the last group. -/
def groupLemBy (std : Stdlib) (emit : LemGroup K R → R → Except Error (Option A))
    (lems : List (List UInt32)) (grams : RecordFile (Gram K)) : Except Error (List A) :=
  match extendGrams std 80000000 grams lems with
  | .error e => .error e
  | .ok merger =>
      match merger.forEach std lemAndWordsMore
          (fun st it => (groupBody emit lems st it).map (fun st => (st, it)))
          { msg := Message.empty, weight := 0, written := [] } with
      | .error e => .error e
      | .ok st =>
          match writeOne emit st with
          | .error e => .error e
          | .ok st => .ok st.written

end Group

section Emit
variable {R : Type} [Double R]

/-- The weight that `write_one` of `group_lem2` computes. `||` stops at the first zero. -/
def score2 (lidW : FlatHashMap UInt32 R) (threshold weight : R) (lids : Idd) :
    Except Error R :=
  match lidW.deref lids.1 "it1->second" with
  | .error e => .error e
  | .ok w1 =>
      if Double.isZero w1 then .ok 0
      else
        match lidW.deref lids.2 "it2->second" with
        | .error e => .error e
        | .ok w2 =>
            if Double.isZero w2 then .ok 0
            else
              -- `msg.weight` is computed from the left, with `lid_w.size()` as a `double`.
              let temp := (lidW.size : R) * (weight - threshold)
              .ok (maxZero ((temp / w1) / w2))

/-- The weight that `write_one` of `group_lem3` computes. -/
def score3 (lidW : FlatHashMap UInt32 R) (threshold weight : R) (lids : Iddd) :
    Except Error R :=
  match lidW.deref lids.1 "it1->second" with
  | .error e => .error e
  | .ok w1 =>
      if Double.isZero w1 then .ok 0
      else
        match lidW.deref lids.2.1 "it2->second" with
        | .error e => .error e
        | .ok w2 =>
            if Double.isZero w2 then .ok 0
            else
              match lidW.deref lids.2.2 "it3->second" with
              | .error e => .error e
              | .ok w3 =>
                  if Double.isZero w3 then .ok 0
                  else
                    let temp := (lidW.size : R) * (weight - threshold)
                    let temp := (temp / w1) / w2
                    .ok (maxZero ((lidW.size : R) * temp / w3))

/-- The record of a finished group: written when its weight is above zero. -/
def emitBy {K : Type} (score : R → K → Except Error R) (msg : LemGroup K R) (weight : R) :
    Except Error (Option (LemGroup K R)) :=
  match score weight msg.lids with
  | .error e => .error e
  | .ok score =>
      let msg := { msg with weight := score }
      .ok (if Double.less 0 msg.weight then some msg else none)

/-- `group_lem2` and `group_lem3`, over the formula of the weight. The header's total stays
`0`. -/
def groupLem {K : Type} [LemTuple K] [DecidableEq K] (std : Stdlib)
    (score : FlatHashMap UInt32 R → R → R → K → Except Error R) (lemsFile : RecordFile PhraseMsg)
    (uni : RecordFile Unigram) (grams : RecordFile (Gram K)) (threshold : R) :
    Except Error (RecordFile (LemGroup K R)) :=
  match loadLems lemsFile with
  | .error e => .error e
  | .ok lems =>
      match buildLemWeights (R := R) uni lems with
      | .error e => .error e
      | .ok lidW =>
          match groupLemBy std (emitBy (score lidW threshold)) lems grams with
          | .error e => .error e
          | .ok msgs => .ok { total := 0, msgs := msgs }

/-- `group_lem2`: `lems.bin`, `uni.bin` and `bi.bin` give `extended2.bin`. -/
def groupLem2 (std : Stdlib) (lems : RecordFile PhraseMsg) (uni : RecordFile Unigram)
    (bi : RecordFile Bigram) (threshold : R) : Except Error (RecordFile (Lem2Group R)) :=
  groupLem std score2 lems uni bi threshold

/-- `group_lem3`: `lems.bin`, `uni.bin` and `tri.bin` give `extended3.bin`. -/
def groupLem3 (std : Stdlib) (lems : RecordFile PhraseMsg) (uni : RecordFile Unigram)
    (tri : RecordFile Trigram) (threshold : R) : Except Error (RecordFile (Lem3Group R)) :=
  groupLem std score3 lems uni tri threshold

end Emit

end Colloc.Spec

import Colloc.Spec.Base
import Mathlib.Algebra.Order.Field.Rat

/-!
# `Colloc.Spec.Grams`: the messages of `grams.proto`

`Bigram` and `Trigram` differ in the number of ids, and so do `Lem2AndWords` and
`Lem3AndWords`, `Lem2Group` and `Lem3Group`. Each pair is one structure over the type of the
id tuple: `Idd` is `(id1, id2)` and `Iddd` is `(id1, id2, id3)`.

Parsing a message from a stream merges it into the target: a scalar field that is not the
default overwrites the target's, a default one is not on the wire and leaves the target's
value, a repeated field is appended. `Message.mergeFrom` is that merge. Into a fresh message it
gives the message back (`Message.empty_mergeFrom`), and a fresh message changes no target
(`Message.mergeFrom_empty`).

A weight of type `double` is a value of a type with the operations of the class `Double`.
-/

set_option autoImplicit false

namespace Colloc.Spec

open Colloc.Lib

/-- What the stages use of `double`: conversions, the arithmetic, `operator<`, the test
against `0`, and the test by which the wire format leaves out a default value. `isNumber`
tells the values other than NaN: `operator<` is a strict weak ordering of these, and a value
greater than zero is one of them. -/
class Double (R : Type) extends Zero R, NatCast R, Add R, Sub R, Mul R, Div R where
  less : R → R → Bool
  isZero : R → Bool
  isDefault : R → Bool
  isNumber : R → Prop
  eq_of_isDefault : ∀ x, isDefault x = true → x = 0
  isDefault_zero : isDefault 0 = true
  isNumber_of_pos : ∀ x, less 0 x = true → isNumber x
  less_strictWeakOn : StrictWeakOn less isNumber

/-- Exact rationals in the place of `double`. -/
instance : Double ℚ where
  less a b := decide (a < b)
  isZero a := decide (a = 0)
  isDefault a := decide (a = 0)
  isNumber _ := True
  eq_of_isDefault _ h := of_decide_eq_true h
  isDefault_zero := rfl
  isNumber_of_pos _ _ := trivial
  less_strictWeakOn := by
    refine ⟨fun a b _ _ hab => ?_, fun a b c _ _ _ hab hbc => ?_⟩
    · rw [decide_eq_true_eq] at hab
      rw [decide_eq_false_iff_not]
      exact Rat.not_lt.mpr (Rat.le_of_lt hab)
    · rw [decide_eq_false_iff_not, Rat.not_lt] at *
      exact Rat.le_trans hbc hab

/-- The ids of a record: listed in order, compared as a tuple, merged field by field. -/
class IdTuple (K : Type) extends StrictTotal K where
  toList : K → List UInt32
  zero : K
  merge : K → K → K
  zero_merge : ∀ k, merge zero k = k
  merge_zero : ∀ k, merge k zero = k

instance : IdTuple UInt32 where
  toList id := [id]
  zero := 0
  -- Proto3 does not write a scalar of value `0`, so such a field leaves the target alone.
  merge old new := if new = 0 then old else new
  zero_merge k := by
    by_cases h : k = 0
    · simp [h]
    · simp [h]
  merge_zero _ := rfl

instance {A B : Type} [IdTuple A] [IdTuple B] : IdTuple (A × B) where
  toList ids := IdTuple.toList ids.1 ++ IdTuple.toList ids.2
  zero := (IdTuple.zero, IdTuple.zero)
  merge old new := (IdTuple.merge old.1 new.1, IdTuple.merge old.2 new.2)
  zero_merge k := by rw [IdTuple.zero_merge, IdTuple.zero_merge]
  merge_zero k := by rw [IdTuple.merge_zero, IdTuple.merge_zero]

/-- `std::pair<u32, u32>`. -/
abbrev Idd := UInt32 × UInt32

/-- `std::tuple<u32, u32, u32>`. -/
abbrev Iddd := UInt32 × UInt32 × UInt32

/-- A protobuf message type. -/
class Message (M : Type) where
  empty : M
  mergeFrom : M → M → M
  empty_mergeFrom : ∀ m, mergeFrom empty m = m
  mergeFrom_empty : ∀ m, mergeFrom m empty = m

/-- `std::string` and the proto type `bytes`. -/
abbrev Bytes := List UInt8

/-- The merge of a singular `bytes` field. -/
def mergeBytes (old new : Bytes) : Bytes := if new = [] then old else new

/-- Merging into an empty field takes the bytes over. -/
theorem nil_mergeBytes (b : Bytes) : mergeBytes [] b = b := by
  unfold mergeBytes
  split
  · exact Eq.symm ‹b = []›
  · rfl

/-- `Unigram` and `LemFreq`: a string with its id and a count. -/
structure StrIdWeight where
  str : Bytes
  id : UInt32
  weight : UInt32
  deriving Repr, DecidableEq

/-- `message Unigram`. -/
abbrev Unigram := StrIdWeight

/-- `message LemFreq`. -/
abbrev LemFreq := StrIdWeight

instance : Message StrIdWeight where
  empty := ⟨[], 0, 0⟩
  mergeFrom old new :=
    ⟨mergeBytes old.str new.str, IdTuple.merge old.id new.id,
      IdTuple.merge old.weight new.weight⟩
  empty_mergeFrom m := by
    rw [nil_mergeBytes]
    exact congrArg₂ (StrIdWeight.mk m.str) (IdTuple.zero_merge m.id)
      (IdTuple.zero_merge m.weight)
  mergeFrom_empty _ := rfl

/-- `message LemId`. -/
structure LemId where
  str : Bytes
  id : UInt32
  deriving Repr, DecidableEq

instance : Message LemId where
  empty := ⟨[], 0⟩
  mergeFrom old new := ⟨mergeBytes old.str new.str, IdTuple.merge old.id new.id⟩
  empty_mergeFrom m := by
    rw [nil_mergeBytes]
    exact congrArg (LemId.mk m.str) (IdTuple.zero_merge m.id)
  mergeFrom_empty _ := rfl

/-- `message Phrase`: `repeated fixed32 ids`. -/
structure PhraseMsg where
  ids : List UInt32
  deriving Repr, DecidableEq

instance : Message PhraseMsg where
  empty := ⟨[]⟩
  mergeFrom old new := ⟨old.ids ++ new.ids⟩
  empty_mergeFrom m := by rw [List.nil_append]
  mergeFrom_empty m := by rw [List.append_nil]

/-- `message Bigram` and `message Trigram`. -/
@[ext] structure Gram (K : Type) where
  ids : K
  weight : UInt32
  deriving Repr, DecidableEq

/-- `message Bigram`: `id1`, `id2`, `weight`. -/
abbrev Bigram := Gram Idd

/-- `message Trigram`: `id1`, `id2`, `id3`, `weight`. -/
abbrev Trigram := Gram Iddd

instance {K : Type} [IdTuple K] : Message (Gram K) where
  empty := ⟨IdTuple.zero, 0⟩
  mergeFrom old new := ⟨IdTuple.merge old.ids new.ids, IdTuple.merge old.weight new.weight⟩
  empty_mergeFrom m :=
    congrArg₂ Gram.mk (IdTuple.zero_merge m.ids) (IdTuple.zero_merge m.weight)
  mergeFrom_empty m := congrArg (Gram.mk · m.weight) (IdTuple.merge_zero m.ids)

/-- `message Lem2AndWords` and `message Lem3AndWords`. -/
structure LemAndWords (K : Type) where
  lids : K
  wids : K
  count : UInt32
  deriving Repr, DecidableEq

/-- `message Lem2AndWords`: `lid1`, `lid2`, `wid1`, `wid2`, `count`. -/
abbrev Lem2AndWords := LemAndWords Idd

/-- `message Lem3AndWords`: three lemma ids, three word ids, `count`. -/
abbrev Lem3AndWords := LemAndWords Iddd

instance {K : Type} [IdTuple K] : Message (LemAndWords K) where
  empty := ⟨IdTuple.zero, IdTuple.zero, 0⟩
  mergeFrom old new :=
    ⟨IdTuple.merge old.lids new.lids, IdTuple.merge old.wids new.wids,
      IdTuple.merge old.count new.count⟩
  empty_mergeFrom m := by
    rw [IdTuple.zero_merge, IdTuple.zero_merge]
    exact congrArg (LemAndWords.mk m.lids m.wids) (IdTuple.zero_merge m.count)
  mergeFrom_empty m := by
    rw [IdTuple.merge_zero, IdTuple.merge_zero]
    rfl

/-- `message Case` of a group: the words and their count. -/
structure Case (K : Type) where
  wids : K
  count : UInt32
  deriving Repr, DecidableEq

/-- `message Lem2Group` and `message Lem3Group`. -/
structure LemGroup (K R : Type) where
  lids : K
  weight : R
  cases : List (Case K)
  deriving Repr, DecidableEq

/-- `message Lem2Group`: `lid1`, `lid2`, `weight`, `cases`. -/
abbrev Lem2Group (R : Type) := LemGroup Idd R

/-- `message Lem3Group`: `lid1`, `lid2`, `lid3`, `weight`, `cases`. -/
abbrev Lem3Group (R : Type) := LemGroup Iddd R

instance {K R : Type} [IdTuple K] [Double R] : Message (LemGroup K R) where
  empty := ⟨IdTuple.zero, 0, []⟩
  mergeFrom old new :=
    ⟨IdTuple.merge old.lids new.lids,
      if Double.isDefault new.weight then old.weight else new.weight,
      old.cases ++ new.cases⟩
  empty_mergeFrom m := by
    rw [IdTuple.zero_merge, List.nil_append]
    cases h : Double.isDefault m.weight with
    | false => rfl
    -- The default weight is not on the wire, and the empty message has it already.
    | true => rw [if_pos rfl, ← Double.eq_of_isDefault m.weight h]
  mergeFrom_empty m := by
    rw [IdTuple.merge_zero, List.append_nil, if_pos Double.isDefault_zero]

/-! ### `compare.hpp` -/

/-- `BigramMore` and `TrigramMore`. -/
def gramMore {K : Type} [IdTuple K] (l r : Gram K) : Bool := StrictTotal.less r.ids l.ids

/-- `BigramMore`: `(l.id1, l.id2) > (r.id1, r.id2)`. -/
abbrev bigramMore : Bigram → Bigram → Bool := gramMore

/-- `TrigramMore`: `(l.id1, l.id2, l.id3) > (r.id1, r.id2, r.id3)`. -/
abbrev trigramMore : Trigram → Trigram → Bool := gramMore

/-- `BigramEq` and `TrigramEq`. -/
def gramEq {K : Type} [DecidableEq K] (l r : Gram K) : Bool := decide (l.ids = r.ids)

/-- `Lem2AndWordsMore` and `Lem3AndWordsMore`: the lemma ids alone decide. -/
def lemAndWordsMore {K : Type} [IdTuple K] (l r : LemAndWords K) : Bool :=
  StrictTotal.less r.lids l.lids

/-- `LemGroupLess`. -/
def lemGroupLess {K R : Type} [Double R] (l r : LemGroup K R) : Bool :=
  Double.less l.weight r.weight

/-- `BigramMore` and `TrigramMore` are strict weak orderings on every set of messages. -/
theorem gramMore_strictWeakOn {K : Type} [IdTuple K] (S : Gram K → Prop) :
    StrictWeakOn gramMore S :=
  -- `>` is the order of the keys, flipped.
  (((less_strictWeakOn (fun _ => True)).comap Gram.ids).flip).mono (fun _ _ => trivial)

/-- So are `Lem2AndWordsMore` and `Lem3AndWordsMore`. -/
theorem lemAndWordsMore_strictWeakOn {K : Type} [IdTuple K] (S : LemAndWords K → Prop) :
    StrictWeakOn lemAndWordsMore S :=
  (((less_strictWeakOn (fun _ => True)).comap LemAndWords.lids).flip).mono
    (fun _ _ => trivial)

/-- `LemGroupLess` orders the groups whose weight is not NaN. -/
theorem lemGroupLess_strictWeakOn {K R : Type} [Double R] :
    StrictWeakOn lemGroupLess (fun g : LemGroup K R => Double.isNumber g.weight) :=
  Double.less_strictWeakOn.comap LemGroup.weight

end Colloc.Spec

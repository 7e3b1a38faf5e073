import Colloc.Spec.Freq

/-!
# `Colloc.Spec.ToZmap`: the published statistics

`to_zmap` joins the filtered groups with their document frequencies and with the texts of
their lemmas and words, and stores them under the concatenated lemma texts. The text of a
group is that of its case with the greatest count.

`mtc::zmap` is a map from strings to values; storing under a key replaces the value there.
-/

set_option autoImplicit false

namespace Colloc.Spec

open Colloc.Lib

/-- The value `val` of a key: the word `dc` and, for a phrase, the string `txt`. -/
structure ZVal where
  dc : UInt32
  txt : Option Bytes
  deriving Repr, DecidableEq

/-- The map `termstat` as it is serialized. -/
structure TermStat where
  terms : FlatHashMap Bytes ZVal
  version : String
  totalCount : Nat

/-- A value of `termstat`: that of a lemma or a phrase, or one of the two values that are set at
the end. -/
inductive ZEntry where
  | zmap (val : ZVal)
  | charstr (version : String)
  | int64 (totalCount : Nat)
  deriving Repr, DecidableEq

/-- The bytes of a literal. -/
def literalBytes (s : String) : Bytes := s.toList.map (fun c => UInt8.ofNat c.toNat)

/-- `get`. The two literals are set last, so they replace a phrase with the same key. -/
def TermStat.get (stat : TermStat) (key : Bytes) : Option ZEntry :=
  if key = literalBytes "total_count" then some (.int64 stat.totalCount)
  else if key = literalBytes "version" then some (.charstr stat.version)
  else (stat.terms.lookup key).map .zmap

/-- The texts of the lemmas and words of the groups, by id. -/
structure Texts where
  uni : FlatHashMap UInt32 Bytes
  unilem : FlatHashMap UInt32 Bytes

/-- `std::max_element` by the count: the first of the greatest ones, none for no cases. -/
def maxCase {K : Type} : List (Case K) → Option (Case K)
  | [] => none
  | cs :: cases => some (cases.foldl (fun l r => if l.count < r.count then r else l) cs)

/-- `m.try_emplace(id, "")` for each id of a tuple. -/
def emplaceIds {K : Type} [IdTuple K] (m : FlatHashMap UInt32 Bytes) (ids : K) :
    FlatHashMap UInt32 Bytes :=
  (IdTuple.toList ids).foldl (fun m id => m.tryEmplace id []) m

section Group
variable {K R : Type} [IdTuple K] [DecidableEq K] [Double R]

/-- The lambdas `fn1` and `fn2`: the ids whose texts are needed, and for the lemma ids their
document frequency and the words of the representative case. -/
def zmapGroup (cnt : FlatHashMap K UInt32) (st : Texts × FlatHashMap K (UInt32 × K))
    (lg : LemGroup K R) : Except Error (Texts × FlatHashMap K (UInt32 × K)) :=
  let unilem := emplaceIds st.1.unilem lg.lids
  match maxCase lg.cases with
  -- `max_element` of no cases is `end()`.
  | none => .error (.badDereference "mit")
  | some mit =>
      let uni := emplaceIds st.1.uni mit.wids
      match cnt.deref lg.lids "it->second" with
      | .error e => .error e
      | .ok dc => .ok ({ uni := uni, unilem := unilem }, st.2.tryEmplace lg.lids (dc, mit.wids))

end Group

/-- The lambdas `set_uni` and `set_unilem`: the text of an id that is in the map. -/
def setText (m : FlatHashMap UInt32 Bytes) (id : UInt32) (str : Bytes) :
    FlatHashMap UInt32 Bytes :=
  if (m.lookup id).isSome then m.insert id str else m

/-- The lambda `fn` over `lemfreq.bin`: a lemma of more than two documents. -/
def zmapLemma (termstat : FlatHashMap Bytes ZVal) (msg : LemFreq) : FlatHashMap Bytes ZVal :=
  if msg.weight > 2 then termstat.insert msg.str { dc := msg.weight, txt := none }
  else termstat

/-- `m.find(id)->second` for each id, in order. -/
def derefAll (m : FlatHashMap UInt32 Bytes) (what : String) :
    List UInt32 → Except Error (List Bytes)
  | [] => .ok []
  | id :: ids =>
      match m.deref id what with
      | .error e => .error e
      | .ok str =>
          match derefAll m what ids with
          | .error e => .error e
          | .ok strs => .ok (str :: strs)

/-- `absl::StrCat` of the words with a space between them. -/
def joinWords : List Bytes → Bytes
  | [] => []
  | [w] => w
  | w :: ws => w ++ [32] ++ joinWords ws

/-- The check of the values: a text that is empty or a frequency of zero. -/
def wrongValues (lems words : List Bytes) (dc : UInt32) : Bool :=
  lems.any List.isEmpty || words.any List.isEmpty || dc == 0

/-- The loop body over `bifreqs`. A pair with a word of fewer than three letters is left
out. -/
def zmapBigram (lib : Baalbek) (texts : Texts) (termstat : FlatHashMap Bytes ZVal)
    (el : Idd × UInt32 × Idd) : Except Error (FlatHashMap Bytes ZVal) :=
  match derefAll texts.unilem "unilem.find" (IdTuple.toList el.1) with
  | .error e => .error e
  | .ok lems =>
      match derefAll texts.uni "uni.find" (IdTuple.toList el.2.2) with
      | .error e => .error e
      | .ok words =>
          -- The length is in code units of the wide string.
          if words.any (fun w => (lib.mbcstowide w).length < 3) then .ok termstat
          else if wrongValues lems words el.2.1 then
            .error (.runtime "bi: wrong data values")
          else .ok (termstat.insert lems.flatten { dc := el.2.1, txt := some (joinWords words) })

/-- The loop body over `trifreqs`. -/
def zmapTrigram (texts : Texts) (termstat : FlatHashMap Bytes ZVal)
    (el : Iddd × UInt32 × Iddd) : Except Error (FlatHashMap Bytes ZVal) :=
  match derefAll texts.unilem "unilem.find" (IdTuple.toList el.1) with
  | .error e => .error e
  | .ok lems =>
      match derefAll texts.uni "uni.find" (IdTuple.toList el.2.2) with
      | .error e => .error e
      | .ok words =>
          if wrongValues lems words el.2.1 then .error (.runtime "tri: wrong data values")
          else .ok (termstat.insert lems.flatten { dc := el.2.1, txt := some (joinWords words) })

/-- The files `to_zmap` reads. -/
structure ZmapInput (R : Type) where
  bifreq : RecordFile Bigram
  bifiltered : RecordFile (Lem2Group R)
  trifreq : RecordFile Trigram
  trifiltered : RecordFile (Lem3Group R)
  uni : RecordFile Unigram
  lemid : RecordFile LemId
  lemfreq : RecordFile LemFreq
  totalCount : Nat

/-- The first half of `to_zmap`: the texts, `bifreqs` and `trifreqs`. -/
def zmapLoad {R : Type} [Double R] (files : ZmapInput R) :
    Except Error (Texts × FlatHashMap Idd (UInt32 × Idd) × FlatHashMap Iddd (UInt32 × Iddd)) :=
  match loadFreqs files.bifreq with
  | .error e => .error e
  | .ok bicnt =>
      match readApply files.bifiltered (zmapGroup bicnt) ({ uni := ∅, unilem := ∅ }, ∅) with
      | .error e => .error e
      | .ok (texts, bifreqs) =>
          match loadFreqs files.trifreq with
          | .error e => .error e
          | .ok tricnt =>
              match readApply files.trifiltered (zmapGroup tricnt) (texts, ∅) with
              | .error e => .error e
              | .ok (texts, trifreqs) =>
                  match readApply files.uni
                      (fun uni m => .ok (setText uni m.id m.str)) texts.uni with
                  | .error e => .error e
                  | .ok uni =>
                      match readApply files.lemid
                          (fun unilem m => .ok (setText unilem m.id m.str)) texts.unilem with
                      | .error e => .error e
                      | .ok unilem => .ok ({ uni := uni, unilem := unilem }, bifreqs, trifreqs)

/-- `to_zmap`: the map that is serialized. -/
def toZmap {R : Type} [Double R] (std : Stdlib) (lib : Baalbek) (files : ZmapInput R)
    (version : String) : Except Error TermStat :=
  match zmapLoad files with
  | .error e => .error e
  | .ok (texts, bifreqs, trifreqs) =>
      match readApply files.lemfreq (fun termstat m => .ok (zmapLemma termstat m)) ∅ with
      | .error e => .error e
      | .ok termstat =>
          match (bifreqs.iter std).foldlM (zmapBigram lib texts) termstat with
          | .error e => .error e
          | .ok termstat =>
              match (trifreqs.iter std).foldlM (zmapTrigram texts) termstat with
              | .error e => .error e
              | .ok termstat =>
                  .ok { terms := termstat, version := version, totalCount := files.totalCount }

end Colloc.Spec

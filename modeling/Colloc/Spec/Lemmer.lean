import Colloc.Spec.Convert

/-!
# `Colloc.Spec.Lemmer`: the lemmas of the words

`lemmatize` reads the words of `uni.bin`, joins them into a text of at most 10,000 words at
a time, and lets the linguistic library lemmatize the text. The word images come back in
the order of the words, and the terms of an image are the lemmas of its word. A lemma gets
an id at its first occurrence.

`Lemmer.lems` is a table by word id: the lemmas of the word `id` are at the index `id - 1`.
`save` writes the table to `lems.bin` without the ids, one message for each entry that is
not empty, and `loadLems` reads the messages back into a table.
-/

set_option autoImplicit false

namespace Colloc.Spec

open Colloc.Lib

/-- `Lemmer`. -/
structure Lemmer where
  lems : List (List UInt32)
  lemid : FlatHashMap Bytes UInt32

namespace Lemmer

/-- The inner loop of `apply_chunk`: the ids of the terms of one word. -/
def addTerms (lemid : FlatHashMap Bytes UInt32) :
    List Bytes → List UInt32 × FlatHashMap Bytes UInt32
  | [] => ([], lemid)
  | term :: w =>
      let lemid := lemid.tryEmplace term (UInt32.ofNat (lemid.size + 1))
      -- The terms of a word are ids, so a term that is not new keeps its id.
      let (terms, lemid') := addTerms lemid w
      ((lemid.lookup term).getD 0 :: terms, lemid')

/-- The outer loop of `apply_chunk` over the word images, with the iterator `it` over the
ids. -/
def applyImages (lm : Lemmer) : List (List Bytes) → List UInt32 → Except Error Lemmer
  | [], _ => .ok lm
  -- More images than ids: the iterator is at the end and dereferenced.
  | _ :: _, [] => .error (.badDereference "*it")
  | w :: doci, id :: ids =>
      let (terms, lemid) := addTerms lm.lemid w
      let i := (id - 1).toNat
      if i < lm.lems.length then
        applyImages { lems := lm.lems.set i terms, lemid := lemid } doci ids
      else .error .outOfRange

end Lemmer

/-- The locals of `lemmatize`. -/
structure LemmatizeState where
  lm : Lemmer
  corpus : Bytes
  ids : List UInt32
  i : Nat

/-- The lambda `apply_chunk`. -/
def applyChunk (lib : Baalbek) (st : LemmatizeState) : Except Error LemmatizeState :=
  match st.lm.applyImages (lib.makeDocumentImage st.corpus) st.ids with
  | .error e => .error e
  | .ok lm => .ok { st with lm := lm }

/-- The lambda `fn` of `lemmatize`. -/
def lemmatizeWord (lib : Baalbek) (st : LemmatizeState) (m : Unigram) :
    Except Error LemmatizeState :=
  let st := { st with corpus := st.corpus ++ m.str ++ [32], ids := st.ids ++ [m.id] }
  -- `i` counts the words from `1`, so a batch closes after 10,000 of them.
  if st.i % 10000 = 0 then
    match applyChunk lib st with
    | .error e => .error e
    | .ok st => .ok { st with corpus := [], ids := [], i := st.i + 1 }
  else .ok { st with i := st.i + 1 }

/-- The files `lemid.bin` and `lems.bin`. -/
structure Lemmatized where
  lemid : RecordFile LemId
  lems : RecordFile PhraseMsg

/-- `Lemmer::save`. The header of `lems.bin` holds the number of all entries, and an entry
without lemmas is not written. -/
def Lemmer.save (std : Stdlib) (lm : Lemmer) : Lemmatized :=
  { lemid :=
      { total := lm.lemid.size
        msgs := (lm.lemid.iter std).map (fun el => { str := el.1, id := el.2 }) }
    lems :=
      { total := lm.lems.length
        msgs := (lm.lems.map PhraseMsg.mk).filter (fun msg => !msg.ids.isEmpty) } }

/-- The `Lemmer` that `lemmatize` builds. The last `apply_chunk` runs on the words since the
last full batch, also when there are none. -/
def buildLemmer (lib : Baalbek) (uni : RecordFile Unigram) : Except Error Lemmer :=
  match readApply uni (lemmatizeWord lib)
      { lm := { lems := List.replicate (readTotal uni) [], lemid := ∅ }
        corpus := []
        ids := []
        i := 1 } with
  | .error e => .error e
  | .ok st =>
      match applyChunk lib st with
      | .error e => .error e
      | .ok st => .ok st.lm

/-- `lemmatize`. -/
def lemmatize (std : Stdlib) (lib : Baalbek) (uni : RecordFile Unigram) :
    Except Error Lemmatized :=
  match buildLemmer lib uni with
  | .error e => .error e
  | .ok lm => .ok (lm.save std)

/-- `load_lems`. -/
def loadLems (lems : RecordFile PhraseMsg) : Except Error (List (List UInt32)) :=
  readApply lems (fun lems ph => .ok (lems ++ [ph.ids])) []

/-- `lems.at(id - 1)`. -/
def lemsAt (lems : List (List UInt32)) (id : UInt32) : Except Error (List UInt32) :=
  match lems[(id - 1).toNat]? with
  | some terms => .ok terms
  | none => .error .outOfRange

end Colloc.Spec

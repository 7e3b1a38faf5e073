import Colloc.Spec.Convert
import Colloc.Spec.Kmerge

/-!
# `Colloc.Spec.GramStat`: counting pairs and triples of words

`bigramStat` and `trigramStat` read the phrases of `corpus.bin` and count pairs and triples
of adjacent words in a hash map. An empty phrase ends a document. At certain documents the
map is written to a part file, sorted, and cleared; at the end the rest is written, and the
part files that `glob` finds are merged.

The two stages share the chunking and differ in what a phrase counts. `gramStatBy` is the
shared part, over the test `full` for the documents that end a chunk. The source's test is
`chunkFull`.
-/

set_option autoImplicit false

namespace Colloc.Spec

open Colloc.Lib

section Chunks
variable {K : Type} [IdTuple K] [DecidableEq K] (std : Stdlib)

/-- `m.try_emplace(k, 0).first->second++`. -/
def countKey (m : FlatHashMap K UInt32) (k : K) : FlatHashMap K UInt32 :=
  m.insert k ((m.lookup k).getD 0 + 1)

omit [DecidableEq K] in
/-- `sort_map`: the entries, compared as pairs of key and count. -/
def sortMap (m : FlatHashMap K UInt32) : List (K × UInt32) :=
  std.sort (StrictTotal.less (K := K × UInt32)) (m.iter std)

omit [DecidableEq K] in
/-- `save_bi` and `save_tri`. Both clear the map after this. -/
def saveGrams (m : FlatHashMap K UInt32) : RecordFile (Gram K) :=
  let v := sortMap std m
  { total := v.length, msgs := v.map (fun el => { ids := el.1, weight := el.2 }) }

/-- The locals of `bigram_stat` and `trigram_stat`. `dout` is the content of the directory
of part files. -/
structure GramState (K : Type) where
  grams : FlatHashMap K UInt32
  docid : UInt32
  chunk : UInt32
  dout : FlatHashMap String (RecordFile (Gram K))

/-- The name of a part file, relative to `dout`. -/
def partName (suffix : String) (chunk : UInt32) : String := Nat.repr chunk.toNat ++ suffix

omit [DecidableEq K] in
/-- The lambda `save_chunk`. -/
def saveChunk (suffix : String) (st : GramState K) : GramState K :=
  { st with
      dout := st.dout.insert (partName suffix st.chunk) (saveGrams std st.grams)
      grams := ∅
      chunk := st.chunk + 1 }

omit [DecidableEq K] in
/-- The lambda `fn` on one phrase. An empty phrase ends a document, and the document may end
a chunk. `count` is the loop over the ids. -/
def gramPhrase (full : UInt32 → Bool) (suffix : String)
    (count : FlatHashMap K UInt32 → Phrase → FlatHashMap K UInt32) (st : GramState K)
    (ids : Phrase) : GramState K :=
  let st :=
    if ids.length = 0 then
      let st := if full st.docid then saveChunk std suffix st else st
      { st with docid := st.docid + 1 }
    else st
  -- The empty phrase goes through the loop as well, and counts nothing.
  { st with grams := count st.grams ids }

omit [DecidableEq K] in
/-- The directory of part files after the phrases and the last chunk. -/
def partsAfter (full : UInt32 → Bool) (suffix : String)
    (count : FlatHashMap K UInt32 → Phrase → FlatHashMap K UInt32) (corpus : List Phrase)
    (dout : FlatHashMap String (RecordFile (Gram K))) : FlatHashMap String (RecordFile (Gram K)) :=
  let st := corpus.foldl (gramPhrase std full suffix count)
    { grams := ∅, docid := 1, chunk := 1, dout := dout }
  (saveChunk std suffix st).dout

/-- The stage: the part files, and the merge of those that `glob` finds in the directory `path`.
Returns the merged file and the directory of part files. -/
def gramStatBy (full : UInt32 → Bool) (path suffix ending : String)
    (count : FlatHashMap K UInt32 → Phrase → FlatHashMap K UInt32) (corpus : List Phrase)
    (dout : FlatHashMap String (RecordFile (Gram K))) :
    Except Error (RecordFile (Gram K) × FlatHashMap String (RecordFile (Gram K))) :=
  let dir := partsAfter std full suffix count corpus dout
  match mergeFiles std ((glob path (dirEntries std dir) ending).map Prod.snd) with
  | .error e => .error e
  | .ok file => .ok (file, dir)

end Chunks

/-- `docid % 40'000 == 0`. -/
def chunkFull (docid : UInt32) : Bool := docid % 40000 == 0

/-! ### `bigram_stat` -/

/-- The loop over the ids, from the iterator `prev` on. -/
def bigramLoop (bis : FlatHashMap Idd UInt32) : Phrase → FlatHashMap Idd UInt32
  | prev :: it :: rest => bigramLoop (countKey bis (prev, it)) (it :: rest)
  -- A phrase of at most one word has no pair.
  | _ => bis

/-- `bigram_stat` with any test for the end of a chunk. -/
def bigramStatBy (std : Stdlib) (full : UInt32 → Bool) (dsave : String)
    (corpus : List Phrase) (biParts : FlatHashMap String (RecordFile Bigram)) :
    Except Error (RecordFile Bigram × FlatHashMap String (RecordFile Bigram)) :=
  gramStatBy std full (dsave ++ "/bi_parts/") "_bi.bin" "bi.bin" bigramLoop corpus biParts

/-- `bigram_stat`: `corpus.bin` and the content of `bi_parts` give `bi.bin` and the new
content of `bi_parts`. -/
def bigramStat (std : Stdlib) (dsave : String) (corpus : List Phrase)
    (biParts : FlatHashMap String (RecordFile Bigram)) :
    Except Error (RecordFile Bigram × FlatHashMap String (RecordFile Bigram)) :=
  bigramStatBy std chunkFull dsave corpus biParts

/-- `bi_parts` after `bigram_stat`, however the merge ends. -/
def biPartsAfter (std : Stdlib) (corpus : List Phrase)
    (biParts : FlatHashMap String (RecordFile Bigram)) : FlatHashMap String (RecordFile Bigram) :=
  partsAfter std chunkFull "_bi.bin" bigramLoop corpus biParts

/-! ### `trigram_stat` -/

/-- `load_filtered_bigrams`: the word pairs of the cases. -/
def loadFilteredBigrams {R : Type} [Double R] (bifiltered : RecordFile (Lem2Group R)) :
    Except Error (FlatHashSet Idd) :=
  readApply bifiltered
    (fun biwids lg => .ok (lg.cases.foldl (fun s cs => s.insert cs.wids) biwids)) ∅

/-- The loop over the ids, from the iterator `it1` on. `before` is the word before `it1`,
none at the beginning of the phrase, and `found` says that the pair before was filtered
in. -/
def trigramLoop (biwids : FlatHashSet Idd) :
    Option UInt32 → Bool → FlatHashMap Iddd UInt32 → Phrase → FlatHashMap Iddd UInt32
  | before, found, triples, it1 :: it2 :: rest =>
      if !biwids.contains (it1, it2) then
        trigramLoop biwids (some it1) false triples (it2 :: rest)
      else
        -- The triple that ends here, when the pair before did not count it already.
        let triples :=
          match before with
          | some word => if !found then countKey triples (word, it1, it2) else triples
          | none => triples
        let triples :=
          -- The triple that begins here.
          match rest with
          | next :: _ => countKey triples (it1, it2, next)
          | [] => triples
        trigramLoop biwids (some it1) true triples (it2 :: rest)
  | _, _, triples, _ => triples

/-- `trigram_stat` with any test for the end of a chunk. -/
def trigramStatBy {R : Type} [Double R] (std : Stdlib) (full : UInt32 → Bool)
    (dsave : String) (bifiltered : RecordFile (Lem2Group R)) (corpus : List Phrase)
    (triParts : FlatHashMap String (RecordFile Trigram)) :
    Except Error (RecordFile Trigram × FlatHashMap String (RecordFile Trigram)) :=
  match loadFilteredBigrams bifiltered with
  | .error e => .error e
  | .ok biwids =>
      gramStatBy std full (dsave ++ "/tri_parts/") "_tri.bin" "tri.bin"
        (trigramLoop biwids none false) corpus triParts

/-- `trigram_stat`. -/
def trigramStat {R : Type} [Double R] (std : Stdlib) (dsave : String)
    (bifiltered : RecordFile (Lem2Group R)) (corpus : List Phrase)
    (triParts : FlatHashMap String (RecordFile Trigram)) :
    Except Error (RecordFile Trigram × FlatHashMap String (RecordFile Trigram)) :=
  trigramStatBy std chunkFull dsave bifiltered corpus triParts

/-- `tri_parts` after `trigram_stat`. It is as before when `bifiltered.bin` does not load. -/
def triPartsAfter {R : Type} [Double R] (std : Stdlib) (bifiltered : RecordFile (Lem2Group R))
    (corpus : List Phrase) (triParts : FlatHashMap String (RecordFile Trigram)) :
    FlatHashMap String (RecordFile Trigram) :=
  match loadFilteredBigrams bifiltered with
  | .error _ => triParts
  | .ok biwids =>
      partsAfter std chunkFull "_tri.bin" (trigramLoop biwids none false) corpus triParts

end Colloc.Spec

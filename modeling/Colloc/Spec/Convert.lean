import Colloc.Spec.Streamer
import Colloc.Spec.Tools

/-!
# `Colloc.Spec.Convert`: the corpus and the unigrams

`convert` breaks each document of each archive into words, gives each accepted word an id,
counts it, and writes the ids as phrases to `corpus.bin`. A rejected word ends a phrase, and
the empty phrase ends a document.

The linguistic library is not part of the repository. `Baalbek` names the functions the
stages call, from bytes to words and between encodings, as parameters.
-/

set_option autoImplicit false

namespace Colloc.Spec

open Colloc.Lib

/-- A phrase of `corpus.bin`: the ids of its words. The empty phrase ends a document. -/
abbrev Phrase := List UInt32

/-- `widechar`, a code unit of a wide string. -/
abbrev WideChar := Nat

/-- `Baalbek::language::word`: the result of `IsPunct` and the `length` code units at
`pwsstr`. -/
structure Word where
  isPunct : Bool
  pwsstr : List WideChar
  deriving Repr, DecidableEq

/-- The linguistic library: `WordBreakDocument` and `MakeDocumentImage`, each after
`NormalizeEncoding`, and the conversions of `codepages` for UTF-8. -/
structure Baalbek where
  wordBreakDocument : Bytes → List Word
  makeDocumentImage : Bytes → List (List Bytes)
  strtolower : List WideChar → List WideChar
  widetombcs : List WideChar → Bytes
  mbcstowide : Bytes → List WideChar

/-- `UniVal<u32>`: the id of a word and its number of occurrences. -/
structure UniVal where
  id : UInt32
  weight : UInt32
  deriving Repr, DecidableEq

/-- `UnigramCounts`: the map, and the phrases written to `bufferedOut`. -/
structure UnigramCounts where
  map : FlatHashMap Bytes UniVal
  bufferedOut : List Phrase

namespace UnigramCounts

variable (lib : Baalbek)

/-- The lambda `ignore`: everything but Russian letters. -/
def ignore (wc : WideChar) : Bool := wc < 1024 || wc > 1105

/-- The tests of `update_word` that reject a word. -/
def rejects (w : Word) : Bool :=
  w.isPunct || w.pwsstr.length > 50 || w.pwsstr.any ignore

/-- The key of an accepted word. -/
def wordKey (w : Word) : Bytes := lib.widetombcs (lib.strtolower w.pwsstr)

/-- `update_word`: none for a rejected word, else the id. `try_emplace` gives a new word the
id `size() + 1`, as a `u32`. -/
def updateWord (self : UnigramCounts) (w : Word) : Option UInt32 × UnigramCounts :=
  if rejects w then (none, self)
  else
    let mbcs := wordKey lib w
    let value :=
      match self.map.lookup mbcs with
      | some value => value
      | none => { id := UInt32.ofNat (self.map.size + 1), weight := 0 }
    -- The weight is a `u32` too: it counts modulo `2 ^ 32`.
    (some value.id,
      { self with map := self.map.insert mbcs { value with weight := value.weight + 1 } })

/-- The lambda `write_phrase`. -/
def writePhrase (self : UnigramCounts) (ids : Phrase) : UnigramCounts :=
  { self with bufferedOut := self.bufferedOut ++ [ids] }

/-- The locals of `update`. -/
structure UpdateState where
  counts : UnigramCounts
  ids : Phrase
  empty : Bool

/-- The loop body of `update`. -/
def updateStep (st : UpdateState) (w : Word) : UpdateState :=
  match updateWord lib st.counts w with
  -- A rejected word closes the open phrase. `empty` is left as it is.
  | (none, counts) =>
      { st with
          counts := if st.ids.length > 0 then counts.writePhrase st.ids else counts
          ids := [] }
  | (some id, counts) => { counts := counts, ids := st.ids ++ [id], empty := false }

/-- `update`: the document's words, the last phrase, and the end of the document. Returns
whether a word was accepted. -/
def update (self : UnigramCounts) (doci : List Word) : Bool × UnigramCounts :=
  let st := doci.foldl (updateStep lib) { counts := self, ids := [], empty := true }
  let counts := if st.ids.length > 0 then st.counts.writePhrase st.ids else st.counts
  let counts := if !st.empty then counts.writePhrase [] else counts
  (!st.empty, counts)

end UnigramCounts

/-- The locals of `convert` that its result depends on. -/
structure ConvertState where
  counts : UnigramCounts
  totalCount : Nat

/-- The lambda `fn` of `convert` on the entries of one archive. A document of length `0`
returns from the lambda. -/
def convertArchive (lib : Baalbek) (st : ConvertState) : List Bytes → ConvertState
  | [] => st
  | buff :: buffs =>
      -- `return` leaves the lambda, so the rest of the archive is not read.
      if buff.length = 0 then st
      else
        let (found, counts) := st.counts.update lib (lib.wordBreakDocument buff)
        convertArchive lib { counts := counts, totalCount := st.totalCount + found.toNat } buffs

/-- `save_uni`. -/
def saveUni (std : Stdlib) (uni : UnigramCounts) : RecordFile Unigram :=
  { total := uni.map.size
    msgs := (uni.map.iter std).map (fun el =>
      { str := el.1, id := el.2.id, weight := el.2.weight }) }

/-- The files `convert` writes: `corpus.bin`, `uni.bin` and `total_count.txt`. -/
structure Converted where
  corpus : List Phrase
  uni : RecordFile Unigram
  totalCount : Nat

/-- The files written at the end. -/
def ConvertState.save (std : Stdlib) (st : ConvertState) : Converted :=
  { corpus := st.counts.bufferedOut
    uni := saveUni std st.counts
    totalCount := st.totalCount }

/-- `convert`. An archive of the tree is the list of its entries, as `GetDocsContents`
returns it. -/
def convert (std : Stdlib) (lib : Baalbek) (dcorpus : String)
    (tree : List (DirEntry (List Bytes))) (start limit : Nat) : Converted :=
  let archives := (listFiles start limit ".zip" dcorpus tree).map Prod.snd
  let st := archives.foldl (convertArchive lib)
    { counts := { map := ∅, bufferedOut := [] }, totalCount := 0 }
  st.save std

end Colloc.Spec

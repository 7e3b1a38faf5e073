import Colloc.Lib.Numbered
import Colloc.Lib.Windows
import Colloc.Proofs.Groupby
import Colloc.Proofs.ListFiles
import Colloc.Spec.GramStat

/-!
# `Colloc.Proofs.GramStat`: the counts of `bi.bin` and `tri.bin`

A phrase counts a list of keys: the pairs of its words (`bigramLoop_eq`), or those of its
triples with a filtered pair (`trigramLoop_eq`). The loop over the triples counts a triple
from its first pair or from its second one, and `found` remembers whether the pair before
was filtered in. `chunkKeys` cuts the keys of the corpus into chunks at the documents that
end a chunk. One chunk becomes one part file, which is the tally of its keys
(`saveGrams_tally`), and the whole run writes the part files of all chunks
(`gramPhrase_run`).

The chunk counter is a `u32`. The part files at the end are those of the last `2 ^ 32`
chunks, and the leftover files under names this run did not use (`stale`). The merged file
is the tally of all of these (`gramStatBy_spec`).
-/

set_option autoImplicit false

namespace Colloc.Proofs

open Colloc.Lib
open Colloc.Spec
open StrictTotal (less)

/-! ### Counting -/

/-- A sum of ones in `u32` is their number modulo `2 ^ 32`. -/
theorem nsmul_one_eq_ofNat (n : Nat) : n • (1 : UInt32) = UInt32.ofNat n := by
  induction n with
  | zero => rfl
  | succ n ih =>
      rw [succ_nsmul, ih, UInt32.ofNat_add]
      rfl

section Count
variable {K : Type} [IdTuple K] [DecidableEq K]

/-- The record of one occurrence. -/
def unitGram (k : K) : Gram K := { ids := k, weight := 1 }

omit [IdTuple K] [DecidableEq K] in
/-- The ids of keys that weigh one are the keys. -/
theorem map_ids_unitGram (ks : List K) : (ks.map unitGram).map Gram.ids = ks := by
  rw [List.map_map]
  exact List.map_id ks

/-- The number of occurrences of a key, modulo `2 ^ 32`. -/
def occurrences {K : Type} [DecidableEq K] (ks : List K) (k : K) : UInt32 :=
  UInt32.ofNat (ks.count k)

/-- A filter keeps the occurrences of what it keeps. -/
theorem occurrences_filter {K : Type} [DecidableEq K] {p : K → Bool} {k : K}
    (h : p k = true) (ks : List K) : occurrences (ks.filter p) k = occurrences ks k := by
  rw [occurrences, List.count_filter h]
  rfl

omit [IdTuple K] in
/-- The weight of a key is the number of its occurrences, as each of them is a record of weight
one. -/
theorem sumAt_unitGram (ks : List K) (k : K) :
    sumAt Gram.ids Gram.weight (ks.map unitGram) k = occurrences ks k := by
  unfold occurrences
  induction ks with
  | nil => rfl
  | cons x xs ih =>
      rw [List.map_cons, sumAt_cons, ih]
      show (if x = k then (1 : UInt32) else 0) + _ = _
      by_cases h : x = k
      · subst h
        rw [if_pos rfl, List.count_cons_self, UInt32.ofNat_add, UInt32.add_comm]
        rfl
      · rw [if_neg h, List.count_cons_of_ne h, zero_add]

omit [IdTuple K] in
/-- The map after counting `ks`. -/
theorem lookup_countKey (ks : List K) (k : K) :
    (ks.foldl countKey ∅).lookup k
      = if k ∈ ks then some (occurrences ks k) else none := by
  have h := lookup_foldl_bump (1 : UInt32) ks (∅ : FlatHashMap K UInt32) k
  rw [AList.lookup_empty, nsmul_one_eq_ofNat] at h
  rw [show (ks.foldl countKey ∅ : FlatHashMap K UInt32) = ks.foldl (bump 1) ∅ from rfl, h]
  simp [occurrences]

omit [DecidableEq K] in
/-- The entries of a map, sorted as pairs, are ascending by key: no two share a key, so the values
never decide. -/
theorem sortMap_ascending (std : Stdlib) (m : FlatHashMap K UInt32) :
    Ascending Prod.fst (sortMap std m) := by
  have hc : StrictWeakOn (less (K := K × UInt32)) (· ∈ m.iter std) := less_strictWeakOn _
  have hperm := std.sort_perm less (m.iter std) hc
  have hsort := std.sort_sorted less (m.iter std) hc
  -- The keys of a map are distinct, so sorted pairs differ in their keys.
  have hnd : ((std.sort less (m.iter std)).map Prod.fst).Nodup :=
    (hperm.map Prod.fst).nodup_iff.mpr (FlatHashMap.nodup_iter_keys std m)
  refine (hsort.and (List.pairwise_map.mp hnd)).imp (fun {a b} hab => ?_)
  rcases lexLess_eq_false.mp hab.1 with h | ⟨h, -⟩
  · exact h
  · exact absurd h.symm hab.2

omit [DecidableEq K] in
/-- A saved map has one record for each entry, in ascending order. -/
theorem saveGrams_ascending (std : Stdlib) (m : FlatHashMap K UInt32) :
    Ascending Gram.ids (saveGrams std m).msgs :=
  List.pairwise_map.mpr (sortMap_ascending std m)

/-- A part file has the entries of the map. -/
theorem mem_saveGrams (std : Stdlib) (m : FlatHashMap K UInt32) (g : Gram K) :
    g ∈ (saveGrams std m).msgs ↔ m.lookup g.ids = some g.weight := by
  have hperm := std.sort_perm (less (K := K × UInt32)) (m.iter std) (less_strictWeakOn _)
  show g ∈ (sortMap std m).map _ ↔ _
  refine ((hperm.map _).mem_iff).trans ?_
  exact FlatHashMap.mem_map_iter std m _ (fun g : Gram K => (g.ids, g.weight)) (fun _ => rfl)
    (fun _ => rfl) g

/-- The part file of a chunk is the tally of its keys: ascending, with each key of the chunk once
and its number of occurrences as the weight. -/
theorem saveGrams_tally (std : Stdlib) (ks : List K) :
    GramTally (ks.map unitGram) (saveGrams std (ks.foldl countKey ∅)).msgs where
  ascending := saveGrams_ascending std _
  complete k hk := by
    rw [map_ids_unitGram] at hk
    refine ⟨⟨k, occurrences ks k⟩, ?_, rfl⟩
    rw [mem_saveGrams, lookup_countKey, if_pos hk]
  sound g hg := by
    -- A record of the file is an entry of the map, so its key was counted.
    rw [mem_saveGrams, lookup_countKey] at hg
    rw [map_ids_unitGram, sumAt_unitGram]
    by_cases hk : g.ids ∈ ks
    · rw [if_pos hk] at hg
      exact ⟨hk, (Option.some.inj hg).symm⟩
    · rw [if_neg hk] at hg
      cases hg

end Count

/-! ### The keys of a phrase -/

/-- `bigram_stat` counts every pair of adjacent words of a phrase. The loop keeps the word before,
so the induction is on the rest of the phrase. -/
theorem bigramLoop_eq (ids : Phrase) :
    ∀ bis, bigramLoop bis ids = (pairs ids).foldl countKey bis := by
  induction ids with
  | nil => intro bis; rfl
  | cons prev ids ih =>
      intro bis
      cases ids with
      | nil => rfl
      | cons it rest =>
          rw [bigramLoop, ih, pairs_cons_cons, List.foldl_cons]

/-- A triple with a filtered pair. -/
def hit (biwids : FlatHashSet Idd) (t : Iddd) : Bool :=
  biwids.contains (t.1, t.2.1) || biwids.contains (t.2.1, t.2.2)

/-- A pair outside the filter counts nothing. -/
theorem trigramLoop_miss {biwids : FlatHashSet Idd} {x y : UInt32}
    (h : biwids.contains (x, y) = false) (before : Option UInt32) (found : Bool)
    (m : FlatHashMap Iddd UInt32) (rest : Phrase) :
    trigramLoop biwids before found m (x :: y :: rest)
      = trigramLoop biwids (some x) false m (y :: rest) := by
  simp only [trigramLoop, h, Bool.not_false, if_true]

/-- A filtered pair counts the triple that ends with it, when the pair before did not, and
the triple that begins with it. -/
theorem trigramLoop_hit {biwids : FlatHashSet Idd} {x y : UInt32}
    (h : biwids.contains (x, y) = true) (before : Option UInt32) (found : Bool)
    (m : FlatHashMap Iddd UInt32) (rest : Phrase) :
    trigramLoop biwids before found m (x :: y :: rest)
      = trigramLoop biwids (some x) true
          (((if found then [] else before.toList.map (fun w => (w, x, y)))
            ++ rest.head?.toList.map (fun z => (x, y, z))).foldl countKey m)
          (y :: rest) := by
  simp only [trigramLoop, h, Bool.not_true, Bool.false_eq_true, if_false]
  cases before <;> cases found <;> cases rest <;> rfl

/-- The loop from the word `x` on, behind the word `b`. When the pair `(b, x)` was filtered
in, the triple of `b` was counted forward from it and `found` is set; otherwise the triple
is still to be counted. -/
theorem trigramLoop_behind (biwids : FlatHashSet Idd) (rest : Phrase) :
    ∀ (b x : UInt32) (m : FlatHashMap Iddd UInt32),
      trigramLoop biwids (some b) (biwids.contains (b, x)) m (x :: rest)
        = ((triples (if biwids.contains (b, x) then x :: rest else b :: x :: rest)).filter
            (hit biwids)).foldl countKey m := by
  induction rest with
  | nil =>
      intro b x m
      cases biwids.contains (b, x) with
      | true => rfl
      | false => rfl
  | cons y rest ih =>
      intro b x m
      have hstep := ih x y
      -- The pair `(x, y)` decides the step, and `(b, x)` whether a triple is still open.
      cases hxy : biwids.contains (x, y) with
      | false =>
          rw [hxy] at hstep
          rw [trigramLoop_miss hxy, hstep]
          cases hbx : biwids.contains (b, x) with
          | true => rfl
          | false => simp [hit, hbx, hxy]
      | true =>
          rw [hxy] at hstep
          rw [trigramLoop_hit hxy, hstep]
          cases hbx : biwids.contains (b, x) with
          | true => cases rest <;> simp [hit, hxy]
          | false => cases rest <;> simp [hit, hxy]

/-- `trigram_stat` counts each triple of adjacent words with a filtered pair once. The flag says
whether the pair before was filtered, so a triple is looked at with both of its pairs. -/
theorem trigramLoop_eq (biwids : FlatHashSet Idd) (ids : Phrase) (m : FlatHashMap Iddd UInt32) :
    trigramLoop biwids none false m ids
      = ((triples ids).filter (hit biwids)).foldl countKey m := by
  match ids with
  | [] => rfl
  | [x] => rfl
  | x :: y :: rest =>
      have hstep := trigramLoop_behind biwids rest x y
      cases hxy : biwids.contains (x, y) with
      | false =>
          rw [hxy] at hstep
          rw [trigramLoop_miss hxy, hstep]
          rfl
      | true =>
          rw [hxy] at hstep
          rw [trigramLoop_hit hxy, hstep]
          cases rest <;> simp [hit, hxy]

/-! ### Chunks -/

section Chunks
variable {K : Type}

/-- The keys of the chunks of a corpus, from the document `docid` on, when the open chunk
has the keys `acc`. -/
def chunkKeys (full : UInt32 → Bool) (keys : Phrase → List K) :
    UInt32 → List K → List Phrase → List (List K)
  | _, acc, [] => [acc]
  | docid, acc, ids :: corpus =>
      if ids.length = 0 then
        if full docid then acc :: chunkKeys full keys (docid + 1) (keys ids) corpus
        else chunkKeys full keys (docid + 1) (acc ++ keys ids) corpus
      else chunkKeys full keys docid (acc ++ keys ids) corpus

/-- Chunking neither drops, repeats nor splits a key. What is counted so far goes to the chunk
that is open. -/
theorem chunkKeys_flatten (full : UInt32 → Bool) (keys : Phrase → List K)
    (corpus : List Phrase) :
    ∀ (docid : UInt32) (acc : List K),
      (chunkKeys full keys docid acc corpus).flatten = acc ++ corpus.flatMap keys := by
  induction corpus with
  | nil => intro docid acc; simp [chunkKeys]
  | cons ids corpus ih =>
      intro docid acc
      rw [chunkKeys]
      split
      · split
        · rw [List.flatten_cons, ih, List.flatMap_cons]
        · rw [ih, List.flatMap_cons, List.append_assoc]
      · rw [ih, List.flatMap_cons, List.append_assoc]

/-- The number of part files a corpus is cut into: one for each document that ends a chunk,
and the last one. The `i`-th document end has the `docid` `1 + i`. -/
def partCount (full : UInt32 → Bool) (corpus : List Phrase) : Nat :=
  (List.range (corpus.count [])).countP (fun i => full (1 + UInt32.ofNat i)) + 1

/-- There is one part for each document that ends one, and the last part. The induction is on the
phrases. -/
theorem length_chunkKeys_from (full : UInt32 → Bool) (keys : Phrase → List K)
    (corpus : List Phrase) :
    ∀ (docid : UInt32) (acc : List K),
      (chunkKeys full keys docid acc corpus).length
        = (List.range (corpus.count [])).countP (fun i => full (docid + UInt32.ofNat i))
          + 1 := by
  induction corpus with
  | nil => intro docid acc; rfl
  | cons ids corpus ih =>
      intro docid acc
      rw [chunkKeys]
      by_cases hids : ids = []
      · subst hids
        have h0 : docid + UInt32.ofNat 0 = docid := UInt32.add_zero docid
        -- Split off the first document end; the others have the `docid`s one higher.
        have hcount : ((List.range (corpus.count [] + 1)).countP
              (fun i => full (docid + UInt32.ofNat i)))
            = (if full docid then 1 else 0) + (List.range (corpus.count [])).countP
              (fun i => full (docid + 1 + UInt32.ofNat i)) := by
          rw [List.range_succ_eq_map, List.countP_cons, List.countP_map, Nat.add_comm]
          simp only [Function.comp_def, Nat.succ_eq_add_one, add_ofNat_succ, h0]
        rw [List.count_cons_self, hcount, if_pos (by rfl)]
        cases full docid with
        | true => rw [if_pos rfl, if_pos rfl, List.length_cons, ih]; omega
        | false => rw [if_neg Bool.false_ne_true, if_neg Bool.false_ne_true, ih]; omega
      · rw [if_neg (by simpa using hids), ih, List.count_cons_of_ne hids]

/-- So many parts are written. -/
theorem length_chunkKeys (full : UInt32 → Bool) (keys : Phrase → List K)
    (corpus : List Phrase) :
    (chunkKeys full keys 1 [] corpus).length = partCount full corpus :=
  length_chunkKeys_from full keys corpus 1 []

end Chunks

section Run
variable {K : Type} [IdTuple K] [DecidableEq K]

/-- The part file of a chunk with the keys `ks`. -/
def chunkFile (std : Stdlib) (ks : List K) : RecordFile (Gram K) :=
  saveGrams std (ks.foldl countKey ∅)

/-- The whole run over the phrases and the last `save_chunk` write the part files of all
chunks, under consecutive counters. -/
theorem gramPhrase_run (std : Stdlib) (full : UInt32 → Bool) (suffix : String)
    {count : FlatHashMap K UInt32 → Phrase → FlatHashMap K UInt32} {keys : Phrase → List K}
    (hcount : ∀ m ids, count m ids = (keys ids).foldl countKey m) (corpus : List Phrase) :
    ∀ (st : GramState K) (acc : List K), st.grams = acc.foldl countKey ∅ →
      (saveChunk std suffix (corpus.foldl (gramPhrase std full suffix count) st)).dout
        = writeNumbered (partName suffix) st.dout st.chunk
            ((chunkKeys full keys st.docid acc corpus).map (chunkFile std)) := by
  induction corpus with
  | nil =>
      intro st acc hst
      rw [chunkKeys, List.map_singleton, writeNumbered, writeNumbered, chunkFile, ← hst]
      rfl
  | cons ids corpus ih =>
      intro st acc hst
      rw [List.foldl_cons, chunkKeys, gramPhrase]
      -- The open map always holds the counts of the open chunk's keys.
      by_cases hids : ids.length = 0
      · rw [if_pos hids, if_pos hids]
        by_cases hfull : full st.docid = true
        · -- The chunk is written, and the next one starts with this phrase.
          rw [if_pos hfull, if_pos hfull, List.map_cons, writeNumbered, chunkFile, ← hst]
          refine ih _ (keys ids) ?_
          rw [hcount]
          rfl
        · rw [if_neg hfull, if_neg hfull]
          refine ih _ (acc ++ keys ids) ?_
          rw [hcount, List.foldl_append, ← hst]
      · rw [if_neg hids, if_neg hids]
        refine ih _ (acc ++ keys ids) ?_
        rw [hcount, List.foldl_append, ← hst]

/-! ### The files that are merged -/

/-- `glob` on a flat directory finds the visible files with the ending, in some order, that of
`readdir`. -/
theorem glob_perm {α : Type} (std : Stdlib) (path ending : String)
    (files : FlatHashMap String α) :
    ((glob path (dirEntries std files) ending).map Prod.snd).Perm
      ((files.entries.filter (fun e => isListed (path ++ "/") ending e.1)).map
        Sigma.snd) := by
  have hentries : dirEntries std files
      = ((std.readdir files.entries).map (fun e => (e.1, e.2))).map
          (fun f => DirEntry.reg f.1 f.2) := by
    rw [dirEntries, List.map_map]
    rfl
  rw [glob, hentries, listFiles_eq ending (by decide), if_pos rfl, List.drop_zero, filesBelow_flat,
    List.filter_map, List.map_map, List.map_map]
  exact ((std.readdir_perm files.entries).filter _).map _

/-- Different numbers have different names of part files. -/
theorem partName_injective (suffix : String) : Function.Injective (partName suffix) :=
  repr_append_injective suffix

/-- A part file is listed: its name begins with a digit, so it is not hidden, and ends as the
pattern asks. -/
theorem isListed_partName (path : String) {suffix ending : String}
    (h : ending.toList <:+ suffix.toList) (n : UInt32) :
    isListed path ending (partName suffix n) = true := by
  have hhead : isHidden (partName suffix n) = false := by
    unfold isHidden partName
    rw [String.toList_append, Nat.toList_repr]
    cases hd : Nat.toDigits 10 n.toNat with
    | nil => exact absurd hd Nat.toDigits_ne_nil
    | cons c cs =>
        have hc : c.isDigit = true :=
          Nat.isDigit_of_mem_toDigits (by decide) (by decide) (hd ▸ List.mem_cons_self)
        rw [List.cons_append, List.head?_cons, decide_eq_false_iff_not, Option.some.injEq]
        -- A digit is not a dot.
        intro hdot
        rw [hdot] at hc
        exact absurd hc (by decide)
  unfold isListed
  rw [hhead, Bool.not_false, Bool.true_and, hasEnding_iff, partName, String.toList_append,
    String.toList_append]
  exact h.trans ((List.suffix_append _ _).trans (List.suffix_append _ _))

/-- The names of the part files of a run that writes `n` of them. -/
def partNames (suffix : String) (n : Nat) : List String :=
  (List.range n).map (fun i => partName suffix (1 + UInt32.ofNat i))

/-- The files an earlier run left in the directory `path` that a run with `n` part files
does not replace and that `glob` finds. -/
def staleFiles (path suffix ending : String) (dout : FlatHashMap String (RecordFile (Gram K)))
    (n : Nat) : List (RecordFile (Gram K)) :=
  (dout.entries.filter (fun e =>
    isListed (path ++ "/") ending e.1 && decide (e.1 ∉ partNames suffix n))).map Sigma.snd

omit [IdTuple K] [DecidableEq K] in
/-- The files that `glob` finds after `parts` were written: the last `2 ^ 32` of them, and the
leftover ones. -/
theorem listed_writeNumbered (path : String) {suffix ending : String}
    (hsuffix : ending.toList <:+ suffix.toList)
    (dout : FlatHashMap String (RecordFile (Gram K))) (parts : List (RecordFile (Gram K))) :
    (((writeNumbered (partName suffix) dout 1 parts).entries.filter
        (fun e => isListed (path ++ "/") ending e.1)).map Sigma.snd).Perm
      (survivors parts ++ staleFiles path suffix ending dout parts.length) := by
  have hperm := writeNumbered_entries (partName_injective suffix) dout 1 parts
  refine ((hperm.filter _).map _).trans (List.Perm.of_eq ?_)
  rw [List.filter_append, List.map_append]
  -- Every part file of this run is listed.
  have hall : (numbered (partName suffix) (survivorsStart 1 parts) (survivors parts)).filter
      (fun e => isListed (path ++ "/") ending e.1)
        = numbered (partName suffix) (survivorsStart 1 parts) (survivors parts) := by
    refine List.filter_eq_self.mpr (fun e he => ?_)
    obtain ⟨i, -, hi⟩ := (mem_numberedKeys _).mp (List.mem_map_of_mem he)
    rw [hi]
    exact isListed_partName _ hsuffix _
  have hnames : ∀ n : String, n ∈ numberedKeys (partName suffix) 1 parts
      ↔ n ∈ partNames suffix parts.length := by
    intro n
    rw [mem_numberedKeys, partNames, List.mem_map]
    constructor
    · rintro ⟨i, hi, h⟩
      exact ⟨i, List.mem_range.mpr hi, h.symm⟩
    · rintro ⟨i, hi, h⟩
      exact ⟨i, List.mem_range.mp hi, h.symm⟩
  rw [hall, numbered_map_snd, staleFiles, List.filter_filter]
  simp only [hnames]

/-- Their records. -/
def staleGrams (path suffix ending : String) (dout : FlatHashMap String (RecordFile (Gram K)))
    (n : Nat) : List (Gram K) :=
  (staleFiles path suffix ending dout n).flatMap (fun f => f.msgs)

/-- The merged file is the tally of the last `2 ^ 32` chunks and of the leftover files. The chunks
are written in the order of their numbers, and `glob` finds all files with the ending. -/
theorem gramStatBy_spec (std : Stdlib) (full : UInt32 → Bool)
    (path suffix ending : String) (hsuffix : ending.toList <:+ suffix.toList)
    {count : FlatHashMap K UInt32 → Phrase → FlatHashMap K UInt32} {keys : Phrase → List K}
    (hcount : ∀ m ids, count m ids = (keys ids).foldl countKey m) (corpus : List Phrase)
    (dout : FlatHashMap String (RecordFile (Gram K)))
    (hdout : ∀ f ∈ staleFiles path suffix ending dout (partCount full corpus),
      Ascending Gram.ids f.msgs) :
    ∃ out dir, gramStatBy std full path suffix ending count corpus dout
        = .ok ({ total := 0, msgs := out }, dir) ∧
      GramTally ((survivors (chunkKeys full keys 1 [] corpus)).flatten.map unitGram
        ++ staleGrams path suffix ending dout (partCount full corpus)) out := by
  let chunks := chunkKeys full keys 1 [] corpus
  let parts := chunks.map (chunkFile std)
  let dir := partsAfter std full suffix count corpus dout
  have hlen : parts.length = partCount full corpus := by
    rw [List.length_map, length_chunkKeys]
  have hdir : dir = writeNumbered (partName suffix) dout 1 parts :=
    gramPhrase_run std full suffix hcount corpus _ [] rfl
  have hfiles := (glob_perm std path ending dir).trans
    (hdir ▸ listed_writeNumbered path hsuffix dout parts)
  rw [hlen, survivors_map] at hfiles
  -- The files that `glob` finds are all ascending, so the merge tallies them.
  obtain ⟨out, hmerge, htally⟩ := mergeFiles_spec std
    ((glob path (dirEntries std dir) ending).map Prod.snd) (fun f hf => by
      rcases List.mem_append.mp (hfiles.mem_iff.mp hf) with hf | hf
      · obtain ⟨ks, -, rfl⟩ := List.mem_map.mp hf
        exact sorted_of_ascending (saveGrams_ascending std _)
      · exact sorted_of_ascending (hdout f hf))
  refine ⟨out, dir, ?_, ?_⟩
  · unfold gramStatBy
    simp only [hmerge, dir]
  · have htally' := htally.perm (hfiles.flatMap_right _)
    rw [List.flatMap_append, List.flatMap_map] at htally'
    -- Each surviving part is a tally of its chunk, so the tally of the parts is one of the
    -- keys.
    have hparts : List.Forall₂ (GramTally (K := K))
        ((survivors chunks).map (fun ks => ks.map unitGram))
        ((survivors chunks).map (fun ks => (chunkFile std ks).msgs)) := by
      rw [List.forall₂_map_left_iff, List.forall₂_map_right_iff, List.forall₂_same]
      exact fun ks _ => saveGrams_tally std ks
    rw [List.map_flatten]
    exact IsTally.flatten hparts htally'

end Run

end Colloc.Proofs

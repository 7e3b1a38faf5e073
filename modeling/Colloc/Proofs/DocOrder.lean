import Colloc.Proofs.Renumber
import Mathlib.Data.List.TakeWhile

/-!
# `Colloc.Proofs.DocOrder`: the order of the documents

`readdir` gives the files of a directory in an order of its own, so two runs over the same files
can read their documents in different orders. The words and the lemmas then get other ids, and
every later file is sorted in another way. `statistics_permute` says that in strings nothing
changes: the statistics of both runs are the same.

`sameUpToIds_of_perm` is the part up to `lemmatize`. The documents with an accepted word are
framed alike, under the ids of the words of each run (`framed_perm`).
-/

set_option autoImplicit false

namespace Colloc.Proofs

open Colloc.Lib
open Colloc.Spec

/-- The documents in the archives of a directory tree, in the order in which `convert` finds
them. -/
def foundDocs (dcorpus : String) (tree : List (DirEntry (List Bytes))) (start limit : Nat) :
    List Bytes :=
  ((listFiles start limit ".zip" dcorpus tree).map Prod.snd).flatten

/-- Without empty documents all of them are read. -/
theorem readDocs_eq_flatten {archives : List (List Bytes)}
    (h : ∀ buff ∈ archives.flatten, buff ≠ []) : readDocs archives = archives.flatten := by
  rw [readDocs, ← List.flatMap_id']
  refine List.flatMap_congr (fun archive harchive => ?_)
  refine List.takeWhile_eq_self_iff.mpr (fun buff hbuff => ?_)
  have hne := h buff (List.mem_flatten_of_mem harchive hbuff)
  simpa using hne

section Docs
variable (lib : Baalbek)

/-- The keys of the accepted words of the documents, in order. -/
def keysOf (docs : List Bytes) : List Bytes :=
  (docs.map lib.wordBreakDocument).flatMap (acceptedKeys lib)

/-- The documents with an accepted word, as they stand in the corpus. -/
def framedOf (docs : List Bytes) : List (List Phrase) :=
  framedDocs lib (mapOf (keysOf lib docs)) (docs.map lib.wordBreakDocument)

/-- The map of `convert` depends on the keys of the words, in the order of the documents. -/
theorem converted_map (docs : List Bytes) :
    (converted lib docs).counts.map = mapOf (keysOf lib docs) := by
  rw [converted, foldl_convertDoc_counts]
  exact updates_mapOf lib _

/-- `corpus.bin` has the framed documents. -/
theorem converted_corpus (std : Stdlib) (docs : List Bytes) :
    ((converted lib docs).save std).corpus = corpusOf (framedOf lib docs) := by
  show (converted lib docs).counts.bufferedOut = _
  rw [converted_out, converted_map]
  rfl

/-- No phrase of a framed document is empty. -/
theorem framedOf_ne (docs : List Bytes) : ∀ doc ∈ framedOf lib docs, ∀ ids ∈ doc, ids ≠ [] :=
  fun _ hdoc => (framedDocs_ne_nil lib hdoc).2

/-- The words of `uni.bin` are those of the framed documents, each with an id, and with the number
of its occurrences. -/
theorem converted_listsWords (std : Stdlib) {docs : List Bytes}
    (hsize : (mapOf (keysOf lib docs)).size < 2 ^ 32) :
    ListsWords ((converted lib docs).save std).uni (corpusOf (framedOf lib docs)).flatten := by
  have hws : (corpusOf (framedOf lib docs)).flatten
      = (keysOf lib docs).map (idIn (mapOf (keysOf lib docs))) := by
    rw [flatten_corpusOf, framedOf, flatten_framedDocs]
    rfl
  obtain ⟨names, h⟩ := counted_mapOf (keysOf lib docs) hsize
  rw [← converted_map] at h hsize
  rw [hws, ← converted_map]
  exact h.listsWords hsize std

/-- One run of `convert` and `lemmatize` prepares the files of the later stages, when the words
have lemmas and the ids of words and lemmas fit `u32`. -/
theorem ready_of_imaged (std : Stdlib) {image : Bytes → List Bytes} {docs : List Bytes}
    {lm : Lemmer} (hsize : (mapOf (keysOf lib docs)).size < 2 ^ 32)
    (hfew : (framedOf lib docs).length < 2 ^ 32)
    (hlemmas : ∀ m ∈ ((converted lib docs).save std).uni.msgs, image m.str ≠ [])
    (hterms : (terms image ((converted lib docs).save std).uni).length < 2 ^ 32)
    (h : Imaged image ((converted lib docs).save std).uni.msgs.length
      ((converted lib docs).save std).uni.msgs lm) :
    Ready (framedOf lib docs) ((converted lib docs).save std) (lm.save std) := by
  have huni := converted_listsWords lib std hsize
  have htable := h.tableOf_save huni hlemmas std
  refine ⟨converted_corpus lib std docs, framedOf_ne lib docs, hfew, huni, ?_, ?_⟩
  · rw [htable]
    exact h.haveLemmas huni hlemmas
  · rw [htable]
    exact h.numbersLemmas huni hterms std

variable {docs docs' : List Bytes} (hperm : docs'.Perm docs)
include hperm

/-- Documents in another order have the same keys, each as often. -/
theorem keysOf_perm : (keysOf lib docs').Perm (keysOf lib docs) :=
  (hperm.map _).flatMap_right _

/-- The documents of both runs are framed alike, in another order. A document is framed by what
its words are, not by the ids that they have. -/
theorem framed_perm {w : UInt32 → UInt32}
    (hw : ∀ k, idIn (mapOf (keysOf lib docs')) k = w (idIn (mapOf (keysOf lib docs)) k)) :
    (framedOf lib docs').Perm ((framedOf lib docs).map (List.map (List.map w))) := by
  have hphrase : phraseOf lib (mapOf (keysOf lib docs'))
      = List.map w ∘ phraseOf lib (mapOf (keysOf lib docs)) := by
    funext run
    show run.map _ = (run.map _).map w
    rw [List.map_map]
    exact List.map_congr_left (fun word _ => hw _)
  refine (((hperm.map _).filter _).map _).trans (List.Perm.of_eq ?_)
  rw [framedOf, framedDocs, List.map_map]
  refine List.map_congr_left (fun doci _ => ?_)
  show framedDoc lib _ doci = (framedDoc lib _ doci).map (List.map w)
  rw [framedDoc, framedDoc, List.map_map, hphrase]

end Docs

/-- The library lemmatizes the words of `uni.bin` one by one, and each has a lemma. -/
structure LemmatizesWords (lib : Baalbek) (image : Bytes → List Bytes) (uni : RecordFile Unigram) :
    Prop where
  images : Images lib image uni
  lemmas : ∀ m ∈ uni.msgs, image m.str ≠ []

/-! ### Two runs -/

section TwoRuns
variable {lib : Baalbek} {std std' : Stdlib} {docs docs' : List Bytes}

/-- `uni.bin` has one record for each key. -/
theorem length_saved_uni (lib : Baalbek) (std : Stdlib) (docs : List Bytes) :
    ((converted lib docs).save std).uni.msgs.length = (mapOf (keysOf lib docs)).size := by
  rw [← converted_map]
  exact length_saveUni std _

/-- The files of `convert` over the documents in two orders: the ids `w` of the words take the
place of the old ones. -/
structure WordsRenamed (w : UInt32 → UInt32) (docs docs' : List (List Phrase))
    (c c' : Converted) : Prop where
  injective : Function.Injective w
  outside : ∀ n, c.uni.msgs.length ≤ (n - 1).toNat → w n = n
  docs : docs'.Perm (docs.map (List.map (List.map w)))
  uni : c'.uni.msgs.Perm (c.uni.msgs.map (fun m => { m with id := w m.id }))
  totalCount : c'.totalCount = c.totalCount

/-- The strings of the words are the same. -/
theorem WordsRenamed.str_iff {w : UInt32 → UInt32} {docs docs' : List (List Phrase)}
    {c c' : Converted} (h : WordsRenamed w docs docs' c c') (s : Bytes) :
    s ∈ c'.uni.msgs.map StrIdWeight.str ↔ s ∈ c.uni.msgs.map StrIdWeight.str := by
  rw [(h.uni.map StrIdWeight.str).mem_iff, List.map_map]
  rfl

/-- Documents in another order give the same words under other ids. The renaming takes the id of a
key in one map to its id in the other. -/
theorem convert_perm (std std' : Stdlib) (hperm : docs'.Perm docs)
    (hwords : ((converted lib docs).save std).uni.msgs.length < 2 ^ 32) :
    ∃ w, WordsRenamed w (framedOf lib docs) (framedOf lib docs') ((converted lib docs).save std)
      ((converted lib docs').save std') := by
  have hlen := length_saved_uni lib std docs
  rw [hlen] at hwords
  obtain ⟨w, hw, hlookup, hidIn, hout⟩ := words_renumbered (keysOf_perm lib hperm) hwords
  have hframed := framed_perm lib hperm hidIn
  refine ⟨w, hw, fun n hn => hout n (hlen ▸ hn), hframed, saveUni_perm std std' ?_, ?_⟩
  · rw [converted_map, converted_map]
    exact hlookup
  · show (converted lib docs').totalCount = (converted lib docs).totalCount
    rw [← length_framedDocs lib (mapOf (keysOf lib docs')), ← framedOf, hframed.length_eq,
      List.length_map, framedOf, length_framedDocs]

/-- `convert` and `lemmatize` over the documents in two orders: the files differ in the ids and
in order only. -/
theorem sameUpToIds_of_perm (std std' : Stdlib) {image : Bytes → List Bytes}
    (hperm : docs'.Perm docs) {c c' : Converted} (hc : (converted lib docs).save std = c)
    (hc' : (converted lib docs').save std' = c') (hlib : LemmatizesWords lib image c.uni)
    (hwrap : NoIdWrap lib c) : ∃ lm lm', buildLemmer lib c.uni = .ok lm ∧
      buildLemmer lib c'.uni = .ok lm' ∧ c'.totalCount = c.totalCount ∧
      ∃ w l, SameUpToIds w l (framedOf lib docs) (framedOf lib docs') c c' (lm.save std)
        (lm'.save std') := by
  subst hc hc'
  obtain ⟨w, hw⟩ := convert_perm std std' hperm hwrap.words
  have hlen := hw.uni.length_eq
  have hdocs := hw.docs.length_eq
  rw [List.length_map] at hlen hdocs
  have hsize : (mapOf (keysOf lib docs)).size < 2 ^ 32 := by
    rw [← length_saved_uni lib std]
    exact hwrap.words
  have hsize' : (mapOf (keysOf lib docs')).size < 2 ^ 32 := by
    rw [← length_saved_uni lib std', hlen]
    exact hwrap.words
  have huni := converted_listsWords lib std hsize
  have huni' := converted_listsWords lib std' hsize'
  -- The library sees the same words, so it lemmatizes those of the second run too.
  have himages' : Images lib image ((converted lib docs').save std').uni := fun words hwords =>
    hlib.images words (fun s hs => (hw.str_iff s).mp (hwords s hs))
  have hlemmas' : ∀ m ∈ ((converted lib docs').save std').uni.msgs, image m.str ≠ [] := by
    intro m hm
    obtain ⟨m₀, hm₀, hstr⟩ := List.mem_map.mp ((hw.str_iff m.str).mp (List.mem_map_of_mem hm))
    rw [← hstr]
    exact hlib.lemmas m₀ hm₀
  obtain ⟨lm, hok, himaged⟩ := buildLemmer_imaged hlib.images
    (huni.denseIds hwrap.words (length_saveUni std _).symm)
  obtain ⟨lm', hok', himaged'⟩ := buildLemmer_imaged himages'
    (huni'.denseIds (hlen ▸ hwrap.words) (length_saveUni std' _).symm)
  have hfew := hwrap.docs
  rw [converted_corpus, count_corpusOf (framedOf_ne lib docs)] at hfew
  have hterms := himaged.terms_lt (hwrap.lemmas lm hok)
  have hterms' := (terms_perm image hw.uni).length_eq
  obtain ⟨l, hl, hlookup, hlemId⟩ := lemmas_renumbered himaged himaged' hw.str_iff hterms
  refine ⟨lm, lm', hok, hok', hw.totalCount, w, l, ?_, ?_, ?_, hw.uni,
    saveLemid_perm std std' hlookup⟩
  · exact ready_of_imaged lib std hsize hfew hlib.lemmas hterms himaged
  · exact ready_of_imaged lib std' hsize' (hdocs ▸ hfew) hlemmas' (hterms' ▸ hterms) himaged'
  · rw [himaged.tableOf_save huni hlib.lemmas, himaged'.tableOf_save huni' hlemmas']
    exact ⟨hw.injective, hl, hw.docs,
      table_renumbered himaged himaged' huni hw.uni hw.outside hlemId⟩

end TwoRuns

/-- The statistics do not depend on the order of the documents: two runs in fresh directories,
over trees whose archives hold the same non-empty documents in any two orders, have the same
statistics in strings. The library lemmatizes each word by itself, and no `u32` wraps. -/
theorem statistics_permute (dsave dsave' : String) (th : Thresholds ℚ) {lib : Baalbek}
    {image : Bytes → List Bytes} {std std' : Stdlib} {dcorpus dcorpus' : String}
    {tree tree' : List (DirEntry (List Bytes))} {start start' limit limit' : Nat}
    {c c' : Converted}
    (hne : ∀ buff ∈ foundDocs dcorpus tree start limit, buff ≠ [])
    (hperm : (foundDocs dcorpus' tree' start' limit').Perm (foundDocs dcorpus tree start limit))
    (hc : convert std lib dcorpus tree start limit = c)
    (hc' : convert std' lib dcorpus' tree' start' limit' = c')
    (hlib : LemmatizesWords lib image c.uni) (hwrap : NoIdWrap lib c) :
    ∃ lm lm', lemmatize std lib c.uni = .ok lm ∧ lemmatize std' lib c'.uni = .ok lm' ∧
      Nonempty (Run ℚ std dsave th c lm) ∧ Nonempty (Run ℚ std' dsave' th c' lm') ∧
      ∀ (r : Run ℚ std dsave th c lm) (r' : Run ℚ std' dsave' th c' lm'), SortsFit r →
        AllNamed r ∧ SameStatistics r r' := by
  rw [convert_readDocs, readDocs_eq_flatten hne] at hc
  rw [convert_readDocs, readDocs_eq_flatten (fun buff hbuff => hne buff (hperm.mem_iff.mp hbuff))]
    at hc'
  obtain ⟨lm, lm', hok, hok', htotal, w, l, h⟩ :=
    sameUpToIds_of_perm std std' hperm hc hc' hlib hwrap
  refine ⟨lm.save std, lm'.save std', ?_, ?_, h.ready.nonempty_run std dsave th,
    h.ready'.nonempty_run std' dsave' th, fun r r' hfit =>
      ⟨h.ready.allNamed r hfit, h.sameStatistics htotal r r' hfit⟩⟩
  · unfold lemmatize
    rw [hok]
  · unfold lemmatize
    rw [hok']

/-- A library that reads each byte as a word of one letter. -/
def byteLib : Baalbek :=
  { spacedLib letterImage with
      wordBreakDocument := fun buff =>
        buff.map (fun c => { isPunct := false, pwsstr := [1007 + c.toNat] })
      widetombcs := fun s => s.map (fun wc => UInt8.ofNat (wc - 1007)) }

/-- The documents `aba` and `bb`, in two archives. -/
def letterTree : List (DirEntry (List Bytes)) :=
  [.reg "a.zip" [[97, 98, 97]], .reg "b.zip" [[98, 98]]]

/-- The documents `aba` and `bb` in both orders. In the other order the word `b` comes first, so
the ids are other ones, and the statistics are the same. -/
theorem statistics_permute_letters :
    ∃ (lm lm' : Lemmatized)
      (r : Run ℚ Stdlib.sorting "save" ⟨0, 0, 0, 0, 0, 0⟩
        (convert Stdlib.sorting byteLib "corpus/" letterTree 0 0) lm)
      (r' : Run ℚ Stdlib.sorting "save" ⟨0, 0, 0, 0, 0, 0⟩
        (convert Stdlib.sorting byteLib "corpus/" letterTree.reverse 0 0) lm'),
      lm.lems ≠ lm'.lems ∧ AllNamed r ∧ SameStatistics r r' := by
  have huni : (convert Stdlib.sorting byteLib "corpus/" letterTree 0 0).uni
      = { total := 2, msgs := [⟨[98], 2, 3⟩, ⟨[97], 1, 2⟩] } := rfl
  have huni' : (convert Stdlib.sorting byteLib "corpus/" letterTree.reverse 0 0).uni
      = { total := 2, msgs := [⟨[97], 2, 2⟩, ⟨[98], 1, 3⟩] } := rfl
  have hspace : ∀ m ∈ (convert Stdlib.sorting byteLib "corpus/" letterTree 0 0).uni.msgs,
      (32 : UInt8) ∉ m.str := by
    rw [huni]
    decide
  have hlm : lemmatize Stdlib.sorting byteLib
      (convert Stdlib.sorting byteLib "corpus/" letterTree 0 0).uni
      = .ok { lemid := { total := 2, msgs := [⟨[97], 2⟩, ⟨[98], 1⟩] }
              lems := { total := 2, msgs := [⟨[2, 1]⟩, ⟨[1]⟩] } } := by
    rw [huni]
    rfl
  have hlm' : lemmatize Stdlib.sorting byteLib
      (convert Stdlib.sorting byteLib "corpus/" letterTree.reverse 0 0).uni
      = .ok { lemid := { total := 2, msgs := [⟨[98], 2⟩, ⟨[97], 1⟩] }
              lems := { total := 2, msgs := [⟨[2]⟩, ⟨[1, 2]⟩] } } := by
    rw [huni']
    rfl
  have hperm : (foundDocs "corpus/" letterTree.reverse 0 0).Perm
      (foundDocs "corpus/" letterTree 0 0) := by decide
  have hwrap : NoIdWrap byteLib
      (convert Stdlib.sorting byteLib "corpus/" letterTree 0 0) := by
    refine ⟨by rw [huni]; decide, by decide, fun lm hbuild => ?_⟩
    -- The header of `lemid.bin` holds the number of lemmas.
    unfold lemmatize at hlm
    rw [hbuild] at hlm
    have hsize : lm.lemid.size = 2 :=
      congrArg (fun l : Lemmatized => l.lemid.total) (Except.ok.inj hlm)
    rw [hsize]
    decide
  obtain ⟨lm, lm', hok, hok', ⟨r⟩, ⟨r'⟩, hsame⟩ := statistics_permute "save" "save"
    ⟨0, 0, 0, 0, 0, 0⟩ (by decide) hperm (rfl : convert Stdlib.sorting byteLib _ _ _ _ = _)
    (rfl : convert Stdlib.sorting byteLib _ _ _ _ = _)
    ⟨images_spacedLib letterImage hspace, by rw [huni]; decide⟩ hwrap
  rw [hlm] at hok
  rw [hlm'] at hok'
  cases hok
  cases hok'
  have hfit : SortsFit r := sortsFit_of_corpus (by decide) (by decide) (by decide) r
  exact ⟨_, _, r, r', by decide, hsame r r' hfit⟩

end Colloc.Proofs

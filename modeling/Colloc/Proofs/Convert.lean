import Colloc.Spec.Convert

/-!
# `Colloc.Proofs.Convert`: which documents `convert` reads

The lambda over the entries of an archive returns at the first document of length `0`. So
an archive contributes its entries up to there (`convertArchive_eq`). A document with no
accepted word leaves no trace in the counts, and one with an accepted word adds one to
`total_count`. Therefore `convert` agrees with reading every document of non-zero length
exactly when no dropped document has an accepted word (`convert_reads_all_iff`).
-/

set_option autoImplicit false

namespace Colloc.Proofs

open Colloc.Lib
open Colloc.Spec

variable (lib : Baalbek)

/-- Some word of the document is accepted. -/
def hasWord (buff : Bytes) : Bool :=
  (lib.wordBreakDocument buff).any (fun w => !UnigramCounts.rejects w)

/-- One document of non-zero length. -/
def convertDoc (st : ConvertState) (buff : Bytes) : ConvertState :=
  let (found, counts) := st.counts.update lib (lib.wordBreakDocument buff)
  { counts := counts, totalCount := st.totalCount + found.toNat }

/-- The lambda of `convert` reads the entries before the first one of length `0`. The loop stops
there, as at the end of the archive. -/
theorem convertArchive_eq (buffs : List Bytes) :
    ∀ st, convertArchive lib st buffs
      = (buffs.takeWhile (fun buff => buff.length ≠ 0)).foldl (convertDoc lib) st := by
  induction buffs with
  | nil => intro st; rfl
  | cons buff buffs ih =>
      intro st
      rw [convertArchive]
      by_cases h : buff.length = 0
      · -- The early return: nothing behind `buff` is read.
        rw [if_pos h, List.takeWhile_cons_of_neg (by simpa using h)]
        rfl
      · rw [if_neg h, List.takeWhile_cons_of_pos (by simpa using h), List.foldl_cons]
        exact ih _

/-- The flag `empty` at the end of the word loop: it is still set when every word was rejected. -/
theorem foldl_updateStep_empty (doci : List Word) :
    ∀ st : UnigramCounts.UpdateState,
      (doci.foldl (UnigramCounts.updateStep lib) st).empty
        = (st.empty && doci.all UnigramCounts.rejects) := by
  induction doci with
  | nil => intro st; simp
  | cons w doci ih =>
      intro st
      rw [List.foldl_cons, ih, List.all_cons]
      unfold UnigramCounts.updateStep UnigramCounts.updateWord
      cases UnigramCounts.rejects w with
      | true => simp
      | false => simp

/-- `update` reports whether a word was accepted. -/
theorem update_fst (counts : UnigramCounts) (buff : Bytes) :
    (counts.update lib (lib.wordBreakDocument buff)).1 = hasWord lib buff := by
  have hempty := foldl_updateStep_empty lib (lib.wordBreakDocument buff)
    { counts := counts, ids := [], empty := true }
  rw [Bool.true_and] at hempty
  show (!((lib.wordBreakDocument buff).foldl (UnigramCounts.updateStep lib) _).empty) = _
  rw [hempty, hasWord, ← List.not_all_eq_any_not]

/-- A word loop that rejects every word changes nothing. A rejected word ends the open phrase, and
here none is open. -/
theorem foldl_updateStep_rejects (doci : List Word)
    (h : ∀ w ∈ doci, UnigramCounts.rejects w = true) (counts : UnigramCounts) (empty : Bool) :
    doci.foldl (UnigramCounts.updateStep lib) { counts := counts, ids := [], empty := empty }
      = { counts := counts, ids := [], empty := empty } := by
  induction doci with
  | nil => rfl
  | cons w doci ih =>
      rw [List.foldl_cons]
      have hw : UnigramCounts.updateStep lib { counts := counts, ids := [], empty := empty } w
          = { counts := counts, ids := [], empty := empty } := by
        simp [UnigramCounts.updateStep, UnigramCounts.updateWord, h w (by simp)]
      rw [hw]
      exact ih (fun w' hw' => h w' (List.mem_cons_of_mem w hw'))

/-- A document with no accepted word leaves no trace. -/
theorem convertDoc_of_not_hasWord {buff : Bytes} (h : hasWord lib buff = false)
    (st : ConvertState) : convertDoc lib st buff = st := by
  -- Every word is rejected, so no phrase is open and `empty` stays set.
  have hall : ∀ w ∈ lib.wordBreakDocument buff, UnigramCounts.rejects w = true := by
    intro w hw
    have hno := List.any_eq_false.mp h w hw
    simpa using hno
  unfold convertDoc UnigramCounts.update
  rw [foldl_updateStep_rejects lib _ hall]
  rfl

/-- `total_count` is the number of documents with a word. The induction is on the documents, from
any state. -/
theorem foldl_convertDoc_totalCount (buffs : List Bytes) :
    ∀ st, (buffs.foldl (convertDoc lib) st).totalCount
      = st.totalCount + buffs.countP (hasWord lib) := by
  induction buffs with
  | nil => intro st; rfl
  | cons buff buffs ih =>
      intro st
      rw [List.foldl_cons, ih, List.countP_cons]
      show st.totalCount + (st.counts.update lib (lib.wordBreakDocument buff)).1.toNat + _ = _
      rw [update_fst]
      cases hasWord lib buff with
      | true => simp; omega
      | false => simp

/-- The documents of non-zero length behind the first one of length `0`. -/
def droppedDocs (archive : List Bytes) : List Bytes :=
  (archive.dropWhile (fun buff => buff.length ≠ 0)).filter (fun buff => buff.length ≠ 0)

/-- The documents of non-zero length are those that are read and those that are dropped. -/
theorem filter_length_ne_zero (archive : List Bytes) :
    archive.filter (fun buff => buff.length ≠ 0)
      = archive.takeWhile (fun buff => buff.length ≠ 0) ++ droppedDocs archive := by
  conv_lhs => rw [← List.takeWhile_append_dropWhile (p := fun buff : Bytes =>
    decide (buff.length ≠ 0)) (l := archive)]
  rw [List.filter_append, List.filter_eq_self.mpr (List.all_eq_true.mp List.all_takeWhile)]
  rfl

/-- The archives `convert` reads: the files with the ending `.zip`, in the order of the
directory. -/
def zipArchives (dcorpus : String) (tree : List (DirEntry (List Bytes))) : List (List Bytes) :=
  (listFiles 0 0 ".zip" dcorpus tree).map Prod.snd

/-- The state before the first document. -/
def convertStart : ConvertState :=
  { counts := { map := ∅, bufferedOut := [] }, totalCount := 0 }

/-- Every document of non-zero length, in order, through `UnigramCounts::update`. -/
def convertAll (std : Stdlib) (archives : List (List Bytes)) : Converted :=
  ((archives.flatten.filter (fun buff => buff.length ≠ 0)).foldl (convertDoc lib)
    convertStart).save std

/-- Only the documents with an accepted word change the state, so the others may be left out. -/
theorem foldl_convertDoc_filter (buffs : List Bytes) :
    ∀ st, buffs.foldl (convertDoc lib) st
      = (buffs.filter (hasWord lib)).foldl (convertDoc lib) st := by
  induction buffs with
  | nil => intro st; rfl
  | cons buff buffs ih =>
      intro st
      rw [List.foldl_cons]
      cases h : hasWord lib buff with
      | true => rw [List.filter_cons_of_pos h, List.foldl_cons, ih]
      | false =>
          rw [List.filter_cons_of_neg (by simp [h]), convertDoc_of_not_hasWord lib h, ih]

/-- The documents `convert` reads. -/
def readDocs (archives : List (List Bytes)) : List Bytes :=
  archives.flatMap (fun archive => archive.takeWhile (fun buff => buff.length ≠ 0))

/-- The archives are read one behind the other, each up to its first empty entry. -/
theorem readDocs_cons (archive : List Bytes) (archives : List (List Bytes)) :
    readDocs (archive :: archives)
      = archive.takeWhile (fun buff => buff.length ≠ 0) ++ readDocs archives := rfl

/-- The loops over the archives and over their documents are one loop over what is read. -/
theorem foldl_convertArchive (archives : List (List Bytes)) :
    ∀ st, archives.foldl (convertArchive lib) st
      = (readDocs archives).foldl (convertDoc lib) st := by
  induction archives with
  | nil => intro st; rfl
  | cons archive archives ih =>
      intro st
      rw [List.foldl_cons, convertArchive_eq, ih, readDocs_cons, List.foldl_append]

/-- The documents with an accepted word are those among the documents that are read, and
those among the dropped ones. -/
theorem countP_hasWord (archives : List (List Bytes)) :
    (archives.flatten.filter (fun buff => buff.length ≠ 0)).countP (hasWord lib)
      = (readDocs archives).countP (hasWord lib)
        + (archives.flatMap droppedDocs).countP (hasWord lib) := by
  induction archives with
  | nil => rfl
  | cons archive archives ih =>
      rw [List.flatten_cons, List.filter_append, List.countP_append, ih, filter_length_ne_zero,
        List.countP_append, readDocs_cons, List.flatMap_cons, List.countP_append,
        List.countP_append]
      omega

/-- When no dropped document has an accepted word, the documents with one are all read. The other
entries are read or make no difference. -/
theorem filter_hasWord {archives : List (List Bytes)}
    (h : ∀ archive ∈ archives, ∀ buff ∈ droppedDocs archive, hasWord lib buff = false) :
    (archives.flatten.filter (fun buff => buff.length ≠ 0)).filter (hasWord lib)
      = (readDocs archives).filter (hasWord lib) := by
  induction archives with
  | nil => rfl
  | cons archive archives ih =>
      have hnone : (droppedDocs archive).filter (hasWord lib) = [] := by
        refine List.filter_eq_nil_iff.mpr (fun buff hbuff => ?_)
        rw [h archive (by simp) buff hbuff]
        exact Bool.false_ne_true
      rw [List.flatten_cons, List.filter_append, List.filter_append,
        ih (fun a ha => h a (List.mem_cons_of_mem archive ha)), filter_length_ne_zero,
        List.filter_append, hnone, List.append_nil, readDocs_cons, List.filter_append]

/-- `convert` reads every document of non-zero length exactly when no document behind an
empty one of its archive has an accepted word. -/
theorem convert_reads_all_iff (std : Stdlib) (dcorpus : String)
    (tree : List (DirEntry (List Bytes))) :
    convert std lib dcorpus tree 0 0 = convertAll lib std (zipArchives dcorpus tree) ↔
      ∀ archive ∈ zipArchives dcorpus tree, ∀ buff ∈ droppedDocs archive,
        ∀ w ∈ lib.wordBreakDocument buff, UnigramCounts.rejects w = true := by
  have hconvert : convert std lib dcorpus tree 0 0
      = ((readDocs (zipArchives dcorpus tree)).foldl (convertDoc lib) convertStart).save std := by
    rw [← foldl_convertArchive]
    rfl
  have hword : ∀ buff, hasWord lib buff = false ↔
      ∀ w ∈ lib.wordBreakDocument buff, UnigramCounts.rejects w = true := by
    intro buff
    rw [hasWord, List.any_eq_false]
    simp
  rw [hconvert, convertAll]
  generalize zipArchives dcorpus tree = archives
  constructor
  · -- The totals count the documents with a word, so a dropped one would show in them.
    intro heq archive harchive buff hbuff
    have htotal := congrArg Converted.totalCount heq
    have hread := foldl_convertDoc_totalCount lib (readDocs archives) convertStart
    have hall := foldl_convertDoc_totalCount lib
      (archives.flatten.filter (fun buff => buff.length ≠ 0)) convertStart
    rw [countP_hasWord] at hall
    have hzero : (archives.flatMap droppedDocs).countP (hasWord lib) = 0 := by
      have htotal' : ((readDocs archives).foldl (convertDoc lib) convertStart).totalCount
          = ((archives.flatten.filter (fun buff => buff.length ≠ 0)).foldl (convertDoc lib)
              convertStart).totalCount := htotal
      omega
    rw [← hword, ← Bool.not_eq_true]
    exact List.countP_eq_zero.mp hzero buff (List.mem_flatMap.mpr ⟨archive, harchive, hbuff⟩)
  · intro h
    -- The other direction: the documents that change the state are all read.
    have hskip : ∀ archive ∈ archives, ∀ buff ∈ droppedDocs archive,
        hasWord lib buff = false := fun archive ha buff hb =>
      (hword buff).mpr (h archive ha buff hb)
    rw [foldl_convertDoc_filter lib (archives.flatten.filter _), filter_hasWord lib hskip,
      ← foldl_convertDoc_filter]

/-- A library that finds one accepted word in every text. -/
def oneWordLib : Baalbek :=
  { wordBreakDocument := fun _ => [{ isPunct := false, pwsstr := [1072] }]
    makeDocumentImage := fun _ => []
    strtolower := id
    widetombcs := fun s => s.map (fun _ => 208)
    mbcstowide := fun b => b.map (fun _ => 1072) }

/-- An archive with an empty document between two others: the last one is dropped. -/
theorem convert_drops :
    convert Stdlib.sorting oneWordLib "corpus/" [.reg "a.zip" [[65], [], [66]]] 0 0
      ≠ convertAll oneWordLib Stdlib.sorting
          (zipArchives "corpus/" [.reg "a.zip" [[65], [], [66]]]) := by
  intro h
  have htotal := congrArg Converted.totalCount h
  exact absurd htotal (by decide)

end Colloc.Proofs

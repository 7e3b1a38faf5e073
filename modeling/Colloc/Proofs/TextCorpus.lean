import Colloc.Proofs.DocOrder
import Colloc.Proofs.IdCorpus

/-!
# `Colloc.Proofs.TextCorpus`: the collocations of a run, in strings

`textCorpus` is the corpus that `convert` reads, in strings: the maximal runs of accepted words
of each document with an accepted word, each word under its key, and the terms of a word as its
lemmas. `convert` numbers the words and `lemmatize` the lemmas, so the corpus on the files is
the text under other names (`textCorpus_renames`), and what a run lists in ids it lists in
strings.

* `runs_compute`: over every tree of documents the stages end, and their files hold the
  words, the lemmas, the document frequencies and the collocations of the text.

The hypotheses are about the text alone: the library lemmatizes each word by itself, each word
has a lemma, and the numbers stay in the range of the program's counters (`Fits`).
-/

set_option autoImplicit false

namespace Colloc.Proofs

open Colloc.Lib
open Colloc.Spec

/-! ### The text -/

section Text
variable (lib : Baalbek)

/-- The documents with an accepted word: their phrases, in keys. -/
def textDocs (docs : List Bytes) : List (List (List Bytes)) :=
  ((docs.map lib.wordBreakDocument).filter accepts).map (fun doci =>
    (acceptedRuns doci).map (List.map (UnigramCounts.wordKey lib)))

/-- The text with the lemmas of its words. -/
def textCorpus (image : Bytes → List Bytes) (docs : List Bytes) : Corpus Bytes Bytes :=
  { docs := textDocs lib docs, lemmas := image }

/-- The numbers of the text stay in the range of the counters: of the `u32` ids and counts, and
of the `u32` numbers of the parts that the external sorts write. -/
structure Fits (t : Corpus Bytes Bytes) : Prop where
  words : t.words.length < 2 ^ 32
  lemmas : t.lemmaCount < 2 ^ 32
  pairs : ((t.grams 2).map t.readings).sum ≤ 20000000 * (2 ^ 32 - 1)
  triples : ((t.grams 3).map t.readings).sum ≤ 80000000 * (2 ^ 32 - 1)

variable (docs : List Bytes)

/-- The framed documents are the texts with the ids of their words for the words. Both sides go
over the accepted keys of the documents. -/
theorem framedOf_eq : framedOf lib docs
    = (textDocs lib docs).map (List.map (List.map (idIn (mapOf (keysOf lib docs))))) := by
  rw [framedOf, framedDocs, textDocs, List.map_map]
  refine List.map_congr_left (fun doci _ => ?_)
  rw [Function.comp_apply, framedDoc, List.map_map]
  refine List.map_congr_left (fun run _ => ?_)
  rw [Function.comp_apply, phraseOf, List.map_map]
  rfl

/-- The words of the corpus are the keys that `convert` accepts. The framing into phrases and
documents leaves none out, and an empty phrase has none. -/
theorem words_textCorpus (image : Bytes → List Bytes) :
    (textCorpus lib image docs).words = keysOf lib docs := by
  show (textDocs lib docs).flatten.flatten = _
  unfold textDocs keysOf
  induction docs.map lib.wordBreakDocument with
  | nil => rfl
  | cons doci docs ih =>
      have hdoc : ((acceptedRuns doci).map (List.map (UnigramCounts.wordKey lib))).flatten
          = acceptedKeys lib doci := by
        rw [← List.map_flatten, acceptedRuns, flatten_runsBetween, acceptedKeys]
      rw [List.flatMap_cons, ← ih]
      cases h : accepts doci with
      | true =>
          rw [List.filter_cons_of_pos h, List.map_cons, List.flatten_cons, List.flatten_append,
            hdoc]
      | false =>
          have hnone : acceptedKeys lib doci = [] := by
            rw [acceptedKeys, List.filter_eq_nil_iff.mpr (fun w hw => List.any_eq_false.mp h w hw)]
            rfl
          rw [List.filter_cons_of_neg (by simp [h]), hnone]
          rfl

/-- A document with an accepted word has a word, and the others are not there. So there are at
most as many documents as words. -/
theorem length_textDocs_le (image : Bytes → List Bytes) :
    (textDocs lib docs).length ≤ (textCorpus lib image docs).words.length := by
  show _ ≤ (textDocs lib docs).flatten.flatten.length
  have hne : ∀ doc ∈ textDocs lib docs, 1 ≤ doc.flatten.length := by
    intro doc hdoc
    obtain ⟨doci, hdoci, rfl⟩ := List.mem_map.mp hdoc
    obtain ⟨w, hw, haccept⟩ := List.any_eq_true.mp (List.mem_filter.mp hdoci).2
    rw [← List.map_flatten, acceptedRuns, flatten_runsBetween, List.length_map]
    exact List.length_pos_of_mem (List.mem_filter.mpr ⟨hw, haccept⟩)
  generalize textDocs lib docs = text at hne
  induction text with
  | nil => exact Nat.zero_le _
  | cons doc text ih =>
      have hdoc := hne doc List.mem_cons_self
      have hrest := ih (fun doc' hdoc' => hne doc' (List.mem_cons_of_mem doc hdoc'))
      rw [List.flatten_cons, List.flatten_append, List.length_append, List.length_cons]
      omega

end Text

/-! ### The files -/

section Files
variable {lib : Baalbek} {image : Bytes → List Bytes} {docs : List Bytes} {std : Stdlib}
  {c : Converted} {lm : Lemmer}

/-- `uni.bin` has an entry for each word of the map, with its id and its count. -/
theorem mem_saved_uni_iff (std : Stdlib) (m : Unigram) :
    m ∈ ((converted lib docs).save std).uni.msgs ↔
      (mapOf (keysOf lib docs)).lookup m.str = some ⟨m.id, m.weight⟩ := by
  rw [← converted_map]
  exact mem_saveUni std _ m

variable (image) in
/-- The words of `uni.bin` are those of the text. -/
theorem mem_saved_str_iff (std : Stdlib) (s : Bytes) :
    s ∈ ((converted lib docs).save std).uni.msgs.map StrIdWeight.str ↔
      s ∈ (textCorpus lib image docs).words := by
  rw [words_textCorpus, ← isSome_mapOf (keysOf lib docs), Option.isSome_iff_exists, List.mem_map]
  constructor
  · rintro ⟨m, hm, rfl⟩
    exact ⟨_, (mem_saved_uni_iff std m).mp hm⟩
  · rintro ⟨v, hv⟩
    exact ⟨⟨s, v.id, v.weight⟩, (mem_saved_uni_iff std _).mpr hv, rfl⟩

/-- What `convert` and `lemmatize` have done with the documents `docs`. -/
structure TextFiles (lib : Baalbek) (image : Bytes → List Bytes) (docs : List Bytes) (std : Stdlib)
    (c : Converted) (lm : Lemmer) : Prop where
  converted : (converted lib docs).save std = c
  lemmas : ∀ m ∈ c.uni.msgs, image m.str ≠ []
  imaged : Imaged image c.uni.msgs.length c.uni.msgs lm
  fits : Fits (textCorpus lib image docs)

namespace TextFiles
variable (h : TextFiles lib image docs std c lm)

include h

/-- The different words fit the ids, as the numbers of the corpus do. -/
theorem length_keys : (keysOf lib docs).dedup.length < 2 ^ 32 := by
  have hle := (List.dedup_sublist (keysOf lib docs)).length_le
  have hfits := h.fits.words
  rw [words_textCorpus] at hfits
  omega

/-- The entries of `uni.bin` are those of the map of the keys, also after the files were reread.
-/
theorem mem_uni_iff (m : Unigram) :
    m ∈ c.uni.msgs ↔ (mapOf (keysOf lib docs)).lookup m.str = some ⟨m.id, m.weight⟩ := by
  rw [← h.converted]
  exact mem_saved_uni_iff std m

/-- Their texts are the words of the corpus. -/
theorem mem_str_iff (s : Bytes) :
    s ∈ c.uni.msgs.map StrIdWeight.str ↔ s ∈ (textCorpus lib image docs).words := by
  rw [← h.converted]
  exact mem_saved_str_iff image std s

/-- Each word has its entry there, under the id that the corpus file uses. -/
theorem exists_uni {s : Bytes} (hs : s ∈ (textCorpus lib image docs).words) :
    ∃ m ∈ c.uni.msgs, m.str = s ∧ m.id = idIn (mapOf (keysOf lib docs)) s := by
  obtain ⟨m, hm, rfl⟩ := List.mem_map.mp ((h.mem_str_iff s).mpr hs)
  refine ⟨m, hm, rfl, ?_⟩
  rw [idIn, (h.mem_uni_iff m).mp hm]
  rfl

/-- The terms that are numbered are the lemmas of the text: those of some listed word, and a word
is listed when it occurs. -/
theorem isSome_lemid_iff (term : Bytes) :
    (lm.lemid.lookup term).isSome ↔ term ∈ (textCorpus lib image docs).occurring := by
  rw [h.imaged.term_iff]
  constructor
  · rintro ⟨m, hm, hterm⟩
    exact List.mem_flatMap.mpr ⟨m.str, (h.mem_str_iff m.str).mp (List.mem_map_of_mem hm), hterm⟩
  · intro hterm
    obtain ⟨s, hs, hterm⟩ := List.mem_flatMap.mp hterm
    obtain ⟨m, hm, rfl, -⟩ := h.exists_uni hs
    exact ⟨m, hm, hterm⟩

/-- Each lemma that occurs has an id. -/
theorem lookup_lemid {term : Bytes} (hterm : term ∈ (textCorpus lib image docs).occurring) :
    lm.lemid.lookup term = some (lemIdOf lm.lemid term) := by
  obtain ⟨l, hl⟩ := Option.isSome_iff_exists.mp ((h.isSome_lemid_iff term).mpr hterm)
  rw [lemIdOf_eq hl, hl]

/-- There are as many lemma ids as lemmas that occur. -/
theorem lemid_size : lm.lemid.size = (textCorpus lib image docs).lemmaCount := by
  rw [Corpus.lemmaCount, List.card_toFinset]
  refine size_eq_length (List.nodup_dedup _) (fun term => ?_)
  rw [h.isSome_lemid_iff, List.mem_dedup]

/-- The terms that the lemmatizer returns for all words fit `u32`, which is what keeps the lemma
ids apart. -/
theorem terms_lt : (terms image c.uni).length < 2 ^ 32 :=
  h.imaged.terms_lt (by rw [h.lemid_size]; exact h.fits.lemmas)

/-- So the stages start from what the theorems about them ask for: each fact is a bound of `Fits`
or a property of `lemmatize`. -/
theorem ready : Ready (framedOf lib docs) c (lm.save std) := by
  have hlemmas := h.lemmas
  have hterms := h.terms_lt
  have himaged := h.imaged
  have hsize := h.length_keys
  have hfew : (framedOf lib docs).length < 2 ^ 32 := by
    have hle := length_textDocs_le lib docs image
    have hwords := h.fits.words
    rw [framedOf_eq, List.length_map]
    omega
  rw [← h.converted] at hlemmas hterms himaged ⊢
  rw [← size_mapOf] at hsize
  exact ready_of_imaged lib std hsize hfew hlemmas hterms himaged

/-- The corpus on the files is the text under other names. Distinct words and distinct lemmas have
distinct ids, and each word has the lemmas of its string. -/
theorem textCorpus_renames : Renames (idIn (mapOf (keysOf lib docs))) (lemIdOf lm.lemid)
    (textCorpus lib image docs) (idCorpus (framedOf lib docs) (tableOf (lm.save std).lems)) where
  words_injOn := by
    intro s hs s' hs' heq
    have hkeys := words_textCorpus lib docs image
    exact (idIn_eq_iff h.length_keys (hkeys ▸ hs) (hkeys ▸ hs')).mp heq
  lemmas_injOn := by
    intro term hterm term' hterm' heq
    obtain ⟨names, hindex⟩ := h.imaged.index
    obtain ⟨hlen, -⟩ := h.imaged.names_length hindex
    have hlt : names.length < 2 ^ 32 := hlen ▸ h.terms_lt
    have hl' := h.lookup_lemid hterm'
    rw [← heq] at hl'
    exact hindex.injective hlt (h.lookup_lemid hterm) hl'
  docs := framedOf_eq lib docs
  lemmas s hs := by
    obtain ⟨m, hm, rfl, hid⟩ := h.exists_uni hs
    show combos (tableOf (lm.save std).lems) _ = (image m.str).map _
    rw [h.imaged.tableOf_save h.ready.uni h.lemmas, ← hid, h.imaged.combos_eq hm]

/-! ### Names -/

/-- The id of a lemma stands for its text in `lemid.bin`. -/
theorem lookup_lemmaStrings {term : Bytes} (hterm : term ∈ (textCorpus lib image docs).occurring) :
    (lemmaStrings (lm.save std)).lookup (lemIdOf lm.lemid term) = some term := by
  have hnd : ((lemmaStrings (lm.save std)).map Prod.fst).Nodup := by
    rw [lemmaStrings, List.map_map]
    exact h.ready.lemid.nodup
  rw [lookup_eq_some_iff_mem hnd]
  exact List.mem_map.mpr ⟨⟨term, lemIdOf lm.lemid term⟩,
    (mem_save_lemid std lm _).mpr (h.lookup_lemid hterm), rfl⟩

/-- And the id of a word for its text in `uni.bin`. -/
theorem lookup_wordStrings {s : Bytes} (hs : s ∈ (textCorpus lib image docs).words) :
    (wordStrings c).lookup (idIn (mapOf (keysOf lib docs)) s) = some s := by
  have hnd : ((wordStrings c).map Prod.fst).Nodup := by
    rw [wordStrings, List.map_map]
    exact h.ready.uni.nodup
  obtain ⟨m, hm, rfl, hid⟩ := h.exists_uni hs
  rw [lookup_eq_some_iff_mem hnd, ← hid]
  exact List.mem_map_of_mem hm

end TextFiles

end Files

/-! ### What a run computes -/

/-- A group in strings, with its counts as numbers. -/
def groupText {K : Type} [IdTuple K] (c : Converted) (lm : Lemmatized) (lg : LemGroup K ℚ) :
    List (Option Bytes) × ℚ × Multiset (List (Option Bytes) × Nat) :=
  (inStrings (lemmaStrings lm) lg.lids, lg.weight,
    (lg.cases.map (fun cs => (inStrings (wordStrings c) cs.wids, cs.count.toNat)) : List _))

/-- A record whose lemmas and words are all found. -/
def foundRecord (rec : List Bytes × ℚ × Multiset (List Bytes × Nat)) :
    List (Option Bytes) × ℚ × Multiset (List (Option Bytes) × Nat) :=
  (rec.1.map some, rec.2.1, rec.2.2.map (Prod.map (List.map some) id))

/-- A record of a count, its words or lemmas in strings. -/
def gramText {K : Type} [IdTuple K] (strings : List (UInt32 × Bytes)) (g : Gram K) :
    List (Option Bytes) × Nat :=
  (inStrings strings g.ids, g.weight.toNat)

/-- The windows that `trigram_stat` counts: their beginning or their end carries a filtered
pair. -/
def tripleWindows (th : Thresholds ℚ) (t : Corpus Bytes Bytes) : Set (List Bytes) :=
  extending (t.named Set.univ (bounds2 th))

/-- The counted windows of `n` words, each once with its count. -/
def CountsGrams {K : Type} [IdTuple K] (t : Corpus Bytes Bytes) (c : Converted)
    (sel : Set (List Bytes)) (n : Nat) (grams : RecordFile (Gram K)) : Prop :=
  (grams.msgs.map (gramText (wordStrings c))).Perm
    ((t.selected sel n).dedup.map (fun ws => (ws.map some, (t.grams n).count ws)))

/-- The tuples of `n` lemmas with a weight above the threshold, each once with its score and its
cases, and once with its document frequency. -/
def ScoresTuples {K : Type} [IdTuple K] (t : Corpus Bytes Bytes) (c : Converted)
    (lm : Lemmatized) (sel : Set (List Bytes)) (weight : ℚ) (n : Nat)
    (extended : RecordFile (LemGroup K ℚ)) (freq : RecordFile (Gram K)) : Prop :=
  ∃ records, t.Records (t.Heavy sel weight) sel weight n records ∧
    extended.msgs.map (groupText c lm) = records.map foundRecord ∧
    (freq.msgs.map (gramText (lemmaStrings lm))).Perm
      (records.map (fun rec => (rec.1.map some, t.docFreq rec.1)))

/-- The files of the run hold the statistics of the text `t`: its documents, its words and
lemmas with their numbers of occurrences and of documents, the pairs of words and the triples that
extend a collocation with their counts, the tuples of two and of three lemmas with their scores and
document frequencies, and the collocations. -/
structure Computes {std : Stdlib} {dsave : String} {th : Thresholds ℚ} {c : Converted}
    {lm : Lemmatized} (t : Corpus Bytes Bytes) (r : Run ℚ std dsave th c lm) : Prop where
  totalCount : c.totalCount = t.docs.length
  words : (c.uni.msgs.map (fun m => (m.str, m.weight.toNat))).Perm
    (t.words.dedup.map (fun w => (w, t.words.count w)))
  lemmas : (r.lemfreq.msgs.map (fun m => (m.str, m.weight.toNat))).Perm
    (t.occurring.dedup.map (fun l => (l, t.docFreq [l])))
  bi : CountsGrams t c Set.univ 2 r.bi
  tri : CountsGrams t c (tripleWindows th t) 3 r.tri
  extended2 : ScoresTuples t c lm Set.univ th.lem2 2 r.extended2 r.bifreq
  extended3 : ScoresTuples t c lm (tripleWindows th t) th.lem3 3 r.extended3 r.trifreq
  pairs : ∃ records, t.Lists Set.univ (bounds2 th) 2 records ∧
    r.bifiltered.msgs.map (groupText c lm) = records.map foundRecord
  triples : ∃ records, t.Lists (tripleWindows th t) (bounds3 th) 3 records ∧
    r.trifiltered.msgs.map (groupText c lm) = records.map foundRecord

/-- Every record has the document frequency of its lemmas. -/
theorem ScoresTuples.docFreq {K : Type} [IdTuple K] {t : Corpus Bytes Bytes} {c : Converted}
    {lm : Lemmatized} {sel : Set (List Bytes)} {weight : ℚ} {n : Nat}
    {extended : RecordFile (LemGroup K ℚ)} {freq : RecordFile (Gram K)}
    (h : ScoresTuples t c lm sel weight n extended freq) : ∀ g ∈ freq.msgs, ∃ ls : List Bytes,
      inStrings (lemmaStrings lm) g.ids = ls.map some ∧ g.weight.toNat = t.docFreq ls := by
  obtain ⟨records, -, -, hfreq⟩ := h
  intro g hg
  obtain ⟨rec, -, heq⟩ := List.mem_map.mp (hfreq.mem_iff.mp (List.mem_map_of_mem hg))
  exact ⟨rec.1, (congrArg Prod.fst heq).symm, (congrArg Prod.snd heq).symm⟩

namespace TextFiles
variable {lib : Baalbek} {image : Bytes → List Bytes} {docs : List Bytes} {std : Stdlib}
  {c : Converted} {lm : Lemmer} (h : TextFiles lib image docs std c lm)

include h

/-- The texts and weights of `uni.bin` are the words of the corpus with their counts, in the order
of the map. Neither list has a text twice, so it is enough that they have the same members. -/
theorem words_perm : (c.uni.msgs.map (fun m => (m.str, m.weight.toNat))).Perm
    ((textCorpus lib image docs).words.dedup.map
      (fun w => (w, (textCorpus lib image docs).words.count w))) := by
  have hnd : (c.uni.msgs.map StrIdWeight.str).Nodup := by
    have hmsgs : c.uni.msgs.Nodup := h.ready.uni.nodup.of_map
    refine (List.nodup_map_iff_inj_on hmsgs).mpr (fun m hm m' hm' heq => ?_)
    have hlook := (h.mem_uni_iff m).mp hm
    rw [heq, (h.mem_uni_iff m').mp hm'] at hlook
    obtain ⟨hid, hweight⟩ := UniVal.mk.inj (Option.some.inj hlook)
    cases m
    cases m'
    simp_all
  have hperm : (c.uni.msgs.map StrIdWeight.str).Perm (textCorpus lib image docs).words.dedup := by
    refine (List.perm_ext_iff_of_nodup hnd (List.nodup_dedup _)).mpr (fun s => ?_)
    rw [h.mem_str_iff, List.mem_dedup]
  refine List.Perm.trans (List.Perm.of_eq ?_) (hperm.map _)
  rw [List.map_map]
  refine List.map_congr_left (fun m hm => Prod.ext rfl ?_)
  have hfew : ∀ k, (keysOf lib docs).count k < 2 ^ 32 := by
    intro k
    have hwords := h.fits.words
    rw [words_textCorpus] at hwords
    exact List.count_le_length.trans_lt hwords
  have hlook := (h.mem_uni_iff m).mp hm
  have hkey : m.str ∈ keysOf lib docs := by
    rw [← isSome_mapOf, hlook]
    rfl
  have hid : idIn (mapOf (keysOf lib docs)) m.str = m.id := by
    rw [idIn, hlook]
    rfl
  show m.weight.toNat = (textCorpus lib image docs).words.count m.str
  rw [weight_toNat h.length_keys hfew hlook, ← hid, count_map_idIn h.length_keys hkey,
    words_textCorpus]

/-- A lemma has its document frequency in `lemfreq.bin`. The strings of the records are those of
`lemid.bin`, which has the lemmas that occur. -/
theorem lemmas_perm {dsave : String} {th : Thresholds ℚ} (r : Run ℚ std dsave th c (lm.save std)) :
    (r.lemfreq.msgs.map (fun m => (m.str, m.weight.toNat))).Perm
      ((textCorpus lib image docs).occurring.dedup.map
        (fun l => (l, (textCorpus lib image docs).docFreq [l]))) := by
  have hready := h.ready
  have hfreq := congrArg (List.map (fun p : Bytes × UInt32 => (p.1, p.2.toNat)))
    (lemfreq_strWeight hready r)
  rw [List.map_map, List.map_map] at hfreq
  have hstr : ∀ m, m ∈ (lm.save std).lemid.msgs ↔ lm.lemid.lookup m.str = some m.id :=
    mem_save_lemid std lm
  have hnd : ((lm.save std).lemid.msgs.map LemId.str).Nodup := by
    refine (List.nodup_map_iff_inj_on hready.lemid.nodup.of_map).mpr (fun m hm m' hm' heq => ?_)
    have hlook := (hstr m).mp hm
    rw [heq, (hstr m').mp hm'] at hlook
    cases m
    cases m'
    simp_all
  have hperm : ((lm.save std).lemid.msgs.map LemId.str).Perm
      (textCorpus lib image docs).occurring.dedup := by
    refine (List.perm_ext_iff_of_nodup hnd (List.nodup_dedup _)).mpr (fun term => ?_)
    rw [List.mem_dedup, ← h.isSome_lemid_iff, Option.isSome_iff_exists, List.mem_map]
    constructor
    · rintro ⟨m, hm, rfl⟩
      exact ⟨m.id, (hstr m).mp hm⟩
    · rintro ⟨l, hl⟩
      exact ⟨⟨term, l⟩, (hstr _).mpr hl, rfl⟩
  refine List.Perm.trans (List.Perm.of_eq hfreq) ?_
  refine List.Perm.trans (List.Perm.of_eq ?_) (hperm.map _)
  rw [List.map_map]
  refine List.map_congr_left (fun m hm => Prod.ext rfl ?_)
  have hoccur : m.str ∈ (textCorpus lib image docs).occurring := by
    rw [← h.isSome_lemid_iff, (hstr m).mp hm]
    rfl
  have hsingle : ∀ term ∈ [m.str], term ∈ (textCorpus lib image docs).occurring :=
    fun term hterm => (List.mem_singleton.mp hterm) ▸ hoccur
  have hdoc := h.textCorpus_renames.docFreq hsingle
  have hid : [lemIdOf lm.lemid m.str] = IdTuple.toList m.id := by
    rw [lemIdOf_eq ((hstr m).mp hm)]
    rfl
  rw [List.map_singleton, hid, docFreq_idCorpus listsNgrams_id rfl] at hdoc
  show (UInt32.ofNat (docCount id _ _ m.id)).toNat = _
  rw [UInt32.toNat_ofNat', Nat.mod_eq_of_lt ((docCount_le_length _ _ _ _).trans_lt hready.few)]
  exact hdoc

/-- Groups whose records are those of the text under its ids are these records in strings. The id
of a lemma that occurs is found with its string, and so is that of a word. -/
theorem groupText_of_renamed {K : Type} [LemTuple K] {P : List Bytes → Prop}
    {sel : Set (List Bytes)} {t : ℚ} {n : Nat}
    (hP : ∀ ls, P ls → ∀ y ∈ ls, y ∈ (textCorpus lib image docs).occurring)
    {groups : List (LemGroup K ℚ)} {records : List (List Bytes × ℚ × Multiset (List Bytes × Nat))}
    (hrecords : (textCorpus lib image docs).Records P sel t n records)
    (heq : groups.map listGroup = records.map (fun r =>
      (r.1.map (lemIdOf lm.lemid), r.2.1,
        r.2.2.map (Prod.map (List.map (idIn (mapOf (keysOf lib docs)))) id)))) :
    groups.map (groupText c (lm.save std)) = records.map foundRecord := by
  -- Read the lists of ids in strings, on both sides.
  have hread := congrArg (List.map (fun rec : List UInt32 × ℚ × Multiset (List UInt32 × Nat) =>
    (rec.1.map (fun id => (lemmaStrings (lm.save std)).lookup id), rec.2.1,
      rec.2.2.map (Prod.map (List.map (fun id => (wordStrings c).lookup id)) id)))) heq
  rw [List.map_map, List.map_map] at hread
  refine Eq.trans ?_ (hread.trans (List.map_congr_left (fun rec hrec => ?_)))
  · refine List.map_congr_left (fun lg _ => ?_)
    refine Prod.ext rfl (Prod.ext rfl ?_)
    show _ = Multiset.map _ (Multiset.ofList _)
    rw [Multiset.map_coe, List.map_map]
    rfl
  · have hoccur := hP rec.1 ((hrecords.mem_iff rec.1).mp (List.mem_map_of_mem hrec)).2
    refine Prod.ext ?_ (Prod.ext rfl ?_)
    · show (rec.1.map _).map _ = rec.1.map some
      rw [List.map_map]
      exact List.map_congr_left (fun term hterm => h.lookup_lemmaStrings (hoccur term hterm))
    · show (rec.2.2.map _).map _ = rec.2.2.map _
      rw [Multiset.map_map]
      refine Multiset.map_congr rfl (fun cs hcs => ?_)
      rw [hrecords.record rec hrec] at hcs
      have hmem := ((textCorpus lib image docs).mem_cases_iff.mp hcs).1
      have hwords := Corpus.mem_words_of_mem_grams _ (Corpus.mem_selected _ |>.mp hmem).1
      refine Prod.ext ?_ rfl
      show (cs.1.map _).map _ = cs.1.map some
      rw [List.map_map]
      exact List.map_congr_left (fun s hs => h.lookup_wordStrings (hwords s hs))

section Strings
variable {K : Type} [LemTuple K] {sel : Set (List Bytes)} {sel' : Set (List UInt32)} {n : Nat}
  (hsel : ∀ ws ∈ (textCorpus lib image docs).grams n,
    (ws.map (idIn (mapOf (keysOf lib docs))) ∈ sel' ↔ ws ∈ sel))

include hsel

/-- Groups that are listed in ids are listed in strings. -/
theorem exists_lists {b : Bounds} {groups : List (LemGroup K ℚ)}
    (hlists : (idCorpus (framedOf lib docs) (tableOf (lm.save std).lems)).Lists sel' b n
      (groups.map listGroup)) :
    ∃ records, (textCorpus lib image docs).Lists sel b n records ∧
      groups.map (groupText c (lm.save std)) = records.map foundRecord := by
  obtain ⟨records, hrecords, heq⟩ := h.textCorpus_renames.exists_lists hsel hlists
  exact ⟨records, hrecords,
    h.groupText_of_renamed (fun _ hs => hs.mem_occurring) hrecords.toRecords heq⟩

/-- The records of counts that are those of windows of ids are those of windows of words. The
naming is injective on the words that occur, so the counts carry over. -/
theorem countsGrams [ListedTuple K] [DecidableEq K] {windows : Phrase → List K}
    {grams : RecordFile (Gram K)}
    (hcounts : CountsSelected windows n (framedOf lib docs) sel' grams.msgs) :
    CountsGrams (textCorpus lib image docs) c sel n grams := by
  have hgrams := h.textCorpus_renames.grams n
  have hinj := h.textCorpus_renames.grams_injOn n
  have hselected : ∀ ws ∈ (textCorpus lib image docs).selected sel n,
      ws ∈ (textCorpus lib image docs).grams n := fun ws hws => (Corpus.mem_selected _ |>.mp hws).1
  -- The ids of the records are those of the selected windows of words.
  have hkeys : ((grams.msgs.map Gram.ids).map IdTuple.toList).Perm
      (((textCorpus lib image docs).selected sel n).dedup.map
        (List.map (idIn (mapOf (keysOf lib docs))))) := by
    have hdedup : ((idCorpus (framedOf lib docs) (tableOf (lm.save std).lems)).selected sel'
        n).dedup.Perm ((grams.msgs.map Gram.ids).map IdTuple.toList) := hcounts.dedup_selected
    rw [h.textCorpus_renames.selected hsel] at hdedup
    exact hdedup.symm.trans (dedup_map_perm hinj hselected)
  have hread := hkeys.map (fun ids : List UInt32 =>
    (ids.map (fun id => (wordStrings c).lookup id),
      ((idCorpus (framedOf lib docs) (tableOf (lm.save std).lems)).grams n).count ids))
  rw [List.map_map, List.map_map, List.map_map] at hread
  refine (List.Perm.of_eq ?_).trans (hread.trans (List.Perm.of_eq ?_))
  · refine List.map_congr_left (fun g hg => Prod.ext rfl ?_)
    exact hcounts.weight_toNat hg
  · refine List.map_congr_left (fun ws hws => ?_)
    have hgram := hselected ws (List.mem_dedup.mp hws)
    refine Prod.ext ?_ ?_
    · show (ws.map _).map _ = ws.map some
      rw [List.map_map]
      exact List.map_congr_left (fun s hs =>
        h.lookup_wordStrings (Corpus.mem_words_of_mem_grams _ hgram s hs))
    · show List.count (ws.map _) _ = List.count ws _
      rw [hgrams]
      exact count_map_injOn hinj (fun _ hmem => hmem) hgram

/-- The groups and the document frequencies of the tuples with a weight above the threshold. The
records on the ids are those of the text under its names, and both tables list the same tuples. -/
theorem scoresTuples [ListedTuple K] [DecidableEq K] {windows : Phrase → List K}
    (hwin : ListsNgrams windows n) (hlen : ∀ k : K, (IdTuple.toList k).length = n) {t : ℚ}
    {extended : RecordFile (LemGroup K ℚ)} {freq : RecordFile (Gram K)}
    (hfreq : DocTable windows (tableOf (lm.save std).lems) (framedOf lib docs) extended freq)
    (hrecords : (idCorpus (framedOf lib docs) (tableOf (lm.save std).lems)).Records
      ((idCorpus (framedOf lib docs) (tableOf (lm.save std).lems)).Heavy sel' t) sel' t n
      (extended.msgs.map listGroup)) :
    ScoresTuples (textCorpus lib image docs) c (lm.save std) sel t n extended freq := by
  have hids : (extended.msgs.map listGroup).map Prod.fst
      = (extended.msgs.map LemGroup.lids).map IdTuple.toList := by
    rw [List.map_map, List.map_map]
    rfl
  obtain ⟨records, hlisted, heq⟩ := h.textCorpus_renames.exists_records hsel (fun _ hs => hs)
    (fun _ hs => hs) (fun ls hn hls => h.textCorpus_renames.heavy_iff hsel hn hls t) hrecords
  have hfound := h.groupText_of_renamed (fun _ hs => hs.mem_occurring) hlisted heq
  refine ⟨records, hlisted, hfound, ?_⟩
  -- The frequencies are those of the groups, in another order.
  have hnodup : (extended.msgs.map LemGroup.lids).Nodup := by
    have hnd := hrecords.nodup
    rw [hids] at hnd
    exact hnd.of_map _
  have hkeys : (freq.msgs.map Gram.ids).Perm (extended.msgs.map LemGroup.lids) :=
    (List.perm_ext_iff_of_nodup hfreq.ascending.nodup_keys hnodup).mpr hfreq.mem_keys_iff
  have hdoc := hkeys.map (fun k => (inStrings (lemmaStrings (lm.save std)) k,
    docCount windows (tableOf (lm.save std).lems) (framedOf lib docs) k))
  rw [List.map_map, List.map_map] at hdoc
  refine (List.Perm.of_eq ?_).trans (hdoc.trans (List.Perm.of_eq ?_))
  · refine List.map_congr_left (fun g hg => Prod.ext rfl ?_)
    show g.weight.toNat = _
    rw [(hfreq.sound g hg).2, UInt32.toNat_ofNat',
      Nat.mod_eq_of_lt ((docCount_le_length _ _ _ _).trans_lt h.ready.few)]
    rfl
  · -- A group and its record have the same lemmas.
    have hpaired := congrArg (List.map (fun rec : List UInt32 × ℚ × Multiset (List UInt32 × Nat) =>
      (rec.1.map (fun id => (lemmaStrings (lm.save std)).lookup id),
        (idCorpus (framedOf lib docs) (tableOf (lm.save std).lems)).docFreq rec.1))) heq
    rw [List.map_map, List.map_map] at hpaired
    refine Eq.trans ?_ (hpaired.trans (List.map_congr_left (fun rec hrec => ?_)))
    · exact List.map_congr_left (fun lg _ =>
        Prod.ext rfl (docFreq_idCorpus hwin (hlen lg.lids)).symm)
    · have hoccur := ((hlisted.mem_iff rec.1).mp (List.mem_map_of_mem hrec)).2.mem_occurring
      refine Prod.ext ?_ (h.textCorpus_renames.docFreq hoccur)
      show (rec.1.map _).map _ = rec.1.map some
      rw [List.map_map]
      exact List.map_congr_left (fun term hterm => h.lookup_lemmaStrings (hoccur term hterm))

end Strings

/-- The corpus file has as many ids as the corpus has words. -/
theorem length_words : c.corpus.flatten.length < 2 ^ 32 := by
  have hwords := h.fits.words
  rw [h.ready.corpus, ← words_idCorpus (framedOf lib docs) (tableOf (lm.save std).lems),
    h.textCorpus_renames.words, List.length_map]
  exact hwords

/-- The numbers of lemma tuples are those of the readings. A word has as many ids of lemmas as its
string has lemmas. -/
theorem sum_readings {K : Type} [LemTuple K] [ListedTuple K] {windows : Phrase → List K} {n : Nat}
    (hwin : ListsNgrams windows n) :
    ((c.corpus.flatMap windows).map
        (fun k => (combos (tableOf (lm.save std).lems) k).length)).sum
      = (((textCorpus lib image docs).grams n).map (textCorpus lib image docs).readings).sum := by
  have hgrams := h.textCorpus_renames.grams n
  rw [grams_idCorpus _ _ hwin, ← h.ready.corpus] at hgrams
  have hids := congrArg (List.map (idCorpus (framedOf lib docs)
    (tableOf (lm.save std).lems)).readings) hgrams
  rw [List.map_map, List.map_map] at hids
  refine congrArg List.sum (Eq.trans ?_ (hids.trans (List.map_congr_left (fun ws hws => ?_))))
  · exact List.map_congr_left (fun k _ => ListedTuple.length_combos _ k)
  · exact h.textCorpus_renames.readings (Corpus.mem_words_of_mem_grams _ hws)

/-- The external sorts of the run fit their part counters, as there are at most `u32` many keys to
sort. -/
theorem sortsFit {dsave : String} {th : Thresholds ℚ} (r : Run ℚ std dsave th c (lm.save std)) :
    SortsFit r := by
  have hne : ∀ lids ∈ tableOf (lm.save std).lems, lids ≠ [] := fun lids hlids => by
    obtain ⟨msg, hmsg, rfl⟩ := List.mem_map.mp hlids
    have hkept := (List.mem_filter.mp hmsg).2
    intro hnil
    rw [hnil] at hkept
    cases hkept
  refine sortsFit_of_corpus hne ?_ ?_ r
  · rw [h.sum_readings listsNgrams_pairs]
    exact h.fits.pairs
  · rw [h.sum_readings listsNgrams_triples]
    exact h.fits.triples

/-- A triple of words extends a collocation of two lemmas in ids if and only if it does in
strings. -/
theorem extending_iff (b : Bounds) {ws : List Bytes}
    (hws : ws ∈ (textCorpus lib image docs).grams 3) :
    ws.map (idIn (mapOf (keysOf lib docs)))
        ∈ extending ((idCorpus (framedOf lib docs) (tableOf (lm.save std).lems)).named Set.univ b) ↔
      ws ∈ extending ((textCorpus lib image docs).named Set.univ b) := by
  have hlen := Corpus.length_of_mem_grams _ hws
  have hmem := Corpus.mem_words_of_mem_grams _ hws
  have huniv : ∀ ws ∈ (textCorpus lib image docs).grams 2,
      (ws.map (idIn (mapOf (keysOf lib docs))) ∈ (Set.univ : Set (List UInt32)) ↔
        ws ∈ (Set.univ : Set (List Bytes))) :=
    fun _ _ => iff_of_true (Set.mem_univ _) (Set.mem_univ _)
  have hpair : ∀ ws' : List Bytes, ws'.length = 2 → (∀ w ∈ ws', w ∈ ws) →
      (ws'.map (idIn (mapOf (keysOf lib docs)))
          ∈ (idCorpus (framedOf lib docs) (tableOf (lm.save std).lems)).named Set.univ b ↔
        ws' ∈ (textCorpus lib image docs).named Set.univ b) :=
    fun ws' hlen' hsub =>
      h.textCorpus_renames.named_iff huniv (fun w hw => hmem w (hsub w hw)) hlen'
  have hinit : ws.dropLast.length = 2 := by
    rw [List.length_dropLast, hlen]
  have htail : ws.tail.length = 2 := by
    rw [List.length_tail, hlen]
  show _ ∨ _ ↔ _ ∨ _
  rw [← List.map_dropLast, ← List.map_tail]
  exact or_congr (hpair ws.dropLast hinit (fun w hw => List.mem_of_mem_dropLast hw))
    (hpair ws.tail htail (fun w hw => List.mem_of_mem_tail hw))

/-- The run computes the statistics of the text. Each file is exact on the ids, and the naming
takes it to the strings, the pairs before the triples, which are counted over the pairs that were
filtered in. -/
theorem computes {dsave : String} {th : Thresholds ℚ} (r : Run ℚ std dsave th c (lm.save std)) :
    Computes (textCorpus lib image docs) r := by
  have hready := h.ready
  have hfit := h.sortsFit r
  have hwords := h.length_words
  have hall : ∀ ws ∈ (textCorpus lib image docs).grams 2,
      (ws.map (idIn (mapOf (keysOf lib docs))) ∈ (Set.univ : Set (List UInt32)) ↔
        ws ∈ (Set.univ : Set (List Bytes))) :=
    fun _ _ => iff_of_true (Set.mem_univ _) (Set.mem_univ _)
  have hcounted := fun (ws : List Bytes) (hws : ws ∈ (textCorpus lib image docs).grams 3) =>
    h.extending_iff (bounds2 th) hws
  refine ⟨?_, h.words_perm, h.lemmas_perm r,
    h.countsGrams hall (r.countsPairs hready hwords),
    h.countsGrams hcounted (r.countsTriples hready hwords hfit),
    h.scoresTuples hall listsNgrams_pairs (fun _ => rfl) (r.bifreq_table hready.splits)
      (r.records2 hready hwords hfit),
    h.scoresTuples hcounted listsNgrams_triples (fun _ => rfl) (r.trifreq_table hready.splits)
      (r.records3 hready hwords hfit),
    h.exists_lists hall (r.lists2 hready hwords hfit),
    h.exists_lists hcounted (r.lists3 hready hwords hfit)⟩
  rw [← h.converted]
  show (Proofs.converted lib docs).totalCount = (textDocs lib docs).length
  rw [← length_framedDocs lib (mapOf (keysOf lib docs)), ← framedOf, framedOf_eq, List.length_map]

end TextFiles

/-- `uni.bin` numbers the words of documents whose numbers fit. Each of them has an id of its own,
from `1` on. -/
theorem dense_of_fits {lib : Baalbek} {image : Bytes → List Bytes} {docs : List Bytes}
    (std : Stdlib) (hfits : Fits (textCorpus lib image docs)) :
    DenseIds ((converted lib docs).save std).uni := by
  have hsize : (mapOf (keysOf lib docs)).size < 2 ^ 32 := by
    have hle := (List.dedup_sublist (keysOf lib docs)).length_le
    have hwords := hfits.words
    rw [words_textCorpus] at hwords
    rw [size_mapOf]
    omega
  exact (converted_listsWords lib std hsize).denseIds (by rw [length_saved_uni]; exact hsize)
    (length_saveUni std _).symm

/-- The files of `convert` and `lemmatize` over documents whose numbers fit. -/
theorem textFiles_of_fits {lib : Baalbek} {image : Bytes → List Bytes} {docs : List Bytes}
    {std : Stdlib} {c : Converted} (hc : (converted lib docs).save std = c)
    (hlib : LemmatizesWords lib image c.uni) (hfits : Fits (textCorpus lib image docs)) :
    ∃ lm, buildLemmer lib c.uni = .ok lm ∧ TextFiles lib image docs std c lm := by
  subst hc
  obtain ⟨lm, hok, himaged⟩ := buildLemmer_imaged hlib.images (dense_of_fits std hfits)
  exact ⟨lm, hok, rfl, hlib.lemmas, himaged, hfits⟩

end Colloc.Proofs

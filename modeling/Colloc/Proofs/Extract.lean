import Colloc.Proofs.Filters
import Colloc.Proofs.GramCounts
import Colloc.Proofs.Zmap
import Colloc.Spec.Extract

/-!
# `Colloc.Proofs.Extract`: the program runs to its end

The stages of `main`, each on the files of the stages before it. What a stage looks up is
there because an earlier stage put it there: every word of the corpus has lemmas, every
recorded pair and triple comes from the corpus, and every frequency and text that `to_zmap`
reads is in its file. So no index is out of range, no failed search is dereferenced, and no
exception is raised (`extract_total`).

The linguistic library has to return an image for each word, with lemmas that are not empty.
An image with an empty lemma among others raises the exception of `to_zmap`
(`extract_wrongValues`).
-/

set_option autoImplicit false

namespace Colloc.Proofs

open Colloc.Lib
open Colloc.Spec

/-- The word breaker yields words that are not empty, and their encoding is not empty. -/
structure BreaksWords (lib : Baalbek) : Prop where
  nonempty : ∀ buff, ∀ w ∈ lib.wordBreakDocument buff, w.pwsstr ≠ []
  encodes : ∀ s, s ≠ [] → lib.widetombcs (lib.strtolower s) ≠ []

/-- No `u32` wraps: the ids of the words, the numbers of documents, and the ids of the
lemmas. -/
structure NoIdWrap (lib : Baalbek) (c : Converted) : Prop where
  words : c.uni.msgs.length < 2 ^ 32
  docs : c.corpus.count [] < 2 ^ 32
  lemmas : ∀ lm, buildLemmer lib c.uni = .ok lm → lm.lemid.size < 2 ^ 32

/-! ### The corpus -/

/-- Below `2 ^ 32` documents no chunk number wraps. -/
theorem partCount_le {corpus : List Phrase} (h : corpus.count [] < 2 ^ 32)
    (full : UInt32 → Bool) : partCount full corpus ≤ 2 ^ 32 := by
  have hle : (List.range (corpus.count [])).countP (fun i => full (1 + UInt32.ofNat i))
      ≤ corpus.count [] := by
    refine le_trans List.countP_le_length ?_
    rw [List.length_range]
  unfold partCount
  omega

/-- What the stages from `bigram_stat` to `filter_trilems` rely on: closed documents over words with
lemmas, and the lists of these words and of their lemmas. They read no texts. -/
structure Ready (docs : List (List Phrase)) (c : Converted) (lemmatized : Lemmatized) : Prop where
  corpus : c.corpus = corpusOf docs
  phrases_ne : ∀ doc ∈ docs, ∀ ids ∈ doc, ids ≠ []
  few : docs.length < 2 ^ 32
  uni : ListsWords c.uni (corpusOf docs).flatten
  lemmas : HaveLemmas (tableOf lemmatized.lems) (corpusOf docs)
  lemid : NumbersLemmas (tableOf lemmatized.lems) docs lemmatized.lemid

/-- What all stages behind `lemmatize` rely on: `to_zmap` reads the texts. -/
structure Prepared (docs : List (List Phrase)) (c : Converted) (lemmatized : Lemmatized) :
    Prop extends Ready docs c lemmatized where
  text : ∀ m ∈ c.uni.msgs, m.str ≠ []
  lemmaText : ∀ m ∈ lemmatized.lemid.msgs, m.str ≠ []

/-- Fewer than `2 ^ 32` documents make at most `2 ^ 32` parts, whatever the test for the end of a
part is. -/
theorem Ready.parts {docs : List (List Phrase)} {c : Converted} {lemmatized : Lemmatized}
    (h : Ready docs c lemmatized) (full : UInt32 → Bool) :
    partCount full (corpusOf docs) ≤ 2 ^ 32 :=
  partCount_le (by rw [count_corpusOf h.phrases_ne]; exact h.few) full

/-- `convert` and `lemmatize` prepare the corpus. The words of `uni.bin` are keys of words and not
empty, each gets at least one lemma, and no id has wrapped. -/
theorem prepared_of_convert (std : Stdlib) {lib : Baalbek} {dcorpus : String}
    {tree : List (DirEntry (List Bytes))} (hbreak : BreaksWords lib)
    (hlib : Lemmatizes lib GoodImage) {c : Converted}
    (hc : convert std lib dcorpus tree 0 0 = c) (hwrap : NoIdWrap lib c) :
    ∃ docs lemmatized, lemmatize std lib c.uni = .ok lemmatized ∧ Prepared docs c lemmatized := by
  -- The words of `uni.bin` are keys of words, and so they are not empty.
  obtain ⟨docs, hcorpus, hne, hkeys, hlists⟩ := convert_spec (P := IsWordKey lib) std lib dcorpus
    tree 0 0 (fun buff w hw hrej => ⟨buff, w, hw, hrej, rfl⟩)
  have htotal : readTotal (convert std lib dcorpus tree 0 0).uni
      = (convert std lib dcorpus tree 0 0).uni.msgs.length := (length_saveUni std _).symm
  rw [hc] at hcorpus hkeys hlists htotal
  have huni := hlists hwrap.words
  rw [hcorpus] at huni
  obtain ⟨lm, hlm, htable⟩ := buildLemmer_spec hlib htotal ⟨hkeys, huni.index_lt, huni.nodup⟩
  have hsave := htable.tableOf_save huni std
  have hfew : docs.length < 2 ^ 32 := by
    rw [← count_corpusOf hne, ← hcorpus]
    exact hwrap.docs
  have hlemid := htable.listsLemmas huni (hwrap.lemmas lm hlm) std
  rw [← hsave] at hlemid
  refine ⟨docs, lm.save std, ?_, ⟨hcorpus, hne, hfew, huni, ?_, hlemid.toNumbersLemmas⟩,
    fun m hm => ?_, hlemid.text⟩
  · unfold lemmatize
    rw [hlm]
  · rw [hsave]
    exact htable.haveLemmas huni
  · obtain ⟨buff, w, hw, -, hkey⟩ := hkeys m hm
    rw [← hkey]
    exact hbreak.encodes _ (hbreak.nonempty buff w hw)

/-! ### The stages -/

section Stages
variable {R : Type} [Double R] (std : Stdlib) (dsave : String) (th : Thresholds R)
  {docs : List (List Phrase)} {c : Converted} {lemmatized : Lemmatized}

/-- Some of the groups of a file with frequencies have frequencies, and these are above zero, as
each group comes from a window of the corpus. -/
theorem hasFreqs_of_table {K : Type} [LemTuple K] [DecidableEq K] {windows : Phrase → List K}
    {lems : List (List UInt32)} (hwin : WindowsOf windows)
    {extended filtered : RecordFile (LemGroup K R)} {freq : RecordFile (Gram K)}
    (hfrom : ∀ lg ∈ extended.msgs, FromCorpus windows lems (corpusOf docs) lg)
    (hfreq : FreqTable windows lems docs extended freq)
    (hsub : ∀ lg ∈ filtered.msgs, lg ∈ extended.msgs) :
    HasFreqs windows lems (corpusOf docs) filtered freq where
  fromCorpus lg hlg := hfrom lg (hsub lg hlg)
  listed lg hlg := (hfreq.mem_keys_iff lg.lids).mpr (List.mem_map_of_mem (hsub lg hlg))
  nonzero g hg h0 := by
    obtain ⟨hrec, hcount⟩ := hfreq.sound g hg
    have hpos := docCount_recorded hwin hfrom hrec
    rw [← hcount, h0] at hpos
    exact absurd hpos (Nat.lt_irrefl 0)

/-- `bigram_stat`, `group_lem2`, `bifreq_stat` and `filter_bilems` succeed. The pairs come from
the corpus, so all their words have lemmas, and each group has a frequency above zero. -/
theorem extractBigrams_total (h : Ready docs c lemmatized) :
    ∃ files, extractBigrams std dsave th c lemmatized = .ok files ∧
      HasFreqs pairs (tableOf lemmatized.lems) (corpusOf docs) files.bifiltered files.bifreq := by
  obtain ⟨bi, dir, hbi, htable⟩ := bigramStatBy_fresh std chunkFull dsave (corpusOf docs)
    (h.parts chunkFull)
  -- The pairs of `bi.bin` are pairs of the corpus.
  obtain ⟨extended2, hgroup, hfrom⟩ := groupLem_fromCorpus (R := R) score2_found std h.lemmas
    h.uni windowsOf_pairs (RecordFile.mk 0 bi)
    (fun g hg => (htable.sound g hg).1) th.lem2
  have hdocs := h.lemmas.documents h.few h.phrases_ne
  -- The groups come from the corpus, so each has a frequency above zero.
  obtain ⟨bifreq, lemfreq, hfreq, hcounts⟩ := bifreqStat_total std hdocs h.lemid
    (RecordFile.mk 0 extended2) hfrom
  obtain ⟨bifiltered, hfilter, hsub⟩ := filterBilems_spec std th.bi1 th.bi2
    (fun lg hlg => (hcounts.mem_keys_iff lg.lids).mpr (List.mem_map_of_mem hlg))
    (fun lg hlg => (hfrom lg hlg).isNumber)
  have hstat : bigramStat std dsave (corpusOf docs) ∅ = .ok (RecordFile.mk 0 bi, dir) := hbi
  have hgroup2 : groupLem2 std lemmatized.lems c.uni (RecordFile.mk 0 bi) th.lem2
      = .ok (RecordFile.mk 0 extended2) := hgroup
  refine ⟨{ extended2 := RecordFile.mk 0 extended2
            bifreq := bifreq
            lemfreq := lemfreq
            bifiltered := bifiltered }, ?_, hasFreqs_of_table windowsOf_pairs hfrom hcounts hsub⟩
  unfold extractBigrams extractBigramsIn PartDirs.empty
  rw [h.corpus]
  simp only [hstat, hgroup2, hfreq, hfilter]

/-- `trigram_stat`, `group_lem3`, `trifreq_stat` and `filter_trilems` succeed, whatever pairs the
filter has kept. -/
theorem extractTrigrams_total (h : Ready docs c lemmatized)
    (bifiltered : RecordFile (Lem2Group R)) :
    ∃ files, extractTrigrams std dsave th c lemmatized bifiltered = .ok files ∧
      HasFreqs triples (tableOf lemmatized.lems) (corpusOf docs) files.trifiltered
        files.trifreq := by
  obtain ⟨tri, dir, htri, htable⟩ := trigramStatBy_fresh std chunkFull dsave bifiltered
    (corpusOf docs) (h.parts chunkFull)
  -- So are the triples of `tri.bin`, whatever the filter is.
  obtain ⟨extended3, hgroup, hfrom⟩ := groupLem_fromCorpus (R := R) score3_found std h.lemmas
    h.uni windowsOf_triples (RecordFile.mk 0 tri)
    (fun g hg => (htable.sound g hg).1.1) th.lem3
  have hdocs := h.lemmas.documents h.few h.phrases_ne
  obtain ⟨trifreq, hfreq, hcounts⟩ := trifreqStat_total std hdocs
    (RecordFile.mk 0 extended3) hfrom
  obtain ⟨trifiltered, hfilter, hsub⟩ := filterTrilems_spec std th.tri1 th.tri2
    (fun lg hlg => (hcounts.mem_keys_iff lg.lids).mpr (List.mem_map_of_mem hlg))
    (fun lg hlg => (hfrom lg hlg).isNumber)
  have hstat : trigramStat std dsave bifiltered (corpusOf docs) ∅
      = .ok (RecordFile.mk 0 tri, dir) := htri
  have hgroup3 : groupLem3 std lemmatized.lems c.uni (RecordFile.mk 0 tri) th.lem3
      = .ok (RecordFile.mk 0 extended3) := hgroup
  refine ⟨{ extended3 := RecordFile.mk 0 extended3
            trifreq := trifreq
            trifiltered := trifiltered }, ?_,
    hasFreqs_of_table windowsOf_triples hfrom hcounts hsub⟩
  unfold extractTrigrams extractTrigramsIn PartDirs.empty
  rw [h.corpus]
  simp only [hstat, hgroup3, hfreq, hfilter]

end Stages

/-! ### The program -/

/-- The program in a fresh save directory, without the part files that it leaves behind for later
runs. -/
theorem extract_eq {R : Type} [Double R] (std : Stdlib) (lib : Baalbek) (dcorpus dsave : String)
    (tree : List (DirEntry (List Bytes))) (th : Thresholds R) :
    extract std lib dcorpus dsave tree th
      = match lemmatize std lib (convert std lib dcorpus tree 0 0).uni with
        | .error e => .error e
        | .ok lemmatized =>
            match extractBigrams std dsave th (convert std lib dcorpus tree 0 0) lemmatized with
            | .error e => .error e
            | .ok b =>
                match extractTrigrams std dsave th (convert std lib dcorpus tree 0 0) lemmatized
                    b.bifiltered with
                | .error e => .error e
                | .ok t =>
                    toZmap std lib
                      { bifreq := b.bifreq
                        bifiltered := b.bifiltered
                        trifreq := t.trifreq
                        trifiltered := t.trifiltered
                        uni := (convert std lib dcorpus tree 0 0).uni
                        lemid := lemmatized.lemid
                        lemfreq := b.lemfreq
                        totalCount := (convert std lib dcorpus tree 0 0).totalCount }
                      "v1.10" := by
  unfold extract Job.runIn Job.converted extractBigrams extractTrigrams
  dsimp only
  cases lemmatize std lib (convert std lib dcorpus tree 0 0).uni with
  | error e => rfl
  | ok lemmatized =>
      dsimp only
      cases extractBigramsIn std dsave th (convert std lib dcorpus tree 0 0) lemmatized
          PartDirs.empty.biParts with
      | error e => rfl
      | ok b =>
          dsimp only
          cases extractTrigramsIn std dsave th (convert std lib dcorpus tree 0 0) lemmatized
              PartDirs.empty.triParts b.bifiltered with
          | error e => rfl
          | ok t => rfl

/-- No stage fails on what the earlier stages wrote. Each stage hands on what the next one asks
for, up to the files of `to_zmap`. -/
theorem extract_total {R : Type} [Double R] (std : Stdlib) (lib : Baalbek)
    (dcorpus dsave : String) (tree : List (DirEntry (List Bytes))) (th : Thresholds R)
    (hbreak : BreaksWords lib) (hlib : Lemmatizes lib GoodImage)
    (hwrap : NoIdWrap lib (convert std lib dcorpus tree 0 0)) :
    ∃ stat, extract std lib dcorpus dsave tree th = .ok stat := by
  obtain ⟨docs, lemmatized, hlemmatize, h⟩ := prepared_of_convert std hbreak hlib rfl hwrap
  obtain ⟨b, hb, hbi⟩ := extractBigrams_total std dsave th h.toReady
  obtain ⟨t, ht, htri⟩ := extractTrigrams_total std dsave th h.toReady b.bifiltered
  obtain ⟨stat, hstat⟩ := toZmap_total std lib
    { bifreq := b.bifreq
      bifiltered := b.bifiltered
      trifreq := t.trifreq
      trifiltered := t.trifiltered
      uni := (convert std lib dcorpus tree 0 0).uni
      lemid := lemmatized.lemid
      lemfreq := b.lemfreq
      totalCount := (convert std lib dcorpus tree 0 0).totalCount }
    hbi htri h.uni h.text ⟨h.lemid, h.lemmaText⟩ "v1.10"
  refine ⟨stat, ?_⟩
  rw [extract_eq]
  simp only [hlemmatize, hb, ht, hstat]

/-! ### A library with one image -/

/-- A library that finds a pair of words in every text and has one image for every word. -/
def oneImageLib (image : List Bytes) : Baalbek :=
  { wordBreakDocument := fun _ => [⟨false, [1072]⟩, ⟨false, [1072]⟩]
    makeDocumentImage := fun text => text.flatMap (fun b => if b = 32 then [image] else [])
    strtolower := id
    widetombcs := fun s => s.map (fun _ => 208)
    mbcstowide := fun _ => [1072, 1072, 1072] }

/-- It finds words that are not empty. -/
theorem oneImageLib_breaks (image : List Bytes) : BreaksWords (oneImageLib image) where
  nonempty buff w hw := by
    rcases List.mem_pair.mp hw with rfl | rfl
    · exact List.cons_ne_nil _ _
    · exact List.cons_ne_nil _ _
  encodes s hs := by
    show s.map (fun _ => (208 : UInt8)) ≠ []
    exact fun hnil => hs (List.map_eq_nil_iff.mp hnil)

/-- It gives one image for each space of the text, so one for each word of a batch: a key has no
space, and one stands behind each key. -/
theorem oneImageLib_lemmatizes {P : List Bytes → Prop} {image : List Bytes} (h : P image) :
    Lemmatizes (oneImageLib image) P := by
  -- A key has no space, so the spaces of a batch end its words.
  have hkey : ∀ w, IsWordKey (oneImageLib image) w →
      w.flatMap (fun b => if b = 32 then [image] else []) = [] := by
    rintro w ⟨buff, w', -, -, rfl⟩
    refine List.flatMap_eq_nil_iff.mpr (fun b hb => ?_)
    obtain ⟨wc, -, rfl⟩ := List.mem_map.mp hb
    rfl
  have himages : ∀ words, (∀ w ∈ words, IsWordKey (oneImageLib image) w) →
      (oneImageLib image).makeDocumentImage (batchText words)
        = List.replicate words.length image := by
    intro words hwords
    show (batchText words).flatMap _ = _
    induction words with
    | nil => rfl
    | cons w words ih =>
        have hcons : batchText (w :: words) = (w ++ [32]) ++ batchText words := rfl
        rw [hcons, List.flatMap_append, List.flatMap_append,
          ih (fun w' hw' => hwords w' (List.mem_cons_of_mem w hw')),
          hkey w (hwords w List.mem_cons_self)]
        rfl
  refine ⟨fun words hwords => ?_, fun words hwords img himg => ?_⟩
  · rw [himages words hwords, List.length_replicate]
  · rw [himages words hwords] at himg
    rw [List.eq_of_mem_replicate himg]
    exact h

/-- One document with this library wraps no id: there is one word, and the lemmas of its one
image. -/
theorem oneImageLib_noIdWrap (image : List Bytes) (lm : Lemmer)
    (hlm : buildLemmer (oneImageLib image) { total := 1, msgs := [⟨[208], 1, 2⟩] } = .ok lm)
    (hsize : lm.lemid.size < 2 ^ 32) :
    NoIdWrap (oneImageLib image)
      (convert Stdlib.sorting (oneImageLib image) "corpus/" [.reg "a.zip" [[65]]] 0 0) := by
  have hconvert : convert Stdlib.sorting (oneImageLib image) "corpus/" [.reg "a.zip" [[65]]] 0 0
      = { corpus := [[1, 1], []]
          uni := { total := 1, msgs := [⟨[208], 1, 2⟩] }
          totalCount := 1 } := rfl
  rw [hconvert]
  refine ⟨by decide, by decide, fun lm' hlm' => ?_⟩
  rw [hlm] at hlm'
  rw [← Except.ok.inj hlm']
  exact hsize

/-- With one lemma for the word, and the thresholds of `main`, the program ends. -/
theorem extract_total_oneImage :
    ∃ stat, extract (R := ℚ) Stdlib.sorting (oneImageLib [[98]]) "corpus/" "save"
      [.reg "a.zip" [[65]]] Thresholds.main = .ok stat := by
  have hwrap := oneImageLib_noIdWrap [[98]]
    { lems := [[1]], lemid := (∅ : FlatHashMap Bytes UInt32).insert [98] 1 } rfl (by decide)
  exact extract_total Stdlib.sorting _ "corpus/" "save" _ Thresholds.main
    (oneImageLib_breaks [[98]]) (oneImageLib_lemmatizes ⟨by decide, by decide⟩) hwrap

/-- An empty lemma beside the other one. Each word has a lemma that is not empty, and still the
pair of empty lemmas ends the program, since its text is empty. -/
theorem extract_wrongValues :
    BreaksWords (oneImageLib [[], [98]]) ∧
    Lemmatizes (oneImageLib [[], [98]]) (fun image => ∃ term ∈ image, term ≠ []) ∧
    NoIdWrap (oneImageLib [[], [98]]) (convert Stdlib.sorting (oneImageLib [[], [98]]) "corpus/"
      [.reg "a.zip" [[65]]] 0 0) ∧
    extract (R := ℚ) Stdlib.sorting (oneImageLib [[], [98]]) "corpus/" "save"
      [.reg "a.zip" [[65]]] ⟨0, 0, 0, 0, 0, 0⟩ = .error (.runtime "bi: wrong data values") := by
  have hwrap := oneImageLib_noIdWrap [[], [98]]
    { lems := [[1, 2]]
      lemid := ((∅ : FlatHashMap Bytes UInt32).insert [] 1).insert [98] 2 } rfl (by decide)
  refine ⟨oneImageLib_breaks _, oneImageLib_lemmatizes ⟨[98], by decide, by decide⟩, hwrap, ?_⟩
  -- The run is evaluated up to the error, which does not depend on the map.
  have hfail : (extract (R := ℚ) Stdlib.sorting (oneImageLib [[], [98]]) "corpus/" "save"
      [.reg "a.zip" [[65]]] ⟨0, 0, 0, 0, 0, 0⟩).map (fun _ => ())
        = .error (.runtime "bi: wrong data values") := by
    decide +kernel
  cases hrun : extract (R := ℚ) Stdlib.sorting (oneImageLib [[], [98]]) "corpus/" "save"
      [.reg "a.zip" [[65]]] ⟨0, 0, 0, 0, 0, 0⟩ with
  | error e =>
      rw [hrun] at hfail
      rw [Except.error.inj hfail]
  | ok stat =>
      rw [hrun] at hfail
      cases hfail

end Colloc.Proofs

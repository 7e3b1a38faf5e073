import Colloc.Lib.Cut
import Colloc.Proofs.Lemmatize

/-!
# `Colloc.Proofs.Pointwise`: `lemmatize` as a map over the words

When the library returns one image for each word, in order, and an image depends on its word
only (`Images`), it does not matter how the words fall into batches. Over a `uni.bin` with the
ids `1` to `n` in any order (`DenseIds`), the entry of a word holds the ids of the terms of its
image, and these ids number the distinct terms (`lemmatize_pointwise`).

`Imaged` is the invariant over the words that are lemmatized. The ids are numbers in 32 bits: with
`2 ^ 32` distinct terms the last one gets the id `0` (`lemmatize_wraps`).
-/

set_option autoImplicit false

namespace Colloc.Proofs

open Colloc.Lib
open Colloc.Spec

/-- The library returns the image of each word of a batch, in order. -/
def Images (lib : Baalbek) (image : Bytes → List Bytes) (uni : RecordFile Unigram) : Prop :=
  ∀ words, (∀ w ∈ words, w ∈ uni.msgs.map StrIdWeight.str) →
    lib.makeDocumentImage (batchText words) = words.map image

/-- The ids of the words are `1` to their number, in any order, and the header holds the number. -/
structure DenseIds (uni : RecordFile Unigram) : Prop where
  total : readTotal uni = uni.msgs.length
  ids : (uni.msgs.map (fun m => m.id.toNat)).Perm (List.range' 1 uni.msgs.length)

/-- The id of a term. -/
def lemIdOf (lemid : FlatHashMap Bytes UInt32) (term : Bytes) : UInt32 :=
  (lemid.lookup term).getD 0

section Dense
variable {uni : RecordFile Unigram}

/-- Dense ids go from one to the number of words. -/
theorem DenseIds.pos (h : DenseIds uni) {m : Unigram} (hm : m ∈ uni.msgs) :
    1 ≤ m.id.toNat ∧ m.id.toNat ≤ uni.msgs.length := by
  have hmem := h.ids.mem_iff.mp (List.mem_map_of_mem hm)
  rw [List.mem_range'_1] at hmem
  omega

/-- The index of a word is one less than its id. -/
theorem DenseIds.toNat_sub_one (h : DenseIds uni) {m : Unigram} (hm : m ∈ uni.msgs) :
    (m.id - 1).toNat = m.id.toNat - 1 := by
  have hle : (1 : UInt32) ≤ m.id := UInt32.le_iff_toNat_le.mpr (h.pos hm).1
  exact UInt32.toNat_sub_of_le _ _ hle

/-- The indices of the words are the positions of the table. -/
theorem DenseIds.index_lt (h : DenseIds uni) {m : Unigram} (hm : m ∈ uni.msgs) :
    (m.id - 1).toNat < uni.msgs.length := by
  have hpos := h.pos hm
  rw [h.toNat_sub_one hm]
  omega

/-- So each word has a place of its own in the table. -/
theorem DenseIds.nodup (h : DenseIds uni) :
    (uni.msgs.map (fun m => (m.id - 1).toNat)).Nodup := by
  have hnd := h.ids.nodup_iff.mpr List.nodup_range'
  refine (List.nodup_map_iff_inj_on (List.Nodup.of_map _ hnd)).mpr (fun m hm m' hm' heq => ?_)
  have hinj := (List.nodup_map_iff_inj_on (List.Nodup.of_map _ hnd)).mp hnd
  have hpos := h.pos hm
  have hpos' := h.pos hm'
  rw [h.toNat_sub_one hm, h.toNat_sub_one hm'] at heq
  exact hinj m hm m' hm' (by omega)

/-- Every position of the table is the index of a word. -/
theorem DenseIds.exists_index (h : DenseIds uni) {i : Nat} (hi : i < uni.msgs.length) :
    ∃ m ∈ uni.msgs, (m.id - 1).toNat = i := by
  have hmem : i + 1 ∈ uni.msgs.map (fun m => m.id.toNat) := by
    rw [h.ids.mem_iff, List.mem_range'_1]
    omega
  obtain ⟨m, hm, hid⟩ := List.mem_map.mp hmem
  refine ⟨m, hm, ?_⟩
  rw [h.toNat_sub_one hm]
  omega

end Dense

/-! ### The table -/

section Table
variable {image : Bytes → List Bytes} {n : Nat}

/-- The table after the words `words`: the entry of each of them has the ids of its terms, and
only these terms are numbered. -/
structure Imaged (image : Bytes → List Bytes) (n : Nat) (words : List Unigram) (lm : Lemmer) :
    Prop where
  length : lm.lems.length = n
  index : ∃ names, Indexes names (fun name => lm.lemid.lookup name)
  term_iff : ∀ term, (lm.lemid.lookup term).isSome ↔ ∃ m ∈ words, term ∈ image m.str
  entry : ∀ m ∈ words,
    lm.lems[(m.id - 1).toNat]? = some ((image m.str).map (lemIdOf lm.lemid))

/-- One word gets its entry, the ids of the terms of its image. No other word writes to this row.
-/
theorem Imaged.step {words : List Unigram} {lm : Lemmer} (h : Imaged image n words lm)
    {m : Unigram} (hlt : (m.id - 1).toNat < n)
    (hnew : ∀ m' ∈ words, (m'.id - 1).toNat ≠ (m.id - 1).toNat) :
    Imaged image n (words ++ [m])
      { lems := lm.lems.set (m.id - 1).toNat (Lemmer.addTerms lm.lemid (image m.str)).1
        lemid := (Lemmer.addTerms lm.lemid (image m.str)).2 } := by
  obtain ⟨names, hnames⟩ := h.index
  have hadded := addTerms_spec (image m.str) lm.lemid names hnames
  generalize (Lemmer.addTerms lm.lemid (image m.str)).1 = terms at hadded ⊢
  generalize (Lemmer.addTerms lm.lemid (image m.str)).2 = lemid' at hadded ⊢
  refine ⟨?_, hadded.index, fun term => ?_, fun m' hm' => ?_⟩
  · show (lm.lems.set _ terms).length = n
    rw [List.length_set, h.length]
  · show (lemid'.lookup term).isSome ↔ _
    rw [hadded.keys, h.term_iff]
    simp [or_and_right, exists_or]
  · show (lm.lems.set _ terms)[(m'.id - 1).toNat]? = some ((image m'.str).map (lemIdOf lemid'))
    rcases List.mem_append.mp hm' with hm' | hm'
    · -- An earlier entry is not written, and its terms keep their ids.
      rw [List.getElem?_set_ne (hnew m' hm').symm, h.entry m' hm']
      refine congrArg some (List.map_congr_left (fun term hterm => ?_))
      obtain ⟨l, hl⟩ := Option.isSome_iff_exists.mp ((h.term_iff term).mpr ⟨m', hm', hterm⟩)
      rw [lemIdOf, lemIdOf, hl, hadded.keeps term l hl]
    · rw [List.mem_singleton.mp hm', List.getElem?_set_self (by rw [h.length]; exact hlt),
        hadded.terms]
      rfl

/-- A batch of words, each with its own image. The words are written one by one, and each row is
written once. -/
theorem applyImages_imaged (pending : List Unigram) :
    ∀ (words : List Unigram) (lm : Lemmer), (∀ m ∈ pending, (m.id - 1).toNat < n) →
      ((words ++ pending).map (fun m => (m.id - 1).toNat)).Nodup → Imaged image n words lm →
      ∃ lm', lm.applyImages (pending.map (fun m => image m.str)) (pending.map StrIdWeight.id)
          = .ok lm' ∧ Imaged image n (words ++ pending) lm' := by
  induction pending with
  | nil =>
      intro words lm _ _ h
      rw [List.append_nil]
      exact ⟨lm, rfl, h⟩
  | cons m pending ih =>
      intro words lm hlt hnd h
      have hassoc : words ++ m :: pending = (words ++ [m]) ++ pending := by simp
      have hm := hlt m List.mem_cons_self
      -- The indices of the file are distinct, so no entry is written twice.
      have hnew : ∀ m' ∈ words, (m'.id - 1).toNat ≠ (m.id - 1).toNat := by
        intro m' hm'
        rw [List.map_append] at hnd
        exact (List.nodup_append.mp hnd).2.2 _ (List.mem_map_of_mem hm') _
          (List.mem_map_of_mem List.mem_cons_self)
      rw [hassoc] at hnd ⊢
      obtain ⟨lm', hok, hlm'⟩ := ih (words ++ [m]) _
        (fun m' hm' => hlt m' (List.mem_cons_of_mem m hm')) hnd (h.step hm hnew)
      refine ⟨lm', ?_, hlm'⟩
      rw [List.map_cons, List.map_cons, Lemmer.applyImages]
      simp only
      rw [if_pos (by rw [h.length]; exact hm)]
      exact hok

/-- The words of the file, whatever batches they fall into: each gets the image that it has by
itself. -/
theorem buildLemmer_imaged {lib : Baalbek} {uni : RecordFile Unigram}
    (hlib : Images lib image uni) (huni : DenseIds uni) :
    ∃ lm, buildLemmer lib uni = .ok lm ∧ Imaged image uni.msgs.length uni.msgs lm := by
  refine buildLemmer_batches (fun done pending after lm hsplit hlm => ?_)
    ⟨?_, ⟨[], Indexes.nil⟩, fun term => ?_, fun m hm => absurd hm List.not_mem_nil⟩
  · have hsub : ∀ m ∈ pending, m ∈ uni.msgs := fun m hm => by
      rw [hsplit]
      exact List.mem_append_left _ (List.mem_append_right _ hm)
    have himages : lib.makeDocumentImage (batchText (pending.map StrIdWeight.str))
        = pending.map (fun m => image m.str) := by
      rw [hlib _ (fun w hw => ?_), List.map_map]
      · rfl
      · obtain ⟨m, hm, rfl⟩ := List.mem_map.mp hw
        exact List.mem_map_of_mem (hsub m hm)
    have hnd := huni.nodup
    rw [hsplit, List.map_append] at hnd
    rw [himages]
    exact applyImages_imaged pending done lm (fun m hm => huni.index_lt (hsub m hm))
      (List.nodup_append.mp hnd).1 hlm
  · show (List.replicate (readTotal uni) []).length = _
    rw [List.length_replicate, huni.total]
  · simp

end Table

/-! ### The files -/

/-- What `lemmatize` makes of the words: the entry of a word has the ids of its terms in order,
and the ids number the distinct terms from `1` on. -/
structure IsPointwise (image : Bytes → List Bytes) (uni : RecordFile Unigram) (lm : Lemmer) :
    Prop where
  length : lm.lems.length = uni.msgs.length
  entry : ∀ m ∈ uni.msgs,
    lm.lems[(m.id - 1).toNat]? = some ((image m.str).map (lemIdOf lm.lemid))
  term_iff : ∀ term, (lm.lemid.lookup term).isSome ↔ ∃ m ∈ uni.msgs, term ∈ image m.str
  range : ∀ term l, lm.lemid.lookup term = some l → 1 ≤ l.toNat ∧ l.toNat ≤ lm.lemid.size
  injective : ∀ term term' l, lm.lemid.lookup term = some l → lm.lemid.lookup term' = some l →
    term = term'
  surjective : ∀ i, 1 ≤ i → i ≤ lm.lemid.size → ∃ term l, lm.lemid.lookup term = some l ∧
    l.toNat = i

/-- The distinct terms of the images. -/
def terms (image : Bytes → List Bytes) (uni : RecordFile Unigram) : List Bytes :=
  (uni.msgs.flatMap (fun m => image m.str)).dedup

/-- There are as many names as terms: each term of a word is numbered, and nothing else is. -/
theorem Imaged.names_length {image : Bytes → List Bytes} {uni : RecordFile Unigram} {lm : Lemmer}
    (h : Imaged image uni.msgs.length uni.msgs lm) {names : List Bytes}
    (hnames : Indexes names (fun name => lm.lemid.lookup name)) :
    names.length = (terms image uni).length ∧ lm.lemid.size = names.length := by
  have hsize : lm.lemid.size = names.length :=
    size_eq_length hnames.nodup (fun name => hnames.isSome_iff name)
  refine ⟨?_, hsize⟩
  rw [← hsize]
  refine size_eq_length (List.nodup_dedup _) (fun term => ?_)
  rw [h.term_iff, terms, List.mem_dedup, List.mem_flatMap]

/-- `lemmatize` is a pointwise map, whatever the batches, for less than `2 ^ 32` distinct terms.
The ids in the table are those in `lemid.bin`. -/
theorem lemmatize_pointwise (std : Stdlib) (lib : Baalbek) (image : Bytes → List Bytes)
    (uni : RecordFile Unigram) (huni : DenseIds uni) (hlib : Images lib image uni)
    (hterms : (terms image uni).length < 2 ^ 32) :
    ∃ lm, lemmatize std lib uni = .ok (lm.save std) ∧ buildLemmer lib uni = .ok lm ∧
      IsPointwise image uni lm ∧
      ∀ l, (∃ lids ∈ lm.lems, l ∈ lids) ↔ ∃ r ∈ (lm.save std).lemid.msgs, r.id = l := by
  obtain ⟨lm, hok, h⟩ := buildLemmer_imaged hlib huni
  obtain ⟨names, hnames⟩ := h.index
  obtain ⟨hlen, hsize⟩ := h.names_length hnames
  have hlt : names.length < 2 ^ 32 := hlen ▸ hterms
  have hpoint : IsPointwise image uni lm := by
    refine ⟨h.length, h.entry, h.term_iff, fun term l hl => ?_,
      fun term term' l hl hl' => hnames.injective hlt hl hl', fun i hi hle => ?_⟩
    · obtain ⟨i, hi, rfl⟩ := (hnames.id_iff term l).mp hl
      have hi' := (List.getElem?_eq_some_iff.mp hi).1
      rw [Indexes.toNat_succ hi' hlt]
      omega
    · have hi' : i - 1 < names.length := by omega
      refine ⟨names[i - 1], UInt32.ofNat (i - 1 + 1),
        (hnames.id_iff _ _).mpr ⟨i - 1, List.getElem?_eq_getElem hi', rfl⟩, ?_⟩
      rw [Indexes.toNat_succ hi' hlt]
      omega
  have hsaved : ∀ r, r ∈ (lm.save std).lemid.msgs ↔ lm.lemid.lookup r.str = some r.id := fun r =>
    FlatHashMap.mem_map_iter std lm.lemid _ (fun r : LemId => (r.str, r.id)) (fun _ => rfl)
      (fun _ => rfl) r
  refine ⟨lm, ?_, hok, hpoint, fun l => ⟨?_, ?_⟩⟩
  · unfold lemmatize
    rw [hok]
  · rintro ⟨lids, hlids, hl⟩
    -- The entry is that of a word, so `l` is the id of one of its terms.
    obtain ⟨i, hi, rfl⟩ := List.mem_iff_getElem.mp hlids
    obtain ⟨m, hm, hidx⟩ := huni.exists_index (h.length ▸ hi)
    have hentry := h.entry m hm
    rw [hidx, List.getElem?_eq_getElem hi] at hentry
    rw [Option.some.inj hentry] at hl
    obtain ⟨term, hterm, rfl⟩ := List.mem_map.mp hl
    obtain ⟨l, hl⟩ := Option.isSome_iff_exists.mp ((h.term_iff term).mpr ⟨m, hm, hterm⟩)
    refine ⟨⟨term, lemIdOf lm.lemid term⟩, (hsaved _).mpr ?_, rfl⟩
    rw [lemIdOf, hl]
    rfl
  · rintro ⟨r, hr, rfl⟩
    have hlookup := (hsaved r).mp hr
    obtain ⟨m, hm, hterm⟩ := (h.term_iff r.str).mp (by rw [hlookup]; rfl)
    refine ⟨_, List.mem_of_getElem? (h.entry m hm), List.mem_map.mpr ⟨r.str, hterm, ?_⟩⟩
    rw [lemIdOf, hlookup]
    rfl

/-- A library that lemmatizes a text word by word. -/
def spacedLib (image : Bytes → List Bytes) : Baalbek :=
  { oneWordLib with makeDocumentImage := fun text => (text.splitOn 32).dropLast.map image }

/-- Words without spaces come back from the text of a batch. -/
theorem images_spacedLib (image : Bytes → List Bytes) {uni : RecordFile Unigram}
    (h : ∀ m ∈ uni.msgs, (32 : UInt8) ∉ m.str) : Images (spacedLib image) image uni := by
  intro words hwords
  have hspace : ∀ w ∈ words, (32 : UInt8) ∉ w := by
    intro w hw
    obtain ⟨m, hm, rfl⟩ := List.mem_map.mp (hwords w hw)
    exact h m hm
  show ((batchText words).splitOn 32).dropLast.map image = _
  rw [batchText, splitOn_flatMap_concat 32 hspace, List.dropLast_concat]

/-- The word `a` has the lemmas `a` and `b`, and every other word is its own lemma. -/
def letterImage (word : Bytes) : List Bytes := if word = [97] then [[97], [98]] else [word]

/-- Three words, with their ids out of order. -/
def letterUni : RecordFile Unigram :=
  { total := 3, msgs := [⟨[98], 2, 1⟩, ⟨[97], 3, 1⟩, ⟨[99], 1, 1⟩] }

/-- The words `a` and `b`, where `a` has the lemmas `a` and `b`. -/
theorem lemmatize_pointwise_letters :
    ∃ lm, buildLemmer (spacedLib letterImage) letterUni = .ok lm ∧
      IsPointwise letterImage letterUni lm := by
  have hspace : ∀ m ∈ letterUni.msgs, (32 : UInt8) ∉ m.str := by decide
  obtain ⟨lm, -, hok, hpoint, -⟩ := lemmatize_pointwise Stdlib.sorting (spacedLib letterImage)
    letterImage letterUni ⟨rfl, by decide⟩ (images_spacedLib letterImage hspace) (by decide)
  exact ⟨lm, hok, hpoint⟩

/-- `n` distinct terms. -/
def manyTerms (n : Nat) (_ : Bytes) : List Bytes :=
  (List.range n).map (fun i => List.replicate i 97)

/-- One word. -/
def soleUni : RecordFile Unigram := { total := 1, msgs := [⟨[97], 1, 1⟩] }

/-- The word has so many lemmas. -/
theorem length_terms_manyTerms (n : Nat) : (terms (manyTerms n) soleUni).length = n := by
  have hnd : (manyTerms n [97]).Nodup := by
    refine List.Nodup.map (fun i j hij => ?_) List.nodup_range
    have hlen := congrArg List.length hij
    rwa [List.length_replicate, List.length_replicate] at hlen
  have hterms : terms (manyTerms n) soleUni = (manyTerms n [97]).dedup := by
    simp [terms, soleUni]
  rw [hterms, hnd.dedup, manyTerms, List.length_map, List.length_range]

/-- With `2 ^ 32` terms the last one has the id `0`, which is no index from `1` on. -/
theorem not_isPointwise_manyTerms {n : Nat} (hn : n = 2 ^ 32) {lm : Lemmer}
    (h : Imaged (manyTerms n) soleUni.msgs.length soleUni.msgs lm) :
    ¬ IsPointwise (manyTerms n) soleUni lm := by
  obtain ⟨names, hnames⟩ := h.index
  have hlen := (h.names_length hnames).1
  rw [length_terms_manyTerms] at hlen
  have hlast : n - 1 < names.length := by omega
  have hid := (hnames.id_iff names[n - 1] (UInt32.ofNat (n - 1 + 1))).mpr
    ⟨n - 1, List.getElem?_eq_getElem hlast, rfl⟩
  have hzero : (UInt32.ofNat (n - 1 + 1)).toNat = 0 := by
    rw [UInt32.toNat_ofNat', show n - 1 + 1 = 2 ^ 32 by omega, Nat.mod_self]
  intro hpoint
  have hone := (hpoint.range _ _ hid).1
  omega

/-- A word with `2 ^ 32` distinct terms: the ids are no numbers from `1` on. The stage ends all
the same. -/
theorem lemmatize_wraps :
    DenseIds soleUni ∧
      Images (spacedLib (manyTerms (2 ^ 32))) (manyTerms (2 ^ 32)) soleUni ∧
      ¬ ∃ lm, buildLemmer (spacedLib (manyTerms (2 ^ 32))) soleUni = .ok lm ∧
        IsPointwise (manyTerms (2 ^ 32)) soleUni lm := by
  have hdense : DenseIds soleUni := ⟨rfl, by decide⟩
  have hspace : ∀ m ∈ soleUni.msgs, (32 : UInt8) ∉ m.str := by decide
  have himages := images_spacedLib (manyTerms (2 ^ 32)) hspace
  obtain ⟨lm, hok, h⟩ := buildLemmer_imaged himages hdense
  refine ⟨hdense, himages, ?_⟩
  rintro ⟨lm', hok', hpoint⟩
  rw [hok] at hok'
  cases hok'
  exact not_isPointwise_manyTerms rfl h hpoint

end Colloc.Proofs

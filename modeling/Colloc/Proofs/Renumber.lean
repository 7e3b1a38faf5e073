import Colloc.Proofs.Pointwise
import Colloc.Proofs.RenameRun
import Colloc.Proofs.Unigrams

/-!
# `Colloc.Proofs.Renumber`: the ids of two runs

`convert` numbers the words and `lemmatize` the lemmas in the order in which they come. Over the
same documents in another order, and for fewer than `2 ^ 32` words and lemmas, the maps of both
runs are the same up to a replacement of the ids (`words_renumbered`, `Imaged.renumbered`), and
the files are written from these maps (`iter_perm`).

`prepared_words` and `prepared_lemmas` say what one run leaves to the later stages.
-/

set_option autoImplicit false

namespace Colloc.Proofs

open Colloc.Lib
open Colloc.Spec

/-- Maps with the same keys, the values of one of them those of the other one under `f`, have
the same entries in any order. -/
theorem iter_perm {κ ν : Type} [DecidableEq κ] (std std' : Stdlib) {m m' : FlatHashMap κ ν}
    {f : ν → ν} (h : ∀ k, m'.lookup k = (m.lookup k).map f) :
    (m'.iter std').Perm ((m.iter std).map (Prod.map id f)) := by
  have hkeys : ((m.iter std).map (Prod.map id f)).map Prod.fst = (m.iter std).map Prod.fst := by
    rw [List.map_map]
    rfl
  refine (List.perm_ext_iff_of_nodup (List.Nodup.of_map _ (m'.nodup_iter_keys std'))
    (List.Nodup.of_map Prod.fst (hkeys ▸ m.nodup_iter_keys std))).mpr ?_
  rintro ⟨k, v'⟩
  rw [FlatHashMap.mem_iter, h, Option.map_eq_some_iff, List.mem_map]
  constructor
  · rintro ⟨v, hv, rfl⟩
    exact ⟨(k, v), (FlatHashMap.mem_iter std m k v).mpr hv, rfl⟩
  · rintro ⟨⟨k₁, v⟩, hmem, heq⟩
    obtain ⟨rfl, rfl⟩ := Prod.ext_iff.mp heq
    exact ⟨v, (FlatHashMap.mem_iter std m _ v).mp hmem, rfl⟩

/-- `uni.bin` of two maps with the same counts. -/
theorem saveUni_perm (std std' : Stdlib) {counts counts' : UnigramCounts} {w : UInt32 → UInt32}
    (h : ∀ k, counts'.map.lookup k
      = (counts.map.lookup k).map (fun v => { v with id := w v.id })) :
    (saveUni std' counts').msgs.Perm
      ((saveUni std counts).msgs.map (fun m => { m with id := w m.id })) := by
  refine ((iter_perm std std' h).map _).trans (List.Perm.of_eq ?_)
  rw [saveUni, List.map_map, List.map_map]
  rfl

/-- `lemid.bin` of two maps with the same lemmas. -/
theorem saveLemid_perm (std std' : Stdlib) {lm lm' : Lemmer} {l : UInt32 → UInt32}
    (h : ∀ term, lm'.lemid.lookup term = (lm.lemid.lookup term).map l) :
    (lm'.save std').lemid.msgs.Perm
      ((lm.save std).lemid.msgs.map (fun m => { m with id := l m.id })) := by
  refine ((iter_perm std std' h).map _).trans (List.Perm.of_eq ?_)
  rw [Lemmer.save, List.map_map, List.map_map]
  rfl

/-- The id `0` is the last one that is given out. -/
theorem zero_index : ((0 : UInt32) - 1).toNat = 2 ^ 32 - 1 := by decide

/-! ### Words -/

/-- The later ids of the words, and the id `0` of a missing one. -/
theorem idIn_renumbered {map map' : FlatHashMap Bytes UniVal} {w : UInt32 → UInt32} {k : Bytes}
    (h : (map'.lookup k).map UniVal.id = ((map.lookup k).map UniVal.id).map w) (h0 : w 0 = 0) :
    idIn map' k = w (idIn map k) := by
  unfold idIn
  rw [h]
  cases (map.lookup k).map UniVal.id with
  | none => exact h0.symm
  | some n => rfl

section Words
variable {keys keys' : List Bytes} (hperm : keys'.Perm keys) (hsize : (mapOf keys).size < 2 ^ 32)
include hperm hsize

/-- The words of both runs have the same counts, and ids that correspond. The renaming takes the
id of a word to its id in the other run, and leaves alone what is not an id. -/
theorem words_renumbered : ∃ w : UInt32 → UInt32, Function.Injective w ∧
    (∀ k, (mapOf keys').lookup k
      = ((mapOf keys).lookup k).map (fun v => { v with id := w v.id })) ∧
    (∀ k, idIn (mapOf keys') k = w (idIn (mapOf keys) k)) ∧
    ∀ n, (mapOf keys).size ≤ (n - 1).toNat → w n = n := by
  have hsize' : (mapOf keys').size < 2 ^ 32 := by
    rw [size_mapOf, hperm.dedup.length_eq, ← size_mapOf]
    exact hsize
  obtain ⟨names, h⟩ := counted_mapOf keys hsize
  obtain ⟨names', h'⟩ := counted_mapOf keys' hsize'
  rw [h.size_eq] at hsize ⊢
  have hmem : ∀ a, a ∈ names' ↔ a ∈ names := fun a => by
    rw [← h.index.isSome_iff, ← h'.index.isSome_iff, Option.isSome_map, Option.isSome_map,
      isSome_mapOf, isSome_mapOf, hperm.mem_iff]
  obtain ⟨w, hw, hid, hout⟩ := h.index.renumber h'.index hsize hmem
  have hidIn : ∀ k, idIn (mapOf keys') k = w (idIn (mapOf keys) k) := fun k =>
    idIn_renumbered (hid k) (hout 0 (by rw [zero_index]; omega))
  -- The ids on the corpora correspond, so each is listed as often.
  have hids : (keys'.map (idIn (mapOf keys'))).Perm
      ((keys.map (idIn (mapOf keys))).map (rename w)) := by
    refine (hperm.map _).trans (List.Perm.of_eq ?_)
    rw [List.map_map]
    exact List.map_congr_left (fun k _ => hidIn k)
  refine ⟨w, hw, fun k => ?_, hidIn, hout⟩
  have hk := hid k
  cases hv : (mapOf keys).lookup k with
  | none =>
      rw [hv] at hk
      exact Option.map_eq_none_iff.mp hk
  | some v =>
      rw [hv] at hk
      obtain ⟨v', hv', hid'⟩ := Option.map_eq_some_iff.mp hk
      have hweight : v'.weight = v.weight := by
        rw [h'.weight k v' hv', h.weight k v hv, hid']
        exact occurrences_rename hw hids v.id
      have hv'eq : v' = UniVal.mk v'.id v'.weight := rfl
      rw [hv', hv'eq, hid', hweight]
      rfl

end Words

/-- Below `2 ^ 32` the listed words have the ids `1` to their number: the ids differ, and each of
them is at most the number of the words. -/
theorem ListsWords.denseIds {uni : RecordFile Unigram} {ws : List UInt32} (h : ListsWords uni ws)
    (hlen : uni.msgs.length < 2 ^ 32) (htotal : readTotal uni = uni.msgs.length) :
    DenseIds uni where
  total := htotal
  ids := by
    have hsucc : ∀ m ∈ uni.msgs, m.id.toNat = (m.id - 1).toNat + 1 := by
      intro m hm
      have hlt := h.index_lt m hm
      have hadd := congrArg UInt32.toNat (UInt32.sub_add_cancel m.id 1)
      rw [UInt32.toNat_add, UInt32.toNat_one, Nat.mod_eq_of_lt (by omega)] at hadd
      exact hadd.symm
    have hnd : (uni.msgs.map (fun m => m.id.toNat)).Nodup := by
      have hmap := h.nodup.map (f := UInt32.toNat) (fun a b hab => UInt32.toNat_inj.mp hab)
      rwa [List.map_map] at hmap
    refine (List.perm_ext_iff_of_nodup hnd List.nodup_range').mpr (fun n => ?_)
    rw [List.mem_map, List.mem_range'_1]
    constructor
    · rintro ⟨m, hm, rfl⟩
      have hlt := h.index_lt m hm
      rw [hsucc m hm]
      omega
    · rintro ⟨hpos, hle⟩
      obtain ⟨m, hm, hidx⟩ := h.exists_index (n - 1) (by omega)
      refine ⟨m, hm, ?_⟩
      rw [hsucc m hm]
      omega

/-! ### Lemmas -/

/-- The same words have the same terms. -/
theorem terms_perm (image : Bytes → List Bytes) {uni uni' : RecordFile Unigram}
    {w : UInt32 → UInt32}
    (h : uni'.msgs.Perm (uni.msgs.map (fun m => { m with id := w m.id }))) :
    (terms image uni').Perm (terms image uni) := by
  refine List.Perm.dedup ((h.flatMap_right _).trans (List.Perm.of_eq ?_))
  rw [List.flatMap_map]

/-- A term that is listed has its id. -/
theorem lemIdOf_eq {lemid : FlatHashMap Bytes UInt32} {term : Bytes} {l : UInt32}
    (hl : lemid.lookup term = some l) : lemIdOf lemid term = l := by
  rw [lemIdOf, hl]
  rfl

section Lemmas
variable {image : Bytes → List Bytes} {uni uni' : RecordFile Unigram} {lm lm' : Lemmer}
  {ws ws' : List UInt32} (h : Imaged image uni.msgs.length uni.msgs lm)
include h

/-- There are as many terms as lemmas. -/
theorem Imaged.terms_lt (hsize : lm.lemid.size < 2 ^ 32) : (terms image uni).length < 2 ^ 32 := by
  obtain ⟨names, hindex⟩ := h.index
  obtain ⟨hlen, hnames⟩ := h.names_length hindex
  omega

/-- The lemmas of a word are the ids of its terms. -/
theorem Imaged.combos_eq {m : Unigram} (hm : m ∈ uni.msgs) :
    combos lm.lems m.id = (image m.str).map (lemIdOf lm.lemid) := by
  rw [combos_word, h.entry m hm]
  rfl

/-- When each word has a term, no entry is lost in `lems.bin`. -/
theorem Imaged.tableOf_save (huni : ListsWords uni ws) (hlemmas : ∀ m ∈ uni.msgs, image m.str ≠ [])
    (std : Stdlib) : tableOf (lm.save std).lems = lm.lems := by
  refine tableOf_save_of_nonempty std (fun lids hlids => ?_)
  obtain ⟨i, hi, rfl⟩ := List.mem_iff_getElem.mp hlids
  obtain ⟨m, hm, hidx⟩ := huni.exists_index i (h.length ▸ hi)
  have hentry := h.entry m hm
  rw [hidx, List.getElem?_eq_getElem hi] at hentry
  rw [Option.some.inj hentry]
  exact fun hnil => hlemmas m hm (List.map_eq_nil_iff.mp hnil)

/-- The words have lemmas. -/
theorem Imaged.haveLemmas {corpus : List Phrase} (huni : ListsWords uni corpus.flatten)
    (hlemmas : ∀ m ∈ uni.msgs, image m.str ≠ []) : HaveLemmas lm.lems corpus := by
  intro id hid
  obtain ⟨m, hm, rfl⟩ := List.mem_map.mp ((huni.mem_iff id).mpr hid)
  rw [covered_word_iff, h.length, h.combos_eq hm]
  exact ⟨huni.index_lt m hm, fun hnil => hlemmas m hm (List.map_eq_nil_iff.mp hnil)⟩

/-- `lemid.bin` numbers the lemmas of the corpus. A lemma has an id when some listed word has it,
and these words are those of the corpus. -/
theorem Imaged.numbersLemmas {docs : List (List Phrase)}
    (huni : ListsWords uni (corpusOf docs).flatten) (hterms : (terms image uni).length < 2 ^ 32)
    (std : Stdlib) : NumbersLemmas lm.lems docs (lm.save std).lemid := by
  obtain ⟨names, hindex⟩ := h.index
  have hlen : names.length < 2 ^ 32 := (h.names_length hindex).1 ▸ hterms
  refine numbersLemmas_of_index hindex hlen (fun l => ?_) std
  rw [docCount_id_pos_iff]
  constructor
  · rintro ⟨term, hlookup⟩
    obtain ⟨m, hm, hterm⟩ := (h.term_iff term).mp (by rw [hlookup]; rfl)
    refine ⟨m.id, (huni.mem_iff m.id).mp (List.mem_map_of_mem hm), ?_⟩
    rw [h.combos_eq hm]
    exact List.mem_map.mpr ⟨term, hterm, lemIdOf_eq hlookup⟩
  · rintro ⟨id, hid, hl⟩
    obtain ⟨m, hm, rfl⟩ := List.mem_map.mp ((huni.mem_iff id).mpr hid)
    rw [h.combos_eq hm] at hl
    obtain ⟨term, hterm, rfl⟩ := List.mem_map.mp hl
    obtain ⟨l, hlookup⟩ := Option.isSome_iff_exists.mp ((h.term_iff term).mpr ⟨m, hm, hterm⟩)
    exact ⟨term, by rw [lemIdOf_eq hlookup]; exact hlookup⟩

variable (h' : Imaged image uni'.msgs.length uni'.msgs lm')
include h'

/-- The lemmas of both runs have ids that correspond. Both runs number the terms of the same
words, each in the order of its own file. -/
theorem lemmas_renumbered
    (hstr : ∀ s, s ∈ uni'.msgs.map StrIdWeight.str ↔ s ∈ uni.msgs.map StrIdWeight.str)
    (hterms : (terms image uni).length < 2 ^ 32) :
    ∃ l : UInt32 → UInt32, Function.Injective l ∧
      (∀ term, lm'.lemid.lookup term = (lm.lemid.lookup term).map l) ∧
      ∀ term, lemIdOf lm'.lemid term = l (lemIdOf lm.lemid term) := by
  obtain ⟨names, hindex⟩ := h.index
  obtain ⟨names', hindex'⟩ := h'.index
  have hlen : names.length < 2 ^ 32 := (h.names_length hindex).1 ▸ hterms
  have hlisted : ∀ {uni : RecordFile Unigram} (term : Bytes),
      (∃ m ∈ uni.msgs, term ∈ image m.str) ↔
        ∃ s ∈ uni.msgs.map StrIdWeight.str, term ∈ image s := fun term => by simp
  have hmem : ∀ term, term ∈ names' ↔ term ∈ names := fun term => by
    rw [← hindex.isSome_iff, ← hindex'.isSome_iff, h.term_iff, h'.term_iff, hlisted, hlisted]
    simp only [hstr]
  obtain ⟨l, hl, hid, hout⟩ := hindex.renumber hindex' hlen hmem
  refine ⟨l, hl, hid, fun term => ?_⟩
  rw [lemIdOf, lemIdOf, hid]
  cases lm.lemid.lookup term with
  | none => exact (hout 0 (by rw [zero_index]; omega)).symm
  | some n => rfl

/-- The table of the second run has the lemmas of the first one, under the ids of both. A word has
the terms of its string, whatever its id. -/
theorem table_renumbered (huni : ListsWords uni ws) {w l : UInt32 → UInt32}
    (hperm : uni'.msgs.Perm (uni.msgs.map (fun m => { m with id := w m.id })))
    (hout : ∀ n, uni.msgs.length ≤ (n - 1).toNat → w n = n)
    (hl : ∀ term, lemIdOf lm'.lemid term = l (lemIdOf lm.lemid term)) (id : UInt32) :
    combos lm'.lems (w id) = (combos lm.lems id).map l := by
  have hlen : uni'.msgs.length = uni.msgs.length := by
    rw [hperm.length_eq, List.length_map]
  by_cases hlt : (id - 1).toNat < uni.msgs.length
  · obtain ⟨m, hm, hidx⟩ := huni.exists_index _ hlt
    have hid := index_injective hidx
    subst hid
    have hm' : { m with id := w m.id } ∈ uni'.msgs := hperm.mem_iff.mpr (List.mem_map_of_mem hm)
    rw [h.combos_eq hm, h'.combos_eq hm', List.map_map]
    exact List.map_congr_left (fun term _ => hl term)
  · -- A number that is no word id has no entry in either table.
    rw [hout id (by omega), combos_word, combos_word,
      List.getElem?_eq_none (by rw [h'.length]; omega),
      List.getElem?_eq_none (by rw [h.length]; omega)]
    rfl

end Lemmas

end Colloc.Proofs

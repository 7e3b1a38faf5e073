import Colloc.Lib.Index
import Colloc.Lib.Total
import Colloc.Proofs.Combos
import Colloc.Proofs.Corpus
import Colloc.Proofs.Lemmer

/-!
# `Colloc.Proofs.Lemmatize`: the lemma table of the words

`lemmatize` over a `uni.bin` whose ids are the positions of its words. What it asks of the
linguistic library is one word image for each word of a text (`Lemmatizes`). Then no index
of the table is out of range, and the table that is built has an entry for each word
(`LemmaTable`): its lemmas, all of them in `lemid.bin`, which has no other ones.

`addTerms_spec` is about the terms of one word, `LemmaTable.step` about the entry of one
word, `applyImages_spec` about a batch, and `buildLemmer_spec` about the whole file. How the
words fall into batches is left to `buildLemmer_batches`, for any statement `T` about the words
that are lemmatized.
-/

set_option autoImplicit false

namespace Colloc.Proofs

open Colloc.Lib
open Colloc.Spec

/-- The text of a batch: each word with a space behind it. -/
def batchText (words : List Bytes) : Bytes := words.flatMap (fun w => w ++ [32])

/-- A key that `convert` can give to a word. -/
def IsWordKey (lib : Baalbek) (key : Bytes) : Prop :=
  ∃ buff, ∃ w ∈ lib.wordBreakDocument buff,
    UnigramCounts.rejects w = false ∧ UnigramCounts.wordKey lib w = key

/-- The library returns one image for each word of a batch, and the images satisfy `P`. -/
structure Lemmatizes (lib : Baalbek) (P : List Bytes → Prop) : Prop where
  length : ∀ words, (∀ w ∈ words, IsWordKey lib w) →
    (lib.makeDocumentImage (batchText words)).length = words.length
  image : ∀ words, (∀ w ∈ words, IsWordKey lib w) →
    ∀ image ∈ lib.makeDocumentImage (batchText words), P image

/-- An image with lemmas, none of them empty. -/
def GoodImage (image : List Bytes) : Prop := image ≠ [] ∧ ∀ term ∈ image, term ≠ []

/-! ### The terms of a word -/

section Terms
variable {lemid : FlatHashMap Bytes UInt32}

/-- The map after `try_emplace` of a term. -/
def withTerm (lemid : FlatHashMap Bytes UInt32) (term : Bytes) : FlatHashMap Bytes UInt32 :=
  lemid.tryEmplace term (UInt32.ofNat (lemid.size + 1))

/-- A term gets the next number when it has none, and the other terms keep theirs. -/
theorem lookup_withTerm (term name : Bytes) :
    (withTerm lemid term).lookup name
      = if name = term then some ((lemid.lookup term).getD (UInt32.ofNat (lemid.size + 1)))
        else lemid.lookup name :=
  FlatHashMap.lookup_tryEmplace lemid term name _

/-- A term that has an id keeps it. -/
theorem withTerm_keeps (term : Bytes) {name : Bytes} {l : UInt32}
    (h : lemid.lookup name = some l) : (withTerm lemid term).lookup name = some l := by
  rw [lookup_withTerm]
  by_cases hname : name = term
  · subst hname
    rw [if_pos rfl, h]
    rfl
  · rw [if_neg hname, h]

/-- The terms with a number are those before and the new one. -/
theorem isSome_withTerm (term name : Bytes) :
    ((withTerm lemid term).lookup name).isSome ↔ (lemid.lookup name).isSome ∨ name = term :=
  FlatHashMap.isSome_tryEmplace lemid term name _

/-- The ids number the terms in the order in which they came. -/
theorem index_withTerm {names : List Bytes} (h : Indexes names (fun name => lemid.lookup name))
    (term : Bytes) : ∃ names', Indexes names' (fun name => (withTerm lemid term).lookup name) := by
  have hsize : lemid.size = names.length :=
    size_eq_length h.nodup (fun name => h.isSome_iff name)
  refine h.emplace (a := term) ?_ (fun name hname => ?_)
  · show (withTerm lemid term).lookup term = _
    rw [lookup_withTerm, if_pos rfl, hsize]
  · show (withTerm lemid term).lookup name = _
    rw [lookup_withTerm, if_neg hname]

/-- What the terms `w` of a word make of the map. -/
structure TermsAdded (lemid : FlatHashMap Bytes UInt32) (w : List Bytes) (terms : List UInt32)
    (lemid' : FlatHashMap Bytes UInt32) : Prop where
  index : ∃ names, Indexes names (fun name => lemid'.lookup name)
  keeps : ∀ name l, lemid.lookup name = some l → lemid'.lookup name = some l
  keys : ∀ name, (lemid'.lookup name).isSome ↔ (lemid.lookup name).isSome ∨ name ∈ w
  terms : terms = w.map (fun term => (lemid'.lookup term).getD 0)

/-- The lemmas of the word are the ids of its terms. -/
theorem TermsAdded.mem_iff {w : List Bytes} {terms : List UInt32}
    {lemid' : FlatHashMap Bytes UInt32} (h : TermsAdded lemid w terms lemid') (l : UInt32) :
    l ∈ terms ↔ ∃ term ∈ w, lemid'.lookup term = some l := by
  rw [h.terms, List.mem_map]
  refine exists_congr (fun term => and_congr_right (fun hterm => ?_))
  obtain ⟨l', hl'⟩ := Option.isSome_iff_exists.mp ((h.keys term).mpr (Or.inr hterm))
  rw [hl']
  exact Option.some_inj.symm

/-- An id is an earlier one, or that of a term of the word. The terms are the only names that are
added. -/
theorem TermsAdded.of_lookup {w : List Bytes} {terms : List UInt32}
    {lemid' : FlatHashMap Bytes UInt32} (h : TermsAdded lemid w terms lemid') {name : Bytes}
    {l : UInt32} (hl : lemid'.lookup name = some l) : lemid.lookup name = some l ∨ l ∈ terms := by
  have hsome : (lemid'.lookup name).isSome := by
    rw [hl]
    rfl
  rcases (h.keys name).mp hsome with hold | hnew
  · obtain ⟨l', hl'⟩ := Option.isSome_iff_exists.mp hold
    rw [h.keeps name l' hl'] at hl
    exact Or.inl (hl ▸ hl')
  · exact Or.inr ((h.mem_iff l).mpr ⟨name, hnew, hl⟩)

/-- The terms of a word get ids, and the earlier ones keep theirs. The induction is on the terms,
and a term that was seen before gets the id it has. -/
theorem addTerms_spec (w : List Bytes) :
    ∀ (lemid : FlatHashMap Bytes UInt32) (names : List Bytes),
      Indexes names (fun name => lemid.lookup name) →
      TermsAdded lemid w (Lemmer.addTerms lemid w).1 (Lemmer.addTerms lemid w).2 := by
  induction w with
  | nil =>
      intro lemid names h
      exact ⟨⟨names, h⟩, fun _ _ hl => hl, fun name => by simp [Lemmer.addTerms], rfl⟩
  | cons term w ih =>
      intro lemid names h
      obtain ⟨names₁, h₁⟩ := index_withTerm h term
      have hrest := ih (withTerm lemid term) names₁ h₁
      have hcons : Lemmer.addTerms lemid (term :: w)
          = (((withTerm lemid term).lookup term).getD 0
              :: (Lemmer.addTerms (withTerm lemid term) w).1,
            (Lemmer.addTerms (withTerm lemid term) w).2) := rfl
      rw [hcons]
      refine ⟨hrest.index, fun name l hl => hrest.keeps name l (withTerm_keeps term hl),
        fun name => ?_, ?_⟩
      · rw [hrest.keys, isSome_withTerm, List.mem_cons, or_assoc]
      · -- The rest of the word does not change the id of the first term.
        obtain ⟨l, hl⟩ : ∃ l, (withTerm lemid term).lookup term = some l := by
          rw [lookup_withTerm, if_pos rfl]
          exact ⟨_, rfl⟩
        rw [List.map_cons, hrest.keeps term l hl, hl, ← hrest.terms]

end Terms

/-! ### The table -/

/-- The lemma table after the words `words`, for `n` words in all. -/
structure LemmaTable (n : Nat) (words : List UInt32) (lm : Lemmer) : Prop where
  length : lm.lems.length = n
  index : ∃ names, Indexes names (fun name => lm.lemid.lookup name)
  text : ∀ name, (lm.lemid.lookup name).isSome → name ≠ []
  entry : ∀ id ∈ words, combos lm.lems id ≠ []
  known : ∀ id ∈ words, ∀ l ∈ combos lm.lems id, ∃ name, lm.lemid.lookup name = some l
  used : ∀ name l, lm.lemid.lookup name = some l → ∃ id ∈ words, l ∈ combos lm.lems id

/-- One word gets its entry: the ids of its terms. The entries of the other words stay, and so do
the ids in them. -/
theorem LemmaTable.step {n : Nat} {words : List UInt32} {lm : Lemmer} (h : LemmaTable n words lm)
    {id : UInt32} (hlt : (id - 1).toNat < n) (hnew : id ∉ words) {image : List Bytes}
    (himage : GoodImage image) :
    LemmaTable n (words ++ [id])
      { lems := lm.lems.set (id - 1).toNat (Lemmer.addTerms lm.lemid image).1
        lemid := (Lemmer.addTerms lm.lemid image).2 } := by
  obtain ⟨names, hnames⟩ := h.index
  have hadded := addTerms_spec image lm.lemid names hnames
  generalize (Lemmer.addTerms lm.lemid image).1 = terms at hadded ⊢
  generalize (Lemmer.addTerms lm.lemid image).2 = lemid' at hadded ⊢
  -- Only the entry of `id` is written.
  have hself : combos (lm.lems.set (id - 1).toNat terms) id = terms :=
    combos_set_self lm.lems (by rw [h.length]; exact hlt) terms
  have hother : ∀ id' ∈ words, combos (lm.lems.set (id - 1).toNat terms) id'
      = combos lm.lems id' := fun id' hid' =>
    combos_set_ne lm.lems (fun heq : id' = id => hnew (heq ▸ hid')) terms
  refine ⟨?_, hadded.index, fun name hname => ?_, fun id' hid' => ?_, fun id' hid' l hl => ?_,
    fun name l hl => ?_⟩
  · show (lm.lems.set _ terms).length = n
    rw [List.length_set, h.length]
  · rcases (hadded.keys name).mp hname with hname | hname
    · exact h.text name hname
    · exact himage.2 name hname
  · rcases List.mem_append.mp hid' with hid' | hid'
    · show combos (lm.lems.set _ terms) id' ≠ []
      rw [hother id' hid']
      exact h.entry id' hid'
    · rw [List.mem_singleton.mp hid']
      show combos (lm.lems.set _ terms) id ≠ []
      rw [hself, hadded.terms]
      exact fun hnil => himage.1 (List.map_eq_nil_iff.mp hnil)
  · rcases List.mem_append.mp hid' with hid' | hid'
    · have hl' : l ∈ combos (lm.lems.set (id - 1).toNat terms) id' := hl
      rw [hother id' hid'] at hl'
      obtain ⟨name, hname⟩ := h.known id' hid' l hl'
      exact ⟨name, hadded.keeps name l hname⟩
    · have hl' : l ∈ combos (lm.lems.set (id - 1).toNat terms) id' := hl
      rw [List.mem_singleton.mp hid', hself] at hl'
      obtain ⟨term, -, hterm⟩ := (hadded.mem_iff l).mp hl'
      exact ⟨term, hterm⟩
  · rcases hadded.of_lookup hl with hold | hmem
    · obtain ⟨id', hid', hmem⟩ := h.used name l hold
      refine ⟨id', List.mem_append_left _ hid', ?_⟩
      show l ∈ combos (lm.lems.set _ terms) id'
      rw [hother id' hid']
      exact hmem
    · refine ⟨id, List.mem_append_right _ (List.mem_singleton_self id), ?_⟩
      show l ∈ combos (lm.lems.set _ terms) id
      rw [hself]
      exact hmem

/-- A batch of words: one image for each word, and each word gets its entry. The ids of the batch
are new and within the table. -/
theorem applyImages_spec {n : Nat} (doci : List (List Bytes)) :
    ∀ (ids words : List UInt32) (lm : Lemmer), doci.length = ids.length →
      (∀ image ∈ doci, GoodImage image) → (∀ id ∈ ids, (id - 1).toNat < n) →
      (words ++ ids).Nodup → LemmaTable n words lm →
      ∃ lm', lm.applyImages doci ids = .ok lm' ∧ LemmaTable n (words ++ ids) lm' := by
  induction doci with
  | nil =>
      intro ids words lm hlen _ _ _ h
      rw [List.eq_nil_of_length_eq_zero hlen.symm, List.append_nil]
      exact ⟨lm, rfl, h⟩
  | cons image doci ih =>
      intro ids words lm hlen himage hlt hnd h
      cases ids with
      | nil => exact absurd hlen (Nat.succ_ne_zero _)
      | cons id ids =>
          have hassoc : words ++ id :: ids = (words ++ [id]) ++ ids := by
            rw [List.append_assoc]
            rfl
          -- The ids of a file are distinct, so no entry is written twice.
          have hnew : id ∉ words := by
            intro hmem
            have hdisjoint := (List.nodup_append.mp hnd).2.2
            exact hdisjoint id hmem id List.mem_cons_self rfl
          have hid := hlt id List.mem_cons_self
          have hstep := h.step hid hnew (himage image List.mem_cons_self)
          rw [hassoc] at hnd ⊢
          obtain ⟨lm', hok, hlm'⟩ := ih ids (words ++ [id]) _ (Nat.succ.inj hlen)
            (fun i hi => himage i (List.mem_cons_of_mem image hi))
            (fun i hi => hlt i (List.mem_cons_of_mem id hi)) hnd hstep
          refine ⟨lm', ?_, hlm'⟩
          rw [Lemmer.applyImages]
          simp only
          rw [if_pos (by rw [h.length]; exact hid)]
          exact hok

/-! ### The file -/

section File
variable {lib : Baalbek} {n : Nat}

/-- The state behind the words `before`: the last ones wait for their batch, and `T` is about the
words that are lemmatized. -/
def Batches (T : List Unigram → Lemmer → Prop) (before : List Unigram) (st : LemmatizeState) :
    Prop :=
  ∃ done pending, before = done ++ pending ∧
    st.corpus = batchText (pending.map StrIdWeight.str) ∧
    st.ids = pending.map StrIdWeight.id ∧ T done st.lm

/-- Any words `pending` that follow the words `done` of the file can be a batch: it succeeds and
keeps `T`. -/
def KeepsBatch (lib : Baalbek) (T : List Unigram → Lemmer → Prop) (words : List Unigram) : Prop :=
  ∀ done pending after lm, words = done ++ pending ++ after → T done lm →
    ∃ lm', lm.applyImages (lib.makeDocumentImage (batchText (pending.map StrIdWeight.str)))
        (pending.map StrIdWeight.id) = .ok lm' ∧ T (done ++ pending) lm'

variable {T : List Unigram → Lemmer → Prop} {words : List Unigram}

/-- The pending words are lemmatized. -/
theorem applyChunk_batches (hT : KeepsBatch lib T words) {before after : List Unigram}
    (hwords : words = before ++ after) {st : LemmatizeState} (h : Batches T before st) :
    ∃ lm, applyChunk lib st = .ok { st with lm := lm } ∧ T before lm := by
  obtain ⟨done, pending, rfl, hcorpus, hids, hdone⟩ := h
  obtain ⟨lm, hok, hlm⟩ := hT done pending after st.lm hwords hdone
  refine ⟨lm, ?_, hlm⟩
  unfold applyChunk
  rw [hcorpus, hids, hok]

/-- One word: it joins the batch, and the ten-thousandth one ends it. The text of the batch is the
words with a space behind each. -/
theorem lemmatizeWord_batches (hT : KeepsBatch lib T words) {before after : List Unigram}
    {m : Unigram} (hwords : words = (before ++ [m]) ++ after) {st : LemmatizeState}
    (h : Batches T before st) :
    ∃ st', lemmatizeWord lib st m = .ok st' ∧ Batches T (before ++ [m]) st' := by
  obtain ⟨done, pending, rfl, hcorpus, hids, hdone⟩ := h
  -- The word is pending now.
  have hjoined : Batches T (done ++ pending ++ [m])
      { st with corpus := st.corpus ++ m.str ++ [32], ids := st.ids ++ [m.id] } := by
    refine ⟨done, pending ++ [m], List.append_assoc _ _ _, ?_, ?_, hdone⟩
    · show st.corpus ++ m.str ++ [32] = _
      rw [hcorpus, List.append_assoc, List.map_append]
      simp [batchText]
    · show st.ids ++ [m.id] = _
      rw [hids, List.map_append]
      rfl
  unfold lemmatizeWord
  simp only
  by_cases hfull : st.i % 10000 = 0
  · obtain ⟨lm, hok, hlm⟩ := applyChunk_batches hT hwords hjoined
    rw [if_pos hfull, hok]
    exact ⟨_, rfl, done ++ pending ++ [m], [], (List.append_nil _).symm, rfl, rfl, hlm⟩
  · rw [if_neg hfull]
    obtain ⟨done', pending', hsplit, hcorpus', hids', hdone'⟩ := hjoined
    exact ⟨_, rfl, done', pending', hsplit, hcorpus', hids', hdone'⟩

/-- `lemmatize` runs through, whatever words end up in one batch, when each batch keeps `T`. The
last batch is the one behind the loop. -/
theorem buildLemmer_batches {uni : RecordFile Unigram} (hT : KeepsBatch lib T uni.msgs)
    (hstart : T [] { lems := List.replicate (readTotal uni) [], lemid := ∅ }) :
    ∃ lm, buildLemmer lib uni = .ok lm ∧ T uni.msgs lm := by
  -- No word is pending before the first one.
  have hbegin : Batches T []
      { lm := { lems := List.replicate (readTotal uni) [], lemid := ∅ }
        corpus := []
        ids := []
        i := 1 } := ⟨[], [], rfl, rfl, rfl, hstart⟩
  obtain ⟨st, hrun, hst⟩ := foldlM_run (P := Batches T) uni.msgs [] _
    (fun before m after st hsplit hbefore => by
      have hwords : uni.msgs = (before ++ [m]) ++ after := by
        rw [List.nil_append] at hsplit
        rw [hsplit, List.append_assoc]
        rfl
      exact lemmatizeWord_batches hT hwords hbefore) hbegin
  -- The last chunk takes the words that are still pending.
  obtain ⟨lm, hok, hlm⟩ := applyChunk_batches hT (List.append_nil _).symm hst
  refine ⟨lm, ?_, hlm⟩
  unfold buildLemmer
  rw [readApply_eq, hrun]
  simp only [hok]

/-- What the stage asks of the words of a file. -/
structure WordList (lib : Baalbek) (n : Nat) (words : List Unigram) : Prop where
  key : ∀ m ∈ words, IsWordKey lib m.str
  index : ∀ m ∈ words, (m.id - 1).toNat < n
  nodup : (words.map StrIdWeight.id).Nodup

/-- The words before others are a list of words too. -/
theorem WordList.of_append {before after : List Unigram} (h : WordList lib n (before ++ after)) :
    WordList lib n before where
  key m hm := h.key m (List.mem_append_left _ hm)
  index m hm := h.index m (List.mem_append_left _ hm)
  nodup := by
    have hnd := h.nodup
    rw [List.map_append] at hnd
    exact (List.nodup_append.mp hnd).1

/-- A batch of words of the file. The library gives one image for each of them, so the iterator
over the ids stays in range. -/
theorem WordList.keepsBatch (hlib : Lemmatizes lib GoodImage) (hwords : WordList lib n words) :
    KeepsBatch lib (fun done => LemmaTable n (done.map StrIdWeight.id)) words := by
  rintro done pending after lm rfl htable
  have hbefore := hwords.of_append
  have hkeys : ∀ w ∈ pending.map StrIdWeight.str, IsWordKey lib w := by
    intro w hw
    obtain ⟨m, hm, rfl⟩ := List.mem_map.mp hw
    exact hbefore.key m (List.mem_append_right _ hm)
  -- One image for each pending word, so the iterator over the ids stays in range.
  have hlength : (lib.makeDocumentImage (batchText (pending.map StrIdWeight.str))).length
      = (pending.map StrIdWeight.id).length := by
    rw [hlib.length _ hkeys, List.length_map, List.length_map]
  have hnd := hbefore.nodup
  rw [List.map_append] at hnd
  obtain ⟨lm', hok, hlm'⟩ := applyImages_spec _ (pending.map StrIdWeight.id)
    (done.map StrIdWeight.id) lm hlength (hlib.image _ hkeys)
    (fun id hid => by
      obtain ⟨m, hm, rfl⟩ := List.mem_map.mp hid
      exact hbefore.index m (List.mem_append_right _ hm))
    hnd htable
  refine ⟨lm', hok, ?_⟩
  show LemmaTable n ((done ++ pending).map StrIdWeight.id) lm'
  rw [List.map_append]
  exact hlm'

/-- `lemmatize` builds the table of all words: each of them has the ids of the terms of its image.
-/
theorem buildLemmer_spec (hlib : Lemmatizes lib GoodImage) {uni : RecordFile Unigram}
    (htotal : readTotal uni = uni.msgs.length) (hwords : WordList lib uni.msgs.length uni.msgs) :
    ∃ lm, buildLemmer lib uni = .ok lm ∧
      LemmaTable uni.msgs.length (uni.msgs.map StrIdWeight.id) lm := by
  -- Before the first word every entry is empty and no term is numbered.
  refine buildLemmer_batches (hwords.keepsBatch hlib)
    ⟨?_, ⟨[], Indexes.nil⟩, fun name hname => (nomatch hname),
      fun id hid => absurd hid List.not_mem_nil, fun id hid => absurd hid List.not_mem_nil,
      fun name l hl => (nomatch hl)⟩
  show (List.replicate (readTotal uni) []).length = _
  rw [List.length_replicate, htotal]

end File

/-! ### The files -/

section Saved
variable {uni : RecordFile Unigram} {ws : List UInt32} {lm : Lemmer}

/-- Every entry is that of a word, so none is empty, and the saved table is the same. -/
theorem LemmaTable.tableOf_save (h : LemmaTable uni.msgs.length (uni.msgs.map StrIdWeight.id) lm)
    (huni : ListsWords uni ws) (std : Stdlib) : tableOf (lm.save std).lems = lm.lems := by
  refine tableOf_save_of_nonempty std (fun lids hlids => ?_)
  obtain ⟨i, hi, rfl⟩ := List.mem_iff_getElem.mp hlids
  obtain ⟨m, hm, rfl⟩ := huni.exists_index i (by rw [← h.length]; exact hi)
  have hentry := h.entry m.id (List.mem_map_of_mem hm)
  rw [combos_word, List.getElem?_eq_getElem hi] at hentry
  exact hentry

/-- The words have lemmas. -/
theorem LemmaTable.haveLemmas (h : LemmaTable uni.msgs.length (uni.msgs.map StrIdWeight.id) lm)
    {corpus : List Phrase} (huni : ListsWords uni corpus.flatten) :
    HaveLemmas lm.lems corpus := by
  intro w hw
  obtain ⟨m, hm, rfl⟩ := List.mem_map.mp ((huni.mem_iff w).mpr hw)
  refine ⟨(covered_word_iff lm.lems m.id).mpr ?_, h.entry m.id (List.mem_map_of_mem hm)⟩
  rw [h.length]
  exact huni.index_lt m hm

end Saved

end Colloc.Proofs

import Colloc.Lib.Collocation

/-!
# `Colloc.Lib.CorpusRename`: a corpus under other names

`Renames` says that a corpus is another one with other names for its words and its lemmas, and
different names for different ones. Every notion of `Colloc.Lib.Collocation` has its
renaming law here. The laws are stated for windows of words of the corpus and for tuples of
lemmas of these words, since the names of other words and lemmas may coincide.
`Renames.stable_iff` and `Renames.exists_lists` are the principal results.
-/

set_option autoImplicit false

namespace Colloc.Lib

section InjOn
variable {α β : Type} {f : α → β} {S : Set α}

/-- A renaming that tells names apart tells lists of them apart. The induction is on the first
list, with any second one. -/
theorem map_injOn (hf : Set.InjOn f S) : Set.InjOn (List.map f) {l | ∀ a ∈ l, a ∈ S} := by
  intro l hl l' hl' h
  induction l generalizing l' with
  | nil => exact (List.map_eq_nil_iff.mp h.symm).symm
  | cons a l ih =>
      cases l' with
      | nil => exact absurd h (List.cons_ne_nil _ _)
      | cons a' l' =>
          obtain ⟨ha, hl⟩ := List.forall_mem_cons.mp hl
          obtain ⟨ha', hl'⟩ := List.forall_mem_cons.mp hl'
          obtain ⟨hhead, htail⟩ := List.cons_eq_cons.mp h
          rw [hf ha ha' hhead, ih hl hl' htail]

/-- A renamed name is in a renamed list only when the name is in the list. -/
theorem map_mem_iff (hf : Set.InjOn f S) {l : List α} (hl : ∀ a ∈ l, a ∈ S) {a : α} (ha : a ∈ S) :
    f a ∈ l.map f ↔ a ∈ l := by
  refine ⟨fun h => ?_, List.mem_map_of_mem⟩
  obtain ⟨b, hb, heq⟩ := List.mem_map.mp h
  rwa [← hf (hl b hb) ha heq]

/-- It is there as often, since no other element of the list gets its name. -/
theorem count_map_injOn [BEq α] [LawfulBEq α] [BEq β] [LawfulBEq β] (hf : Set.InjOn f S)
    {l : List α} (hl : ∀ a ∈ l, a ∈ S) {a : α} (ha : a ∈ S) :
    (l.map f).count (f a) = l.count a := by
  induction l with
  | nil => rfl
  | cons b l ih =>
      obtain ⟨hb, hl⟩ := List.forall_mem_cons.mp hl
      rw [List.map_cons, List.count_cons, List.count_cons, ih hl]
      by_cases h : b = a
      · simp [h]
      · have hne : f b ≠ f a := fun heq => h (hf hb ha heq)
        simp [h, hne]

/-- The distinct images are the images of the distinct elements. -/
theorem dedup_map_perm [DecidableEq α] [DecidableEq β] (hf : Set.InjOn f S) {l : List α}
    (hl : ∀ a ∈ l, a ∈ S) : (l.map f).dedup.Perm (l.dedup.map f) := by
  have hnd : (l.dedup.map f).Nodup :=
    (List.nodup_map_iff_inj_on l.nodup_dedup).mpr (fun a ha b hb =>
      hf (hl a (List.mem_dedup.mp ha)) (hl b (List.mem_dedup.mp hb)))
  refine (List.perm_ext_iff_of_nodup (List.nodup_dedup _) hnd).mpr (fun b => ?_)
  simp

/-- A list of images is the image of a list. -/
theorem exists_map_eq {P : α → Prop} {bs : List β} (h : ∀ b ∈ bs, ∃ a, b = f a ∧ P a) :
    ∃ as, bs = List.map f as ∧ ∀ a ∈ as, P a := by
  induction bs with
  | nil => exact ⟨[], rfl, fun a ha => absurd ha List.not_mem_nil⟩
  | cons b bs ih =>
      obtain ⟨⟨a, rfl, ha⟩, hbs⟩ := List.forall_mem_cons.mp h
      obtain ⟨as, rfl, has⟩ := ih hbs
      exact ⟨a :: as, rfl, List.forall_mem_cons.mpr ⟨ha, has⟩⟩

end InjOn

variable {W L W' L' : Type}

/-- `c'` is `c` with the names `w` for the words and `l` for the lemmas. -/
structure Renames (w : W → W') (l : L → L') (c : Corpus W L) (c' : Corpus W' L') : Prop where
  words_injOn : Set.InjOn w {x | x ∈ c.words}
  lemmas_injOn : Set.InjOn l {y | y ∈ c.occurring}
  docs : c'.docs = c.docs.map (List.map (List.map w))
  lemmas : ∀ x ∈ c.words, c'.lemmas (w x) = (c.lemmas x).map l

namespace Renames
variable {w : W → W'} {l : L → L'} {c : Corpus W L} {c' : Corpus W' L'} (h : Renames w l c c')

include h

/-- The phrases are renamed word by word. -/
theorem phrases : c'.phrases = c.phrases.map (List.map w) := by
  rw [Corpus.phrases, Corpus.phrases, h.docs, List.map_flatten]

/-- The words are the renamed ones, in their order. -/
theorem words : c'.words = c.words.map w := by
  rw [Corpus.words, Corpus.words, h.phrases, List.map_flatten]

/-- The windows are the renamed ones. -/
theorem grams (n : Nat) : c'.grams n = (c.grams n).map (List.map w) := by
  rw [Corpus.grams, Corpus.grams, h.phrases, List.flatMap_map, List.map_flatMap]
  exact List.flatMap_congr (fun phrase _ => ngrams_map w n phrase)

/-- The occurrences of lemmas are the renamed ones. -/
theorem occurring : c'.occurring = c.occurring.map l := by
  rw [Corpus.occurring, Corpus.occurring, h.words, List.flatMap_map, List.map_flatMap]
  exact List.flatMap_congr h.lemmas

omit h in
/-- The lemmas of a word of the corpus occur in it. -/
theorem mem_occurring {x : W} (hx : x ∈ c.words) : ∀ y ∈ c.lemmas x, y ∈ c.occurring :=
  fun _ hy => List.mem_flatMap.mpr ⟨x, hx, hy⟩

/-- The renaming tells the windows apart, since it tells their words apart. -/
theorem grams_injOn (n : Nat) : Set.InjOn (List.map w) {ws | ws ∈ c.grams n} := by
  intro ws hws ws' hws' heq
  exact map_injOn h.words_injOn (c.mem_words_of_mem_grams hws) (c.mem_words_of_mem_grams hws') heq

/-! ### Tuples of lemmas -/

section Tuple
variable {ws : List W} {ls : List L} (hws : ∀ x ∈ ws, x ∈ c.words) (hls : ∀ y ∈ ls, y ∈ c.occurring)

include hws

/-- Renamed words carry the renamed lemmas, and no other ones that occur. It is enough that the
renaming is injective on what occurs. -/
theorem carries_iff (hls : ∀ y ∈ ls, y ∈ c.occurring) :
    c'.Carries (ws.map w) (ls.map l) ↔ c.Carries ws ls := by
  rw [Corpus.Carries, Corpus.Carries, List.forall₂_map_left_iff, List.forall₂_map_right_iff]
  induction ws generalizing ls with
  | nil => simp
  | cons x ws ih =>
      obtain ⟨hx, hws⟩ := List.forall_mem_cons.mp hws
      cases ls with
      | nil => simp
      | cons y ls =>
          obtain ⟨hy, hls⟩ := List.forall_mem_cons.mp hls
          rw [List.forall₂_cons, List.forall₂_cons, ih hws hls, h.lemmas x hx,
            map_mem_iff h.lemmas_injOn (mem_occurring hx) hy]

/-- A renamed window carries only renamed tuples: each of its lemmas is one of a renamed word. -/
theorem exists_of_carries {ls' : List L'} (hcarries : c'.Carries (ws.map w) ls') :
    ∃ ls, ls' = ls.map l ∧ (∀ y ∈ ls, y ∈ c.occurring) ∧ c.Carries ws ls := by
  induction ws generalizing ls' with
  | nil =>
      rw [List.forall₂_nil_left_iff.mp hcarries]
      exact ⟨[], rfl, fun y hy => absurd hy List.not_mem_nil, List.Forall₂.nil⟩
  | cons x ws ih =>
      obtain ⟨hx, hws⟩ := List.forall_mem_cons.mp hws
      obtain ⟨y', ls', hy', htail, rfl⟩ := List.forall₂_cons_left_iff.mp hcarries
      rw [h.lemmas x hx] at hy'
      obtain ⟨y, hy, rfl⟩ := List.mem_map.mp hy'
      obtain ⟨ls, rfl, hls, hcarries⟩ := ih hws htail
      exact ⟨y :: ls, rfl, List.forall_mem_cons.mpr ⟨mem_occurring hx y hy, hls⟩,
        List.Forall₂.cons hy hcarries⟩

/-- A word keeps its number of lemmas, so a window keeps its number of readings. -/
theorem readings : c'.readings (ws.map w) = c.readings ws := by
  unfold Corpus.readings
  rw [List.map_map]
  refine congrArg List.prod (List.map_congr_left (fun x hx => ?_))
  show (c'.lemmas (w x)).length = _
  rw [h.lemmas x (hws x hx), List.length_map]

variable [DecidableEq L] [DecidableEq L']

include hls

/-- And it keeps the number of those that are a given tuple. The number is a product over the
places, where a lemma is listed as often as its new name. -/
theorem multiplicity : c'.multiplicity (ws.map w) (ls.map l) = c.multiplicity ws ls := by
  unfold Corpus.multiplicity
  rw [List.zipWith_map]
  refine congrArg List.prod ?_
  induction ws generalizing ls with
  | nil => rfl
  | cons x ws ih =>
      obtain ⟨hx, hws⟩ := List.forall_mem_cons.mp hws
      cases ls with
      | nil => rfl
      | cons y ls =>
          obtain ⟨hy, hls⟩ := List.forall_mem_cons.mp hls
          rw [List.zipWith_cons_cons, List.zipWith_cons_cons, ih hws hls, h.lemmas x hx,
            count_map_injOn h.lemmas_injOn (mem_occurring hx) hy]

/-- So the part that it gives to a tuple is the same. -/
theorem part : c'.part (ws.map w) (ls.map l) = c.part ws ls := by
  unfold Corpus.part
  rw [h.multiplicity hws hls, h.readings hws]

end Tuple

/-- No two lemmas become one. -/
theorem lemmaCount [DecidableEq L] [DecidableEq L'] : c'.lemmaCount = c.lemmaCount := by
  have himage : c'.occurring.toFinset = c.occurring.toFinset.image l := by
    ext y
    simp [h.occurring]
  rw [Corpus.lemmaCount, himage, Finset.card_image_of_injOn]
  · rfl
  · intro y hy y' hy' heq
    simp only [List.coe_toFinset] at hy hy'
    exact h.lemmas_injOn hy hy' heq

/-- A tuple is in as many documents under its new names. A document of the renamed corpus has the
renamed windows of the old one, and a window carries the tuple under both names or under none. -/
theorem docFreq [DecidableEq L] [DecidableEq L'] {ls : List L} (hls : ∀ y ∈ ls, y ∈ c.occurring) :
    c'.docFreq (ls.map l) = c.docFreq ls := by
  unfold Corpus.docFreq
  rw [h.docs, List.countP_map, List.length_map]
  refine List.countP_congr (fun doc hdoc => ?_)
  rw [Function.comp_apply, decide_eq_true_eq, decide_eq_true_eq]
  have hwindow : ∀ phrase ∈ doc, ∀ ws ∈ ngrams ls.length phrase,
      (c'.Carries (ws.map w) (ls.map l) ↔ c.Carries ws ls) := by
    intro phrase hphrase ws hws
    have hmem : ws ∈ c.grams ls.length :=
      List.mem_flatMap.mpr ⟨phrase, List.mem_flatten_of_mem hdoc hphrase, hws⟩
    exact h.carries_iff (c.mem_words_of_mem_grams hmem) hls
  constructor
  · rintro ⟨phrase', hphrase', ws', hws', hcarries⟩
    obtain ⟨phrase, hphrase, rfl⟩ := List.mem_map.mp hphrase'
    rw [ngrams_map] at hws'
    obtain ⟨ws, hws, rfl⟩ := List.mem_map.mp hws'
    exact ⟨phrase, hphrase, ws, hws, (hwindow phrase hphrase ws hws).mp hcarries⟩
  · rintro ⟨phrase, hphrase, ws, hws, hcarries⟩
    refine ⟨phrase.map w, List.mem_map_of_mem hphrase, ws.map w, ?_,
      (hwindow phrase hphrase ws hws).mpr hcarries⟩
    rw [ngrams_map]
    exact List.mem_map_of_mem hws

/-! ### Selections -/

section Selected
variable {sel : Set (List W)} {sel' : Set (List W')} {n : Nat}
  (hsel : ∀ ws ∈ c.grams n, (ws.map w ∈ sel' ↔ ws ∈ sel))

include hsel

/-- The selected windows are the renamed ones, when the selections correspond. -/
theorem selected : c'.selected sel' n = (c.selected sel n).map (List.map w) := by
  classical
  unfold Corpus.selected
  rw [h.grams, List.filter_map]
  refine congrArg _ (List.filter_congr (fun ws hws => ?_))
  rw [Function.comp_apply]
  exact decide_eq_decide.mpr (hsel ws hws)

variable [DecidableEq L] [DecidableEq L'] {ls : List L} (hlen : ls.length = n)
  (hls : ∀ y ∈ ls, y ∈ c.occurring)

include hlen hls

/-- The weight of a tuple is the same under its new names. -/
theorem weight : c'.weight sel' (ls.map l) = c.weight sel ls := by
  subst hlen
  unfold Corpus.weight
  rw [List.length_map, h.selected hsel, List.map_map]
  refine congrArg List.sum (List.map_congr_left (fun ws hws => ?_))
  exact h.part (c.mem_words_of_mem_grams (c.mem_selected.mp hws).1) hls

omit hsel hlen hls in
/-- The weight of a lemma is that of a tuple of one. -/
theorem lemmaWeight {y : L} (hy : y ∈ c.occurring) : c'.lemmaWeight (l y) = c.lemmaWeight y :=
  have hsingle : ∀ y' ∈ [y], y' ∈ c.occurring := fun _ hy' => (List.mem_singleton.mp hy') ▸ hy
  h.weight (fun _ _ => iff_of_true (Set.mem_univ _) (Set.mem_univ _)) rfl hsingle

/-- So is its score, which is made of weights. -/
theorem score (t : ℚ) : c'.score sel' t (ls.map l) = c.score sel t ls := by
  have hprod : ((ls.map l).map c'.lemmaWeight).prod = (ls.map c.lemmaWeight).prod := by
    rw [List.map_map]
    exact congrArg List.prod (List.map_congr_left (fun y hy => h.lemmaWeight (hls y hy)))
  unfold Corpus.score
  rw [h.lemmaCount, h.weight hsel hlen hls, hprod, List.length_map]

/-- A tuple has a weight above the bound under its new names if and only if it has one, as both
the windows that carry it and the weight are those of before. -/
theorem heavy_iff (t : ℚ) : c'.Heavy sel' t (ls.map l) ↔ c.Heavy sel t ls := by
  have harises : (∃ ws ∈ c'.selected sel' (ls.map l).length, c'.Carries ws (ls.map l)) ↔
      ∃ ws ∈ c.selected sel ls.length, c.Carries ws ls := by
    subst hlen
    rw [List.length_map, h.selected hsel]
    constructor
    · rintro ⟨ws', hws', hcarries⟩
      obtain ⟨ws, hws, rfl⟩ := List.mem_map.mp hws'
      have hwords := c.mem_words_of_mem_grams (c.mem_selected.mp hws).1
      exact ⟨ws, hws, (h.carries_iff hwords hls).mp hcarries⟩
    · rintro ⟨ws, hws, hcarries⟩
      have hwords := c.mem_words_of_mem_grams (c.mem_selected.mp hws).1
      exact ⟨ws.map w, List.mem_map_of_mem hws, (h.carries_iff hwords hls).mpr hcarries⟩
  have hweight := h.weight hsel hlen hls
  exact ⟨fun hs => ⟨harises.mp hs.arises, hweight ▸ hs.weight⟩,
    fun hs => ⟨harises.mpr hs.arises, hweight ▸ hs.weight⟩⟩

/-- A tuple is a collocation under its new names if and only if it is one. -/
theorem stable_iff (b : Bounds) : c'.Stable sel' b (ls.map l) ↔ c.Stable sel b ls := by
  have hheavy := h.heavy_iff hsel hlen hls b.weight
  have hdocs := h.docFreq hls
  have hscore := h.score hsel hlen hls b.weight
  exact ⟨fun hs => ⟨hheavy.mp hs.toHeavy, hdocs ▸ hs.docs, hscore ▸ hs.score⟩,
    fun hs => ⟨hheavy.mpr hs.toHeavy, hdocs ▸ hs.docs, hscore ▸ hs.score⟩⟩

/-- The cases of a tuple are those under the old names, renamed. The names are injective on the
words of the corpus, so no two windows become one and the counts stay. -/
theorem cases [DecidableEq W] [DecidableEq W'] :
    c'.cases sel' (ls.map l) = (c.cases sel ls).map (Prod.map (List.map w) id) := by
  subst hlen
  have hgrams : ∀ ws ∈ c.selected sel ls.length, ws ∈ c.grams ls.length := fun ws hws =>
    (c.mem_selected.mp hws).1
  have hperm := dedup_map_perm (h.grams_injOn ls.length) hgrams
  unfold Corpus.cases
  rw [List.length_map, h.selected hsel, Multiset.map_coe, List.map_flatMap, Multiset.coe_eq_coe]
  refine (hperm.flatMap_right _).trans ?_
  rw [List.flatMap_map]
  refine List.Perm.of_eq (List.flatMap_congr (fun ws hws => ?_))
  have hws := hgrams ws (List.mem_dedup.mp hws)
  rw [h.multiplicity (c.mem_words_of_mem_grams hws) hls, h.grams,
    count_map_injOn (h.grams_injOn ls.length) (fun _ hmem => hmem) hws, List.map_replicate]
  rfl

end Selected

section Stable
variable [DecidableEq L] [DecidableEq L'] {sel : Set (List W)} {sel' : Set (List W')} {n : Nat}
  {b : Bounds}

omit [DecidableEq L] in
/-- A tuple that arises under new names has its old ones. It is carried by a renamed window, and
so it is a renamed tuple. -/
theorem exists_of_heavy (hsel : ∀ ws ∈ c.grams n, (ws.map w ∈ sel' ↔ ws ∈ sel)) {t : ℚ}
    {ls' : List L'} (hlen : ls'.length = n) (hs : c'.Heavy sel' t ls') :
    ∃ ls : List L, ls' = ls.map l ∧ ls.length = n ∧ ∀ y ∈ ls, y ∈ c.occurring := by
  obtain ⟨ws', hws', hcarries⟩ := hs.arises
  rw [hlen, h.selected hsel] at hws'
  obtain ⟨ws, hws, rfl⟩ := List.mem_map.mp hws'
  have hwords := c.mem_words_of_mem_grams (c.mem_selected.mp hws).1
  obtain ⟨ls, rfl, hls, -⟩ := h.exists_of_carries hwords hcarries
  rw [List.length_map] at hlen
  exact ⟨ls, rfl, hlen, hls⟩

/-- A window carries a collocation under new names if and only if it carries one. From right to
left the collocation is renamed. From left to right it has a weight, so its lemmas occur and have
old names. -/
theorem named_iff (hsel : ∀ ws ∈ c.grams n, (ws.map w ∈ sel' ↔ ws ∈ sel)) {ws : List W}
    (hws : ∀ x ∈ ws, x ∈ c.words) (hlen : ws.length = n) :
    ws.map w ∈ c'.named sel' b ↔ ws ∈ c.named sel b := by
  constructor
  · rintro ⟨ls', hs, hmem, hcarries⟩
    have hn : ls'.length = n := by
      rw [← hcarries.length_eq, List.length_map, hlen]
    obtain ⟨ls, rfl, hn', hls⟩ := h.exists_of_heavy hsel hn hs.toHeavy
    have hs := (h.stable_iff hsel hn' hls b).mp hs
    rw [hn, h.selected hsel] at hmem
    obtain ⟨ws₀, hws₀, heq⟩ := List.mem_map.mp hmem
    have hwords := c.mem_words_of_mem_grams (c.mem_selected.mp hws₀).1
    rw [map_injOn h.words_injOn hwords hws heq] at hws₀
    exact ⟨ls, hs, hn' ▸ hws₀, (h.carries_iff hws hls).mp hcarries⟩
  · rintro ⟨ls, hs, hmem, hcarries⟩
    have hls := hs.mem_occurring
    have hn : ls.length = n := hcarries.length_eq ▸ hlen
    refine ⟨ls.map l, (h.stable_iff hsel hn hls b).mpr hs, ?_, (h.carries_iff hws hls).mpr hcarries⟩
    rw [List.length_map, hn, h.selected hsel]
    exact List.mem_map_of_mem (hn ▸ hmem)

/-- The records under new names are those of the corpus, renamed. The tuples have weights above the
bound, so they arise, and have old names. -/
theorem exists_records [DecidableEq W] [DecidableEq W']
    (hsel : ∀ ws ∈ c.grams n, (ws.map w ∈ sel' ↔ ws ∈ sel)) {t : ℚ} {P : List L → Prop}
    {P' : List L' → Prop} (hheavy : ∀ ls, P ls → c.Heavy sel t ls)
    (hheavy' : ∀ ls', P' ls' → c'.Heavy sel' t ls')
    (hP : ∀ ls : List L, ls.length = n → (∀ y ∈ ls, y ∈ c.occurring) → (P' (ls.map l) ↔ P ls))
    {records' : List (List L' × ℚ × Multiset (List W' × Nat))}
    (hrecords' : c'.Records P' sel' t n records') :
    ∃ records, c.Records P sel t n records ∧
      records' = records.map (fun r =>
        (r.1.map l, r.2.1, r.2.2.map (Prod.map (List.map w) id))) := by
  -- The tuples in their old names, in the order of the records.
  obtain ⟨tuples, htuples, hmem⟩ : ∃ tuples : List (List L),
      records'.map Prod.fst = tuples.map (List.map l) ∧ ∀ ls ∈ tuples, ls.length = n ∧
        (∀ y ∈ ls, y ∈ c.occurring) ∧ P ls := by
    refine exists_map_eq (fun ls' hls' => ?_)
    obtain ⟨hlen, hs⟩ := (hrecords'.mem_iff ls').mp hls'
    obtain ⟨ls, rfl, hn, hls⟩ := h.exists_of_heavy hsel hlen (hheavy' ls' hs)
    exact ⟨ls, rfl, hn, hls, (hP ls hn hls).mp hs⟩
  have hrenamed : records' = (tuples.map (c.record sel t)).map (fun r =>
      (r.1.map l, r.2.1, r.2.2.map (Prod.map (List.map w) id))) := by
    calc records' = (records'.map Prod.fst).map (c'.record sel' t) := by
          rw [List.map_map]
          exact (List.map_id'' (fun _ => rfl) records').symm.trans
            (List.map_congr_left (fun r' hr' => hrecords'.record r' hr'))
      _ = (tuples.map (List.map l)).map (c'.record sel' t) := by rw [htuples]
      _ = _ := by
          rw [List.map_map, List.map_map]
          refine List.map_congr_left (fun ls hls => ?_)
          obtain ⟨hlen, hoccurring, -⟩ := hmem ls hls
          show (_, _, _) = (_, _, _)
          rw [h.score hsel hlen hoccurring, h.cases hsel hlen hoccurring]
          rfl
  have hfst : (tuples.map (c.record sel t)).map Prod.fst = tuples := by
    rw [List.map_map]
    exact List.map_id'' (fun _ => rfl) tuples
  refine ⟨_, ⟨?_, fun ls => ?_, fun r hr => ?_⟩, hrenamed⟩
  · have hnd := hrecords'.nodup
    rw [htuples] at hnd
    rw [hfst]
    exact hnd.of_map _
  · rw [hfst]
    refine ⟨fun hls => ⟨(hmem ls hls).1, (hmem ls hls).2.2⟩, fun ⟨hlen, hs⟩ => ?_⟩
    have hls := (hheavy ls hs).mem_occurring
    have hmem' := (hrecords'.mem_iff (ls.map l)).mpr
      ⟨by rw [List.length_map, hlen], (hP ls hlen hls).mpr hs⟩
    rw [htuples] at hmem'
    obtain ⟨ls₀, hls₀, heq⟩ := List.mem_map.mp hmem'
    rwa [← map_injOn h.lemmas_injOn (hmem ls₀ hls₀).2.1 hls heq]
  · obtain ⟨ls, -, rfl⟩ := List.mem_map.mp hr
    rfl

/-- So are the lists of the collocations, which are in the same order. The order is by scores,
which a renaming keeps. -/
theorem exists_lists [DecidableEq W] [DecidableEq W']
    (hsel : ∀ ws ∈ c.grams n, (ws.map w ∈ sel' ↔ ws ∈ sel))
    {records' : List (List L' × ℚ × Multiset (List W' × Nat))}
    (hlists : c'.Lists sel' b n records') :
    ∃ records, c.Lists sel b n records ∧
      records' = records.map (fun r =>
        (r.1.map l, r.2.1, r.2.2.map (Prod.map (List.map w) id))) := by
  obtain ⟨records, hrecords, heq⟩ := h.exists_records hsel (fun _ hs => hs.toHeavy)
    (fun _ hs => hs.toHeavy) (fun ls hlen hls => h.stable_iff hsel hlen hls b) hlists.toRecords
  refine ⟨records, ⟨hrecords, ?_⟩, heq⟩
  have hsorted := hlists.sorted
  rw [heq, List.pairwise_map] at hsorted
  exact hsorted

end Stable

end Renames

end Colloc.Lib

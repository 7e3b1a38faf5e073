import Colloc.Lib.Collocation

/-!
# `Colloc.Lib.CorpusOrder`: the order of the documents

What a corpus says about its collocations is sums and counts over its documents, so it does not
depend on their order. `Corpus.Shuffled` relates two corpora with the same documents in some order
and the same lemmas, and each law says that a number or a set is the same in both.
-/

set_option autoImplicit false

namespace Colloc.Lib.Corpus

variable {W L : Type}

/-- The same documents in some order. -/
structure Shuffled (c c' : Corpus W L) : Prop where
  docs : c'.docs.Perm c.docs
  lemmas : c'.lemmas = c.lemmas

namespace Shuffled
variable {c c' : Corpus W L} (h : c.Shuffled c')

include h

/-- The phrases are those of the documents, in their order. -/
theorem phrases : c'.phrases.Perm c.phrases := h.docs.flatten

/-- The words are those of the phrases. -/
theorem words : c'.words.Perm c.words := h.phrases.flatten

/-- A window lies in one phrase, so the windows are the same as well. -/
theorem grams (n : Nat) : (c'.grams n).Perm (c.grams n) := h.phrases.flatMap_right _

/-- The occurrences of lemmas are those of the words. -/
theorem occurring : c'.occurring.Perm c.occurring := by
  unfold Corpus.occurring
  rw [h.lemmas]
  exact h.words.flatMap_right _

/-- What a window carries is about its words alone. -/
theorem carries_iff (ws : List W) (ls : List L) : c'.Carries ws ls ↔ c.Carries ws ls := by
  unfold Carries
  rw [h.lemmas]

/-- The number of readings of a window is about its words alone. -/
theorem readings (ws : List W) : c'.readings ws = c.readings ws := by
  unfold Corpus.readings
  rw [h.lemmas]

/-- The selected windows are the same, each as often. -/
theorem selected (sel : Set (List W)) (n : Nat) :
    (c'.selected sel n).Perm (c.selected sel n) := (h.grams n).filter _

section Weights
variable [DecidableEq L]

/-- The part that a window gives to a tuple is about its words alone. -/
theorem part (ws : List W) (ls : List L) : c'.part ws ls = c.part ws ls := by
  unfold Corpus.part multiplicity
  rw [h.readings, h.lemmas]

/-- The number of lemmas is the same. -/
theorem lemmaCount : c'.lemmaCount = c.lemmaCount := by
  unfold Corpus.lemmaCount
  rw [List.toFinset_eq_of_perm _ _ h.occurring]

/-- A document frequency is a count over the documents, so their order does not matter. -/
theorem docFreq (ls : List L) : c'.docFreq ls = c.docFreq ls := by
  unfold Corpus.docFreq
  simp only [h.lemmas]
  exact h.docs.countP_eq _

/-- A weight is a sum over the windows, so their order does not matter. -/
theorem weight (sel : Set (List W)) (ls : List L) : c'.weight sel ls = c.weight sel ls := by
  have hpart : (fun ws => c'.part ws ls) = fun ws => c.part ws ls :=
    funext (fun ws => h.part ws ls)
  unfold Corpus.weight
  rw [hpart]
  exact ((h.selected sel ls.length).map _).sum_eq

/-- The score of a tuple is the same. -/
theorem score (sel : Set (List W)) (t : ℚ) (ls : List L) :
    c'.score sel t ls = c.score sel t ls := by
  have hlemma : c'.lemmaWeight = c.lemmaWeight := funext (fun l => h.weight Set.univ [l])
  unfold Corpus.score
  rw [h.lemmaCount, h.weight, hlemma]

/-- A tuple is above the bounds in both corpora or in none. Each of the four quantities that the
bounds compare goes over all documents, and does not depend on their order. -/
theorem stable_iff (sel : Set (List W)) (b : Bounds) (ls : List L) :
    c'.Stable sel b ls ↔ c.Stable sel b ls := by
  have harises : (∃ ws ∈ c'.selected sel ls.length, c'.Carries ws ls) ↔
      ∃ ws ∈ c.selected sel ls.length, c.Carries ws ls := by
    simp only [(h.selected sel ls.length).mem_iff, h.carries_iff]
  constructor
  · rintro ⟨⟨ha, hw⟩, hd, hs⟩
    exact ⟨⟨harises.mp ha, h.weight sel ls ▸ hw⟩, h.docFreq ls ▸ hd, h.score sel _ ls ▸ hs⟩
  · rintro ⟨⟨ha, hw⟩, hd, hs⟩
    refine ⟨⟨harises.mpr ha, ?_⟩, ?_, ?_⟩
    · rw [h.weight]
      exact hw
    · rw [h.docFreq]
      exact hd
    · rw [h.score]
      exact hs

/-- The cases of the collocations are the same windows. -/
theorem named (sel : Set (List W)) (b : Bounds) : c'.named sel b = c.named sel b := by
  ext ws
  unfold Corpus.named
  simp only [Set.mem_ofPred_eq, h.stable_iff, h.carries_iff]
  exact exists_congr (fun ls => by rw [(h.selected sel ls.length).mem_iff])

omit [DecidableEq L] in
/-- The commonest cases of a tuple are the same, since both corpora have the same windows, each as
often. -/
theorem commonest_iff [DecidableEq W] (sel : Set (List W)) (ls : List L) (ws : List W) :
    c'.Commonest sel ls ws ↔ c.Commonest sel ls ws := by
  have hmem : ∀ ws', ws' ∈ c'.selected sel ls.length ↔ ws' ∈ c.selected sel ls.length :=
    fun ws' => (h.selected sel ls.length).mem_iff
  have hcount : ∀ ws', (c'.grams ls.length).count ws' = (c.grams ls.length).count ws' :=
    fun ws' => (h.grams ls.length).count_eq ws'
  constructor
  · rintro ⟨hsel, hcarries, hmax⟩
    refine ⟨(hmem ws).mp hsel, (h.carries_iff ws ls).mp hcarries, fun ws' hsel' hcarries' => ?_⟩
    rw [← hcount, ← hcount]
    exact hmax ws' ((hmem ws').mpr hsel') ((h.carries_iff ws' ls).mpr hcarries')
  · rintro ⟨hsel, hcarries, hmax⟩
    refine ⟨(hmem ws).mpr hsel, (h.carries_iff ws ls).mpr hcarries, fun ws' hsel' hcarries' => ?_⟩
    rw [hcount, hcount]
    exact hmax ws' ((hmem ws').mp hsel') ((h.carries_iff ws' ls).mp hcarries')

end Weights

end Shuffled

end Colloc.Lib.Corpus

import Colloc.Lib.Windows
import Mathlib.Algebra.BigOperators.Group.List.Basic
import Mathlib.Algebra.Order.BigOperators.Group.List
import Mathlib.Algebra.Order.BigOperators.GroupWithZero.List
import Mathlib.Algebra.Order.Field.Rat
import Mathlib.Data.Finset.Card
import Mathlib.Data.List.Count
import Mathlib.Data.List.Dedup
import Mathlib.Data.List.Forall2
import Mathlib.Data.Multiset.Basic
import Mathlib.Data.Set.Function

/-!
# `Colloc.Lib.Collocation`: collocations of a corpus

A corpus is a list of documents. A document is a list of phrases, a phrase a list of words,
and a word has lemmas. `ngrams n` are the windows of `n` adjacent words of a phrase.

A window carries a tuple of lemmas when each word has the lemma at its place (`Carries`). A
word of several lemmas gives each of them an equal part, so a window gives its tuple the
product of the parts (`part`), and the weight of a tuple is the sum over the windows
(`weight`), or over a selection of them. `score` relates the weight to the weights of the
single lemmas. A tuple is stable when its weight, its document frequency and its score are
above the bounds (`Stable`).

Words and lemmas are of any types. `Records` says that a list of records is that of the tuples of
`n` lemmas with some property, with their scores and the windows they stand for, and `Lists` that
it is the list of the collocations, in the order of their scores.
-/

set_option autoImplicit false

namespace Colloc.Lib

/-! ### Windows of any length -/

section Ngrams
variable {α β : Type}

/-- The contiguous sublists of length `n`, one for each position. -/
def ngrams (n : Nat) : List α → List (List α)
  | [] => []
  | a :: l => if n ≤ l.length + 1 then (a :: l).take n :: ngrams n l else []

/-- The windows of a mapped list are the mapped windows. A window is cut out by its position,
which the map does not look at. -/
theorem ngrams_map (f : α → β) (n : Nat) (l : List α) :
    ngrams n (l.map f) = (ngrams n l).map (List.map f) := by
  induction l with
  | nil => rfl
  | cons a l ih =>
      show (if n ≤ (l.map f).length + 1 then _ else _) = _
      rw [List.length_map]
      by_cases h : n ≤ l.length + 1
      · rw [if_pos h, ih]
        simp [ngrams, h, List.map_take]
      · simp [ngrams, h]

/-- A window of size `n` has `n` elements. The shorter pieces at the end of the list are not
windows. -/
theorem length_of_mem_ngrams {n : Nat} {l ws : List α} (h : ws ∈ ngrams n l) :
    ws.length = n := by
  induction l with
  | nil => exact absurd h List.not_mem_nil
  | cons a l ih =>
      by_cases hn : n ≤ l.length + 1
      · rw [ngrams, if_pos hn] at h
        rcases List.mem_cons.mp h with rfl | h
        · rw [List.length_take, List.length_cons]
          omega
        · exact ih h
      · rw [ngrams, if_neg hn] at h
        exact absurd h List.not_mem_nil

/-- The elements of a window are elements of the list, as a window is a piece of it. -/
theorem mem_of_mem_ngrams {n : Nat} {l ws : List α} (h : ws ∈ ngrams n l) {a : α}
    (ha : a ∈ ws) : a ∈ l := by
  induction l with
  | nil => exact absurd h List.not_mem_nil
  | cons b l ih =>
      by_cases hn : n ≤ l.length + 1
      · rw [ngrams, if_pos hn] at h
        rcases List.mem_cons.mp h with rfl | h
        · exact List.mem_of_mem_take ha
        · exact List.mem_cons_of_mem b (ih h)
      · rw [ngrams, if_neg hn] at h
        exact absurd h List.not_mem_nil

/-- The windows of size one are the elements, each in a list of its own. -/
theorem ngrams_one (l : List α) : ngrams 1 l = l.map (fun a => [a]) := by
  induction l with
  | nil => rfl
  | cons a l ih => simp [ngrams, ih]

/-- The windows of size two are the adjacent pairs. -/
theorem ngrams_two (l : List α) : ngrams 2 l = (pairs l).map (fun p => [p.1, p.2]) := by
  induction l with
  | nil => rfl
  | cons a l ih =>
      cases l with
      | nil => rfl
      | cons b l =>
          rw [ngrams, ih]
          simp

/-- The windows of size three are the adjacent triples, in the same order. A list of two elements
has none of either kind. -/
theorem ngrams_three (l : List α) :
    ngrams 3 l = (triples l).map (fun t => [t.1, t.2.1, t.2.2]) := by
  induction l with
  | nil => rfl
  | cons a l ih =>
      cases l with
      | nil => rfl
      | cons b l =>
          cases l with
          | nil => rfl
          | cons c l =>
              rw [ngrams, ih]
              simp

end Ngrams

/-! ### The corpus -/

/-- A corpus: its documents, as phrases of words, and the lemmas of a word. -/
structure Corpus (W L : Type) where
  docs : List (List (List W))
  lemmas : W → List L

/-- The bounds of a collocation: each of its numbers has to be above its bound. -/
structure Bounds where
  weight : ℚ
  docs : Nat
  score : ℚ

namespace Corpus
variable {W L : Type} (c : Corpus W L)

def phrases : List (List W) := c.docs.flatten

def words : List W := c.phrases.flatten

/-- The windows of `n` adjacent words. -/
def grams (n : Nat) : List (List W) := c.phrases.flatMap (ngrams n)

/-- The lemmas of all occurrences of words. -/
def occurring : List L := c.words.flatMap c.lemmas

/-- Each word of the window has the lemma at its place. -/
def Carries (ws : List W) (ls : List L) : Prop :=
  List.Forall₂ (fun w l => l ∈ c.lemmas w) ws ls

/-- The number of ways to choose a lemma for each word. -/
def readings (ws : List W) : Nat := (ws.map (fun w => (c.lemmas w).length)).prod

open Classical in
/-- The windows of `n` words in the selection. -/
noncomputable def selected (sel : Set (List W)) (n : Nat) : List (List W) :=
  (c.grams n).filter (fun ws => decide (ws ∈ sel))

/-- A selected window is a window of a phrase that is in `sel`. -/
theorem mem_selected {sel : Set (List W)} {n : Nat} {ws : List W} :
    ws ∈ c.selected sel n ↔ ws ∈ c.grams n ∧ ws ∈ sel := by
  simp [selected]

/-- Every window is selected. -/
@[simp] theorem selected_univ (n : Nat) : c.selected Set.univ n = c.grams n := by
  simp [selected]

/-- A window of `n` words has `n` words. -/
theorem length_of_mem_grams {n : Nat} {ws : List W} (h : ws ∈ c.grams n) : ws.length = n := by
  obtain ⟨phrase, -, hws⟩ := List.mem_flatMap.mp h
  exact length_of_mem_ngrams hws

/-- A window of a phrase has words of the corpus only. -/
theorem mem_words_of_mem_grams {n : Nat} {ws : List W} (h : ws ∈ c.grams n) :
    ∀ w ∈ ws, w ∈ c.words := by
  obtain ⟨phrase, hphrase, hws⟩ := List.mem_flatMap.mp h
  exact fun w hw => List.mem_flatten_of_mem hphrase (mem_of_mem_ngrams hws hw)

variable {c} in
/-- The lemmas that words of the corpus carry occur in it. -/
theorem Carries.mem_occurring {ws : List W} {ls : List L} (h : c.Carries ws ls)
    (hws : ∀ w ∈ ws, w ∈ c.words) : ∀ l ∈ ls, l ∈ c.occurring := by
  induction h with
  | nil => exact fun l hl => absurd hl List.not_mem_nil
  | cons hl _ ih =>
      intro l' hl'
      rcases List.mem_cons.mp hl' with rfl | hl'
      · exact List.mem_flatMap.mpr ⟨_, hws _ List.mem_cons_self, hl⟩
      · exact ih (fun w hw => hws w (List.mem_cons_of_mem _ hw)) l' hl'

section Weights
variable [DecidableEq L]

/-- In how many of the readings of the window the lemmas are `ls`. -/
def multiplicity (ws : List W) (ls : List L) : Nat :=
  (List.zipWith (fun w l => (c.lemmas w).count l) ws ls).prod

/-- The part of one occurrence of the window that the tuple gets. -/
def part (ws : List W) (ls : List L) : ℚ := (c.multiplicity ws ls : ℚ) / (c.readings ws : ℚ)

/-- The number of distinct lemmas. -/
def lemmaCount : Nat := c.occurring.toFinset.card

/-- The number of documents with a window that carries the tuple. -/
def docFreq (ls : List L) : Nat :=
  c.docs.countP (fun doc =>
    decide (∃ phrase ∈ doc, ∃ ws ∈ ngrams ls.length phrase,
      List.Forall₂ (fun w l => l ∈ c.lemmas w) ws ls))

/-- The weight of a tuple over the selected windows. -/
noncomputable def weight (sel : Set (List W)) (ls : List L) : ℚ :=
  ((c.selected sel ls.length).map (fun ws => c.part ws ls)).sum

/-- The weight of a lemma. -/
noncomputable def lemmaWeight (l : L) : ℚ := c.weight Set.univ [l]

/-- The weight above `t`, in units of what independent lemmas would give. -/
noncomputable def score (sel : Set (List W)) (t : ℚ) (ls : List L) : ℚ :=
  (c.lemmaCount : ℚ) ^ (ls.length - 1) * (c.weight sel ls - t) / (ls.map c.lemmaWeight).prod

/-- The factor between the weight above the bound and the score. -/
noncomputable def factor (ls : List L) : ℚ :=
  (c.lemmaCount : ℚ) ^ (ls.length - 1) / (ls.map c.lemmaWeight).prod

/-- The score is the weight above the threshold, times a factor that depends on the lemmas alone.
-/
theorem score_eq (sel : Set (List W)) (t : ℚ) (ls : List L) :
    c.score sel t ls = c.factor ls * (c.weight sel ls - t) :=
  mul_div_right_comm _ _ _

/-- A tuple that a selected window carries, with a weight above `t`. -/
structure Heavy (sel : Set (List W)) (t : ℚ) (ls : List L) : Prop where
  arises : ∃ ws ∈ c.selected sel ls.length, c.Carries ws ls
  weight : t < c.weight sel ls

/-- A collocation. -/
structure Stable (sel : Set (List W)) (b : Bounds) (ls : List L) : Prop
    extends c.Heavy sel b.weight ls where
  docs : b.docs < c.docFreq ls
  score : b.score < c.score sel b.weight ls

variable {c} in
/-- The lemmas of a tuple that arises are lemmas of the corpus. -/
theorem Heavy.mem_occurring {sel : Set (List W)} {t : ℚ} {ls : List L}
    (h : c.Heavy sel t ls) : ∀ l ∈ ls, l ∈ c.occurring := by
  obtain ⟨ws, hws, hcarries⟩ := h.arises
  exact hcarries.mem_occurring (c.mem_words_of_mem_grams (c.mem_selected.mp hws).1)

/-- The windows that carry a collocation. -/
def named (sel : Set (List W)) (b : Bounds) : Set (List W) :=
  {ws | ∃ ls, c.Stable sel b ls ∧ ws ∈ c.selected sel ls.length ∧ c.Carries ws ls}

/-- A window of the tuple that no other one outnumbers. -/
structure Commonest [DecidableEq W] (sel : Set (List W)) (ls : List L) (ws : List W) : Prop where
  mem : ws ∈ c.selected sel ls.length
  carries : c.Carries ws ls
  max : ∀ ws' ∈ c.selected sel ls.length, c.Carries ws' ls →
    (c.grams ls.length).count ws' ≤ (c.grams ls.length).count ws

/-! ### Signs -/

/-- A window never takes from a tuple of lemmas. -/
theorem part_nonneg (ws : List W) (ls : List L) : 0 ≤ c.part ws ls :=
  div_nonneg (Nat.cast_nonneg _) (Nat.cast_nonneg _)

/-- A tuple of lemmas is one of the readings of a window if and only if the words of the window
carry it, one by one. -/
theorem multiplicity_pos_iff {ws : List W} {ls : List L} (hlen : ws.length = ls.length) :
    0 < c.multiplicity ws ls ↔ c.Carries ws ls := by
  induction ws generalizing ls with
  | nil =>
      rw [List.length_nil] at hlen
      rw [List.eq_nil_of_length_eq_zero hlen.symm]
      exact iff_of_true Nat.one_pos List.Forall₂.nil
  | cons w ws ih =>
      cases ls with
      | nil => cases hlen
      | cons l ls =>
          have ih := ih (Nat.succ.inj hlen)
          unfold multiplicity Carries at *
          rw [List.zipWith_cons_cons, List.prod_cons, List.forall₂_cons, Nat.pos_iff_ne_zero,
            mul_ne_zero_iff, ← Nat.pos_iff_ne_zero, ← Nat.pos_iff_ne_zero, ih, List.count_pos_iff]

variable {c} in
omit [DecidableEq L] in
/-- A window that carries a tuple has a reading. -/
theorem Carries.readings_pos {ws : List W} {ls : List L} (h : c.Carries ws ls) :
    0 < c.readings ws := by
  induction h with
  | nil => exact Nat.one_pos
  | cons hl _ ih =>
      rw [readings, List.map_cons, List.prod_cons]
      exact Nat.mul_pos (List.length_pos_of_mem hl) ih

variable {c} in
/-- A window gives a part to every tuple it carries. -/
theorem Carries.part_pos {ws : List W} {ls : List L} (h : c.Carries ws ls) : 0 < c.part ws ls :=
  div_pos (Nat.cast_pos.mpr ((c.multiplicity_pos_iff h.length_eq).mpr h))
    (Nat.cast_pos.mpr h.readings_pos)

/-- A tuple that arises has a weight. -/
theorem weight_pos {sel : Set (List W)} {ls : List L}
    (h : ∃ ws ∈ c.selected sel ls.length, c.Carries ws ls) : 0 < c.weight sel ls := by
  obtain ⟨ws, hws, hcarries⟩ := h
  refine hcarries.part_pos.trans_le (List.single_le_sum (fun x hx => ?_) _
    (List.mem_map_of_mem hws))
  obtain ⟨ws', -, rfl⟩ := List.mem_map.mp hx
  exact c.part_nonneg ws' ls

/-- A lemma that occurs has a weight: some word has it, and the word occurs. -/
theorem lemmaWeight_pos {l : L} (hl : l ∈ c.occurring) : 0 < c.lemmaWeight l := by
  obtain ⟨w, hw, hl⟩ := List.mem_flatMap.mp hl
  obtain ⟨phrase, hphrase, hw⟩ := List.mem_flatten.mp hw
  have hgram : [w] ∈ c.grams 1 := by
    refine List.mem_flatMap.mpr ⟨phrase, hphrase, ?_⟩
    rw [ngrams_one]
    exact List.mem_map_of_mem hw
  exact c.weight_pos ⟨[w], c.mem_selected.mpr ⟨hgram, Set.mem_univ _⟩,
    List.Forall₂.cons hl List.Forall₂.nil⟩

/-- The factor of a score is positive, since all the lemmas have weights. So the sign of a score
is that of the weight above the threshold. -/
theorem factor_pos {ls : List L} (hne : ls ≠ []) (hls : ∀ l ∈ ls, l ∈ c.occurring) :
    0 < c.factor ls := by
  obtain ⟨l, hl⟩ := List.exists_mem_of_ne_nil ls hne
  have hcount : 0 < c.lemmaCount :=
    Finset.card_pos.mpr ⟨l, List.mem_toFinset.mpr (hls l hl)⟩
  refine div_pos (pow_pos (Nat.cast_pos.mpr hcount) _) (List.prod_pos (fun x hx => ?_))
  obtain ⟨l', hl', rfl⟩ := List.mem_map.mp hx
  exact c.lemmaWeight_pos (hls l' hl')

variable [DecidableEq W]

/-- The windows of the tuple with their numbers of occurrences, each as often as it reads as
the tuple. -/
noncomputable def cases (sel : Set (List W)) (ls : List L) : Multiset (List W × Nat) :=
  ((c.selected sel ls.length).dedup.flatMap (fun ws =>
    List.replicate (c.multiplicity ws ls) (ws, (c.grams ls.length).count ws)) : List _)

/-- A tuple with its score and cases. -/
noncomputable def record (sel : Set (List W)) (t : ℚ) (ls : List L) :
    List L × ℚ × Multiset (List W × Nat) :=
  (ls, c.score sel t ls, c.cases sel ls)

/-- The records are those of the tuples of `n` lemmas with the property `P`, each tuple once. -/
structure Records (P : List L → Prop) (sel : Set (List W)) (t : ℚ) (n : Nat)
    (records : List (List L × ℚ × Multiset (List W × Nat))) : Prop where
  nodup : (records.map Prod.fst).Nodup
  mem_iff : ∀ ls, ls ∈ records.map Prod.fst ↔ ls.length = n ∧ P ls
  record : ∀ r ∈ records, r = c.record sel t r.1

/-- The records are those of the collocations of `n` lemmas, the greatest score first. -/
structure Lists (sel : Set (List W)) (b : Bounds) (n : Nat)
    (records : List (List L × ℚ × Multiset (List W × Nat))) : Prop
    extends c.Records (c.Stable sel b) sel b.weight n records where
  sorted : records.Pairwise (fun r r' => r'.2.1 ≤ r.2.1)

/-- A case of a tuple is a selected window that carries it, with the number of its occurrences.
The multiset has a window as often as it carries the tuple, which is at least once when it does at
all. -/
theorem mem_cases_iff {sel : Set (List W)} {ls : List L} {ws : List W} {k : Nat} :
    (ws, k) ∈ c.cases sel ls ↔ ws ∈ c.selected sel ls.length ∧ c.Carries ws ls ∧
      k = (c.grams ls.length).count ws := by
  unfold cases
  rw [Multiset.mem_coe, List.mem_flatMap]
  constructor
  · rintro ⟨ws', hws', hmem⟩
    obtain ⟨hpos, heq⟩ := List.mem_replicate.mp hmem
    obtain ⟨rfl, rfl⟩ := Prod.mk.inj heq
    have hws := List.mem_dedup.mp hws'
    refine ⟨hws, (c.multiplicity_pos_iff ?_).mp (Nat.pos_of_ne_zero hpos), rfl⟩
    exact c.length_of_mem_grams (c.mem_selected.mp hws).1
  · rintro ⟨hws, hcarries, rfl⟩
    refine ⟨ws, List.mem_dedup.mpr hws, List.mem_replicate.mpr ⟨?_, rfl⟩⟩
    exact ((c.multiplicity_pos_iff hcarries.length_eq).mpr hcarries).ne'

variable {c} in
/-- The windows of the records are those that carry a collocation. A record has all cases of its
tuple, and the tuples of the records are all collocations of that size. -/
theorem Lists.exists_case_iff {sel : Set (List W)} {b : Bounds} {n : Nat}
    {records : List (List L × ℚ × Multiset (List W × Nat))} (h : c.Lists sel b n records)
    (ws : List W) :
    (∃ r ∈ records, ∃ k, (ws, k) ∈ r.2.2) ↔ ws.length = n ∧ ws ∈ c.named sel b := by
  constructor
  · rintro ⟨r, hr, k, hk⟩
    obtain ⟨hlen, hs⟩ := (h.mem_iff r.1).mp (List.mem_map_of_mem hr)
    rw [h.record r hr] at hk
    obtain ⟨hws, hcarries, -⟩ := c.mem_cases_iff.mp hk
    exact ⟨hcarries.length_eq.trans hlen, r.1, hs, hws, hcarries⟩
  · rintro ⟨hlen, ls, hs, hws, hcarries⟩
    obtain ⟨r, hr, rfl⟩ := List.mem_map.mp ((h.mem_iff ls).mpr
      ⟨hcarries.length_eq.symm.trans hlen, hs⟩)
    refine ⟨r, hr, (c.grams r.1.length).count ws, ?_⟩
    rw [h.record r hr]
    exact c.mem_cases_iff.mpr ⟨hws, hcarries, rfl⟩

end Weights

end Corpus

/-- The windows whose beginning or end is in `S`. -/
def extending {W : Type} (S : Set (List W)) : Set (List W) :=
  {ws | ws.dropLast ∈ S ∨ ws.tail ∈ S}

end Colloc.Lib

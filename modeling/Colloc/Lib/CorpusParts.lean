import Colloc.Lib.Collocation
import Mathlib.Data.List.Infix

/-!
# `Colloc.Lib.CorpusParts`: the parts of a tuple

A part of a tuple of lemmas is a contiguous sublist. Where the tuple stands its parts stand, so a
part is in no fewer documents (`docFreq_le_of_part`) and, over all windows, has no smaller weight
(`weight_le_dropLast` and `weight_le_tail` for the two parts that lack one lemma).
-/

set_option autoImplicit false

namespace Colloc.Lib

/-! ### Windows within windows -/

section Ngrams
variable {α : Type}

/-- The windows of a list are its infixes of their size. The induction is on the list: an infix
begins at the head, or is one of the tail. -/
theorem mem_ngrams_iff {n : Nat} {l ws : List α} (hne : ws ≠ []) :
    ws ∈ ngrams n l ↔ ws.length = n ∧ ws <:+: l := by
  induction l with
  | nil => simp [ngrams, hne]
  | cons a l ih =>
      rw [List.infix_cons_iff]
      by_cases hn : n ≤ l.length + 1
      · rw [ngrams, if_pos hn, List.mem_cons, ih, and_or_left]
        refine or_congr_left ⟨?_, ?_⟩
        · rintro rfl
          exact ⟨by simpa using hn, List.take_prefix n (a :: l)⟩
        · rintro ⟨rfl, hinit⟩
          exact List.prefix_iff_eq_take.mp hinit
      · rw [ngrams, if_neg hn]
        refine iff_of_false List.not_mem_nil ?_
        rintro ⟨rfl, hinit | hpart⟩
        · exact hn hinit.length_le
        · have := hpart.length_le
          omega

/-- A part of a window is a window. -/
theorem mem_ngrams_of_part {n : Nat} {l ws ws' : List α} (hws : ws ∈ ngrams n l)
    (hpart : ws' <:+: ws) (hne : ws' ≠ []) : ws' ∈ ngrams ws'.length l := by
  have hne' : ws ≠ [] := by
    rintro rfl
    exact hne (List.infix_nil.mp hpart)
  exact (mem_ngrams_iff hne).mpr ⟨rfl, hpart.trans ((mem_ngrams_iff hne').mp hws).2⟩

/-- Without their last elements the windows are windows, each at its own position. The last
position may have a smaller window only, so this is a sublist. -/
theorem map_dropLast_ngrams_sublist (n : Nat) (l : List α) :
    ((ngrams (n + 1) l).map List.dropLast).Sublist (ngrams n l) := by
  induction l with
  | nil => exact List.Sublist.refl _
  | cons a l ih =>
      by_cases hn : n + 1 ≤ l.length + 1
      · have htake : ((a :: l).take (n + 1)).dropLast = (a :: l).take n := by
          rw [List.dropLast_eq_take, List.take_take, List.length_take, List.length_cons]
          congr 1
          omega
        have hn' : n ≤ l.length + 1 := by omega
        rw [ngrams, if_pos hn, List.map_cons, htake, ngrams, if_pos hn']
        exact ih.cons_cons _
      · rw [ngrams, if_neg hn]
        exact List.nil_sublist _

/-- Without their first elements the windows are windows of the rest of the list, each one
position further on. -/
theorem map_tail_ngrams_sublist {n : Nat} (hn : 0 < n) (l : List α) :
    ((ngrams (n + 1) l).map List.tail).Sublist (ngrams n l.tail) := by
  induction l with
  | nil => exact List.Sublist.refl _
  | cons a l ih =>
      cases l with
      | nil =>
          rw [ngrams, if_neg (by simp; omega)]
          exact List.nil_sublist _
      | cons b l =>
          by_cases hlen : n ≤ l.length + 1
          · have hcons : ngrams n (b :: l) = (b :: l).take n :: ngrams n l := if_pos hlen
            have hlen' : n + 1 ≤ (b :: l).length + 1 := by simpa using hlen
            show ((ngrams (n + 1) (a :: b :: l)).map List.tail).Sublist (ngrams n (b :: l))
            rw [ngrams, if_pos hlen', List.map_cons, hcons]
            exact ih.cons_cons _
          · rw [ngrams, if_neg (by simpa using hlen)]
            exact List.nil_sublist _

/-- A list without its head has the windows behind the first one. None of the others goes, and
their order stays. -/
theorem ngrams_tail_sublist (n : Nat) (l : List α) : (ngrams n l.tail).Sublist (ngrams n l) := by
  cases l with
  | nil => exact List.Sublist.refl _
  | cons a l =>
      by_cases hn : n ≤ l.length + 1
      · rw [ngrams, if_pos hn]
        exact List.sublist_cons_self _ _
      · have hnil : ngrams n l = [] := by
          cases l with
          | nil => rfl
          | cons b l => rw [ngrams, if_neg (by simp at hn; omega)]
        show (ngrams n l).Sublist _
        rw [hnil]
        exact List.nil_sublist _

end Ngrams

/-! ### Tuples and their parts -/

namespace Corpus
variable {W L : Type} {c : Corpus W L}

/-- Where a tuple stands a part of it stands. -/
theorem Carries.exists_part {ws : List W} {ls ls' : List L} (h : c.Carries ws ls)
    (hpart : ls' <:+: ls) : ∃ ws', ws' <:+: ws ∧ c.Carries ws' ls' := by
  obtain ⟨s, t, rfl⟩ := hpart
  refine ⟨(ws.drop s.length).take ls'.length,
    (List.take_prefix _ _).isInfix.trans (List.drop_suffix _ _).isInfix, ?_⟩
  have hcut := List.forall₂_take ls'.length (List.forall₂_drop s.length h)
  rw [List.append_assoc, List.drop_left, List.take_left] at hcut
  exact hcut

variable (c)

/-- A part of a tuple stands in a window of its own: the words that carry the part are adjacent
too. -/
theorem arises_of_part {sel : Set (List W)} {ls ls' : List L} (hpart : ls' <:+: ls)
    (hne : ls' ≠ []) (h : ∃ ws ∈ c.selected sel ls.length, c.Carries ws ls) :
    ∃ ws ∈ c.selected Set.univ ls'.length, c.Carries ws ls' := by
  obtain ⟨ws, hws, hcarries⟩ := h
  obtain ⟨phrase, hphrase, hgram⟩ := List.mem_flatMap.mp (c.mem_selected.mp hws).1
  obtain ⟨ws', hpart', hcarries'⟩ := hcarries.exists_part hpart
  have hlen : ws'.length = ls'.length := hcarries'.length_eq
  have hne' : ws' ≠ [] := by
    rintro rfl
    exact hne (List.eq_nil_of_length_eq_zero hlen.symm)
  refine ⟨ws', ?_, hcarries'⟩
  rw [selected_univ, ← hlen]
  exact List.mem_flatMap.mpr ⟨phrase, hphrase, mem_ngrams_of_part hgram hpart' hne'⟩

variable [DecidableEq L]

/-- A part of a tuple is in no fewer documents. Each phrase that carries the tuple carries its
part. -/
theorem docFreq_le_of_part {ls ls' : List L} (hpart : ls' <:+: ls) (hne : ls' ≠ []) :
    c.docFreq ls ≤ c.docFreq ls' := by
  refine List.countP_mono_left (fun doc _ h => decide_eq_true ?_)
  obtain ⟨phrase, hphrase, ws, hws, hcarries⟩ := of_decide_eq_true h
  obtain ⟨ws', hpart', hcarries'⟩ := @Carries.exists_part W L c ws ls ls' hcarries hpart
  have hlen : ws'.length = ls'.length := hcarries'.length_eq
  have hne' : ws' ≠ [] := by
    rintro rfl
    exact hne (List.eq_nil_of_length_eq_zero hlen.symm)
  exact ⟨phrase, hphrase, ws', hlen ▸ mem_ngrams_of_part hws hpart' hne', hcarries'⟩

/-- A tuple is in no more documents than there are. -/
theorem docFreq_le_length (ls : List L) : c.docFreq ls ≤ c.docs.length := List.countP_le_length

/-! ### Weights -/

/-- A window gives at most itself, once: a tuple comes up no more often than there are choices of
a lemma for each word. -/
theorem part_le_one (ws : List W) (ls : List L) (hlen : ws.length = ls.length) :
    c.part ws ls ≤ 1 := by
  refine div_le_one_of_le₀ (Nat.cast_le.mpr ?_) (Nat.cast_nonneg _)
  induction ws generalizing ls with
  | nil =>
      rw [List.eq_nil_of_length_eq_zero hlen.symm]
      exact le_rfl
  | cons w ws ih =>
      cases ls with
      | nil => cases hlen
      | cons l ls =>
          show (List.zipWith _ (w :: ws) (l :: ls)).prod ≤ ((w :: ws).map _).prod
          rw [List.zipWith_cons_cons, List.prod_cons, List.map_cons, List.prod_cons]
          exact Nat.mul_le_mul List.count_le_length (ih ls (Nat.succ.inj hlen))

/-- The readings of a window that is two windows one behind the other are those of the two, chosen
independently. -/
theorem part_append {ws ws' : List W} {ls ls' : List L} (hlen : ws.length = ls.length) :
    c.part (ws ++ ws') (ls ++ ls') = c.part ws ls * c.part ws' ls' := by
  unfold part multiplicity readings
  rw [List.zipWith_append hlen, List.prod_append, List.map_append, List.prod_append, Nat.cast_mul,
    Nat.cast_mul, mul_div_mul_comm]

/-- A part of a tuple gets no less of a window. -/
theorem part_append_le {ws ws' : List W} {ls ls' : List L} (hlen : ws.length = ls.length)
    (hlen' : ws'.length = ls'.length) :
    c.part (ws ++ ws') (ls ++ ls') ≤ c.part ws ls ∧
      c.part (ws ++ ws') (ls ++ ls') ≤ c.part ws' ls' := by
  rw [c.part_append hlen]
  exact ⟨mul_le_of_le_one_right (c.part_nonneg ws ls) (c.part_le_one ws' ls' hlen'),
    mul_le_of_le_one_left (c.part_nonneg ws' ls') (c.part_le_one ws ls hlen)⟩

/-- A tuple is no heavier than a part of it. Each window gives to the part at least what it gives
to the tuple once some words are taken off, and different positions stay different, so the sum
does not shrink. -/
theorem weight_le_of_windows {ls ls' : List L} (f : List W → List W) (sel : Set (List W))
    (hpart : ∀ ws ∈ c.grams ls.length, c.part ws ls ≤ c.part (f ws) ls')
    (hsub : ((c.grams ls.length).map f).Sublist (c.grams ls'.length)) :
    c.weight sel ls ≤ c.weight Set.univ ls' := by
  have hnonneg : ∀ (ls : List L) (wss : List (List W)), ∀ x ∈ wss.map (fun ws => c.part ws ls),
      0 ≤ x := by
    intro ls wss x hx
    obtain ⟨ws, -, rfl⟩ := List.mem_map.mp hx
    exact c.part_nonneg ws ls
  calc c.weight sel ls
      ≤ ((c.grams ls.length).map (fun ws => c.part ws ls)).sum :=
        (List.filter_sublist.map _).sum_le_sum (hnonneg ls _)
    _ ≤ ((c.grams ls.length).map (fun ws => c.part (f ws) ls')).sum := List.sum_le_sum hpart
    _ = (((c.grams ls.length).map f).map (fun ws => c.part ws ls')).sum := by
        rw [List.map_map]
        rfl
    _ ≤ c.weight Set.univ ls' := by
        rw [weight, selected_univ]
        exact (hsub.map _).sum_le_sum (hnonneg ls' _)

/-- The tuple without its last lemma is no lighter. The windows without their last word are among
the smaller ones, and each of them carries the shorter tuple at least as heavily. -/
theorem weight_le_dropLast (sel : Set (List W)) (ls : List L) (l : L) :
    c.weight sel (ls ++ [l]) ≤ c.weight Set.univ ls := by
  refine c.weight_le_of_windows List.dropLast sel (fun ws hws => ?_) ?_
  · have hlen := c.length_of_mem_grams hws
    rcases List.eq_nil_or_concat' ws with rfl | ⟨init, w, rfl⟩
    · simp at hlen
    · rw [List.dropLast_concat]
      exact (c.part_append_le (by simpa using hlen) rfl).1
  · rw [List.length_append, List.length_singleton, grams, List.map_flatMap]
    exact flatMap_sublist (fun phrase => map_dropLast_ngrams_sublist ls.length phrase) _

/-- The tuple without its first lemma is no lighter. The argument is that for the last lemma, on
the windows without their first word. -/
theorem weight_le_tail (sel : Set (List W)) {ls : List L} (hne : ls ≠ []) (l : L) :
    c.weight sel (l :: ls) ≤ c.weight Set.univ ls := by
  refine c.weight_le_of_windows List.tail sel (fun ws hws => ?_) ?_
  · have hlen := c.length_of_mem_grams hws
    cases ws with
    | nil => simp at hlen
    | cons w ws =>
        have hparts : c.part ([w] ++ ws) ([l] ++ ls) ≤ c.part ws ls :=
          (c.part_append_le rfl (by simpa using hlen)).2
        exact hparts
  · rw [List.length_cons, grams, List.map_flatMap]
    exact flatMap_sublist (fun phrase =>
      (map_tail_ngrams_sublist (List.length_pos_of_ne_nil hne) phrase).trans
        (ngrams_tail_sublist ls.length phrase)) _

end Corpus

end Colloc.Lib

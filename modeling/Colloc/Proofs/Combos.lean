import Colloc.Lib.Marginal
import Colloc.Lib.Windows
import Colloc.Spec.GroupLem

/-!
# `Colloc.Proofs.Combos`: the lemma tuples of a word tuple

`combos lems k` are the lemma tuples that the nested loops over the lemmas of the words `k`
visit, and nothing when a word is not in the table. For a tuple of words they are the
product of the lists of its components: membership, timesIn and length multiply.
-/

set_option autoImplicit false

namespace Colloc.Proofs

open Colloc.Lib
open Colloc.Spec

section
variable {K : Type} [LemTuple K] (lems : List (List UInt32))

/-- The lemma tuples of the words `k`. -/
def combos (k : K) : List K :=
  match LemTuple.lemTuples lems k with
  | .ok lids => lids
  | .error _ => []

/-- The words `k` are in the table. -/
def Covered (k : K) : Prop := ∃ lids, LemTuple.lemTuples lems k = .ok lids

variable {lems}

/-- Over covered words the product of the lemmas is there. -/
theorem Covered.lemTuples {k : K} (h : Covered lems k) :
    LemTuple.lemTuples lems k = .ok (combos lems k) := by
  obtain ⟨lids, hok⟩ := h
  rw [combos, hok]

end

section Word
variable (lems : List (List UInt32))

/-- The lemmas of a word. -/
theorem Covered.lemsAt {lems : List (List UInt32)} {id : UInt32} (h : Covered lems id) :
    Spec.lemsAt lems id = .ok (combos lems id) :=
  h.lemTuples

/-- The words of a table are the ids `1`, ..., `lems.length`. The id `0` wraps around to the
greatest index, which no table has. -/
theorem covered_word_iff (id : UInt32) :
    Covered lems id ↔ (id - 1).toNat < lems.length := by
  show (∃ lids, Spec.lemsAt lems id = .ok lids) ↔ _
  unfold Spec.lemsAt
  by_cases h : (id - 1).toNat < lems.length
  · rw [List.getElem?_eq_getElem h]
    exact ⟨fun _ => h, fun _ => ⟨_, rfl⟩⟩
  · rw [List.getElem?_eq_none (by omega)]
    constructor
    · rintro ⟨lids, hok⟩
      cases hok
    · intro hlt
      exact absurd hlt h

/-- The readings of one word are its lemmas. -/
theorem combos_word (id : UInt32) : combos lems id = (lems[(id - 1).toNat]?).getD [] := by
  have hloop : LemTuple.lemTuples lems id = Spec.lemsAt lems id := rfl
  unfold combos
  rw [hloop]
  unfold Spec.lemsAt
  cases lems[(id - 1).toNat]? with
  | none => rfl
  | some terms => rfl

/-- No two ids share an index. -/
theorem index_injective {a b : UInt32} (h : (a - 1).toNat = (b - 1).toNat) : a = b := by
  have hsub := UInt32.toNat_inj.mp h
  rw [← UInt32.sub_add_cancel a 1, hsub, UInt32.sub_add_cancel]

/-- The lemmas of a word after its entry is written. -/
theorem combos_set_self {id : UInt32} (h : (id - 1).toNat < lems.length) (terms : List UInt32) :
    combos (lems.set (id - 1).toNat terms) id = terms := by
  rw [combos_word, List.getElem?_set_self h]
  rfl

/-- The other words keep their lemmas. -/
theorem combos_set_ne {id id' : UInt32} (h : id' ≠ id) (terms : List UInt32) :
    combos (lems.set (id - 1).toNat terms) id' = combos lems id' := by
  have hidx : ¬ (id - 1).toNat = (id' - 1).toNat := fun heq => h (index_injective heq).symm
  rw [combos_word, combos_word, List.getElem?_set_ne hidx]

/-- The lemmas of a word are an entry of the table. -/
theorem combos_mem_of_covered {id : UInt32} (h : Covered lems id) : combos lems id ∈ lems := by
  have hlt := (covered_word_iff lems id).mp h
  -- `at` succeeds with the entry at the index.
  have hok := h.lemsAt
  unfold Spec.lemsAt at hok
  rw [List.getElem?_eq_getElem hlt] at hok
  rw [← Except.ok.inj hok]
  exact List.getElem_mem hlt

end Word

section Prod
variable {A B : Type} [LemTuple A] [LemTuple B] (lems : List (List UInt32))

/-- A tuple is covered when its parts are. -/
theorem covered_prod_iff (k : A × B) :
    Covered lems k ↔ Covered lems k.1 ∧ Covered lems k.2 := by
  unfold Covered
  cases h1 : LemTuple.lemTuples lems k.1 with
  | error e => simp [LemTuple.lemTuples, h1]
  | ok prev =>
      cases h2 : LemTuple.lemTuples lems k.2 with
      | error e => simp [LemTuple.lemTuples, h1, h2]
      | ok cur => simp [LemTuple.lemTuples, h1, h2]

/-- The loops over the lemmas of a tuple visit the product, the outer loop over those of the first
component. -/
theorem combos_prod (k : A × B) :
    combos lems k
      = (combos lems k.1).flatMap (fun lid1 =>
          (combos lems k.2).map (fun lid2 => (lid1, lid2))) := by
  unfold combos
  cases h1 : LemTuple.lemTuples lems k.1 with
  | error e => simp [LemTuple.lemTuples, h1]
  | ok prev =>
      cases h2 : LemTuple.lemTuples lems k.2 with
      | error e => simp [LemTuple.lemTuples, h1, h2]
      | ok cur => simp [LemTuple.lemTuples, h1, h2]

/-- A reading of a tuple is made of readings of its parts. -/
theorem mem_combos_prod (k lids : A × B) :
    lids ∈ combos lems k ↔ lids.1 ∈ combos lems k.1 ∧ lids.2 ∈ combos lems k.2 := by
  rw [combos_prod, List.mem_flatMap]
  constructor
  · rintro ⟨lid1, h1, h⟩
    obtain ⟨lid2, h2, rfl⟩ := List.mem_map.mp h
    exact ⟨h1, h2⟩
  · rintro ⟨h1, h2⟩
    exact ⟨lids.1, h1, List.mem_map.mpr ⟨lids.2, h2, rfl⟩⟩

/-- The parts are read independently of each other. -/
theorem length_combos_prod (k : A × B) :
    (combos lems k).length = (combos lems k.1).length * (combos lems k.2).length := by
  rw [combos_prod, List.length_flatMap]
  simp

variable {lems} in
/-- The lists of a product are not empty when its factors are not. -/
theorem combos_prod_ne_nil {k : A × B} (h1 : combos lems k.1 ≠ []) (h2 : combos lems k.2 ≠ []) :
    combos lems k ≠ [] := by
  have hpos := Nat.mul_pos (List.length_pos_of_ne_nil h1) (List.length_pos_of_ne_nil h2)
  rw [← length_combos_prod] at hpos
  exact List.ne_nil_of_length_pos hpos

end Prod

section Count

variable {A B : Type} [DecidableEq A] [DecidableEq B]

/-- How often a pair is listed in a row of a product. A row has one first component, and the
second ones of the list. -/
theorem timesIn_row (a : A) (bs : List B) (k : A × B) :
    timesIn (bs.map (fun b => (a, b))) k
      = if a = k.1 then timesIn bs k.2 else 0 := by
  induction bs with
  | nil => simp [timesIn]
  | cons b bs ih =>
      rw [List.map_cons, timesIn_cons, ih, timesIn_cons]
      -- In the row of another first component nothing is counted.
      by_cases ha : a = k.1
      · simp [Prod.ext_iff, ha]
      · simp [Prod.ext_iff, ha]

/-- How often a pair is listed in a product is the product of how often its components are. The
induction is on the rows. -/
theorem timesIn_product (as : List A) (bs : List B) (k : A × B) :
    timesIn (as.flatMap (fun a => bs.map (fun b => (a, b)))) k
      = timesIn as k.1 * timesIn bs k.2 := by
  induction as with
  | nil => simp [timesIn]
  | cons a as ih =>
      rw [List.flatMap_cons, timesIn_append, ih, timesIn_row, timesIn_cons, Nat.add_mul]
      by_cases ha : a = k.1
      · rw [if_pos ha, if_pos ha, Nat.one_mul]
      · rw [if_neg ha, if_neg ha, Nat.zero_mul]

/-- So it is for the lemma tuples of a word tuple. -/
theorem timesIn_combos_prod [LemTuple A] [LemTuple B] (lems : List (List UInt32))
    (k lids : A × B) :
    timesIn (combos lems k) lids
      = timesIn (combos lems k.1) lids.1 * timesIn (combos lems k.2) lids.2 := by
  rw [combos_prod, timesIn_product]

end Count

/-- A type of tuples of words: its lemma tuples exist when the words have lemmas, `times`
counts them, and the lemmas of a tuple are lemmas of its words. -/
class LawfulTuple (K : Type) [LemTuple K] : Prop where
  covered : ∀ (lems : List (List UInt32)) (k : K),
    (∀ w ∈ IdTuple.toList k, Covered lems w) → Covered lems k
  combos_ne_nil : ∀ (lems : List (List UInt32)) (k : K),
    (∀ w ∈ IdTuple.toList k, combos lems w ≠ []) → combos lems k ≠ []
  times_eq : ∀ (lems : List (List UInt32)) (k : K), Covered lems k →
    LemTuple.times lems k = .ok (combos lems k).length
  mem_toList : ∀ (lems : List (List UInt32)) (k lids : K), lids ∈ combos lems k →
    ∀ l ∈ IdTuple.toList lids, ∃ w ∈ IdTuple.toList k, l ∈ combos lems w

instance : LawfulTuple UInt32 where
  covered _ id h := h id (List.mem_singleton_self id)
  combos_ne_nil _ id h := h id (List.mem_singleton_self id)
  times_eq lems id h := by
    have hok := h.lemsAt
    simp [LemTuple.times, hok]
  mem_toList _ id _ hlid l hl := by
    rw [List.mem_singleton.mp hl]
    exact ⟨id, List.mem_singleton_self id, hlid⟩

instance {A B : Type} [LemTuple A] [LemTuple B] [LawfulTuple A] [LawfulTuple B] :
    LawfulTuple (A × B) where
  covered lems k h := by
    refine (covered_prod_iff lems k).mpr ⟨?_, ?_⟩
    · exact LawfulTuple.covered lems k.1 (fun w hw => h w (List.mem_append_left _ hw))
    · exact LawfulTuple.covered lems k.2 (fun w hw => h w (List.mem_append_right _ hw))
  combos_ne_nil lems k h :=
    combos_prod_ne_nil
      (LawfulTuple.combos_ne_nil lems k.1 (fun w hw => h w (List.mem_append_left _ hw)))
      (LawfulTuple.combos_ne_nil lems k.2 (fun w hw => h w (List.mem_append_right _ hw)))
  times_eq lems k h := by
    obtain ⟨h1, h2⟩ := (covered_prod_iff lems k).mp h
    have hok1 := LawfulTuple.times_eq lems k.1 h1
    have hok2 := LawfulTuple.times_eq lems k.2 h2
    rw [length_combos_prod]
    simp [LemTuple.times, hok1, hok2]
  mem_toList lems k lids h l hl := by
    obtain ⟨h1, h2⟩ := (mem_combos_prod lems k lids).mp h
    rcases List.mem_append.mp hl with hl | hl
    · obtain ⟨w, hw, hmem⟩ := LawfulTuple.mem_toList lems k.1 lids.1 h1 l hl
      exact ⟨w, List.mem_append_left _ hw, hmem⟩
    · obtain ⟨w, hw, hmem⟩ := LawfulTuple.mem_toList lems k.2 lids.2 h2 l hl
      exact ⟨w, List.mem_append_right _ hw, hmem⟩

/-! ### The words of a corpus -/

/-- The words of the corpus have a lemma. -/
def HaveLemmas (lems : List (List UInt32)) (corpus : List Phrase) : Prop :=
  ∀ w ∈ corpus.flatten, Covered lems w ∧ combos lems w ≠ []

/-- The windows of a phrase are tuples of its words, and an empty phrase has none. -/
structure WindowsOf {K : Type} [IdTuple K] (windows : Phrase → List K) : Prop where
  nil : windows [] = []
  mem : ∀ ids, ∀ k ∈ windows ids, ∀ w ∈ IdTuple.toList k, w ∈ ids

/-- The pairs of a phrase are made of its words, and of each mapped phrase they are the mapped
pairs. -/
theorem windowsOf_pairs : WindowsOf pairs := by
  refine ⟨rfl, fun ids p hp w hw => ?_⟩
  rcases List.mem_pair.mp hw with rfl | rfl
  · exact fst_mem_of_mem_pairs hp
  · exact snd_mem_of_mem_pairs hp

/-- So are the triples. -/
theorem windowsOf_triples : WindowsOf triples := by
  refine ⟨rfl, fun ids t ht w hw => ?_⟩
  -- The first two words are those of a pair.
  have hinit := init_mem_of_mem_triples ht
  rcases List.mem_cons.mp hw with rfl | hw
  · exact fst_mem_of_mem_pairs hinit
  · rcases List.mem_pair.mp hw with rfl | rfl
    · exact snd_mem_of_mem_pairs hinit
    · exact last_mem_of_mem_triples ht

section Windows
variable {K : Type} [LemTuple K] {windows : Phrase → List K} {corpus : List Phrase}

/-- So are the windows of a corpus. -/
theorem WindowsOf.mem_flatten (h : WindowsOf windows) {k : K} (hk : k ∈ corpus.flatMap windows)
    {w : UInt32} (hw : w ∈ IdTuple.toList k) : w ∈ corpus.flatten := by
  obtain ⟨ids, hids, hmem⟩ := List.mem_flatMap.mp hk
  exact List.mem_flatten_of_mem hids (h.mem ids k hmem w hw)

/-- The windows have lemma tuples when the words have lemmas. -/
theorem HaveLemmas.window [LawfulTuple K] {lems : List (List UInt32)} (h : HaveLemmas lems corpus)
    (hwin : WindowsOf windows) {k : K} (hk : k ∈ corpus.flatMap windows) :
    Covered lems k ∧ combos lems k ≠ [] :=
  ⟨LawfulTuple.covered lems k (fun w hw => (h w (hwin.mem_flatten hk hw)).1),
    LawfulTuple.combos_ne_nil lems k (fun w hw => (h w (hwin.mem_flatten hk hw)).2)⟩

end Windows

end Colloc.Proofs

import Mathlib.InformationTheory.Coding.UniquelyDecodable
import Mathlib.Data.Set.Function

/-!
# `Colloc.Lib.PrefixCode`: words that are no prefixes of each other

A set of words is prefix-free when none of its words is a prefix of another one. Without the
empty word it is uniquely decodable (`PrefixFree.uniquelyDecodable`): the first word of a
concatenation is determined, so the words are, one after the other. `flatten_map_injOn` is the
same for words with names.
-/

set_option autoImplicit false

namespace Colloc.Lib

open InformationTheory

variable {α ι : Type}

/-- No word of the set is a prefix of another one. -/
def PrefixFree (S : Set (List α)) : Prop := ∀ v ∈ S, ∀ w ∈ S, v <+: w → v = w

/-- The first words of equal concatenations are equal. -/
theorem PrefixFree.head_eq {S : Set (List α)} (h : PrefixFree S) {v w : List α} (hv : v ∈ S)
    (hw : w ∈ S) {v' w' : List α} (heq : v ++ v' = w ++ w') : v = w := by
  have hw' : w <+: v ++ v' := heq ▸ List.prefix_append w w'
  rcases List.prefix_or_prefix_of_prefix (List.prefix_append v v') hw' with hle | hle
  · exact h v hv w hw hle
  · exact (h w hw v hv hle).symm

/-- Concatenations of words of a prefix-free set can be taken apart in one way only. The first
words of both are prefixes of the same string, so one is a prefix of the other and they are equal;
the rest is by induction. -/
theorem PrefixFree.uniquelyDecodable {S : Set (List α)} (h : PrefixFree S) (hne : [] ∉ S) :
    UniquelyDecodable S := by
  have hnil : ∀ L : List (List α), (∀ w ∈ L, w ∈ S) → L.flatten = [] → L = [] := by
    intro L hL hflat
    cases L with
    | nil => rfl
    | cons w L =>
        have hw := (List.append_eq_nil_iff.mp hflat).1
        exact absurd (hw ▸ hL w List.mem_cons_self) hne
  intro L₁
  induction L₁ with
  | nil => exact fun L₂ _ h₂ heq => (hnil L₂ h₂ heq.symm).symm
  | cons v L₁ ih =>
      intro L₂ h₁ h₂ heq
      cases L₂ with
      | nil => exact hnil _ h₁ heq
      | cons w L₂ =>
          rw [List.flatten_cons, List.flatten_cons] at heq
          have hhead : v = w :=
            h.head_eq (h₁ v List.mem_cons_self) (h₂ w List.mem_cons_self) heq
          subst hhead
          rw [ih L₂ (fun u hu => h₁ u (List.mem_cons_of_mem v hu))
            (fun u hu => h₂ u (List.mem_cons_of_mem v hu)) (List.append_cancel_left heq)]

/-- Names whose words are no prefixes of each other can be read off the concatenation of their
words. -/
theorem flatten_map_injOn {text : ι → List α} {I : Set ι}
    (hfree : ∀ i ∈ I, ∀ j ∈ I, text i <+: text j → i = j) (hne : ∀ i ∈ I, text i ≠ []) :
    Set.InjOn (fun names : List ι => (names.map text).flatten) {names | ∀ i ∈ names, i ∈ I} := by
  have hcode : PrefixFree (text '' I) := by
    rintro _ ⟨i, hi, rfl⟩ _ ⟨j, hj, rfl⟩ hle
    rw [hfree i hi j hj hle]
  have hnil : [] ∉ text '' I := by
    rintro ⟨i, hi, htext⟩
    exact hne i hi htext
  have hmem : ∀ names : List ι, (∀ i ∈ names, i ∈ I) → ∀ w ∈ names.map text, w ∈ text '' I := by
    intro names hnames w hw
    obtain ⟨i, hi, rfl⟩ := List.mem_map.mp hw
    exact Set.mem_image_of_mem text (hnames i hi)
  intro names hnames names' hnames' heq
  have hwords := hcode.uniquelyDecodable hnil _ _ (hmem names hnames) (hmem names' hnames') heq
  clear heq
  induction names generalizing names' with
  | nil => exact (List.map_eq_nil_iff.mp hwords.symm).symm
  | cons i names ih =>
      cases names' with
      | nil => exact List.map_eq_nil_iff.mp hwords
      | cons j names' =>
          rw [List.map_cons, List.map_cons, List.cons.injEq] at hwords
          have hij := hfree i (hnames i List.mem_cons_self) j (hnames' j List.mem_cons_self)
            (hwords.1 ▸ List.prefix_refl _)
          rw [hij, ih (fun k hk => hnames k (List.mem_cons_of_mem i hk))
            (fun k hk => hnames' k (List.mem_cons_of_mem j hk)) hwords.2]

end Colloc.Lib

import Colloc.Spec.Lemmer

/-!
# `Colloc.Proofs.Lemmer`: the lemma table on disk

`lems.bin` holds the lemma lists by position. `Lemmer.save` leaves out the empty ones, so
`load_lems` gives back the entries that are not empty (`loadLems_save`). The table survives
the round trip exactly when it has no empty entry (`lems_roundTrip_iff`). The header tells
the difference: its total counts the empty entries too.
-/

set_option autoImplicit false

namespace Colloc.Proofs

open Colloc.Lib
open Colloc.Spec

/-- The lemma table in a file. -/
def tableOf (lems : RecordFile PhraseMsg) : List (List UInt32) := lems.msgs.map PhraseMsg.ids

/-- `load_lems` reads the messages in order. -/
theorem loadLems_eq (file : RecordFile PhraseMsg) : loadLems file = .ok (tableOf file) := by
  rw [loadLems, readApply_pure, List.foldl_append_eq_append, ← List.flatMap_def,
    ← List.map_eq_flatMap, List.nil_append]
  rfl

/-- What is saved are the entries that are not empty. -/
theorem tableOf_save (std : Stdlib) (lm : Lemmer) :
    tableOf (lm.save std).lems = lm.lems.filter (fun lids => !lids.isEmpty) := by
  show ((lm.lems.map PhraseMsg.mk).filter (fun msg => !msg.ids.isEmpty)).map PhraseMsg.ids = _
  rw [List.filter_map, List.map_map]
  exact List.map_id _

/-- All of them, when none is empty. -/
theorem tableOf_save_of_nonempty (std : Stdlib) {lm : Lemmer}
    (hne : ∀ lids ∈ lm.lems, lids ≠ []) : tableOf (lm.save std).lems = lm.lems := by
  rw [tableOf_save]
  refine List.filter_eq_self.mpr (fun lids hmem => ?_)
  cases lids with
  | nil => exact absurd rfl (hne [] hmem)
  | cons _ _ => rfl

/-- What comes back are the entries that are not empty. -/
theorem loadLems_save (std : Stdlib) (lm : Lemmer) :
    loadLems (lm.save std).lems = .ok (lm.lems.filter (fun lids => !lids.isEmpty)) := by
  rw [loadLems_eq, tableOf_save]

/-- The table survives `save` and `load_lems`: the same length, the same list at every index
and for every word id, and the length is the header's total. -/
def RoundTrips (std : Stdlib) (lm : Lemmer) : Prop :=
  ∃ lems, loadLems (lm.save std).lems = .ok lems ∧
    lems.length = lm.lems.length ∧
    (∀ i : Nat, lems[i]? = lm.lems[i]?) ∧
    (∀ id, lemsAt lems id = lemsAt lm.lems id) ∧
    readTotal (lm.save std).lems = lems.length

/-- The table survives exactly when no entry is empty. `save` leaves out the empty rows, and a row
that is left out moves all later ones forward. -/
theorem lems_roundTrip_iff (std : Stdlib) (lm : Lemmer) :
    RoundTrips std lm ↔ ∀ lids ∈ lm.lems, lids ≠ [] := by
  constructor
  · rintro ⟨lems, hload, hlen, -⟩
    rw [loadLems_save] at hload
    have heq := Except.ok.inj hload
    -- Leaving out an entry makes the table shorter.
    rw [← heq, List.length_filter_eq_length_iff] at hlen
    intro lids hmem hnil
    have hne := hlen lids hmem
    rw [hnil] at hne
    exact Bool.false_ne_true hne
  · intro hne
    refine ⟨lm.lems, ?_, rfl, fun _ => rfl, fun _ => rfl, rfl⟩
    rw [loadLems_eq, tableOf_save_of_nonempty std hne]

/-- A library that finds no term in the first word of the text and one in the second. -/
def muteLib : Baalbek :=
  { wordBreakDocument := fun _ => []
    makeDocumentImage := fun _ => [[], [[98]]]
    strtolower := id
    widetombcs := fun s => s.map (fun _ => 208)
    mbcstowide := fun b => b.map (fun _ => 1072) }

/-- `uni.bin` with two words. -/
def twoWords : RecordFile Unigram :=
  { total := 2, msgs := [⟨[97], 1, 1⟩, ⟨[98], 2, 1⟩] }

/-- `lemmatize` builds a table with an empty entry, and the lemmas of the second word come
back as those of the first one. -/
theorem lems_roundTrip_loses :
    ∃ lm, buildLemmer muteLib twoWords = .ok lm ∧ lm.lems = [[], [1]] ∧
      ¬ RoundTrips Stdlib.sorting lm := by
  refine ⟨{ lems := [[], [1]], lemid := (∅ : FlatHashMap Bytes UInt32).insert [98] 1 }, ?_, rfl,
    ?_⟩
  · rfl
  · rintro ⟨lems, hload, hlen, -⟩
    rw [loadLems_save] at hload
    rw [← Except.ok.inj hload] at hlen
    exact absurd hlen (by decide)

end Colloc.Proofs

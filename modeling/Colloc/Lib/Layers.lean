import Mathlib.Data.List.AList
import Mathlib.Data.List.Forall2
import Mathlib.Data.List.Induction

/-!
# `Colloc.Lib.Layers`: maps that are written in layers

A map is filled by runs of writes, and a write replaces what is there. When the order within a
run is not known, the value of a key is still one of the last run that writes the key. `Topmost`
says this: the layers are the runs, the last one first, each as the relation of its writes.

A run puts one layer on top of what the map had (`Topmost.writes`). When no layer has two values
for a key, the layers determine the value (`topmost_unique`).
-/

set_option autoImplicit false

namespace Colloc.Lib

/-! ### The topmost value -/

section Topmost
variable {K V : Type} {key : K}

/-- The value `o` of the key is one of the topmost layer that has a value for it. -/
def Topmost (key : K) : List (K → V → Prop) → Option V → Prop
  | [], o => o = none
  | layer :: layers, o =>
      (∃ v, o = some v ∧ layer key v) ∨ ((∀ v, ¬ layer key v) ∧ Topmost key layers o)

/-- Only what the layers say about the key matters. -/
theorem Topmost.congr {layers layers' : List (K → V → Prop)} {o : Option V}
    (h : List.Forall₂ (fun layer layer' => ∀ v, layer key v ↔ layer' key v) layers layers')
    (ho : Topmost key layers o) : Topmost key layers' o := by
  induction h with
  | nil => exact ho
  | cons hlayer _ ih =>
      rcases ho with ⟨v, rfl, hv⟩ | ⟨hnone, ho⟩
      · exact Or.inl ⟨v, rfl, (hlayer v).mp hv⟩
      · exact Or.inr ⟨fun v hv => hnone v ((hlayer v).mpr hv), ih ho⟩

/-- The value is one of a layer. What is below the layers is no value. -/
theorem Topmost.exists_layer {layers : List (K → V → Prop)} {v : V}
    (h : Topmost key layers (some v)) : ∃ layer ∈ layers, layer key v := by
  induction layers with
  | nil => cases h
  | cons layer layers ih =>
      rcases h with ⟨w, hw, hlayer⟩ | ⟨-, h⟩
      · cases hw
        exact ⟨layer, List.mem_cons_self, hlayer⟩
      · obtain ⟨layer', hmem, hlayer⟩ := ih h
        exact ⟨layer', List.mem_cons_of_mem layer hmem, hlayer⟩

/-- A key that a layer writes has a value: its own, or that of a layer above it. -/
theorem Topmost.isSome {layers : List (K → V → Prop)} {o : Option V} (h : Topmost key layers o)
    {layer : K → V → Prop} (hmem : layer ∈ layers) {v : V} (hv : layer key v) : o.isSome := by
  induction layers with
  | nil => exact absurd hmem List.not_mem_nil
  | cons top layers ih =>
      rcases h with ⟨w, rfl, -⟩ | ⟨hnone, h⟩
      · rfl
      · rcases List.mem_cons.mp hmem with rfl | hmem
        · exact absurd hv (hnone v)
        · exact ih h hmem

/-- Layers with one value for the key at most leave one value. The topmost layer that writes the
key decides, and it is the same in both. -/
theorem topmost_unique {layers : List (K → V → Prop)} {o o' : Option V}
    (hone : ∀ layer ∈ layers, ∀ v v', layer key v → layer key v' → v = v')
    (h : Topmost key layers o) (h' : Topmost key layers o') : o = o' := by
  induction layers with
  | nil => exact h.trans h'.symm
  | cons layer layers ih =>
      rcases h with ⟨v, rfl, hv⟩ | ⟨hnone, h⟩
      · rcases h' with ⟨v', rfl, hv'⟩ | ⟨hnone', -⟩
        · rw [hone layer List.mem_cons_self v v' hv hv']
        · exact absurd hv (hnone' v)
      · rcases h' with ⟨v', rfl, hv'⟩ | ⟨-, h'⟩
        · exact absurd hv' (hnone v')
        · exact ih (fun layer' hlayer' => hone layer' (List.mem_cons_of_mem layer hlayer')) h h'

end Topmost

/-! ### Runs of writes -/

section Writes
variable {E K V : Type} [DecidableEq K]

/-- One write, or none. -/
def applyWrite (m : AList (fun _ : K => V)) : Option (K × V) → AList (fun _ : K => V)
  | none => m
  | some (key, v) => m.insert key v

/-- A write leaves the other keys as they are. -/
theorem lookup_applyWrite_of_ne {m : AList (fun _ : K => V)} {key : K} {write : Option (K × V)}
    (h : ∀ v, write ≠ some (key, v)) : (applyWrite m write).lookup key = m.lookup key := by
  cases write with
  | none => rfl
  | some kv => exact AList.lookup_insert_ne (fun hkey => h kv.2 (hkey ▸ rfl))

/-- A run of writes puts its layer on top. The last write of a key is the one that is found, and a
key that the run does not write is found where it was. -/
theorem Topmost.writes (write : E → Option (K × V)) {key : K} {layers : List (K → V → Prop)}
    {m : AList (fun _ : K => V)} (h : Topmost key layers (m.lookup key)) (es : List E) :
    Topmost key ((fun k v => ∃ e ∈ es, write e = some (k, v)) :: layers)
      ((es.foldl (fun m e => applyWrite m (write e)) m).lookup key) := by
  induction es using List.reverseRecOn with
  | nil => exact Or.inr ⟨fun v hv => by simp at hv, h⟩
  | append_singleton es e ih =>
      rw [List.foldl_append, List.foldl_cons, List.foldl_nil]
      by_cases hwrite : ∃ v, write e = some (key, v)
      · obtain ⟨v, hv⟩ := hwrite
        refine Or.inl ⟨v, ?_, e, by simp, hv⟩
        rw [hv]
        exact AList.lookup_insert _
      · push Not at hwrite
        rw [lookup_applyWrite_of_ne hwrite]
        -- The last element does not write the key, so the layer is the one before.
        have hlayer : ∀ v, (∃ e' ∈ es, write e' = some (key, v)) ↔
            ∃ e' ∈ es ++ [e], write e' = some (key, v) := by
          intro v
          simp [hwrite v]
        rcases ih with ⟨v, hv, hmem⟩ | ⟨hnone, h⟩
        · exact Or.inl ⟨v, hv, (hlayer v).mp hmem⟩
        · exact Or.inr ⟨fun v hv => hnone v ((hlayer v).mpr hv), h⟩

end Writes

end Colloc.Lib

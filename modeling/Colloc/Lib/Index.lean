import Mathlib.Algebra.Ring.Nat
import Mathlib.Data.List.Nodup

/-!
# `Colloc.Lib.Index`: ids in the order of first occurrence

A table that gives a new name the id `size + 1`, in 32 bits, numbers its names in the order
in which they came. `Indexes names id` says so: the name at position `i` has the id `i + 1`,
and no other name has one. Below `2 ^ 32` names the ids are distinct, and they are the
numbers from `1` to the number of names.

Two tables of the same names number them in different orders, and one numbering is the other
one with its ids replaced (`Indexes.renumber`).
-/

set_option autoImplicit false

namespace Colloc.Lib

variable {α : Type}

/-- `id` numbers the names in their order, from `1` on. -/
structure Indexes (names : List α) (id : α → Option UInt32) : Prop where
  nodup : names.Nodup
  id_iff : ∀ a n, id a = some n ↔ ∃ i, names[i]? = some a ∧ n = UInt32.ofNat (i + 1)

namespace Indexes

variable {names : List α} {id : α → Option UInt32}

/-- No name has a number at the beginning. -/
theorem nil : Indexes ([] : List α) (fun _ => none) where
  nodup := List.nodup_nil
  id_iff a n := by simp

/-- A new name gets the next id, and the ids of the other names stay. Ids are positions in the
list of names, and the new name stands at its end only. -/
theorem push [DecidableEq α] (h : Indexes names id) {a : α} (ha : a ∉ names) :
    Indexes (names ++ [a])
      (fun x => if x = a then some (UInt32.ofNat (names.length + 1)) else id x) where
  nodup := by
    refine List.nodup_append.mpr ⟨h.nodup, List.nodup_singleton a, fun x hx y hy => ?_⟩
    rw [List.mem_singleton.mp hy]
    exact fun heq => ha (heq ▸ hx)
  id_iff x n := by
    by_cases hx : x = a
    · subst hx
      rw [if_pos rfl]
      constructor
      · intro hn
        exact ⟨names.length, by simp, (Option.some.inj hn).symm⟩
      · rintro ⟨i, hi, rfl⟩
        -- The new name is at the new position only.
        by_cases hlt : i < names.length
        · rw [List.getElem?_append_left hlt] at hi
          exact absurd (List.mem_of_getElem? hi) ha
        · have hlen := (List.getElem?_eq_some_iff.mp hi).1
          rw [List.length_append, List.length_singleton] at hlen
          rw [show i = names.length by omega]
    · rw [if_neg hx, h.id_iff]
      refine exists_congr (fun i => and_congr_left (fun _ => ?_))
      by_cases hlt : i < names.length
      · rw [List.getElem?_append_left hlt]
      · rw [List.getElem?_append_right (by omega), List.getElem?_eq_none (by omega)]
        constructor
        · intro hnone
          cases hnone
        · intro hi
          have hmem := List.mem_of_getElem? hi
          exact absurd (List.mem_singleton.mp hmem) hx

/-- The names with a number are those that were listed. -/
theorem isSome_iff (h : Indexes names id) (a : α) : (id a).isSome ↔ a ∈ names := by
  rw [Option.isSome_iff_exists, List.mem_iff_getElem?]
  constructor
  · rintro ⟨n, hn⟩
    obtain ⟨i, hi, -⟩ := (h.id_iff a n).mp hn
    exact ⟨i, hi⟩
  · rintro ⟨i, hi⟩
    exact ⟨_, (h.id_iff a _).mpr ⟨i, hi, rfl⟩⟩

/-- A table that gives a name the next id when it has none, and keeps the other ids, is an index
again: of the same names when the name was known, and else of one name more. -/
theorem emplace [DecidableEq α] (h : Indexes names id) {id' : α → Option UInt32} {a : α}
    (hself : id' a = some ((id a).getD (UInt32.ofNat (names.length + 1))))
    (hother : ∀ x, x ≠ a → id' x = id x) : ∃ names', Indexes names' id' := by
  cases ha : id a with
  | some n =>
      -- A known name keeps its id.
      have hsame : id' = id := by
        funext x
        by_cases hx : x = a
        · rw [hx, hself, ha]
          rfl
        · exact hother x hx
      exact ⟨names, hsame ▸ h⟩
  | none =>
      -- A new name gets the next id.
      have hnew : a ∉ names := by
        rw [← h.isSome_iff, ha]
        simp
      have hnext : id' = fun x =>
          if x = a then some (UInt32.ofNat (names.length + 1)) else id x := by
        funext x
        by_cases hx : x = a
        · rw [if_pos hx, hx, hself, ha]
          rfl
        · rw [if_neg hx, hother x hx]
      exact ⟨names ++ [a], hnext ▸ h.push hnew⟩

/-- The number of the place `i` is `i + 1`, as long as a `u32` can hold it. -/
theorem toNat_succ {i n : Nat} (hi : i < n) (hn : n < 2 ^ 32) :
    (UInt32.ofNat (i + 1)).toNat = i + 1 := by
  rw [UInt32.toNat_ofNat', Nat.mod_eq_of_lt (by omega)]

/-- The index of an id, as the stages compute it. -/
theorem toNat_sub_one {i n : Nat} (hi : i < n) (hn : n < 2 ^ 32) :
    (UInt32.ofNat (i + 1) - 1).toNat = i := by
  -- The subtraction cancels the successor also at the wrap.
  have hsub : UInt32.ofNat (i + 1) - 1 = UInt32.ofNat i := by
    rw [UInt32.ofNat_add]
    exact UInt32.add_sub_cancel _ _
  rw [hsub, UInt32.toNat_ofNat', Nat.mod_eq_of_lt (by omega)]

/-- No two names share an id. The ids are positions, which are different as long as they fit the
type. -/
theorem injective (h : Indexes names id) (hn : names.length < 2 ^ 32) {a b : α} {n : UInt32}
    (ha : id a = some n) (hb : id b = some n) : a = b := by
  obtain ⟨i, hi, hni⟩ := (h.id_iff a n).mp ha
  obtain ⟨j, hj, hnj⟩ := (h.id_iff b n).mp hb
  have hilt := (List.getElem?_eq_some_iff.mp hi).1
  have hjlt := (List.getElem?_eq_some_iff.mp hj).1
  -- Below `2 ^ 32` the ids do not wrap, so equal ids are equal positions.
  have hij : i = j := by
    have hval := congrArg UInt32.toNat (hni.symm.trans hnj)
    rw [toNat_succ hilt hn, toNat_succ hjlt hn] at hval
    omega
  subst hij
  exact Option.some.inj (hi.symm.trans hj)

/-- The index of the id of a name is its position. -/
theorem sub_one_lt (h : Indexes names id) (hn : names.length < 2 ^ 32) {a : α} {n : UInt32}
    (ha : id a = some n) : (n - 1).toNat < names.length := by
  obtain ⟨i, hi, rfl⟩ := (h.id_iff a n).mp ha
  have hilt := (List.getElem?_eq_some_iff.mp hi).1
  rw [toNat_sub_one hilt hn]
  exact hilt

/-- Every position is the index of the id of a name. -/
theorem exists_id (h : Indexes names id) (hn : names.length < 2 ^ 32) {i : Nat}
    (hi : i < names.length) : ∃ a n, id a = some n ∧ (n - 1).toNat = i :=
  ⟨names[i], UInt32.ofNat (i + 1),
    (h.id_iff _ _).mpr ⟨i, List.getElem?_eq_getElem hi, rfl⟩, toNat_sub_one hi hn⟩

/-- The number after an id of `1` to `n` is no id of a name. -/
theorem id_ne (h : Indexes names id) (hn : names.length < 2 ^ 32) {n : UInt32}
    (hle : names.length ≤ (n - 1).toNat) (a : α) : id a ≠ some n := by
  intro ha
  have hlt := h.sub_one_lt hn ha
  omega

section Renumber
variable {names' : List α} {id' : α → Option UInt32}

/-- The position of a name in the other numbering, and a number that is no index of a name stays
as it is. -/
theorem exists_renumbered (h : Indexes names id) (h' : Indexes names' id')
    (hn : names.length < 2 ^ 32) (hlen : names'.length = names.length)
    (hmem : ∀ a, a ∈ names → a ∈ names') (n : UInt32) :
    ∃ n', (∀ a, id a = some n → id' a = some n') ∧
      (names.length ≤ (n - 1).toNat → n' = n) ∧
      ((n - 1).toNat < names.length → ∃ a, id a = some n ∧ id' a = some n') := by
  by_cases hlt : (n - 1).toNat < names.length
  · obtain ⟨a, m, ha, hidx⟩ := h.exists_id hn hlt
    -- No two ids have the same index.
    have hm : m = n := by
      have hsub := UInt32.toNat_inj.mp hidx
      rw [← UInt32.sub_add_cancel m 1, hsub, UInt32.sub_add_cancel]
    subst hm
    have hsome := (h'.isSome_iff a).mpr (hmem a ((h.isSome_iff a).mp (by rw [ha]; rfl)))
    obtain ⟨n', hn'⟩ := Option.isSome_iff_exists.mp hsome
    refine ⟨n', fun b hb => ?_, fun hle => by omega, fun _ => ⟨a, ha, hn'⟩⟩
    rw [h.injective hn hb ha]
    exact hn'
  · refine ⟨n, fun a ha => absurd ha (h.id_ne hn (by omega) a), fun _ => rfl, fun hlt' => ?_⟩
    exact absurd hlt' hlt

/-- Two numberings of the same names: one of them is the other one with its ids replaced, and
the numbers that are no ids are left alone. -/
theorem renumber (h : Indexes names id) (h' : Indexes names' id') (hn : names.length < 2 ^ 32)
    (hmem : ∀ a, a ∈ names' ↔ a ∈ names) :
    ∃ ρ : UInt32 → UInt32, Function.Injective ρ ∧ (∀ a, id' a = (id a).map ρ) ∧
      ∀ n, names.length ≤ (n - 1).toNat → ρ n = n := by
  have hlen : names'.length = names.length :=
    ((List.perm_ext_iff_of_nodup h'.nodup h.nodup).mpr hmem).length_eq
  choose ρ hid hout hin using
    exists_renumbered h h' hn hlen (fun a ha => (hmem a).mpr ha)
  have hlt : ∀ n, (n - 1).toNat < names.length ↔ (ρ n - 1).toNat < names.length := by
    intro n
    by_cases hn' : (n - 1).toNat < names.length
    · obtain ⟨a, -, ha'⟩ := hin n hn'
      have hlt' := h'.sub_one_lt (hlen ▸ hn) ha'
      omega
    · rw [hout n (by omega)]
  refine ⟨ρ, fun m n hmn => ?_, fun a => ?_, hout⟩
  · by_cases hm : (m - 1).toNat < names.length
    · have hn' := (hlt n).mpr (hmn ▸ (hlt m).mp hm)
      obtain ⟨a, ha, ha'⟩ := hin m hm
      obtain ⟨b, hb, hb'⟩ := hin n hn'
      -- Equal ids are ids of one name.
      have hab : a = b := h'.injective (hlen ▸ hn) ha' (hmn ▸ hb')
      subst hab
      exact Option.some.inj (ha.symm.trans hb)
    · have hn' : ¬ (n - 1).toNat < names.length :=
        fun hn' => hm ((hlt m).mpr (hmn ▸ (hlt n).mp hn'))
      rw [← hout m (by omega), hmn, hout n (by omega)]
  · cases ha : id a with
    | some n => exact hid n a ha
    | none =>
        have hnone : a ∉ names' := fun hmem' => by
          have hsome := (h.isSome_iff a).mpr ((hmem a).mp hmem')
          rw [ha] at hsome
          cases hsome
        rw [← h'.isSome_iff, Option.not_isSome_iff_eq_none] at hnone
        exact hnone

end Renumber

end Indexes

/-! ### Lists of entries -/

section Entries
variable {K V : Type} [DecidableEq K] {entries : List (K × V)}

/-- Among distinct keys an entry is found under its key. A lookup gives the first entry of a key,
which is here the only one. -/
theorem lookup_eq_some_iff_mem (h : (entries.map Prod.fst).Nodup) (k : K) (v : V) :
    entries.lookup k = some v ↔ (k, v) ∈ entries := by
  rw [List.lookup_eq_some_iff]
  constructor
  · rintro ⟨before, after, rfl, -⟩
    exact List.mem_append_right _ List.mem_cons_self
  · intro hmem
    obtain ⟨before, after, rfl⟩ := List.append_of_mem hmem
    refine ⟨before, after, rfl, fun p hp => ?_⟩
    rw [List.map_append] at h
    have hne := (List.nodup_append.mp h).2.2 p.1 (List.mem_map_of_mem hp) k
      (List.mem_map_of_mem List.mem_cons_self)
    exact bne_iff_ne.mpr hne.symm

/-- An entry is found under its new key. The new keys are different as the old ones are, so in
both lists a lookup is membership, which does not depend on the order. -/
theorem lookup_perm_map {entries' : List (K × V)} {f : K → K} (hf : Function.Injective f)
    (h : (entries.map Prod.fst).Nodup) (hperm : entries'.Perm (entries.map (Prod.map f id)))
    (k : K) : entries'.lookup (f k) = entries.lookup k := by
  have hkeys : (entries.map (Prod.map f id)).map Prod.fst = (entries.map Prod.fst).map f := by
    rw [List.map_map, List.map_map]
    rfl
  have h' : (entries'.map Prod.fst).Nodup := by
    rw [(hperm.map Prod.fst).nodup_iff, hkeys]
    exact h.map hf
  refine Option.ext (fun v => ?_)
  rw [lookup_eq_some_iff_mem h, lookup_eq_some_iff_mem h', hperm.mem_iff, List.mem_map]
  constructor
  · rintro ⟨p, hp, heq⟩
    have hk := hf (congrArg Prod.fst heq)
    have hv : p.2 = v := congrArg Prod.snd heq
    rw [← hk, ← hv]
    exact hp
  · exact fun hmem => ⟨(k, v), hmem, rfl⟩

end Entries

end Colloc.Lib

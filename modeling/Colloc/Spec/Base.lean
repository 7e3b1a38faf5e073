import Colloc.Lib.Stdlib
import Mathlib.Algebra.Ring.Nat
import Mathlib.Data.List.AList

/-!
# `Colloc.Spec.Base`: failures and hash containers

The vocabulary every stage shares: what a stage can fail with, and the `absl` containers.

`absl::flat_hash_map` is an association list with distinct keys (`AList`). Its iteration
order is `Stdlib.hashOrder` of the entries, so a result that depends on it depends on the
`Stdlib` argument. A `flat_hash_set` is a map to `Unit`.

Ids, counters and weights are `u32` in the source and `UInt32` here, so every increment and
every sum wraps at `2 ^ 32`. Container sizes are `size_t` and stay `Nat`: a container cannot
hold `2 ^ 64` elements.
-/

set_option autoImplicit false

namespace Colloc.Spec

open Colloc.Lib

/-- How a stage can fail. `runtime` is a `std::runtime_error` with its text, `outOfRange`
the exception of `vector::at`, and `lengthError` that of `vector::reserve`. `badDereference`
marks a step the language leaves undefined: an iterator equal to `end()` is dereferenced. -/
inductive Error where
  | runtime (what : String)
  | outOfRange
  | lengthError
  | badDereference (what : String)
  deriving Repr, DecidableEq

/-- `absl::flat_hash_map`. -/
abbrev FlatHashMap (κ ν : Type) := AList (fun _ : κ => ν)

/-- `absl::flat_hash_set`. -/
abbrev FlatHashSet (κ : Type) := FlatHashMap κ Unit

namespace FlatHashMap

variable {κ ν : Type} [DecidableEq κ]

/-- `m.try_emplace(k, v)`: an existing entry stays. -/
def tryEmplace (m : FlatHashMap κ ν) (k : κ) (v : ν) : FlatHashMap κ ν :=
  if (m.lookup k).isSome then m else m.insert k v

/-- `m.size()`. -/
def size (m : FlatHashMap κ ν) : Nat := m.entries.length

/-- The entries in iteration order. -/
def iter (std : Stdlib) (m : FlatHashMap κ ν) : List (κ × ν) :=
  (std.hashOrder m.entries).map (fun e => (e.1, e.2))

/-- `m.find(k)->second`, with no check that `k` is there. -/
def deref (m : FlatHashMap κ ν) (k : κ) (what : String) : Except Error ν :=
  match m.lookup k with
  | some v => .ok v
  | none => .error (.badDereference what)

/-- `try_emplace` keeps the value of an entry that exists, and else inserts the new one. Other
keys are left alone. -/
theorem lookup_tryEmplace (m : FlatHashMap κ ν) (k k' : κ) (v : ν) :
    (tryEmplace m k v).lookup k'
      = if k' = k then some ((m.lookup k).getD v) else m.lookup k' := by
  unfold tryEmplace
  cases hk : m.lookup k with
  | none =>
      by_cases h : k' = k
      · subst h
        simp
      · simp [h, AList.lookup_insert_ne h]
  | some w =>
      by_cases h : k' = k
      · subst h
        simp [hk]
      · simp [h]

/-- The key is there afterwards, and so are the keys from before. -/
theorem isSome_tryEmplace (m : FlatHashMap κ ν) (k k' : κ) (v : ν) :
    ((tryEmplace m k v).lookup k').isSome ↔ (m.lookup k').isSome ∨ k' = k := by
  rw [lookup_tryEmplace]
  by_cases h : k' = k
  · simp [h]
  · simp [h]

/-- An entry that is found after `try_emplace` was there before, or is the new one under a key
that had none. -/
theorem of_lookup_tryEmplace {m : FlatHashMap κ ν} {k k' : κ} {v w : ν}
    (h : (tryEmplace m k v).lookup k' = some w) :
    m.lookup k' = some w ∨ (m.lookup k' = none ∧ k' = k ∧ w = v) := by
  rw [lookup_tryEmplace] at h
  by_cases hk : k' = k
  · rw [if_pos hk] at h
    subst hk
    cases hold : m.lookup k' with
    | none =>
        rw [hold] at h
        exact Or.inr ⟨rfl, rfl, (Option.some.inj h).symm⟩
    | some w' =>
        rw [hold] at h
        exact Or.inl h
  · rw [if_neg hk] at h
    exact Or.inl h

/-- A run of `try_emplace` keeps what is there, and else the value of the first element of a
key. -/
theorem lookup_foldl_tryEmplace {M : Type} (key : M → κ) (val : M → ν) (k : κ) (ms : List M) :
    ∀ m : FlatHashMap κ ν, (ms.foldl (fun m x => m.tryEmplace (key x) (val x)) m).lookup k
      = (m.lookup k).or ((ms.find? (fun x => decide (key x = k))).map val) := by
  induction ms with
  | nil =>
      intro m
      simp
  | cons x ms ih =>
      intro m
      rw [List.foldl_cons, ih, lookup_tryEmplace]
      by_cases hk : k = key x
      · subst hk
        cases hold : m.lookup (key x) with
        | none => simp
        | some v => simp
      · rw [if_neg hk, List.find?_cons_of_neg (by simpa using Ne.symm hk)]

/-- An iteration meets the entries of the map, each of them, in some order of the library. -/
theorem mem_iter (std : Stdlib) (m : FlatHashMap κ ν) (k : κ) (v : ν) :
    (k, v) ∈ m.iter std ↔ m.lookup k = some v := by
  unfold iter
  rw [List.mem_map]
  constructor
  · rintro ⟨⟨k', v'⟩, hmem, heq⟩
    cases heq
    exact AList.mem_lookup_iff.mpr ((std.hashOrder_perm _).mem_iff.mp hmem)
  · intro h
    exact ⟨⟨k, v⟩, (std.hashOrder_perm _).mem_iff.mpr (AList.mem_lookup_iff.mp h), rfl⟩

/-- The records that the entries are written as, when `entry` reads a record back: a record is
written when the map has its entry. -/
theorem mem_map_iter {M : Type} (std : Stdlib) (m : FlatHashMap κ ν) (record : κ × ν → M)
    (entry : M → κ × ν) (hentry : ∀ e, entry (record e) = e) (hrecord : ∀ r, record (entry r) = r)
    (r : M) : r ∈ (m.iter std).map record ↔ m.lookup (entry r).1 = some (entry r).2 := by
  rw [← mem_iter std, List.mem_map]
  constructor
  · rintro ⟨e, he, rfl⟩
    rw [hentry]
    exact he
  · intro h
    exact ⟨entry r, h, hrecord r⟩

omit [DecidableEq κ] in
/-- The iteration meets each key once. -/
theorem nodup_iter_keys (std : Stdlib) (m : FlatHashMap κ ν) :
    ((m.iter std).map Prod.fst).Nodup := by
  have h : ((std.hashOrder m.entries).map Sigma.fst).Nodup :=
    ((std.hashOrder_perm m.entries).map Sigma.fst).nodup_iff.mpr m.nodupKeys
  rw [iter, List.map_map]
  exact h

omit [DecidableEq κ] in
/-- It meets each of them once. -/
theorem length_iter (std : Stdlib) (m : FlatHashMap κ ν) :
    (m.iter std).length = m.size := by
  rw [iter, List.length_map]
  exact (std.hashOrder_perm m.entries).length_eq

end FlatHashMap

namespace FlatHashSet

variable {κ : Type} [DecidableEq κ]

/-- `s.insert(k)`. -/
def insert (s : FlatHashSet κ) (k : κ) : FlatHashSet κ := FlatHashMap.tryEmplace s k ()

/-- `s.find(k) != s.end()`. -/
def contains (s : FlatHashSet κ) (k : κ) : Bool := (s.lookup k).isSome

/-- The elements in iteration order. -/
def iter (std : Stdlib) (s : FlatHashSet κ) : List κ :=
  (FlatHashMap.iter std s).map Prod.fst

/-- The empty set has no element. -/
@[simp] theorem contains_empty (k : κ) : contains (∅ : FlatHashSet κ) k = false := rfl

/-- An inserted element is there, with those from before. -/
@[simp] theorem contains_insert (s : FlatHashSet κ) (k k' : κ) :
    contains (insert s k) k' = true ↔ k' = k ∨ contains s k' = true := by
  unfold contains insert
  rw [FlatHashMap.lookup_tryEmplace]
  by_cases h : k' = k
  · simp [h]
  · simp [h]

/-- The keys of a map that are inserted when they are met. The others are looked up and left out.
-/
theorem contains_insertRecorded {ν : Type} (m : FlatHashMap κ ν) (s : FlatHashSet κ) (k k' : κ) :
    contains (if (m.lookup k).isSome then insert s k else s) k' = true ↔
      contains s k' = true ∨ ((m.lookup k').isSome ∧ k' = k) := by
  by_cases hk : k' = k
  · subst hk
    by_cases hm : (m.lookup k').isSome
    · simp [hm]
    · simp [hm]
  · by_cases hm : (m.lookup k).isSome
    · simp [hm, hk]
    · simp [hm, hk]

/-- It meets the elements of the set. -/
theorem mem_iter (std : Stdlib) (s : FlatHashSet κ) (k : κ) :
    k ∈ iter std s ↔ contains s k = true := by
  unfold iter contains
  rw [List.mem_map, Option.isSome_iff_exists]
  constructor
  · rintro ⟨⟨k', u⟩, hmem, rfl⟩
    exact ⟨u, (FlatHashMap.mem_iter std s k' u).mp hmem⟩
  · rintro ⟨u, hu⟩
    exact ⟨(k, u), (FlatHashMap.mem_iter std s k u).mpr hu, rfl⟩

omit [DecidableEq κ] in
/-- No element is met twice. -/
theorem nodup_iter (std : Stdlib) (s : FlatHashSet κ) : (iter std s).Nodup :=
  FlatHashMap.nodup_iter_keys std s

end FlatHashSet

end Colloc.Spec

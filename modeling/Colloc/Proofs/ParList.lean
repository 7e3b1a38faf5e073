import Colloc.Spec.ParList
import Mathlib.Data.List.Nodup

/-!
# `Colloc.Proofs.ParList`: the jobs of `convert.pl` are a partition

A job ends at `$i + $chunk_size` and the next one begins at `$i + $chunk_size + 1`. The ends are
fractional, but they are exactly one apart, so their integer parts are successors. The last job
is the one whose next begin is not below the length, and there `min` takes the last index. So
the ranges of the jobs from `$i` on, one behind the other, are the indices from the integer part
of `$i` on (`flatMap_parListFrom`). Eight steps take `$i` past the length
(`length_parListFrom_le`).
-/

set_option autoImplicit false

namespace Colloc.Proofs

open Colloc.Spec

/-! ### Ranges -/

/-- A range lists each number once. -/
theorem nodup_range (m n : ℤ) : (Int.range m n).Nodup := by
  unfold Int.range
  refine List.Nodup.map (fun a b hab => ?_) List.nodup_range
  simpa using hab

/-- A range that ends before it begins is empty. -/
theorem range_eq_nil {m n : ℤ} (h : n ≤ m) : Int.range m n = [] := by
  have hzero : (n - m).toNat = 0 := by omega
  rw [Int.range, hzero]
  rfl

/-- Two ranges side by side are one. -/
theorem range_append {m k n : ℤ} (hmk : m ≤ k) (hkn : k ≤ n) :
    Int.range m k ++ Int.range k n = Int.range m n := by
  have hlen : (n - m).toNat = (k - m).toNat + (n - k).toNat := by omega
  unfold Int.range
  rw [hlen, List.range_add, List.map_append, List.map_map]
  congr 1
  refine List.map_congr_left (fun r _ => ?_)
  rw [Function.comp_apply, Nat.cast_add, Int.toNat_of_nonneg (by omega)]
  omega

/-- The integer part of a number that is not negative. -/
theorem perlInt_eq_floor {q : ℚ} (h : 0 ≤ q) : perlInt q = ⌊q⌋ := by
  rw [perlInt, Int.tdiv_eq_ediv_of_nonneg (Rat.num_nonneg.mpr h), Rat.floor_def']

/-- The range operator of Perl cuts its bounds to integers. -/
theorem perlRange_eq {a b : ℚ} (ha : 0 ≤ a) (hb : 0 ≤ b) :
    perlRange a b = Int.range ⌊a⌋ (⌊b⌋ + 1) := by
  rw [perlRange, perlInt_eq_floor ha, perlInt_eq_floor hb]

/-! ### The loop -/

section Loop
variable (len : Nat)

/-- The size of a part is not negative. -/
theorem chunkSize_nonneg : 0 ≤ chunkSize len := by
  unfold chunkSize
  positivity

variable {len}

/-- The loop makes a part when it has not come to the end. -/
theorem parListFrom_of_lt {i : ℚ} (h : i < len) :
    parListFrom len i = (i, perlMin (i + chunkSize len) (len - 1))
      :: parListFrom len (i + (chunkSize len + 1)) := by
  rw [parListFrom, if_pos h]

/-- And stops at the end. -/
theorem parListFrom_of_le {i : ℚ} (h : len ≤ i) : parListFrom len i = [] := by
  rw [parListFrom, if_neg (not_lt.mpr h)]

/-- A job ends right before the next begin, or with the last index. Perl takes the integer part of
an index. -/
theorem floor_perlMin (i : ℚ) :
    ⌊perlMin (i + chunkSize len) (len - 1)⌋ + 1
      = min ⌊i + (chunkSize len + 1)⌋ (len : ℤ) := by
  have hsucc : ⌊i + (chunkSize len + 1)⌋ = ⌊i + chunkSize len⌋ + 1 := by
    rw [← add_assoc, Int.floor_add_one]
  have hlast : ⌊(len : ℚ) - 1⌋ = (len : ℤ) - 1 := by
    rw [Int.floor_sub_one, Int.floor_natCast]
  rw [hsucc]
  unfold perlMin
  by_cases h : i + chunkSize len > len - 1
  · have hge := Int.floor_mono h.le
    rw [hlast] at hge
    rw [if_pos h, hlast, min_eq_right (by omega)]
    omega
  · have hle := Int.floor_mono (not_lt.mp h)
    rw [hlast] at hle
    rw [if_neg h, min_eq_left (by omega)]

/-- The jobs from `i` on work on the indices from its integer part on, in order. The induction
is on the loop. -/
theorem flatMap_parListFrom {i : ℚ} (hi : 0 ≤ i) :
    (parListFrom len i).flatMap jobIndices = Int.range ⌊i⌋ len := by
  induction i using parListFrom.induct len with
  | case1 i hlt ih =>
      have hchunk := chunkSize_nonneg len
      have hnext : ⌊i⌋ ≤ ⌊i + (chunkSize len + 1)⌋ := Int.floor_mono (by linarith)
      have hfloor : ⌊i⌋ < (len : ℤ) := Int.floor_lt.mpr (by exact_mod_cast hlt)
      have hone : (1 : ℚ) ≤ len := by
        have hpos : 0 < len := by
          have hcast : (0 : ℚ) < len := lt_of_le_of_lt hi hlt
          exact_mod_cast hcast
        exact_mod_cast hpos
      have hend : 0 ≤ perlMin (i + chunkSize len) (len - 1) := by
        unfold perlMin
        split
        · linarith
        · linarith
      rw [parListFrom_of_lt hlt, List.flatMap_cons, ih (by linarith), jobIndices,
        perlRange_eq hi hend, floor_perlMin]
      rcases le_total ⌊i + (chunkSize len + 1)⌋ (len : ℤ) with hle | hle
      · rw [min_eq_left hle, range_append hnext hle]
      · -- The last job.
        rw [min_eq_right hle, range_eq_nil hle, List.append_nil]
  | case2 i hge =>
      have hle : (len : ℤ) ≤ ⌊i⌋ := Int.le_floor.mpr (by exact_mod_cast not_lt.mp hge)
      rw [parListFrom_of_le (not_lt.mp hge), range_eq_nil hle]
      rfl

/-- When `n` steps take `i` to the length, there are at most `n` jobs. The induction is on `n`. -/
theorem length_parListFrom_le (n : Nat) :
    ∀ i : ℚ, len ≤ i + n * (chunkSize len + 1) → (parListFrom len i).length ≤ n := by
  induction n with
  | zero =>
      intro i h
      rw [parListFrom_of_le (by simpa using h)]
      exact Nat.le_refl 0
  | succ n ih =>
      intro i h
      rcases lt_or_ge i (len : ℚ) with hlt | hge
      · rw [parListFrom_of_lt hlt, List.length_cons]
        refine Nat.succ_le_succ (ih _ ?_)
        push_cast at h
        linarith
      · rw [parListFrom_of_le hge]
        exact Nat.zero_le _

end Loop

/-- The ranges of all jobs, one behind the other, are the indices of the list. -/
theorem flatMap_parList (len : Nat) : (parList len).flatMap jobIndices = Int.range 0 len := by
  rw [parList, flatMap_parListFrom le_rfl, Int.floor_zero]

/-- `par_list` partitions the indices `0`, ..., `len - 1`: the ranges of the jobs are disjoint,
each without repetitions, together they are all the indices, and there are at most eight. -/
theorem parList_partition (len : Nat) :
    ((parList len).map jobIndices).Pairwise List.Disjoint ∧
      (∀ indices ∈ (parList len).map jobIndices, indices.Nodup) ∧
      (∀ k : ℤ, (∃ indices ∈ (parList len).map jobIndices, k ∈ indices) ↔ 0 ≤ k ∧ k < len) ∧
      (parList len).length ≤ 8 := by
  have hflat : ((parList len).map jobIndices).flatten = Int.range 0 len := by
    rw [← List.flatMap_def, flatMap_parList]
  have hnodup : ((parList len).map jobIndices).flatten.Nodup := by
    rw [hflat]
    exact nodup_range 0 len
  obtain ⟨heach, hdisjoint⟩ := List.nodup_flatten.mp hnodup
  refine ⟨hdisjoint, heach, fun k => ?_, ?_⟩
  · rw [← List.mem_flatten, hflat, Int.mem_range_iff]
  · refine length_parListFrom_le 8 0 ?_
    unfold chunkSize
    linarith

/-- Every file is handed to one job, once. The index ranges of the jobs are one list of all
positions, cut into pieces. -/
theorem jobFiles_parList {α : Type} (files : List α) :
    (parList files.length).flatMap (jobFiles files) = files.map some := by
  have hmap : (parList files.length).flatMap (jobFiles files)
      = ((parList files.length).flatMap jobIndices).map (perlElem files) := by
    rw [List.map_flatMap]
    rfl
  rw [hmap, flatMap_parList, Int.range, List.map_map]
  refine List.ext_getElem (by simp) (fun k hk hk' => ?_)
  have hlt : k < files.length := by simpa using hk'
  have helem : perlElem files (k : ℤ) = some files[k] := by
    rw [perlElem, if_pos (by omega), Int.toNat_natCast, List.getElem?_eq_getElem hlt]
  simp [helem]

end Colloc.Proofs

import Mathlib.Algebra.Order.Floor.Ring
import Mathlib.Algebra.Order.Ring.Rat
import Mathlib.Data.Int.Range
import Mathlib.Data.Rat.Floor
import Mathlib.Tactic.Linarith

/-!
# `Colloc.Spec.ParList`: the jobs of `convert.pl`

`par_list` cuts a list of files into jobs that run in parallel. A job is handed the ends of a
slice of the list. The ends are numbers with a fractional part, exact rationals here, and the
range operator of Perl truncates both.
-/

set_option autoImplicit false

namespace Colloc.Spec

/-- `min`: the comparison is the index of the result. -/
def perlMin (a b : ℚ) : ℚ := if a > b then b else a

/-- `int`: the integer part, toward zero. -/
def perlInt (q : ℚ) : ℤ := q.num.tdiv q.den

/-- `$a .. $b`: both ends are truncated, and the range includes them. -/
def perlRange (a b : ℚ) : List ℤ := Int.range (perlInt a) (perlInt b + 1)

/-- `$chunk_size`. -/
def chunkSize (len : Nat) : ℚ := len / 8

/-- The step of the loop: the distance to the end falls by at least one, and so does the whole
number above it. -/
theorem ceil_step_lt {len : Nat} {i : ℚ} (h : i < len) :
    (⌈(len : ℚ) - (i + (chunkSize len + 1))⌉).toNat < (⌈(len : ℚ) - i⌉).toNat := by
  have hchunk : 0 ≤ chunkSize len := by
    unfold chunkSize
    positivity
  have hpos : 0 < ⌈(len : ℚ) - i⌉ := Int.ceil_pos.mpr (by linarith)
  have hle : ⌈(len : ℚ) - (i + (chunkSize len + 1))⌉ ≤ ⌈(len : ℚ) - i⌉ - 1 := by
    rw [← Int.ceil_sub_one]
    exact Int.ceil_mono (by linarith)
  omega

/-- The loop of `par_list` from `$i` on: the arguments of each pushed sub. -/
def parListFrom (len : Nat) (i : ℚ) : List (ℚ × ℚ) :=
  if i < len then
    (i, perlMin (i + chunkSize len) (len - 1)) :: parListFrom len (i + (chunkSize len + 1))
  else []
termination_by (⌈(len : ℚ) - i⌉).toNat
decreasing_by exact ceil_step_lt ‹_›

/-- `par_list`: the arguments of the jobs. -/
def parList (len : Nat) : List (ℚ × ℚ) := parListFrom len 0

/-- The indices of a job: the range in `@files[ $_[0] .. $_[1] ]`. -/
def jobIndices (job : ℚ × ℚ) : List ℤ := perlRange job.1 job.2

/-- `$files[$k]`: a negative index counts from the end. -/
def perlElem {α : Type} (files : List α) (k : ℤ) : Option α :=
  if 0 ≤ k then files[k.toNat]?
  else if 0 ≤ files.length + k then files[(files.length + k).toNat]? else none

/-- `@files[ $_[0] .. $_[1] ]`: the files of a job, undefined behind the ends of the list. -/
def jobFiles {α : Type} (files : List α) (job : ℚ × ℚ) : List (Option α) :=
  (jobIndices job).map (perlElem files)

end Colloc.Spec

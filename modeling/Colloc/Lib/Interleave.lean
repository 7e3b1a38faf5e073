import Mathlib.Algebra.Order.BigOperators.Group.Finset
import Mathlib.Data.Fintype.BigOperators
import Mathlib.Logic.Function.Basic
import Mathlib.Order.CompletePartialOrder

/-!
# `Colloc.Lib.Interleave`: processes with footprints of their own

Processes take steps one at a time, in any order, on a memory that they share. A process is
confined to a set of locations when its steps read and write no others, as long as it owns the set:
a condition on what stands there, which its own steps keep. When the sets of the processes are
disjoint, no process can tell that the others are there: in every interleaving each
one goes the way that it goes alone (`Interleaved.alone`). So when each of them ends alone, every
interleaving can go on to an end (`Interleaved.exists_ended`), and at the end each footprint is
what its process leaves in it (`Interleaved.ended`).

A step is a function to `Option`: a process that has ended takes no step.
-/

set_option autoImplicit false

namespace Colloc.Lib

variable {P L V : Type} (step : P → (L → V) → Option (P × (L → V)))

/-- `n` steps of one process. -/
inductive Alone (p : P) (m : L → V) : Nat → P → (L → V) → Prop where
  | zero : Alone p m 0 p m
  | succ {n : Nat} {q r : P} {m' m'' : L → V} :
      Alone p m n q m' → step q m' = some (r, m'') → Alone p m (n + 1) r m''

/-- The process ends after `n` steps. -/
def Ends (p : P) (m : L → V) (n : Nat) (q : P) (m' : L → V) : Prop :=
  Alone step p m n q m' ∧ step q m' = none

/-- Every step of a process that owns `F` reads and writes locations in `F` only, and leads to a
process that owns `F`. What owning asks of the memory is about `F` only. -/
structure Confined (owns : P → Set L → (L → V) → Prop) : Prop where
  within : ∀ {p : P} {m n : L → V} {F : Set L}, owns p F m → (∀ l ∈ F, m l = n l) → owns p F n
  keeps : ∀ {p q : P} {m m' : L → V} {F : Set L}, owns p F m → step p m = some (q, m') →
    owns q F m'
  frame : ∀ {p q : P} {m m' : L → V} {F : Set L}, owns p F m → step p m = some (q, m') →
    ∀ l, l ∉ F → m' l = m l
  reads : ∀ {p q : P} {m m' n : L → V} {F : Set L}, owns p F m → (∀ l ∈ F, m l = n l) →
    step p m = some (q, m') → ∃ n', step p n = some (q, n') ∧ ∀ l ∈ F, m' l = n' l

/-! ### One process -/

section Single
variable {step} {p q r : P} {m m' m'' : L → V} {n k : Nat}

/-- Steps and then more steps. -/
theorem Alone.trans (h : Alone step p m n q m') (h' : Alone step q m' k r m'') :
    Alone step p m (n + k) r m'' := by
  induction h' with
  | zero => exact h
  | succ _ hstep ih => exact ih.succ hstep

/-- A step in front of others. -/
theorem Alone.head (hstep : step p m = some (q, m')) (h : Alone step q m' n r m'') :
    Alone step p m (1 + n) r m'' :=
  (Alone.zero.succ hstep).trans h

/-- A process alone goes one way only, as a step is a function of what it finds. The induction is
on the steps. -/
theorem Alone.unique (h : Alone step p m n q m') (h' : Alone step p m n r m'') :
    q = r ∧ m' = m'' := by
  induction h generalizing r m'' with
  | zero =>
      cases h'
      exact ⟨rfl, rfl⟩
  | succ _ hstep ih =>
      cases h' with
      | succ h₁ hstep' =>
          obtain ⟨rfl, rfl⟩ := ih h₁
          rw [hstep] at hstep'
          exact Prod.mk.inj (Option.some.inj hstep')

/-- The steps before the last ones. -/
theorem Alone.exists_take (h : Alone step p m k r m'') :
    ∀ {n : Nat}, n < k → ∃ q m', Alone step p m n q m' ∧ step q m' ≠ none := by
  induction h with
  | zero => exact fun hn => absurd hn (Nat.not_lt_zero _)
  | @succ k q _ m' _ h₁ hstep ih =>
      intro n hn
      rcases Nat.lt_succ_iff_lt_or_eq.mp hn with hn | rfl
      · exact ih hn
      · exact ⟨q, m', h₁, by rw [hstep]; exact Option.some_ne_none _⟩

/-- A process that ends takes no more steps. -/
theorem Ends.le (h : Ends step p m n q m') (h' : Alone step p m k r m'') : k ≤ n := by
  by_contra hlt
  obtain ⟨q', m₁, halone, hne⟩ := h'.exists_take (not_le.mp hlt)
  obtain ⟨rfl, rfl⟩ := h.1.unique halone
  exact hne h.2

/-- A process takes no step any more at its end only. -/
theorem Ends.of_stopped (h : Ends step p m n q m') (h' : Alone step p m k r m'')
    (hstop : step r m'' = none) : k = n ∧ r = q ∧ m'' = m' := by
  have heq : k = n := Nat.le_antisymm (h.le h') (Ends.le ⟨h', hstop⟩ h.1)
  subst heq
  exact ⟨rfl, h'.unique h.1⟩

end Single

/-! ### Many processes -/

section Many
variable {ι : Type} [DecidableEq ι]

/-- A run of the processes: who takes the steps, and where it leads. -/
inductive Interleaved (procs : ι → P) (m : L → V) : List ι → (ι → P) → (L → V) → Prop where
  | nil : Interleaved procs m [] procs m
  | step {s : List ι} {qs : ι → P} {q : P} {m' m'' : L → V} (i : ι) :
      Interleaved procs m s qs m' → step (qs i) m' = some (q, m'') →
      Interleaved procs m (s ++ [i]) (Function.update qs i q) m''

/-- The run in which the processes take their steps in a given order, if they can. -/
def runOrder : List ι → (ι → P) → (L → V) → Option ((ι → P) × (L → V))
  | [], procs, m => some (procs, m)
  | i :: order, procs, m =>
      match step (procs i) m with
      | some (p, m) => runOrder order (Function.update procs i p) m
      | none => none

/-- No process takes a step any more. -/
def Ended (procs : ι → P) (m : L → V) : Prop := ∀ i, step (procs i) m = none

/-- The steps of a run are those of its processes. -/
theorem length_eq_sum_count [Fintype ι] (s : List ι) : s.length = ∑ i, s.count i := by
  have hcard := Multiset.sum_count_eq_card (m := (s : Multiset ι)) (fun i _ => Finset.mem_univ i)
  simpa using hcard.symm

variable {step} in
/-- The steps of a given order, where each can be taken, are a run. The induction is on the steps
to come. -/
theorem Interleaved.runOrder {procs qs rs : ι → P} {m m' m'' : L → V} {s order : List ι}
    (h : Interleaved step procs m s qs m') (hrun : runOrder step order qs m' = some (rs, m'')) :
    Interleaved step procs m (s ++ order) rs m'' := by
  induction order generalizing s qs m' with
  | nil =>
      cases hrun
      rwa [List.append_nil]
  | cons i order ih =>
      simp only [Lib.runOrder] at hrun
      cases hstep : step (qs i) m' with
      | none =>
          rw [hstep] at hrun
          cases hrun
      | some out =>
          obtain ⟨q, m₁⟩ := out
          rw [hstep] at hrun
          have hall := ih (h.step i hstep) hrun
          rwa [List.append_assoc] at hall

variable {step} {owns : P → Set L → (L → V) → Prop} (hc : Confined step owns) {F : ι → Set L}
  (hF : Pairwise fun i j => Disjoint (F i) (F j)) {procs : ι → P} {m : L → V}
  (howns : ∀ i, owns (procs i) (F i) m)

/-- Where the run stands: each process is where its own steps take it alone, and so is its
footprint. The locations of no process are untouched. -/
structure Tracks (step : P → (L → V) → Option (P × (L → V)))
    (owns : P → Set L → (L → V) → Prop) (F : ι → Set L) (procs : ι → P) (m : L → V) (s : List ι)
    (qs : ι → P) (m' : L → V) : Prop where
  owns : ∀ i, owns (qs i) (F i) m'
  own : ∀ i, ∃ mi, Alone step (procs i) m (s.count i) (qs i) mi ∧ ∀ l ∈ F i, m' l = mi l
  rest : ∀ l, (∀ i, l ∉ F i) → m' l = m l

include hc hF howns

/-- The processes go the ways that they go alone. The induction is on the run: a step touches the
footprint of its own process only, and reads there what the process would read alone. -/
theorem Interleaved.alone {s : List ι} {qs : ι → P} {m' : L → V}
    (h : Interleaved step procs m s qs m') : Tracks step owns F procs m s qs m' := by
  induction h with
  | nil => exact ⟨howns, fun i => ⟨m, Alone.zero, fun _ _ => rfl⟩, fun _ _ => rfl⟩
  | @step s qs q m' m'' i _ hstep ih =>
      have hown := ih.owns i
      have hframe := hc.frame hown hstep
      -- The step stays away from the footprints of the other processes.
      have hother : ∀ j, j ≠ i → ∀ l ∈ F j, m'' l = m' l := fun j hj l hl =>
        hframe l (fun hi => Set.disjoint_left.mp (hF hj) hl hi)
      refine ⟨fun j => ?_, fun j => ?_, fun l hl => ?_⟩
      · by_cases hj : j = i
        · subst hj
          rw [Function.update_self]
          exact hc.keeps hown hstep
        · rw [Function.update_of_ne hj]
          exact hc.within (ih.owns j) (fun l hl => (hother j hj l hl).symm)
      · obtain ⟨mj, halone, hmem⟩ := ih.own j
        by_cases hj : j = i
        · subst hj
          obtain ⟨n', hstep', hmem'⟩ := hc.reads hown hmem hstep
          rw [Function.update_self, List.count_append, List.count_singleton_self]
          exact ⟨n', halone.succ hstep', hmem'⟩
        · rw [Function.update_of_ne hj, List.count_append,
            List.count_singleton, if_neg (by simpa using Ne.symm hj), Nat.add_zero]
          exact ⟨mj, halone, fun l hl => (hother j hj l hl).trans (hmem l hl)⟩
      · rw [hframe l (hl i), ih.rest l hl]

variable {n : ι → Nat} {ends : ι → P} {mems : ι → L → V}
  (hends : ∀ i, Ends step (procs i) m (n i) (ends i) (mems i))
include hends

/-- The number of steps that each process has taken is at most that to its end. -/
theorem Interleaved.count_le {s : List ι} {qs : ι → P} {m' : L → V}
    (h : Interleaved step procs m s qs m') (i : ι) : s.count i ≤ n i := by
  obtain ⟨mi, halone, -⟩ := (h.alone hc hF howns).own i
  exact (hends i).le halone

/-- At the end of a run each process is at its own end, and so is its footprint. A process that
has stopped among the others has stopped alone, and alone it stops at its end only. -/
theorem Interleaved.ended {s : List ι} {qs : ι → P} {m' : L → V}
    (h : Interleaved step procs m s qs m') (hended : Ended step qs m') (i : ι) :
    s.count i = n i ∧ qs i = ends i ∧ ∀ l ∈ F i, m' l = mems i l := by
  have htracks := h.alone hc hF howns
  obtain ⟨mi, halone, hmem⟩ := htracks.own i
  -- The process has stopped in its own memory too.
  have hstop : step (qs i) mi = none := by
    cases hstep : step (qs i) mi with
    | none => rfl
    | some out =>
        obtain ⟨q, m₁⟩ := out
        have hown : owns (qs i) (F i) mi := hc.within (htracks.owns i) hmem
        obtain ⟨n', hstep', -⟩ := hc.reads hown (fun l hl => (hmem l hl).symm) hstep
        rw [hended i] at hstep'
        cases hstep'
  obtain ⟨hn, hq, rfl⟩ := (hends i).of_stopped halone hstop
  exact ⟨hn, hq, hmem⟩

variable [Fintype ι]

/-- A run takes no more steps than the processes take together. -/
theorem Interleaved.length_le {s : List ι} {qs : ι → P} {m' : L → V}
    (h : Interleaved step procs m s qs m') : s.length ≤ ∑ i, n i := by
  rw [length_eq_sum_count]
  exact Finset.sum_le_sum (fun i _ => h.count_le hc hF howns hends i)

/-- Every run can go on to an end. Where the run has not ended some process has a step left. The
induction is on the number of steps that are left, which all processes bound together. -/
theorem Interleaved.exists_ended {s : List ι} {qs : ι → P} {m' : L → V}
    (h : Interleaved step procs m s qs m') : ∃ s' qs' m'',
      Interleaved step procs m (s ++ s') qs' m'' ∧ Ended step qs' m'' := by
  generalize hleft : ∑ i, n i - s.length = left
  induction left generalizing s qs m' with
  | zero =>
      refine ⟨[], qs, m', by rwa [List.append_nil], fun i => ?_⟩
      cases hstep : step (qs i) m' with
      | none => rfl
      | some out =>
          have hle := (h.step i hstep).length_le hc hF howns hends
          rw [List.length_append, List.length_singleton] at hle
          omega
  | succ left ih =>
      by_cases hended : Ended step qs m'
      · exact ⟨[], qs, m', by rwa [List.append_nil], hended⟩
      · obtain ⟨i, hi⟩ := not_forall.mp hended
        obtain ⟨⟨q, m₁⟩, hstep⟩ := Option.ne_none_iff_exists'.mp hi
        obtain ⟨s', qs', m'', hrun, hend⟩ := ih (h.step i hstep) (by
          rw [List.length_append, List.length_singleton]
          omega)
        rw [List.append_assoc] at hrun
        exact ⟨[i] ++ s', qs', m'', hrun, hend⟩

/-- A run that has ended has taken all the steps. -/
theorem Interleaved.length_eq {s : List ι} {qs : ι → P} {m' : L → V}
    (h : Interleaved step procs m s qs m') (hended : Ended step qs m') :
    s.length = ∑ i, n i := by
  rw [length_eq_sum_count]
  exact Finset.sum_congr rfl (fun i _ => (h.ended hc hF howns hends hended i).1)

end Many

end Colloc.Lib

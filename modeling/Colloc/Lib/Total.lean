import Mathlib.Data.List.Basic
import Mathlib.Data.List.Forall2

/-!
# `Colloc.Lib.Total`: runs that reach their end

A loop over a list whose body can fail is `foldlM` in `Except`. When every step from a state
that satisfies the invariant succeeds and keeps it, the run succeeds and ends in such a
state. In `foldlM_run` and `foldlM_list` the invariant depends on the elements that are done.

A run that is known to succeed keeps what its successful steps keep (`foldlM_keeps`), and it
is also the run of every body that agrees with its successful steps (`foldlM_agrees`).

`Avoids bad P` is about a result that may be a failure, but not `bad`. It is kept by a run whose
steps keep it (`foldlM_avoids`).

`EndAlike Q` relates two results: the same failure, or successes that `Q` relates. Two runs whose
steps end alike end alike (`foldlM_alike`).
-/

set_option autoImplicit false

namespace Colloc.Lib

variable {α σ ε : Type} {f : σ → α → Except ε σ}

/-- A run succeeds when each step does from what the steps before have established. The invariant
`P` is about the elements that are done and the state. -/
theorem foldlM_run {P : List α → σ → Prop} (l : List α) :
    ∀ (done : List α) (s : σ),
      (∀ before x after s, done ++ l = before ++ x :: after → P before s →
        ∃ s', f s x = .ok s' ∧ P (before ++ [x]) s') →
      P done s → ∃ s', l.foldlM f s = .ok s' ∧ P (done ++ l) s' := by
  induction l with
  | nil =>
      intro done s _ hs
      rw [List.append_nil]
      exact ⟨s, rfl, hs⟩
  | cons x l ih =>
      intro done s hstep hs
      -- One step moves `x` to the elements that are done.
      obtain ⟨s₁, hx, hs₁⟩ := hstep done x l s rfl hs
      have hassoc : done ++ x :: l = (done ++ [x]) ++ l := by
        rw [List.append_assoc]
        rfl
      rw [hassoc] at hstep ⊢
      obtain ⟨s₂, hl, hs₂⟩ := ih (done ++ [x]) s₁ hstep hs₁
      refine ⟨s₂, ?_, hs₂⟩
      rw [List.foldlM_cons, hx]
      exact hl

/-- A run from the beginning, when a step needs no more of an element than that it is
listed. -/
theorem foldlM_list {P : List α → σ → Prop} {l : List α} {s : σ}
    (hstep : ∀ x ∈ l, ∀ before s, P before s → ∃ s', f s x = .ok s' ∧ P (before ++ [x]) s')
    (hs : P [] s) : ∃ s', l.foldlM f s = .ok s' ∧ P l s' := by
  refine foldlM_run l [] s (fun before x after s hl hP => ?_) hs
  rw [List.nil_append] at hl
  exact hstep x (hl ▸ List.mem_append_right _ List.mem_cons_self) before s hP

/-- The invariant `P` is about the state alone. -/
theorem foldlM_ok {P : σ → Prop} {l : List α} {s : σ}
    (hstep : ∀ x ∈ l, ∀ s, P s → ∃ s', f s x = .ok s' ∧ P s') (hs : P s) :
    ∃ s', l.foldlM f s = .ok s' ∧ P s' :=
  foldlM_list (P := fun _ => P) (fun x hx _ s hP => hstep x hx s hP) hs

/-- What each successful step keeps holds at the end of a run that succeeds. Unlike `foldlM_run`
it asks for no step to succeed. -/
theorem foldlM_keeps {P : List α → σ → Prop} {l : List α} {s s' : σ}
    (hrun : l.foldlM f s = .ok s')
    (hstep : ∀ x ∈ l, ∀ before s s', P before s → f s x = .ok s' → P (before ++ [x]) s')
    (hs : P [] s) : P l s' := by
  have hgen : ∀ (l done : List α) (s : σ), l.foldlM f s = .ok s' →
      (∀ x ∈ l, ∀ before s s', P before s → f s x = .ok s' → P (before ++ [x]) s') →
      P done s → P (done ++ l) s' := by
    intro l
    induction l with
    | nil =>
        intro done s hrun _ hs
        rw [List.append_nil, ← Except.ok.inj hrun]
        exact hs
    | cons x l ih =>
        intro done s hrun hstep hs
        rw [List.foldlM_cons] at hrun
        cases hx : f s x with
        | error e => rw [hx] at hrun; cases hrun
        | ok s₁ =>
            rw [hx] at hrun
            have hassoc : done ++ x :: l = (done ++ [x]) ++ l := by simp
            rw [hassoc]
            exact ih (done ++ [x]) s₁ hrun (fun y hy => hstep y (List.mem_cons_of_mem x hy))
              (hstep x List.mem_cons_self done s s₁ hs hx)
  exact hgen l [] s hrun hstep hs

/-- A run whose successful steps are those of the pure body `g` ends where `g` does. -/
theorem foldlM_eq_foldl {g : σ → α → σ} {l : List α} {s s' : σ} (hrun : l.foldlM f s = .ok s')
    (h : ∀ x ∈ l, ∀ s s', f s x = .ok s' → s' = g s x) : s' = l.foldl g s :=
  foldlM_keeps (P := fun done t => t = done.foldl g s) hrun
    (fun x hx before t t' ht hok => by
      rw [List.foldl_append, List.foldl_cons, List.foldl_nil, ← ht]
      exact h x hx t t' hok)
    rfl

/-- A run over an element on which the body always fails with `e`, when it fails on no element
with anything else. -/
theorem foldlM_error {e : ε} {bad : α → Prop} {l : List α}
    (hbad : ∀ x ∈ l, bad x → ∀ s, f s x = .error e)
    (hok : ∀ x ∈ l, ¬ bad x → ∀ s, ∃ s', f s x = .ok s') (h : ∃ x ∈ l, bad x) :
    ∀ s, l.foldlM f s = .error e := by
  induction l with
  | nil =>
      obtain ⟨x, hx, -⟩ := h
      exact absurd hx List.not_mem_nil
  | cons y l ih =>
      intro s
      rw [List.foldlM_cons]
      by_cases hy : bad y
      · rw [hbad y List.mem_cons_self hy s]
        rfl
      · obtain ⟨s', hs'⟩ := hok y List.mem_cons_self hy s
        have htail : ∃ x ∈ l, bad x := by
          obtain ⟨x, hx, hbadx⟩ := h
          rcases List.mem_cons.mp hx with rfl | hx
          · exact absurd hbadx hy
          · exact ⟨x, hx, hbadx⟩
        rw [hs']
        exact ih (fun x hx => hbad x (List.mem_cons_of_mem y hx))
          (fun x hx => hok x (List.mem_cons_of_mem y hx)) htail s'

/-- A body that does what the successful steps of `f` do has the successful runs of `f`. A run
that fails says nothing. -/
theorem foldlM_agrees {g : σ → α → Except ε σ} (h : ∀ s x s', f s x = .ok s' → g s x = .ok s')
    (l : List α) : ∀ s s', l.foldlM f s = .ok s' → l.foldlM g s = .ok s' := by
  induction l with
  | nil => exact fun s s' hrun => hrun
  | cons x l ih =>
      intro s s' hrun
      rw [List.foldlM_cons] at hrun ⊢
      cases hx : f s x with
      | error e => rw [hx] at hrun; cases hrun
      | ok s₁ =>
          rw [hx] at hrun
          rw [h s x s₁ hx]
          exact ih s₁ s' hrun

/-- The result is not the failure `bad`, and a success satisfies `P`. -/
def Avoids (bad : ε) (P : σ → Prop) : Except ε σ → Prop
  | .ok s => P s
  | .error e => e ≠ bad

/-- A run whose steps do not fail with `bad` does not fail with it. Where a step fails in another
way the run ends, and where it succeeds the invariant goes on. -/
theorem foldlM_avoids {bad : ε} {P : σ → Prop} (l : List α) :
    ∀ s, (∀ x ∈ l, ∀ s, P s → Avoids bad P (f s x)) → P s → Avoids bad P (l.foldlM f s) := by
  induction l with
  | nil => exact fun s _ hs => hs
  | cons x l ih =>
      intro s hstep hs
      have hx := hstep x List.mem_cons_self s hs
      rw [List.foldlM_cons]
      cases hres : f s x with
      | error e =>
          rw [hres] at hx
          exact hx
      | ok s' =>
          rw [hres] at hx
          exact ih s' (fun y hy => hstep y (List.mem_cons_of_mem x hy)) hx

/-- The same failure, or successes related by `Q`. -/
inductive EndAlike {τ : Type} (Q : σ → τ → Prop) : Except ε σ → Except ε τ → Prop where
  | error (e : ε) : EndAlike Q (.error e) (.error e)
  | ok {s : σ} {t : τ} : Q s t → EndAlike Q (.ok s) (.ok t)

namespace EndAlike

variable {τ σ' τ' : Type} {Q : σ → τ → Prop} {Q' : σ' → τ' → Prop}

/-- Computations that end alike in equal states are equal. -/
theorem eq {x y : Except ε σ} (h : EndAlike Eq x y) : x = y := by
  cases h with
  | error e => rfl
  | ok h => rw [h]

/-- What two successes say beside the relation can be used to change it. -/
theorem imp_of_ok {Q₁ : σ → τ → Prop} {x : Except ε σ} {y : Except ε τ} (h : EndAlike Q x y)
    (hQ : ∀ s t, x = .ok s → y = .ok t → Q s t → Q₁ s t) : EndAlike Q₁ x y := by
  cases h with
  | error e => exact EndAlike.error e
  | ok h => exact EndAlike.ok (hQ _ _ rfl rfl h)

/-- Computations that end alike, followed by functions that do. -/
theorem bind {x : Except ε σ} {y : Except ε τ} (h : EndAlike Q x y) {f : σ → Except ε σ'}
    {g : τ → Except ε τ'} (hfg : ∀ s t, Q s t → EndAlike Q' (f s) (g t)) :
    EndAlike Q' (x.bind f) (y.bind g) := by
  cases h with
  | error e => exact EndAlike.error e
  | ok h => exact hfg _ _ h

end EndAlike

/-- Two runs over related elements end alike: with related states, or both with an error. The
induction is on the elements. -/
theorem foldlM_alike {β τ : Type} {g : τ → β → Except ε τ} {E : α → β → Prop}
    {Q : σ → τ → Prop} (hstep : ∀ x y, E x y → ∀ s t, Q s t → EndAlike Q (f s x) (g t y))
    {l : List α} {l' : List β} (h : List.Forall₂ E l l') :
    ∀ s t, Q s t → EndAlike Q (l.foldlM f s) (l'.foldlM g t) := by
  induction h with
  | nil => exact fun s t hs => EndAlike.ok hs
  | cons hxy _ ih =>
      intro s t hs
      rw [List.foldlM_cons, List.foldlM_cons]
      exact (hstep _ _ hxy s t hs).bind ih

end Colloc.Lib

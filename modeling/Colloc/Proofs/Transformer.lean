import Colloc.Spec.GroupLem

/-!
# `Colloc.Proofs.Transformer`: when a transformer is a flat-map

`Transformer::read` refills its queue from one input at most. When that input expands to
nothing, the queue stays empty and the read returns `false`, although inputs may follow. So
the repeated reads show the flat-map of the inputs, and then `false` forever, exactly when
every input but the last one expands to something (`transformer_flatMap_iff`). The last one
may expand to nothing: the `false` that it causes comes at the end of the input.

`reads` makes one call of `read` for each target it is given. `expands_of_nonempty` is the
induction over the calls, and `Expands.nonempty` finds the input that was cut off.
-/

set_option autoImplicit false

namespace Colloc.Proofs

open Colloc.Lib
open Colloc.Spec

variable {I O : Type} [Message I]

/-- One call of `read` for each target: what the calls return, `none` for `false`, and the
transformer after them. -/
def reads : List O → Transformer I O → Except Error (List (Option O) × Transformer I O)
  | [], t => .ok ([], t)
  | msg :: msgs, t =>
      match t.read msg with
      | .error e => .error e
      | .ok (found, m, t) =>
          match reads msgs t with
          | .error e => .error e
          | .ok (shown, t) => .ok ((if found then some m else none) :: shown, t)

/-- A transformer between two calls, for a function that does not throw. -/
def between (f : I → List O) (q : List O) (keep : Bool) (rest : List I) : Transformer I O :=
  { q := q, keep := keep, is := ⟨rest⟩, fn := fun x => .ok (f x) }

/-- The calls show the messages of `out` in order, and each later call returns `false` with
the input exhausted and no output left. -/
def Expands (t : Transformer I O) (out : List O) : Prop :=
  ∀ msgs : List O, ∃ t', reads msgs t
      = .ok ((out.take msgs.length).map some ++
          List.replicate (msgs.length - out.length) none, t') ∧
    (out.length < msgs.length → t'.q = [] ∧ t'.is.rest = [])

/-! ### One call -/

section Step
variable (f : I → List O)

/-- A queued output is handed out. -/
theorem read_queued (o : O) (q : List O) (keep : Bool) (rest : List I) (msg : O) :
    (between f (o :: q) keep rest).read msg = .ok (true, o, between f q keep rest) := rfl

/-- At the end of the input nothing is left. -/
theorem read_exhausted (keep : Bool) (msg : O) :
    (between f [] keep []).read msg = .ok (false, msg, between f [] false []) := by
  cases keep with
  | false => rfl
  | true => rfl

/-- An input that expands to something. -/
theorem read_expanding {x : I} {o : O} {os : List O} (h : f x = o :: os) (rest : List I)
    (msg : O) :
    (between f [] true (x :: rest)).read msg = .ok (true, o, between f os true rest) := by
  simp [between, Transformer.read, Transformer.refill, IFStreamer.read, Message.empty_mergeFrom, h]

/-- An input that expands to nothing makes the call return `false`. -/
theorem read_silent {x : I} (h : f x = []) (rest : List I) (msg : O) :
    (between f [] true (x :: rest)).read msg = .ok (false, msg, between f [] true rest) := by
  simp [between, Transformer.read, Transformer.refill, IFStreamer.read, Message.empty_mergeFrom, h]

end Step

/-! ### The calls -/

section Calls
variable {f : I → List O}

/-- One read more is the first read and the reads after it. -/
theorem reads_cons {t t' : Transformer I O} {msg m : O} {found : Bool}
    (h : t.read msg = .ok (found, m, t')) (msgs : List O) :
    reads (msg :: msgs) t
      = (reads msgs t').map (fun r => ((if found then some m else none) :: r.1, r.2)) := by
  simp only [reads, h]
  cases reads msgs t' with
  | error e => rfl
  | ok r => rfl

/-- After an output the rest is expanded, whatever number of messages is asked for. -/
theorem Expands.cons {t t' : Transformer I O} {o : O} {out : List O}
    (hread : ∀ msg, t.read msg = .ok (true, o, t')) (h : Expands t' out) :
    Expands t (o :: out) := by
  intro msgs
  cases msgs with
  | nil => exact ⟨t, by simp [reads], fun hlt => absurd hlt (Nat.not_lt_zero _)⟩
  | cons msg msgs =>
      obtain ⟨t₁, hrun, hend⟩ := h msgs
      refine ⟨t₁, ?_, fun hlt => hend (Nat.lt_of_succ_lt_succ hlt)⟩
      rw [reads_cons (hread msg), hrun]
      simp [Except.map]

/-- And the other way: a transformer that shows a message and then the rest shows the rest from
where it stands. -/
theorem Expands.tail {t t' : Transformer I O} {o : O} {out : List O}
    (hread : ∀ msg, t.read msg = .ok (true, o, t')) (h : Expands t (o :: out)) :
    Expands t' out := by
  intro msgs
  obtain ⟨t₁, hrun, hend⟩ := h (o :: msgs)
  rw [reads_cons (hread o)] at hrun
  cases hrest : reads msgs t' with
  | error e =>
      rw [hrest] at hrun
      cases hrun
  | ok r =>
      rw [hrest] at hrun
      simp only [Except.map, List.length_cons, List.take_succ_cons, List.map_cons,
        List.cons_append, Nat.add_sub_add_right, Except.ok.injEq, Prod.mk.injEq,
        List.cons.injEq] at hrun
      refine ⟨t₁, ?_, fun hlt => hend (Nat.succ_lt_succ hlt)⟩
      rw [← hrun.1.2, ← hrun.2]

/-- Nothing is left, from here on: each further call returns false. -/
theorem expands_exhausted (keep : Bool) : Expands (between f [] keep []) [] := by
  intro msgs
  induction msgs generalizing keep with
  | nil => exact ⟨_, rfl, fun hlt => absurd hlt (Nat.not_lt_zero _)⟩
  | cons msg msgs ih =>
      obtain ⟨t₁, hrun, hend⟩ := ih false
      rw [reads_cons (read_exhausted f keep msg), hrun]
      refine ⟨t₁, by simp [Except.map, List.replicate_succ], fun _ => ?_⟩
      cases msgs with
      | nil =>
          cases hrun
          exact ⟨rfl, rfl⟩
      | cons msg' msgs => exact hend (Nat.succ_pos _)

/-- A queue is handed out first. -/
theorem expands_queue {keep : Bool} {rest : List I} {out : List O}
    (h : Expands (between f [] keep rest) out) (q : List O) :
    Expands (between f q keep rest) (q ++ out) := by
  induction q with
  | nil => exact h
  | cons o q ih => exact ih.cons (read_queued f o q keep rest)

/-- Every input but the last one expands to something: the calls show the flat-map. The induction
is on the inputs that are left. -/
theorem expands_of_nonempty (xs : List I) (h : ∀ x ∈ xs.dropLast, f x ≠ []) :
    Expands (between f [] true xs) (xs.flatMap f) := by
  induction xs with
  | nil => exact expands_exhausted true
  | cons x xs ih =>
      have htail : ∀ y ∈ xs.dropLast, f y ≠ [] := by
        intro y hy
        cases xs with
        | nil => exact absurd hy List.not_mem_nil
        | cons z zs => exact h y (List.mem_cons_of_mem x hy)
      rw [List.flatMap_cons]
      cases hx : f x with
      | cons o os => exact (expands_queue (ih htail) os).cons (read_expanding f hx xs)
      | nil =>
          -- Only the last input expands to nothing, so the input is exhausted with it.
          cases xs with
          | cons z zs => exact absurd hx (h x List.mem_cons_self)
          | nil =>
              intro msgs
              cases msgs with
              | nil => exact ⟨_, rfl, fun hlt => absurd hlt (Nat.not_lt_zero _)⟩
              | cons msg msgs =>
                  obtain ⟨t₁, hrun, hend⟩ := expands_exhausted (f := f) true msgs
                  rw [reads_cons (read_silent f hx [] msg), hrun]
                  refine ⟨t₁, by simp [Except.map, List.replicate_succ], fun _ => ?_⟩
                  cases msgs with
                  | nil =>
                      cases hrun
                      exact ⟨rfl, rfl⟩
                  | cons msg' msgs => exact hend (Nat.succ_pos _)

/-- What is in the queue is given out first, before the source is asked again. -/
theorem Expands.queue {keep : Bool} {rest : List I} {out : List O} (q : List O)
    (h : Expands (between f q keep rest) (q ++ out)) : Expands (between f [] keep rest) out := by
  induction q with
  | nil => exact h
  | cons o q ih => exact ih (h.tail (read_queued f o q keep rest))

/-- When the calls show the flat-map, every input but the last one expands to something. An input
that does not ends the calls, and the message of a later one is then missing. -/
theorem Expands.nonempty [Message O] (xs : List I)
    (h : Expands (between f [] true xs) (xs.flatMap f)) : ∀ x ∈ xs.dropLast, f x ≠ [] := by
  induction xs with
  | nil => exact fun x hx => absurd hx List.not_mem_nil
  | cons x xs ih =>
      cases xs with
      | nil => exact fun y hy => absurd hy List.not_mem_nil
      | cons z zs =>
          rw [List.flatMap_cons] at h
          cases hx : f x with
          | nil =>
              -- The first call returns `false`, and the next input is still unread.
              rw [hx] at h
              obtain ⟨t₁, hrun, hend⟩ := h [Message.empty]
              rw [reads_cons (read_silent f hx (z :: zs) Message.empty)] at hrun
              simp only [reads, Except.map, Except.ok.injEq, Prod.mk.injEq, List.nil_append] at hrun
              have hlen : ((z :: zs).flatMap f).length = 0 := by
                cases hout : (z :: zs).flatMap f with
                | nil => rfl
                | cons o os =>
                    rw [hout] at hrun
                    simp at hrun
              have hrest := (hend (by rw [List.nil_append, hlen]; exact Nat.one_pos)).2
              rw [← hrun.2] at hrest
              exact absurd hrest (List.cons_ne_nil z zs)
          | cons o os =>
              rw [hx] at h
              have hxs := ih (Expands.queue os (h.tail (read_expanding f hx (z :: zs))))
              intro y hy
              rcases List.mem_cons.mp hy with rfl | hy
              · rw [hx]
                exact List.cons_ne_nil o os
              · exact hxs y hy

end Calls

/-- A transformer over the inputs `xs` is their flat-map by `f`: the calls of `read` show the
outputs of all inputs in order, and return `false` only when the input is exhausted and all
outputs are delivered, and from then on. -/
def FlatMaps (f : I → List O) (xs : List I) : Prop :=
  ∀ total, Expands (Transformer.new { total := total, msgs := xs } (fun x => .ok (f x)))
    (xs.flatMap f)

/-- A transformer is a flat-map exactly when every input but the last one expands to
something. -/
theorem transformer_flatMap_iff [Message O] (f : I → List O) (xs : List I) :
    FlatMaps f xs ↔ ∀ x ∈ xs.dropLast, f x ≠ [] :=
  ⟨fun h => Expands.nonempty xs (h 0), fun h _ => expands_of_nonempty xs h⟩

/-- A table where the first word has no lemma: the pair with that word expands to nothing,
and the pair behind it is not shown. -/
theorem transformer_stops :
    ¬ FlatMaps (Transformer.outputs (extendGram [[], [1]]))
        [(⟨(1, 2), 1⟩ : Bigram), ⟨(2, 2), 1⟩] := by
  intro h
  exact Expands.nonempty _ (h 0) ⟨(1, 2), 1⟩ (by decide) rfl

end Colloc.Proofs

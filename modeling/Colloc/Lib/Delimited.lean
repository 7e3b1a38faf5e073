import Mathlib.Data.List.Basic

/-!
# `Colloc.Lib.Delimited`: streams of delimited messages

A stream is a sequence of messages, each written so that a reader knows where it ends. The
reader merges a message into a target. `Delimited` is the pair of functions, and `Lawful` says
of one message that it is read back from the front of any stream, and that a proper prefix of
its bytes is not taken for it: the read fails, consumes the rest, and leaves in the target what
it could merge.

`Holds` relates the messages of a stream that was cut at some byte to its bytes. One read of
such a stream takes its first message (`Holds.parse_cons`) or fails at its end
(`Holds.parse_nil`). `readAll` collects the messages of a stream, and from a stream of lawful
messages it gives exactly those that are complete before the cut (`readAll_take`).
-/

set_option autoImplicit false

namespace Colloc.Lib

/-- A way to write messages to a stream of `β`s, and to merge the next one into a target. The
result of `parse` is whether a message was read, the target, and the rest of the stream. -/
structure Delimited (M β : Type) where
  serialize : M → List β
  parse : M → List β → Bool × M × List β
  parse_takes : ∀ target bytes m rest,
    parse target bytes = (true, m, rest) → rest.length < bytes.length
  parse_end : ∀ target, parse target [] = (false, target, [])

/-- The message `m` on the stream. -/
structure Delimited.Lawful {M β : Type} (w : Delimited M β) (merge : M → M → M) (m : M) :
    Prop where
  parse_serialize : ∀ target rest,
    w.parse target (w.serialize m ++ rest) = (true, merge target m, rest)
  parse_cut : ∀ cut, cut <+: w.serialize m → cut ≠ w.serialize m →
    ∃ part, ∀ target, w.parse target cut = (false, merge target part, [])

namespace Delimited

variable {M β : Type} (w : Delimited M β)

/-- The messages `msgs`, one after the other. -/
def stream (msgs : List M) : List β := msgs.flatMap w.serialize

/-- No message, no byte. -/
@[simp] theorem stream_nil : w.stream [] = [] := rfl

/-- The messages stand one behind the other. -/
@[simp] theorem stream_cons (m : M) (msgs : List M) :
    w.stream (m :: msgs) = w.serialize m ++ w.stream msgs := rfl

/-- The messages of `msgs` that end within the first `cut` bytes of their stream. -/
def complete : List M → Nat → List M
  | [], _ => []
  | m :: msgs, cut =>
      if (w.serialize m).length ≤ cut then m :: complete msgs (cut - (w.serialize m).length)
      else []

/-- All messages are complete when the cut is behind the last one, and only then. Each message
takes at least one byte, that of its length. -/
theorem complete_eq_iff (msgs : List M) :
    ∀ cut, w.complete msgs cut = msgs ↔ (w.stream msgs).length ≤ cut := by
  induction msgs with
  | nil => simp [complete]
  | cons m msgs ih =>
      intro cut
      rw [stream_cons, List.length_append, complete]
      by_cases hm : (w.serialize m).length ≤ cut
      · rw [if_pos hm, List.cons_inj_right, ih]
        omega
      · rw [if_neg hm]
        simp only [List.nil_eq, reduceCtorEq, false_iff]
        omega

/-- The reads of a loop that clears the target to `fresh` before each of them, with a bound
on their number. -/
def readLoop (fresh : M) : Nat → List β → List M
  | 0, _ => []
  | n + 1, bytes =>
      match w.parse fresh bytes with
      | (true, m, rest) => m :: readLoop fresh n rest
      | (false, _, _) => []

/-- The messages of a stream. Each takes a byte, so the bound is not reached before the end. -/
def readAll (fresh : M) (bytes : List β) : List M := w.readLoop fresh bytes.length bytes

variable {w} {merge : M → M → M} {P : M → Prop}

variable (w P) in
/-- The bytes hold the messages `msgs`, and behind them at most a proper part of one more.
All of them satisfy `P`. -/
inductive Holds : List M → List β → Prop where
  | done : Holds [] []
  | cut {m : M} {part : List β} : P m → part <+: w.serialize m → part ≠ w.serialize m →
      Holds [] part
  | more {m : M} {msgs : List M} {bytes : List β} : P m → Holds msgs bytes →
      Holds (m :: msgs) (w.serialize m ++ bytes)

/-- A stream that is cut at any byte holds the messages that are complete before the cut. The
induction is on the messages: the cut is behind the first one, or inside it and nothing follows.
-/
theorem holds_take (msgs : List M) :
    ∀ cut, (∀ m ∈ msgs, P m) →
      Holds w P (w.complete msgs cut) ((w.stream msgs).take cut) := by
  induction msgs with
  | nil =>
      intro cut _
      rw [stream_nil, List.take_nil]
      exact Holds.done
  | cons m msgs ih =>
      intro cut hP
      have hm := hP m List.mem_cons_self
      rw [stream_cons, List.take_append, complete]
      by_cases hcut : (w.serialize m).length ≤ cut
      · rw [if_pos hcut, List.take_of_length_le hcut]
        exact Holds.more hm (ih _ (fun m' hm' => hP m' (List.mem_cons_of_mem m hm')))
      · -- The cut is inside `m`.
        have hzero : cut - (w.serialize m).length = 0 := by omega
        rw [if_neg hcut, hzero, List.take_zero, List.append_nil]
        refine Holds.cut hm (List.take_prefix cut _) (fun heq => ?_)
        have hlen := congrArg List.length heq
        rw [List.length_take] at hlen
        omega

/-- A whole stream holds its messages. -/
theorem holds_stream (msgs : List M) (hP : ∀ m ∈ msgs, P m) :
    Holds w P msgs (w.stream msgs) := by
  induction msgs with
  | nil => exact Holds.done
  | cons m msgs ih =>
      exact Holds.more (hP m List.mem_cons_self)
        (ih (fun m' hm' => hP m' (List.mem_cons_of_mem m hm')))

/-- A stream with no complete message left: the read fails, and finds the end next time. -/
theorem Holds.parse_nil (hP : ∀ m, P m → w.Lawful merge m) {bytes : List β}
    (h : Holds w P [] bytes) :
    ∃ left : M → M, ∀ target, w.parse target bytes = (false, left target, []) := by
  cases h with
  | done => exact ⟨id, w.parse_end⟩
  | cut hm hpre hne =>
      obtain ⟨part, hpart⟩ := (hP _ hm).parse_cut _ hpre hne
      exact ⟨fun target => merge target part, hpart⟩

/-- A stream with a complete message: the read takes it. -/
theorem Holds.parse_cons (hP : ∀ m, P m → w.Lawful merge m) {m : M} {msgs : List M}
    {bytes : List β} (h : Holds w P (m :: msgs) bytes) :
    ∃ rest, (∀ target, w.parse target bytes = (true, merge target m, rest)) ∧
      Holds w P msgs rest := by
  cases h with
  | more hm hrest => exact ⟨_, fun target => (hP m hm).parse_serialize target _, hrest⟩

/-- The same with what the read leaves in its target, when merging `fresh` changes no target. -/
theorem Holds.parse_part (hP : ∀ m, P m → w.Lawful merge m) {fresh : M}
    (hfresh : ∀ target, merge target fresh = target) {bytes : List β} (h : Holds w P [] bytes) :
    ∃ part, ∀ target, w.parse target bytes = (false, merge target part, []) := by
  cases h with
  | done => exact ⟨fresh, fun target => by rw [w.parse_end, hfresh]⟩
  | cut hm hpre hne => exact (hP _ hm).parse_cut _ hpre hne

/-- The messages are in front, and behind them no complete one. -/
theorem Holds.split {msgs : List M} {bytes : List β} (h : Holds w P msgs bytes) :
    ∃ tail, bytes = w.stream msgs ++ tail ∧ Holds w P [] tail := by
  induction h with
  | done => exact ⟨[], rfl, Holds.done⟩
  | cut hm hpre hne => exact ⟨_, rfl, Holds.cut hm hpre hne⟩
  | more _ _ ih =>
      obtain ⟨tail, rfl, htail⟩ := ih
      exact ⟨tail, by rw [stream_cons, List.append_assoc], htail⟩

/-- The first message is in front of what holds the others. -/
theorem Holds.uncons {m : M} {msgs : List M} {bytes : List β} (h : Holds w P (m :: msgs) bytes) :
    ∃ rest, bytes = w.serialize m ++ rest ∧ Holds w P msgs rest := by
  cases h with
  | more _ hrest => exact ⟨_, rfl, hrest⟩

/-- All messages that the bytes hold satisfy `P`. The induction is on the bytes, message by
message. -/
theorem Holds.all {msgs : List M} {bytes : List β} (h : Holds w P msgs bytes) :
    ∀ m ∈ msgs, P m := by
  induction h with
  | done => exact fun m hm => absurd hm List.not_mem_nil
  | cut _ _ _ => exact fun m hm => absurd hm List.not_mem_nil
  | more hm _ ih =>
      intro m' hm'
      rcases List.mem_cons.mp hm' with rfl | hm'
      · exact hm
      · exact ih m' hm'

/-- What parsing any part of a message keeps of the target is kept by a read of the stream. The
read sees a whole message, a part of one, or nothing. -/
theorem Holds.keeps (hP : ∀ m, P m → w.Lawful merge m) {S : M → Prop}
    (hS : ∀ m, P m → ∀ part, part <+: w.serialize m → ∀ target, S target →
      S (w.parse target part).2.1)
    {msgs : List M} {bytes : List β} (h : Holds w P msgs bytes) {target : M} (ht : S target) :
    S (w.parse target bytes).2.1 := by
  cases h with
  | done =>
      rw [w.parse_end]
      exact ht
  | cut hm hpre _ => exact hS _ hm _ hpre target ht
  | @more m msgs bytes hm _ =>
      have hwhole := hS m hm _ List.prefix_rfl target ht
      have halone := (hP m hm).parse_serialize target []
      rw [List.append_nil] at halone
      rw [halone] at hwhole
      rw [(hP m hm).parse_serialize]
      exact hwhole

/-- The loop meets the messages that the stream holds. The induction is on the bound, which is not
reached first because each message takes a byte. -/
theorem Holds.readLoop_eq (hP : ∀ m, P m → w.Lawful merge m) {fresh : M}
    (hfresh : ∀ m, merge fresh m = m) (n : Nat) :
    ∀ (msgs : List M) (bytes : List β), Holds w P msgs bytes → bytes.length ≤ n →
      w.readLoop fresh n bytes = msgs := by
  induction n with
  | zero =>
      intro msgs bytes h hn
      cases msgs with
      | nil => rfl
      | cons m msgs =>
          -- A message takes a byte.
          obtain ⟨rest, hparse, _⟩ := h.parse_cons hP
          have hlt := w.parse_takes _ _ _ _ (hparse fresh)
          omega
  | succ n ih =>
      intro msgs bytes h hn
      cases msgs with
      | nil =>
          obtain ⟨left, hparse⟩ := h.parse_nil hP
          rw [readLoop, hparse]
      | cons m msgs =>
          obtain ⟨rest, hparse, hrest⟩ := h.parse_cons hP
          have hlt := w.parse_takes _ _ _ _ (hparse fresh)
          rw [readLoop, hparse]
          simp only
          rw [hfresh, ih msgs rest hrest (by omega)]

/-- Reading into fresh targets gives the complete messages, and stops at what is behind them. -/
theorem Holds.readAll_eq (hP : ∀ m, P m → w.Lawful merge m) {fresh : M}
    (hfresh : ∀ m, merge fresh m = m) {msgs : List M} {bytes : List β}
    (h : Holds w P msgs bytes) : w.readAll fresh bytes = msgs :=
  h.readLoop_eq hP hfresh _ _ _ (Nat.le_refl _)

/-- Reading a stream that is cut at any byte gives the messages that are complete before the
cut. -/
theorem readAll_take {fresh : M} (hfresh : ∀ m, merge fresh m = m) {msgs : List M}
    (hw : ∀ m ∈ msgs, w.Lawful merge m) (cut : Nat) :
    w.readAll fresh ((w.stream msgs).take cut) = w.complete msgs cut :=
  (holds_take msgs cut hw).readAll_eq (fun _ h => h) hfresh

end Delimited

end Colloc.Lib

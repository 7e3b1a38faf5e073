import Colloc.Spec.Grams

/-!
# `Colloc.Spec.Streamer`: record files

A record file is a header and a sequence of delimited messages. The encoding of one message
round-trips, so the model keeps the messages themselves, and the header's `total`. The
header's `msg_type` is the type argument: `IFStreamer` rejects a file of another type, and
here such a file is not a value of the type.

`IFStreamer.read` merges the next message into its target and leaves the target alone at the
end of the file. `readApply` clears the target before each read. The other readers pass a
target that was just moved from.

`MessageReader` is what `KMergeIterator` asks of the readers it merges, and `InStream` what
`ExternalSorter` asks of its template argument `S`. `InStream.size` bounds the reads that are
left. No stage looks at it: it only bounds the loops over a stream.
-/

set_option autoImplicit false

namespace Colloc.Spec

/-- The content of a protobuf file: the header's `total` and the messages. -/
structure RecordFile (M : Type) where
  total : Nat
  msgs : List M
  deriving Repr, DecidableEq

/-- A file stream: the messages not yet parsed. -/
structure IFStreamer (M : Type) where
  rest : List M
  deriving Repr, DecidableEq

/-- The constructor parses the header. -/
def IFStreamer.open {M : Type} (file : RecordFile M) : IFStreamer M := ⟨file.msgs⟩

/-- `bool read(M &msg)`: the result, the target after the call, and the stream. -/
def IFStreamer.read {M : Type} [Message M] (is : IFStreamer M) (msg : M) :
    Bool × M × IFStreamer M :=
  match is.rest with
  -- The parse fails at the end of the file, and the target keeps its value.
  | [] => (false, msg, is)
  | m :: rest => (true, Message.mergeFrom msg m, ⟨rest⟩)

/-- `bool read(M &msg)` of a reader: the result, the target after the call, and the reader. -/
class MessageReader (Rd : Type) (M : outParam Type) where
  read : Rd → M → Bool × M × Rd

instance {M : Type} [Message M] : MessageReader (IFStreamer M) M := ⟨IFStreamer.read⟩

/-- Opening a file for reading: the constructor of `IFStreamer` throws when the file is not
there. The text goes on with what `strerror` says, which is left out. -/
def openFile {α : Type} (fname : String) (file : Option α) : Except Error α :=
  match file with
  | some f => .ok f
  | none => .error (.runtime ("could't open file " ++ fname))

/-- `read_total`. -/
def readTotal {M : Type} (file : RecordFile M) : Nat := file.total

/-- `read_apply`: `fn` on each message, parsed into a cleared target. -/
def readApply {M σ : Type} [Message M] (file : RecordFile M)
    (fn : σ → M → Except Error σ) (s : σ) : Except Error σ :=
  file.msgs.foldlM (fun s m => fn s (Message.mergeFrom Message.empty m)) s

/-- `read_apply` is a fold over the messages of the file, which stops at the first error. -/
theorem readApply_eq {M σ : Type} [Message M] (file : RecordFile M)
    (fn : σ → M → Except Error σ) (s : σ) :
    readApply file fn s = file.msgs.foldlM fn s := by
  unfold readApply
  simp only [Message.empty_mergeFrom]

/-- A reader that cannot fail folds over the messages. -/
theorem readApply_pure {M σ : Type} [Message M] (file : RecordFile M) (f : σ → M → σ) (s : σ) :
    readApply file (fun s m => .ok (f s m)) s = .ok (file.msgs.foldl f s) := by
  rw [readApply_eq]
  exact List.foldlM_pure

/-- What a reader template asks of a stream of messages. -/
class InStream (S : Type) (M : outParam Type) where
  read : S → M → Except Error (Bool × M × S)
  size : S → Nat
  size_lt : ∀ s msg m s', read s msg = .ok (true, m, s') → size s' < size s

instance {M : Type} [Message M] : InStream (IFStreamer M) M where
  read is msg := .ok (is.read msg)
  size is := is.rest.length
  size_lt is msg m is' h := by
    have hread := Except.ok.inj h
    unfold IFStreamer.read at hread
    cases hr : is.rest with
    | nil => rw [hr] at hread; cases hread
    | cons x rest => rw [hr] at hread; cases hread; simp

/-- `Transformer<I, O>`: a queue of outputs, refilled from the input stream by `fn`. -/
structure Transformer (I O : Type) where
  q : List O
  keep : Bool
  is : IFStreamer I
  fn : I → Except Error (List O)

namespace Transformer

variable {I O : Type} [Message I]

/-- The constructor. -/
def new (file : RecordFile I) (fn : I → Except Error (List O)) : Transformer I O :=
  { q := [], keep := true, is := IFStreamer.open file, fn := fn }

/-- The first half of `read`: one refill attempt when the queue is empty. -/
def refill (t : Transformer I O) : Except Error (Transformer I O) :=
  if t.q.isEmpty && t.keep then
    match t.is.read Message.empty with
    -- The input is exhausted: `keep` stays false, and no later read tries again.
    | (false, _, is) => .ok { t with keep := false, is := is }
    | (true, bim, is) =>
        match t.fn bim with
        | .error e => .error e
        | .ok out => .ok { t with keep := true, is := is, q := t.q ++ out }
  else .ok t

/-- `bool read(O &msg)`. -/
def read (t : Transformer I O) (msg : O) : Except Error (Bool × O × Transformer I O) :=
  match t.refill with
  | .error e => .error e
  | .ok t =>
      match t.q with
      | front :: q => .ok (true, front, { t with q := q })
      -- Also when `fn` gave no output for an input: the queue is empty after one refill.
      | [] => .ok (false, msg, t)

/-- The outputs of one input, none when `fn` throws on it. -/
def outputs (fn : I → Except Error (List O)) (x : I) : List O :=
  match fn (Message.mergeFrom Message.empty x) with
  | .ok out => out
  | .error _ => []

/-- The outputs in the queue and those of the inputs not yet read. -/
def pending (t : Transformer I O) : List O := t.q ++ t.is.rest.flatMap (outputs t.fn)

/-- A refill keeps the pending outputs and the function: the outputs of the input that was read
are in the queue now, and were ahead of the others before. -/
theorem refill_spec {t t' : Transformer I O} (h : t.refill = .ok t') :
    t'.pending = t.pending ∧ t'.fn = t.fn := by
  unfold refill at h
  split at h
  · unfold IFStreamer.read at h
    cases hr : t.is.rest with
    | nil =>
        rw [hr] at h
        cases h
        exact ⟨rfl, rfl⟩
    | cons x rest =>
        rw [hr] at h
        cases hf : t.fn (Message.mergeFrom Message.empty x) with
        | error e => simp only [hf] at h; cases h
        | ok out =>
            simp only [hf] at h
            cases h
            refine ⟨?_, rfl⟩
            simp [pending, hr, outputs, hf]
  · cases h
    exact ⟨rfl, rfl⟩

/-- A read that returns `true` hands out the first pending output. The refill keeps the pending
outputs, and the front of the queue is the first of them. -/
theorem read_true {t t' : Transformer I O} {msg m : O}
    (h : t.read msg = .ok (true, m, t')) : t.pending = m :: t'.pending ∧ t'.fn = t.fn := by
  unfold read at h
  cases hr : t.refill with
  | error e => rw [hr] at h; cases h
  | ok t₁ =>
      obtain ⟨hp, hfn⟩ := refill_spec hr
      rw [hr] at h
      cases hq : t₁.q with
      | nil => simp only [hq] at h; cases h
      | cons front q =>
          simp only [hq] at h
          cases h
          refine ⟨?_, hfn⟩
          rw [← hp]
          simp [pending, hq]

end Transformer

instance {I O : Type} [Message I] : InStream (Transformer I O) O where
  read t msg := t.read msg
  size t := t.pending.length
  size_lt t msg m t' h := by
    -- A successful read takes one of the pending outputs.
    rw [(Transformer.read_true h).1, List.length_cons]
    exact Nat.lt_succ_self _

end Colloc.Spec

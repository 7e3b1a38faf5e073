import Colloc.Spec.Convert

/-!
# `Colloc.Spec.Capnp`: the bytes of `corpus.bin`

`write_phrase` appends a packed message to `corpus.bin`, and `read_fn` parses messages as long
as the stream has bytes left. The Cap'n Proto library is not part of the repository: `Capnp`
names the two functions the stages call, as parameters. The other modules work with the list
of phrases.
-/

set_option autoImplicit false

namespace Colloc.Spec

/-- Packed messages with a `Phrase` as their root. A message has a segment table, so its
reader takes at least one byte. -/
structure Capnp where
  writePackedMessage : Phrase → Bytes
  packedMessageReader : Bytes → Except Error (Phrase × Bytes)
  reader_takes : ∀ bytes ids rest,
    packedMessageReader bytes = .ok (ids, rest) → rest.length < bytes.length

/-- `corpus.bin` with the phrases that were written. -/
def corpusFile (capnp : Capnp) (phrases : List Phrase) : Bytes :=
  phrases.flatMap capnp.writePackedMessage

section
variable {σ : Type} (capnp : Capnp) (fn : σ → Phrase → Except Error σ)

/-- The loop of `read_fn`, with a bound on the messages that are left. -/
def readMessages : Nat → Bytes → σ → Except Error σ
  | 0, _, s => .ok s
  | n + 1, bytes, s =>
      -- `tryGetReadBuffer` finds no byte at the end of the file.
      if bytes.isEmpty then .ok s
      else
        match capnp.packedMessageReader bytes with
        | .error e => .error e
        | .ok (ids, rest) =>
            match fn s ids with
            | .error e => .error e
            | .ok s => readMessages n rest s

/-- `read_fn`. A message takes at least one byte, so the bound is never reached before the end
of the file. -/
def readFn (bytes : Bytes) (s : σ) : Except Error σ :=
  readMessages capnp fn bytes.length bytes s

/-- The bound on the messages does not matter once it is at least the number of bytes, since each
message takes a byte. -/
theorem readMessages_eq (n : Nat) :
    ∀ (m : Nat) (bytes : Bytes) (s : σ), bytes.length ≤ n → bytes.length ≤ m →
      readMessages capnp fn n bytes s = readMessages capnp fn m bytes s := by
  induction n with
  | zero =>
      intro m bytes s hn _
      have hnil : bytes = [] := List.eq_nil_of_length_eq_zero (Nat.le_zero.mp hn)
      subst hnil
      cases m with
      | zero => rfl
      | succ m => rfl
  | succ n ih =>
      intro m bytes s hn hm
      cases m with
      | zero =>
          have hnil : bytes = [] := List.eq_nil_of_length_eq_zero (Nat.le_zero.mp hm)
          subst hnil
          rfl
      | succ m =>
          simp only [readMessages]
          cases hread : capnp.packedMessageReader bytes with
          | error e => rfl
          | ok res =>
              obtain ⟨ids, rest⟩ := res
              have hlt := capnp.reader_takes bytes ids rest hread
              simp only
              cases fn s ids with
              | error e => rfl
              | ok s' =>
                  simp only
                  rw [ih m rest s' (by omega) (by omega)]

/-- At the end of the file nothing more is read. -/
@[simp] theorem readFn_nil (s : σ) : readFn capnp fn [] s = .ok s := rfl

/-- One message and the rest of the file. The reader takes at least a byte, so the bound on the
passes, which is the number of bytes, is kept. -/
theorem readFn_cons {bytes rest : Bytes} {ids : Phrase} (hne : bytes ≠ [])
    (hread : capnp.packedMessageReader bytes = .ok (ids, rest)) (s : σ) :
    readFn capnp fn bytes s = (fn s ids).bind (readFn capnp fn rest) := by
  have hlt := capnp.reader_takes bytes ids rest hread
  obtain ⟨n, hn⟩ : ∃ n, bytes.length = n + 1 := ⟨bytes.length - 1, by omega⟩
  have hempty : bytes.isEmpty = false := by simpa using hne
  unfold readFn
  rw [hn, readMessages, hempty, hread]
  simp only [Bool.false_eq_true, if_false]
  cases fn s ids with
  | error e => rfl
  | ok s' => exact readMessages_eq capnp fn n rest.length rest s' (by omega) (Nat.le_refl _)

end

/-- A written message is read back, whatever follows it in the stream. -/
structure Capnp.RoundTrips (capnp : Capnp) (ids : Phrase) : Prop where
  ne_nil : capnp.writePackedMessage ids ≠ []
  read_write : ∀ rest, capnp.packedMessageReader (capnp.writePackedMessage ids ++ rest)
    = .ok (ids, rest)

/-- Reading a corpus back calls `fn` on its phrases, in order. Each phrase is read back by itself
from the front of the file. -/
theorem readFn_corpusFile {σ : Type} (capnp : Capnp) (fn : σ → Phrase → Except Error σ)
    {phrases : List Phrase} (h : ∀ ids ∈ phrases, capnp.RoundTrips ids) :
    ∀ s, readFn capnp fn (corpusFile capnp phrases) s = phrases.foldlM fn s := by
  induction phrases with
  | nil => exact readFn_nil capnp fn
  | cons ids phrases ih =>
      intro s
      have hids := h ids List.mem_cons_self
      have hrest := ih (fun ids' hids' => h ids' (List.mem_cons_of_mem ids hids'))
      have hcons : corpusFile capnp (ids :: phrases)
          = capnp.writePackedMessage ids ++ corpusFile capnp phrases := rfl
      rw [hcons, readFn_cons capnp fn _ (hids.read_write _), List.foldlM_cons]
      · cases fn s ids with
        | error e => rfl
        | ok s' => exact hrest s'
      · exact fun hnil => hids.ne_nil (List.append_eq_nil_iff.mp hnil).1

end Colloc.Spec

import Colloc.Spec.WireFormat

/-!
# `Colloc.Proofs.RecordFile`: what a failing disk leaves of a record file

`OFStreamer` sees a failed write when it puts the next piece into the stream. The flush of
`Close` comes after the last piece, and its result is dropped. `writeFile_eq` says what a
streamer that writes a list of messages leaves: an exception when the descriptor has refused a
byte before `Close`, and else the bytes for which there was room.

`readFile_take` says what a reader makes of a file that ends early: an exception when the
header is cut, and else the messages that are complete. `noSilentLoss_iff` puts the two
together.
-/

set_option autoImplicit false

namespace Colloc.Proofs

open Colloc.Lib
open Colloc.Spec
open Colloc.Spec.Wire

section
variable {M : Type} (fmt : Format M) (out : FileOutputStream) (d : Descriptor) (fname : String)

/-- The header that the constructor writes. -/
def headerOf (total : UInt64) : Header := { msgType := fmt.name, total := total }

/-- The pieces that a streamer puts into its stream: the header, and the messages. -/
def pieces (total : UInt64) (msgs : List M) : List Bytes :=
  fmt.header.serialize (headerOf fmt total) :: msgs.map fmt.msg.serialize

/-- The pieces that the writer hands over are the bytes of the file, in order. -/
theorem flatten_pieces (total : UInt64) (msgs : List M) :
    (pieces fmt total msgs).flatten = fileBytes fmt total msgs := by
  rw [pieces, List.flatten_cons, ← List.flatMap_def]
  rfl

/-- What has been flushed stays flushed. -/
theorem flushed_append (puts more : List Nat) :
    out.flushed puts ≤ out.flushed (puts ++ more) := by
  induction more generalizing puts with
  | nil => rw [List.append_nil]
  | cons n more ih =>
      have hstep := out.flushed_mono puts n
      have hrest := ih (puts ++ [n])
      rw [List.append_assoc, List.singleton_append] at hrest
      exact Nat.le_trans hstep hrest

/-- A `write` fails when a flush was refused. -/
theorem write_eq (os : OFStreamer) (m : M) :
    OFStreamer.write fmt out d fname os m
      = if out.flushed ((os.puts ++ [fmt.msg.serialize m]).map List.length) ≤ d.room then
          .ok ⟨os.puts ++ [fmt.msg.serialize m]⟩
        else .error (.runtime (fname ++ ": writing failed")) := by
  by_cases h : out.flushed ((os.puts ++ [fmt.msg.serialize m]).map List.length) ≤ d.room
  · simp only [OFStreamer.write, OFStreamer.serialize, h, decide_true, if_true]
  · simp only [OFStreamer.write, OFStreamer.serialize, h, decide_false, if_false]

/-- The constructor succeeds when the header fits, as far as it is flushed. What stays in the
buffer is not checked. -/
theorem new_eq (total : UInt64) (hfd : ¬d.fd < 0) :
    OFStreamer.new fmt out d fname total
      = if out.flushed ([fmt.header.serialize (headerOf fmt total)].map List.length) ≤ d.room then
          .ok ⟨[fmt.header.serialize (headerOf fmt total)]⟩
        else .error (.runtime (fname ++ ": header writing failed")) := by
  have hput : OFStreamer.serialize out d ⟨[]⟩ (fmt.header.serialize (headerOf fmt total))
      = (decide (out.flushed ([fmt.header.serialize (headerOf fmt total)].map List.length)
          ≤ d.room), ⟨[fmt.header.serialize (headerOf fmt total)]⟩) := rfl
  unfold OFStreamer.new
  rw [if_neg hfd]
  simp only [show ({ msgType := fmt.name, total := total } : Header) = headerOf fmt total from rfl,
    hput]
  by_cases h : out.flushed ([fmt.header.serialize (headerOf fmt total)].map List.length) ≤ d.room
  · simp only [h, decide_true, if_true]
  · simp only [h, decide_false, if_false]

/-- The writes of a streamer whose descriptor has taken all that was flushed. They succeed as long
as what is flushed fits; the induction is on the messages that are still to come. -/
theorem foldlM_write (msgs : List M) :
    ∀ os : OFStreamer, out.flushed (os.puts.map List.length) ≤ d.room →
      msgs.foldlM (OFStreamer.write fmt out d fname) os
        = if out.flushed ((os.puts ++ msgs.map fmt.msg.serialize).map List.length) ≤ d.room then
            .ok ⟨os.puts ++ msgs.map fmt.msg.serialize⟩
          else .error (.runtime (fname ++ ": writing failed")) := by
  induction msgs with
  | nil =>
      intro os hos
      rw [List.map_nil, List.append_nil, if_pos hos]
      rfl
  | cons m msgs ih =>
      intro os hos
      have hsplit : os.puts ++ (m :: msgs).map fmt.msg.serialize
          = (os.puts ++ [fmt.msg.serialize m]) ++ msgs.map fmt.msg.serialize := by simp
      rw [List.foldlM_cons, write_eq, hsplit]
      by_cases hput : out.flushed ((os.puts ++ [fmt.msg.serialize m]).map List.length) ≤ d.room
      · rw [if_pos hput]
        exact ih ⟨os.puts ++ [fmt.msg.serialize m]⟩ hput
      · -- A refused flush is seen at once, and what comes later does not undo it.
        have hmore := flushed_append out
          ((os.puts ++ [fmt.msg.serialize m]).map List.length)
          ((msgs.map fmt.msg.serialize).map List.length)
        rw [← List.map_append] at hmore
        rw [if_neg hput, if_neg (by omega)]
        rfl

/-- The descriptor has refused a flush before `Close`. -/
def FlushRefused (total : UInt64) (msgs : List M) : Prop :=
  d.room < out.flushed ((pieces fmt total msgs).map List.length)

/-- A streamer throws when the file does not open or a flush is refused before `Close`. Else the
file is as much as the descriptor takes. -/
theorem writeFile_eq (total : UInt64) (msgs : List M) :
    ((d.fd < 0 ∨ FlushRefused fmt out d total msgs) ∧
        ∃ e, writeFile fmt out d fname total msgs = .error e) ∨
      (¬(d.fd < 0 ∨ FlushRefused fmt out d total msgs) ∧
        writeFile fmt out d fname total msgs = .ok ((fileBytes fmt total msgs).take d.room)) := by
  by_cases hfd : d.fd < 0
  · refine Or.inl ⟨Or.inl hfd, .runtime ("could't open file " ++ fname), ?_⟩
    simp only [writeFile, OFStreamer.new, hfd, if_true]
  have hmore := flushed_append out
    ([fmt.header.serialize (headerOf fmt total)].map List.length)
    ((msgs.map fmt.msg.serialize).map List.length)
  rw [← List.map_append] at hmore
  unfold writeFile FlushRefused
  rw [new_eq fmt out d fname total hfd]
  by_cases hhead : out.flushed ([fmt.header.serialize (headerOf fmt total)].map List.length)
      ≤ d.room
  · have hrun := foldlM_write fmt out d fname msgs ⟨_⟩ hhead
    rw [if_pos hhead]
    simp only [hrun]
    by_cases hall : out.flushed ((pieces fmt total msgs).map List.length) ≤ d.room
    · refine Or.inr ⟨by omega, ?_⟩
      rw [← flatten_pieces]
      simp only [show out.flushed (([fmt.header.serialize (headerOf fmt total)]
        ++ msgs.map fmt.msg.serialize).map List.length) ≤ d.room from hall, if_true]
      rfl
    · refine Or.inl ⟨Or.inr (by omega), .runtime (fname ++ ": writing failed"), ?_⟩
      simp only [show ¬out.flushed (([fmt.header.serialize (headerOf fmt total)]
        ++ msgs.map fmt.msg.serialize).map List.length) ≤ d.room from hall, if_false]
  · -- The header was refused already.
    rw [if_neg hhead]
    exact Or.inl ⟨Or.inr (Nat.lt_of_lt_of_le (Nat.lt_of_not_le hhead) hmore), _, rfl⟩

end

section
variable {M : Type} [Message M] (fmt : Format M) (fname : String)

omit [Message M] in
/-- The constructor of a reader, on a file that ends early. It fails in the header, or it leaves
the part of the body that is there. -/
theorem openStream_take {total : UInt64}
    (hh : fmt.header.Lawful Message.mergeFrom (headerOf fmt total)) (body : Bytes) (room : Nat) :
    openStream fmt fname
        (some ((fmt.header.serialize (headerOf fmt total) ++ body).take room))
      = if (fmt.header.serialize (headerOf fmt total)).length ≤ room then
          .ok (headerOf fmt total,
            body.take (room - (fmt.header.serialize (headerOf fmt total)).length))
        else .error (.runtime (fname ++ ": could't read file header")) := by
  rw [List.take_append]
  by_cases hroom : (fmt.header.serialize (headerOf fmt total)).length ≤ room
  · rw [if_pos hroom, List.take_of_length_le hroom]
    simp only [openStream, openFile, hh.parse_serialize, Message.empty_mergeFrom]
    rw [if_neg (fun hne => hne rfl)]
  · have hzero : room - (fmt.header.serialize (headerOf fmt total)).length = 0 := by omega
    obtain ⟨part, hpart⟩ := hh.parse_cut _ (List.take_prefix room _) (fun heq => by
      have hlen := congrArg List.length heq
      rw [List.length_take] at hlen
      omega)
    rw [if_neg hroom, hzero, List.take_zero, List.append_nil]
    simp only [openStream, openFile, hpart]

/-- `read_apply` on a file that ends early. `fn` is called on the complete messages, and the one
that is cut ends the loop as the end of the file does. -/
theorem readApply_take {total : UInt64} {msgs : List M}
    (hh : fmt.header.Lawful Message.mergeFrom (headerOf fmt total))
    (hw : ∀ m ∈ msgs, fmt.msg.Lawful Message.mergeFrom m) (room : Nat)
    {σ : Type} (fn : σ → M → Except Error σ) (s : σ) :
    Wire.readApply fmt fname (some ((fileBytes fmt total msgs).take room)) fn s
      = if (fmt.header.serialize (headerOf fmt total)).length ≤ room then
          (fmt.msg.complete msgs
            (room - (fmt.header.serialize (headerOf fmt total)).length)).foldlM fn s
        else .error (.runtime (fname ++ ": could't read file header")) := by
  unfold Wire.readApply
  rw [show fileBytes fmt total msgs
      = fmt.header.serialize (headerOf fmt total) ++ fmt.msg.stream msgs from rfl,
    openStream_take fmt fname hh]
  by_cases hroom : (fmt.header.serialize (headerOf fmt total)).length ≤ room
  · rw [if_pos hroom, if_pos hroom]
    simp only
    rw [applyLoop_eq]
    exact congrArg (fun l => List.foldlM fn s l)
      (Delimited.readAll_take Message.empty_mergeFrom hw _)
  · rw [if_neg hroom, if_neg hroom]

/-- The messages that are read back from a file that ends early are its complete ones. It is
`read_apply` with a function that collects them. -/
theorem readFile_take {total : UInt64} {msgs : List M}
    (hh : fmt.header.Lawful Message.mergeFrom (headerOf fmt total))
    (hw : ∀ m ∈ msgs, fmt.msg.Lawful Message.mergeFrom m) (room : Nat) :
    readFile fmt fname (some ((fileBytes fmt total msgs).take room))
      = if (fmt.header.serialize (headerOf fmt total)).length ≤ room then
          .ok (fmt.msg.complete msgs
            (room - (fmt.header.serialize (headerOf fmt total)).length))
        else .error (.runtime (fname ++ ": could't read file header")) := by
  unfold readFile
  rw [readApply_take fmt fname hh hw]
  split
  · refine (List.foldlM_pure (m := Except Error)).trans ?_
    rw [List.foldl_append_eq_append, ← List.flatMap_def, List.flatMap_singleton',
      List.nil_append]
    rfl
  · rfl

/-- The messages of a file that was written whole are those of the record file, so the stages may
be stated on record files. -/
theorem readApply_fileBytes {total : UInt64} {msgs : List M}
    (hh : fmt.header.Lawful Message.mergeFrom (headerOf fmt total))
    (hw : ∀ m ∈ msgs, fmt.msg.Lawful Message.mergeFrom m)
    {σ : Type} (fn : σ → M → Except Error σ) (s : σ) :
    Wire.readApply fmt fname (some (fileBytes fmt total msgs)) fn s
      = Spec.readApply { total := total.toNat, msgs := msgs } fn s := by
  have hlen : (fileBytes fmt total msgs).length
      = (fmt.header.serialize (headerOf fmt total)).length + (fmt.msg.stream msgs).length :=
    List.length_append
  have htake := readApply_take fmt fname hh hw (fileBytes fmt total msgs).length fn s
  rw [List.take_length, if_pos (by omega),
    (fmt.msg.complete_eq_iff msgs _).mpr (by omega)] at htake
  rw [htake, readApply_eq]

end

/-! ### No loss goes unseen -/

/-- A streamer throws, or a reader of its file throws, or the reader gets what was written. -/
def NoSilentLoss {M : Type} [Message M] (fmt : Format M) (out : FileOutputStream)
    (d : Descriptor) (fname : String) (total : UInt64) (msgs : List M) : Prop :=
  match writeFile fmt out d fname total msgs with
  | .error _ => True
  | .ok file =>
      match readFile fmt fname (some file) with
      | .error _ => True
      | .ok read => read = msgs

/-- A loss stays unseen exactly when the header got through, the messages did not, and the
descriptor refused no byte before the last flush, that of `Close`. -/
theorem noSilentLoss_iff {M : Type} [Message M] (fmt : Format M) (out : FileOutputStream)
    (d : Descriptor) (fname : String) (total : UInt64) (msgs : List M)
    (hh : fmt.header.Lawful Message.mergeFrom (headerOf fmt total))
    (hw : ∀ m ∈ msgs, fmt.msg.Lawful Message.mergeFrom m) :
    NoSilentLoss fmt out d fname total msgs ↔
      d.fd < 0 ∨ d.room < (fmt.header.serialize (headerOf fmt total)).length ∨
        FlushRefused fmt out d total msgs ∨ (fileBytes fmt total msgs).length ≤ d.room := by
  have hlen : (fileBytes fmt total msgs).length
      = (fmt.header.serialize (headerOf fmt total)).length + (fmt.msg.stream msgs).length :=
    List.length_append
  unfold NoSilentLoss
  rcases writeFile_eq fmt out d fname total msgs with ⟨hthrows, e, hwrite⟩ | ⟨hquiet, hwrite⟩
  · rw [hwrite]
    tauto
  · rw [hwrite]
    simp only
    rw [readFile_take fmt fname hh hw]
    by_cases hroom : (fmt.header.serialize (headerOf fmt total)).length ≤ d.room
    · rw [if_pos hroom]
      simp only
      rw [fmt.msg.complete_eq_iff]
      constructor
      · intro hfits
        exact Or.inr (Or.inr (Or.inr (by omega)))
      · rintro (hfd | hshort | hrefused | hfits)
        · exact absurd (Or.inl hfd) hquiet
        · omega
        · exact absurd (Or.inr hrefused) hquiet
        · omega
    · rw [if_neg hroom]
      exact ⟨fun _ => Or.inr (Or.inl (by omega)), fun _ => trivial⟩

/-- A file of one bigram on a disk with room for all of it, and on one that is full in the
middle of the header. -/
theorem noSilentLoss_bigram :
    NoSilentLoss bigramFormat (.blocks 8192) ⟨3, 25⟩ "bi.bin" 0 [⟨(1, 2), 3⟩] ∧
      NoSilentLoss bigramFormat (.blocks 8192) ⟨3, 8⟩ "bi.bin" 0 [⟨(1, 2), 3⟩] :=
  ⟨(noSilentLoss_iff bigramFormat _ _ _ 0 _ bigramHeader_lawful
      (fun m _ => bigram_lawful m)).mpr (Or.inr (Or.inr (Or.inr (by decide)))),
    (noSilentLoss_iff bigramFormat _ _ _ 0 _ bigramHeader_lawful
      (fun m _ => bigram_lawful m)).mpr (Or.inr (Or.inl (by decide)))⟩

/-- The disk is full in the middle of the bigram, whose bytes are still in the buffer when the
streamer is closed. The reader finds a file without bigrams. -/
theorem silentLoss_bigram :
    ¬NoSilentLoss bigramFormat (.blocks 8192) ⟨3, 20⟩ "bi.bin" 0 [⟨(1, 2), 3⟩] := by
  have hwrite : writeFile bigramFormat (.blocks 8192) ⟨3, 20⟩ "bi.bin" 0 [⟨(1, 2), 3⟩]
      = .ok ((fileBytes bigramFormat 0 [⟨(1, 2), 3⟩]).take 20) := rfl
  have hread : readFile bigramFormat "bi.bin"
      (some ((fileBytes bigramFormat 0 [⟨(1, 2), 3⟩]).take 20)) = .ok [] := rfl
  unfold NoSilentLoss
  rw [hwrite]
  simp only
  rw [hread]
  exact (List.cons_ne_nil _ _).symm

end Colloc.Proofs

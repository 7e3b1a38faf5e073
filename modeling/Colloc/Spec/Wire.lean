import Colloc.Lib.Delimited
import Colloc.Spec.Streamer

/-!
# `Colloc.Spec.Wire`: the bytes of a record file

`Spec.Streamer` keeps the messages of a record file. This module keeps its bytes, for what
happens when a write fails or a file is cut short. A file is a `Header` and then the messages,
each delimited.

Protobuf is not part of the repository. `Delimited` names its two functions,
`SerializeDelimitedToZeroCopyStream` and `ParseDelimitedFromZeroCopyStream`, as parameters, and
`FileOutputStream` says how many bytes of the stream it has passed on to the descriptor. A
`Descriptor` takes `room` bytes, and then every write to it fails.
-/

set_option autoImplicit false

namespace Colloc.Spec.Wire

open Colloc.Lib

/-- `message Header`. -/
structure Header where
  msgType : String
  total : UInt64
  deriving Repr, DecidableEq

instance : Message Header where
  empty := ⟨"", 0⟩
  mergeFrom old new :=
    ⟨if new.msgType = "" then old.msgType else new.msgType,
      if new.total = 0 then old.total else new.total⟩
  empty_mergeFrom h := by
    obtain ⟨msgType, total⟩ := h
    by_cases hm : msgType = ""
    · by_cases ht : total = 0
      · simp [hm, ht]
      · simp [hm, ht]
    · by_cases ht : total = 0
      · simp [hm, ht]
      · simp [hm, ht]
  mergeFrom_empty _ := rfl

/-- The wire format, of the header and of the messages of the type `name`. -/
structure Format (M : Type) where
  name : String
  header : Delimited Header UInt8
  msg : Delimited M UInt8

/-- What the descriptor of an output file is good for: `fd` is negative when `open` failed, and
the file takes `room` bytes. -/
structure Descriptor where
  fd : Int
  room : Nat

/-- `FileOutputStream`: the number of bytes it has passed on to the descriptor when pieces of
the given lengths were put into it. The other bytes are in its buffer. -/
structure FileOutputStream where
  flushed : List Nat → Nat
  flushed_mono : ∀ puts n, flushed puts ≤ flushed (puts ++ [n])

/-- Blocks of `size` bytes: a full block is passed on when more bytes come. -/
def FileOutputStream.blocks (size : Nat) : FileOutputStream where
  flushed puts := (puts.sum - 1) / size * size
  flushed_mono puts n := by
    refine Nat.mul_le_mul_right size (Nat.div_le_div_right ?_)
    rw [List.sum_append]
    omega

/-! ### `OFStreamer` -/

/-- The pieces that were put into the stream. -/
structure OFStreamer where
  puts : List Bytes

section
variable {M : Type} (fmt : Format M) (out : FileOutputStream) (d : Descriptor) (fname : String)

/-- `serialize(msg, stream.get())`: false once the descriptor has refused a flush. -/
def OFStreamer.serialize (os : OFStreamer) (piece : Bytes) : Bool × OFStreamer :=
  let puts := os.puts ++ [piece]
  (decide (out.flushed (puts.map List.length) ≤ d.room), ⟨puts⟩)

/-- The constructor. -/
def OFStreamer.new (total : UInt64) : Except Error OFStreamer :=
  if d.fd < 0 then .error (.runtime ("could't open file " ++ fname))
  else
    let h : Header := { msgType := fmt.name, total := total }
    match OFStreamer.serialize out d ⟨[]⟩ (fmt.header.serialize h) with
    | (true, os) => .ok os
    | (false, _) => .error (.runtime (fname ++ ": header writing failed"))

/-- `write`. -/
def OFStreamer.write (os : OFStreamer) (msg : M) : Except Error OFStreamer :=
  match os.serialize out d (fmt.msg.serialize msg) with
  | (true, os) => .ok os
  | (false, _) => .error (.runtime (fname ++ ": writing failed"))

/-- `Close`, and the file it leaves. What `stream->Close()` returns is dropped, so the flush of
the last bytes may fail unseen. -/
def OFStreamer.close (os : OFStreamer) : Bytes := os.puts.flatten.take d.room

/-- A streamer that writes `msgs` and is closed: the file, unless a call throws. -/
def writeFile (total : UInt64) (msgs : List M) : Except Error Bytes :=
  match OFStreamer.new fmt out d fname total with
  | .error e => .error e
  | .ok os =>
      match msgs.foldlM (OFStreamer.write fmt out d fname) os with
      | .error e => .error e
      | .ok os => .ok (os.close d)

end

/-! ### `IFStreamer` and `read_apply` -/

section
variable {M : Type} [Message M] (fmt : Format M) (fname : String)

/-- The constructor of `IFStreamer`: the header, and the stream behind it. -/
def openStream (file : Option Bytes) : Except Error (Header × Bytes) :=
  match openFile fname file with
  | .error e => .error e
  | .ok bytes =>
      match fmt.header.parse Message.empty bytes with
      | (true, h, stream) =>
          if h.msgType ≠ fmt.name then
            .error (.runtime
              (fname ++ ": file type " ++ h.msgType ++ " does not match " ++ fmt.name))
          else .ok (h, stream)
      | (false, _, _) => .error (.runtime (fname ++ ": could't read file header"))

/-- The loop of `read_apply`, with a bound on the reads that are left. -/
def applyLoop {σ : Type} (fn : σ → M → Except Error σ) : Nat → Bytes → σ → Except Error σ
  | 0, _, s => .ok s
  | n + 1, stream, s =>
      -- `msg.Clear()` comes before each read.
      match fmt.msg.parse Message.empty stream with
      | (true, msg, stream) =>
          match fn s msg with
          | .error e => .error e
          | .ok s => applyLoop fn n stream s
      -- The same at the end of the file and on a message that was cut short.
      | (false, _, _) => .ok s

/-- `read_apply`. A message takes at least one byte, so the bound is not reached before the
loop ends. -/
def readApply {σ : Type} (file : Option Bytes) (fn : σ → M → Except Error σ) (s : σ) :
    Except Error σ :=
  match openStream fmt fname file with
  | .error e => .error e
  | .ok (_, stream) => applyLoop fmt fn stream.length stream s

/-- `read_apply` with a `fn` that keeps what it is given. -/
def readFile (file : Option Bytes) : Except Error (List M) :=
  readApply fmt fname file (fun msgs m => .ok (msgs ++ [m])) []

/-- A record file, whole. -/
def fileBytes (total : UInt64) (msgs : List M) : Bytes :=
  fmt.header.serialize { msgType := fmt.name, total := total } ++ fmt.msg.stream msgs

/-- The loop calls `fn` on the messages of the stream, in order, and stops where `fn` fails. Both
loops clear their target before each read. -/
theorem applyLoop_eq {σ : Type} (fn : σ → M → Except Error σ) (n : Nat) :
    ∀ (stream : Bytes) (s : σ), applyLoop fmt fn n stream s
      = (fmt.msg.readLoop Message.empty n stream).foldlM fn s := by
  induction n with
  | zero => intro stream s; rfl
  | succ n ih =>
      intro stream s
      simp only [applyLoop, Delimited.readLoop]
      rcases fmt.msg.parse Message.empty stream with ⟨ok, msg, rest⟩
      cases ok with
      | false => rfl
      | true =>
          rw [List.foldlM_cons]
          simp only
          cases fn s msg with
          | error e => rfl
          | ok s' => exact ih rest s'

end

/-! ### The readers of a merge -/

/-- A reader of the messages on the bytes behind a header. -/
structure ByteReader {M : Type} (w : Delimited M UInt8) where
  stream : Bytes
  deriving DecidableEq

/-- `IFStreamer::read` on these bytes. A read of a message that is cut short fails, and leaves in
the target what it has parsed. -/
def ByteReader.read {M : Type} {w : Delimited M UInt8} (r : ByteReader w) (msg : M) :
    Bool × M × ByteReader w :=
  match w.parse msg r.stream with
  | (ok, msg, stream) => (ok, msg, ⟨stream⟩)

instance {M : Type} {w : Delimited M UInt8} : MessageReader (ByteReader w) M := ⟨ByteReader.read⟩

/-- The constructor of `KMerge`: every file is opened. -/
def openReaders {M : Type} (fmt : Format M) (files : List (String × Bytes)) :
    Except Error (List (ByteReader fmt.msg)) :=
  files.mapM (fun f => (openStream fmt f.1 (some f.2)).map (fun file => ⟨file.2⟩))

end Colloc.Spec.Wire

import Colloc.Spec.Streamer
import Colloc.Spec.Wire

/-!
# `Colloc.Spec.DataFile`: files of any message type

`gramcat` and `read_total` open a file whose message type they do not know. They ask for it first
(`get_data_type`), and then read the file as one of that type. A file is known by its message type
here.

The same two functions over bytes are `Wire.getDataType` and `Wire.readApply`, and `Formats.view`
says what file some bytes are.
-/

set_option autoImplicit false

namespace Colloc.Spec

open Colloc.Lib

/-! ### Files and their types -/

/-- The message types that `gramcat` prints. -/
inductive MsgType where
  | unigram | bigram | trigram | lemId | lemFreq | lem2Group | lem3Group
  deriving DecidableEq

/-- `GetDescriptor()->name()`. -/
def MsgType.name : MsgType → String
  | .unigram => "Unigram"
  | .bigram => "Bigram"
  | .trigram => "Trigram"
  | .lemId => "LemId"
  | .lemFreq => "LemFreq"
  | .lem2Group => "Lem2Group"
  | .lem3Group => "Lem3Group"

/-- The messages of a type. -/
def MsgType.Msg (R : Type) : MsgType → Type
  | .unigram => Unigram
  | .bigram => Bigram
  | .trigram => Trigram
  | .lemId => LemId
  | .lemFreq => LemFreq
  | .lem2Group => Lem2Group R
  | .lem3Group => Lem3Group R

instance MsgType.message {R : Type} [Double R] : (type : MsgType) → Message (type.Msg R)
  | .unigram => inferInstanceAs (Message StrIdWeight)
  | .bigram => inferInstanceAs (Message (Gram Idd))
  | .trigram => inferInstanceAs (Message (Gram Iddd))
  | .lemId => inferInstanceAs (Message LemId)
  | .lemFreq => inferInstanceAs (Message StrIdWeight)
  | .lem2Group => inferInstanceAs (Message (LemGroup Idd R))
  | .lem3Group => inferInstanceAs (Message (LemGroup Iddd R))

/-- A file: one of a type that is printed, one whose header has another name, and one whose header
cannot be read. -/
inductive DataFile (R : Type) where
  | known (type : MsgType) (file : RecordFile (type.Msg R))
  | other (msgType : String) (h : ∀ type : MsgType, type.name ≠ msgType)
  | broken

/-- What `get_data_type` returns for a file that it can open. -/
def DataFile.msgType {R : Type} : DataFile R → String
  | .known type _ => type.name
  | .other msgType _ => msgType
  | .broken => ""

section
variable {R : Type} (fs : String → Option (DataFile R)) (fname : String)

/-- `get_data_type`. -/
def getDataType : Except Error String :=
  match openFile fname (fs fname) with
  | .error e => .error e
  | .ok file => .ok file.msgType

/-- The constructor of `IFStreamer<M>`, for the messages of a type. -/
def openAs (type : MsgType) : Except Error (RecordFile (type.Msg R)) :=
  match openFile fname (fs fname) with
  | .error e => .error e
  | .ok (.known type' file) =>
      if h : type' = type then .ok (h ▸ file)
      else .error (.runtime
        (fname ++ ": file type " ++ type'.name ++ " does not match " ++ type.name))
  | .ok (.other msgType _) =>
      .error (.runtime (fname ++ ": file type " ++ msgType ++ " does not match " ++ type.name))
  | .ok .broken => .error (.runtime (fname ++ ": could't read file header"))

/-- `read_apply<M>` of a file. -/
def applyFile [Double R] {σ : Type} (type : MsgType) (fn : σ → type.Msg R → Except Error σ)
    (s : σ) : Except Error σ :=
  match openAs fs fname type with
  | .error e => .error e
  | .ok file => readApply file fn s

end

/-! ### Bytes -/

/-- How the header and the messages of each type are written. -/
structure Formats (R : Type) where
  header : Delimited Wire.Header UInt8
  msg : (type : MsgType) → Delimited (type.Msg R) UInt8

namespace Formats
variable {R : Type} (fmts : Formats R)

/-- The format of the files of a type. -/
def format (type : MsgType) : Wire.Format (type.Msg R) where
  name := type.name
  header := fmts.header
  msg := fmts.msg type

end Formats

/-- The type of a name. -/
def MsgType.ofName (name : String) : Option MsgType :=
  [MsgType.unigram, .bigram, .trigram, .lemId, .lemFreq, .lem2Group, .lem3Group].find?
    (fun type => type.name == name)

/-- A name that no type has differs from the name of each type. -/
theorem MsgType.name_ne {name : String} (h : MsgType.ofName name = none) (type : MsgType) :
    type.name ≠ name := by
  have hall := List.find?_eq_none.mp h type (by cases type <;> decide)
  simpa using hall

/-- What file some bytes are. -/
def Formats.view {R : Type} [Double R] (fmts : Formats R) (bytes : Bytes) : DataFile R :=
  match fmts.header.parse Message.empty bytes with
  | (false, _, _) => .broken
  | (true, h, stream) =>
      match hname : MsgType.ofName h.msgType with
      | some type =>
          .known type
            { total := h.total.toNat, msgs := (fmts.msg type).readAll Message.empty stream }
      | none => .other h.msgType (MsgType.name_ne hname)

/-- `get_data_type` over bytes. -/
def Wire.getDataType {R : Type} (fmts : Formats R) (fs : String → Option Bytes) (fname : String) :
    Except Error String :=
  match openFile fname (fs fname) with
  | .error e => .error e
  | .ok bytes =>
      match fmts.header.parse Message.empty bytes with
      | (true, h, _) => .ok h.msgType
      | (false, _, _) => .ok ""

end Colloc.Spec

import Colloc.Proofs.RecordFile
import Colloc.Spec.DataFile

/-!
# `Colloc.Proofs.DataFile`: files of any message type, as bytes

`Formats.view` says what file some bytes are: the message type that the header names, its total and
the messages that can be read behind it. The view is exact (`view_exact`). Over any bytes, in any
wire format, `get_data_type` and `read_apply` do what they do over the view, errors included. And
the bytes that `OFStreamer` writes are viewed as the file that was written.
-/

set_option autoImplicit false

namespace Colloc.Proofs

open Colloc.Lib
open Colloc.Spec

/-! ### Names -/

/-- The name of a message type is that of no other one. -/
@[simp] theorem ofName_name (type : MsgType) : MsgType.ofName type.name = some type := by
  cases type <;> rfl

/-- A type is found under its own name only. -/
theorem name_of_ofName {name : String} {type : MsgType} (h : MsgType.ofName name = some type) :
    type.name = name := by
  have hfound := List.find?_some h
  simpa using hfound

/-! ### The view -/

section View
variable {R : Type} [Double R] (fmts : Formats R) {bytes stream : Bytes} {h : Wire.Header}

/-- A file whose header cannot be read. -/
theorem view_broken {h : Wire.Header} (hparse : fmts.header.parse Message.empty bytes
    = (false, h, stream)) : fmts.view bytes = .broken := by
  unfold Formats.view
  rw [hparse]

/-- A file with the name of a message type in its header. The names of the types differ, so the
type is the only one with this name. -/
theorem view_known {type : MsgType} (hparse : fmts.header.parse Message.empty bytes
    = (true, h, stream)) (hname : h.msgType = type.name) : fmts.view bytes
      = .known type ⟨h.total.toNat, (fmts.msg type).readAll Message.empty stream⟩ := by
  unfold Formats.view
  rw [hparse]
  simp only
  split
  · rename_i type' hname'
    rw [hname, ofName_name] at hname'
    cases hname'
    rfl
  · rename_i hnone
    rw [hname, ofName_name] at hnone
    cases hnone

/-- A file with another name in its header. -/
theorem view_other (hparse : fmts.header.parse Message.empty bytes = (true, h, stream))
    (hne : ∀ type : MsgType, type.name ≠ h.msgType) : fmts.view bytes = .other h.msgType hne := by
  unfold Formats.view
  rw [hparse]
  simp only
  split
  · rename_i type hname
    exact absurd (name_of_ofName hname) (hne type)
  · rfl

/-- A file that parses has one of the types or another name. -/
theorem view_parsed (hparse : fmts.header.parse Message.empty bytes = (true, h, stream)) :
    (∃ type : MsgType, h.msgType = type.name ∧ fmts.view bytes
        = .known type ⟨h.total.toNat, (fmts.msg type).readAll Message.empty stream⟩) ∨
      ∃ hne : ∀ type : MsgType, type.name ≠ h.msgType, fmts.view bytes = .other h.msgType hne := by
  cases hname : MsgType.ofName h.msgType with
  | some type =>
      have htype := (name_of_ofName hname).symm
      exact Or.inl ⟨type, htype, view_known fmts hparse htype⟩
  | none => exact Or.inr ⟨MsgType.name_ne hname, view_other fmts hparse _⟩

variable (fs : String → Option Bytes) (fname : String)

/-- The files of a directory of bytes. -/
def viewed (fname : String) : Option (DataFile R) := (fs fname).map fmts.view

/-- `get_data_type` reads nothing but the header, so it sees the same in the bytes as in the view
of them: the name of the type, or no name when the header cannot be read. -/
theorem getDataType_viewed :
    getDataType (viewed fmts fs) fname = Wire.getDataType fmts fs fname := by
  unfold getDataType Wire.getDataType viewed openFile
  cases fs fname with
  | none => rfl
  | some bytes =>
      simp only [Option.map_some]
      rcases hparse : fmts.header.parse Message.empty bytes with ⟨ok, h, stream⟩
      cases ok with
      | false =>
          rw [view_broken fmts hparse]
          rfl
      | true =>
          rcases view_parsed fmts hparse with ⟨type, hname, hview⟩ | ⟨hne, hview⟩
          · rw [hview]
            exact congrArg Except.ok hname.symm
          · rw [hview]
            rfl

/-- The constructor of the reader, which checks the name of the type. When it is the expected one,
the messages of the view are those that the reader finds behind the header. -/
theorem openAs_viewed (type : MsgType) : openAs (viewed fmts fs) fname type
    = (Wire.openStream (fmts.format type) fname (fs fname)).map (fun file =>
        ⟨file.1.total.toNat, (fmts.msg type).readAll Message.empty file.2⟩) := by
  unfold openAs Wire.openStream viewed openFile
  cases fs fname with
  | none => rfl
  | some bytes =>
      simp only [Option.map_some]
      have hformat : (fmts.format type).header.parse Message.empty bytes
          = fmts.header.parse Message.empty bytes := rfl
      rw [hformat]
      rcases hparse : fmts.header.parse Message.empty bytes with ⟨ok, h, stream⟩
      cases ok with
      | false =>
          rw [view_broken fmts hparse]
          rfl
      | true =>
          rcases view_parsed fmts hparse with ⟨type', hname, hview⟩ | ⟨hne, hview⟩
          · rw [hview]
            by_cases htype : type' = type
            · subst htype
              have heq : ¬ h.msgType ≠ (fmts.format type').name := not_not.mpr hname
              simp only [dif_pos, if_neg heq]
              rfl
            · have hne : h.msgType ≠ (fmts.format type).name := by
                intro heq
                have hof := ofName_name type
                rw [← show h.msgType = type.name from heq, hname, ofName_name] at hof
                exact htype (Option.some.inj hof)
              simp only [dif_neg htype, if_pos hne]
              rw [← hname]
              rfl
          · rw [hview]
            have hne' : h.msgType ≠ (fmts.format type).name := fun heq => hne type heq.symm
            simp only [if_pos hne']
            rfl

/-- The loop over the messages is the same on the bytes and on what they are read as: it fails at
the header, or it is shown the same messages. -/
theorem applyFile_viewed (type : MsgType) {σ : Type} (fn : σ → type.Msg R → Except Error σ)
    (s : σ) : applyFile (viewed fmts fs) fname type fn s
      = Wire.readApply (fmts.format type) fname (fs fname) fn s := by
  unfold applyFile Wire.readApply
  rw [openAs_viewed]
  cases Wire.openStream (fmts.format type) fname (fs fname) with
  | error e => rfl
  | ok file =>
      show Spec.readApply _ fn s = Wire.applyLoop (fmts.format type) fn file.2.length file.2 s
      rw [readApply_eq, Wire.applyLoop_eq]
      rfl

/-- The bytes of a file, as `OFStreamer` writes them, are viewed as the messages that were
written. Header and messages are read back by the laws of the format. -/
theorem view_fileBytes {type : MsgType} {total : UInt64} {msgs : List (type.Msg R)}
    (hheader : fmts.header.Lawful Message.mergeFrom (headerOf (fmts.format type) total))
    (hmsgs : ∀ m ∈ msgs, (fmts.msg type).Lawful Message.mergeFrom m) :
    fmts.view (Wire.fileBytes (fmts.format type) total msgs)
      = .known type ⟨total.toNat, msgs⟩ := by
  have hparse := hheader.parse_serialize Message.empty ((fmts.msg type).stream msgs)
  rw [Message.empty_mergeFrom] at hparse
  have hread := Delimited.readAll_take Message.empty_mergeFrom hmsgs
    ((fmts.msg type).stream msgs).length
  rw [List.take_length, ((fmts.msg type).complete_eq_iff msgs _).mpr (Nat.le_refl _)] at hread
  rw [show Wire.fileBytes (fmts.format type) total msgs
      = fmts.header.serialize (headerOf (fmts.format type) total)
        ++ (fmts.msg type).stream msgs from rfl, view_known fmts hparse rfl, hread]
  rfl

end View

/-- The view of a directory is exact, over any bytes and in any wire format: asking for the message
type of a file and reading it as one of a type give what they give over the bytes, with the same
exceptions. -/
theorem view_exact {R : Type} [Double R] (fmts : Formats R) (fs : String → Option Bytes)
    (fname : String) : getDataType (viewed fmts fs) fname = Wire.getDataType fmts fs fname ∧
      ∀ (type : MsgType) {σ : Type} (fn : σ → type.Msg R → Except Error σ) (s : σ),
        applyFile (viewed fmts fs) fname type fn s
          = Wire.readApply (fmts.format type) fname (fs fname) fn s :=
  ⟨getDataType_viewed fmts fs fname, fun type _ fn s => applyFile_viewed fmts fs fname type fn s⟩

end Colloc.Proofs

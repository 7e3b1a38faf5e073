import Colloc.Lib.Tagged
import Colloc.Spec.Wire

/-!
# `Colloc.Spec.WireFormat`: messages of `grams.proto` as bytes

`Spec.Wire` takes the wire format as a parameter. This is the format for the header, for `Bigram`
and for `Lem2Group`, as far as their encoding is shorter than 128 bytes: the length in front of a
message is one byte then. A scalar field of value `0` is not written. A scalar field that is cut
is not read. Of a nested `Case` that is cut the parser keeps what it has read: it appends the case
first, and then parses into it.
-/

set_option autoImplicit false

namespace Colloc.Spec.Wire

open Colloc.Lib

/-- The four bytes of a `fixed32`, the lowest first. -/
def leBytes (x : UInt32) : List UInt8 :=
  [UInt8.ofNat (x.toNat % 256), UInt8.ofNat (x.toNat / 256 % 256),
    UInt8.ofNat (x.toNat / 65536 % 256), UInt8.ofNat (x.toNat / 16777216 % 256)]

/-- The `fixed32` of four bytes. -/
def ofLeBytes (bytes : List UInt8) : UInt32 :=
  UInt32.ofNat (bytes.foldr (fun b n => b.toNat + 256 * n) 0)

/-- A fixed number has four bytes. -/
@[simp] theorem length_leBytes (x : UInt32) : (leBytes x).length = 4 := rfl

/-- The bytes tell the number. -/
@[simp] theorem ofLeBytes_leBytes (x : UInt32) : ofLeBytes (leBytes x) = x := by
  have hx := x.toNat_lt
  apply UInt32.toNat_inj.mp
  simp only [ofLeBytes, leBytes, List.foldr_cons, List.foldr_nil, UInt8.toNat_ofNat',
    UInt32.toNat_ofNat']
  omega

/-- A `fixed32` field. -/
def fixed32 (tag : UInt8) (x : UInt32) : List TaggedField :=
  if x = 0 then [] else [⟨tag, leBytes x⟩]

/-- A number that is zero is not written. -/
@[simp] theorem mem_fixed32 (tag : UInt8) (x : UInt32) (f : TaggedField) :
    f ∈ fixed32 tag x ↔ x ≠ 0 ∧ f = ⟨tag, leBytes x⟩ := by
  unfold fixed32
  by_cases h : x = 0
  · simp [h]
  · simp [h]

/-! ### `Header` -/

/-- `string msg_type = 1` and `uint64 total = 2`, for names in ASCII and a total below `128`. -/
def headerCodec : Codec Header where
  fields h :=
    (if h.msgType = "" then []
      else [⟨0x0A, h.msgType.toList.map (fun c => UInt8.ofNat c.toNat)⟩])
      ++ (if h.total = 0 then [] else [⟨0x10, [h.total.toUInt8]⟩])
  add h f :=
    if f.tag = 0x0A then
      { h with msgType := String.ofList (f.content.map (fun b => Char.ofNat b.toNat)) }
    else if f.tag = 0x10 then { h with total := (f.content.headD 0).toUInt64 }
    else h
  cut h _ := h
  cut_nil _ := rfl

/-! ### `Bigram` -/

/-- `fixed32 id1 = 1`, `fixed32 id2 = 2` and `fixed32 weight = 3`. -/
def bigramCodec : Codec Bigram where
  fields m := fixed32 0x0D m.ids.1 ++ fixed32 0x15 m.ids.2 ++ fixed32 0x1D m.weight
  add m f :=
    if f.tag = 0x0D then { m with ids := (ofLeBytes f.content, m.ids.2) }
    else if f.tag = 0x15 then { m with ids := (m.ids.1, ofLeBytes f.content) }
    else if f.tag = 0x1D then { m with weight := ofLeBytes f.content }
    else m
  cut m _ := m
  cut_nil _ := rfl

/-- The files of bigrams. -/
def bigramFormat : Format Bigram where
  name := "Bigram"
  header := headerCodec.delimited
  msg := bigramCodec.delimited

/-! ### `Lem2Group` -/

/-- The bytes of the `double`s `0` and `1`. -/
def doubleBytes (x : ℚ) : List UInt8 :=
  if x = 1 then [0, 0, 0, 0, 0, 0, 0xF0, 0x3F] else [0, 0, 0, 0, 0, 0, 0, 0]

/-- The `double` of the bytes. -/
def ofDoubleBytes (bytes : List UInt8) : ℚ :=
  if bytes = [0, 0, 0, 0, 0, 0, 0xF0, 0x3F] then 1 else 0

/-- `message Case` has the fields of a `Bigram`. -/
def caseBytes (c : Case Idd) : List UInt8 := bigramCodec.body ⟨c.wids, c.count⟩

/-- The case of the bytes, as far as they go. -/
def ofCaseBytes (bytes : List UInt8) : Case Idd :=
  match bigramCodec.mergeBody bytes.length Message.empty bytes with
  | (m, _) => ⟨m.ids, m.weight⟩

/-- `fixed32 lid1 = 1`, `fixed32 lid2 = 2`, `double weight = 3` and `repeated Case cases = 5`. -/
def lem2GroupCodec : Codec (Lem2Group ℚ) where
  fields m :=
    fixed32 0x0D m.lids.1 ++ fixed32 0x15 m.lids.2
      ++ (if m.weight = 0 then [] else [⟨0x19, doubleBytes m.weight⟩])
      ++ m.cases.map (fun c => ⟨0x2A, caseBytes c⟩)
  add m f :=
    if f.tag = 0x0D then { m with lids := (ofLeBytes f.content, m.lids.2) }
    else if f.tag = 0x15 then { m with lids := (m.lids.1, ofLeBytes f.content) }
    else if f.tag = 0x19 then { m with weight := ofDoubleBytes f.content }
    else if f.tag = 0x2A then { m with cases := m.cases ++ [ofCaseBytes f.content] }
    else m
  cut m body :=
    match body with
    -- `add_cases()` comes before the length byte and the fields of the case are read.
    | 0x2A :: body => { m with cases := m.cases ++ [ofCaseBytes (body.drop 1)] }
    | _ => m
  cut_nil _ := rfl

/-- The files of groups. -/
def lem2GroupFormat : Format (Lem2Group ℚ) where
  name := "Lem2Group"
  header := headerCodec.delimited
  msg := lem2GroupCodec.delimited

/-! ### The format is lawful -/

/-- The merge of a scalar field, three times. -/
theorem merge_assoc (a b x : UInt32) :
    IdTuple.merge (IdTuple.merge a b) x = IdTuple.merge a (IdTuple.merge b x) := by
  show (if x = 0 then (if b = 0 then a else b) else x)
    = if (if x = 0 then b else x) = 0 then a else (if x = 0 then b else x)
  by_cases hx : x = 0
  · simp [hx]
  · simp [hx]

/-- A field that is not on the wire leaves the target alone. -/
@[simp] theorem merge_zero (a : UInt32) : IdTuple.merge a 0 = a := rfl

/-- A number that is not zero replaces the one in the target. -/
@[simp] theorem merge_of_ne {x : UInt32} (hx : x ≠ 0) (a : UInt32) : IdTuple.merge a x = x :=
  if_neg hx

/-- A `fixed32` on the wire sets the field, and else the field keeps its default `0`. -/
theorem foldl_fixed32 {M : Type} (c : Codec M) (tag : UInt8) (set : UInt32 → M)
    (h : ∀ x, c.add (set 0) ⟨tag, leBytes x⟩ = set x) (x : UInt32) :
    (fixed32 tag x).foldl c.add (set 0) = set x := by
  unfold fixed32
  by_cases hx : x = 0
  · rw [if_pos hx, hx]
    rfl
  · rw [if_neg hx]
    exact h x

/-- Such a field is one that the reader accepts, as its tag has the wire type of a fixed number.
-/
theorem fits_fixed32 (tag : UInt8) (htag : tag % 8 = 5) (x : UInt32) :
    (TaggedField.mk tag (leBytes x)).Fits := by
  simp [TaggedField.Fits, TaggedField.width, htag]

/-- It takes at most five bytes with its tag. -/
theorem length_fixed32 (tag : UInt8) (htag : tag % 8 = 5) (x : UInt32) :
    ((fixed32 tag x).flatMap TaggedField.bytes).length ≤ 5 := by
  unfold fixed32
  split
  · simp
  · simp [TaggedField.bytes, htag]

/-- A bigram is its fields: those that are zero are not written, and they are zero in the empty
message. -/
theorem bigram_fields (m : Bigram) :
    (bigramCodec.fields m).foldl bigramCodec.add Message.empty = m := by
  obtain ⟨⟨id1, id2⟩, weight⟩ := m
  have h1 := foldl_fixed32 bigramCodec 0x0D (fun x => ⟨(x, 0), 0⟩)
    (fun x => by simp [bigramCodec]) id1
  have h2 := foldl_fixed32 bigramCodec 0x15 (fun x => ⟨(id1, x), 0⟩)
    (fun x => by simp [bigramCodec]) id2
  have h3 := foldl_fixed32 bigramCodec 0x1D (fun x => ⟨(id1, id2), x⟩)
    (fun x => by simp [bigramCodec]) weight
  show (fixed32 0x0D id1 ++ fixed32 0x15 id2 ++ fixed32 0x1D weight).foldl bigramCodec.add
    ⟨(0, 0), 0⟩ = _
  rw [List.foldl_append, List.foldl_append, h1, h2, h3]

/-- Every bigram is read back from the wire. It has at most three fields of five bytes, so its
length fits one byte. -/
theorem bigram_lawful (m : Bigram) : bigramFormat.msg.Lawful Message.mergeFrom m := by
  refine Codec.lawful (fun a b x => ?_) (fun a => rfl) (fun f hf => ?_) ?_ (fun f hf target => ?_)
    (fun _ _ => rfl) (bigram_fields m)
  · show Gram.mk (IdTuple.merge (IdTuple.merge a.ids.1 b.ids.1) x.ids.1,
        IdTuple.merge (IdTuple.merge a.ids.2 b.ids.2) x.ids.2)
        (IdTuple.merge (IdTuple.merge a.weight b.weight) x.weight) = _
    rw [merge_assoc, merge_assoc, merge_assoc]
    rfl
  · simp only [bigramCodec, List.mem_append, mem_fixed32] at hf
    rcases hf with (⟨_, rfl⟩ | ⟨_, rfl⟩) | ⟨_, rfl⟩
    · exact fits_fixed32 _ (by decide) _
    · exact fits_fixed32 _ (by decide) _
    · exact fits_fixed32 _ (by decide) _
  · -- At most three fields of five bytes.
    have h1 := length_fixed32 0x0D (by decide) m.ids.1
    have h2 := length_fixed32 0x15 (by decide) m.ids.2
    have h3 := length_fixed32 0x1D (by decide) m.weight
    simp only [Codec.body, bigramCodec, List.flatMap_append, List.length_append]
    omega
  · simp only [bigramCodec, List.mem_append, mem_fixed32] at hf
    rcases hf with (⟨hne, rfl⟩ | ⟨hne, rfl⟩) | ⟨hne, rfl⟩
    · simp [bigramCodec, Message.mergeFrom, Message.empty, IdTuple.merge, IdTuple.zero, hne]
    · simp [bigramCodec, Message.mergeFrom, Message.empty, IdTuple.merge, IdTuple.zero, hne]
    · simp [bigramCodec, Message.mergeFrom, Message.empty, IdTuple.merge, IdTuple.zero, hne]

/-- A header that is its fields is read back from the wire, when its length fits one byte. -/
theorem header_lawful {h : Header} (hfits : ∀ f ∈ headerCodec.fields h, f.Fits)
    (hsize : (headerCodec.body h).length < 128)
    (hfields : (headerCodec.fields h).foldl headerCodec.add Message.empty = h)
    (hadd : ∀ f ∈ headerCodec.fields h, ∀ target, headerCodec.add target f
      = Message.mergeFrom target (headerCodec.add Message.empty f)) :
    headerCodec.delimited.Lawful Message.mergeFrom h := by
  refine Codec.lawful (fun a b x => ?_) (fun a => rfl) hfits hsize hadd (fun _ _ => rfl) hfields
  show Header.mk (if x.msgType = "" then (if b.msgType = "" then a.msgType else b.msgType)
      else x.msgType) (if x.total = 0 then (if b.total = 0 then a.total else b.total)
      else x.total)
    = Header.mk (if (if x.msgType = "" then b.msgType else x.msgType) = "" then a.msgType
        else (if x.msgType = "" then b.msgType else x.msgType))
      (if (if x.total = 0 then b.total else x.total) = 0 then a.total
        else (if x.total = 0 then b.total else x.total))
  by_cases hm : x.msgType = ""
  · by_cases ht : x.total = 0
    · simp [hm, ht]
    · simp [hm, ht]
  · by_cases ht : x.total = 0
    · simp [hm, ht]
    · simp [hm, ht]

/-- The header of a file without a total. -/
theorem bigramHeader_lawful :
    bigramFormat.header.Lawful Message.mergeFrom ⟨bigramFormat.name, 0⟩ :=
  header_lawful (by decide) (by decide) (by decide) (by
    intro f hf target
    have hname : f = ⟨0x0A, [0x42, 0x69, 0x67, 0x72, 0x61, 0x6D]⟩ := by
      revert f
      decide
    subst hname
    rfl)

end Colloc.Spec.Wire

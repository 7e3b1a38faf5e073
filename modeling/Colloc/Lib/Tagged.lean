import Colloc.Lib.Delimited

/-!
# `Colloc.Lib.Tagged`: messages as tagged fields

The protobuf encoding, as far as small messages need it. A field is a tag byte and its content;
the three low bits of the tag are the wire type: one byte, eight bytes, four bytes, or a length
byte and that many bytes. A message is the fields it has, in front of them their length. The
parser adds one field after the other to its target, and stops at a field that is cut. What it has
read of that field is added too, when the field is a message of its own.

`Codec.lawful` says that this makes a lawful `Delimited`, when adding a field is merging the
message with that field alone, and the fields of a message make it.
-/

set_option autoImplicit false

namespace Colloc.Lib

/-- A field: the tag, and the bytes behind it, without the length byte. -/
structure TaggedField where
  tag : UInt8
  content : List UInt8
  deriving Repr, DecidableEq

namespace TaggedField

/-- The length of the content of a wire type that needs no length byte: `VARINT` below `128`,
`I64` and `I32`. -/
def width (tag : UInt8) : Option Nat :=
  if tag % 8 = 0 then some 1
  else if tag % 8 = 1 then some 8
  else if tag % 8 = 5 then some 4
  else none

/-- The bytes of a field. -/
def bytes (f : TaggedField) : List UInt8 :=
  if f.tag % 8 = 2 then f.tag :: UInt8.ofNat f.content.length :: f.content
  else f.tag :: f.content

/-- The first field of a body, none when it is cut. -/
def take : List UInt8 → Option (TaggedField × List UInt8)
  | [] => none
  | tag :: body =>
      if tag % 8 = 2 then
        match body with
        | [] => none
        | len :: body =>
            if body.length < len.toNat then none
            else some (⟨tag, body.take len.toNat⟩, body.drop len.toNat)
      else
        match width tag with
        | none => none
        | some n => if body.length < n then none else some (⟨tag, body.take n⟩, body.drop n)

/-- The content has the length that the tag asks for. -/
def Fits (f : TaggedField) : Prop :=
  if f.tag % 8 = 2 then f.content.length < 128 else width f.tag = some f.content.length

instance (f : TaggedField) : Decidable f.Fits := by unfold Fits; infer_instance

/-- A field has a tag at least. -/
theorem bytes_ne_nil (f : TaggedField) : f.bytes ≠ [] := by
  unfold bytes
  split
  · exact List.cons_ne_nil _ _
  · exact List.cons_ne_nil _ _

/-- A field is taken off the front of the bytes, and the rest stays. The tag tells how long the
content is, or that its length stands in the next byte. -/
theorem take_append {f : TaggedField} (hf : f.Fits) (rest : List UInt8) :
    take (f.bytes ++ rest) = some (f, rest) := by
  unfold Fits at hf
  unfold bytes
  by_cases htag : f.tag % 8 = 2
  · rw [if_pos htag] at hf
    have hlen : (UInt8.ofNat f.content.length).toNat = f.content.length := by
      simp only [UInt8.toNat_ofNat']
      omega
    simp [take, htag, hlen]
  · rw [if_neg htag] at hf
    simp [take, htag, hf]

/-- A field that is cut is not taken. The tag says how long the field is, or that a length byte
does, and there are fewer bytes than that. -/
theorem take_cut {f : TaggedField} (hf : f.Fits) {part : List UInt8} (hpre : part <+: f.bytes)
    (hne : part ≠ f.bytes) : take part = none := by
  have hlt : part.length < f.bytes.length := by
    rcases Nat.lt_or_ge part.length f.bytes.length with h | h
    · exact h
    · exact absurd (hpre.eq_of_length_le h) hne
  cases part with
  | nil => rfl
  | cons tag body =>
      unfold Fits at hf
      unfold bytes at hpre hlt
      by_cases htag : f.tag % 8 = 2
      · rw [if_pos htag] at hf hpre hlt
        obtain ⟨rfl, hbody⟩ := List.cons_prefix_cons.mp hpre
        cases body with
        | nil => simp [take, htag]
        | cons len body =>
            obtain ⟨rfl, _⟩ := List.cons_prefix_cons.mp hbody
            have hlen : (UInt8.ofNat f.content.length).toNat = f.content.length := by
              simp only [UInt8.toNat_ofNat']
              omega
            simp only [List.length_cons] at hlt
            have hshort : body.length < f.content.length := by omega
            simp [take, htag, hlen, hshort]
      · rw [if_neg htag] at hf hpre hlt
        obtain ⟨rfl, _⟩ := List.cons_prefix_cons.mp hpre
        simp only [List.length_cons] at hlt
        have hshort : body.length < f.content.length := by omega
        simp [take, htag, hf, hshort]

end TaggedField

/-- How a message type is made of fields: those a message has, what adding one does, and what is
added of the bytes of a field that is cut. -/
structure Codec (M : Type) where
  fields : M → List TaggedField
  add : M → TaggedField → M
  cut : M → List UInt8 → M
  cut_nil : ∀ target, cut target [] = target

namespace Codec

variable {M : Type} (c : Codec M)

/-- The fields of a body are added to the target, and what there is of one that is cut. The
result has what is left of the body. -/
def mergeBody : Nat → M → List UInt8 → M × List UInt8
  | 0, target, body => (c.cut target body, body)
  | n + 1, target, body =>
      match TaggedField.take body with
      | none => (c.cut target body, body)
      | some (f, rest) => mergeBody n (c.add target f) rest

/-- The fields of a message. -/
def body (m : M) : List UInt8 := (c.fields m).flatMap TaggedField.bytes

/-- The delimited encoding. The length of the body is one byte. -/
def delimited : Delimited M UInt8 where
  serialize m := UInt8.ofNat (c.body m).length :: c.body m
  parse target bytes :=
    match bytes with
    | [] => (false, target, [])
    | size :: rest =>
        match c.mergeBody rest.length target (rest.take size.toNat) with
        | (target, left) =>
            if size.toNat ≤ rest.length ∧ left = [] then (true, target, rest.drop size.toNat)
            else (false, target, [])
  parse_takes := by
    intro target bytes m rest h
    cases bytes with
    | nil => simp at h
    | cons size bytes =>
        simp only at h
        split at h
        · have hrest := congrArg (fun r => r.2.2) h
          simp only at hrest
          rw [← hrest, List.length_drop, List.length_cons]
          omega
        · exact absurd (congrArg Prod.fst h) Bool.false_ne_true
  parse_end _ := rfl

/-- A body that begins with whole fields: they are added, and the rest is looked at. Each field
takes one step of the loop. -/
theorem mergeBody_append (fs : List TaggedField) :
    ∀ (n : Nat) (target : M) (rest : List UInt8), (∀ f ∈ fs, f.Fits) →
      c.mergeBody (fs.length + n) target (fs.flatMap TaggedField.bytes ++ rest)
        = c.mergeBody n (fs.foldl c.add target) rest := by
  induction fs with
  | nil => intro n target rest _; simp
  | cons f fs ih =>
      intro n target rest hf
      have hlen : (f :: fs).length + n = (fs.length + n) + 1 := by
        rw [List.length_cons]
        omega
      rw [hlen, mergeBody, List.flatMap_cons, List.append_assoc,
        TaggedField.take_append (hf f List.mem_cons_self)]
      exact ih n (c.add target f) rest (fun g hg => hf g (List.mem_cons_of_mem f hg))

/-- A body without a whole field in front is a field that is cut. -/
theorem mergeBody_none {rest : List UInt8} (h : TaggedField.take rest = none) (n : Nat)
    (target : M) : c.mergeBody n target rest = (c.cut target rest, rest) := by
  cases n with
  | zero => rfl
  | succ n => rw [mergeBody, h]

/-- There are no more fields than bytes. -/
theorem length_le_body (fs : List TaggedField) :
    fs.length ≤ (fs.flatMap TaggedField.bytes).length := by
  induction fs with
  | nil => exact Nat.le_refl 0
  | cons f fs ih =>
      have hf := List.length_pos_of_ne_nil f.bytes_ne_nil
      rw [List.flatMap_cons, List.length_append, List.length_cons]
      omega

/-- A prefix of a body is some whole fields and less than one more. The induction is on the
fields: the cut is in the first one or behind it. -/
theorem prefix_body (fs : List TaggedField) :
    ∀ part, part <+: fs.flatMap TaggedField.bytes → (∀ f ∈ fs, f.Fits) →
      ∃ gs rest, gs <+: fs ∧ part = gs.flatMap TaggedField.bytes ++ rest ∧
        TaggedField.take rest = none := by
  induction fs with
  | nil =>
      intro part hpart _
      rw [List.flatMap_nil, List.prefix_nil] at hpart
      exact ⟨[], [], List.prefix_rfl, by simp [hpart], rfl⟩
  | cons f fs ih =>
      intro part hpart hfits
      rw [List.flatMap_cons] at hpart
      -- Either the cut is in the first field, or behind it.
      rcases List.prefix_or_prefix_of_prefix hpart (List.prefix_append f.bytes _) with
        hshort | ⟨tail, htail⟩
      · by_cases heq : part = f.bytes
        · refine ⟨[f], [], ?_, by simp [heq], rfl⟩
          exact List.cons_prefix_cons.mpr ⟨rfl, List.nil_prefix⟩
        · exact ⟨[], part, List.nil_prefix, by simp,
            TaggedField.take_cut (hfits f List.mem_cons_self) hshort heq⟩
      · rw [← htail, List.prefix_append_right_inj] at hpart
        obtain ⟨gs, rest, hgs, htake, hnone⟩ := ih tail hpart
          (fun g hg => hfits g (List.mem_cons_of_mem f hg))
        refine ⟨f :: gs, rest, List.cons_prefix_cons.mpr ⟨rfl, hgs⟩, ?_, hnone⟩
        rw [← htail, htake, List.flatMap_cons, List.append_assoc]

section Lawful
variable {c} {merge : M → M → M} {empty : M}

/-- Adding fields to a target is merging what they make of the empty message. A target that a
message was read into before is so no different from an empty one that is merged later. -/
theorem foldl_add (hassoc : ∀ a b x, merge (merge a b) x = merge a (merge b x))
    (hempty : ∀ a, merge a empty = a) (fs : List TaggedField) :
    (∀ f ∈ fs, ∀ target, c.add target f = merge target (c.add empty f)) →
      ∀ target, fs.foldl c.add target = merge target (fs.foldl c.add empty) := by
  induction fs with
  | nil => intro _ target; exact (hempty target).symm
  | cons f fs ih =>
      intro hadd target
      have htail := ih (fun g hg => hadd g (List.mem_cons_of_mem f hg))
      rw [List.foldl_cons, List.foldl_cons, htail (c.add target f), htail (c.add empty f),
        hadd f List.mem_cons_self, hassoc]

/-- The encoding is lawful. The whole body is merged field by field, and this is the merge of the
message. A part of it is merged as far as its whole fields go, and the read fails since bytes are
missing. -/
theorem lawful {m : M} (hassoc : ∀ a b x, merge (merge a b) x = merge a (merge b x))
    (hempty : ∀ a, merge a empty = a) (hfits : ∀ f ∈ c.fields m, f.Fits)
    (hsize : (c.body m).length < 128)
    (hadd : ∀ f ∈ c.fields m, ∀ target, c.add target f = merge target (c.add empty f))
    (hcut : ∀ rest target, c.cut target rest = merge target (c.cut empty rest))
    (hfields : (c.fields m).foldl c.add empty = m) : c.delimited.Lawful merge m := by
  have hsize' : (UInt8.ofNat (c.body m).length).toNat = (c.body m).length := by
    simp only [UInt8.toNat_ofNat']
    omega
  refine ⟨fun target rest => ?_, fun cut hpre hne => ?_⟩
  · -- The whole body is there, and its fields make the message.
    obtain ⟨n, hn⟩ : ∃ n, (c.body m ++ rest).length = (c.fields m).length + n :=
      Nat.exists_eq_add_of_le (Nat.le_trans (length_le_body (c.fields m))
        (by rw [List.length_append]; exact Nat.le_add_right _ _))
    have hbody := c.mergeBody_append (c.fields m) n target [] hfits
    have hend := c.mergeBody_none (show TaggedField.take [] = none from rfl) n
      ((c.fields m).foldl c.add target)
    rw [List.append_nil, hend, c.cut_nil, ← hn, foldl_add hassoc hempty _ hadd, hfields] at hbody
    simp only [delimited, List.cons_append, hsize', List.take_left', List.drop_left',
      show c.mergeBody (c.body m ++ rest).length target (c.body m) = _ from hbody]
    simp
  · cases cut with
    | nil => exact ⟨empty, fun target => by rw [hempty]; rfl⟩
    | cons size part =>
        obtain ⟨rfl, hpart⟩ := List.cons_prefix_cons.mp hpre
        have hlt : part.length < (c.body m).length := by
          rcases Nat.lt_or_ge part.length (c.body m).length with h | h
          · exact h
          · exact absurd (congrArg _ (hpart.eq_of_length_le h)) hne
        obtain ⟨gs, rest, hgs, htake, hnone⟩ := prefix_body (c.fields m) part hpart hfits
        refine ⟨c.cut (gs.foldl c.add empty) rest, fun target => ?_⟩
        -- The whole fields in front of the cut are merged, and what there is of the next one.
        obtain ⟨n, hn⟩ : ∃ n, part.length = gs.length + n :=
          Nat.exists_eq_add_of_le (Nat.le_trans (length_le_body gs)
            (by rw [htake, List.length_append]; exact Nat.le_add_right _ _))
        have hbody := c.mergeBody_append gs n target rest
          (fun f hf => hfits f (hgs.subset hf))
        rw [c.mergeBody_none hnone, ← hn, ← htake,
          foldl_add hassoc hempty _ (fun f hf => hadd f (hgs.subset hf)), hcut, hassoc,
          ← hcut] at hbody
        have htaken : part.take (c.body m).length = part := List.take_of_length_le (by omega)
        simp only [delimited, hsize', htaken, hbody]
        rw [if_neg (fun h => absurd h.1 (by omega))]

end Lawful

end Codec

end Colloc.Lib

import Colloc.Proofs.ReadOrder
import Colloc.Proofs.RecordFile

/-!
# `Colloc.Proofs.CutFiles`: merging files that are cut short

The readers of `KMergeIterator` over the bytes of record files. `unreadBytes` is what a reader has
left, and `readerLaws_bytes` says that it reads as this. A file that is cut at some byte has its
complete messages, and behind them the bytes of a part (`CutFile.unread`).

`kmerge_cut_iff` says when a merge of such files yields the complete messages: when no part changes
a message, in the order of `readOrder`. With whole files there are no parts, and the merge is that
of `Proofs.Kmerge` (`kmerge_whole`).
-/

set_option autoImplicit false

namespace Colloc.Proofs.Wire

open Colloc.Lib
open Colloc.Lib.Delimited
open Colloc.Spec
open Colloc.Spec.Wire

/-! ### The readers of bytes -/

section Bytes
variable {M : Type} [Message M] {w : Delimited M UInt8} {S : M → Prop}

/-- A message that is read back from a stream. Parsing it, or a part of it, keeps `S`. -/
structure Readable (w : Delimited M UInt8) (S : M → Prop) (m : M) : Prop where
  lawful : w.Lawful Message.mergeFrom m
  keeps : ∀ part, part <+: w.serialize m → ∀ target, S target → S (w.parse target part).2.1

/-- What is unread on bytes that begin with `msgs`: what is behind them leaves some fields. -/
def unreadBehind (w : Delimited M UInt8) (msgs : List M) (bytes : Bytes) : Unread M :=
  ⟨msgs, (w.parse Message.empty (bytes.drop (w.stream msgs).length)).2.1⟩

/-- What a reader of bytes has left. -/
def unreadBytes (r : ByteReader w) : Unread M :=
  unreadBehind w (w.readAll Message.empty r.stream) r.stream

/-- The reader of bytes that hold `msgs` has them left. -/
theorem unreadBytes_of_holds {P : M → Prop} (hP : ∀ m, P m → w.Lawful Message.mergeFrom m)
    {msgs : List M} {r : ByteReader w} (h : Holds w P msgs r.stream) :
    unreadBytes r = unreadBehind w msgs r.stream := by
  rw [unreadBytes, h.readAll_eq hP Message.empty_mergeFrom]

/-- A read of bytes that hold messages is the one of `Unread`: it finds the next message, or what
the bytes behind the last one leave in the target. -/
theorem read_bytes {msgs : List M} {r : ByteReader w} (h : Holds w (Readable w S) msgs r.stream)
    (msg : M) :
    (∃ msgs', Holds w (Readable w S) msgs' (MessageReader.read r msg).2.2.stream) ∧
      (unreadBytes r).read msg = ((MessageReader.read r msg).1, (MessageReader.read r msg).2.1,
        unreadBytes (MessageReader.read r msg).2.2) := by
  have hlaw : ∀ m, Readable w S m → w.Lawful Message.mergeFrom m := fun m hm => hm.lawful
  have hread : MessageReader.read r msg
      = ((w.parse msg r.stream).1, (w.parse msg r.stream).2.1, ⟨(w.parse msg r.stream).2.2⟩) := rfl
  rw [unreadBytes_of_holds hlaw h, hread]
  cases msgs with
  | nil =>
      obtain ⟨part, hparse⟩ := h.parse_part hlaw Message.mergeFrom_empty
      have hdone : Holds w (Readable w S) [] [] := Holds.done
      have hend : unreadBytes (⟨[]⟩ : ByteReader w) = ⟨[], Message.empty⟩ := by
        rw [unreadBytes_of_holds hlaw hdone, unreadBehind, stream_nil, List.drop_nil, w.parse_end]
      rw [hparse msg, hend]
      refine ⟨⟨[], hdone⟩, ?_⟩
      rw [unreadBehind, stream_nil, List.length_nil, List.drop_zero, hparse, Unread.read,
        Message.empty_mergeFrom]
  | cons m msgs =>
      obtain ⟨rest, hbytes, hrest⟩ := h.uncons
      have hm := (h.all m List.mem_cons_self).lawful.parse_serialize msg rest
      rw [hbytes, hm]
      refine ⟨⟨msgs, hrest⟩, ?_⟩
      rw [unreadBytes_of_holds hlaw hrest, unreadBehind, unreadBehind, stream_cons,
        List.length_append, List.drop_length_add_append]
      rfl

/-- The readers of bytes that hold messages. A message or a part of one keeps `S` in the target,
which is then what the comparator sees. -/
theorem readerLaws_bytes (hempty : S Message.empty) :
    ReaderLaws (unreadBytes (w := w)) (fun r => ∃ msgs, Holds w (Readable w S) msgs r.stream)
      S S where
  empty := hempty
  ok := by
    rintro r ⟨msgs, h⟩ msg
    exact (read_bytes h msg).1
  read := by
    rintro r ⟨msgs, h⟩ msg
    exact (read_bytes h msg).2
  takes := by
    rintro r ⟨msgs, h⟩ m hm t ht
    rw [unreadBytes_of_holds (fun m hm => hm.lawful) h] at hm
    have hmsg := h.all m hm
    have hkept := hmsg.keeps _ List.prefix_rfl t ht
    have hparse := hmsg.lawful.parse_serialize t []
    rw [List.append_nil] at hparse
    rwa [hparse] at hkept
  keeps := by
    rintro r ⟨msgs, h⟩ t ht
    obtain ⟨tail, hbytes, htail⟩ := h.split
    have hkept := htail.keeps (fun m hm => hm.lawful) (fun m hm => hm.keeps) ht
    obtain ⟨part, hparse⟩ := htail.parse_part (fun m hm => hm.lawful) Message.mergeFrom_empty
    rw [hparse] at hkept
    rw [unreadBytes_of_holds (fun m hm => hm.lawful) h, unreadBehind, hbytes, List.drop_left,
      hparse, Message.empty_mergeFrom]
    exact hkept

/-- The readers of whole streams, whose messages satisfy `S`. They leave nothing behind, so the
target is empty before each read. -/
theorem readerLaws_stream (S : M → Prop) :
    ReaderLaws (unreadBytes (w := w))
      (fun r => ∃ msgs, (∀ m ∈ msgs, w.Lawful Message.mergeFrom m ∧ S m) ∧ r.stream = w.stream msgs)
      (fun t => t = Message.empty) S := by
  have hholds : ∀ {r : ByteReader w} {msgs : List M},
      (∀ m ∈ msgs, w.Lawful Message.mergeFrom m ∧ S m) → r.stream = w.stream msgs →
      Holds w (Readable w (fun _ => True)) msgs r.stream := by
    intro r msgs hmsgs hr
    rw [hr]
    exact holds_stream msgs (fun m hm => ⟨(hmsgs m hm).1, fun _ _ _ _ => trivial⟩)
  have hunread : ∀ {r : ByteReader w} {msgs : List M},
      (∀ m ∈ msgs, w.Lawful Message.mergeFrom m ∧ S m) → r.stream = w.stream msgs →
      unreadBytes r = ⟨msgs, Message.empty⟩ := by
    intro r msgs hmsgs hr
    rw [unreadBytes_of_holds (fun m hm => hm.lawful) (hholds hmsgs hr), unreadBehind, hr,
      List.drop_length, w.parse_end]
  refine ⟨rfl, ?_, ?_, ?_, ?_⟩
  · rintro r ⟨msgs, hmsgs, hr⟩ msg
    have hread : (MessageReader.read r msg).2.2.stream = (w.parse msg r.stream).2.2 := rfl
    cases msgs with
    | nil =>
        refine ⟨[], hmsgs, ?_⟩
        rw [hread, hr, stream_nil, w.parse_end]
    | cons m msgs =>
        refine ⟨msgs, fun m' hm' => hmsgs m' (List.mem_cons_of_mem m hm'), ?_⟩
        rw [hread, hr, stream_cons, (hmsgs m List.mem_cons_self).1.parse_serialize]
  · rintro r ⟨msgs, hmsgs, hr⟩ msg
    exact (read_bytes (hholds hmsgs hr) msg).2
  · rintro r ⟨msgs, hmsgs, hr⟩ m hm t rfl
    rw [hunread hmsgs hr] at hm
    rw [Message.empty_mergeFrom]
    exact (hmsgs m hm).2
  · rintro r ⟨msgs, hmsgs, hr⟩ t rfl
    rw [hunread hmsgs hr]
    exact Message.empty_mergeFrom _

end Bytes

/-! ### Files that are cut behind their header -/

/-- A file of messages of which `cut` bytes behind the header are left. -/
structure CutFile (M : Type) where
  fname : String
  total : UInt64
  msgs : List M
  cut : Nat

namespace CutFile

variable {M : Type} (fmt : Format M) (f : CutFile M)

/-- The bytes behind the header. -/
def body : Bytes := (fmt.msg.stream f.msgs).take f.cut

/-- The file. -/
def bytes : Bytes := fmt.header.serialize (headerOf fmt f.total) ++ f.body fmt

/-- The messages that are completely there. -/
def complete : List M := fmt.msg.complete f.msgs f.cut

/-- What is unread in the file: the messages that are completely there, and the fields that the
bytes behind them leave in an empty message. -/
def unread {M : Type} [Message M] (fmt : Format M) (f : CutFile M) : Unread M :=
  unreadBehind fmt.msg (f.complete fmt) (f.body fmt)

/-- The reader of the file holds the messages that are complete. -/
theorem holds [Message M] {S : M → Prop} (hw : ∀ m ∈ f.msgs, Readable fmt.msg S m) :
    Holds fmt.msg (Readable fmt.msg S) (f.complete fmt) (f.body fmt) :=
  holds_take f.msgs f.cut hw

end CutFile

section
variable {M : Type} [Message M] (std : Stdlib) (comp : M → M → Bool) (fmt : Format M)
  (files : List (CutFile M))

/-- A `KMergeIterator` over the files yields each message that is completely there once, and
nothing else. -/
def YieldsComplete : Prop :=
  ∃ readers out,
    openReaders fmt (files.map (fun f => (f.fname, f.bytes fmt))) = .ok readers ∧
      Yields std comp (KMergeIterator.new std comp readers) out ∧
      out.Perm (files.flatMap (fun f => f.complete fmt))

/-- The files are read in the order in which a merge of the complete messages comes to them. No
complete message is changed by the fields that the ends of files have left since the message
before it. -/
def LeftoversHarmless : Prop :=
  Harmless Message.empty (readOrder std comp (files.map (CutFile.unread fmt)))

variable {comp fmt files} {S : M → Prop}

omit [Message M] in
/-- The constructor of `KMerge` opens the files. Their headers are whole, and name the type of the
messages. -/
theorem openReaders_cut [Message M]
    (hh : ∀ f ∈ files, fmt.header.Lawful Message.mergeFrom (headerOf fmt f.total)) :
    openReaders fmt (files.map (fun f => (f.fname, f.bytes fmt)))
      = .ok (files.map (fun f => ⟨f.body fmt⟩)) := by
  unfold openReaders
  induction files with
  | nil => rfl
  | cons f files ih =>
      have hf := hh f List.mem_cons_self
      have hopen : openStream fmt f.fname (some (f.bytes fmt))
          = .ok (headerOf fmt f.total, f.body fmt) := by
        unfold CutFile.bytes
        simp only [openStream, openFile, hf.parse_serialize, Message.empty_mergeFrom]
        rw [if_neg (fun hne => hne rfl)]
      rw [List.map_cons, List.mapM_cons, hopen,
        ih (fun g hg => hh g (List.mem_cons_of_mem f hg))]
      rfl

/-- A merge of files that are cut short yields the messages that are completely there exactly
when the fields that failed reads leave behind change no message. -/
theorem kmerge_cut_iff [Filled M]
    (hh : ∀ f ∈ files, fmt.header.Lawful Message.mergeFrom (headerOf fmt f.total))
    (hw : ∀ f ∈ files, ∀ m ∈ f.msgs, Readable fmt.msg S m) (hc : StrictWeakOn comp S)
    (hempty : S Message.empty) :
    YieldsComplete std comp fmt files ↔ LeftoversHarmless std comp fmt files := by
  have hlaws := readerLaws_bytes (w := fmt.msg) hempty
  have hok : ∀ r ∈ files.map (fun f => (⟨f.body fmt⟩ : ByteReader fmt.msg)),
      ∃ msgs, Holds fmt.msg (Readable fmt.msg S) msgs r.stream := by
    intro r hr
    obtain ⟨f, hf, rfl⟩ := List.mem_map.mp hr
    exact ⟨_, f.holds fmt (hw f hf)⟩
  -- What the readers have left is what is unread in the files.
  have hunread : (files.map (fun f => (⟨f.body fmt⟩ : ByteReader fmt.msg))).map unreadBytes
      = files.map (CutFile.unread fmt) := by
    rw [List.map_map]
    refine List.map_congr_left (fun f hf => ?_)
    exact unreadBytes_of_holds (fun m hm => hm.lawful) (f.holds fmt (hw f hf))
  have hmsgs : (files.map (fun f => (⟨f.body fmt⟩ : ByteReader fmt.msg))).flatMap
      (msgsOf unreadBytes) = files.flatMap (fun f => f.complete fmt) := by
    have hall := congrArg (fun us => us.flatMap Unread.msgs) hunread
    simp only [List.flatMap_map] at hall ⊢
    exact hall
  obtain ⟨-, hiter, -⟩ := new_spec std hlaws hc hok
  obtain ⟨out, hout⟩ := exists_yields std hlaws hc _ _ hiter rfl
  have hiff := yields_iff_harmless std hlaws hc hok hout
  rw [hunread, hmsgs] at hiff
  rw [LeftoversHarmless, ← hiff]
  constructor
  · rintro ⟨readers, out', hopen, hout', hperm⟩
    obtain rfl := Except.ok.inj ((openReaders_cut hh).symm.trans hopen)
    rwa [Yields.unique std comp out hout hout']
  · exact fun hperm => ⟨_, out, openReaders_cut hh, hout, hperm⟩

/-- A merge of sorted files that are whole yields a sorted permutation of their messages, as it does
over the messages themselves (`kmerge_merges`). -/
theorem kmerge_whole
    (hh : ∀ f ∈ files, fmt.header.Lawful Message.mergeFrom (headerOf fmt f.total))
    (hw : ∀ f ∈ files, ∀ m ∈ f.msgs, fmt.msg.Lawful Message.mergeFrom m)
    (hcut : ∀ f ∈ files, (fmt.msg.stream f.msgs).length ≤ f.cut)
    (hs : ∀ f ∈ files, Sorted comp f.msgs)
    (hc : StrictWeakOn comp (· ∈ files.flatMap (fun f => f.msgs))) :
    ∃ readers out, openReaders fmt (files.map (fun f => (f.fname, f.bytes fmt))) = .ok readers ∧
      Yields std comp (KMergeIterator.new std comp readers) out ∧
      out.Perm (files.flatMap (fun f => f.msgs)) ∧ Sorted comp out := by
  have hbody : ∀ f ∈ files, f.body fmt = fmt.msg.stream f.msgs := fun f hf =>
    List.take_of_length_le (hcut f hf)
  have hmsgs : ∀ f ∈ files, unreadBytes (⟨f.body fmt⟩ : ByteReader fmt.msg)
      = unreadBehind fmt.msg f.msgs (f.body fmt) := by
    intro f hf
    refine unreadBytes_of_holds (fun _ hm => hm) ?_
    rw [hbody f hf]
    exact holds_stream f.msgs (hw f hf)
  have hok : ∀ r ∈ files.map (fun f => (⟨f.body fmt⟩ : ByteReader fmt.msg)),
      ∃ msgs, (∀ m ∈ msgs, fmt.msg.Lawful Message.mergeFrom m ∧
        m ∈ files.flatMap (fun f => f.msgs)) ∧ r.stream = fmt.msg.stream msgs := by
    intro r hr
    obtain ⟨f, hf, rfl⟩ := List.mem_map.mp hr
    exact ⟨f.msgs, fun m hm => ⟨hw f hf m hm, List.mem_flatMap.mpr ⟨f, hf, hm⟩⟩, hbody f hf⟩
  obtain ⟨out, hout, hperm, hsorted⟩ := yields_sorted std
    (readerLaws_stream (· ∈ files.flatMap (fun f => f.msgs))) hc hok (by
      intro r hr
      obtain ⟨f, hf, rfl⟩ := List.mem_map.mp hr
      rw [hmsgs f hf]
      exact hs f hf)
  refine ⟨_, out, openReaders_cut hh, hout, ?_, hsorted⟩
  rw [List.flatMap_map] at hperm
  exact hperm.trans (List.Perm.of_eq (List.flatMap_congr (fun f hf =>
    congrArg Unread.msgs (hmsgs f hf))))

end

/-- Two files of bigrams, the first cut in the middle of its bigram. The fields that are left of
it are overwritten. -/
theorem kmerge_cut_bigrams :
    YieldsComplete Stdlib.sorting bigramMore bigramFormat
      [⟨"0.bin", 0, [⟨(1, 2), 3⟩], 7⟩, ⟨"1.bin", 0, [⟨(4, 5), 6⟩], 16⟩] := by
  refine (kmerge_cut_iff Stdlib.sorting (S := fun _ => True) (fun f hf => ?_)
    (fun f _ m _ => ⟨bigram_lawful m, fun _ _ _ _ => trivial⟩) (gramMore_strictWeakOn _)
    trivial).mpr ?_
  · have htotal : f.total = 0 := by
      simp only [List.mem_cons, List.not_mem_nil, or_false] at hf
      rcases hf with rfl | rfl
      · rfl
      · rfl
    rw [headerOf, htotal]
    exact bigramHeader_lawful
  · have horder : readOrder Stdlib.sorting bigramMore
        ([⟨"0.bin", 0, [⟨(1, 2), 3⟩], 7⟩, ⟨"1.bin", 0, [⟨(4, 5), 6⟩], 16⟩].map
          (CutFile.unread bigramFormat))
        = [.part ⟨(1, 0), 0⟩, .message ⟨(4, 5), 6⟩, .part ⟨(0, 0), 0⟩] := rfl
    rw [LeftoversHarmless, horder]
    exact ⟨rfl, trivial⟩

/-- Two files of groups, the first cut behind the first case of its group. The group of the
second file comes out with that case. -/
theorem kmerge_cut_group :
    ¬YieldsComplete Stdlib.sorting lemGroupLess lem2GroupFormat
      [⟨"0.bin", 1, [⟨(1, 2), 1, [⟨(10, 20), 5⟩, ⟨(11, 21), 6⟩]⟩], 37⟩,
        ⟨"1.bin", 1, [⟨(3, 4), 1, [⟨(30, 40), 7⟩]⟩], 37⟩] := by
  rintro ⟨readers, out, hopen, hout, hperm⟩
  have hreaders : readers
      = [⟨"0.bin", 1, [⟨(1, 2), 1, [⟨(10, 20), 5⟩, ⟨(11, 21), 6⟩]⟩], 37⟩,
        ⟨"1.bin", 1, [⟨(3, 4), 1, [⟨(30, 40), 7⟩]⟩], 37⟩].map
        (fun f : CutFile (Lem2Group ℚ) => ⟨f.body lem2GroupFormat⟩) :=
    (Except.ok.inj hopen).symm
  have hrun : Yields Stdlib.sorting lemGroupLess
      (KMergeIterator.new Stdlib.sorting lemGroupLess readers)
      [⟨(3, 4), 1, [⟨(10, 20), 5⟩, ⟨(30, 40), 7⟩]⟩] := by
    rw [hreaders]
    exact ⟨rfl, rfl, _, rfl, rfl⟩
  obtain rfl := Yields.unique _ _ _ hrun hout
  have hmem := hperm.mem_iff.mp List.mem_cons_self
  revert hmem
  decide

end Colloc.Proofs.Wire

import Colloc.Lib.Numbered
import Colloc.Proofs.Kmerge

/-!
# `Colloc.Proofs.ExternalSort`: the external sort refines a sort in memory

`Delivers s ms` says that `S.read` hands out exactly the messages `ms` before its first
`false`, each read into an empty target. `cutParts` is the cut of the stream into part
files, and `sortLoop_spec` says that the reading loop writes exactly these parts, sorted.

The parts are numbered by an `unsigned int`. Below `2 ^ 32` parts every part file survives
and is opened (`openParts_of_lt`), and the merge of all of them is the sorted stream
(`sortUnstable_spec`). Whatever the number of parts, the files that are opened hold only
messages of the stream (`sortUnstable_mem`).
-/

set_option autoImplicit false

namespace Colloc.Proofs

open Colloc.Lib
open Colloc.Spec

/-- The messages a stream hands out before its first `false`. -/
inductive Delivers {S M : Type} [Message M] [InStream S M] : S → List M → Prop where
  | done {s s' : S} {m : M} :
      InStream.read s Message.empty = .ok (false, m, s') → Delivers s []
  | more {s s' : S} {m : M} {ms : List M} :
      InStream.read s Message.empty = .ok (true, m, s') → Delivers s' ms → Delivers s (m :: ms)

/-- A file stream delivers the messages of its file, one by one, and then ends. The induction is
on the messages. -/
theorem delivers_file {M : Type} [Message M] (ms : List M) :
    Delivers (IFStreamer.mk ms) ms := by
  induction ms with
  | nil =>
      have hread : InStream.read (IFStreamer.mk ([] : List M)) Message.empty
          = .ok (false, Message.empty, ⟨[]⟩) := rfl
      exact Delivers.done hread
  | cons m ms ih =>
      have hread : InStream.read (IFStreamer.mk (m :: ms)) Message.empty
          = .ok (true, m, IFStreamer.mk ms) := by
        show Except.ok (true, Message.mergeFrom Message.empty m, IFStreamer.mk ms) = _
        rw [Message.empty_mergeFrom]
      exact Delivers.more hread ih

section Sorter
variable {M : Type}

/-- The parts the stream `ms` is cut into, when `buf` was read before: a part is closed when
it reaches `max` messages, and at the end if it is not empty. -/
def cutParts (max : Nat) : List M → List M → List (List M)
  | buf, [] => if buf.isEmpty then [] else [buf]
  | buf, m :: ms =>
      if (buf ++ [m]).length = max then (buf ++ [m]) :: cutParts max [] ms
      else cutParts max (buf ++ [m]) ms

/-- The cut loses no message and keeps their order. What is in the buffer comes first. -/
theorem cutParts_flatten (max : Nat) (ms : List M) :
    ∀ buf : List M, (cutParts max buf ms).flatten = buf ++ ms := by
  induction ms with
  | nil =>
      intro buf
      cases buf with
      | nil => rfl
      | cons b bs => simp [cutParts]
  | cons m ms ih =>
      intro buf
      rw [cutParts]
      split
      · rw [List.flatten_cons, ih]
        simp
      · rw [ih]
        simp

/-- Without a limit there is at most one part. The buffer is never full, so only the end of the
stream saves it. -/
theorem length_cutParts_zero (ms : List M) :
    ∀ buf : List M, (cutParts 0 buf ms).length ≤ 1 := by
  induction ms with
  | nil =>
      intro buf
      cases buf with
      | nil => simp [cutParts]
      | cons b bs => simp [cutParts]
  | cons m ms ih =>
      intro buf
      rw [cutParts, if_neg (by simp)]
      exact ih _

/-- With the limit `max` the parts hold at most `max` messages each and all but the last one
are full. -/
theorem length_cutParts_bounds {max : Nat} (ms : List M) :
    ∀ buf : List M, buf.length < max →
      buf.length + ms.length ≤ max * (cutParts max buf ms).length ∧
        max * (cutParts max buf ms).length < buf.length + ms.length + max := by
  induction ms with
  | nil =>
      intro buf hbuf
      cases buf with
      | nil =>
          simp only [cutParts, List.isEmpty_nil, if_true, List.length_nil] at hbuf ⊢
          omega
      | cons b bs =>
          simp only [cutParts, List.isEmpty_cons, Bool.false_eq_true, if_false, List.length_cons,
            List.length_nil] at hbuf ⊢
          omega
  | cons m ms ih =>
      intro buf hbuf
      rw [cutParts]
      split
      · -- The buffer is full: one part, and the rest starts with none.
        rename_i hfull
        rw [List.length_append, List.length_singleton] at hfull
        obtain ⟨h1, h2⟩ := ih [] (by rw [List.length_nil]; omega)
        rw [List.length_cons, List.length_cons, Nat.mul_add, Nat.mul_one]
        rw [List.length_nil] at h1 h2
        omega
      · rename_i hfull
        rw [List.length_append, List.length_singleton] at hfull
        obtain ⟨h1, h2⟩ := ih (buf ++ [m])
          (by rw [List.length_append, List.length_singleton]; omega)
        rw [List.length_append, List.length_singleton] at h1 h2
        rw [List.length_cons]
        omega

/-- A stream of at most `max * (2 ^ 32 - 1)` messages fits the part counter, since all parts but
the last one are full. -/
theorem length_cutParts_lt {max : Nat} {ms : List M}
    (h : max = 0 ∨ ms.length ≤ max * (2 ^ 32 - 1)) :
    (cutParts max [] ms).length < 2 ^ 32 := by
  by_cases h0 : max = 0
  · subst h0
    exact Nat.lt_of_le_of_lt (length_cutParts_zero ms []) (by decide)
  · have hlen : ms.length ≤ max * (2 ^ 32 - 1) := h.resolve_left h0
    have hnil : ([] : List M).length < max := by
      rw [List.length_nil]
      omega
    obtain ⟨-, hub⟩ := length_cutParts_bounds ms [] hnil
    rw [List.length_nil, Nat.zero_add] at hub
    -- The parts before the last one are full, which bounds their number.
    have hmul : max * (cutParts max [] ms).length < max * 2 ^ 32 := by
      rw [Nat.mul_sub, Nat.mul_one] at hlen
      have hle : max * 1 ≤ max * 2 ^ 32 := Nat.mul_le_mul_left max (by decide)
      omega
    exact Nat.lt_of_mul_lt_mul_left hmul

/-- A stream of full parts: their number is the length divided by the limit, with no rest for
another part. -/
theorem length_cutParts_mul {max n : Nat} {ms : List M} (hmax : 0 < max)
    (h : ms.length = max * n) : (cutParts max [] ms).length = n := by
  obtain ⟨hlow, hhigh⟩ := length_cutParts_bounds ms ([] : List M) hmax
  rw [List.length_nil, Nat.zero_add, h] at hlow hhigh
  have hle : n ≤ (cutParts max [] ms).length := Nat.le_of_mul_le_mul_left hlow hmax
  have hlt : max * (cutParts max [] ms).length < max * (n + 1) := by
    rw [Nat.mul_succ]
    exact hhigh
  have hge := Nat.lt_of_mul_lt_mul_left hlt
  omega

variable (std : Stdlib) (comp : M → M → Bool)

/-- The part file of a buffer. -/
def partFile (buf : List M) : RecordFile M :=
  { total := (std.sort (fun a b => comp b a) buf).length
    msgs := std.sort (fun a b => comp b a) buf }

/-- The sorter after writing `parts`. -/
def savedParts (self : ExternalSorter M) (parts : List (List M)) : ExternalSorter M :=
  { self with
      dir := writeNumbered ExternalSorter.fileName self.dir self.nChunks
        (parts.map (partFile std comp))
      nChunks := self.nChunks + UInt32.ofNat parts.length }

/-- No part, nothing to save. -/
theorem savedParts_nil (self : ExternalSorter M) : savedParts std comp self [] = self := by
  simp [savedParts, writeNumbered]

/-- The parts are saved one after the other. -/
theorem savedParts_cons (self : ExternalSorter M) (buf : List M) (parts : List (List M)) :
    savedParts std comp self (buf :: parts)
      = savedParts std comp (self.sortSave std comp buf) parts := by
  have hn : self.nChunks + UInt32.ofNat (buf :: parts).length
      = self.nChunks + 1 + UInt32.ofNat parts.length := add_ofNat_succ _ _
  simp only [savedParts, hn, List.map_cons, writeNumbered, ExternalSorter.sortSave]
  rfl

/-- The reading loop and the last `sort_save` write the parts of the stream. The induction is on
the stream, with the messages that are in the buffer. -/
theorem sortLoop_spec {S : Type} [Message M] [InStream S M] {s : S} {ms : List M}
    (h : Delivers s ms) :
    ∀ (n : Nat) (self : ExternalSorter M) (buf : List M), ms.length < n →
      ∃ self' buf', ExternalSorter.sortLoop std comp n self s buf Message.empty
          = .ok (self', buf') ∧
        (if buf'.isEmpty then self' else self'.sortSave std comp buf')
          = savedParts std comp self (cutParts self.maxElems buf ms) := by
  induction h with
  | done hread =>
      intro n self buf hn
      cases n with
      | zero => simp at hn
      | succ n =>
          -- The end of the stream: the last `sort_save` writes the buffer if it has messages.
          refine ⟨self, buf, by rw [ExternalSorter.sortLoop, hread], ?_⟩
          cases buf with
          | nil => simp [cutParts, savedParts_nil]
          | cons b bs =>
              rw [cutParts, if_neg (by simp), if_neg (by simp), savedParts_cons, savedParts_nil]
  | @more s s' m ms hread _ ih =>
      intro n self buf hn
      cases n with
      | zero => simp at hn
      | succ n =>
          rw [List.length_cons] at hn
          rw [ExternalSorter.sortLoop, hread, cutParts]
          -- A full buffer becomes the next part, and the loop goes on with an empty one.
          by_cases hfull : (buf ++ [m]).length = self.maxElems
          · simp only [hfull, if_true]
            rw [savedParts_cons]
            exact ih n (self.sortSave std comp (buf ++ [m])) [] (by omega)
          · simp only [hfull, if_false]
            exact ih n self (buf ++ [m]) (by omega)

/-- The bound of the loop is never reached. -/
theorem delivers_length_le {S : Type} [Message M] [InStream S M] {s : S} {ms : List M}
    (h : Delivers s ms) : ms.length ≤ InStream.size s := by
  induction h with
  | done _ => exact Nat.zero_le _
  | @more s s' m ms hread _ ih =>
      have := InStream.size_lt s Message.empty m s' hread
      rw [List.length_cons]
      omega

/-! ### The part files that are opened -/

/-- Different numbers have different file names. -/
theorem fileName_injective : Function.Injective ExternalSorter.fileName :=
  repr_append_injective ".bin"

/-- Files that are all there open one by one. The induction is on their names. -/
theorem mapM_openFile {α β : Type} (l : List α) (name : α → String) (find : String → Option β)
    (get : α → β) (h : ∀ a ∈ l, find (name a) = some (get a)) :
    (l.map name).mapM (fun fname => openFile fname (find fname))
      = (.ok (l.map get) : Except Error (List β)) := by
  induction l with
  | nil => rfl
  | cons a l ih =>
      rw [List.map_cons, List.mapM_cons, h a (by simp),
        ih (fun b hb => h b (List.mem_cons_of_mem a hb))]
      rfl

/-- When each name has a file with `P`, all files are opened and have `P`. A name without a file
would end the loop with an exception. -/
theorem mapM_openFile_ok {β : Type} {names : List String} {find : String → Option β}
    {P : β → Prop} (h : ∀ name ∈ names, ∃ f, find name = some f ∧ P f) :
    ∃ files, names.mapM (fun fname => openFile fname (find fname))
        = (.ok files : Except Error (List β)) ∧ ∀ f ∈ files, P f := by
  induction names with
  | nil => exact ⟨[], rfl, fun f hf => absurd hf List.not_mem_nil⟩
  | cons name names ih =>
      obtain ⟨f, hf, hP⟩ := h name List.mem_cons_self
      obtain ⟨files, hok, hall⟩ := ih (fun n hn => h n (List.mem_cons_of_mem name hn))
      refine ⟨f :: files, ?_, fun g hg => ?_⟩
      · rw [List.mapM_cons, hf, hok]
        rfl
      · rcases List.mem_cons.mp hg with rfl | hg
        · exact hP
        · exact hall g hg

/-- What the directory holds at the end, under the names of the surviving parts. A part whose
number comes again is replaced, as the number is a `u32`. -/
theorem lookup_savedParts (max : Nat) (parts : List (List M)) (n : String) (f : RecordFile M) :
    (savedParts std comp (ExternalSorter.new max) parts).dir.lookup n = some f ↔
      (⟨n, f⟩ : Sigma fun _ : String => RecordFile M) ∈ numbered ExternalSorter.fileName
        (survivorsStart 0 (parts.map (partFile std comp)))
        (survivors (parts.map (partFile std comp))) := by
  have hperm := writeNumbered_entries fileName_injective
    (∅ : FlatHashMap String (RecordFile M)) 0 (parts.map (partFile std comp))
  rw [AList.empty_entries, List.filter_nil, List.append_nil] at hperm
  rw [← hperm.mem_iff]
  exact AList.mem_lookup_iff

/-- Below `2 ^ 32` parts all of them are opened, in order. The counter has not wrapped, so it is
the number of parts and no part was written over. -/
theorem openParts_of_lt (max : Nat) (parts : List (List M)) (h : parts.length < 2 ^ 32) :
    (savedParts std comp (ExternalSorter.new max) parts).openParts
      = .ok (parts.map (partFile std comp)) := by
  have hlen : (parts.map (partFile std comp)).length ≤ 2 ^ 32 := by
    rw [List.length_map]
    omega
  -- The counter did not wrap: it is the number of parts.
  have hn : ((savedParts std comp (ExternalSorter.new max) parts).nChunks).toNat
      = parts.length := by
    show ((0 : UInt32) + UInt32.ofNat parts.length).toNat = _
    rw [UInt32.zero_add, UInt32.toNat_ofNat', Nat.mod_eq_of_lt h]
  have hfind : ∀ i ∈ List.range parts.length,
      (savedParts std comp (ExternalSorter.new max) parts).dir.lookup
          (ExternalSorter.fileName (UInt32.ofNat i))
        = some (partFile std comp (parts[i]?.getD [])) := by
    intro i hi
    have hi' : i < parts.length := List.mem_range.mp hi
    rw [lookup_savedParts, survivors_of_le hlen, survivorsStart_of_le 0 hlen]
    have hi'' : i < (parts.map (partFile std comp)).length := by
      rw [List.length_map]
      exact hi'
    have hmem := mem_numbered ExternalSorter.fileName (c := 0) hi''
    rw [UInt32.zero_add, List.getElem_map] at hmem
    rw [List.getElem?_eq_getElem hi', Option.getD_some]
    exact hmem
  unfold ExternalSorter.openParts
  rw [hn, mapM_openFile (List.range parts.length)
    (fun i => ExternalSorter.fileName (UInt32.ofNat i)) _ _ hfind]
  refine congrArg Except.ok (List.ext_getElem (by simp) (fun i h1 h2 => ?_))
  rw [List.length_map, List.length_range] at h1
  simp [h1]

/-- The name of every part has a file, and it is a part: the one with this number, or a later
one that has overwritten it. -/
theorem lookup_savedParts_of_lt (max : Nat) {parts : List (List M)} {i : Nat}
    (hi : i < parts.length) :
    ∃ f, (savedParts std comp (ExternalSorter.new max) parts).dir.lookup
        (ExternalSorter.fileName (UInt32.ofNat i)) = some f ∧
      ∃ p ∈ parts, f = partFile std comp p := by
  have hlt : i < (parts.map (partFile std comp)).length := by
    rw [List.length_map]
    exact hi
  have hkey : ExternalSorter.fileName (UInt32.ofNat i)
      ∈ numberedKeys ExternalSorter.fileName
        (survivorsStart 0 (parts.map (partFile std comp)))
        (survivors (parts.map (partFile std comp))) := by
    -- Up to `2 ^ 32` parts have names of their own. With more, every name is in use.
    by_cases hle : (parts.map (partFile std comp)).length ≤ 2 ^ 32
    · rw [survivors_of_le hle, survivorsStart_of_le 0 hle, mem_numberedKeys]
      exact ⟨i, hlt, by rw [UInt32.zero_add]⟩
    · refine name_mem_numberedKeys _ ?_ _
      rw [survivors, List.length_drop]
      omega
  obtain ⟨⟨n, f⟩, hmem, heq⟩ := List.mem_map.mp hkey
  have heq' : n = ExternalSorter.fileName (UInt32.ofNat i) := heq
  subst heq'
  refine ⟨f, (lookup_savedParts std comp max parts _ f).mpr hmem, ?_⟩
  have hval : f ∈ survivors (parts.map (partFile std comp)) := by
    rw [← numbered_map_snd ExternalSorter.fileName
      (survivorsStart 0 (parts.map (partFile std comp)))
      (survivors (parts.map (partFile std comp)))]
    exact List.mem_map_of_mem hmem
  obtain ⟨p, hp, rfl⟩ := List.mem_map.mp (List.mem_of_mem_drop hval)
  exact ⟨p, hp, rfl⟩

/-- Whatever the number of parts, opening succeeds and every opened file is a part. The counter
may have wrapped around, and then fewer files are opened. -/
theorem openParts_mem (max : Nat) (parts : List (List M)) :
    ∃ files, (savedParts std comp (ExternalSorter.new max) parts).openParts = .ok files ∧
      ∀ f ∈ files, ∃ p ∈ parts, f = partFile std comp p := by
  -- The counter modulo `2 ^ 32` is at most the number of parts.
  have hn : ((savedParts std comp (ExternalSorter.new max) parts).nChunks).toNat
      ≤ parts.length := by
    show ((0 : UInt32) + UInt32.ofNat parts.length).toNat ≤ _
    rw [UInt32.zero_add, UInt32.toNat_ofNat']
    exact Nat.mod_le _ _
  unfold ExternalSorter.openParts
  refine mapM_openFile_ok (fun name hname => ?_)
  obtain ⟨i, hi, rfl⟩ := List.mem_map.mp hname
  exact lookup_savedParts_of_lt std comp max (Nat.lt_of_lt_of_le (List.mem_range.mp hi) hn)

/-! ### The sorted stream -/

section Result

/-- The sorter writes the parts of the stream and opens them. No more than the limit is reserved,
so the vector can hold it. -/
theorem sortUnstable_eq {S : Type} [Message M] [InStream S M] {s : S} {ms : List M}
    (h : Delivers s ms) {max : Nat} (hsize : max ≤ std.maxSize) {files : List (RecordFile M)}
    (hopen : (savedParts std comp (ExternalSorter.new max) (cutParts max [] ms)).openParts
      = .ok files) :
    (ExternalSorter.new max).sortUnstable std comp s = .ok (KMerge.new files) := by
  obtain ⟨self', buf', hloop, hsave⟩ := sortLoop_spec std comp h (InStream.size s + 1)
    (ExternalSorter.new max) [] (Nat.lt_succ_of_le (delivers_length_le h))
  have hmax : (ExternalSorter.new (M := M) max).maxElems = max := rfl
  rw [hmax] at hsave
  unfold ExternalSorter.sortUnstable
  rw [hmax, if_neg (Nat.not_lt.mpr hsize), hloop]
  simp only [hsave, hopen]

/-- A buffer that no vector can hold: the sorter throws before it reads. -/
theorem sortUnstable_lengthError {S : Type} [Message M] [InStream S M] (s : S) {max : Nat}
    (hsize : std.maxSize < max) :
    (ExternalSorter.new max).sortUnstable std comp s = .error .lengthError := by
  unfold ExternalSorter.sortUnstable
  exact if_pos hsize

/-- When the counter of the parts comes back to `0`, no part is opened. The merge is then over no
files, and shows nothing. -/
theorem sortUnstable_wraps_zero {S : Type} [Message M] [InStream S M] {s : S} {ms : List M}
    (h : Delivers s ms) {max n : Nat} (hsize : max ≤ std.maxSize) (hmax : 0 < max)
    (hlen : ms.length = max * n) (hn : UInt32.ofNat n = 0) :
    (ExternalSorter.new max).sortUnstable std comp s = .ok (KMerge.new []) := by
  refine sortUnstable_eq std comp h hsize ?_
  have hchunks :
      (savedParts std comp (ExternalSorter.new max) (cutParts max [] ms)).nChunks = 0 := by
    show (0 : UInt32) + UInt32.ofNat (cutParts max [] ms).length = 0
    rw [length_cutParts_mul hmax hlen, hn]
    rfl
  unfold ExternalSorter.openParts
  rw [hchunks]
  rfl

/-- A part is sorted by the comparator before it is saved. -/
theorem partFile_sorted {buf : List M} (hc : StrictWeakOn comp (· ∈ buf)) :
    Sorted comp (partFile std comp buf).msgs :=
  std.sort_sorted (fun a b => comp b a) buf hc.flip

/-- And it has the messages of the buffer. -/
theorem partFile_perm {buf : List M} (hc : StrictWeakOn comp (· ∈ buf)) :
    (partFile std comp buf).msgs.Perm buf :=
  std.sort_perm (fun a b => comp b a) buf hc.flip

variable [Message M]

/-- The merge of opened part files shows a sorted permutation of their parts. Each part is sorted
by itself, so this is what the merge of sorted files shows. -/
theorem merges_of_parts (parts : List (List M))
    (hc : StrictWeakOn comp (· ∈ parts.flatten)) :
    ∃ out, Merges std comp (KMerge.new (parts.map (partFile std comp))) out ∧
      out.Perm parts.flatten ∧ Sorted comp out := by
  have hpart : ∀ p ∈ parts, StrictWeakOn comp (· ∈ p) := fun p hp =>
    hc.mono (fun a ha => List.mem_flatten_of_mem hp ha)
  have hperm : ((parts.map (partFile std comp)).flatMap (fun f => f.msgs)).Perm
      parts.flatten := by
    rw [List.flatMap_map]
    clear hc
    induction parts with
    | nil => exact List.Perm.refl _
    | cons p ps ih =>
        rw [List.flatMap_cons, List.flatten_cons]
        exact (partFile_perm std comp (hpart p (by simp))).append
          (ih (fun q hq => hpart q (List.mem_cons_of_mem p hq)))
  obtain ⟨out, hy, hp, hs⟩ := kmerge_merges std comp (parts.map (partFile std comp))
    (fun f hf => by
      obtain ⟨p, hp, rfl⟩ := List.mem_map.mp hf
      exact partFile_sorted std comp (hpart p hp))
    (hc.mono (fun a ha => hperm.mem_iff.mp ha))
  exact ⟨out, hy, hp.trans hperm, hs⟩

/-- A stream that fits the part counter comes out sorted. Each part has a file of its own, and the
merge of the sorted parts is sorted. -/
theorem sortUnstable_spec {S : Type} [InStream S M] {s : S} {ms : List M}
    (h : Delivers s ms) {max : Nat} (hsize : max ≤ std.maxSize) (hc : StrictWeakOn comp (· ∈ ms))
    (hmax : max = 0 ∨ ms.length ≤ max * (2 ^ 32 - 1)) :
    ∃ merger, (ExternalSorter.new max).sortUnstable std comp s = .ok merger ∧
      ∃ out, Merges std comp merger out ∧
        out.Perm ms ∧ Sorted comp out := by
  have hflat : (cutParts max [] ms).flatten = ms := by
    rw [cutParts_flatten, List.nil_append]
  obtain ⟨out, hy, hp, hs⟩ := merges_of_parts std comp (cutParts max [] ms)
    (by rw [hflat]; exact hc)
  exact ⟨_, sortUnstable_eq std comp h hsize
    (openParts_of_lt std comp max _ (length_cutParts_lt hmax)), out, hy, hflat ▸ hp, hs⟩

/-- Whatever the number of parts, the merge is sorted and yields only messages of the
stream. -/
theorem sortUnstable_mem {S : Type} [InStream S M] {s : S} {ms : List M}
    (h : Delivers s ms) {max : Nat} (hsize : max ≤ std.maxSize)
    (hc : StrictWeakOn comp (· ∈ ms)) :
    ∃ merger, (ExternalSorter.new max).sortUnstable std comp s = .ok merger ∧
      ∃ out, Merges std comp merger out ∧
        (∀ m ∈ out, m ∈ ms) ∧ Sorted comp out := by
  have hflat : (cutParts max [] ms).flatten = ms := by
    rw [cutParts_flatten, List.nil_append]
  obtain ⟨files, hopen, hparts⟩ := openParts_mem std comp max (cutParts max [] ms)
  have hpart : ∀ p ∈ cutParts max [] ms, StrictWeakOn comp (· ∈ p) := fun p hp =>
    hc.mono (fun a ha => hflat ▸ List.mem_flatten_of_mem hp ha)
  -- A record of an opened file is one of its part, and the parts cut the stream.
  have hfile : ∀ f ∈ files, ∀ m ∈ f.msgs, m ∈ ms := by
    intro f hf m hm
    obtain ⟨p, hp, rfl⟩ := hparts f hf
    rw [← hflat]
    exact List.mem_flatten_of_mem hp
      ((partFile_perm std comp (hpart p hp)).mem_iff.mp hm)
  obtain ⟨out, hy, hp, hs⟩ := kmerge_merges std comp files
    (fun f hf => by
      obtain ⟨p, hp, rfl⟩ := hparts f hf
      exact partFile_sorted std comp (hpart p hp))
    (hc.mono (fun a ha => by
      obtain ⟨f, hf, haf⟩ := List.mem_flatMap.mp ha
      exact hfile f hf a haf))
  refine ⟨_, sortUnstable_eq std comp h hsize hopen, out, hy, fun m hm => ?_, hs⟩
  obtain ⟨f, hf, hmf⟩ := List.mem_flatMap.mp (hp.mem_iff.mp hm)
  exact hfile f hf m hmf

end Result

end Sorter

/-! ### The comparators of the stages -/

/-- A comparator with the messages it orders. -/
structure Compare (M : Type) where
  comp : M → M → Bool
  valid : M → Prop
  strictWeak : StrictWeakOn comp valid

namespace Compare

/-- `BigramMore`. -/
def bigramMore : Compare Bigram :=
  ⟨Spec.bigramMore, fun _ => True, gramMore_strictWeakOn _⟩

/-- `TrigramMore`. -/
def trigramMore : Compare Trigram :=
  ⟨Spec.trigramMore, fun _ => True, gramMore_strictWeakOn _⟩

/-- `Lem2AndWordsMore`. -/
def lem2AndWordsMore : Compare Lem2AndWords :=
  ⟨lemAndWordsMore, fun _ => True, lemAndWordsMore_strictWeakOn _⟩

/-- `Lem3AndWordsMore`. -/
def lem3AndWordsMore : Compare Lem3AndWords :=
  ⟨lemAndWordsMore, fun _ => True, lemAndWordsMore_strictWeakOn _⟩

/-- `LemGroupLess`, on the groups whose weight is a number. -/
def lemGroupLess (K R : Type) [Double R] : Compare (LemGroup K R) :=
  ⟨Spec.lemGroupLess, fun g => Double.isNumber g.weight, lemGroupLess_strictWeakOn⟩

end Compare

/-- The external sort refines a sort in memory. Take a stream `s` that delivers the messages
`ms`, and a fresh sorter with a part size that a vector can hold and that cuts them into fewer
than `2 ^ 32` parts, `0` being no limit. Then the iteration over the merger shows a permutation
`out` of `ms`, in which no message is after a later one, and ends. -/
theorem sortUnstable_refines {S M : Type} [Message M] [InStream S M] (std : Stdlib)
    (c : Compare M) (maxElems : Nat) (s : S) (ms : List M) (hs : Delivers s ms)
    (hvalid : ∀ m ∈ ms, c.valid m) (hsize : maxElems ≤ std.maxSize)
    (hparts : maxElems = 0 ∨ ms.length ≤ maxElems * (2 ^ 32 - 1)) :
    ∃ merger out, (ExternalSorter.new maxElems).sortUnstable std c.comp s = .ok merger ∧
      Yields std c.comp (KMergeIterator.new std c.comp merger.readers) out ∧
      out.Perm ms ∧ out.Pairwise (fun x y => c.comp x y = false) := by
  obtain ⟨merger, hok, out, hm, hperm, hsorted⟩ :=
    sortUnstable_spec std c.comp hs hsize (c.strictWeak.mono hvalid) hparts
  exact ⟨merger, out, hok, hm.yields, hperm, hsorted⟩

/-- Two messages, the second one with a default weight. -/
def twoBigrams : List Bigram := [⟨(2, 1), 5⟩, ⟨(1, 3), 0⟩]

/-- Two messages in parts of one. -/
theorem sortUnstable_refines_two :
    ∃ merger out, (ExternalSorter.new 1).sortUnstable Stdlib.sorting
        Compare.bigramMore.comp (IFStreamer.mk twoBigrams) = .ok merger ∧
      Yields Stdlib.sorting Compare.bigramMore.comp
        (KMergeIterator.new Stdlib.sorting Compare.bigramMore.comp merger.readers) out ∧
      out.Perm twoBigrams ∧ out.Pairwise (fun x y => Compare.bigramMore.comp x y = false) :=
  sortUnstable_refines Stdlib.sorting Compare.bigramMore 1 _ twoBigrams (delivers_file _)
    (fun _ _ => trivial) (by decide) (Or.inr (by decide))

/-- When the counter of the parts comes back to `0`, no part is opened and the merge shows
nothing. Here each message is a part of its own. -/
theorem sortUnstable_loses (n : Nat) (hpos : 0 < n) (hn : UInt32.ofNat n = 0) :
    ¬ ∃ merger out, (ExternalSorter.new 1).sortUnstable Stdlib.sorting
        Compare.bigramMore.comp (IFStreamer.mk (List.replicate n (⟨(1, 1), 1⟩ : Bigram)))
          = .ok merger ∧
      Yields Stdlib.sorting Compare.bigramMore.comp
        (KMergeIterator.new Stdlib.sorting Compare.bigramMore.comp merger.readers) out ∧
      out.Perm (List.replicate n ⟨(1, 1), 1⟩) := by
  rintro ⟨merger, out, hok, hy, hperm⟩
  have hlen : (List.replicate n (⟨(1, 1), 1⟩ : Bigram)).length = 1 * n := by simp
  rw [sortUnstable_wraps_zero Stdlib.sorting Compare.bigramMore.comp (delivers_file _)
    (by decide) Nat.one_pos hlen hn] at hok
  cases hok
  -- No reader is open, so the iterator is not good and shows nothing.
  cases out with
  | nil =>
      have hout := hperm.length_eq
      rw [List.length_nil, List.length_replicate] at hout
      omega
  | cons m out => exact absurd hy.1 Bool.false_ne_true

/-- A stream of `2 ^ 32` messages, each a part of its own: the merger shows nothing. -/
theorem sortUnstable_wraps :
    ¬ ∃ merger out, (ExternalSorter.new 1).sortUnstable Stdlib.sorting
        Compare.bigramMore.comp (IFStreamer.mk (List.replicate (2 ^ 32) (⟨(1, 1), 1⟩ : Bigram)))
          = .ok merger ∧
      Yields Stdlib.sorting Compare.bigramMore.comp
        (KMergeIterator.new Stdlib.sorting Compare.bigramMore.comp merger.readers) out ∧
      out.Perm (List.replicate (2 ^ 32) ⟨(1, 1), 1⟩) :=
  sortUnstable_loses (2 ^ 32) (by decide) (by decide)

end Colloc.Proofs

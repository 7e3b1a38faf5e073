import Colloc.Spec.Streamer

/-!
# `Colloc.Spec.Kmerge`: merging sorted files

`KMergeIterator` keeps a heap with one message of each file that is not exhausted, paired
with the index of the file. The heap is the vector inside `std::priority_queue`, front
first. Its comparator `QCmp` looks at the message alone. The readers are of any type that has
`read`: those of whole files (`IFStreamer`), or those of bytes that may be cut short
(`Wire.ByteReader`).

The iterator reuses one target message `msg` for every read. It is moved into the heap after
a successful read, which leaves it empty.

`operator*` gives the loop body a mutable reference to the front of the heap, so `forEach`
runs the body on the front and stores back what the body leaves there. `++it` then pops the
front without looking at it. Every pass takes one message from the heap, so the number of
messages in the heap and in the files bounds the passes; `forEach` counts it down.

`ExternalSorter` writes sorted part files numbered from `0` by an `unsigned int`, and merges
the files whose number is below the counter.
-/

set_option autoImplicit false

namespace Colloc.Spec

open Colloc.Lib

/-! ### `KMergeIterator` -/

/-- The iterator: the heap `q`, the `readers`, the flag `good` and the scratch message. -/
structure KMergeIterator (Rd M : Type) where
  q : List (M × Nat)
  readers : List Rd
  good : Bool
  msg : M

/-- `QCmp`. -/
def qCmp {M : Type} (comp : M → M → Bool) (l r : M × Nat) : Bool := comp l.1 r.1

namespace KMergeIterator

variable {Rd M : Type} [Message M] [MessageReader Rd M] (std : Stdlib) (comp : M → M → Bool)

/-- One reader in the loop of `init_queue`: read into `msg`, and on success move `msg` into
the heap. -/
def initOne (q : List (M × Nat)) (msg : M) (i : Nat) (r : Rd) : List (M × Nat) × M × Rd :=
  match MessageReader.read r msg with
  -- `std::move(msg)` leaves the scratch message empty for the next read. Nothing else does.
  | (true, m, r) => (std.pushHeap (qCmp comp) q (m, i), Message.empty, r)
  -- An exhausted file takes no part in the merge.
  | (false, m, r) => (q, m, r)

/-- The loop of `init_queue` over the readers from index `i` on. -/
def initLoop (q : List (M × Nat)) (msg : M) (i : Nat) :
    List Rd → List (M × Nat) × M × List Rd
  | [] => (q, msg, [])
  | r :: rs =>
      match initOne std comp q msg i r with
      | (q, msg, r) =>
          match initLoop q msg (i + 1) rs with
          | (q, msg, rs) => (q, msg, r :: rs)

/-- `init_queue`: one message from each reader. The source returns `q.empty()`; the caller
here reads it off the new heap. -/
def initQueue (it : KMergeIterator Rd M) : KMergeIterator Rd M :=
  match initLoop std comp it.q it.msg 0 it.readers with
  | (q, msg, readers) => { it with q := q, msg := msg, readers := readers }

/-- The constructor: `good = !init_queue()`. -/
def new (readers : List Rd) : KMergeIterator Rd M :=
  let it := initQueue std comp
    { q := [], readers := readers, good := false, msg := Message.empty }
  { it with good := !it.q.isEmpty }

/-- `operator++`. The front is popped unread, its reader refills the heap, and an empty heap
makes the iterator try every reader again. -/
def next (it : KMergeIterator Rd M) : Except Error (KMergeIterator Rd M) :=
  match it.q with
  -- `top()` of an empty queue is undefined.
  | [] => .error (.badDereference "q.top()")
  | (_, i) :: tail =>
      match it.readers[i]? with
      | none => .error .outOfRange
      | some r =>
          -- The pop sees only what is behind the front, so a moved-from front does no harm.
          let q := std.popHeap (qCmp comp) tail
          match initOne std comp q it.msg i r with
          | (q, msg, r) =>
              let it := { it with q := q, msg := msg, readers := it.readers.set i r }
              -- `good` is `!q.empty()` or what a second `init_queue` finds in the readers.
              if it.q.isEmpty then
                let it := initQueue std comp it
                .ok { it with good := !it.q.isEmpty }
              else .ok { it with good := true }

omit [Message M] [MessageReader Rd M] in
/-- The front of the heap after the loop body changed the message there. -/
def setTop (it : KMergeIterator Rd M) (m : M) : KMergeIterator Rd M :=
  match it.q with
  | [] => it
  | (_, i) :: tail => { it with q := (m, i) :: tail }

omit [Message M] in
/-- The messages in the heap and in the files. -/
def remaining (it : KMergeIterator (IFStreamer M) M) : Nat :=
  it.q.length + (it.readers.map (fun r => r.rest.length)).sum

/-- `for (; it != end(); ++it) body(*it)`, at most `n` passes. The body takes its state and
the message at the front, and returns the new state and what it leaves at the front. -/
def forEach {σ : Type} (body : σ → M → Except Error (σ × M)) :
    Nat → σ → KMergeIterator Rd M → Except Error (σ × KMergeIterator Rd M)
  | 0, s, it => .ok (s, it)
  | n + 1, s, it =>
      if it.good then
        match it.q with
        | [] => .error (.badDereference "q.top()")
        | (m, _) :: _ =>
            match body s m with
            | .error e => .error e
            | .ok (s, m) =>
                match next std comp (it.setTop m) with
                | .error e => .error e
                | .ok it => forEach body n s it
      else .ok (s, it)

end KMergeIterator

/-! ### `KMerge` -/

/-- `KMerge`: the readers of the files to merge. -/
structure KMerge (M : Type) where
  readers : List (IFStreamer M)

namespace KMerge

variable {M : Type} [Message M] (std : Stdlib) (comp : M → M → Bool)

/-- The constructor opens every file, and all of them stay open: a file descriptor for each is
taken to be there. -/
def new (files : List (RecordFile M)) : KMerge M := ⟨files.map IFStreamer.open⟩

/-- `for (auto it = merger.begin(); it != merger.end(); ++it) body(*it)`. The state after
the loop. -/
def forEach {σ : Type} (merger : KMerge M) (body : σ → M → Except Error (σ × M)) (s : σ) :
    Except Error σ :=
  let it := KMergeIterator.new std comp merger.readers
  match it.forEach std comp body it.remaining s with
  | .error e => .error e
  | .ok (s, _) => .ok s

end KMerge

/-! ### `ExternalSorter` -/

/-- `ExternalSorter`: `dir` is the content of `save_dir`. -/
structure ExternalSorter (M : Type) where
  dir : FlatHashMap String (RecordFile M)
  maxElems : Nat
  nChunks : UInt32

namespace ExternalSorter

variable {M : Type} (std : Stdlib) (comp : M → M → Bool)

/-- The constructor empties `save_dir`. -/
def new (maxElems : Nat) : ExternalSorter M := { dir := ∅, maxElems := maxElems, nChunks := 0 }

/-- `file_name`, relative to `save_dir`. -/
def fileName (n : UInt32) : String := Nat.repr n.toNat ++ ".bin"

/-- `sort_save`: the buffer, sorted with the reversed comparator, becomes the next part. -/
def sortSave (self : ExternalSorter M) (buf : List M) : ExternalSorter M :=
  let buf := std.sort (fun a b => comp b a) buf
  { self with
      dir := self.dir.insert (fileName self.nChunks) { total := buf.length, msgs := buf }
      nChunks := self.nChunks + 1 }

/-- The reading loop of `sort_unstable`. It stops at the first `false`; a `true` moves `msg`
into the buffer and leaves it empty. `buf.size() == max_elems` never holds for
`max_elems = 0`. -/
def sortLoop {S : Type} [Message M] [InStream S M] :
    Nat → ExternalSorter M → S → List M → M → Except Error (ExternalSorter M × List M)
  | 0, self, _, buf, _ => .ok (self, buf)
  | n + 1, self, is, buf, msg =>
      match InStream.read is msg with
      | .error e => .error e
      -- The last buffer stays with the caller, empty or not.
      | .ok (false, _, _) => .ok (self, buf)
      | .ok (true, m, is) =>
          let buf := buf ++ [m]
          if buf.length = self.maxElems then
            sortLoop n (self.sortSave std comp buf) is [] Message.empty
          else sortLoop n self is buf Message.empty

/-- Opening the part files `0`, `1`, ... below `nChunks`. -/
def openParts (self : ExternalSorter M) : Except Error (List (RecordFile M)) :=
  ((List.range self.nChunks.toNat).map (fun i => fileName (UInt32.ofNat i))).mapM
    (fun fname => openFile fname (self.dir.lookup fname))

/-- `sort_unstable`. -/
def sortUnstable {S : Type} [Message M] [InStream S M] (self : ExternalSorter M) (is : S) :
    Except Error (KMerge M) :=
  -- `buf.reserve(max_elems)` throws when no vector can be so large. Otherwise it changes the
  -- capacity alone.
  if std.maxSize < self.maxElems then .error .lengthError
  else
    match sortLoop std comp (InStream.size is + 1) self is [] Message.empty with
    | .error e => .error e
    | .ok (self, buf) =>
        let self := if buf.isEmpty then self else self.sortSave std comp buf
        match self.openParts with
        | .error e => .error e
        | .ok files => .ok (KMerge.new files)

end ExternalSorter

/-! ### Group-by over a merge -/

/-- The locals of `groupby_save`, and the messages written so far. -/
structure GroupbyState (K : Type) where
  prev : Gram K
  isStart : Bool
  written : List (Gram K)

variable {K : Type} [IdTuple K] [DecidableEq K]

/-- The loop body of `groupby_save`. Move assignment of messages swaps, so the front is left
with the old `prev`. -/
def groupbyBody (st : GroupbyState K) (cur : Gram K) : GroupbyState K × Gram K :=
  -- The first message opens the group of its key.
  if st.isStart then ({ st with isStart := false, prev := cur }, st.prev)
  else if gramEq cur st.prev then
    ({ st with prev := { st.prev with weight := cur.weight + st.prev.weight } }, cur)
  else ({ st with written := st.written ++ [st.prev], prev := cur }, st.prev)

/-- `groupby_save`: the messages of the written file. -/
def groupbySave (std : Stdlib) (merger : KMerge (Gram K)) : Except Error (List (Gram K)) :=
  match merger.forEach std gramMore (fun st cur => .ok (groupbyBody st cur))
      { prev := Message.empty, isStart := true, written := [] } with
  | .error e => .error e
  | .ok st => .ok (if st.isStart then st.written else st.written ++ [st.prev])

/-- `merge_files<Bigram>` and `merge_files<Trigram>`. The header's total stays `0`. -/
def mergeFiles (std : Stdlib) (files : List (RecordFile (Gram K))) :
    Except Error (RecordFile (Gram K)) :=
  match groupbySave std (KMerge.new files) with
  | .error e => .error e
  | .ok msgs => .ok { total := 0, msgs := msgs }

end Colloc.Spec

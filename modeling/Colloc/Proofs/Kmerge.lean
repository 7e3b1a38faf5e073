import Colloc.Lib.ListMerge
import Colloc.Spec.Kmerge

/-!
# `Colloc.Proofs.Kmerge`: the merge yields a sorted permutation

`Yields it out` is the trace of the iteration: the iterator is good and shows the head of `out` at
the front of its heap, `operator++` succeeds, and the rest follows; at the end the iterator is not
good. So the iteration over `out` ends after exactly `out.length` steps.

The iterator is proved about once, for all kinds of readers. `Unread` is what a reader still has:
the messages that are complete, and what a read leaves in its target behind them. `ReaderLaws` says
that the readers read as their `Unread`s do. The readers of whole files leave nothing behind; those
of files that were cut short may.

`held` is what is left of a file in a state of the iterator: its message in the heap, and what was
not read. `Queue` is the invariant: the heap is a heap, each file has at most one message in it,
and a file without one is exhausted. A file without a message in the heap is read before the
invariant holds again (the `pending` files): in `init_queue` these are the files not yet visited,
and in `operator++` that of the front. `initOne_spec` is the read for both. What a read moves into
the heap is the message merged into the scratch message (`mergeHead`).

With readers that leave nothing behind the scratch message is empty in every state, so `operator++`
takes the head of a list and leaves the others alone (`next_clean`). The iteration is then a merge
of lists by their heads (`Takes`), and what it yields is sorted and complete (`yields_sorted`). The
readers of whole files are of this kind.
-/

set_option autoImplicit false

namespace Colloc.Proofs

open Colloc.Lib
open Colloc.Spec

/-! ### The iteration -/

section Trace
variable {Rd M : Type} [Message M] [MessageReader Rd M] (std : Stdlib) (comp : M → M → Bool)

/-- The iteration from `it` shows the messages of `out` and then ends. -/
def Yields : KMergeIterator Rd M → List M → Prop
  | it, [] => it.good = false
  | it, m :: out =>
      it.good = true ∧ it.q.head?.map Prod.fst = some m ∧
        ∃ it', it.next std comp = .ok it' ∧ Yields it' out

/-- `operator++` does not read the front message: what the loop body leaves there is lost. -/
theorem next_setTop (it : KMergeIterator Rd M) (m : M) :
    (it.setTop m).next std comp = it.next std comp := by
  cases hq : it.q with
  | nil => simp [KMergeIterator.setTop, hq]
  | cons p tail =>
      obtain ⟨m₀, i⟩ := p
      simp only [KMergeIterator.setTop, KMergeIterator.next, hq]

/-- An iterator has one iteration, as each step is a function of the iterator before it. -/
theorem Yields.unique (out : List M) :
    ∀ {out' : List M} {it : KMergeIterator Rd M}, Yields std comp it out →
      Yields std comp it out' → out = out' := by
  induction out with
  | nil =>
      intro out' it h h'
      cases out' with
      | nil => rfl
      | cons m out' =>
          have hend : it.good = false := h
          exact absurd (hend.symm.trans h'.1) Bool.false_ne_true
  | cons m out ih =>
      intro out' it h h'
      cases out' with
      | nil =>
          have hend : it.good = false := h'
          exact absurd (hend.symm.trans h.1) Bool.false_ne_true
      | cons m' out' =>
          obtain ⟨_, hhead, it₁, hnext, hyields⟩ := h
          obtain ⟨_, hhead', it₂, hnext', hyields'⟩ := h'
          obtain rfl := Except.ok.inj (hnext.symm.trans hnext')
          obtain rfl := Option.some.inj (hhead.symm.trans hhead')
          rw [ih hyields hyields']

/-- A loop over the iterator is a fold over the messages it yields, when its body leaves the front
as it was shown. The bound on the passes is at least their number. -/
theorem Yields.forEach {σ : Type} (body : σ → M → Except Error (σ × M)) :
    ∀ (out : List M) (it : KMergeIterator Rd M) (n : Nat) (s : σ),
      Yields std comp it out → out.length ≤ n →
      (it.forEach std comp body n s).map Prod.fst
        = out.foldlM (fun s m => (body s m).map Prod.fst) s := by
  intro out
  induction out with
  | nil =>
      intro it n s h _
      have hgood : it.good = false := h
      cases n with
      | zero => rfl
      | succ n => simp [KMergeIterator.forEach, hgood]; rfl
  | cons m out ih =>
      intro it n s h hn
      obtain ⟨hgood, htop, it', hnext, hrest⟩ := h
      cases n with
      | zero => simp at hn
      | succ n =>
          cases hq : it.q with
          | nil => rw [hq] at htop; simp at htop
          | cons p tail =>
              rw [hq] at htop
              have hp : p.1 = m := by simpa using htop
              rw [List.foldlM_cons]
              -- The body sees the front; what it leaves there is popped unread.
              simp only [KMergeIterator.forEach, hgood, if_true, hq, hp, next_setTop]
              cases hb : body s m with
              | error e => rfl
              | ok r =>
                  simp only [hnext]
                  exact ih it' n r.1 hrest (by simpa using hn)

/-- The end of `operator++`: an empty heap makes it read every reader again. -/
def refilled (it : KMergeIterator Rd M) : KMergeIterator Rd M :=
  if it.q.isEmpty then
    { it.initQueue std comp with good := !(it.initQueue std comp).q.isEmpty }
  else { it with good := true }

/-- `operator++` pops the front, reads its reader, and refills an empty heap. This is the step as
a function of what the read gave. -/
theorem next_eq {it : KMergeIterator Rd M} {m : M} {i : Nat} {tail : List (M × Nat)} {r : Rd}
    (hq : it.q = (m, i) :: tail) (hi : it.readers[i]? = some r) {q : List (M × Nat)} {msg : M}
    {r' : Rd} (hone : KMergeIterator.initOne std comp (std.popHeap (qCmp comp) tail) it.msg i r
      = (q, msg, r')) :
    it.next std comp = .ok (refilled std comp ⟨q, it.readers.set i r', it.good, msg⟩) := by
  unfold KMergeIterator.next refilled
  simp only [hq, hi, hone]
  by_cases hemp : q.isEmpty
  · rw [if_pos hemp, if_pos hemp]
  · rw [if_neg hemp, if_neg hemp]

end Trace

/-! ### What the readers have left -/

/-- What a reader has left: the messages that are complete, and what a failed read merges into its
target behind them. -/
structure Unread (M : Type) where
  msgs : List M
  part : M

section Readers
variable {Rd M : Type} [Message M] [MessageReader Rd M]

/-- A read. What a message that was cut leaves is left once. -/
def Unread.read (u : Unread M) (msg : M) : Bool × M × Unread M :=
  match u.msgs with
  | m :: msgs => (true, Message.mergeFrom msg m, ⟨msgs, u.part⟩)
  | [] => (false, Message.mergeFrom msg u.part, ⟨[], Message.empty⟩)

/-- The readers that satisfy `Ok` read as their `unread`. Whatever is read into a target that
satisfies `T` satisfies `S` when the read succeeds, and `T` when it fails. -/
structure ReaderLaws (unread : Rd → Unread M) (Ok : Rd → Prop) (T S : M → Prop) : Prop where
  empty : T Message.empty
  ok : ∀ {r : Rd}, Ok r → ∀ msg, Ok (MessageReader.read r msg).2.2
  read : ∀ {r : Rd}, Ok r → ∀ msg, (unread r).read msg
    = ((MessageReader.read r msg).1, (MessageReader.read r msg).2.1,
      unread (MessageReader.read r msg).2.2)
  takes : ∀ {r : Rd}, Ok r → ∀ m ∈ (unread r).msgs, ∀ t, T t → S (Message.mergeFrom t m)
  keeps : ∀ {r : Rd}, Ok r → ∀ t, T t → T (Message.mergeFrom t (unread r).part)

/-- The messages that a reader has left. -/
abbrev msgsOf (unread : Rd → Unread M) (r : Rd) : List M := (unread r).msgs

/-- The messages that the reader with index `i` has left. -/
def restAt (rest : Rd → List M) (readers : List Rd) (i : Nat) : List M :=
  match readers[i]? with
  | some r => rest r
  | none => []

/-- What is left of the file `i`: its message in the heap, and what was not read. -/
def held (rest : Rd → List M) (q : List (M × Nat)) (readers : List Rd) (i : Nat) : List M :=
  ofList i q ++ restAt rest readers i

/-- The head of a list merged into a target. -/
def mergeHead (target : M) : List M → List M
  | [] => []
  | m :: l => Message.mergeFrom target m :: l

omit [MessageReader Rd M] in
/-- Merged into an empty target, the head stays. -/
@[simp] theorem mergeHead_empty (l : List M) : mergeHead Message.empty l = l := by
  cases l with
  | nil => rfl
  | cons m l => rw [mergeHead, Message.empty_mergeFrom]

/-- There are as many messages as before. -/
@[simp] theorem length_mergeHead (target : M) (l : List M) :
    (mergeHead target l).length = l.length := by
  cases l with
  | nil => rfl
  | cons m l => rfl

omit [Message M] [MessageReader Rd M] in
/-- The reader with the index has what it has. -/
theorem restAt_of_getElem? {rest : Rd → List M} {readers : List Rd} {i : Nat} {r : Rd}
    (h : readers[i]? = some r) : restAt rest readers i = rest r := by
  simp [restAt, h]

omit [Message M] [MessageReader Rd M] in
/-- Another reader in the place of one. -/
theorem restAt_set {rest : Rd → List M} {readers : List Rd} {i : Nat} (hi : i < readers.length)
    (r : Rd) :
    restAt rest (readers.set i r) = Function.update (restAt rest readers) i (rest r) := by
  funext j
  by_cases hj : j = i
  · subst hj
    rw [Function.update_self, restAt_of_getElem? (List.getElem?_set_self hi)]
  · rw [Function.update_of_ne hj]
    simp [restAt, List.getElem?_set_ne (Ne.symm hj)]

omit [Message M] [MessageReader Rd M] in
/-- No reader, no messages. -/
theorem restAt_of_le {rest : Rd → List M} {readers : List Rd} {i : Nat}
    (h : readers.length ≤ i) : restAt rest readers i = [] := by
  simp [restAt, List.getElem?_eq_none h]

omit [Message M] [MessageReader Rd M] in
/-- The messages under an index are those of a reader. -/
theorem exists_of_mem_restAt {rest : Rd → List M} {readers : List Rd} {i : Nat} {x : M}
    (h : x ∈ restAt rest readers i) : ∃ r ∈ readers, x ∈ rest r := by
  cases hi : readers[i]? with
  | none =>
      rw [restAt_of_le (List.getElem?_eq_none_iff.mp hi)] at h
      exact absurd h List.not_mem_nil
  | some r =>
      rw [restAt_of_getElem? hi] at h
      exact ⟨r, List.mem_of_getElem? hi, h⟩

omit [Message M] [MessageReader Rd M] in
/-- Readers with sorted messages have sorted messages under each index. -/
theorem sorted_restAt {comp : M → M → Bool} {rest : Rd → List M} {readers : List Rd}
    (hs : ∀ r ∈ readers, Sorted comp (rest r)) (i : Nat) : Sorted comp (restAt rest readers i) := by
  cases hi : readers[i]? with
  | none =>
      rw [restAt_of_le (List.getElem?_eq_none_iff.mp hi)]
      exact List.Pairwise.nil
  | some r =>
      rw [restAt_of_getElem? hi]
      exact hs r (List.mem_of_getElem? hi)

omit [Message M] [MessageReader Rd M] in
/-- The messages of all readers. -/
theorem allOf_restAt (rest : Rd → List M) (readers : List Rd) :
    allOf readers.length (restAt rest readers) = readers.flatMap rest := by
  have hrange : (List.range readers.length).map (restAt rest readers) = readers.map rest := by
    refine List.ext_getElem (by simp) (fun i h1 h2 => ?_)
    rw [List.length_map, List.length_range] at h1
    rw [List.getElem_map, List.getElem_map, List.getElem_range,
      restAt_of_getElem? (List.getElem?_eq_getElem h1)]
  rw [allOf, List.flatMap_def, hrange, ← List.flatMap_def]

end Readers

/-! ### The invariant -/

section Invariant
variable {Rd M : Type} [Message M] [MessageReader Rd M] (std : Stdlib) {comp : M → M → Bool}
  {unread : Rd → Unread M} {Ok : Rd → Prop} {T S : M → Prop}

omit [Message M] in
/-- The comparator of the heap orders its entries. -/
theorem qCmp_strictWeakOn (hc : StrictWeakOn comp S) {q : List (M × Nat)}
    (hq : ∀ p ∈ q, S p.1) : StrictWeakOn (qCmp comp) (· ∈ q) :=
  (hc.comap Prod.fst).mono hq

/-- The invariant that ties the heap to the readers. A reader whose index satisfies `pending` may
have messages left and yet none in the heap. -/
structure Queue (comp : M → M → Bool) (unread : Rd → Unread M) (Ok : Rd → Prop) (S : M → Prop)
    (pending : Nat → Prop) (q : List (M × Nat)) (readers : List Rd) : Prop where
  heap : IsHeap (qCmp comp) q
  keeps : ∀ p ∈ q, S p.1
  nodup : (q.map Prod.snd).Nodup
  bound : ∀ p ∈ q, p.2 < readers.length
  ok : ∀ r ∈ readers, Ok r
  exhausted : ∀ i, ¬pending i → i ∉ q.map Prod.snd →
    restAt (msgsOf unread) readers i = []

variable {pending : Nat → Prop} {q : List (M × Nat)} {readers : List Rd}

omit [Message M] [MessageReader Rd M] in
/-- Before the first read the heap is empty, and every reader is pending. -/
theorem Queue.start (hok : ∀ r ∈ readers, Ok r) :
    Queue comp unread Ok S (fun _ => True) [] readers :=
  ⟨fun i _ hi => absurd hi (Nat.not_lt_zero i), fun _ hp => absurd hp List.not_mem_nil,
    List.nodup_nil, fun _ hp => absurd hp List.not_mem_nil, hok, fun _ hi _ => absurd trivial hi⟩

omit [Message M] [MessageReader Rd M] in
/-- More readers may be pending. -/
theorem Queue.mono {pending' : Nat → Prop} (h : Queue comp unread Ok S pending q readers)
    (hp : ∀ i, pending i → pending' i) : Queue comp unread Ok S pending' q readers :=
  { h with exhausted := fun i hi hq => h.exhausted i (fun hpi => hi (hp i hpi)) hq }

omit [Message M] [MessageReader Rd M] in
/-- No message of the file in the heap: what is left was not read. -/
theorem held_of_not_mem {rest : Rd → List M} {i : Nat} (h : i ∉ q.map Prod.snd) :
    held rest q readers i = restAt rest readers i := by
  rw [held, ofList_of_not_mem h, List.nil_append]

omit [Message M] [MessageReader Rd M] in
/-- The front is not after the first message of any file. A file has its first message in the
heap, or none is left. -/
theorem Queue.front_least {m : M} {i : Nat} {tail : List (M × Nat)}
    (h : Queue comp unread Ok S (fun _ => False) ((m, i) :: tail) readers)
    (hc : StrictWeakOn comp S) (j : Nat) :
    ∀ x ∈ (held (msgsOf unread) ((m, i) :: tail) readers j).head?,
      comp m x = false := by
  intro x hx
  by_cases hj : j ∈ ((m, i) :: tail).map Prod.snd
  · obtain ⟨y, ys, hys⟩ := List.exists_cons_of_length_pos
      (by rw [length_ofList]; exact List.count_pos_iff.mpr hj :
        0 < (ofList j ((m, i) :: tail)).length)
    rw [held, hys, List.cons_append, List.head?_cons] at hx
    obtain rfl := Option.some.inj hx
    obtain ⟨p, hp, rfl⟩ := List.mem_map.mp (hys ▸ List.mem_cons_self : y ∈ ofList j _)
    exact h.heap.head_max (qCmp_strictWeakOn hc h.keeps) p (List.mem_of_mem_filter hp)
  · rw [held_of_not_mem hj, h.exhausted j (fun hf => hf) hj] at hx
    exact absurd hx (by simp)

omit [Message M] [MessageReader Rd M] in
/-- An empty heap: nothing is left. -/
theorem Queue.held_nil (h : Queue comp unread Ok S (fun _ => False) q readers) (hq : q = [])
    (j : Nat) : held (msgsOf unread) q readers j = [] := by
  have hj : j ∉ q.map Prod.snd := by
    rw [hq]
    exact List.not_mem_nil
  rw [held_of_not_mem hj]
  exact h.exhausted j (fun hf => hf) hj

omit [Message M] [MessageReader Rd M] in
/-- Nothing is left: the heap is empty. -/
theorem eq_nil_of_held {rest : Rd → List M} (hleft : ∀ j, held rest q readers j = []) :
    q = [] := by
  cases q with
  | nil => rfl
  | cons p tail =>
      have hp := hleft p.2
      rw [held, ← Prod.eta p, ofList_cons_self] at hp
      exact absurd hp (List.cons_ne_nil _ _)

omit [Message M] [MessageReader Rd M] in
/-- Popping the front takes the first message of its file, whose next one is now to be read. The
heap keeps at most one message of each file, so no other file is touched. -/
theorem Queue.pop {m : M} {i : Nat} {tail : List (M × Nat)}
    (h : Queue comp unread Ok S (fun _ => False) ((m, i) :: tail) readers)
    (hc : StrictWeakOn comp S) :
    Queue comp unread Ok S (fun j => j = i) (std.popHeap (qCmp comp) tail) readers ∧
      i ∉ (std.popHeap (qCmp comp) tail).map Prod.snd ∧
      held (msgsOf unread) ((m, i) :: tail) readers i
        = m :: restAt (msgsOf unread) readers i ∧
      held (msgsOf unread) (std.popHeap (qCmp comp) tail) readers
        = Function.update (held (msgsOf unread) ((m, i) :: tail) readers) i
          (restAt (msgsOf unread) readers i) := by
  have hx := qCmp_strictWeakOn hc h.keeps
  have hperm := std.popHeap_perm (qCmp comp) (m, i) tail hx h.heap
  have hidx := hperm.map Prod.snd
  obtain ⟨hi, hnodup⟩ : i ∉ tail.map Prod.snd ∧ (tail.map Prod.snd).Nodup := by
    simpa using h.nodup
  have hi' : i ∉ (std.popHeap (qCmp comp) tail).map Prod.snd := fun hmem =>
    hi (hidx.mem_iff.mp hmem)
  have htail : ∀ p ∈ std.popHeap (qCmp comp) tail, p ∈ (m, i) :: tail :=
    fun p hp => List.mem_cons_of_mem _ (hperm.mem_iff.mp hp)
  refine ⟨⟨std.popHeap_isHeap (qCmp comp) (m, i) tail hx h.heap,
    fun p hp => h.keeps p (htail p hp), hidx.nodup_iff.mpr hnodup,
    fun p hp => h.bound p (htail p hp), h.ok, fun j hj hjq => h.exhausted j (fun hf => hf) ?_⟩,
    hi', ?_, ?_⟩
  · rw [List.map_cons, List.mem_cons]
    exact fun hor => hor.elim hj (fun hmem => hjq (hidx.mem_iff.mpr hmem))
  · rw [held, ofList_cons_self, ofList_of_not_mem hi]
    rfl
  · funext j
    by_cases hj : j = i
    · subst hj
      rw [Function.update_self, held_of_not_mem hi']
    · rw [Function.update_of_ne hj, held, held, ofList_cons_ne (Ne.symm hj),
        ofList_perm hperm hnodup]

/-- One reader that has no message in the heap is read. Its next message enters the heap, merged
into the scratch message, and no other file changes. -/
theorem initOne_spec (hr : ReaderLaws unread Ok T S) (hc : StrictWeakOn comp S)
    (h : Queue comp unread Ok S pending q readers) {i : Nat} {r : Rd}
    (hi : readers[i]? = some r) (hq : i ∉ q.map Prod.snd) {msg : M} (hmsg : T msg) :
    ∃ q' msg' r', KMergeIterator.initOne std comp q msg i r = (q', msg', r') ∧
      Queue comp unread Ok S (fun j => pending j ∧ j ≠ i) q' (readers.set i r') ∧ T msg' ∧
      (∀ p ∈ q', p ∈ q ∨ p.2 = i) ∧
      held (msgsOf unread) q' (readers.set i r')
        = Function.update (held (msgsOf unread) q readers) i
          (mergeHead msg (restAt (msgsOf unread) readers i)) := by
  obtain ⟨hlt, -⟩ := List.getElem?_eq_some_iff.mp hi
  have hok : Ok r := h.ok r (List.mem_of_getElem? hi)
  have hread := hr.read hok msg
  have hok' := hr.ok hok msg
  rcases hres : MessageReader.read r msg with ⟨b, m, r'⟩
  rw [hres] at hread hok'
  simp only [Unread.read] at hread hok'
  have hset : ∀ r₁ ∈ readers.set i r', Ok r₁ := by
    intro r₁ hr₁
    rcases List.mem_or_eq_of_mem_set hr₁ with hr₁ | rfl
    · exact h.ok r₁ hr₁
    · exact hok'
  have hrest : restAt (msgsOf unread) readers i = (unread r).msgs :=
    restAt_of_getElem? hi
  cases hmsgs : (unread r).msgs with
  | nil =>
      -- The read fails: the heap stays.
      rw [hmsgs] at hread
      obtain ⟨rfl, hm, hnext⟩ : false = b ∧ Message.mergeFrom msg (unread r).part = m ∧
        (⟨[], Message.empty⟩ : Unread M) = unread r' := by simpa using hread
      have hrest' : msgsOf unread r' = [] := by rw [msgsOf, ← hnext]
      refine ⟨q, m, r', by simp only [KMergeIterator.initOne, hres], ⟨h.heap, h.keeps, h.nodup,
        fun p hp => by rw [List.length_set]; exact h.bound p hp, hset, fun j hj hjq => ?_⟩,
        hm ▸ hr.keeps hok msg hmsg, fun p hp => Or.inl hp, ?_⟩
      · rw [restAt_set hlt]
        by_cases hji : j = i
        · rw [hji, Function.update_self, hrest']
        · rw [Function.update_of_ne hji]
          exact h.exhausted j (fun hp => hj ⟨hp, hji⟩) hjq
      · funext j
        rw [held, restAt_set hlt, hrest, hmsgs]
        by_cases hji : j = i
        · rw [hji, Function.update_self, Function.update_self, ofList_of_not_mem hq, hrest']
          rfl
        · rw [Function.update_of_ne hji, Function.update_of_ne hji, held]
  | cons x xs =>
      -- The message enters the heap, and the scratch message is moved from.
      rw [hmsgs] at hread
      obtain ⟨rfl, rfl, hnext⟩ : true = b ∧ Message.mergeFrom msg x = m ∧
        (⟨xs, (unread r).part⟩ : Unread M) = unread r' := by simpa using hread
      have hrest' : msgsOf unread r' = xs := by rw [msgsOf, ← hnext]
      have hS : ∀ p ∈ (Message.mergeFrom msg x, i) :: q, S p.1 := by
        intro p hp
        rcases List.mem_cons.mp hp with rfl | hp
        · exact hr.takes hok x (by rw [hmsgs]; exact List.mem_cons_self) msg hmsg
        · exact h.keeps p hp
      have hx := qCmp_strictWeakOn hc hS
      have hperm := std.pushHeap_perm (qCmp comp) q _ hx h.heap
      have hidx := hperm.map Prod.snd
      have hnodup : (((Message.mergeFrom msg x, i) :: q).map Prod.snd).Nodup :=
        List.nodup_cons.mpr ⟨hq, h.nodup⟩
      refine ⟨_, Message.empty, r', by simp only [KMergeIterator.initOne, hres],
        ⟨std.pushHeap_isHeap (qCmp comp) q _ hx h.heap, fun p hp => hS p (hperm.mem_iff.mp hp),
          hidx.nodup_iff.mpr hnodup, fun p hp => ?_, hset, fun j hj hjq => ?_⟩, hr.empty,
        fun p hp => ?_, ?_⟩
      · rw [List.length_set]
        rcases List.mem_cons.mp (hperm.mem_iff.mp hp) with rfl | hp
        · exact hlt
        · exact h.bound p hp
      · rw [hidx.mem_iff, List.map_cons, List.mem_cons, not_or] at hjq
        rw [restAt_set hlt, Function.update_of_ne hjq.1]
        exact h.exhausted j (fun hp => hj ⟨hp, hjq.1⟩) hjq.2
      · rcases List.mem_cons.mp (hperm.mem_iff.mp hp) with rfl | hp
        · exact Or.inr rfl
        · exact Or.inl hp
      · funext j
        rw [held, restAt_set hlt, ofList_perm hperm hnodup, hrest, hmsgs]
        by_cases hji : j = i
        · rw [hji, Function.update_self, Function.update_self, ofList_cons_self,
            ofList_of_not_mem hq, hrest']
          rfl
        · rw [Function.update_of_ne hji, Function.update_of_ne hji, ofList_cons_ne (Ne.symm hji),
            held]

/-- The loop of `init_queue` over the readers behind `done`. The files of `done` stay, and of each
file behind them the next message enters the heap. -/
theorem initLoop_spec (hr : ReaderLaws unread Ok T S) (hc : StrictWeakOn comp S) (rs : List Rd) :
    ∀ (done : List Rd) (q : List (M × Nat)) (msg : M) (pending : Nat → Prop),
      Queue comp unread Ok S pending q (done ++ rs) → (∀ p ∈ q, p.2 < done.length) → T msg →
      ∃ q' msg' rs', KMergeIterator.initLoop std comp q msg done.length rs = (q', msg', rs') ∧
        rs'.length = rs.length ∧
        Queue comp unread Ok S (fun j => pending j ∧ j < done.length) q' (done ++ rs') ∧
        T msg' ∧
        (∀ j < done.length, held (msgsOf unread) q' (done ++ rs') j
          = held (msgsOf unread) q (done ++ rs) j) ∧
        ∀ j, ∃ t, T t ∧ held (msgsOf unread) q' (done ++ rs') j
          = mergeHead t (held (msgsOf unread) q (done ++ rs) j) := by
  induction rs with
  | nil =>
      intro done q msg pending h _ hmsg
      refine ⟨q, msg, [], rfl, rfl, { h with exhausted := fun i hi hq => ?_ }, hmsg,
        fun _ _ => rfl, fun j => ⟨Message.empty, hr.empty, (mergeHead_empty _).symm⟩⟩
      by_cases hlt : i < done.length
      · exact h.exhausted i (fun hp => hi ⟨hp, hlt⟩) hq
      · exact restAt_of_le (by rw [List.append_nil]; omega)
  | cons r rs ih =>
      intro done q msg pending h hlow hmsg
      -- No entry has the index of this reader or a later one.
      have hnew : done.length ∉ q.map Prod.snd := by
        intro hmem
        obtain ⟨p, hp, he⟩ := List.mem_map.mp hmem
        exact absurd (hlow p hp) (by omega)
      have hi : (done ++ r :: rs)[done.length]? = some r := by simp
      obtain ⟨q₁, msg₁, r₁, hone, hok, hmsg₁, hq₁, hheld⟩ := initOne_spec std hr hc h hi hnew hmsg
      have hset : (done ++ r :: rs).set done.length r₁ = (done ++ [r₁]) ++ rs := by simp
      have hlen : (done ++ [r₁]).length = done.length + 1 := by simp
      rw [hset] at hok hheld
      obtain ⟨q', msg', rs', hrun, hlength, hok', hmsg', hbelow, hmerged⟩ :=
        ih (done ++ [r₁]) q₁ msg₁ _ hok
        (fun p hp => by
          rcases hq₁ p hp with hp | hp
          · have := hlow p hp
            omega
          · omega) hmsg₁
      rw [hlen] at hrun hok' hbelow
      have happ : done ++ [r₁] ++ rs' = done ++ r₁ :: rs' := by simp
      rw [happ] at hok' hbelow hmerged
      refine ⟨q', msg', r₁ :: rs', ?_, by rw [List.length_cons, List.length_cons, hlength],
        hok'.mono (fun j hj => ⟨hj.1.1, by omega⟩), hmsg', fun j hj => ?_, fun j => ?_⟩
      · simp only [KMergeIterator.initLoop, hone, hrun]
      · rw [hbelow j (by omega), hheld, Function.update_of_ne (by omega)]
      · by_cases hj : j = done.length
        · refine ⟨msg, hmsg, ?_⟩
          rw [hbelow j (by omega), hheld, hj, Function.update_self, held_of_not_mem hnew]
        · obtain ⟨t, ht, heq⟩ := hmerged j
          exact ⟨t, ht, by rw [heq, hheld, Function.update_of_ne hj]⟩

/-- `init_queue` on an empty heap: each file puts its next message there. The scratch message may
have fields in it, which a message then takes over. -/
theorem initQueue_spec (hr : ReaderLaws unread Ok T S) (hc : StrictWeakOn comp S)
    (it : KMergeIterator Rd M) (h : Queue comp unread Ok S pending it.q it.readers)
    (hq : it.q = []) (hmsg : T it.msg) :
    (it.initQueue std comp).readers.length = it.readers.length ∧
      Queue comp unread Ok S (fun _ => False) (it.initQueue std comp).q
        (it.initQueue std comp).readers ∧
      T (it.initQueue std comp).msg ∧
      ∀ j, ∃ t, T t ∧ held (msgsOf unread) (it.initQueue std comp).q
          (it.initQueue std comp).readers j
        = mergeHead t (held (msgsOf unread) it.q it.readers j) := by
  obtain ⟨q', msg', rs', hrun, hlen, hok, hmsg', -, hmerged⟩ := initLoop_spec std hr hc it.readers
    [] it.q it.msg pending h (fun p hp => by rw [hq] at hp; exact absurd hp List.not_mem_nil) hmsg
  rw [List.length_nil] at hrun hok
  simp only [KMergeIterator.initQueue, hrun]
  exact ⟨hlen, hok.mono (fun j hj => absurd hj.2 (Nat.not_lt_zero j)), hmsg', hmerged⟩

/-- `init_queue` on readers that are all exhausted finds nothing, and nothing is held by it. -/
theorem initQueue_exhausted (hr : ReaderLaws unread Ok T S) (hc : StrictWeakOn comp S)
    (it : KMergeIterator Rd M) (h : Queue comp unread Ok S (fun _ => False) it.q it.readers)
    (hq : it.q = []) (hmsg : T it.msg) :
    (it.initQueue std comp).q = [] ∧
      ∀ j, held (msgsOf unread) (it.initQueue std comp).q (it.initQueue std comp).readers j
        = [] := by
  obtain ⟨-, -, -, hmerged⟩ := initQueue_spec std hr hc it h hq hmsg
  have hnil : ∀ j, held (msgsOf unread) (it.initQueue std comp).q
      (it.initQueue std comp).readers j = [] := by
    intro j
    obtain ⟨t, -, heq⟩ := hmerged j
    rw [heq, h.held_nil hq j]
    rfl
  exact ⟨eq_nil_of_held hnil, hnil⟩

/-- The state of an iterator between two steps. -/
structure IterOk (comp : M → M → Bool) (unread : Rd → Unread M) (Ok : Rd → Prop) (T S : M → Prop)
    (it : KMergeIterator Rd M) : Prop where
  queue : Queue comp unread Ok S (fun _ => False) it.q it.readers
  scratch : T it.msg
  good : it.good = !it.q.isEmpty

/-- The constructor reads the first message of every file. The scratch message passes from one
read to the next. -/
theorem new_spec (hr : ReaderLaws unread Ok T S) (hc : StrictWeakOn comp S)
    (hok : ∀ r ∈ readers, Ok r) :
    (KMergeIterator.new std comp readers).readers.length = readers.length ∧
      IterOk comp unread Ok T S (KMergeIterator.new std comp readers) ∧
      ∀ j, ∃ t, T t ∧ held (msgsOf unread) (KMergeIterator.new std comp readers).q
          (KMergeIterator.new std comp readers).readers j
        = mergeHead t (restAt (msgsOf unread) readers j) := by
  obtain ⟨hlen, hqueue, hmsg, hmerged⟩ := initQueue_spec std hr hc
    ⟨[], readers, false, Message.empty⟩ (Queue.start hok) rfl hr.empty
  exact ⟨hlen, ⟨hqueue, hmsg, rfl⟩, hmerged⟩

/-- One `operator++`: the front leaves its file, and the next message of the file enters the heap,
merged into the scratch message. The front precedes what is left. -/
theorem next_spec (hr : ReaderLaws unread Ok T S) (hc : StrictWeakOn comp S)
    {it : KMergeIterator Rd M} (h : IterOk comp unread Ok T S it) {m : M} {i : Nat}
    {tail : List (M × Nat)} (hq : it.q = (m, i) :: tail) :
    ∃ it' l, it.next std comp = .ok it' ∧ it'.readers.length = it.readers.length ∧
      i < it.readers.length ∧ IterOk comp unread Ok T S it' ∧
      held (msgsOf unread) it.q it.readers i = m :: l ∧
      held (msgsOf unread) it'.q it'.readers
        = Function.update (held (msgsOf unread) it.q it.readers) i
          (mergeHead it.msg l) ∧
      ∀ j, ∀ x ∈ (held (msgsOf unread) it.q it.readers j).head?, comp m x = false := by
  have hqueue := hq ▸ h.queue
  have hlt : i < it.readers.length := hqueue.bound (m, i) List.mem_cons_self
  have hi : it.readers[i]? = some it.readers[i] := List.getElem?_eq_getElem hlt
  obtain ⟨hpop, hnot, hfront, hrest⟩ := hqueue.pop std hc
  obtain ⟨q', msg', r', hone, hok, hmsg', -, hheld⟩ :=
    initOne_spec std hr hc hpop hi hnot h.scratch
  have hnone : Queue comp unread Ok S (fun _ => False) q' (it.readers.set i r') :=
    hok.mono (fun j hj => hj.2 hj.1)
  rw [hrest, Function.update_idem] at hheld
  refine ⟨_, _, next_eq std comp hq hi hone, ?_, hlt, ?_, hq ▸ hfront, ?_,
    hq ▸ hqueue.front_least hc⟩
  all_goals unfold refilled; by_cases hemp : q'.isEmpty
  · -- `init_queue` runs again, on readers that are exhausted.
    obtain ⟨hlen, -⟩ := initQueue_spec std hr hc ⟨q', it.readers.set i r', it.good, msg'⟩ hnone
      (List.isEmpty_iff.mp hemp) hmsg'
    rw [if_pos hemp]
    exact hlen.trans List.length_set
  · rw [if_neg hemp]
    exact List.length_set
  · obtain ⟨-, hfin, hmsgfin, -⟩ := initQueue_spec std hr hc
      ⟨q', it.readers.set i r', it.good, msg'⟩ hnone (List.isEmpty_iff.mp hemp) hmsg'
    rw [if_pos hemp]
    exact ⟨hfin, hmsgfin, rfl⟩
  · rw [if_neg hemp]
    exact ⟨hnone, hmsg', by simp [Bool.not_eq_true _ ▸ hemp]⟩
  · obtain ⟨-, hnil⟩ := initQueue_exhausted std hr hc
      ⟨q', it.readers.set i r', it.good, msg'⟩ hnone (List.isEmpty_iff.mp hemp) hmsg'
    rw [if_pos hemp, hq, ← hheld]
    funext j
    exact (hnil j).trans (hnone.held_nil (List.isEmpty_iff.mp hemp) j).symm
  · rw [if_neg hemp, hq]
    exact hheld

/-- The messages that are left in a state. -/
def leftIn (unread : Rd → Unread M) (it : KMergeIterator Rd M) : List M :=
  allOf it.readers.length (held (msgsOf unread) it.q it.readers)

omit [Message M] [MessageReader Rd M] in
/-- While messages are left, the heap has a front. -/
theorem IterOk.exists_front {it : KMergeIterator Rd M} (h : IterOk comp unread Ok T S it)
    (hleft : leftIn unread it ≠ []) : ∃ m i tail, it.q = (m, i) :: tail := by
  cases hq : it.q with
  | cons p tail => exact ⟨p.1, p.2, tail, rfl⟩
  | nil =>
      exact absurd (List.flatMap_eq_nil_iff.mpr (fun j _ => h.queue.held_nil hq j)) hleft

omit [Message M] [MessageReader Rd M] in
/-- An iterator at its end has nothing left. An empty heap is refilled as long as some reader has
a message. -/
theorem IterOk.end_of_left {it : KMergeIterator Rd M} (h : IterOk comp unread Ok T S it)
    (hleft : leftIn unread it = []) : it.good = false ∧ it.q = [] := by
  have hheld : ∀ j, held (msgsOf unread) it.q it.readers j = [] := by
    intro j
    by_cases hj : j < it.readers.length
    · exact List.flatMap_eq_nil_iff.mp hleft j (List.mem_range.mpr hj)
    · have hnot : j ∉ it.q.map Prod.snd := by
        intro hmem
        obtain ⟨p, hp, rfl⟩ := List.mem_map.mp hmem
        exact hj (h.queue.bound p hp)
      rw [held_of_not_mem hnot]
      exact restAt_of_le (Nat.le_of_not_lt hj)
  have hnil := eq_nil_of_held hheld
  exact ⟨by rw [h.good, hnil]; rfl, hnil⟩

/-- One step takes one message away, so the iteration ends. -/
theorem length_leftIn_next (hr : ReaderLaws unread Ok T S) (hc : StrictWeakOn comp S)
    {it : KMergeIterator Rd M} (h : IterOk comp unread Ok T S it) {m : M} {i : Nat}
    {tail : List (M × Nat)} (hq : it.q = (m, i) :: tail) :
    ∃ it', it.next std comp = .ok it' ∧ IterOk comp unread Ok T S it' ∧
      (leftIn unread it).length = (leftIn unread it').length + 1 := by
  obtain ⟨it', l, hnext, hlen, hlt, hok, hfront, hheld, -⟩ := next_spec std hr hc h hq
  refine ⟨it', hnext, hok, ?_⟩
  have hperm := (allOf_update_perm hlt hfront).length_eq
  rw [List.length_cons] at hperm
  unfold leftIn
  rw [hperm, hheld, hlen]
  refine congrArg (· + 1) (length_allOf_congr (fun j _ => ?_))
  by_cases hj : j = i
  · rw [hj, Function.update_self, Function.update_self, length_mergeHead]
  · rw [Function.update_of_ne hj, Function.update_of_ne hj]

/-- The iteration ends. The induction is on the number of messages that are left. -/
theorem exists_yields (hr : ReaderLaws unread Ok T S) (hc : StrictWeakOn comp S) (n : Nat) :
    ∀ it : KMergeIterator Rd M, IterOk comp unread Ok T S it → (leftIn unread it).length = n →
      ∃ out, Yields std comp it out := by
  induction n with
  | zero => exact fun it h hn => ⟨[], (h.end_of_left (List.eq_nil_of_length_eq_zero hn)).1⟩
  | succ n ih =>
      intro it h hn
      obtain ⟨m, i, tail, hq⟩ := h.exists_front (List.ne_nil_of_length_eq_add_one hn)
      obtain ⟨it', hnext, hok, hlen⟩ := length_leftIn_next std hr hc h hq
      obtain ⟨out, hout⟩ := ih it' hok (by omega)
      refine ⟨m :: out, ?_, by rw [hq]; rfl, it', hnext, hout⟩
      rw [h.good, hq]
      rfl

end Invariant

/-! ### Readers that leave nothing behind -/

section Clean
variable {Rd M : Type} [Message M] [MessageReader Rd M] (std : Stdlib) {comp : M → M → Bool}
  {unread : Rd → Unread M} {Ok : Rd → Prop} {S : M → Prop}

/-- The constructor takes nothing away. The readers leave the scratch message empty, so no message
gets a field of another file. -/
theorem new_clean (hr : ReaderLaws unread Ok (fun t => t = Message.empty) S)
    (hc : StrictWeakOn comp S) {readers : List Rd} (hok : ∀ r ∈ readers, Ok r) :
    (KMergeIterator.new std comp readers).readers.length = readers.length ∧
      IterOk comp unread Ok (fun t => t = Message.empty) S
        (KMergeIterator.new std comp readers) ∧
      held (msgsOf unread) (KMergeIterator.new std comp readers).q
        (KMergeIterator.new std comp readers).readers = restAt (msgsOf unread) readers := by
  obtain ⟨hlen, hiter, hmerged⟩ := new_spec std hr hc hok
  refine ⟨hlen, hiter, funext fun j => ?_⟩
  obtain ⟨t, rfl, heq⟩ := hmerged j
  exact heq.trans (mergeHead_empty _)

/-- One `operator++` takes the head of a list, which precedes the other heads. The lists of the
other files stay as they are. -/
theorem next_clean (hr : ReaderLaws unread Ok (fun t => t = Message.empty) S)
    (hc : StrictWeakOn comp S) {it : KMergeIterator Rd M}
    (h : IterOk comp unread Ok (fun t => t = Message.empty) S it) {m : M} {i : Nat}
    {tail : List (M × Nat)} (hq : it.q = (m, i) :: tail) :
    ∃ it' l, it.next std comp = .ok it' ∧ it'.readers.length = it.readers.length ∧
      IterOk comp unread Ok (fun t => t = Message.empty) S it' ∧
      held (msgsOf unread) it.q it.readers i = m :: l ∧
      held (msgsOf unread) it'.q it'.readers
        = Function.update (held (msgsOf unread) it.q it.readers) i l ∧
      ∀ j, ∀ x ∈ (held (msgsOf unread) it.q it.readers j).head?, comp m x = false := by
  obtain ⟨it', l, hnext, hlen, -, hok, hfront, hheld, hleast⟩ := next_spec std hr hc h hq
  rw [h.scratch, mergeHead_empty] at hheld
  exact ⟨it', l, hnext, hlen, hok, hfront, hheld, hleast⟩

/-- The iteration is a merge of lists by their heads: each step takes the front of the heap, and
nothing that is left in a file precedes it. The induction is on the number of messages that are
left. -/
theorem yields_takes (hr : ReaderLaws unread Ok (fun t => t = Message.empty) S)
    (hc : StrictWeakOn comp S) {lists : Nat → List M} (n : Nat) :
    ∀ (it : KMergeIterator Rd M) (taken : List (M × Nat)),
      IterOk comp unread Ok (fun t => t = Message.empty) S it →
      Takes comp lists taken (held (msgsOf unread) it.q it.readers) →
      (leftIn unread it).length = n →
      ∃ out, Yields std comp it (out.map Prod.fst) ∧
        Takes comp lists (taken ++ out) (fun _ => []) := by
  induction n with
  | zero =>
      intro it taken h ht hn
      obtain ⟨hgood, hq⟩ := h.end_of_left (List.eq_nil_of_length_eq_zero hn)
      refine ⟨[], hgood, ?_⟩
      have hnil : held (msgsOf unread) it.q it.readers = fun _ => [] :=
        funext (h.queue.held_nil hq)
      rw [hnil] at ht
      rwa [List.append_nil]
  | succ n ih =>
      intro it taken h ht hn
      obtain ⟨m, i, tail, hq⟩ := h.exists_front (List.ne_nil_of_length_eq_add_one hn)
      obtain ⟨it', l, hnext, -, hok, hfront, hheld, hleast⟩ := next_clean std hr hc h hq
      obtain ⟨it₁, hnext₁, -, hlen⟩ := length_leftIn_next std hr hc h hq
      obtain rfl : it₁ = it' := Except.ok.inj (hnext₁.symm.trans hnext)
      have ht' := ht.next hfront hleast
      rw [← hheld] at ht'
      obtain ⟨out, hout, htakes⟩ := ih it₁ _ hok ht' (by omega)
      refine ⟨(m, i) :: out, ⟨?_, by rw [hq]; rfl, it₁, hnext, hout⟩, ?_⟩
      · rw [h.good, hq]
        rfl
      · rwa [List.append_assoc] at htakes

/-- A merge of sorted readers yields a sorted permutation of what they have, as any merge of
sorted lists by their heads does. -/
theorem yields_sorted (hr : ReaderLaws unread Ok (fun t => t = Message.empty) S)
    (hc : StrictWeakOn comp S) {readers : List Rd} (hok : ∀ r ∈ readers, Ok r)
    (hs : ∀ r ∈ readers, Sorted comp (unread r).msgs) :
    ∃ out, Yields std comp (KMergeIterator.new std comp readers) out ∧
      out.Perm (readers.flatMap (msgsOf unread)) ∧ Sorted comp out := by
  obtain ⟨-, hiter, hnew⟩ := new_clean std hr hc hok
  have hstart : Takes comp (restAt (msgsOf unread) readers) []
      (held (msgsOf unread) (KMergeIterator.new std comp readers).q
        (KMergeIterator.new std comp readers).readers) := by
    rw [hnew]
    exact Takes.start
  obtain ⟨out, hout, htakes⟩ := yields_takes std hr hc _ _ _ hiter hstart rfl
  rw [List.nil_append] at htakes
  have hperm := htakes.perm (n := readers.length) (fun i hi => restAt_of_le hi)
  have hnone : allOf readers.length (fun _ => ([] : List M)) = [] :=
    List.flatMap_eq_nil_iff.mpr (fun _ _ => rfl)
  rw [allOf_restAt, hnone, List.append_nil] at hperm
  -- What a reader has satisfies `S`, as a read into the empty target gives it.
  have hS : ∀ j, ∀ x ∈ restAt (msgsOf unread) readers j, S x := by
    intro j x hx
    obtain ⟨r, hmem, hxr⟩ := exists_of_mem_restAt hx
    have hread := hr.takes (hok r hmem) x hxr Message.empty rfl
    rwa [Message.empty_mergeFrom] at hread
  exact ⟨out.map Prod.fst, hout, hperm.symm,
    (htakes.sorted (sorted_restAt hs) hc hS).1⟩

end Clean

/-! ### Whole files -/

section Whole
variable {M : Type} [Message M] (std : Stdlib) {comp : M → M → Bool} {S : M → Prop}

/-- What the reader of a whole file has left. A failed read leaves nothing. -/
def wholeFile (is : IFStreamer M) : Unread M := ⟨is.rest, Message.empty⟩

/-- The readers of whole files, whose messages satisfy `S`. A failed read comes at the end of a
file and adds no field, so the scratch message is empty before each read. -/
theorem readerLaws_whole (S : M → Prop) :
    ReaderLaws (wholeFile (M := M)) (fun is => ∀ m ∈ is.rest, S m) (fun t => t = Message.empty)
      S where
  empty := rfl
  ok := by
    rintro ⟨rest⟩ hrest msg
    cases rest with
    | nil => exact hrest
    | cons m rest => exact fun m' hm' => hrest m' (List.mem_cons_of_mem m hm')
  read := by
    rintro ⟨rest⟩ _ msg
    cases rest with
    | nil =>
        show (false, Message.mergeFrom msg Message.empty, _) = (false, msg, _)
        rw [Message.mergeFrom_empty]
        rfl
    | cons m rest => rfl
  takes := by
    rintro ⟨rest⟩ hrest m hm t rfl
    rw [Message.empty_mergeFrom]
    exact hrest m hm
  keeps := by
    rintro ⟨rest⟩ _ t rfl
    exact Message.empty_mergeFrom _

/-- The invariant over whole files. -/
abbrev WholeOk (comp : M → M → Bool) (S : M → Prop) (it : KMergeIterator (IFStreamer M) M) :
    Prop :=
  IterOk comp wholeFile (fun is => ∀ m ∈ is.rest, S m) (fun t => t = Message.empty) S it

/-- What is left in a state is in the heap and in the files. -/
theorem IterOk.length_leftIn {it : KMergeIterator (IFStreamer M) M} (h : WholeOk comp S it) :
    (leftIn wholeFile it).length = it.remaining := by
  have hparts := (allOf_append_perm it.readers.length (fun i => ofList i it.q)
    (restAt IFStreamer.rest it.readers)).length_eq
  rw [List.length_append, (allOf_ofList_perm it.q h.queue.bound).length_eq, allOf_restAt,
    List.length_map, List.length_flatMap] at hparts
  exact hparts

/-- The loop over a merger shows exactly the messages of `out`, in this order. -/
structure Merges (std : Stdlib) (comp : M → M → Bool) (merger : KMerge M) (out : List M) :
    Prop where
  yields : Yields std comp (KMergeIterator.new std comp merger.readers) out
  bound : out.length ≤ (KMergeIterator.new std comp merger.readers).remaining

/-- A loop over a merger is a fold over the messages it shows. -/
theorem Merges.forEach {merger : KMerge M} {out : List M} (h : Merges std comp merger out)
    {σ : Type} (body : σ → M → Except Error (σ × M)) (s : σ) :
    merger.forEach std comp body s = out.foldlM (fun s m => (body s m).map Prod.fst) s := by
  rw [← h.yields.forEach std comp body out _ _ s h.bound]
  simp only [KMerge.forEach]
  cases (KMergeIterator.new std comp merger.readers).forEach std comp body _ s with
  | error e => rfl
  | ok r => rfl

/-- The same for a body that leaves the message at the front as it was, as the loops of the stages
do. -/
theorem Merges.forEach_keep {merger : KMerge M} {out : List M} (h : Merges std comp merger out)
    {σ : Type} (body : σ → M → Except Error σ) (s : σ) :
    merger.forEach std comp (fun s m => (body s m).map (fun s => (s, m))) s
      = out.foldlM body s := by
  rw [h.forEach]
  congr 1
  funext s m
  cases body s m with
  | error e => rfl
  | ok s' => rfl

/-- The same for a body that never throws. The loop is then a fold. -/
theorem Merges.forEach_pure {merger : KMerge M} {out : List M}
    (h : Merges std comp merger out) {σ : Type} (body : σ → M → σ × M) (s : σ) :
    merger.forEach std comp (fun s m => .ok (body s m)) s
      = .ok (out.foldl (fun s m => (body s m).1) s) := by
  rw [h.forEach]
  clear h
  induction out generalizing s with
  | nil => rfl
  | cons m out ih =>
      rw [List.foldlM_cons, List.foldl_cons, ← ih]
      rfl

omit [Message M] in
/-- The messages of the files are those of their readers. -/
theorem restAt_open (files : List (RecordFile M)) (i : Nat) :
    restAt IFStreamer.rest (KMerge.new files).readers i
      = ((files[i]?).map RecordFile.msgs).getD [] := by
  rw [restAt, KMerge.new, List.getElem?_map]
  cases files[i]? with
  | none => rfl
  | some f => rfl

omit [Message M] in
/-- What the readers have left are messages of the files. -/
theorem mem_of_mem_open (files : List (RecordFile M)) :
    ∀ r ∈ (KMerge.new files).readers, ∀ m ∈ r.rest, m ∈ files.flatMap (fun f => f.msgs) := by
  intro r hr m hm
  obtain ⟨f, hf, rfl⟩ := List.mem_map.mp hr
  exact List.mem_flatMap.mpr ⟨f, hf, hm⟩

omit [Message M] in
/-- Readers of sorted files. -/
theorem sorted_open {files : List (RecordFile M)} (hs : ∀ f ∈ files, Sorted comp f.msgs) :
    ∀ r ∈ (KMerge.new files).readers, Sorted comp r.rest := by
  intro r hr
  obtain ⟨f, hf, rfl⟩ := List.mem_map.mp hr
  exact hs f hf

/-- A merge of sorted files shows a sorted permutation of their messages. The comparator need be
an order on these messages only. -/
theorem kmerge_merges (comp : M → M → Bool) (files : List (RecordFile M))
    (hs : ∀ f ∈ files, Sorted comp f.msgs)
    (hc : StrictWeakOn comp (· ∈ files.flatMap (fun f => f.msgs))) :
    ∃ out, Merges std comp (KMerge.new files) out ∧
      out.Perm (files.flatMap (fun f => f.msgs)) ∧ Sorted comp out := by
  have hr := readerLaws_whole (· ∈ files.flatMap (fun f => f.msgs))
  obtain ⟨hlen, hok, hnew⟩ := new_clean std hr hc (mem_of_mem_open files)
  obtain ⟨out, hout, hperm, hsorted⟩ := yields_sorted std hr hc (mem_of_mem_open files)
    (sorted_open hs)
  have hall : (KMerge.new files).readers.flatMap (msgsOf wholeFile)
      = files.flatMap (fun f => f.msgs) := by
    rw [KMerge.new, List.flatMap_map]
    rfl
  rw [hall] at hperm
  refine ⟨out, ⟨hout, ?_⟩, hperm, hsorted⟩
  -- What is left at the start is in the heap and behind the readers.
  have hleft := hok.length_leftIn
  rw [leftIn, hnew, hlen, allOf_restAt, hall, ← hperm.length_eq] at hleft
  exact hleft.le

end Whole

end Colloc.Proofs

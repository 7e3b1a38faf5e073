import Colloc.Lib.Merge
import Colloc.Proofs.Kmerge

/-!
# `Colloc.Proofs.ReadOrder`: the reads of a merge, and what is left between them

A failed read leaves fields in the scratch message of a `KMergeIterator`, and the next successful
read, of any file, merges into them. When that changes a message is a matter of the files alone.

An `Unread` is what is in a file: its complete messages, and the fields that a failed read of what
is behind them leaves. `readOrder` is the order in which a merge of the complete messages comes to
them. It is a function of lists and of `std::priority_queue`, and has no scratch message. `Harmless`
goes through what is found in that order and asks of each complete message that the parts found
since the last one change nothing in it.

`yields_iff_harmless` says that the iterator yields the complete messages exactly when this holds.
As long as it does, the iterator goes through the states of the merge of lists. A merge into a
target only ever adds fields (`Filled`), so from the first message that is changed on, more fields
come out than there are in the files.
-/

set_option autoImplicit false

namespace Colloc.Proofs

open Colloc.Lib
open Colloc.Spec

/-! ### The messages only gain fields -/

/-- A message type with a count of the fields that are set and of the repeated elements. -/
class Filled (M : Type) [Message M] where
  filled : M → Nat
  adds : Adds Message.mergeFrom filled

/-- Id tuples with the number of ids that are not `0`. -/
class FilledIds (K : Type) [IdTuple K] where
  filled : K → Nat
  adds : Adds IdTuple.merge filled

instance : FilledIds UInt32 where
  filled x := if decide (x = 0) then 0 else 1
  adds := by
    have h := Adds.scalar (d := fun x : UInt32 => decide (x = 0)) (z := 0)
      (fun x hx => of_decide_eq_true hx)
    simp only [decide_eq_true_eq] at h ⊢
    exact h

instance {A B : Type} [IdTuple A] [IdTuple B] [FilledIds A] [FilledIds B] :
    FilledIds (A × B) where
  filled ids := FilledIds.filled ids.1 + FilledIds.filled ids.2
  adds := FilledIds.adds.prod FilledIds.adds

/-- A `bytes` field. -/
theorem mergeBytes_adds : Adds mergeBytes (fun b => if b.isEmpty then 0 else 1) := by
  have h := Adds.scalar (d := fun b : Bytes => b.isEmpty) (z := [])
    (fun b hb => List.isEmpty_iff.mp hb)
  simp only [List.isEmpty_iff] at h ⊢
  exact h

instance : Filled StrIdWeight :=
  ⟨_, (mergeBytes_adds.prod (FilledIds.adds (K := UInt32 × UInt32))).comap
    (fun m : StrIdWeight => (m.str, m.id, m.weight))
    (fun ⟨_, _, _⟩ ⟨_, _, _⟩ h => by cases h; rfl) (fun _ _ => rfl)⟩

instance : Filled LemId :=
  ⟨_, (mergeBytes_adds.prod (FilledIds.adds (K := UInt32))).comap
    (fun m : LemId => (m.str, m.id)) (fun ⟨_, _⟩ ⟨_, _⟩ h => by cases h; rfl) (fun _ _ => rfl)⟩

instance : Filled PhraseMsg :=
  ⟨_, Adds.append.comap PhraseMsg.ids (fun ⟨_⟩ ⟨_⟩ h => by cases h; rfl) (fun _ _ => rfl)⟩

instance {K : Type} [IdTuple K] [FilledIds K] : Filled (Gram K) :=
  ⟨_, (FilledIds.adds (K := K × UInt32)).comap (fun m : Gram K => (m.ids, m.weight))
    (fun ⟨_, _⟩ ⟨_, _⟩ h => by cases h; rfl) (fun _ _ => rfl)⟩

instance {K : Type} [IdTuple K] [FilledIds K] : Filled (LemAndWords K) :=
  ⟨_, (FilledIds.adds (K := K × K × UInt32)).comap
    (fun m : LemAndWords K => (m.lids, m.wids, m.count))
    (fun ⟨_, _, _⟩ ⟨_, _, _⟩ h => by cases h; rfl) (fun _ _ => rfl)⟩

instance {K R : Type} [IdTuple K] [FilledIds K] [Double R] : Filled (LemGroup K R) :=
  ⟨_, ((FilledIds.adds (K := K)).prod
      ((Adds.scalar Double.eq_of_isDefault).prod Adds.append)).comap
    (fun m : LemGroup K R => (m.lids, m.weight, m.cases))
    (fun ⟨_, _, _⟩ ⟨_, _, _⟩ h => by cases h; rfl) (fun _ _ => rfl)⟩

/-! ### The order of the reads -/

/-- What a read finds in a file: a complete message, or what it leaves of one that was cut. At the
end of a file it finds a part without fields. -/
inductive Found (M : Type) where
  | message (m : M)
  | part (m : M)

section Order
variable {M : Type} [Message M] (std : Stdlib) (comp : M → M → Bool)

/-- What the next read of a file finds, and what is unread then. -/
def find (u : Unread M) : Found M × Unread M :=
  match u.msgs with
  | m :: msgs => (.message m, ⟨msgs, u.part⟩)
  | [] => (.part u.part, ⟨[], Message.empty⟩)

/-- A message of the file `i` enters the heap. -/
def enter (q : List (M × Nat)) (i : Nat) : Found M → List (M × Nat)
  | .message m => std.pushHeap (qCmp comp) q (m, i)
  | .part _ => q

/-- The first reads, one of each file in the order of the files: what they find, the heap, and what
is unread. -/
def firstReads (q : List (M × Nat)) (i : Nat) :
    List (Unread M) → List (Found M) × List (M × Nat) × List (Unread M)
  | [] => ([], q, [])
  | u :: us =>
      match firstReads (enter std comp q i (find u).1) (i + 1) us with
      | (found, q, us) => ((find u).1 :: found, q, (find u).2 :: us)

/-- The later reads: when a message leaves the heap, its file is read. There are `n` of them at
most. -/
def laterReads : Nat → List (M × Nat) → List (Unread M) → List (Found M)
  | 0, _, _ => []
  | _ + 1, [], _ => []
  | n + 1, (_, i) :: tail, us =>
      match us[i]? with
      | none => []
      | some u =>
          (find u).1 :: laterReads n (enter std comp (std.popHeap (qCmp comp) tail) i (find u).1)
            (us.set i (find u).2)

/-- All reads of a merge of `files`. Each message leaves the heap once. -/
def readOrder (files : List (Unread M)) : List (Found M) :=
  match firstReads std comp [] 0 files with
  | (found, q, us) => found ++ laterReads std comp (files.flatMap Unread.msgs).length q us

/-- The target after a find: a message is moved from, and a part stays in it. -/
def leave (target : M) : Found M → M
  | .message _ => Message.empty
  | .part m => Message.mergeFrom target m

/-- No message is changed by the parts that were found since the message before it. -/
def Harmless : M → List (Found M) → Prop
  | _, [] => True
  | target, .message m :: found =>
      Message.mergeFrom target m = m ∧ Harmless Message.empty found
  | target, .part m :: found => Harmless (Message.mergeFrom target m) found

/-- One find more: a message that is found is not changed, and the rest is harmless. The order is
that of the reads. -/
theorem harmless_find (target : M) (u : Unread M) (found : List (Found M)) :
    Harmless target ((find u).1 :: found) ↔
      mergeHead target u.msgs = u.msgs ∧ Harmless (leave target (find u).1) found := by
  unfold find
  cases u.msgs with
  | nil => exact (and_iff_right rfl).symm
  | cons m msgs =>
      show Message.mergeFrom target m = m ∧ _ ↔ Message.mergeFrom target m :: msgs = m :: msgs ∧ _
      rw [List.cons.injEq, and_iff_left rfl]
      exact Iff.rfl

/-- What is found is harmless when a first part of it is, and then the rest, which starts with the
scratch message that this part leaves. -/
theorem harmless_append (found found' : List (Found M)) :
    ∀ target : M, Harmless target (found ++ found') ↔
      Harmless target found ∧ Harmless (found.foldl leave target) found' := by
  induction found with
  | nil => exact fun target => (and_iff_right trivial).symm
  | cons f found ih =>
      intro target
      cases f with
      | message m =>
          show _ ∧ Harmless Message.empty (found ++ found') ↔ (_ ∧ _) ∧ _
          rw [ih, and_assoc]
          exact Iff.rfl
      | part m => exact ih _

end Order

/-! ### The fields of all messages -/

section Weight
variable {M : Type} [Message M] [Filled M]

/-- The number of fields in messages. -/
def fields (l : List M) : Nat := (l.map Filled.filled).sum

/-- The order of messages does not matter to it. -/
theorem fields_perm {l l' : List M} (h : l.Perm l') : fields l = fields l' :=
  (h.map Filled.filled).sum_nat

/-- A list whose head is merged into a target has at least the fields it had, and more if the merge
has changed it. -/
theorem fields_mergeHead {n i : Nat} (hi : i < n) (lists : Nat → List M) (target : M) :
    fields (allOf n lists)
        ≤ fields (allOf n (Function.update lists i (mergeHead target (lists i)))) ∧
      (fields (allOf n (Function.update lists i (mergeHead target (lists i))))
          ≤ fields (allOf n lists) → mergeHead target (lists i) = lists i) := by
  cases hl : lists i with
  | nil =>
      have hsame : Function.update lists i (mergeHead target []) = lists := by
        rw [mergeHead, ← hl, Function.update_eq_self]
      rw [hsame]
      exact ⟨Nat.le_refl _, fun _ => rfl⟩
  | cons m l =>
      have hbefore := fields_perm (allOf_update_perm hi hl)
      have hafter := fields_perm (@allOf_update_perm _ _ _
        (Function.update lists i (mergeHead target (m :: l))) _ _ hi (Function.update_self i _ _))
      rw [Function.update_idem] at hafter
      rw [hbefore, hafter]
      simp only [fields, List.map_cons, List.sum_cons]
      rcases Filled.adds target m with heq | hlt
      · rw [heq]
        exact ⟨Nat.le_refl _, fun _ => by rw [mergeHead, heq]⟩
      · exact ⟨by omega, fun hle => by omega⟩

end Weight

/-! ### The iterator and the order of the reads -/

section Run
variable {Rd M : Type} [Message M] [MessageReader Rd M] (std : Stdlib) (comp : M → M → Bool)
  {unread : Rd → Unread M} {Ok : Rd → Prop} {T S : M → Prop}

/-- A read that does not change the message it finds: the message that is left takes nothing from
the scratch one, so the file shows it as it stands. -/
theorem initOne_find (hr : ReaderLaws unread Ok T S) {r : Rd} (hok : Ok r)
    (q : List (M × Nat)) {msg : M} (i : Nat)
    (hsame : mergeHead msg (unread r).msgs = (unread r).msgs) :
    ∃ r', KMergeIterator.initOne std comp q msg i r
        = (enter std comp q i (find (unread r)).1, leave msg (find (unread r)).1, r') ∧
      unread r' = (find (unread r)).2 := by
  have hread := hr.read hok msg
  rcases hres : MessageReader.read r msg with ⟨b, m, r'⟩
  rw [hres] at hread
  simp only [Unread.read] at hread
  refine ⟨r', ?_⟩
  unfold find
  cases hmsgs : (unread r).msgs with
  | nil =>
      rw [hmsgs] at hread
      obtain ⟨rfl, rfl, hnext⟩ : false = b ∧ Message.mergeFrom msg (unread r).part = m ∧
        (⟨[], Message.empty⟩ : Unread M) = unread r' := by simpa using hread
      exact ⟨by simp only [KMergeIterator.initOne, hres]; rfl, hnext.symm⟩
  | cons x xs =>
      rw [hmsgs] at hread hsame
      obtain ⟨rfl, rfl, hnext⟩ : true = b ∧ Message.mergeFrom msg x = m ∧
        (⟨xs, (unread r).part⟩ : Unread M) = unread r' := by simpa using hread
      have hx : Message.mergeFrom msg x = x := (List.cons.inj hsame).1
      exact ⟨by simp only [KMergeIterator.initOne, hres, hx]; rfl, hnext.symm⟩

variable {comp}

/-- The first reads. When they are harmless, the loop of `init_queue` finds what they find. They
lose no field, and when they gain none they are harmless. -/
theorem initLoop_harmless [Filled M] (hr : ReaderLaws unread Ok T S) (hc : StrictWeakOn comp S)
    (rs : List Rd) :
    ∀ (done : List Rd) (q : List (M × Nat)) (msg : M) (pending : Nat → Prop),
      Queue comp unread Ok S pending q (done ++ rs) → (∀ p ∈ q, p.2 < done.length) → T msg →
      ∀ q' msg' rs', KMergeIterator.initLoop std comp q msg done.length rs = (q', msg', rs') →
      ∀ n, n = (done ++ rs).length →
      (Harmless msg (firstReads std comp q done.length (rs.map unread)).1 →
        (firstReads std comp q done.length (rs.map unread)).2 = (q', rs'.map unread) ∧
          msg' = (firstReads std comp q done.length (rs.map unread)).1.foldl leave msg ∧
          held (msgsOf unread) q' (done ++ rs') = held (msgsOf unread) q (done ++ rs)) ∧
      fields (allOf n (held (msgsOf unread) q (done ++ rs)))
        ≤ fields (allOf n (held (msgsOf unread) q' (done ++ rs'))) ∧
      (fields (allOf n (held (msgsOf unread) q' (done ++ rs')))
          ≤ fields (allOf n (held (msgsOf unread) q (done ++ rs))) →
        Harmless msg (firstReads std comp q done.length (rs.map unread)).1) := by
  induction rs with
  | nil =>
      intro done q msg pending _ _ _ q' msg' rs' hrun n _
      obtain ⟨rfl, rfl, rfl⟩ : q = q' ∧ msg = msg' ∧ [] = rs' := by
        simpa [KMergeIterator.initLoop] using hrun
      exact ⟨fun _ => ⟨rfl, rfl, rfl⟩, Nat.le_refl _, fun _ => trivial⟩
  | cons r rs ih =>
      intro done q msg pending h hlow hmsg q' msg' rs' hrun n hn
      -- No entry has the index of this reader or a later one.
      have hnew : done.length ∉ q.map Prod.snd := by
        intro hmem
        obtain ⟨p, hp, he⟩ := List.mem_map.mp hmem
        exact absurd (hlow p hp) (by omega)
      have hi : (done ++ r :: rs)[done.length]? = some r := by simp
      have hlt : done.length < n := by
        rw [hn, List.length_append, List.length_cons]
        omega
      have hat : held (msgsOf unread) q (done ++ r :: rs) done.length = (unread r).msgs := by
        rw [held_of_not_mem hnew, restAt_of_getElem? hi]
      obtain ⟨q₁, msg₁, r₁, hone, hok, hmsg₁, hq₁, hheld⟩ := initOne_spec std hr hc h hi hnew hmsg
      have hset : (done ++ r :: rs).set done.length r₁ = (done ++ [r₁]) ++ rs := by simp
      have hlen : (done ++ [r₁]).length = done.length + 1 := by simp
      rw [hset, ← held_of_not_mem hnew] at hheld
      rw [hset] at hok
      rcases hloop : KMergeIterator.initLoop std comp q₁ msg₁ (done.length + 1) rs
        with ⟨q₂, msg₂, rs₂⟩
      obtain ⟨rfl, rfl, rfl⟩ : q₂ = q' ∧ msg₂ = msg' ∧ r₁ :: rs₂ = rs' := by
        simpa only [KMergeIterator.initLoop, hone, hloop, Prod.mk.injEq] using hrun
      have hfields := fields_mergeHead hlt (held (msgsOf unread) q (done ++ r :: rs)) msg
      rw [← hheld] at hfields
      obtain ⟨hgo, hle, hback⟩ := ih (done ++ [r₁]) q₁ msg₁ _ hok
        (fun p hp => by
          rcases hq₁ p hp with hp | hp
          · have := hlow p hp
            omega
          · omega) hmsg₁ q₂ msg₂ rs₂ (by rw [hlen]; exact hloop) n (by rw [hn]; simp)
      have happ : done ++ [r₁] ++ rs₂ = done ++ r₁ :: rs₂ := by simp
      rw [happ, hlen] at hgo hback
      rw [happ] at hle
      -- A read that changes nothing is the one of the list.
      have hstep : mergeHead msg (unread r).msgs = (unread r).msgs →
          q₁ = enter std comp q done.length (find (unread r)).1 ∧
            msg₁ = leave msg (find (unread r)).1 ∧ unread r₁ = (find (unread r)).2 ∧
            held (msgsOf unread) q₁ (done ++ [r₁] ++ rs)
              = held (msgsOf unread) q (done ++ r :: rs) := by
        intro hsame
        obtain ⟨r₂, hone₂, hr₂⟩ := initOne_find std comp hr
          (h.ok r (List.mem_of_getElem? hi)) q done.length hsame
        obtain ⟨rfl, rfl, rfl⟩ : q₁ = _ ∧ msg₁ = _ ∧ r₁ = r₂ := by
          simpa only [Prod.mk.injEq] using hone.symm.trans hone₂
        refine ⟨rfl, rfl, hr₂, ?_⟩
        rw [hheld, hat, hsame, ← hat, Function.update_eq_self]
      simp only [List.map_cons, firstReads, harmless_find]
      refine ⟨?_, Nat.le_trans hfields.1 hle, fun hsmall => ?_⟩
      · rintro ⟨hsame, hharm⟩
        obtain ⟨rfl, rfl, hr₁, heq⟩ := hstep hsame
        obtain ⟨hfirst, hmsg', hheld'⟩ := hgo hharm
        obtain ⟨hq', hus⟩ := Prod.ext_iff.mp hfirst
        exact ⟨Prod.ext hq' (congrArg₂ List.cons hr₁.symm hus), hmsg', hheld'.trans heq⟩
      · have hsame := hfields.2 (Nat.le_trans hle hsmall)
        rw [hat] at hsame
        obtain ⟨rfl, rfl, -, heq⟩ := hstep hsame
        exact ⟨hsame, hback (by rw [heq]; exact hsmall)⟩

/-- One `operator++` that does not change the message it finds. The state is that of the lists, or
the heap is empty in both. -/
theorem next_find (hr : ReaderLaws unread Ok T S) (hc : StrictWeakOn comp S)
    {it : KMergeIterator Rd M} (h : IterOk comp unread Ok T S it) {m : M} {i : Nat}
    {tail : List (M × Nat)} {r : Rd} (hq : it.q = (m, i) :: tail) (hi : it.readers[i]? = some r)
    (hsame : mergeHead it.msg (unread r).msgs = (unread r).msgs) :
    ∃ it', it.next std comp = .ok it' ∧
      ((it'.q = enter std comp (std.popHeap (qCmp comp) tail) i (find (unread r)).1 ∧
          it'.msg = leave it.msg (find (unread r)).1 ∧
          it'.readers.map unread = (it.readers.map unread).set i (find (unread r)).2) ∨
        (enter std comp (std.popHeap (qCmp comp) tail) i (find (unread r)).1 = [] ∧
          it'.q = [])) := by
  have hqueue := hq ▸ h.queue
  obtain ⟨hpop, hnot, -, -⟩ := hqueue.pop std hc
  obtain ⟨r', hone, hr'⟩ := initOne_find std comp hr
    (h.queue.ok r (List.mem_of_getElem? hi)) (std.popHeap (qCmp comp) tail) i hsame
  refine ⟨_, next_eq std comp hq hi hone, ?_⟩
  unfold refilled
  by_cases hemp : (enter std comp (std.popHeap (qCmp comp) tail) i (find (unread r)).1).isEmpty
  · -- No reader has a message left, so `init_queue` finds none.
    have hnil := List.isEmpty_iff.mp hemp
    obtain ⟨q₁, msg₁, r₁, hone₁, hok, hmsg₁, -, -⟩ :=
      initOne_spec std hr hc hpop hi hnot h.scratch
    obtain ⟨rfl, rfl, rfl⟩ : _ = q₁ ∧ _ = msg₁ ∧ r' = r₁ := by
      simpa only [Prod.mk.injEq] using hone.symm.trans hone₁
    have hnone : Queue comp unread Ok S (fun _ => False) _ (it.readers.set i r') :=
      hok.mono (fun j hj => hj.2 hj.1)
    rw [if_pos hemp]
    exact Or.inr ⟨hnil, (initQueue_exhausted std hr hc
      ⟨_, it.readers.set i r', it.good, _⟩ hnone hnil hmsg₁).1⟩
  · rw [if_neg hemp]
    exact Or.inl ⟨rfl, rfl, by rw [← hr', List.map_set]⟩

/-- The later reads. When they are harmless, the iteration yields what is left in the state. It
loses no field, and when it gains none the reads are harmless. -/
theorem yields_harmless [Filled M] (hr : ReaderLaws unread Ok T S) (hc : StrictWeakOn comp S)
    (n : Nat) :
    ∀ (it : KMergeIterator Rd M) (out : List M), IterOk comp unread Ok T S it →
      (leftIn unread it).length ≤ n → Yields std comp it out →
      (Harmless it.msg (laterReads std comp n it.q (it.readers.map unread)) →
        out.Perm (leftIn unread it)) ∧
      fields (leftIn unread it) ≤ fields out ∧
      (fields out ≤ fields (leftIn unread it) →
        Harmless it.msg (laterReads std comp n it.q (it.readers.map unread))) := by
  -- At the end nothing comes out and nothing is left.
  have hdone : ∀ (n : Nat) (it : KMergeIterator Rd M) (out : List M),
      IterOk comp unread Ok T S it → leftIn unread it = [] → Yields std comp it out →
      (Harmless it.msg (laterReads std comp n it.q (it.readers.map unread)) →
        out.Perm (leftIn unread it)) ∧
      fields (leftIn unread it) ≤ fields out ∧
      (fields out ≤ fields (leftIn unread it) →
        Harmless it.msg (laterReads std comp n it.q (it.readers.map unread))) := by
    intro n it out h hleft hout
    obtain ⟨hgood, hq⟩ := h.end_of_left hleft
    obtain rfl : [] = out := Yields.unique std comp [] hgood hout
    have hreads : laterReads std comp n it.q (it.readers.map unread) = [] := by
      rw [hq]
      cases n with
      | zero => rfl
      | succ n => rfl
    rw [hleft, hreads]
    exact ⟨fun _ => List.Perm.refl _, Nat.le_refl _, fun _ => trivial⟩
  induction n with
  | zero =>
      intro it out h hn hout
      exact hdone 0 it out h (List.eq_nil_of_length_eq_zero (Nat.le_zero.mp hn)) hout
  | succ n ih =>
      intro it out h hn hout
      by_cases hleft : leftIn unread it = []
      · exact hdone (n + 1) it out h hleft hout
      · obtain ⟨m, i, tail, hq⟩ := h.exists_front hleft
        obtain ⟨it', l, hnext, hlen, hlt, hok, hfront, hheld, -⟩ := next_spec std hr hc h hq
        have hi : it.readers[i]? = some it.readers[i] := List.getElem?_eq_getElem hlt
        -- Behind the front is what its reader has left.
        have hl : (unread it.readers[i]).msgs = l := by
          obtain ⟨-, -, hfront', -⟩ := (hq ▸ h.queue).pop std hc
          rw [← hq, hfront, restAt_of_getElem? hi] at hfront'
          exact (List.cons.inj hfront').2.symm
        cases out with
        | nil =>
            have hend : it.good = false := hout
            rw [h.good, hq] at hend
            exact absurd hend (by simp)
        | cons m' out =>
            obtain ⟨-, hhead, it₁, hnext₁, hout⟩ := hout
            rw [hq] at hhead
            obtain rfl : m = m' := Option.some.inj hhead
            obtain rfl : it₁ = it' := Except.ok.inj (hnext₁.symm.trans hnext)
            have hperm := allOf_update_perm hlt hfront
            have hmerge := fields_mergeHead hlt
              (Function.update (held (msgsOf unread) it.q it.readers) i l) it.msg
            rw [Function.update_self, Function.update_idem, ← hheld] at hmerge
            have hleft₁ : leftIn unread it₁ = allOf it.readers.length
                (held (msgsOf unread) it₁.q it₁.readers) := by
              rw [leftIn, hlen]
            rw [← hleft₁] at hmerge
            have hcount : (leftIn unread it₁).length ≤ n := by
              obtain ⟨it₂, hnext₂, -, hlen₂⟩ := length_leftIn_next std hr hc h hq
              obtain rfl : it₂ = it₁ := Except.ok.inj (hnext₂.symm.trans hnext)
              omega
            obtain ⟨hgo, hle, hback⟩ := ih it₁ out hok hcount hout
            have hsum : fields (leftIn unread it) = Filled.filled m
                + fields (allOf it.readers.length
                  (Function.update (held (msgsOf unread) it.q it.readers) i l)) :=
              fields_perm hperm
            have hout' : fields (m :: out) = Filled.filled m + fields out := rfl
            -- A harmless step is one of the lists.
            have hstep : mergeHead it.msg l = l →
                (Harmless (leave it.msg (find (unread it.readers[i])).1)
                    (laterReads std comp n (enter std comp (std.popHeap (qCmp comp) tail) i
                      (find (unread it.readers[i])).1)
                      ((it.readers.map unread).set i (find (unread it.readers[i])).2)) ↔
                  Harmless it₁.msg (laterReads std comp n it₁.q (it₁.readers.map unread))) := by
              intro hsame
              rw [← hl] at hsame
              obtain ⟨it₂, hnext₂, hcases⟩ := next_find std hr hc h hq hi hsame
              obtain rfl : it₂ = it₁ := Except.ok.inj (hnext₂.symm.trans hnext)
              rcases hcases with ⟨hq', hmsg', hreaders⟩ | ⟨hnil, hq'⟩
              · rw [hq', hmsg', hreaders]
              · have hzero : ∀ us : List (Unread M), laterReads std comp n [] us = [] := by
                  intro us
                  cases n with
                  | zero => rfl
                  | succ n => rfl
                rw [hnil, hq', hzero, hzero]
                exact Iff.rfl
            have hget : (it.readers.map unread)[i]? = some (unread it.readers[i]) := by
              rw [List.getElem?_map, hi]
              rfl
            simp only [hq, laterReads, hget, harmless_find, hl]
            refine ⟨?_, ?_, fun hsmall => ?_⟩
            · rintro ⟨hsame, hharm⟩
              have hgo' := hgo ((hstep hsame).mp hharm)
              rw [hleft₁, hheld, hsame] at hgo'
              exact (hgo'.cons m).trans hperm.symm
            · rw [hsum, hout']
              exact Nat.add_le_add_left (Nat.le_trans hmerge.1 hle) _
            · rw [hsum, hout'] at hsmall
              have hsmall' := Nat.le_of_add_le_add_left hsmall
              have hsame := hmerge.2 (Nat.le_trans hle hsmall')
              refine ⟨hsame, (hstep hsame).mpr (hback ?_)⟩
              rw [hleft₁, hheld, hsame]
              exact hsmall'

/-- The iteration over readers yields the messages that are complete exactly when nothing in the
order of the reads changes one. Up to the first message that is changed the iterator goes through
the states of the lists, and from then on more fields come out than are there. -/
theorem yields_iff_harmless [Filled M] (hr : ReaderLaws unread Ok T S) (hc : StrictWeakOn comp S)
    {readers : List Rd} (hok : ∀ r ∈ readers, Ok r) {out : List M}
    (hout : Yields std comp (KMergeIterator.new std comp readers) out) :
    out.Perm (readers.flatMap (msgsOf unread)) ↔
      Harmless Message.empty (readOrder std comp (readers.map unread)) := by
  obtain ⟨hlen, hiter, hmerged⟩ := new_spec std hr hc hok
  rcases hloop : KMergeIterator.initLoop std comp [] Message.empty 0 readers with ⟨q, msg, rs⟩
  have hnew : KMergeIterator.new std comp readers = ⟨q, rs, !q.isEmpty, msg⟩ := by
    simp only [KMergeIterator.new, KMergeIterator.initQueue, hloop]
  have hstart : Queue comp unread Ok S (fun _ => True) [] readers := Queue.start hok
  obtain ⟨hgo, hle, hback⟩ := initLoop_harmless std hr hc readers [] [] Message.empty _ hstart
    (fun p hp => absurd hp List.not_mem_nil) hr.empty q msg rs hloop readers.length rfl
  have hnone : held (msgsOf unread) [] readers = restAt (msgsOf unread) readers :=
    funext fun j => held_of_not_mem List.not_mem_nil
  simp only [List.nil_append, List.length_nil, hnone, allOf_restAt] at hgo hle hback
  have hleft : leftIn unread (KMergeIterator.new std comp readers)
      = allOf readers.length (held (msgsOf unread) q rs) := by
    rw [leftIn, hlen, hnew]
  have hcount : (leftIn unread (KMergeIterator.new std comp readers)).length
      = ((readers.map unread).flatMap Unread.msgs).length := by
    rw [List.flatMap_map, leftIn, hlen,
      @length_allOf_congr _ _ _ (restAt (msgsOf unread) readers) (fun j _ => ?_), allOf_restAt]
    obtain ⟨t, -, heq⟩ := hmerged j
    rw [heq, length_mergeHead]
  obtain ⟨hgo', hle', hback'⟩ := yields_harmless std hr hc _ _ out hiter hcount.le hout
  rw [hleft] at hgo' hle' hback'
  rw [hnew] at hgo' hback'
  have horder : readOrder std comp (readers.map unread)
      = (firstReads std comp [] 0 (readers.map unread)).1
        ++ laterReads std comp ((readers.map unread).flatMap Unread.msgs).length
          (firstReads std comp [] 0 (readers.map unread)).2.1
          (firstReads std comp [] 0 (readers.map unread)).2.2 := rfl
  rw [horder, harmless_append]
  constructor
  · intro hperm
    have hfields := fields_perm hperm
    have hfirst := hback (by omega)
    obtain ⟨heq, hmsg, hheld⟩ := hgo hfirst
    refine ⟨hfirst, ?_⟩
    rw [heq, ← hmsg]
    exact hback' (by omega)
  · rintro ⟨hfirst, hlater⟩
    obtain ⟨heq, hmsg, hheld⟩ := hgo hfirst
    rw [heq, ← hmsg] at hlater
    have hperm := hgo' hlater
    rwa [hheld, allOf_restAt] at hperm

end Run

end Colloc.Proofs

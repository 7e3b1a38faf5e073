import Colloc.Proofs.Kmerge

/-!
# `Colloc.Proofs.MergeState`: the states of a merge

What holds between two steps of the loop over a `KMerge`, whatever the loop body has left at the
front of the heap (`Custody`). The heap has the next message of each file that is not exhausted,
and no other, so it is no larger than the number of files. A file is what was taken from it, then
its message in the heap, then what was not read. What was taken is sorted, and nothing that is
left belongs before it.

`Advanced.invariant` is the induction over the steps: each step takes a head as the relation
`Takes` asks for. `merge_custody` reads the custody off it, for every state that the loop reaches.
-/

set_option autoImplicit false

namespace Colloc.Proofs

open Colloc.Lib
open Colloc.Spec

section Loop
variable {M : Type} [Message M] (std : Stdlib) (comp : M → M → Bool)

/-- The states of the loop from `start` on, each with the messages that were taken from the heap
and the indices of their files. Before `++it` the body has left any message at the front. -/
inductive Advanced (start : KMergeIterator (IFStreamer M) M) :
    List (M × Nat) → KMergeIterator (IFStreamer M) M → Prop
  | start : Advanced start [] start
  | next {taken : List (M × Nat)} {it it' : KMergeIterator (IFStreamer M) M} {p : M × Nat}
      {tail : List (M × Nat)} (left : M) : Advanced start taken it → it.q = p :: tail →
      (it.setTop left).next std comp = .ok it' → Advanced start (taken ++ [p]) it'

/-- What holds in a state of the loop over `files`, when `taken` was taken from the heap. -/
structure Custody (files : List (RecordFile M)) (taken : List (M × Nat))
    (it : KMergeIterator (IFStreamer M) M) : Prop where
  one : (it.q.map Prod.snd).Nodup
  few : it.q.length ≤ files.length
  queued : ∀ i, i ∉ it.q.map Prod.snd → restAt IFStreamer.rest it.readers i = []
  files : ∀ i f, files[i]? = some f →
    f.msgs = ofList i taken ++ held IFStreamer.rest it.q it.readers i
  sorted : Sorted comp (taken.map Prod.fst)
  least : ∀ p ∈ taken, ∀ i, ∀ x ∈ held IFStreamer.rest it.q it.readers i, comp p.1 x = false
  steps : ∀ left, it.q ≠ [] → ∃ it', (it.setTop left).next std comp = .ok it'

variable {std comp} {S : M → Prop}

/-- The invariant of the loop: the iterator is in order, and what was taken are heads of the
lists at the start. -/
theorem Advanced.invariant (hc : StrictWeakOn comp S) {start : KMergeIterator (IFStreamer M) M}
    (hstart : WholeOk comp S start) {taken : List (M × Nat)}
    {it : KMergeIterator (IFStreamer M) M} (h : Advanced std comp start taken it) :
    WholeOk comp S it ∧ it.readers.length = start.readers.length ∧
      Takes comp (held (msgsOf wholeFile) start.q start.readers) taken
        (held (msgsOf wholeFile) it.q it.readers) := by
  induction h with
  | start => exact ⟨hstart, rfl, Takes.start⟩
  | @next taken it it' p tail left _ hq hnext ih =>
      obtain ⟨hok, hlen, htakes⟩ := ih
      rw [next_setTop] at hnext
      obtain ⟨it₁, l, hnext₁, hlen₁, hok₁, hfront, hheld, hleast⟩ :=
        next_clean std (readerLaws_whole S) hc hok (m := p.1) (i := p.2) hq
      obtain rfl : it₁ = it' := Except.ok.inj (hnext₁.symm.trans hnext)
      refine ⟨hok₁, hlen₁.trans hlen, ?_⟩
      rw [hheld]
      exact htakes.next hfront hleast

end Loop

/-- Every state of the loop over sorted files: the heap has the next message of each file that
goes on, a file is what was taken from it and then what is left of it, what was taken is sorted
and precedes all that is left, and the next step succeeds. -/
theorem merge_custody {M : Type} [Message M] (std : Stdlib) {comp : M → M → Bool}
    {files : List (RecordFile M)} (hs : ∀ f ∈ files, Sorted comp f.msgs)
    (hc : StrictWeakOn comp (· ∈ files.flatMap (fun f => f.msgs))) {taken : List (M × Nat)}
    {it : KMergeIterator (IFStreamer M) M}
    (h : Advanced std comp (KMergeIterator.new std comp (KMerge.new files).readers) taken it) :
    Custody std comp files taken it := by
  have hr := readerLaws_whole (· ∈ files.flatMap (fun f => f.msgs))
  obtain ⟨hlen, hok, hnew⟩ := new_clean std hr hc (mem_of_mem_open files)
  obtain ⟨hit, hlength, htakes⟩ := h.invariant hc hok
  rw [hnew] at htakes
  have hmem : ∀ j, ∀ x ∈ restAt IFStreamer.rest (KMerge.new files).readers j,
      x ∈ files.flatMap (fun f => f.msgs) := by
    intro j x hx
    obtain ⟨r, hr, hx⟩ := exists_of_mem_restAt hx
    exact mem_of_mem_open files r hr x hx
  obtain ⟨hsorted, hleast⟩ := htakes.sorted (sorted_restAt (sorted_open hs)) hc hmem
  refine ⟨hit.queue.nodup, ?_, fun i => hit.queue.exhausted i (fun hf => hf), fun i f hf => ?_,
    hsorted, hleast, fun left hq => ?_⟩
  · -- The indices in the heap are distinct indices of files.
    have hrange : ∀ i ∈ it.q.map Prod.snd, i ∈ List.range files.length := by
      intro i hi
      obtain ⟨p, hp, rfl⟩ := List.mem_map.mp hi
      have hlt := hit.queue.bound p hp
      rw [hlength, hlen, KMerge.new, List.length_map] at hlt
      exact List.mem_range.mpr hlt
    have hle := (hit.queue.nodup.subperm hrange).length_le
    rwa [List.length_map, List.length_range] at hle
  · have hopen : restAt IFStreamer.rest (KMerge.new files).readers i = f.msgs := by
      rw [restAt_open, hf]
      rfl
    exact hopen.symm.trans (htakes.each i)
  · obtain ⟨p, tail, hq⟩ := List.exists_cons_of_ne_nil hq
    obtain ⟨it', -, hnext, -⟩ := next_clean std hr hc hit (m := p.1) (i := p.2) hq
    exact ⟨it', (next_setTop std comp it left).trans hnext⟩

/-- Two files with the pair `(1, 2)` in both, after one step. -/
def twoFiles : List (RecordFile Bigram) :=
  [{ total := 2, msgs := [⟨(1, 2), 1⟩, ⟨(2, 1), 3⟩] }, { total := 1, msgs := [⟨(1, 2), 4⟩] }]

/-- The pair of the second file was taken, and the heap has its first file left. Both files begin
with this pair. -/
theorem merge_custody_two :
    ∃ it, Advanced Stdlib.sorting gramMore
        (KMergeIterator.new Stdlib.sorting gramMore (KMerge.new twoFiles).readers)
        [(⟨(1, 2), 4⟩, 1)] it ∧
      Custody Stdlib.sorting gramMore twoFiles [(⟨(1, 2), 4⟩, 1)] it := by
  have hstep : ∃ it, Advanced Stdlib.sorting gramMore
      (KMergeIterator.new Stdlib.sorting gramMore (KMerge.new twoFiles).readers)
      ([] ++ [(⟨(1, 2), 4⟩, 1)]) it :=
    ⟨_, Advanced.next ⟨(1, 2), 4⟩ Advanced.start rfl rfl⟩
  obtain ⟨it, hit⟩ := hstep
  have hsorted : ∀ f ∈ twoFiles, Sorted gramMore f.msgs := by
    unfold Sorted
    decide
  exact ⟨it, hit, merge_custody Stdlib.sorting hsorted (gramMore_strictWeakOn _) hit⟩

end Colloc.Proofs

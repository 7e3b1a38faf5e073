import Colloc.Lib.Tally
import Colloc.Proofs.Kmerge
import Mathlib.Data.UInt

/-!
# `Colloc.Proofs.Groupby`: merging part files adds up the weights of equal ids

`groupby_save` carries the record `prev` that is still open. After the messages `l` were
read, the written records with `prev` behind them are the tally of `l` (`GroupInv`). A
message with the ids of `prev` is summed into it, another one closes it
(`groupbyBody_inv`). The merge hands out the messages in ascending order, so an id tuple
that was closed does not come back.

`mergeFiles_spec` is the result: the merged file is the tally of all part files. The weights
are `u32`, so they are summed in `UInt32`. A tally is unique, so the merged file is a function
of the records and not of the files (`mergeFiles_sums`).

`groupby_save` moves the front out of the heap through a `const_cast` and leaves the old
`prev` there. The merge never compares this element again: `operator++` pops it unread
(`next_setTop`).
-/

set_option autoImplicit false

namespace Colloc.Proofs

open Colloc.Lib
open Colloc.Spec
open StrictTotal (less)

variable {K : Type} [IdTuple K] [DecidableEq K]

/-- The records are the sorted table of the weights that `l` gives to its id tuples. -/
abbrev GramTally (l out : List (Gram K)) : Prop := IsTally Gram.ids Gram.weight l out

/-- The state of `groupby_save` after the messages `l`. -/
def GroupInv (l : List (Gram K)) (st : GroupbyState K) : Prop :=
  if st.isStart then l = [] ∧ st.written = []
  else GramTally l (st.written ++ [st.prev])

/-- The file that `groupby_save` leaves when the loop ends in `st`. -/
def groupbyResult (st : GroupbyState K) : List (Gram K) :=
  if st.isStart then st.written else st.written ++ [st.prev]

/-- At the end the state tallies the whole list. The record that is still open is written behind
the loop. -/
theorem GroupInv.result {l : List (Gram K)} {st : GroupbyState K} (h : GroupInv l st) :
    GramTally l (groupbyResult st) := by
  unfold GroupInv at h
  unfold groupbyResult
  cases hst : st.isStart with
  | true =>
      rw [hst, if_pos rfl] at h
      rw [if_pos rfl, h.1, h.2]
      exact IsTally.nil
  | false =>
      rw [hst, if_neg Bool.false_ne_true] at h
      rw [if_neg Bool.false_ne_true]
      exact h

/-- One message that is not before any earlier one. It opens the first group, adds to the open
one, or closes it and opens the next. -/
theorem groupbyBody_inv {l : List (Gram K)} {st : GroupbyState K} {m : Gram K}
    (h : GroupInv l st) (hm : ∀ x ∈ l, gramMore x m = false) :
    GroupInv (l ++ [m]) (groupbyBody st m).1 := by
  unfold GroupInv at h
  unfold groupbyBody
  cases hst : st.isStart with
  | true =>
      rw [hst, if_pos rfl] at h
      rw [if_pos rfl, h.1]
      show GramTally ([] ++ [m]) (st.written ++ [m])
      rw [h.2]
      exact IsTally.nil.push (fun x hx => absurd hx List.not_mem_nil)
  | false =>
      rw [hst, if_neg Bool.false_ne_true] at h
      rw [if_neg Bool.false_ne_true]
      obtain ⟨-, -, hlast⟩ := List.pairwise_append.mp h.ascending
      -- The ids of `prev` were read, so `m` is not before `prev`.
      have hprev : less m.ids st.prev.ids = false := by
        obtain ⟨x, hx, hxk⟩ := List.mem_map.mp (h.sound st.prev (by simp)).1
        rw [← hxk]
        exact hm x hx
      -- Equal ids: the weight goes into `prev`. Otherwise `prev` is closed.
      by_cases heq : m.ids = st.prev.ids
      · have hq : gramEq m st.prev = true := by
          unfold gramEq
          rw [decide_eq_true_eq]
          exact heq
        rw [if_pos hq]
        show GramTally (l ++ [m])
          (st.written ++ [⟨st.prev.ids, m.weight + st.prev.weight⟩])
        exact h.addLast heq rfl rfl
      · have hq : ¬ gramEq m st.prev = true := by
          unfold gramEq
          rw [decide_eq_true_eq]
          exact heq
        rw [if_neg hq]
        show GramTally (l ++ [m]) (st.written ++ [st.prev] ++ [m])
        -- The open record is the last of the table, so `m` is above all records.
        have hgt : less st.prev.ids m.ids = true :=
          (less_or_eq hprev).resolve_right (fun he => heq he.symm)
        refine h.push (fun x hx => ?_)
        rcases List.mem_append.mp hx with hx | hx
        · exact less_trans (hlast x hx st.prev (by simp)) hgt
        · rw [List.mem_singleton.mp hx]
          exact hgt

/-- The whole loop over messages in ascending order. The induction is on the messages, with those
that were read before. -/
theorem groupbyBody_run (ms : List (Gram K)) :
    ∀ (l : List (Gram K)) (st : GroupbyState K),
      GroupInv l st → Sorted gramMore (l ++ ms) →
      GroupInv (l ++ ms) (ms.foldl (fun st m => (groupbyBody st m).1) st) := by
  induction ms with
  | nil =>
      intro l st h _
      rw [List.append_nil]
      exact h
  | cons m ms ih =>
      intro l st h hs
      -- The list is sorted, so `m` is not before what was read.
      have hm : ∀ x ∈ l, gramMore x m = false := fun x hx =>
        (List.pairwise_append.mp hs).2.2 x hx m (by simp)
      have hassoc : l ++ m :: ms = l ++ [m] ++ ms := by simp
      rw [List.foldl_cons, hassoc]
      exact ih (l ++ [m]) _ (groupbyBody_inv h hm) (hassoc ▸ hs)

omit [DecidableEq K] in
/-- Ascending ids are sorted in the sense of the merge. -/
theorem sorted_of_ascending {l : List (Gram K)} (h : Ascending Gram.ids l) :
    Sorted gramMore l :=
  h.imp (fun hab => StrictTotal.asymm _ _ hab)

/-- `merge_files` on sorted part files writes the tally of all their records. The merge is sorted,
so the records of a key come one after another. -/
theorem mergeFiles_spec (std : Stdlib) (files : List (RecordFile (Gram K)))
    (h : ∀ f ∈ files, Sorted gramMore f.msgs) :
    ∃ out, mergeFiles std files = .ok { total := 0, msgs := out } ∧
      GramTally (files.flatMap (fun f => f.msgs)) out := by
  obtain ⟨ms, hm, hperm, hs⟩ := kmerge_merges std gramMore files h (gramMore_strictWeakOn _)
  have hstart : GroupInv ([] : List (Gram K))
      { prev := Message.empty, isStart := true, written := [] } := ⟨rfl, rfl⟩
  have hinv := groupbyBody_run ms [] _ hstart hs
  rw [List.nil_append] at hinv
  refine ⟨_, ?_, hinv.result.perm hperm⟩
  unfold mergeFiles groupbySave
  rw [hm.forEach_pure]
  rfl

/-! ### The merged file as a function of the records -/

/-- Two tallies of the same records are the same file. -/
theorem GramTally.eq_of_perm {l l' out out' : List (Gram K)} (h : GramTally l out)
    (h' : GramTally l' out') (hp : l'.Perm l) : out' = out :=
  IsTable.unique (fun _ _ hids hweight => Gram.ext hids hweight) (fun _ => Iff.rfl)
    (fun _ _ => rfl) (h'.perm hp) h

/-- Merging files with the records of a tally writes the tally. -/
theorem mergeFiles_eq (std : Stdlib) {files : List (RecordFile (Gram K))}
    (h : ∀ f ∈ files, Sorted gramMore f.msgs) {l out : List (Gram K)} (hout : GramTally l out)
    (hp : (files.flatMap (fun f => f.msgs)).Perm l) :
    mergeFiles std files = .ok { total := 0, msgs := out } := by
  obtain ⟨out', hok, htally⟩ := mergeFiles_spec std files h
  rw [hok, hout.eq_of_perm htally hp]

/-- A merged file in the place of its parts: the same tally. -/
theorem GramTally.replace {part rest out merged : List (Gram K)}
    (hmerged : GramTally part merged) (h : GramTally (merged ++ rest) out) :
    GramTally (part ++ rest) out := by
  have hparts : List.Forall₂ GramTally [part] [merged] :=
    List.Forall₂.cons hmerged List.Forall₂.nil
  have hflat : GramTally ([part].flatten ++ rest) out := IsTally.flatten hparts (by simpa using h)
  simpa using hflat

/-- `merge_files` is an order-independent sum of sorted files. From any list of files sorted
by key it writes the sorted table of the keys that occur, each with the sum of its weights
modulo `2 ^ 32`. The order of the files does not matter, and a part of them may be merged
first. -/
theorem mergeFiles_sums (files : List (RecordFile (Gram K)))
    (h : ∀ f ∈ files, Sorted gramMore f.msgs) :
    ∃ out, GramTally (files.flatMap (fun f => f.msgs)) out ∧
      (∀ std, mergeFiles std files = .ok { total := 0, msgs := out }) ∧
      (∀ std files', files'.Perm files →
        mergeFiles std files' = .ok { total := 0, msgs := out }) ∧
      ∀ std std' part rest merged files', files.Perm (part ++ rest) →
        mergeFiles std' part = .ok merged → files'.Perm (merged :: rest) →
          mergeFiles std files' = .ok { total := 0, msgs := out } := by
  obtain ⟨out, -, hout⟩ := mergeFiles_spec Stdlib.sorting files h
  refine ⟨out, hout, fun std => mergeFiles_eq std h hout (List.Perm.refl _),
    fun std files' hp => ?_, fun std std' part rest merged files' hp hpart hp' => ?_⟩
  · exact mergeFiles_eq std (fun f hf => h f (hp.mem_iff.mp hf)) hout (hp.flatMap_right _)
  · have hsorted : ∀ f ∈ part ++ rest, Sorted gramMore f.msgs :=
      fun f hf => h f (hp.mem_iff.mpr hf)
    obtain ⟨mid, hmid, htally⟩ := mergeFiles_spec std' part
      (fun f hf => hsorted f (List.mem_append_left rest hf))
    rw [hmid] at hpart
    obtain rfl := Except.ok.inj hpart
    -- The merged file is sorted as well, so it can take part in a merge.
    have hsorted' : ∀ f ∈ files', Sorted gramMore f.msgs := by
      intro f hf
      rcases List.mem_cons.mp (hp'.mem_iff.mp hf) with rfl | hf
      · exact sorted_of_ascending htally.ascending
      · exact hsorted f (List.mem_append_right part hf)
    obtain ⟨out', hok, htally'⟩ := mergeFiles_spec std files' hsorted'
    have hall : GramTally (part.flatMap (fun f => f.msgs) ++ rest.flatMap (fun f => f.msgs)) out' :=
      htally.replace (htally'.perm (hp'.flatMap_right (fun f => f.msgs)))
    have hperm := hp.flatMap_right (fun f => f.msgs)
    rw [List.flatMap_append] at hperm
    rw [hok, hout.eq_of_perm hall hperm.symm]

/-- Three files, one with a key that repeats and one empty: the counts of the key `1 2` are added
within a file and across the files. -/
theorem mergeFiles_sums_three :
    ∃ out, GramTally [(⟨(1, 2), 1⟩ : Bigram), ⟨(1, 2), 2⟩, ⟨(2, 1), 3⟩, ⟨(1, 2), 4⟩] out ∧
      (∀ std, mergeFiles std
          [{ total := 3, msgs := [(⟨(1, 2), 1⟩ : Bigram), ⟨(1, 2), 2⟩, ⟨(2, 1), 3⟩] },
            { total := 0, msgs := [] }, { total := 1, msgs := [⟨(1, 2), 4⟩] }]
          = .ok { total := 0, msgs := out }) := by
  obtain ⟨out, hout, hok, -⟩ := mergeFiles_sums
    [{ total := 3, msgs := [(⟨(1, 2), 1⟩ : Bigram), ⟨(1, 2), 2⟩, ⟨(2, 1), 3⟩] },
      { total := 0, msgs := [] }, { total := 1, msgs := [⟨(1, 2), 4⟩] }]
    (by
      intro f hf
      simp only [List.mem_cons, List.not_mem_nil, or_false] at hf
      rcases hf with rfl | rfl | rfl
      · simp only [Sorted, List.pairwise_cons]
        decide
      · exact List.Pairwise.nil
      · exact List.pairwise_singleton _ _)
  exact ⟨out, hout, hok⟩

end Colloc.Proofs

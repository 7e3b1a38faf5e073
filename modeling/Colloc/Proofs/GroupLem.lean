import Colloc.Lib.Runs
import Colloc.Proofs.Combos
import Colloc.Proofs.ExternalSort

/-!
# `Colloc.Proofs.GroupLem`: the group-by over lemma tuples

`extend_bigrams` and `extend_trigrams` write one record for each lemma tuple of a gram
(`expanded`), and the external sort brings the records with equal lemma ids together
(`extendGrams_spec`). The loop of `group_lem2` and `group_lem3` carries the message and the
weight of the open group. One step either adds a record to the group or closes it
(`groupBody_same`, `groupBody_next`), so the whole loop emits the runs of the sorted list,
the last one after the loop (`groupLoop_spec`).

`groupLemBy_spec` puts both together: every group of records with equal lemma ids is emitted
once, in ascending order.
-/

set_option autoImplicit false

namespace Colloc.Proofs

open Colloc.Lib
open Colloc.Spec

/-- A transformer delivers the outputs of its inputs, when every input has some. A refill
reads one input only, so an input without outputs would end the stream. -/
theorem delivers_transformer {I O : Type} [Message I] [Message O] (fn : I → Except Error (List O))
    (xs : List I) (hfn : ∀ x ∈ xs, ∃ o out, fn x = .ok (o :: out)) :
    ∀ q : List O, Delivers (Transformer.mk q true ⟨xs⟩ fn)
      (q ++ xs.flatMap (Transformer.outputs fn)) := by
  induction xs with
  | nil =>
      intro q
      induction q with
      | nil =>
          have hread : InStream.read (Transformer.mk [] true ⟨[]⟩ fn) Message.empty
              = .ok (false, Message.empty, Transformer.mk [] false ⟨[]⟩ fn) := rfl
          exact Delivers.done hread
      | cons o q ih =>
          have hread : InStream.read (Transformer.mk (o :: q) true ⟨[]⟩ fn) Message.empty
              = .ok (true, o, Transformer.mk q true ⟨[]⟩ fn) := rfl
          exact Delivers.more hread ih
  | cons x xs ih =>
      intro q
      induction q with
      | nil =>
          -- The queue is empty: the refill reads `x`, whose first output is handed out.
          obtain ⟨o, out, hok⟩ := hfn x List.mem_cons_self
          have hx : fn (Message.mergeFrom Message.empty x) = .ok (o :: out) := by
            rw [Message.empty_mergeFrom]
            exact hok
          have hread : InStream.read (Transformer.mk [] true ⟨x :: xs⟩ fn) Message.empty
              = .ok (true, o, Transformer.mk out true ⟨xs⟩ fn) := by
            simp only [InStream.read, Transformer.read, Transformer.refill, IFStreamer.read,
              List.isEmpty_nil, Bool.and_self, if_true, hx, List.nil_append]
          have hrest := ih (fun y hy => hfn y (List.mem_cons_of_mem x hy)) out
          have hout : Transformer.outputs fn x = o :: out := by
            rw [Transformer.outputs, hx]
          rw [List.nil_append, List.flatMap_cons, hout]
          exact Delivers.more hread hrest
      | cons o q ihq =>
          have hread : InStream.read (Transformer.mk (o :: q) true ⟨x :: xs⟩ fn) Message.empty
              = .ok (true, o, Transformer.mk q true ⟨x :: xs⟩ fn) := rfl
          exact Delivers.more hread ihq

section Expand
variable {K : Type} [LemTuple K] (lems : List (List UInt32))

/-- The records of a gram: one for each of its lemma tuples. -/
def expanded (g : Gram K) : List (LemAndWords K) :=
  (combos lems g.ids).map (fun lid => { lids := lid, wids := g.ids, count := g.weight })

/-- The messages of a record have its readings, its words and its count. A reading that is listed
twice has two messages. -/
theorem mem_expanded {g : Gram K} {it : LemAndWords K} :
    it ∈ expanded lems g ↔ it.lids ∈ combos lems g.ids ∧ it.wids = g.ids ∧ it.count = g.weight := by
  unfold expanded
  rw [List.mem_map]
  constructor
  · rintro ⟨lid, hlid, rfl⟩
    exact ⟨hlid, rfl, rfl⟩
  · rintro ⟨hlid, hw, hc⟩
    refine ⟨it.lids, hlid, ?_⟩
    rw [← hw, ← hc]

variable {lems}

/-- A record over covered words is extended. -/
theorem extendGram_ok {g : Gram K} (h : Covered lems g.ids) :
    extendGram lems g = .ok (expanded lems g) := by
  unfold extendGram
  rw [h.lemTuples]
  rfl

/-- The external sort shows records of the grams, sorted by the lemma ids, and all of them
when the part counter does not wrap. -/
theorem extendGrams_spec (std : Stdlib) {maxElems : Nat} (hsize : maxElems ≤ std.maxSize)
    {grams : RecordFile (Gram K)}
    (hcov : ∀ g ∈ grams.msgs, Covered lems g.ids)
    (hne : ∀ g ∈ grams.msgs, combos lems g.ids ≠ []) :
    ∃ merger out, extendGrams std maxElems grams lems = .ok merger ∧
      Merges std lemAndWordsMore merger out ∧ SortedBy LemAndWords.lids out ∧
      (∀ it ∈ out, it ∈ grams.msgs.flatMap (expanded lems)) ∧
      ((grams.msgs.flatMap (expanded lems)).length ≤ maxElems * (2 ^ 32 - 1) →
        out.Perm (grams.msgs.flatMap (expanded lems))) := by
  -- Every gram has a lemma tuple, so no input of the transformer is without output.
  have hfn : ∀ g ∈ grams.msgs, ∃ o out, extendGram lems g = .ok (o :: out) := by
    intro g hg
    rw [extendGram_ok (hcov g hg)]
    cases hx : expanded lems g with
    | nil => exact absurd (List.map_eq_nil_iff.mp hx) (hne g hg)
    | cons o out => exact ⟨o, out, rfl⟩
  have hdel := delivers_transformer (extendGram lems) grams.msgs hfn []
  have hout : grams.msgs.flatMap (Transformer.outputs (extendGram lems))
      = grams.msgs.flatMap (expanded lems) := by
    refine List.flatMap_congr (fun g hg => ?_)
    rw [Transformer.outputs, Message.empty_mergeFrom, extendGram_ok (hcov g hg)]
  rw [List.nil_append, hout] at hdel
  have hc := lemAndWordsMore_strictWeakOn (· ∈ grams.msgs.flatMap (expanded lems))
  -- Whether the part counter wraps decides if all records come back.
  by_cases hmax : (grams.msgs.flatMap (expanded lems)).length ≤ maxElems * (2 ^ 32 - 1)
  · obtain ⟨merger, hok, out, hm, hperm, hsorted⟩ :=
      sortUnstable_spec std lemAndWordsMore hdel hsize hc (Or.inr hmax)
    exact ⟨merger, out, hok, hm, hsorted, fun it hit => hperm.mem_iff.mp hit, fun _ => hperm⟩
  · obtain ⟨merger, hok, out, hm, hmem, hsorted⟩ :=
      sortUnstable_mem std lemAndWordsMore hdel hsize hc
    exact ⟨merger, out, hok, hm, hsorted, hmem, fun h => absurd h hmax⟩

end Expand

/-! ### The loop -/

section Loop
variable {K R A : Type} [LemTuple K] [DecidableEq K] [Double R] (lems : List (List UInt32))

/-- The case of a record. -/
def caseOf (it : LemAndWords K) : Case K := { wids := it.wids, count := it.count }

/-- The share of a record: its count, divided among the lemma tuples of its words. -/
def shareOf (it : LemAndWords K) : R :=
  (it.count.toNat : R) / ((combos lems it.wids).length : R)

/-- The weight of a group, summed up from zero in the order of its records. -/
def weightOf (run : List (LemAndWords K)) : R := run.foldl (fun w it => w + shareOf lems it) 0

/-- The message of a group. -/
def groupMsg (r : K × List (LemAndWords K)) : LemGroup K R :=
  { lids := r.1, weight := 0, cases := r.2.map caseOf }

/-- The state with the open group `r`. -/
def openGroup (r : K × List (LemAndWords K)) (written : List A) : GroupState K R A :=
  { msg := groupMsg r, weight := weightOf lems r.2, written := written }

omit [DecidableEq K] in
/-- The group in work has the lemmas of its run. -/
@[simp] theorem openGroup_lids (r : K × List (LemAndWords K)) (written : List A) :
    (openGroup lems r written : GroupState K R A).msg.lids = r.1 := rfl

variable {lems} [LawfulTuple K] (emit : LemGroup K R → R → Except Error (Option A))

omit [DecidableEq K] in
/-- A message adds one case to the group in work, and its share to the weight. -/
theorem addCase_eq {st : GroupState K R A} {it : LemAndWords K} (h : Covered lems it.wids) :
    addCase lems st it = .ok { st with
      msg := { st.msg with lids := it.lids, cases := st.msg.cases ++ [caseOf it] }
      weight := st.weight + shareOf lems it } := by
  unfold addCase
  rw [LawfulTuple.times_eq lems it.wids h]
  rfl

/-- A record with the ids of the open group is added to it. -/
theorem groupBody_same {k : K} {run : List (LemAndWords K)} {written : List A}
    {it : LemAndWords K} (h : Covered lems it.wids) (hk : k = it.lids) :
    groupBody emit lems (openGroup lems (k, run) written) it
      = .ok (openGroup lems (k, run ++ [it]) written) := by
  unfold groupBody
  rw [openGroup_lids, if_neg (not_not_intro hk), addCase_eq h]
  simp [openGroup, groupMsg, weightOf, hk]

omit [DecidableEq K] [LawfulTuple K] in
/-- Closing a group that has a record emits it, and clears the message and the weight for the next
one. -/
theorem writeOne_open {r : K × List (LemAndWords K)} {written : List A} {out : Option A}
    (hne : r.2 ≠ []) (hemit : emit (groupMsg r) (weightOf lems r.2) = .ok out) :
    writeOne emit (openGroup lems r written)
      = .ok { msg := Message.empty, weight := 0, written := written ++ out.toList } := by
  have hcases : ¬ ((openGroup lems r written : GroupState K R A).msg.cases.length = 0) := by
    show ¬ (r.2.map caseOf).length = 0
    rw [List.length_map]
    exact fun h0 => hne (List.eq_nil_of_length_eq_zero h0)
  have hopen : emit (openGroup lems r written : GroupState K R A).msg
      (openGroup lems r written : GroupState K R A).weight = .ok out := hemit
  unfold writeOne
  rw [if_neg hcases, hopen]
  rfl

/-- A record with other ids closes the open group and opens the next one. The open group has a
record, so it is emitted. -/
theorem groupBody_next {k : K} {run : List (LemAndWords K)} {written : List A}
    {it : LemAndWords K} {out : Option A} (h : Covered lems it.wids) (hk : k ≠ it.lids)
    (hne : run ≠ []) (hemit : emit (groupMsg (k, run)) (weightOf lems run) = .ok out) :
    groupBody emit lems (openGroup lems (k, run) written) it
      = .ok (openGroup lems (it.lids, [it]) (written ++ out.toList)) := by
  unfold groupBody
  rw [openGroup_lids, if_pos hk, writeOne_open emit hne hemit]
  show addCase lems _ it = _
  rw [addCase_eq h]
  rfl

/-- The loop and the last `write_one` emit the groups of the records. The induction is on
the records, and the open group changes with it. -/
theorem groupLoop_spec {f : K × List (LemAndWords K) → Option A} (ms : List (LemAndWords K)) :
    ∀ (k : K) (run : List (LemAndWords K)) (written : List A), run ≠ [] →
      (∀ it ∈ ms, Covered lems it.wids) →
      (∀ r ∈ runsFrom LemAndWords.lids k run ms,
        emit (groupMsg r) (weightOf lems r.2) = .ok (f r)) →
      ∃ st st', ms.foldlM (groupBody emit lems) (openGroup lems (k, run) written) = .ok st ∧
        writeOne emit st = .ok st' ∧
        st'.written = written
          ++ (runsFrom LemAndWords.lids k run ms).flatMap (fun r => (f r).toList) := by
  induction ms with
  | nil =>
      intro k run written hne _ hemit
      have hone := hemit (k, run) (List.mem_singleton_self _)
      refine ⟨_, _, rfl, writeOne_open emit hne hone, ?_⟩
      simp [runsFrom]
  | cons it ms ih =>
      intro k run written hne hcov hemit
      have hit := hcov it List.mem_cons_self
      have hms := fun x hx => hcov x (List.mem_cons_of_mem it hx)
      rw [runsFrom] at hemit ⊢
      -- The run of `k` goes on, or it is closed and `it` opens the next one.
      by_cases hk : k = it.lids
      · rw [if_pos hk] at hemit ⊢
        rw [List.foldlM_cons, groupBody_same emit hit hk]
        exact ih k (run ++ [it]) written (by simp) hms hemit
      · rw [if_neg hk] at hemit ⊢
        have hone := hemit (k, run) List.mem_cons_self
        obtain ⟨st, st', hfold, hwrite, hwritten⟩ := ih it.lids [it]
          (written ++ (f (k, run)).toList) (by simp) hms
          (fun r hr => hemit r (List.mem_cons_of_mem _ hr))
        refine ⟨st, st', ?_, hwrite, ?_⟩
        · rw [List.foldlM_cons, groupBody_next emit hit hk hne hone]
          exact hfold
        · rw [hwritten, List.append_assoc, List.flatMap_cons]

/-- The first record opens the first group, whatever its ids are. They may be zero as those of the
empty message, which has no cases to emit. -/
theorem groupBody_first {it : LemAndWords K} (h : Covered lems it.wids) :
    groupBody emit lems ({ msg := Message.empty, weight := 0, written := [] } : GroupState K R A) it
      = .ok (openGroup lems (it.lids, [it]) []) := by
  unfold groupBody
  split
  · show addCase lems _ it = _
    rw [addCase_eq h]
    rfl
  · rw [addCase_eq h]
    rfl

/-- The whole loop and the last `write_one`, from the state without a group: each run of equal
tuples is written once, when the next one begins or at the end. -/
theorem groupRuns_spec {f : K × List (LemAndWords K) → Option A} {out : List (LemAndWords K)}
    (hcov : ∀ it ∈ out, Covered lems it.wids)
    (hemit : ∀ r ∈ runs LemAndWords.lids out,
      emit (groupMsg r) (weightOf lems r.2) = .ok (f r)) :
    ∃ st st', out.foldlM (groupBody emit lems) { msg := Message.empty, weight := 0, written := [] }
        = .ok st ∧
      writeOne emit st = .ok st' ∧
      st'.written = (runs LemAndWords.lids out).flatMap (fun r => (f r).toList) := by
  cases out with
  | nil => exact ⟨_, _, rfl, rfl, rfl⟩
  | cons it ms =>
      obtain ⟨st, st', hfold, hwrite, hwritten⟩ := groupLoop_spec emit ms it.lids [it] []
        (by simp) (fun x hx => hcov x (List.mem_cons_of_mem it hx)) hemit
      refine ⟨st, st', ?_, hwrite, hwritten⟩
      rw [List.foldlM_cons, groupBody_first emit (hcov it List.mem_cons_self)]
      exact hfold

/-- The whole stage: the groups of the sorted records, each emitted once. A group that is
emitted has records, all with its ids. -/
theorem groupLemBy_spec (std : Stdlib) {grams : RecordFile (Gram K)}
    {f : K × List (LemAndWords K) → Option A}
    (hcov : ∀ g ∈ grams.msgs, Covered lems g.ids)
    (hne : ∀ g ∈ grams.msgs, combos lems g.ids ≠ [])
    (hemit : ∀ (k : K) (run : List (LemAndWords K)), run ≠ [] → (∀ it ∈ run, it.lids = k) →
      (∀ it ∈ run, ∃ g ∈ grams.msgs, it ∈ expanded lems g) →
      emit (groupMsg (k, run)) (weightOf lems run) = .ok (f (k, run))) :
    ∃ out, SortedBy LemAndWords.lids out ∧
      (∀ it ∈ out, it ∈ grams.msgs.flatMap (expanded lems)) ∧
      ((grams.msgs.flatMap (expanded lems)).length ≤ 80000000 * (2 ^ 32 - 1) →
        out.Perm (grams.msgs.flatMap (expanded lems))) ∧
      groupLemBy std emit lems grams
        = .ok ((runs LemAndWords.lids out).flatMap (fun r => (f r).toList)) := by
  obtain ⟨merger, out, hok, hm, hsorted, hmem, hperm⟩ :=
    extendGrams_spec std (std.le_maxSize (by decide : 80000000 ≤ 2 ^ 32)) hcov hne
  refine ⟨out, hsorted, hmem, hperm, ?_⟩
  have hfrom : ∀ it ∈ out, ∃ g ∈ grams.msgs, it ∈ expanded lems g := fun it hit =>
    List.mem_flatMap.mp (hmem it hit)
  have hwids : ∀ it ∈ out, Covered lems it.wids := by
    intro it hit
    obtain ⟨g, hg, hmem⟩ := hfrom it hit
    rw [((mem_expanded lems).mp hmem).2.1]
    exact hcov g hg
  have hemit' : ∀ r ∈ runs LemAndWords.lids out,
      emit (groupMsg r) (weightOf lems r.2) = .ok (f r) := by
    intro r hr
    obtain ⟨hrun, hkeys⟩ := of_mem_runs LemAndWords.lids hsorted hr
    exact hemit r.1 r.2 hrun (fun it hit => (hkeys it hit).2)
      (fun it hit => hfrom it (hkeys it hit).1)
  obtain ⟨st, st', hfold, hwrite, hwritten⟩ := groupRuns_spec emit hwids hemit'
  unfold groupLemBy
  simp only [hok, hm.forEach_keep, hfold, hwrite, hwritten]

end Loop

end Colloc.Proofs

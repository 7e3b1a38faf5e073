import Colloc.Lib.CorpusParts
import Colloc.Proofs.TextCorpus

/-!
# `Colloc.Proofs.Apriori`: the pairs of a triple

`extended3.bin` is computed from a selection of windows, and `extended2.bin` from all of them. The
weight of a triple is still no greater than that of the pair that it starts or ends with. So a
threshold that a triple passes is passed by its pairs, and by document frequencies too. Only the
score can keep a pair of a filtered triple out of `bifiltered.bin`.
-/

set_option autoImplicit false

namespace Colloc.Proofs

open Colloc.Lib
open Colloc.Spec

/-- The first two or the last two lemmas of a triple. -/
def IsPart (p : Idd) (t : Iddd) : Prop := p = (t.1, t.2.1) ∨ p = t.2

/-- A part of a triple is two of its ids side by side. -/
theorem IsPart.isInfix {p : Idd} {t : Iddd} (h : IsPart p t) :
    IdTuple.toList p <:+: IdTuple.toList t := by
  rcases h with rfl | rfl
  · exact ⟨[], [t.2.2], rfl⟩
  · exact ⟨[t.1], [], rfl⟩

/-- A triple is no heavier than its parts. -/
theorem IsPart.weight_le {p : Idd} {t : Iddd} (h : IsPart p t) (c : Corpus UInt32 UInt32)
    (sel : Set (List UInt32)) :
    c.weight sel (IdTuple.toList t) ≤ c.weight Set.univ (IdTuple.toList p) := by
  rcases h with rfl | rfl
  · exact c.weight_le_dropLast sel [t.1, t.2.1] t.2.2
  · exact c.weight_le_tail sel (List.cons_ne_nil _ _) t.1

/-! ### The files of a run -/

namespace Run
variable {docs : List (List Phrase)} {std : Stdlib} {dsave : String} {th : Thresholds ℚ}
  {c : Converted} {lm : Lemmatized} (r : Run ℚ std dsave th c lm)

/-- The pairs of the triples of `extended3.bin` are in `extended2.bin`. With the bounds of the
main program, a pair of a triple of `trifiltered.bin` is kept if and only if its score is above
the bound. -/
structure Apriori : Prop where
  extended : ∀ lg ∈ r.extended3.msgs, ∀ p, IsPart p lg.lids →
    ∃ lg2 ∈ r.extended2.msgs, lg2.lids = p
  filtered : th.bi1 ≤ th.tri1 → ∀ lg ∈ r.trifiltered.msgs, ∀ lg2 ∈ r.extended2.msgs,
    IsPart lg2.lids lg.lids → (lg2 ∈ r.bifiltered.msgs ↔ th.bi2 < lg2.weight)

variable (h : Ready docs c lm) (hfit : SortsFit r)

include h hfit

/-- The filters compare the document frequencies of the corpus. -/
theorem mem_bifiltered_iff (lg : Lem2Group ℚ) : lg ∈ r.bifiltered.msgs ↔
    lg ∈ r.extended2.msgs ∧
      th.bi1.toNat < (idCorpus docs (tableOf lm.lems)).docFreq (IdTuple.toList lg.lids) ∧
      th.bi2 < lg.weight := by
  rw [docFreq_idCorpus listsNgrams_pairs rfl]
  exact mem_filtered_iff h.few (r.bifiltered_perm h.splits hfit.groups) lg

omit hfit in
/-- The filtered triples of a run are those of `extended3.bin` above both bounds. -/
theorem mem_trifiltered_iff (lg : Lem3Group ℚ) : lg ∈ r.trifiltered.msgs ↔
    lg ∈ r.extended3.msgs ∧
      th.tri1.toNat < (idCorpus docs (tableOf lm.lems)).docFreq (IdTuple.toList lg.lids) ∧
      th.tri2 < lg.weight := by
  rw [docFreq_idCorpus listsNgrams_triples rfl]
  exact mem_filtered_iff h.few (r.trifiltered_perm h.splits) lg

variable (hwords : c.corpus.flatten.length < 2 ^ 32)

include hwords

/-- Both clauses, for each run: a triple and its parts have the same windows to draw from, so the
part is recorded and weighs no less, and it is in no fewer documents. -/
theorem apriori (hle : th.lem2 ≤ th.lem3) : r.Apriori := by
  refine ⟨fun lg hlg p hp => ?_, fun hbi lg hlg lg2 hlg2 hp => ?_⟩
  · obtain ⟨lidW2, hfile2, hscore2⟩ := r.extended2_scored h hwords hfit
    obtain ⟨lidW3, hfile3, hscore3⟩ := r.extended3_scored h hwords hfit
    obtain ⟨harises, habove⟩ := ((r.countsTriples h hwords hfit).mem_extended_iff (fun _ => rfl)
      hscore3 hfile3 lg.lids).mp (List.mem_map_of_mem hlg)
    refine List.mem_map.mp (((r.countsPairs h hwords).mem_extended_iff (fun _ => rfl) hscore2 hfile2
      p).mpr ⟨Corpus.arises_of_part _ hp.isInfix (List.cons_ne_nil _ _) harises, ?_⟩)
    exact hle.trans_lt (habove.trans_le (hp.weight_le _ _))
  · obtain ⟨-, hdocs, -⟩ := (r.mem_trifiltered_iff h lg).mp hlg
    have hfreq := (idCorpus docs (tableOf lm.lems)).docFreq_le_of_part hp.isInfix
      (List.cons_ne_nil _ _)
    have hbound : th.bi1.toNat ≤ th.tri1.toNat := UInt32.le_iff_toNat_le.mp hbi
    rw [r.mem_bifiltered_iff h hfit]
    exact ⟨fun hkept => hkept.2.2, fun hscore => ⟨hlg2, by omega, hscore⟩⟩

end Run

end Colloc.Proofs

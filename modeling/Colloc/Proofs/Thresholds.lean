import Colloc.Proofs.Run

/-!
# `Colloc.Proofs.Thresholds`: what higher thresholds do

Two runs over the same corpus, `uni.bin` and lemma table, a loose one and a strict one whose
thresholds are not below those of the loose one. `Within` says that a group file has some of
the groups of another one, with weights that are not higher, and the stages carry it from
file to file:

* both runs have the same `bi.bin`, so `group_lem2` within `group_lem2` is `GroupFile.mono`;
* a frequency does not depend on what else is recorded, so the filters keep `Within`;
* fewer groups name fewer pairs of words, and a triple is counted in full when one of its
  pairs is named, so `tri.bin` of the strict run is a part of the other one;
* then the stages of the triples are as those of the pairs.

`thresholds_monotone` is the result. The looser run writes more groups, and when the part
counter of the sort in `filter_bilems` comes back to zero it loses all of them
(`thresholds_wrap`).
-/

set_option autoImplicit false

namespace Colloc.Proofs

open Colloc.Lib
open Colloc.Spec

/-- No threshold of `th'` is below that of `th`. -/
structure Raised (th th' : Thresholds ℚ) : Prop where
  lem2 : th.lem2 ≤ th'.lem2
  bi1 : th.bi1 ≤ th'.bi1
  bi2 : th.bi2 ≤ th'.bi2
  lem3 : th.lem3 ≤ th'.lem3
  tri1 : th.tri1 ≤ th'.tri1
  tri2 : th.tri2 ≤ th'.tri2

/-- The strict run, with the files `freq'` and `filtered'`, records no other tuples than the
loose one. Those it records keep their document count, and their weight does not rise. -/
structure Shrinks {K : Type} [DecidableEq K] (freq freq' : RecordFile (Gram K))
    (filtered filtered' : RecordFile (LemGroup K ℚ)) : Prop where
  recorded : ∀ k ∈ recorded filtered', k ∈ recorded filtered
  weight : ∀ lg ∈ filtered.msgs, ∀ lg' ∈ filtered'.msgs, lg'.lids = lg.lids →
    lg'.weight ≤ lg.weight
  count : ∀ k ∈ Proofs.recorded filtered', ∃ n : UInt32,
    withKey Gram.ids freq.msgs k = [⟨k, n⟩] ∧ withKey Gram.ids freq'.msgs k = [⟨k, n⟩]

/-! ### Group files within group files -/

section Within
variable {K : Type}

/-- The groups `out'` are groups of `out`, with weights that are not higher. -/
def Within (out' out : List (LemGroup K ℚ)) : Prop :=
  ∀ lg' ∈ out', ∃ lg ∈ out, lg.lids = lg'.lids ∧ lg'.weight ≤ lg.weight

/-- The order in which a stage writes its groups does not matter. -/
theorem Within.perm {out out' sorted sorted' : List (LemGroup K ℚ)} (h : Within out' out)
    (hp : sorted.Perm out) (hp' : sorted'.Perm out') : Within sorted' sorted := by
  intro lg' hlg'
  obtain ⟨lg, hlg, hrest⟩ := h lg' (hp'.mem_iff.mp hlg')
  exact ⟨lg, hp.mem_iff.mpr hlg, hrest⟩

/-- Distinct groups are within distinct groups. -/
theorem Within.length_le [DecidableEq K] {out out' : List (LemGroup K ℚ)} (h : Within out' out)
    (hnd : (out'.map LemGroup.lids).Nodup) : out'.length ≤ out.length := by
  have hsub : out'.map LemGroup.lids ⊆ out.map LemGroup.lids := by
    intro k hk
    obtain ⟨lg', hlg', rfl⟩ := List.mem_map.mp hk
    obtain ⟨lg, hlg, hkey, -⟩ := h lg' hlg'
    exact hkey ▸ List.mem_map_of_mem hlg
  have hlen := (hnd.subperm hsub).length_le
  rwa [List.length_map, List.length_map] at hlen

/-- A filter with higher thresholds keeps it. The counts are the same in both runs, and the
stricter score is no greater. -/
theorem Within.filter [DecidableEq K] {out out' : List (LemGroup K ℚ)} (h : Within out' out)
    (count : K → UInt32) {th1 th1' : UInt32} {th2 th2' : ℚ} (h1 : th1 ≤ th1') (h2 : th2 ≤ th2') :
    Within (out'.filter (aboveBoth count th1' th2')) (out.filter (aboveBoth count th1 th2)) := by
  intro lg' hlg'
  obtain ⟨hmem', habove⟩ := List.mem_filter.mp hlg'
  obtain ⟨lg, hlg, hkey, hle⟩ := h lg' hmem'
  obtain ⟨hcount, hweight⟩ := (Bool.and_eq_true _ _).mp habove
  have hcount' : th1' < count lg'.lids := of_decide_eq_true hcount
  have hweight' : th2' < lg'.weight := of_decide_eq_true hweight
  refine ⟨lg, List.mem_filter.mpr ⟨hlg, (Bool.and_eq_true _ _).mpr ⟨?_, ?_⟩⟩, hkey, hle⟩
  · show decide (th1 < count lg.lids) = true
    rw [hkey]
    exact decide_eq_true (UInt32.lt_of_le_of_lt h1 hcount')
  · exact decide_eq_true ((h2.trans_lt hweight').trans_le hle)

end Within

/-- The filtered groups and the frequencies of two runs with the same counts. A tuple has one
record in each table, so the record of the smaller run is that of the greater one. -/
theorem Within.shrinks {K : Type} [LemTuple K] [DecidableEq K] {windows : Phrase → List K}
    {lems : List (List UInt32)} {docs : List (List Phrase)}
    {extended extended' filtered filtered' : RecordFile (LemGroup K ℚ)}
    {freq freq' : RecordFile (Gram K)} (h : Within filtered'.msgs filtered.msgs)
    (hnd : (extended.msgs.map LemGroup.lids).Nodup)
    (hfreq : DocTable windows lems docs extended freq)
    (hfreq' : DocTable windows lems docs extended' freq')
    (hsub : ∀ lg ∈ filtered.msgs, lg ∈ extended.msgs)
    (hsub' : ∀ lg ∈ filtered'.msgs, lg ∈ extended'.msgs) :
    Shrinks freq freq' filtered filtered' := by
  -- A table has one record for each of its keys.
  have hone : ∀ {extended : RecordFile (LemGroup K ℚ)} {freq : RecordFile (Gram K)},
      DocTable windows lems docs extended freq → ∀ lg ∈ extended.msgs,
        withKey Gram.ids freq.msgs lg.lids
          = [⟨lg.lids, UInt32.ofNat (docCount windows lems docs lg.lids)⟩] := by
    intro extended freq htable lg hlg
    obtain ⟨g, hg, hkey⟩ := htable.complete lg.lids (List.mem_map_of_mem hlg)
    have hval := (htable.sound g hg).2
    rw [← hkey, withKey_of_ascending Gram.ids htable.ascending hg]
    exact congrArg (fun n => [Gram.mk g.ids n]) hval
  refine ⟨fun k hk => ?_, fun lg hlg lg' hlg' hkey => ?_, fun k hk => ?_⟩
  · obtain ⟨lg', hlg', rfl⟩ := List.mem_map.mp hk
    obtain ⟨lg, hlg, hkey, -⟩ := h lg' hlg'
    exact hkey ▸ List.mem_map_of_mem hlg
  · obtain ⟨lg₁, hlg₁, hkey₁, hle⟩ := h lg' hlg'
    have hsame := List.inj_on_of_nodup_map hnd (hsub lg₁ hlg₁) (hsub lg hlg) (hkey₁.trans hkey)
    rw [← hsame]
    exact hle
  · obtain ⟨lg', hlg', rfl⟩ := List.mem_map.mp hk
    obtain ⟨lg, hlg, hkey, -⟩ := h lg' hlg'
    have hloose := hone hfreq lg (hsub lg hlg)
    rw [hkey] at hloose
    exact ⟨_, hloose, hone hfreq' lg' (hsub' lg' hlg')⟩

/-! ### Two runs -/

section TwoRuns
variable {std std' : Stdlib} {dsave dsave' : String} {th th' : Thresholds ℚ} {c : Converted}
  {l : Lemmatized} {docs : List (List Phrase)} {last : List Phrase}
  (loose : Run ℚ std dsave th c l) (strict : Run ℚ std' dsave' th' c l)

/-- `bigram_stat` has no threshold. -/
theorem bi_eq : strict.bi.msgs = loose.bi.msgs :=
  strict.bi_table.unique (fun _ _ => Gram.ext) (fun _ => Iff.rfl) (fun _ _ => rfl) loose.bi_table

variable (hsplit : Split (tableOf l.lems) c.corpus docs last) (hth : Raised th th')
  (hfit : SortsFit loose)

include hsplit hth hfit

/-- The pairs that the stricter run scores are scored by the looser one: the first stages are the
same in both, and a higher threshold drops groups. -/
theorem extended2_within : Within strict.extended2.msgs loose.extended2.msgs := by
  obtain ⟨lidW, hlidW, hloose⟩ := loose.extended2_file hsplit hfit.pairs
  obtain ⟨lidW', hlidW', hstrict⟩ := strict.extended2_file hsplit
    (by rw [bi_eq loose strict]; exact hfit.pairs)
  obtain rfl := Except.ok.inj (hlidW.symm.trans hlidW')
  intro lg' hlg'
  exact hloose.mono score2_mono (lidWeight_nonneg hlidW) hth.lem2
    (List.Sublist.refl _) (bi_eq loose strict ▸ hstrict) hlg'

/-- There are at most as many groups of pairs as the looser run sorts. -/
theorem extended2_length_le : strict.extended2.msgs.length ≤ 20000000 * (2 ^ 32 - 1) := by
  obtain ⟨lidW, -, hstrict⟩ := strict.extended2_file hsplit
    (by rw [bi_eq loose strict]; exact hfit.pairs)
  have hle := (extended2_within loose strict hsplit hth hfit).length_le
    hstrict.ascending.nodup_keys
  exact hle.trans hfit.groups

/-- The filter keeps this, as a group passes the stricter bounds only if it passes the looser
ones. -/
theorem bifiltered_within : Within strict.bifiltered.msgs loose.bifiltered.msgs :=
  ((extended2_within loose strict hsplit hth hfit).filter _ hth.bi1 hth.bi2).perm
    (loose.bifiltered_perm hsplit hfit.groups)
    (strict.bifiltered_perm hsplit (extended2_length_le loose strict hsplit hth hfit))

/-- A pair of words that the strict run names is named by the loose run: its group is there too,
with the same cases. -/
theorem filteredPair_mono {p : Idd} (h : FilteredPair strict.bifiltered p) :
    FilteredPair loose.bifiltered p := by
  obtain ⟨lidW, -, hloose⟩ := loose.extended2_file hsplit hfit.pairs
  obtain ⟨lidW', -, hstrict⟩ := strict.extended2_file hsplit
    (by rw [bi_eq loose strict]; exact hfit.pairs)
  have hfit' := extended2_length_le loose strict hsplit hth hfit
  obtain ⟨lg', hlg', cs, hcs, rfl⟩ := h
  obtain ⟨lg, hlg, hkey, -⟩ := bifiltered_within loose strict hsplit hth hfit lg' hlg'
  -- The groups of these lemmas have the same cases, those of `bi.bin`.
  have hmem := List.mem_of_mem_filter ((loose.bifiltered_perm hsplit hfit.groups).mem_iff.mp hlg)
  have hmem' := List.mem_of_mem_filter ((strict.bifiltered_perm hsplit hfit').mem_iff.mp hlg')
  have hcases := (hstrict.cases lg' hmem').mem_iff.mp hcs
  rw [bi_eq loose strict, ← hkey] at hcases
  exact ⟨lg, hlg, cs, (hloose.cases lg hmem).mem_iff.mpr hcases, rfl⟩

/-- `tri.bin` of the strict run is a part of the other one. -/
theorem tri_sublist : strict.tri.msgs.Sublist loose.tri.msgs := by
  refine strict.tri_table.ascending.sublist_of_subset loose.tri_table.ascending ?_
  refine strict.tri_table.subset (fun _ _ => Gram.ext) (fun t ht => ⟨ht.1, ?_⟩)
    (fun _ _ => rfl) loose.tri_table
  exact ht.2.imp (filteredPair_mono loose strict hsplit hth hfit)
    (filteredPair_mono loose strict hsplit hth hfit)

/-- The triples of the stricter run fit the sorter, since they are triples of the looser run. -/
theorem triples_fit :
    (strict.tri.msgs.map (tripleTimes (tableOf l.lems))).sum ≤ 80000000 * (2 ^ 32 - 1) :=
  ((tri_sublist loose strict hsplit hth hfit).map _).sum_le_sum (fun _ _ => Nat.zero_le _)
    |>.trans hfit.triples

/-- So fewer triples are counted, with smaller weights, and fewer groups are scored. -/
theorem extended3_within : Within strict.extended3.msgs loose.extended3.msgs := by
  obtain ⟨lidW, hlidW, hloose⟩ := loose.extended3_file hsplit hfit.triples
  obtain ⟨lidW', hlidW', hstrict⟩ := strict.extended3_file hsplit
    (triples_fit loose strict hsplit hth hfit)
  obtain rfl := Except.ok.inj (hlidW.symm.trans hlidW')
  intro lg' hlg'
  exact hloose.mono score3_mono (lidWeight_nonneg hlidW) hth.lem3
    (tri_sublist loose strict hsplit hth hfit) hstrict hlg'

/-- And the last filter keeps fewer of them. -/
theorem trifiltered_within : Within strict.trifiltered.msgs loose.trifiltered.msgs :=
  ((extended3_within loose strict hsplit hth hfit).filter _ hth.tri1 hth.tri2).perm
    (loose.trifiltered_perm hsplit) (strict.trifiltered_perm hsplit)

end TwoRuns

/-- Raising thresholds never adds a pair or a triple of lemmas, for any corpus, any `uni.bin`
and any lemma table without empty entries, when the external sorts of the looser run fit their
part counters: those of the stricter run are recorded by the looser one, with the same document
count and at least the same weight, and its `tri.bin` is a part of the other one. -/
theorem thresholds_monotone {std std' : Stdlib} {dsave dsave' : String} {th th' : Thresholds ℚ}
    {c : Converted} {l : Lemmatized} (hne : ∀ lids ∈ tableOf l.lems, lids ≠ [])
    (hth : Raised th th') (loose : Run ℚ std dsave th c l) (strict : Run ℚ std' dsave' th' c l)
    (hfit : SortsFit loose) :
    Shrinks loose.bifreq strict.bifreq loose.bifiltered strict.bifiltered ∧
      Shrinks loose.trifreq strict.trifreq loose.trifiltered strict.trifiltered ∧
      strict.tri.msgs.Sublist loose.tri.msgs := by
  obtain ⟨docs, last, hsplit⟩ := loose.exists_split hne
  obtain ⟨_, -, hfile2⟩ := loose.extended2_file hsplit hfit.pairs
  obtain ⟨_, -, hfile3⟩ := loose.extended3_file hsplit hfit.triples
  have hfit' := extended2_length_le loose strict hsplit hth hfit
  refine ⟨?_, ?_, tri_sublist loose strict hsplit hth hfit⟩
  · exact (bifiltered_within loose strict hsplit hth hfit).shrinks hfile2.ascending.nodup_keys
      (loose.bifreq_table hsplit) (strict.bifreq_table hsplit)
      (fun lg hlg => List.mem_of_mem_filter
        ((loose.bifiltered_perm hsplit hfit.groups).mem_iff.mp hlg))
      (fun lg hlg => List.mem_of_mem_filter
        ((strict.bifiltered_perm hsplit hfit').mem_iff.mp hlg))
  · exact (trifiltered_within loose strict hsplit hth hfit).shrinks hfile3.ascending.nodup_keys
      (loose.trifreq_table hsplit) (strict.trifreq_table hsplit)
      (fun lg hlg => List.mem_of_mem_filter ((loose.trifiltered_perm hsplit).mem_iff.mp hlg))
      (fun lg hlg => List.mem_of_mem_filter ((strict.trifiltered_perm hsplit).mem_iff.mp hlg))

/-! ### The part counter of `filter_bilems` -/

/-- The lemma ids `1`, ..., `n`. -/
def lemmaIds (n : Nat) : List UInt32 := (List.range n).map (fun i => UInt32.ofNat (i + 1))

/-- Three words: two with many lemmas, and one with the lemma `1`. -/
def homonyms (a b : Nat) : Lemmatized :=
  { lems := { total := 3, msgs := [⟨lemmaIds a⟩, ⟨lemmaIds b⟩, ⟨[1]⟩] }
    lemid :=
      { total := b
        msgs := (List.range b).map (fun i => ⟨List.replicate (i + 1) 97, UInt32.ofNat (i + 1)⟩) } }

/-- One document, in which the first two words and twice the third one stand together. -/
def homonymCorpus : Converted :=
  { corpus := [[1, 2], [3, 3], []]
    uni := { total := 3, msgs := [⟨[97], 1, 1⟩, ⟨[98], 2, 1⟩, ⟨[99], 3, 2⟩] }
    totalCount := 1 }

/-- The lemma ids of a word are the numbers from one to the count of its lemmas. -/
theorem mem_lemmaIds {n : Nat} {l : UInt32} :
    l ∈ lemmaIds n ↔ ∃ i < n, UInt32.ofNat (i + 1) = l := by
  simp [lemmaIds]

/-- They are different as long as they fit `u32`. -/
theorem lemmaIds_nodup {n : Nat} (hn : n < 2 ^ 32) : (lemmaIds n).Nodup := by
  refine (List.nodup_map_iff_inj_on List.nodup_range).mpr (fun i hi j hj heq => ?_)
  have hi' := Indexes.toNat_sub_one (List.mem_range.mp hi) hn
  have hj' := Indexes.toNat_sub_one (List.mem_range.mp hj) hn
  rw [← hi', heq, hj']

section Homonyms
variable {a b : Nat}

/-- The lemmas of the three words of the example. -/
theorem combos_homonyms :
    combos (tableOf (homonyms a b).lems) (1 : UInt32) = lemmaIds a ∧
      combos (tableOf (homonyms a b).lems) (2 : UInt32) = lemmaIds b ∧
      combos (tableOf (homonyms a b).lems) (3 : UInt32) = [1] :=
  ⟨combos_word _ _, combos_word _ _, combos_word _ _⟩

/-- A word with more lemmas has all those of one with fewer. -/
theorem mem_lemmaIds_mono (hab : a ≤ b) {l : UInt32} (h : l ∈ lemmaIds a) : l ∈ lemmaIds b := by
  obtain ⟨i, hi, rfl⟩ := mem_lemmaIds.mp h
  exact mem_lemmaIds.mpr ⟨i, by omega, rfl⟩

/-- The first id is one. -/
theorem one_mem_lemmaIds (ha : 0 < a) : (1 : UInt32) ∈ lemmaIds a :=
  mem_lemmaIds.mpr ⟨0, ha, rfl⟩

/-- The words of the corpus. -/
theorem mem_homonymWords {w : UInt32} :
    w ∈ (corpusOf [[[1, 2], [3, 3]]]).flatten ↔ w = 1 ∨ w = 2 ∨ w = 3 := by
  simp [corpusOf]

/-- Each word of the example has a lemma, as there is at least one in each row. -/
theorem haveLemmas_homonyms (ha : 0 < a) (hb : 0 < b) :
    HaveLemmas (tableOf (homonyms a b).lems) (corpusOf [[[1, 2], [3, 3]]]) := by
  obtain ⟨h1, h2, h3⟩ := combos_homonyms (a := a) (b := b)
  have hlen : (tableOf (homonyms a b).lems).length = 3 := rfl
  intro w hw
  rw [covered_word_iff, hlen]
  rcases mem_homonymWords.mp hw with rfl | rfl | rfl
  · rw [h1]
    exact ⟨by decide, List.ne_nil_of_mem (one_mem_lemmaIds ha)⟩
  · rw [h2]
    exact ⟨by decide, List.ne_nil_of_mem (one_mem_lemmaIds hb)⟩
  · rw [h3]
    exact ⟨by decide, List.cons_ne_nil _ _⟩

/-- The rows of the example use the ids of its lemma file: the first word has the first `a`
lemmas, the second one the first `b`. -/
theorem numbersLemmas_homonyms (ha : 0 < a) (hab : a ≤ b) (hb : b < 2 ^ 32) :
    NumbersLemmas (tableOf (homonyms a b).lems) [[[1, 2], [3, 3]]] (homonyms a b).lemid := by
  obtain ⟨h1, h2, h3⟩ := combos_homonyms (a := a) (b := b)
  have hids : (homonyms a b).lemid.msgs.map LemId.id = lemmaIds b := by
    simp [homonyms, lemmaIds]
  refine ⟨by simp [homonyms, readTotal], ?_, fun l => ?_⟩
  · rw [hids]
    exact lemmaIds_nodup hb
  · rw [hids, docCount_id_pos_iff]
    constructor
    · intro hl
      exact ⟨2, mem_homonymWords.mpr (Or.inr (Or.inl rfl)), h2 ▸ hl⟩
    · rintro ⟨w, hw, hl⟩
      rcases mem_homonymWords.mp hw with rfl | rfl | rfl
      · exact mem_lemmaIds_mono hab (h1 ▸ hl)
      · exact h2 ▸ hl
      · rw [h3, List.mem_singleton] at hl
        rw [hl]
        exact one_mem_lemmaIds (ha.trans_le hab)

/-- So the stages can start from it. The corpus has three words in two phrases, and each of them
has a lemma. -/
theorem ready_homonyms (ha : 0 < a) (hab : a ≤ b) (hb : b < 2 ^ 32) :
    Ready [[[1, 2], [3, 3]]] homonymCorpus (homonyms a b) where
  corpus := rfl
  phrases_ne := by simp
  few := by decide
  uni := {
    nodup := by decide
    weight := by decide
    mem_iff w := by
      rw [mem_homonymWords]
      simp [homonymCorpus]
    index_lt := by decide
    exists_index := by decide }
  lemmas := haveLemmas_homonyms ha (ha.trans_le hab)
  lemid := numbersLemmas_homonyms ha hab hb

/-- The example is one document. -/
theorem split_homonyms (ha : 0 < a) (hb : 0 < b) :
    Split (tableOf (homonyms a b).lems) homonymCorpus.corpus [[[1, 2], [3, 3]]] [] where
  split := rfl
  docs_ne := by simp
  last_ne := by simp
  lemmas := haveLemmas_homonyms ha hb

/-- `bi.bin` has the two pairs of words, each with one occurrence. -/
theorem bi_homonyms {std : Stdlib} {dsave : String} {th : Thresholds ℚ} {l : Lemmatized}
    (r : Run ℚ std dsave th homonymCorpus l) : r.bi.msgs = [⟨(1, 2), 1⟩, ⟨(3, 3), 1⟩] := by
  have hkeys : lastKeys chunkFull pairs homonymCorpus.corpus = [(1, 2), (3, 3)] := by decide
  have htable := r.bi_table
  rw [hkeys] at htable
  refine htable.unique (fun _ _ => Gram.ext) (fun _ => Iff.rfl) (fun _ _ => rfl)
    ⟨by simp [Ascending]; decide, fun k hk => ?_, fun g hg => ?_⟩
  · rcases List.mem_pair.mp hk with rfl | rfl
    · exact ⟨_, List.mem_cons_self, rfl⟩
    · exact ⟨_, List.mem_cons_of_mem _ List.mem_cons_self, rfl⟩
  · rcases List.mem_pair.mp hg with rfl | rfl
    · exact ⟨by simp, by decide⟩
    · exact ⟨by simp, by decide⟩

/-- The pairs of lemmas of the first two words, and the only one of the third word with itself. -/
theorem combos_homonymPair (k : Idd) :
    (k ∈ combos (tableOf (homonyms a b).lems) ((1, 2) : Idd) ↔
      k.1 ∈ lemmaIds a ∧ k.2 ∈ lemmaIds b) ∧
    (combos (tableOf (homonyms a b).lems) ((1, 2) : Idd)).length = a * b ∧
    combos (tableOf (homonyms a b).lems) ((3, 3) : Idd) = [(1, 1)] := by
  obtain ⟨h1, h2, h3⟩ := combos_homonyms (a := a) (b := b)
  refine ⟨?_, ?_, ?_⟩
  · rw [mem_combos_prod, h1, h2]
  · rw [length_combos_prod, h1, h2]
    simp [lemmaIds]
  · rw [combos_prod, h3]
    rfl

/-- The lemma pairs of the pair `1 2` are different. -/
theorem nodup_homonymPair (ha : a < 2 ^ 32) (hb : b < 2 ^ 32) :
    (combos (tableOf (homonyms a b).lems) ((1, 2) : Idd)).Nodup := by
  obtain ⟨h1, h2, -⟩ := combos_homonyms (a := a) (b := b)
  rw [combos_prod, h1, h2]
  exact (lemmaIds_nodup ha).product (lemmaIds_nodup hb)

/-- The weight of a pair of lemmas: a small share, and the whole count of the third word for
the pair `(1, 1)`. -/
theorem lemWeight_homonyms (ha : a < 2 ^ 32) (hb : b < 2 ^ 32) {k : Idd}
    (hk : k ∈ combos (tableOf (homonyms a b).lems) ((1, 2) : Idd)) :
    lemWeight (tableOf (homonyms a b).lems) [⟨(1, 2), 1⟩, ⟨(3, 3), 1⟩] k
      = 1 / ((a * b : Nat) : ℚ) + (if k = (1, 1) then 1 else 0) := by
  obtain ⟨-, hlen, h3⟩ := combos_homonymPair (a := a) (b := b) k
  have hone : timesIn (combos (tableOf (homonyms a b).lems) ((1, 2) : Idd)) k = 1 := by
    show List.countP _ _ = 1
    rw [← List.count_eq_one_of_mem (nodup_homonymPair ha hb) hk]
    exact List.countP_congr (fun x _ => by simp)
  have hcount : ((1 : UInt32).toNat : ℚ) = 1 := by rw [UInt32.toNat_one, Nat.cast_one]
  unfold lemWeight share
  simp only [List.map_cons, List.map_nil, List.sum_cons, List.sum_nil, hone, hlen, h3, hcount]
  by_cases h : k = (1, 1)
  · subst h
    simp [timesIn]
  · have hzero : timesIn [((1, 1) : Idd)] k = 0 := by simp [timesIn, Ne.symm h]
    simp [hzero, h]

/-- The words of the example are those of its `uni.bin`, each with a positive weight and a row in
the table. -/
theorem vocabulary_homonyms (ha : 0 < a) (hb : 0 < b) :
    Vocabulary (tableOf (homonyms a b).lems) homonymCorpus.uni where
  positive := by decide
  covered m hm := by
    have hlen : (tableOf (homonyms a b).lems).length = 3 := rfl
    rw [covered_word_iff, hlen]
    revert m
    decide
  nonempty lids hlids := by
    have htable : tableOf (homonyms a b).lems = [lemmaIds a, lemmaIds b, [1]] := rfl
    rw [htable] at hlids
    simp only [List.mem_cons, List.not_mem_nil, or_false] at hlids
    rcases hlids with rfl | rfl | rfl
    · exact List.ne_nil_of_mem (one_mem_lemmaIds ha)
    · exact List.ne_nil_of_mem (one_mem_lemmaIds hb)
    · exact List.cons_ne_nil _ _

/-- `extended2.bin` has the pairs of lemmas of the first two words whose weight is above the
threshold. -/
theorem recorded_homonyms {std : Stdlib} {dsave : String} {th : Thresholds ℚ} (ha : 0 < a)
    (hab : a ≤ b) (hb : b < 2 ^ 32) (hmax : a * b + 1 ≤ 80000000 * (2 ^ 32 - 1))
    (r : Run ℚ std dsave th homonymCorpus (homonyms a b)) :
    (recorded r.extended2).Nodup ∧ ∀ k, k ∈ recorded r.extended2 ↔
      k ∈ combos (tableOf (homonyms a b).lems) ((1, 2) : Idd) ∧
        th.lem2 < 1 / ((a * b : Nat) : ℚ) + (if k = (1, 1) then 1 else 0) := by
  have hb0 : 0 < b := ha.trans_le hab
  obtain ⟨-, hlen, h3⟩ := combos_homonymPair (a := a) (b := b) (1, 1)
  obtain ⟨-, h2, -⟩ := combos_homonyms (a := a) (b := b)
  obtain ⟨lidW, hlidW, hfile⟩ := r.extended2_file (split_homonyms ha hb0) (by
    rw [bi_homonyms r, pairTimes_eq]
    simp only [List.map_cons, List.map_nil, List.sum_cons, List.sum_nil, hlen, h3]
    exact hmax)
  rw [bi_homonyms r] at hfile
  -- All these lemmas are lemmas of the second word, which has a positive count.
  have hpos : ∀ l ∈ lemmaIds b, 0 < lidWeight lidW l := fun l hl =>
    (vocabulary_homonyms ha hb0).lidWeight_pos hlidW (w := 2) (by decide) (h2 ▸ hl)
  have harises : ∀ k : Idd, (∃ g ∈ ([⟨(1, 2), 1⟩, ⟨(3, 3), 1⟩] : List Bigram),
        k ∈ combos (tableOf (homonyms a b).lems) g.ids) ↔
      k ∈ combos (tableOf (homonyms a b).lems) ((1, 2) : Idd) := by
    intro k
    have hone := (combos_homonymPair (a := a) (b := b) (1, 1)).1.mpr
      ⟨one_mem_lemmaIds ha, one_mem_lemmaIds hb0⟩
    constructor
    · rintro ⟨g, hg, hk⟩
      rcases List.mem_pair.mp hg with rfl | rfl
      · exact hk
      · rw [h3, List.mem_singleton] at hk
        rw [hk]
        exact hone
    · exact fun hk => ⟨_, List.mem_cons_self, hk⟩
  refine ⟨hfile.ascending.nodup_keys, fun k => ?_⟩
  by_cases hk : k ∈ combos (tableOf (homonyms a b).lems) ((1, 2) : Idd)
  · obtain ⟨hk1, hk2⟩ := (combos_homonymPair k).1.mp hk
    have h1 := hpos k.1 (mem_lemmaIds_mono hab hk1)
    have h2 := hpos k.2 hk2
    have hsize : 0 < (lidW.size : ℚ) := Nat.cast_pos.mpr (size_pos_of_lidWeight_pos h1)
    have hfactor : 0 < (lidW.size : ℚ) / (lidWeight lidW k.1 * lidWeight lidW k.2) := by
      positivity
    refine (hfile.mem_lids_iff (score2_eq h1 h2 _ _)).trans ?_
    rw [harises, pos_maxZero_iff, mul_pos_iff_of_pos_left hfactor, sub_pos,
      lemWeight_homonyms (by omega) hb hk]
  · refine iff_of_false (fun hmem => hk ?_) (fun h => hk h.1)
    obtain ⟨lg, hlg, rfl⟩ := List.mem_map.mp hmem
    exact (harises lg.lids).mp (hfile.arises lg hlg)

/-- With the threshold `0` the number of groups can be one that brings the part counter back to
zero. -/
theorem homonyms_loose {std : Stdlib} {dsave : String} {q : Nat} (ha : 0 < a) (hab : a ≤ b)
    (hb : b < 2 ^ 32) (hmax : a * b + 1 ≤ 80000000 * (2 ^ 32 - 1)) (hq : a * b = 20000000 * q)
    (hzero : UInt32.ofNat q = 0)
    (r : Run ℚ std dsave ⟨0, 0, 0, 0, 0, 0⟩ homonymCorpus (homonyms a b)) :
    r.bifiltered.msgs = [] := by
  obtain ⟨hnd, hmem⟩ := recorded_homonyms ha hab hb hmax r
  obtain ⟨-, hlen, -⟩ := combos_homonymPair (a := a) (b := b) (1, 1)
  -- Every pair of lemmas of the first two words has a group.
  have hperm : (recorded r.extended2).Perm
      (combos (tableOf (homonyms a b).lems) ((1, 2) : Idd)) := by
    refine (List.perm_ext_iff_of_nodup hnd (nodup_homonymPair (by omega) hb)).mpr (fun k => ?_)
    have hpos : (0 : ℚ) < 1 / ((a * b : Nat) : ℚ) := by
      have hab0 : 0 < a * b := Nat.mul_pos ha (ha.trans_le hab)
      positivity
    have hadd : (0 : ℚ) ≤ if k = (1, 1) then 1 else 0 := by split <;> norm_num
    rw [hmem]
    exact and_iff_left (add_pos_of_pos_of_nonneg hpos hadd)
  have hlength : r.extended2.msgs.length = 20000000 * q := by
    rw [← hq, ← hlen, ← hperm.length_eq]
    exact (List.length_map _).symm
  have hfilter := r.filterBilems_eq
  rw [filterBilems_wraps std _ _ hlength hzero] at hfilter
  rw [← Except.ok.inj hfilter]

/-- With the threshold `1 / 2` the pair `(1, 1)` is filtered in. The two equal words give it a
whole occurrence, while any other pair has a share of one only. -/
theorem homonyms_strict {std : Stdlib} {dsave : String} (ha : 0 < a) (hab : a ≤ b)
    (hb : b < 2 ^ 32) (hmax : a * b + 1 ≤ 80000000 * (2 ^ 32 - 1)) (h2 : 2 ≤ a * b)
    (r : Run ℚ std dsave ⟨1 / 2, 0, 0, 0, 0, 0⟩ homonymCorpus (homonyms a b)) :
    (1, 1) ∈ recorded r.bifiltered := by
  have hb0 : 0 < b := ha.trans_le hab
  obtain ⟨hnd, hmem⟩ := recorded_homonyms ha hab hb hmax r
  have hone := (combos_homonymPair (a := a) (b := b) (1, 1)).1.mpr
    ⟨one_mem_lemmaIds ha, one_mem_lemmaIds hb0⟩
  have hshare : 1 / ((a * b : Nat) : ℚ) ≤ 1 / 2 :=
    one_div_le_one_div_of_le (by norm_num) (by exact_mod_cast h2)
  -- No other pair has more than its small share.
  have hall : ∀ k ∈ recorded r.extended2, k = (1, 1) := by
    intro k hk
    obtain ⟨-, hlt⟩ := (hmem k).mp hk
    by_contra hne
    rw [if_neg hne, add_zero] at hlt
    exact absurd hlt hshare.not_gt
  have hin : (1, 1) ∈ recorded r.extended2 := by
    refine (hmem (1, 1)).mpr ⟨hone, ?_⟩
    have hpos : (0 : ℚ) ≤ 1 / ((a * b : Nat) : ℚ) := by positivity
    rw [if_pos rfl]
    exact lt_of_lt_of_le (by norm_num) (le_add_of_nonneg_left hpos)
  have hlen : r.extended2.msgs.length ≤ 20000000 * (2 ^ 32 - 1) := by
    have hsub : recorded r.extended2 ⊆ [(1, 1)] :=
      fun k hk => List.mem_singleton.mpr (hall k hk)
    have hle := (hnd.subperm hsub).length_le
    rw [recorded, List.length_map] at hle
    exact hle.trans (by norm_num)
  obtain ⟨lg, hlg, hlids⟩ := List.mem_map.mp hin
  obtain ⟨lidW, -, hfile⟩ := r.extended2_file (split_homonyms ha hb0) (by
    obtain ⟨-, hlen, h3⟩ := combos_homonymPair (a := a) (b := b) (1, 1)
    rw [bi_homonyms r, pairTimes_eq]
    simp only [List.map_cons, List.map_nil, List.sum_cons, List.sum_nil, hlen, h3]
    exact hmax)
  refine List.mem_map.mpr ⟨lg, ?_, hlids⟩
  rw [(r.bifiltered_perm (split_homonyms ha hb0) hlen).mem_iff, List.mem_filter]
  refine ⟨hlg, (Bool.and_eq_true _ _).mpr ⟨?_, decide_eq_true (hfile.positive lg hlg)⟩⟩
  -- The one document has the pair.
  have hkey : (1, 1) ∈ docKeys pairs (tableOf (homonyms a b).lems) [[1, 2], [3, 3]] :=
    (mem_docKeys _ _ _ _).mpr ⟨[1, 2], List.mem_cons_self, (1, 2), List.mem_cons_self, hone⟩
  have hcount : docCount pairs (tableOf (homonyms a b).lems) [[[1, 2], [3, 3]]] (1, 1) = 1 := by
    rw [docCount_cons, if_pos hkey]
    rfl
  rw [hlids]
  show decide ((0 : UInt32) < UInt32.ofNat (docCount _ _ _ _)) = true
  rw [hcount]
  decide

/-- Below that number of groups the sorts fit. The first pair of words has `a * b` lemma pairs,
the second one has one. -/
theorem homonyms_sortsFit {std : Stdlib} {dsave : String} {th : Thresholds ℚ} (ha : 0 < a)
    (hab : a ≤ b) (hmax : a * b + 1 ≤ 20000000 * (2 ^ 32 - 1))
    (r : Run ℚ std dsave th homonymCorpus (homonyms a b)) : SortsFit r := by
  obtain ⟨-, hlen, h3⟩ := combos_homonymPair (a := a) (b := b) (1, 1)
  have hpairs : homonymCorpus.corpus.flatMap pairs = [(1, 2), (3, 3)] := by decide
  have htriples : homonymCorpus.corpus.flatMap triples = [] := by decide
  refine sortsFit_of_corpus (vocabulary_homonyms ha (ha.trans_le hab)).nonempty ?_ ?_ r
  · rw [hpairs]
    simp only [List.map_cons, List.map_nil, List.sum_cons, List.sum_nil, hlen, h3]
    exact hmax
  · -- The phrases are too short for a triple.
    rw [htriples]
    exact Nat.zero_le _

end Homonyms

/-- The thresholds of the second run: only the one for pairs is raised. -/
theorem raised_half : Raised ⟨0, 0, 0, 0, 0, 0⟩ ⟨1 / 2, 0, 0, 0, 0, 0⟩ :=
  ⟨by norm_num, by decide, le_refl _, le_refl _, by decide, le_refl _⟩

/-- Two words with two lemmas each: the threshold `1 / 2` keeps one of four pairs. The pair `(1,
1)` has a whole occurrence besides its share. -/
theorem thresholds_monotone_homonyms :
    ∃ (loose : Run ℚ Stdlib.sorting "save" ⟨0, 0, 0, 0, 0, 0⟩ homonymCorpus (homonyms 2 2))
      (strict : Run ℚ Stdlib.sorting "save" ⟨1 / 2, 0, 0, 0, 0, 0⟩ homonymCorpus
        (homonyms 2 2)),
      Shrinks loose.bifreq strict.bifreq loose.bifiltered strict.bifiltered ∧
        Shrinks loose.trifreq strict.trifreq loose.trifiltered strict.trifiltered ∧
        strict.tri.msgs.Sublist loose.tri.msgs := by
  have hready := ready_homonyms (a := 2) (b := 2) (by decide) (by decide) (by decide)
  obtain ⟨loose⟩ := hready.nonempty_run (R := ℚ) Stdlib.sorting "save" ⟨0, 0, 0, 0, 0, 0⟩
  obtain ⟨strict⟩ := hready.nonempty_run (R := ℚ) Stdlib.sorting "save" ⟨1 / 2, 0, 0, 0, 0, 0⟩
  exact ⟨loose, strict, thresholds_monotone
    (vocabulary_homonyms (a := 2) (b := 2) (by decide) (by decide)).nonempty
    raised_half loose strict
    (homonyms_sortsFit (by decide) (by decide) (by decide) loose)⟩

/-- Words with `131,072,000` and `655,360,000` lemmas make `20,000,000 * 2 ^ 32` pairs of
lemmas. The looser run sorts all of them, opens no part file and filters every pair out. The
stricter run keeps the pair `(1, 1)`. -/
theorem thresholds_wrap :
    (∀ lids ∈ tableOf (homonyms 131072000 655360000).lems, lids ≠ []) ∧
    Raised ⟨0, 0, 0, 0, 0, 0⟩ ⟨1 / 2, 0, 0, 0, 0, 0⟩ ∧
    ∃ (loose : Run ℚ Stdlib.sorting "save" ⟨0, 0, 0, 0, 0, 0⟩ homonymCorpus
          (homonyms 131072000 655360000))
      (strict : Run ℚ Stdlib.sorting "save" ⟨1 / 2, 0, 0, 0, 0, 0⟩ homonymCorpus
          (homonyms 131072000 655360000)),
      ¬ Shrinks loose.bifreq strict.bifreq loose.bifiltered strict.bifiltered := by
  -- Over variables: no step may evaluate the numbers.
  have hgeneral : ∀ a b q : Nat, 0 < a → a ≤ b → b < 2 ^ 32 →
      a * b + 1 ≤ 80000000 * (2 ^ 32 - 1) → 2 ≤ a * b → a * b = 20000000 * q →
      UInt32.ofNat q = 0 →
      (∀ lids ∈ tableOf (homonyms a b).lems, lids ≠ []) ∧
      ∃ (loose : Run ℚ Stdlib.sorting "save" ⟨0, 0, 0, 0, 0, 0⟩ homonymCorpus (homonyms a b))
        (strict : Run ℚ Stdlib.sorting "save" ⟨1 / 2, 0, 0, 0, 0, 0⟩ homonymCorpus
          (homonyms a b)),
        ¬ Shrinks loose.bifreq strict.bifreq loose.bifiltered strict.bifiltered := by
    intro a b q ha hab hb hmax h2 hq hzero
    obtain ⟨loose⟩ := (ready_homonyms ha hab hb).nonempty_run (R := ℚ) Stdlib.sorting "save"
      ⟨0, 0, 0, 0, 0, 0⟩
    obtain ⟨strict⟩ := (ready_homonyms ha hab hb).nonempty_run (R := ℚ) Stdlib.sorting "save"
      ⟨1 / 2, 0, 0, 0, 0, 0⟩
    refine ⟨(vocabulary_homonyms ha (ha.trans_le hab)).nonempty, loose, strict, fun hshrinks => ?_⟩
    have hmem := hshrinks.recorded _ (homonyms_strict ha hab hb hmax h2 strict)
    rw [recorded, homonyms_loose ha hab hb hmax hq hzero loose] at hmem
    cases hmem
  obtain ⟨hne, hruns⟩ := hgeneral 131072000 655360000 (2 ^ 32) (by norm_num) (by norm_num)
    (by norm_num) (by norm_num) (by norm_num) (by norm_num) rfl
  exact ⟨hne, raised_half, hruns⟩

end Colloc.Proofs

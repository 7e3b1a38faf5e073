import Colloc.Lib.Total
import Colloc.Lib.Windows
import Colloc.Proofs.Combos
import Colloc.Proofs.Corpus
import Colloc.Proofs.Lemmer
import Colloc.Spec.Freq

/-!
# `Colloc.Proofs.Freq`: document frequencies

`bifreq_stat` and `trifreq_stat` collect the keys of a document in sets, over all its
phrases, and count the sets at its end. `docKeys` lists the keys of a document: the lemma
tuples of its words, of its pairs, or of its triples. A phrase adds its keys to the sets
(`bifreqIds_spec`, `trifreqIds_spec`), and the end of a document counts the sets once and
empties them (`lookup_increment`). So a run over closed documents counts each document once
for each of its keys (`bifreq_run`, `trifreq_run`).

The pairs and triples are counted only if the group files record them. `increment` keeps
their map on these keys, because the sets hold recorded keys only.
-/

set_option autoImplicit false

namespace Colloc.Proofs

open Colloc.Lib
open Colloc.Spec

/-! ### Documents -/

section Docs
variable {W : Type} [LemTuple W]

/-- The lemma tuples of the windows of a document's phrases. -/
def docKeys (windows : Phrase → List W) (lems : List (List UInt32)) (doc : List Phrase) :
    List W :=
  doc.flatMap (fun ids => (windows ids).flatMap (combos lems))

/-- The number of documents with the lemma tuple `k`. -/
def docCount [DecidableEq W] (windows : Phrase → List W) (lems : List (List UInt32))
    (docs : List (List Phrase)) (k : W) : Nat :=
  docs.countP (fun doc => decide (k ∈ docKeys windows lems doc))

variable (windows : Phrase → List W) (lems : List (List UInt32))

/-- A tuple of lemmas is in a document when a window of one of its phrases has it as a reading. -/
theorem mem_docKeys (doc : List Phrase) (k : W) :
    k ∈ docKeys windows lems doc ↔ ∃ ids ∈ doc, ∃ w ∈ windows ids, k ∈ combos lems w := by
  simp [docKeys]

/-- A tuple is in no more documents than there are. -/
theorem docCount_le_length [DecidableEq W] (docs : List (List Phrase)) (k : W) :
    docCount windows lems docs k ≤ docs.length :=
  List.countP_le_length

end Docs

/-- A document adds one to the counts of its tuples. -/
theorem docCount_cons {W : Type} [LemTuple W] [DecidableEq W] (windows : Phrase → List W)
    (lems : List (List UInt32)) (doc : List Phrase) (docs : List (List Phrase)) (k : W) :
    docCount windows lems (doc :: docs) k
      = (if k ∈ docKeys windows lems doc then 1 else 0) + docCount windows lems docs k := by
  unfold docCount
  rw [List.countP_cons, Nat.add_comm]
  simp

/-- The counter of a key, `0` when it is not in the map. -/
def counter {K : Type} [DecidableEq K] (m : FlatHashMap K UInt32) (k : K) : Nat :=
  ((m.lookup k).getD 0).toNat

/-- `increment` adds one for each element of the set. A key that was not there starts at zero. -/
theorem lookup_increment {K : Type} [IdTuple K] [DecidableEq K] (std : Stdlib)
    (m : FlatHashMap K UInt32) (s : FlatHashSet K) (k : K) :
    (increment std m s).lookup k
      = if s.contains k then some ((m.lookup k).getD 0 + 1) else m.lookup k := by
  have h := lookup_foldl_bump (1 : UInt32) (s.iter std) m k
  -- The iteration meets each element once, so it is counted once.
  have hiter : k ∈ s.iter std ↔ s.contains k = true := FlatHashSet.mem_iter std s k
  show ((s.iter std).foldl (bump 1) m).lookup k = _
  rw [h]
  by_cases hk : k ∈ s.iter std
  · rw [if_pos hk, if_pos (hiter.mp hk), List.count_eq_one_of_mem (FlatHashSet.nodup_iter std s) hk,
      one_nsmul]
  · rw [if_neg hk, if_neg (fun hc => hk (hiter.mpr hc))]

/-- The counters of recorded keys after one document, and then after `n` more. A key that is not
recorded is in no set, and a recorded one is in the set of the document once at most. -/
theorem recorded_step {K : Type} [IdTuple K] [DecidableEq K] (std : Stdlib)
    {m : FlatHashMap K UInt32} {s : FlatHashSet K} {keys : List K}
    (hs : ∀ k, s.contains k = true ↔ (m.lookup k).isSome ∧ k ∈ keys) (k : K) (n : Nat) :
    ((increment std m s).lookup k).map (fun c => c + UInt32.ofNat n)
      = (m.lookup k).map (fun c => c + UInt32.ofNat ((if k ∈ keys then 1 else 0) + n)) := by
  rw [lookup_increment]
  cases hm : m.lookup k with
  | none =>
      -- A key that is not recorded is in no set.
      have hout : ¬ s.contains k = true := by
        rw [hs, hm]
        simp
      rw [if_neg hout]
      rfl
  | some c =>
      by_cases hk : k ∈ keys
      · have hin : s.contains k = true := by
          rw [hs, hm]
          exact ⟨rfl, hk⟩
        rw [if_pos hin, if_pos hk]
        show some (c + 1 + UInt32.ofNat n) = some (c + UInt32.ofNat (1 + n))
        rw [UInt32.ofNat_add, ← UInt32.add_assoc]
        rfl
      · have hout : ¬ s.contains k = true := by
          rw [hs]
          exact fun h => hk h.2
        rw [if_neg hout, if_neg hk, Nat.zero_add]

/-! ### Pairs -/

section Bifreq
variable {lems : List (List UInt32)} {bi : FlatHashMap Idd UInt32}

/-- The loop over the lemmas of the word before adds the recorded pairs with the lemma `rid`
behind them. -/
theorem bifreqPrev_contains (rid : UInt32) (lids : List UInt32) (p : Idd) :
    ∀ s, (bifreqPrev bi rid s lids).contains p = true ↔
      s.contains p = true ∨ ((bi.lookup p).isSome ∧ p.1 ∈ lids ∧ p.2 = rid) := by
  induction lids with
  | nil => intro s; simp [bifreqPrev]
  | cons lid lids ih =>
      intro s
      rw [bifreqPrev, ih, FlatHashSet.contains_insertRecorded, List.mem_cons, Prod.ext_iff]
      tauto

variable (bi) in
/-- The lemmas `rids` of a word behind `prev` are collected, and so are the recorded pairs that
a lemma of `prev` and one of them make. -/
theorem bifreqWord_spec (prev : Option UInt32) (hprev : ∀ w ∈ prev, Covered lems w)
    (rids : List UInt32) :
    ∀ sets, ∃ sets', bifreqWord lems bi prev sets rids = .ok sets' ∧
      (∀ l, sets'.uniset.contains l = true ↔ sets.uniset.contains l = true ∨ l ∈ rids) ∧
      (∀ p, sets'.biset.contains p = true ↔ sets.biset.contains p = true ∨
        ((bi.lookup p).isSome ∧ ∃ w ∈ prev, p.1 ∈ combos lems w ∧ p.2 ∈ rids)) := by
  induction rids with
  | nil =>
      intro sets
      exact ⟨sets, rfl, fun l => by simp, fun p => by simp⟩
  | cons rid rids ih =>
      intro sets
      cases prev with
      | none =>
          -- At the beginning of a phrase only the lemmas are collected.
          obtain ⟨sets', hok, huni, hbi⟩ := ih { sets with uniset := sets.uniset.insert rid }
          refine ⟨sets', by rw [bifreqWord]; exact hok, fun l => ?_, fun p => ?_⟩
          · rw [huni, FlatHashSet.contains_insert, List.mem_cons]
            tauto
          · rw [hbi]
            simp
      | some w =>
          obtain ⟨sets', hok, huni, hbi⟩ := ih
            { uniset := sets.uniset.insert rid
              biset := bifreqPrev bi rid sets.biset (combos lems w) }
          refine ⟨sets', ?_, fun l => ?_, fun p => ?_⟩
          · rw [bifreqWord]
            simp only [(hprev w rfl).lemsAt]
            exact hok
          · rw [huni, FlatHashSet.contains_insert, List.mem_cons]
            tauto
          · rw [hbi, bifreqPrev_contains]
            simp only [Option.mem_def, Option.some.injEq, exists_eq_left', List.mem_cons]
            tauto

variable (bi) in
/-- The words `ids` of a phrase behind `prev`: their lemmas are collected, and the recorded pairs
of adjacent words, the first of which begins at `prev`. -/
theorem bifreqIds_spec (ids : Phrase) :
    ∀ (prev : Option UInt32) (sets : DocSets), (∀ w ∈ prev, Covered lems w) →
      (∀ w ∈ ids, Covered lems w) →
      ∃ sets', bifreqIds lems bi prev sets ids = .ok sets' ∧
        (∀ l, sets'.uniset.contains l = true ↔
          sets.uniset.contains l = true ∨ ∃ w ∈ ids, l ∈ combos lems w) ∧
        (∀ p, sets'.biset.contains p = true ↔ sets.biset.contains p = true ∨
          ((bi.lookup p).isSome ∧ ∃ q ∈ pairs (prev.toList ++ ids), p ∈ combos lems q)) := by
  induction ids with
  | nil =>
      intro prev sets _ _
      refine ⟨sets, rfl, fun l => by simp, fun p => ?_⟩
      cases prev <;> simp
  | cons it ids ih =>
      intro prev sets hprev hids
      have hit : Covered lems it := hids it List.mem_cons_self
      obtain ⟨sets₁, hok₁, huni₁, hbi₁⟩ :=
        bifreqWord_spec bi prev hprev (combos lems it) sets
      obtain ⟨sets', hok, huni, hbi⟩ := ih (some it) sets₁
        (fun w hw => by rw [← Option.some.inj hw]; exact hit)
        (fun w hw => hids w (List.mem_cons_of_mem it hw))
      refine ⟨sets', ?_, fun l => ?_, fun p => ?_⟩
      · rw [bifreqIds]
        simp only [hit.lemsAt, hok₁]
        exact hok
      · rw [huni, huni₁]
        simp only [List.mem_cons, exists_eq_or_imp]
        tauto
      · rw [hbi, hbi₁]
        -- The pairs of the phrase are the pair that ends at `it` and those behind it.
        have hpairs : (∃ q ∈ pairs (prev.toList ++ it :: ids), p ∈ combos lems q) ↔
            (∃ w ∈ prev, p.1 ∈ combos lems w ∧ p.2 ∈ combos lems it) ∨
              ∃ q ∈ pairs (it :: ids), p ∈ combos lems q := by
          cases prev with
          | none => simp
          | some w => simp [mem_combos_prod]
        rw [hpairs, or_assoc, ← and_or_left]
        rfl

/-- The sets after the phrases `doc` of an open document. -/
structure DocSetsAre (lems : List (List UInt32)) (bi : FlatHashMap Idd UInt32)
    (doc : List Phrase) (sets : DocSets) : Prop where
  uni : ∀ l, sets.uniset.contains l = true ↔ l ∈ docKeys id lems doc
  bi : ∀ p, sets.biset.contains p = true ↔ (bi.lookup p).isSome ∧ p ∈ docKeys pairs lems doc

/-- The words of the phrases are in the lemma table. -/
def CoversPhrases (lems : List (List UInt32)) (phrases : List Phrase) : Prop :=
  ∀ ids ∈ phrases, ∀ w ∈ ids, Covered lems w

/-- A phrase of an open document extends the sets by its keys and leaves the counters alone, since
it is not empty. -/
theorem bifreqPhrase_spec (std : Stdlib) (uni : FlatHashMap UInt32 UInt32) {sets : DocSets}
    {doc : List Phrase} {ids : Phrase} (h : DocSetsAre lems bi doc sets) (hne : ids ≠ [])
    (hcov : ∀ w ∈ ids, Covered lems w) :
    ∃ sets', bifreqPhrase std lems { uni := uni, bi := bi, sets := sets } ids
        = .ok { uni := uni, bi := bi, sets := sets' } ∧
      DocSetsAre lems bi (doc ++ [ids]) sets' := by
  obtain ⟨sets', hok, huni, hbi⟩ := bifreqIds_spec bi ids none sets
    (fun w hw => nomatch hw) hcov
  refine ⟨sets', ?_, ⟨fun l => ?_, fun p => ?_⟩⟩
  · -- The phrase is not empty, so the counters stay.
    unfold bifreqPhrase
    rw [if_neg (by simpa using hne)]
    simp only [hok]
  · rw [huni, h.uni]
    simp [mem_docKeys, or_and_right, exists_or]
  · rw [hbi, h.bi, ← and_or_left]
    simp [mem_docKeys, or_and_right, exists_or]

variable (bi) in
/-- The phrases of a document, from empty sets on. The invariant is that the counters stay, and
that the sets are those of the phrases read so far. -/
theorem bifreqPhrases_spec (std : Stdlib) (uni : FlatHashMap UInt32 UInt32) {doc : List Phrase}
    (hne : ∀ ids ∈ doc, ids ≠ []) (hcov : CoversPhrases lems doc) :
    ∃ sets, doc.foldlM (bifreqPhrase std lems)
          { uni := uni, bi := bi, sets := { uniset := ∅, biset := ∅ } }
        = .ok { uni := uni, bi := bi, sets := sets } ∧ DocSetsAre lems bi doc sets := by
  have hempty : DocSetsAre lems bi [] { uniset := ∅, biset := ∅ } :=
    ⟨fun l => by simp [docKeys], fun p => by simp [docKeys]⟩
  -- The invariant: the counters stay, and the sets are those of the phrases read so far.
  obtain ⟨st, hrun, sets, rfl, hsets⟩ := foldlM_list (f := bifreqPhrase std lems)
    (P := fun before st => ∃ sets, st = { uni := uni, bi := bi, sets := sets } ∧
      DocSetsAre lems bi before sets)
    (fun ids hids before st hst => by
      obtain ⟨sets, rfl, hsets⟩ := hst
      obtain ⟨sets', hok, hsets'⟩ := bifreqPhrase_spec std uni hsets (hne ids hids)
        (hcov ids hids)
      exact ⟨_, hok, sets', rfl, hsets'⟩)
    ⟨_, rfl, hempty⟩
  exact ⟨sets, hrun, hsets⟩

/-- The counters after the documents `docs`, from the counters `uni₀` and `bi₀`. -/
structure BifreqCounted (lems : List (List UInt32)) (docs : List (List Phrase))
    (uni₀ : FlatHashMap UInt32 UInt32) (bi₀ : FlatHashMap Idd UInt32) (st : BifreqState) :
    Prop where
  sets : st.sets = { uniset := ∅, biset := ∅ }
  uni : ∀ l, st.uni.lookup l = if docCount id lems docs l = 0 then uni₀.lookup l
    else some ((uni₀.lookup l).getD 0 + UInt32.ofNat (docCount id lems docs l))
  bi : ∀ p, st.bi.lookup p = (bi₀.lookup p).map
    (fun c => c + UInt32.ofNat (docCount pairs lems docs p))

variable (lems) in
/-- A run over closed documents counts each document once for each of its keys. The empty phrase
behind a document adds its sets to the counters and clears them. -/
theorem bifreq_run (std : Stdlib) (docs : List (List Phrase)) :
    ∀ (uni₀ : FlatHashMap UInt32 UInt32) (bi₀ : FlatHashMap Idd UInt32),
      (∀ doc ∈ docs, ∀ ids ∈ doc, ids ≠ []) → (∀ doc ∈ docs, CoversPhrases lems doc) →
      ∃ st, (corpusOf docs).foldlM (bifreqPhrase std lems)
          { uni := uni₀, bi := bi₀, sets := { uniset := ∅, biset := ∅ } } = .ok st ∧
        BifreqCounted lems docs uni₀ bi₀ st := by
  induction docs with
  | nil =>
      intro uni₀ bi₀ _ _
      refine ⟨_, rfl, rfl, fun l => rfl, fun p => ?_⟩
      show bi₀.lookup p = (bi₀.lookup p).map (fun c => c + UInt32.ofNat 0)
      cases bi₀.lookup p with
      | none => rfl
      | some c => simp
  | cons doc docs ih =>
      intro uni₀ bi₀ hne hcov
      obtain ⟨sets, hok, hsets⟩ := bifreqPhrases_spec bi₀ std uni₀
        (hne doc List.mem_cons_self) (hcov doc List.mem_cons_self)
      obtain ⟨st, hrun, hst⟩ := ih (increment std uni₀ sets.uniset)
        (increment std bi₀ sets.biset) (fun d hd => hne d (List.mem_cons_of_mem doc hd))
        (fun d hd => hcov d (List.mem_cons_of_mem doc hd))
      refine ⟨st, ?_, hst.sets, fun l => ?_, fun p => ?_⟩
      · -- The phrases of `doc`, the empty phrase behind it, and the other documents.
        rw [corpusOf, List.flatMap_cons, List.append_assoc, List.foldlM_append, hok]
        exact hrun
      · rw [hst.uni, lookup_increment, docCount_cons]
        by_cases hl : l ∈ docKeys id lems doc
        · rw [if_pos ((hsets.uni l).mpr hl), if_pos hl]
          by_cases h0 : docCount id lems docs l = 0
          · rw [if_pos h0, if_neg (by omega), h0]
            rfl
          · rw [if_neg h0, if_neg (by omega), UInt32.ofNat_add, ← UInt32.add_assoc]
            rfl
        · rw [if_neg (fun h => hl ((hsets.uni l).mp h)), if_neg hl, Nat.zero_add]
      · rw [hst.bi, docCount_cons]
        exact recorded_step std hsets.bi p _

end Bifreq

/-! ### Triples -/

section Trifreq
variable {lems : List (List UInt32)} {tri : FlatHashMap Iddd UInt32}

/-- The innermost loop adds the recorded triples that begin with `lid` and `cid`. The induction is
on the lemmas of the third word. -/
theorem trifreqRight_contains (lid cid : UInt32) (rids : List UInt32) (t : Iddd) :
    ∀ s, (trifreqRight tri lid cid s rids).contains t = true ↔ s.contains t = true ∨
      ((tri.lookup t).isSome ∧ t.1 = lid ∧ t.2.1 = cid ∧ t.2.2 ∈ rids) := by
  induction rids with
  | nil => intro s; simp [trifreqRight]
  | cons rid rids ih =>
      intro s
      rw [trifreqRight, ih, FlatHashSet.contains_insertRecorded, List.mem_cons, Prod.ext_iff,
        Prod.ext_iff]
      tauto

variable (tri) in
/-- The middle loop adds the recorded triples that begin with `lid` and go on with a lemma of the
middle word and one of the right word. -/
theorem trifreqCenter_spec {rit : UInt32} (hrit : Covered lems rit) (lid : UInt32)
    (cids : List UInt32) :
    ∀ s, ∃ s', trifreqCenter lems tri rit lid s cids = .ok s' ∧
      ∀ t, s'.contains t = true ↔ s.contains t = true ∨
        ((tri.lookup t).isSome ∧ t.1 = lid ∧ t.2.1 ∈ cids ∧ t.2.2 ∈ combos lems rit) := by
  induction cids with
  | nil => intro s; exact ⟨s, rfl, fun t => by simp⟩
  | cons cid cids ih =>
      intro s
      obtain ⟨s', hok, hs'⟩ := ih (trifreqRight tri lid cid s (combos lems rit))
      refine ⟨s', ?_, fun t => ?_⟩
      · rw [trifreqCenter]
        simp only [hrit.lemsAt]
        exact hok
      · rw [hs', trifreqRight_contains, List.mem_cons]
        tauto

variable (tri) in
/-- The outer loop adds the recorded triples of three adjacent words, one lemma of each. The
middle loop adds those of one lemma of the left word. -/
theorem trifreqLeft_spec {cit rit : UInt32} (hcit : Covered lems cit) (hrit : Covered lems rit)
    (lids : List UInt32) :
    ∀ s, ∃ s', trifreqLeft lems tri cit rit s lids = .ok s' ∧
      ∀ t, s'.contains t = true ↔ s.contains t = true ∨
        ((tri.lookup t).isSome ∧ t.1 ∈ lids ∧ t.2.1 ∈ combos lems cit ∧
          t.2.2 ∈ combos lems rit) := by
  induction lids with
  | nil => intro s; exact ⟨s, rfl, fun t => by simp⟩
  | cons lid lids ih =>
      intro s
      obtain ⟨s₁, hok₁, hs₁⟩ := trifreqCenter_spec tri hrit lid (combos lems cit) s
      obtain ⟨s', hok, hs'⟩ := ih s₁
      refine ⟨s', ?_, fun t => ?_⟩
      · rw [trifreqLeft]
        simp only [hcit.lemsAt, hok₁]
        exact hok
      · rw [hs', hs₁, List.mem_cons]
        tauto

variable (tri) in
/-- The windows of three words of a phrase, from left to right. A phrase of fewer words has none.
-/
theorem trifreqIds_spec (ids : Phrase) :
    ∀ s, (∀ w ∈ ids, Covered lems w) →
      ∃ s', trifreqIds lems tri s ids = .ok s' ∧
        ∀ t, s'.contains t = true ↔ s.contains t = true ∨
          ((tri.lookup t).isSome ∧ ∃ q ∈ triples ids, t ∈ combos lems q) := by
  induction ids with
  | nil => intro s _; exact ⟨s, rfl, fun t => by simp⟩
  | cons lit ids ih =>
      intro s hcov
      cases ids with
      | nil => exact ⟨s, rfl, fun t => by simp⟩
      | cons cit ids =>
          cases ids with
          | nil => exact ⟨s, rfl, fun t => by simp⟩
          | cons rit rest =>
              -- The first window, and by induction those behind it.
              have hlit : Covered lems lit := hcov lit (by simp)
              obtain ⟨s₁, hok₁, hs₁⟩ := trifreqLeft_spec tri (hcov cit (by simp))
                (hcov rit (by simp)) (combos lems lit) s
              obtain ⟨s', hok, hs'⟩ := ih s₁ (fun w hw => hcov w (List.mem_cons_of_mem lit hw))
              refine ⟨s', ?_, fun t => ?_⟩
              · rw [trifreqIds]
                simp only [hlit.lemsAt, hok₁]
                exact hok
              · rw [hs', hs₁, triples_cons_cons_cons, List.exists_mem_cons_iff,
                  mem_combos_prod, mem_combos_prod, or_assoc, ← and_or_left]

/-- The set after the phrases `doc` of an open document. -/
def DocSetIs (lems : List (List UInt32)) (tri : FlatHashMap Iddd UInt32) (doc : List Phrase)
    (s : FlatHashSet Iddd) : Prop :=
  ∀ t, s.contains t = true ↔ (tri.lookup t).isSome ∧ t ∈ docKeys triples lems doc

/-- A phrase of an open document extends the set by its triples. The counters change at the end of
the document only. -/
theorem trifreqPhrase_spec (std : Stdlib) {s : FlatHashSet Iddd} {doc : List Phrase}
    {ids : Phrase} (h : DocSetIs lems tri doc s) (hne : ids ≠ [])
    (hcov : ∀ w ∈ ids, Covered lems w) :
    ∃ s', trifreqPhrase std lems { tri := tri, triset := s } ids
        = .ok { tri := tri, triset := s' } ∧ DocSetIs lems tri (doc ++ [ids]) s' := by
  obtain ⟨s', hok, hs'⟩ := trifreqIds_spec tri ids s hcov
  refine ⟨s', ?_, fun t => ?_⟩
  · unfold trifreqPhrase
    rw [if_neg (by simpa using hne)]
    simp only [hok]
  · rw [hs', h, ← and_or_left]
    simp [mem_docKeys, or_and_right, exists_or]

variable (tri) in
/-- The phrases of a document, from the empty set on. The loop does not fail, as each word has a
row in the table. -/
theorem trifreqPhrases_spec (std : Stdlib) {doc : List Phrase} (hne : ∀ ids ∈ doc, ids ≠ [])
    (hcov : CoversPhrases lems doc) :
    ∃ s, doc.foldlM (trifreqPhrase std lems) { tri := tri, triset := ∅ }
        = .ok { tri := tri, triset := s } ∧ DocSetIs lems tri doc s := by
  obtain ⟨st, hrun, s, rfl, hs⟩ := foldlM_list (f := trifreqPhrase std lems)
    (P := fun before st => ∃ s, st = { tri := tri, triset := s } ∧ DocSetIs lems tri before s)
    (fun ids hids before st hst => by
      obtain ⟨s, rfl, hs⟩ := hst
      obtain ⟨s', hok, hs'⟩ := trifreqPhrase_spec std hs (hne ids hids) (hcov ids hids)
      exact ⟨_, hok, s', rfl, hs'⟩)
    ⟨∅, rfl, fun t => by simp [docKeys]⟩
  exact ⟨s, hrun, hs⟩

variable (lems) in
/-- The counters of the recorded triples after closed documents: each document counts once for
each recorded triple in it. The induction is on the documents. -/
theorem trifreq_run (std : Stdlib) (docs : List (List Phrase)) :
    ∀ tri₀ : FlatHashMap Iddd UInt32,
      (∀ doc ∈ docs, ∀ ids ∈ doc, ids ≠ []) → (∀ doc ∈ docs, CoversPhrases lems doc) →
      ∃ st, (corpusOf docs).foldlM (trifreqPhrase std lems) { tri := tri₀, triset := ∅ }
          = .ok st ∧
        ∀ t, st.tri.lookup t = (tri₀.lookup t).map
          (fun c => c + UInt32.ofNat (docCount triples lems docs t)) := by
  induction docs with
  | nil =>
      intro tri₀ _ _
      refine ⟨_, rfl, fun t => ?_⟩
      show tri₀.lookup t = (tri₀.lookup t).map (fun c => c + UInt32.ofNat 0)
      cases tri₀.lookup t with
      | none => rfl
      | some c => simp
  | cons doc docs ih =>
      intro tri₀ hne hcov
      obtain ⟨s, hok, hs⟩ := trifreqPhrases_spec tri₀ std (hne doc List.mem_cons_self)
        (hcov doc List.mem_cons_self)
      obtain ⟨st, hrun, hst⟩ := ih (increment std tri₀ s)
        (fun d hd => hne d (List.mem_cons_of_mem doc hd))
        (fun d hd => hcov d (List.mem_cons_of_mem doc hd))
      refine ⟨st, ?_, fun t => ?_⟩
      · rw [corpusOf, List.flatMap_cons, List.append_assoc, List.foldlM_append, hok]
        exact hrun
      · rw [hst, docCount_cons]
        exact recorded_step std hs t _

end Trifreq

end Colloc.Proofs

import Colloc.Proofs.ZmapKeys

/-!
# `Colloc.Proofs.CaseOrder`: what `to_zmap` takes from the order of the cases

The cases of a group are in the order an unstable sort by lemmas has left them in. `to_zmap` asks
`std::max_element` for the case of greatest count, which is the first one of several. So the order
decides between tied cases, and between these alone.

`Reordered` relates two sets of files that differ in the order of the cases. Their loads end alike
(`zmapLoad_alike`), with the same document counts. The loop bodies write the same for a pair or
triple whose tied cases have the same texts, and skip a pair whose tied cases all have a short
word (`SameWrites`). Without ties between different words the whole run is the same, and between
tied cases that differ the first one decides (`toZmap_caseOrder`).

In `tiedFiles` two cases are tied. One order publishes the pair, and the other one skips it
(`toZmap_tied`).
-/

set_option autoImplicit false

namespace Colloc.Proofs

open Colloc.Lib
open Colloc.Spec

/-! ### The greatest count -/

section Greatest
variable {K R : Type}

/-- A case of the greatest count. -/
structure IsGreatest (cases : List (Case K)) (cs : Case K) : Prop where
  mem : cs ∈ cases
  max : ∀ cs' ∈ cases, cs'.count ≤ cs.count

/-- To have the greatest count does not depend on the order. -/
theorem IsGreatest.perm {cases cases' : List (Case K)} {cs : Case K} (h : IsGreatest cases' cs)
    (hperm : cases'.Perm cases) : IsGreatest cases cs where
  mem := hperm.mem_iff.mp h.mem
  max cs' hcs' := h.max cs' (hperm.mem_iff.mpr hcs')

/-- The first case of greatest count is one of them. -/
theorem FirstGreatest.isGreatest {cases : List (Case K)} {cs : Case K}
    (h : FirstGreatest cases cs) : IsGreatest cases cs where
  mem := h.mem
  max := h.max

/-- The same group with its cases in some order. -/
structure SameButOrder (lg lg' : LemGroup K R) : Prop where
  lids : lg'.lids = lg.lids
  weight : lg'.weight = lg.weight
  cases : lg'.cases.Perm lg.cases

/-- There is a representative in both orders, or in none. Each is a greatest case of the group,
but ties may be decided in another way. -/
theorem SameButOrder.maxCase_or {lg lg' : LemGroup K R} (h : SameButOrder lg lg') :
    (maxCase lg.cases = none ∧ maxCase lg'.cases = none) ∨
      ∃ cs cs', maxCase lg.cases = some cs ∧ maxCase lg'.cases = some cs' ∧
        IsGreatest lg.cases cs ∧ IsGreatest lg.cases cs' := by
  by_cases hnil : lg.cases = []
  · have hnil' : lg'.cases = [] := (hnil ▸ h.cases).eq_nil
    rw [hnil, hnil']
    exact Or.inl ⟨rfl, rfl⟩
  · have hnil' : lg'.cases ≠ [] := fun hn => hnil ((hn ▸ h.cases.symm).eq_nil)
    obtain ⟨cs, hmax⟩ := exists_maxCase hnil
    obtain ⟨cs', hmax'⟩ := exists_maxCase hnil'
    exact Or.inr ⟨cs, cs', hmax, hmax', (maxCase_first hmax).isGreatest,
      (maxCase_first hmax').isGreatest.perm h.cases⟩

/-- The files with the cases of the groups in some order. -/
structure Reordered (files files' : ZmapInput R) : Prop where
  bifiltered : List.Forall₂ SameButOrder files.bifiltered.msgs files'.bifiltered.msgs
  trifiltered : List.Forall₂ SameButOrder files.trifiltered.msgs files'.trifiltered.msgs
  rest : files' = { files with bifiltered := files'.bifiltered, trifiltered := files'.trifiltered }

section Fields
variable {files files' : ZmapInput R} (h : Reordered files files')
include h

/-- `bifreq.bin` is the same file. -/
theorem Reordered.bifreq : files'.bifreq = files.bifreq := by rw [h.rest]

/-- So is `trifreq.bin`. -/
theorem Reordered.trifreq : files'.trifreq = files.trifreq := by rw [h.rest]

/-- So is `uni.bin`. -/
theorem Reordered.uni : files'.uni = files.uni := by rw [h.rest]

/-- So is `lemid.bin`. -/
theorem Reordered.lemid : files'.lemid = files.lemid := by rw [h.rest]

end Fields

end Greatest

/-! ### The groups -/

section Groups
variable {K R : Type} [IdTuple K] [DecidableEq K]

omit [IdTuple K] in
/-- The group that is noted for a tuple is the first one in both orders, at the same place, since
only the cases inside the groups change places. -/
theorem groupFor_reordered {filtered filtered' : RecordFile (LemGroup K R)}
    (h : List.Forall₂ SameButOrder filtered.msgs filtered'.msgs) {k : K} {lg lg' : LemGroup K R}
    (hfor : groupFor filtered k = some lg) (hfor' : groupFor filtered' k = some lg') :
    SameButOrder lg lg' := by
  unfold groupFor at hfor hfor'
  generalize filtered.msgs = msgs at h hfor
  generalize filtered'.msgs = msgs' at h hfor'
  induction h with
  | nil => cases hfor
  | @cons a a' l l' ha _ ih =>
      by_cases hk : a.lids = k
      · rw [List.find?_cons_of_pos (by simpa using hk)] at hfor
        rw [List.find?_cons_of_pos (by simpa using ha.lids.trans hk)] at hfor'
        cases hfor
        cases hfor'
        exact ha
      · rw [List.find?_cons_of_neg (by simpa using hk)] at hfor
        rw [List.find?_cons_of_neg (by simpa [ha.lids] using hk)] at hfor'
        exact ih hfor hfor'

/-- The entries have the same document counts. -/
def SameCounts (freqs freqs' : FlatHashMap K (UInt32 × K)) : Prop :=
  ∀ k, (freqs.lookup k).map Prod.fst = (freqs'.lookup k).map Prod.fst

omit [IdTuple K] in
/-- A tuple is noted in both maps or in none, with the same count. The words that are noted with
it may differ. -/
theorem SameCounts.tryEmplace {freqs freqs' : FlatHashMap K (UInt32 × K)}
    (h : SameCounts freqs freqs') (k : K) (dc : UInt32) (wids wids' : K) :
    SameCounts (freqs.tryEmplace k (dc, wids)) (freqs'.tryEmplace k (dc, wids')) := by
  intro k'
  rw [FlatHashMap.lookup_tryEmplace, FlatHashMap.lookup_tryEmplace]
  by_cases hk : k' = k
  · have hold := h k
    rw [if_pos hk, if_pos hk]
    cases hlookup : freqs.lookup k with
    | none =>
        cases hlookup' : freqs'.lookup k with
        | none => rfl
        | some e' =>
            rw [hlookup, hlookup'] at hold
            cases hold
    | some e =>
        cases hlookup' : freqs'.lookup k with
        | none =>
            rw [hlookup, hlookup'] at hold
            cases hold
        | some e' =>
            rw [hlookup, hlookup'] at hold
            exact hold
  · rw [if_neg hk, if_neg hk]
    exact h k'

/-- One group, in both orders: both runs fail, or the entries have the same keys and counts. The
words in them may differ. -/
theorem zmapGroup_alike (cnt : FlatHashMap K UInt32) {lg lg' : LemGroup K R}
    (h : SameButOrder lg lg') (s t : Texts × FlatHashMap K (UInt32 × K))
    (hst : SameCounts s.2 t.2) :
    EndAlike (fun s t => SameCounts s.2 t.2) (zmapGroup cnt s lg) (zmapGroup cnt t lg') := by
  unfold zmapGroup
  rcases h.maxCase_or with ⟨hnone, hnone'⟩ | ⟨cs, cs', hmax, hmax', -, -⟩
  · simp only [hnone, hnone']
    exact EndAlike.error _
  · simp only [hmax, hmax', h.lids]
    cases cnt.deref lg.lids "it->second" with
    | error e => exact EndAlike.error e
    | ok dc => exact EndAlike.ok (hst.tryEmplace lg.lids dc cs.wids cs'.wids)

/-- The groups of a file, in both orders. -/
theorem zmapGroups_alike [Double R] (cnt : FlatHashMap K UInt32)
    {filtered filtered' : RecordFile (LemGroup K R)}
    (h : List.Forall₂ SameButOrder filtered.msgs filtered'.msgs) (texts texts' : Texts) :
    EndAlike (fun s t => SameCounts s.2 t.2) (readApply filtered (zmapGroup cnt) (texts, ∅))
      (readApply filtered' (zmapGroup cnt) (texts', ∅)) := by
  rw [readApply_eq, readApply_eq]
  exact foldlM_alike (fun _ _ hlg => zmapGroup_alike cnt hlg) h _ _ (fun k => rfl)

end Groups

/-! ### The first half -/

section Load
variable {R : Type} [Double R] {files files' : ZmapInput R}

/-- The loads of both orders end alike, with the same document counts. -/
theorem zmapLoad_alike (h : Reordered files files') :
    EndAlike (fun load load' => SameCounts load.2.1 load'.2.1 ∧ SameCounts load.2.2 load'.2.2)
      (zmapLoad files) (zmapLoad files') := by
  obtain ⟨bicnt, hbicnt, -⟩ := loadFreqs_eq files.bifreq
  obtain ⟨tricnt, htricnt, -⟩ := loadFreqs_eq files.trifreq
  rw [zmapLoad_eq hbicnt htricnt, zmapLoad_eq (h.bifreq ▸ hbicnt) (h.trifreq ▸ htricnt)]
  refine (zmapGroups_alike bicnt h.bifiltered _ _).bind (fun bi bi' hbi => ?_)
  exact (zmapGroups_alike tricnt h.trifiltered _ _).bind
    (fun tri tri' htri => EndAlike.ok ⟨hbi, htri⟩)

end Load

/-! ### Ties -/

section Ties
variable {K R : Type} [IdTuple K]

/-- The cases of greatest count have the same words. -/
def SameWords (lg : LemGroup K R) : Prop :=
  ∀ cs cs', IsGreatest lg.cases cs → IsGreatest lg.cases cs' → cs.wids = cs'.wids

/-- The words of the cases of greatest count have the same texts. -/
def SameTexts (uni : RecordFile Unigram) (lg : LemGroup K R) : Prop :=
  ∀ cs cs', IsGreatest lg.cases cs → IsGreatest lg.cases cs' →
    wordTexts uni cs.wids = wordTexts uni cs'.wids

/-- Every case of greatest count has a word of fewer than three letters. -/
def AllShort (lib : Baalbek) (uni : RecordFile Unigram) (lg : LemGroup K R) : Prop :=
  ∀ cs, IsGreatest lg.cases cs → hasShort lib (wordTexts uni cs.wids) = true

end Ties

/-! ### What is written -/

section Writes
variable {texts : Texts} {lems words : List Bytes}

/-- The two loads have the same pairs and triples with the same document counts. The loop bodies
do the same for a pair or triple whose ties do not matter, whatever the map is so far. -/
structure SameWrites {R : Type} (lib : Baalbek) (files : ZmapInput R)
    (load load' : Texts × FlatHashMap Idd (UInt32 × Idd) × FlatHashMap Iddd (UInt32 × Iddd)) :
    Prop where
  bicounts : SameCounts load.2.1 load'.2.1
  tricounts : SameCounts load.2.2 load'.2.2
  pair : ∀ k e e' lg, load.2.1.lookup k = some e → load'.2.1.lookup k = some e' →
    groupFor files.bifiltered k = some lg → SameTexts files.uni lg ∨ AllShort lib files.uni lg →
    ∀ stat, zmapBigram lib load.1 stat (k, e) = zmapBigram lib load'.1 stat (k, e')
  triple : ∀ k e e' lg, load.2.2.lookup k = some e → load'.2.2.lookup k = some e' →
    groupFor files.trifiltered k = some lg → SameTexts files.uni lg →
    ∀ stat, zmapTrigram load.1 stat (k, e) = zmapTrigram load'.1 stat (k, e')

/-- The entries of both orders: the same document count, and the words of two cases of greatest
count. -/
theorem Finds.both {K R : Type} [IdTuple K] [DecidableEq K] {files files' : ZmapInput R}
    {filtered filtered' : RecordFile (LemGroup K R)} {texts texts' : Texts}
    {freqs freqs' : FlatHashMap K (UInt32 × K)} (h : Finds files filtered texts freqs)
    (h' : Finds files' filtered' texts' freqs')
    (hgroups : List.Forall₂ SameButOrder filtered.msgs filtered'.msgs)
    (hcounts : SameCounts freqs freqs') {k : K} {e e' : UInt32 × K} {lg : LemGroup K R}
    (he : freqs.lookup k = some e) (he' : freqs'.lookup k = some e')
    (hlg : groupFor filtered k = some lg) :
    ∃ dc cs cs', e = (dc, cs.wids) ∧ e' = (dc, cs'.wids) ∧ IsGreatest lg.cases cs ∧
      IsGreatest lg.cases cs' := by
  obtain ⟨⟨cs, ⟨lg₁, hlg₁, hfirst⟩, hwids⟩, -, -⟩ := h k e he
  obtain ⟨⟨cs', ⟨lg', hlg', hfirst'⟩, hwids'⟩, -, -⟩ := h' k e' he'
  have hsame := groupFor_reordered hgroups hlg hlg'
  rw [hlg] at hlg₁
  cases hlg₁
  have hdc := hcounts k
  rw [he, he'] at hdc
  exact ⟨e.1, cs, cs', Prod.ext rfl hwids.symm, Prod.ext (Option.some.inj hdc).symm hwids'.symm,
    hfirst.isGreatest, hfirst'.isGreatest.perm hsame.cases⟩

/-- What the loop bodies do is decided by the first case of greatest count: its words are the text
of the pair or triple, and a pair is skipped when one of them has fewer than three letters. -/
structure FirstDecides {R : Type} (lib : Baalbek) (files : ZmapInput R)
    (load : Texts × FlatHashMap Idd (UInt32 × Idd) × FlatHashMap Iddd (UInt32 × Iddd)) : Prop where
  pair : ∀ k e, load.2.1.lookup k = some e → ∃ cs, Chosen files.bifiltered k cs ∧ ∀ stat,
    zmapBigram lib load.1 stat (k, e)
      = if hasShort lib (wordTexts files.uni cs.wids) = true then .ok stat
        else if wrongValues (lemmaTexts files.lemid k) (wordTexts files.uni cs.wids) e.1 = true then
          .error (.runtime "bi: wrong data values")
        else .ok (stat.insert (lemmaTexts files.lemid k).flatten
          { dc := e.1, txt := some (joinWords (wordTexts files.uni cs.wids)) })
  triple : ∀ k e, load.2.2.lookup k = some e → ∃ cs, Chosen files.trifiltered k cs ∧ ∀ stat,
    zmapTrigram load.1 stat (k, e)
      = if wrongValues (lemmaTexts files.lemid k) (wordTexts files.uni cs.wids) e.1 = true then
          .error (.runtime "tri: wrong data values")
        else .ok (stat.insert (lemmaTexts files.lemid k).flatten
          { dc := e.1, txt := some (joinWords (wordTexts files.uni cs.wids)) })

/-- The loops find the words of the chosen case, and nothing else of the group. -/
theorem firstDecides_of_load {R : Type} [Double R] {files : ZmapInput R} (lib : Baalbek)
    {load : Texts × FlatHashMap Idd (UInt32 × Idd) × FlatHashMap Iddd (UInt32 × Iddd)}
    (hload : zmapLoad files = .ok load) : FirstDecides lib files load := by
  obtain ⟨hbi, htri⟩ := zmapLoad_finds hload
  refine ⟨fun k e he => ?_, fun k e he => ?_⟩
  · obtain ⟨⟨cs, hcs, hwids⟩, hlems, hwords⟩ := hbi k e he
    exact ⟨cs, hcs, fun stat => zmapBigram_eq lib stat hlems (hwids ▸ hwords)⟩
  · obtain ⟨⟨cs, hcs, hwids⟩, hlems, hwords⟩ := htri k e he
    exact ⟨cs, hcs, fun stat => zmapTrigram_eq stat hlems (hwids ▸ hwords)⟩

/-- Loads of both orders write the same where the ties do not matter. The words of an entry are
those of one of the tied cases in either order, and these have the same texts, or all a short
word. -/
theorem sameWrites_of_load {R : Type} [Double R] {files files' : ZmapInput R}
    (h : Reordered files files') (lib : Baalbek)
    {load load' : Texts × FlatHashMap Idd (UInt32 × Idd) × FlatHashMap Iddd (UInt32 × Iddd)}
    (hload : zmapLoad files = .ok load) (hload' : zmapLoad files' = .ok load')
    (hcounts : SameCounts load.2.1 load'.2.1 ∧ SameCounts load.2.2 load'.2.2) :
    SameWrites lib files load load' := by
  obtain ⟨hbi, htri⟩ := zmapLoad_finds hload
  obtain ⟨hbi', htri'⟩ := zmapLoad_finds hload'
  refine ⟨hcounts.1, hcounts.2, fun k e e' lg he he' hlg hties stat => ?_,
    fun k e e' lg he he' hlg hties stat => ?_⟩
  · obtain ⟨dc, cs, cs', rfl, rfl, hcs, hcs'⟩ :=
      hbi.both hbi' h.bifiltered hcounts.1 he he' hlg
    obtain ⟨-, hlems, hwords⟩ := hbi k _ he
    obtain ⟨-, hlems', hwords'⟩ := hbi' k _ he'
    rw [h.lemid] at hlems'
    rw [h.uni] at hwords'
    rw [zmapBigram_eq lib stat hlems hwords, zmapBigram_eq lib stat hlems' hwords']
    rcases hties with hsame | hshort
    · rw [hsame cs cs' hcs hcs']
    · rw [if_pos (hshort cs hcs), if_pos (hshort cs' hcs')]
  · obtain ⟨dc, cs, cs', rfl, rfl, hcs, hcs'⟩ :=
      htri.both htri' h.trifiltered hcounts.2 he he' hlg
    obtain ⟨-, hlems, hwords⟩ := htri k _ he
    obtain ⟨-, hlems', hwords'⟩ := htri' k _ he'
    rw [h.lemid] at hlems'
    rw [h.uni] at hwords'
    rw [zmapTrigram_eq stat hlems hwords, zmapTrigram_eq stat hlems' hwords',
      hties cs cs' hcs hcs']

end Writes

/-! ### Runs without ties -/

section NoTies
variable {K R : Type} [IdTuple K] [DecidableEq K]

/-- A group without ties between different words is read alike in every order. -/
theorem zmapGroup_of_sameWords (cnt : FlatHashMap K UInt32) {lg lg' : LemGroup K R}
    (hties : SameWords lg) (h : SameButOrder lg lg') (st : Texts × FlatHashMap K (UInt32 × K)) :
    zmapGroup cnt st lg = zmapGroup cnt st lg' := by
  unfold zmapGroup
  rcases h.maxCase_or with ⟨hnone, hnone'⟩ | ⟨cs, cs', hmax, hmax', hcs, hcs'⟩
  · simp only [hnone, hnone']
  · simp only [hmax, hmax', h.lids, hties cs cs' hcs hcs']

/-- When the tied cases have the same words, every order of the cases notes the same. The
induction is on the groups. -/
theorem zmapGroups_of_sameWords [Double R] (cnt : FlatHashMap K UInt32)
    {filtered filtered' : RecordFile (LemGroup K R)}
    (h : List.Forall₂ SameButOrder filtered.msgs filtered'.msgs)
    (hties : ∀ lg ∈ filtered.msgs, SameWords lg) (st : Texts × FlatHashMap K (UInt32 × K)) :
    readApply filtered (zmapGroup cnt) st = readApply filtered' (zmapGroup cnt) st := by
  have hboth : List.Forall₂ (fun lg lg' => SameWords lg ∧ SameButOrder lg lg') filtered.msgs
      filtered'.msgs := (List.forall₂_and_left _ _).mpr ⟨hties, h⟩
  rw [readApply_eq, readApply_eq]
  refine (foldlM_alike (Q := Eq) (fun lg lg' hlg s t hst => ?_) hboth st st rfl).eq
  rw [← hst, zmapGroup_of_sameWords cnt hlg.1 hlg.2 s]
  cases zmapGroup cnt s lg' with
  | error e => exact EndAlike.error e
  | ok s' => exact EndAlike.ok rfl

end NoTies

/-- The order of the cases matters to `to_zmap` through ties for the greatest count alone. The
loads of two orders end alike, and what is written for a pair or triple is the same when the tied
cases have the same texts, or for a pair when all of them have a short word. Without ties between
different words both runs end in the same map or the same failure. Between tied cases with different
words the first one in storage order decides. -/
theorem toZmap_caseOrder {R : Type} [Double R] (std : Stdlib) (lib : Baalbek) (version : String)
    {files files' : ZmapInput R} (h : Reordered files files') :
    EndAlike (SameWrites lib files) (zmapLoad files) (zmapLoad files') ∧
    ((∀ lg ∈ files.bifiltered.msgs, SameWords lg) →
      (∀ lg ∈ files.trifiltered.msgs, SameWords lg) →
      toZmap std lib files' version = toZmap std lib files version) ∧
    ∀ load, zmapLoad files = .ok load → FirstDecides lib files load := by
  refine ⟨?_, fun hbi htri => ?_, fun load hload => firstDecides_of_load lib hload⟩
  · exact (zmapLoad_alike h).imp_of_ok
      (fun load load' hload hload' hcounts => sameWrites_of_load h lib hload hload' hcounts)
  · obtain ⟨bicnt, hbicnt, -⟩ := loadFreqs_eq files.bifreq
    obtain ⟨tricnt, htricnt, -⟩ := loadFreqs_eq files.trifreq
    have hload : zmapLoad files' = zmapLoad files := by
      rw [zmapLoad_eq hbicnt htricnt, zmapLoad_eq (h.bifreq ▸ hbicnt) (h.trifreq ▸ htricnt)]
      simp only [zmapGroups_of_sameWords bicnt h.bifiltered hbi,
        zmapGroups_of_sameWords tricnt h.trifiltered htri, h.uni, h.lemid]
    unfold toZmap
    rw [hload, h.rest]

/-- A pair of lemmas with two cases, "мне дом" and "я дом". -/
def pairFiles (cases : List (Case Idd)) : ZmapInput ℚ where
  bifreq := { total := 1, msgs := [⟨(1, 2), 7⟩] }
  bifiltered := { total := 1, msgs := [⟨(1, 2), 1, cases⟩] }
  trifreq := { total := 0, msgs := [] }
  trifiltered := { total := 0, msgs := [] }
  uni :=
    { total := 3
      msgs := [⟨[208, 188, 208, 189, 208, 181], 1, 9⟩, ⟨[208, 180, 208, 190, 208, 188], 2, 9⟩,
        ⟨[209, 143], 3, 9⟩] }
  lemid := { total := 2, msgs := [⟨[209, 143], 1⟩, ⟨[208, 180, 208, 190, 208, 188], 2⟩] }
  lemfreq := { total := 0, msgs := [] }
  totalCount := 10

/-- The files of one pair in two orders of its cases. -/
theorem reordered_pairFiles {cases cases' : List (Case Idd)} (h : cases'.Perm cases) :
    Reordered (pairFiles cases) (pairFiles cases') :=
  ⟨List.Forall₂.cons ⟨rfl, rfl, h⟩ List.Forall₂.nil, List.Forall₂.nil, rfl⟩

/-- Cases without a tie, in both orders: the case of the greater count gives the text each time.
-/
theorem toZmap_caseOrder_pair :
    (∃ load load', zmapLoad (pairFiles [⟨(1, 2), 3⟩, ⟨(3, 2), 2⟩]) = .ok load ∧
      zmapLoad (pairFiles [⟨(3, 2), 2⟩, ⟨(1, 2), 3⟩]) = .ok load' ∧
      SameWrites cyrillicLib (pairFiles [⟨(1, 2), 3⟩, ⟨(3, 2), 2⟩]) load load') ∧
    toZmap Stdlib.sorting cyrillicLib (pairFiles [⟨(3, 2), 2⟩, ⟨(1, 2), 3⟩]) "1"
      = toZmap Stdlib.sorting cyrillicLib (pairFiles [⟨(1, 2), 3⟩, ⟨(3, 2), 2⟩]) "1" := by
  obtain ⟨halike, hrun, -⟩ := toZmap_caseOrder Stdlib.sorting cyrillicLib "1"
    (reordered_pairFiles (List.Perm.swap (⟨(1, 2), 3⟩ : Case Idd) ⟨(3, 2), 2⟩ []))
  refine ⟨?_, hrun (fun lg hlg => ?_) (fun lg hlg => absurd hlg List.not_mem_nil)⟩
  · obtain ⟨load, hload⟩ : ∃ load, zmapLoad (pairFiles [⟨(1, 2), 3⟩, ⟨(3, 2), 2⟩]) = .ok load :=
      ⟨_, rfl⟩
    obtain ⟨load', hload'⟩ : ∃ load, zmapLoad (pairFiles [⟨(3, 2), 2⟩, ⟨(1, 2), 3⟩]) = .ok load :=
      ⟨_, rfl⟩
    rw [hload, hload'] at halike
    cases halike with
    | ok hwrites => exact ⟨load, load', hload, hload', hwrites⟩
  · -- The case of greatest count is the first one.
    have hgreatest : ∀ c, IsGreatest [⟨(1, 2), 3⟩, ⟨(3, 2), 2⟩] c → c.wids = ((1, 2) : Idd) := by
      intro c hc
      rcases List.mem_cons.mp hc.mem with rfl | hmem
      · rfl
      · rw [List.mem_singleton.mp hmem] at hc
        exact absurd (hc.max ⟨(1, 2), 3⟩ List.mem_cons_self) (by decide)
    intro cs cs' hcs hcs'
    rw [List.mem_singleton.mp hlg] at hcs hcs'
    rw [hgreatest cs hcs, hgreatest cs' hcs']

/-- Two tied cases: in one order the pair is published, in the other one it is skipped, as its
first word is then a short one. -/
theorem toZmap_tied :
    Reordered (pairFiles [⟨(1, 2), 3⟩, ⟨(3, 2), 3⟩]) (pairFiles [⟨(3, 2), 3⟩, ⟨(1, 2), 3⟩]) ∧
    (∃ stat, toZmap Stdlib.sorting cyrillicLib (pairFiles [⟨(1, 2), 3⟩, ⟨(3, 2), 3⟩]) "1"
        = .ok stat ∧
      stat.get [209, 143, 208, 180, 208, 190, 208, 188] = some (.zmap
        { dc := 7
          txt := some [208, 188, 208, 189, 208, 181, 32, 208, 180, 208, 190, 208, 188] })) ∧
    ∃ stat, toZmap Stdlib.sorting cyrillicLib (pairFiles [⟨(3, 2), 3⟩, ⟨(1, 2), 3⟩]) "1"
        = .ok stat ∧
      stat.get [209, 143, 208, 180, 208, 190, 208, 188] = none :=
  ⟨reordered_pairFiles (List.Perm.swap _ _ _), ⟨_, rfl, by decide⟩, ⟨_, rfl, by decide⟩⟩

end Colloc.Proofs

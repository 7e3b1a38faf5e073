import Colloc.Proofs.Zmap

/-!
# `Colloc.Proofs.ZmapFinds`: what the loops of `to_zmap` look up

The loops over pairs and triples come to the entries of `bifreqs` and `trifreqs`. The words of an
entry are those of one case: in the first group with its lemmas, the first case of greatest count
(`Chosen`). Their texts, and those of the lemmas, are the ones of the last records of the
dictionary files (`textOf`). `zmapLoad_finds` says that the loops find exactly these, and
`zmapBigram_eq` and `zmapTrigram_eq` what they do with them.
-/

set_option autoImplicit false

namespace Colloc.Proofs

open Colloc.Lib
open Colloc.Spec

/-! ### The texts -/

/-- The text of an id in a dictionary file: that of its last record. -/
def textOf {M : Type} (id : M → UInt32) (str : M → Bytes) (msgs : List M) (i : UInt32) : Bytes :=
  ((msgs.reverse.find? (fun msg => decide (id msg = i))).map str).getD []

/-- The texts of ids that are in the map. -/
theorem derefAll_eq_map {m : FlatHashMap UInt32 Bytes} {text : UInt32 → Bytes} (what : String)
    {ids : List UInt32} (h : ∀ i ∈ ids, m.lookup i = some (text i)) :
    derefAll m what ids = .ok (ids.map text) := by
  induction ids with
  | nil => rfl
  | cons i ids ih =>
      rw [derefAll, FlatHashMap.deref, h i List.mem_cons_self]
      simp only [ih (fun i' hi' => h i' (List.mem_cons_of_mem i hi'))]
      rfl

/-- The texts of the lemmas `k`. -/
def lemmaTexts {K : Type} [IdTuple K] (lemid : RecordFile LemId) (k : K) : List Bytes :=
  (IdTuple.toList k).map (textOf LemId.id LemId.str lemid.msgs)

/-- The texts of the words `k`. -/
def wordTexts {K : Type} [IdTuple K] (uni : RecordFile Unigram) (k : K) : List Bytes :=
  (IdTuple.toList k).map (textOf StrIdWeight.id StrIdWeight.str uni.msgs)

/-! ### The groups -/

section Groups
variable {K R : Type} [DecidableEq K]

/-- The group that is noted for the lemmas `k`: the first one. -/
def groupFor (filtered : RecordFile (LemGroup K R)) (k : K) : Option (LemGroup K R) :=
  filtered.msgs.find? (fun lg => decide (lg.lids = k))

/-- The case whose words stand for the lemmas `k`: in the group that is noted for them, the first
case of greatest count. -/
def Chosen (filtered : RecordFile (LemGroup K R)) (k : K) (cs : Case K) : Prop :=
  ∃ lg, groupFor filtered k = some lg ∧ FirstGreatest lg.cases cs

/-- The group is one of the file, and has these lemmas. -/
theorem groupFor_mem {filtered : RecordFile (LemGroup K R)} {k : K} {lg : LemGroup K R}
    (h : groupFor filtered k = some lg) : lg ∈ filtered.msgs ∧ lg.lids = k :=
  ⟨List.mem_of_find?_eq_some h, by simpa using List.find?_some h⟩

/-- The words of an entry are those of the representative case of its group. When two groups have
the same lemmas, it is the first one that is kept. -/
theorem entry_of_run [IdTuple K] [Double R] {cnt : FlatHashMap K UInt32}
    {filtered : RecordFile (LemGroup K R)} {texts : Texts}
    {st : Texts × FlatHashMap K (UInt32 × K)}
    (hrun : readApply filtered (zmapGroup cnt) (texts, ∅) = .ok st) {k : K} {e : UInt32 × K}
    (he : st.2.lookup k = some e) :
    ∃ cs, Chosen filtered k cs ∧ cs.wids = e.2 := by
  rw [readApply_eq] at hrun
  have hboth := foldlM_keeps (P := fun done st => Noted cnt done st.1 st.2 ∧
      ∀ k e, st.2.lookup k = some e → ∃ lg cs,
        done.find? (fun lg => decide (lg.lids = k)) = some lg ∧ maxCase lg.cases = some cs ∧
          cs.wids = e.2) hrun
    (fun lg _ done s s' hs hok => by
      obtain ⟨hnoted, hfirst⟩ := hs
      refine ⟨(hnoted.step hok).1, fun k e he => ?_⟩
      obtain ⟨mit, dc, hmax, -, rfl⟩ := zmapGroup_eq_ok hok
      rcases FlatHashMap.of_lookup_tryEmplace he with hold | ⟨hnew, rfl, rfl⟩
      · obtain ⟨lg', cs, hfind, hcase⟩ := hfirst k e hold
        exact ⟨lg', cs, by rw [List.find?_append, hfind]; rfl, hcase⟩
      · -- A group that was read before would have an entry.
        have hnone : done.find? (fun lg' => decide (lg'.lids = lg.lids)) = none := by
          rw [List.find?_eq_none]
          intro lg' hlg' heq
          have hsome := hnoted.listed lg' hlg'
          rw [of_decide_eq_true heq, hnew] at hsome
          exact absurd hsome Bool.false_ne_true
        exact ⟨lg, mit, by simp [List.find?_append, hnone], hmax, rfl⟩)
    ⟨Noted.empty cnt texts, fun k e he => (nomatch he)⟩
  obtain ⟨lg, cs, hlg, hmax, hwids⟩ := hboth.2 k e he
  exact ⟨cs, ⟨lg, hlg, maxCase_first hmax⟩, hwids⟩

end Groups

section Load
variable {R : Type} [Double R] {files : ZmapInput R}

/-- What the loops find for an entry: the words of the representative case of its group, and the
texts of the dictionaries. -/
def Finds {K : Type} [IdTuple K] [DecidableEq K] (files : ZmapInput R)
    (filtered : RecordFile (LemGroup K R)) (texts : Texts) (freqs : FlatHashMap K (UInt32 × K)) :
    Prop :=
  ∀ k e, freqs.lookup k = some e →
    (∃ cs, Chosen filtered k cs ∧ cs.wids = e.2) ∧
    derefAll texts.unilem "unilem.find" (IdTuple.toList k) = .ok (lemmaTexts files.lemid k) ∧
    derefAll texts.uni "uni.find" (IdTuple.toList e.2) = .ok (wordTexts files.uni e.2)

/-- A load finds what the loops look up. The ids of the words of a group have been noted, so the
dictionary gives each of them the text of its record in `uni.bin`. -/
theorem zmapLoad_finds
    {load : Texts × FlatHashMap Idd (UInt32 × Idd) × FlatHashMap Iddd (UInt32 × Iddd)}
    (h : zmapLoad files = .ok load) :
    Finds files files.bifiltered load.1 load.2.1 ∧
      Finds files files.trifiltered load.1 load.2.2 := by
  obtain ⟨_, _, bi, tri, -, -, hbirun, htrirun, rfl⟩ := zmapLoad_eq_ok h
  obtain ⟨hbi, -, hbiblank⟩ := Noted.run hbirun
  obtain ⟨htri, hgrows, htriblank⟩ := Noted.run htrirun
  have hblank : Blank tri.1 := htriblank (hbiblank Blank.empty)
  -- An id that is in the map had no text before its dictionary was read.
  have huni : ∀ w, (tri.1.uni.lookup w).isSome →
      (files.uni.msgs.foldl (fun t m => setText t m.id m.str) tri.1.uni).lookup w
        = some (textOf StrIdWeight.id StrIdWeight.str files.uni.msgs w) := by
    intro w hw
    obtain ⟨s, hs⟩ := Option.isSome_iff_exists.mp hw
    rw [lookup_setTexts StrIdWeight.id StrIdWeight.str, hs, hblank.uni w s hs]
    rfl
  have hunilem : ∀ l, (tri.1.unilem.lookup l).isSome →
      (files.lemid.msgs.foldl (fun t m => setText t m.id m.str) tri.1.unilem).lookup l
        = some (textOf LemId.id LemId.str files.lemid.msgs l) := by
    intro l hl
    obtain ⟨s, hs⟩ := Option.isSome_iff_exists.mp hl
    rw [lookup_setTexts LemId.id LemId.str, hs, hblank.unilem l s hs]
    rfl
  refine ⟨fun k e he => ⟨entry_of_run hbirun he, ?_, ?_⟩,
    fun k e he => ⟨entry_of_run htrirun he, ?_, ?_⟩⟩
  · exact derefAll_eq_map _ (fun l hl => hunilem l (hgrows.unilem l (hbi.unilem k e he l hl)))
  · exact derefAll_eq_map _ (fun w hw => huni w (hgrows.uni w (hbi.uni k e he w hw)))
  · exact derefAll_eq_map _ (fun l hl => hunilem l (htri.unilem k e he l hl))
  · exact derefAll_eq_map _ (fun w hw => huni w (htri.uni k e he w hw))

end Load

/-! ### The loop bodies -/

/-- A word of the pair has fewer than three letters. -/
def hasShort (lib : Baalbek) (words : List Bytes) : Bool :=
  words.any (fun w => (lib.mbcstowide w).length < 3)

section Bodies
variable {texts : Texts} {lems words : List Bytes}

/-- The loop body for a pair whose texts are found. -/
theorem zmapBigram_eq (lib : Baalbek) (stat : FlatHashMap Bytes ZVal) {k : Idd}
    {e : UInt32 × Idd}
    (hlems : derefAll texts.unilem "unilem.find" (IdTuple.toList k) = .ok lems)
    (hwords : derefAll texts.uni "uni.find" (IdTuple.toList e.2) = .ok words) :
    zmapBigram lib texts stat (k, e) = if hasShort lib words = true then .ok stat
      else if wrongValues lems words e.1 = true then .error (.runtime "bi: wrong data values")
      else .ok (stat.insert lems.flatten { dc := e.1, txt := some (joinWords words) }) := by
  unfold zmapBigram hasShort
  simp only [hlems, hwords]

/-- The loop body for a triple whose texts are found. -/
theorem zmapTrigram_eq (stat : FlatHashMap Bytes ZVal) {k : Iddd} {e : UInt32 × Iddd}
    (hlems : derefAll texts.unilem "unilem.find" (IdTuple.toList k) = .ok lems)
    (hwords : derefAll texts.uni "uni.find" (IdTuple.toList e.2) = .ok words) :
    zmapTrigram texts stat (k, e)
      = if wrongValues lems words e.1 = true then .error (.runtime "tri: wrong data values")
      else .ok (stat.insert lems.flatten { dc := e.1, txt := some (joinWords words) }) := by
  unfold zmapTrigram
  simp only [hlems, hwords]

end Bodies

end Colloc.Proofs

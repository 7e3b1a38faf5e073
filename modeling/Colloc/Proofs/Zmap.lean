import Colloc.Proofs.FreqStages
import Colloc.Spec.ToZmap

/-!
# `Colloc.Proofs.Zmap`: `to_zmap` succeeds

`to_zmap` looks up the frequency of each filtered group, then the texts of its lemmas and of
the words of its representative case. `Noted` is the invariant of the first half: what the maps
have behind the groups read so far. `ZmapReady` is what the stage asks of its files: every group
has cases and a frequency, and every id whose text is needed has one that is not empty.

Groups that come from the corpus and have a frequency (`HasFreqs`) are ready, since their ids are
ids of `lemid.bin` and `uni.bin`, so `to_zmap` succeeds on them (`toZmap_total`).
-/

set_option autoImplicit false

namespace Colloc.Proofs

open Colloc.Lib
open Colloc.Spec

/-- The id has a text that is not empty. -/
def HasText (m : FlatHashMap UInt32 Bytes) (id : UInt32) : Prop :=
  ∃ s, m.lookup id = some s ∧ s ≠ []

/-! ### The texts -/

section Texts
variable {m : FlatHashMap UInt32 Bytes}

/-- `try_emplace` over the ids of a tuple adds those ids. -/
theorem isSome_emplaceIds {K : Type} [IdTuple K] (ids : K) (i : UInt32) :
    ((emplaceIds m ids).lookup i).isSome ↔ (m.lookup i).isSome ∨ i ∈ IdTuple.toList ids := by
  unfold emplaceIds
  induction IdTuple.toList ids generalizing m with
  | nil => simp
  | cons id l ih => rw [List.foldl_cons, ih, FlatHashMap.isSome_tryEmplace, List.mem_cons, or_assoc]

/-- A text is set where the id is already in the map, and nowhere else. The dictionaries are so
cut down to what the groups use. -/
theorem lookup_setText (id i : UInt32) (str : Bytes) :
    (setText m id str).lookup i
      = if i = id ∧ (m.lookup i).isSome then some str else m.lookup i := by
  unfold setText
  by_cases hi : i = id
  · subst hi
    by_cases hsome : (m.lookup i).isSome
    · rw [if_pos hsome, if_pos ⟨rfl, hsome⟩, AList.lookup_insert]
    · rw [if_neg hsome, if_neg (fun h => hsome h.2)]
  · rw [if_neg (fun h : i = id ∧ _ => hi h.1)]
    split
    · rw [AList.lookup_insert_ne hi]
    · rfl

/-- `set_uni` or `set_unilem` for each message of a file: an id of the map gets the text of its
last record. -/
theorem lookup_setTexts {M : Type} (id : M → UInt32) (str : M → Bytes) (i : UInt32)
    (msgs : List M) :
    (msgs.foldl (fun m msg => setText m (id msg) (str msg)) m).lookup i
      = (m.lookup i).map (fun old =>
          ((msgs.reverse.find? (fun msg => decide (id msg = i))).map str).getD old) := by
  induction msgs using List.reverseRecOn with
  | nil => simp
  | append_singleton msgs msg ih =>
      rw [List.foldl_append, List.foldl_cons, List.foldl_nil, lookup_setText, ih,
        List.reverse_append, List.reverse_singleton, List.singleton_append]
      by_cases hi : i = id msg
      · rw [List.find?_cons_of_pos (by simpa using hi.symm)]
        cases m.lookup i with
        | none => simp
        | some old => simp [hi]
      · rw [List.find?_cons_of_neg (by simpa using Ne.symm hi), if_neg (fun h => hi h.1)]

/-- An id of the map that is also one of the file gets a text that is not empty. A later record of
the same id may replace it. -/
theorem setText_run {M : Type} (id : M → UInt32) (str : M → Bytes) (i : UInt32) (msgs : List M)
    (hstr : ∀ msg ∈ msgs, str msg ≠ []) (hsome : (m.lookup i).isSome) (hi : i ∈ msgs.map id) :
    HasText (msgs.foldl (fun m msg => setText m (id msg) (str msg)) m) i := by
  obtain ⟨old, hold⟩ := Option.isSome_iff_exists.mp hsome
  obtain ⟨msg, hmsg, hid⟩ := List.mem_map.mp hi
  cases hfind : msgs.reverse.find? (fun msg => decide (id msg = i)) with
  | none =>
      have hne := List.find?_eq_none.mp hfind msg (List.mem_reverse.mpr hmsg)
      simp [hid] at hne
  | some last =>
      refine ⟨str last, ?_, hstr last (List.mem_reverse.mp (List.mem_of_find?_eq_some hfind))⟩
      rw [lookup_setTexts, hold, hfind]
      rfl

/-- All texts are found, and none is empty. The induction is on the ids. -/
theorem derefAll_ok (what : String) {ids : List UInt32} (h : ∀ id ∈ ids, HasText m id) :
    ∃ strs, derefAll m what ids = .ok strs ∧ ∀ s ∈ strs, s ≠ [] := by
  induction ids with
  | nil => exact ⟨[], rfl, fun s hs => absurd hs List.not_mem_nil⟩
  | cons id ids ih =>
      obtain ⟨s, hs, hne⟩ := h id List.mem_cons_self
      obtain ⟨strs, hok, hstrs⟩ := ih (fun id' hid' => h id' (List.mem_cons_of_mem id hid'))
      refine ⟨s :: strs, ?_, fun s' hs' => ?_⟩
      · have hderef : m.deref id what = .ok s := by rw [FlatHashMap.deref, hs]
        rw [derefAll, hderef]
        simp only [hok]
      · rcases List.mem_cons.mp hs' with rfl | hs'
        · exact hne
        · exact hstrs s' hs'

/-- Texts that are not empty and a frequency above zero pass the check of the source. -/
theorem wrongValues_eq_false {lems words : List Bytes} {dc : UInt32}
    (hlems : ∀ s ∈ lems, s ≠ []) (hwords : ∀ s ∈ words, s ≠ []) (hdc : dc ≠ 0) :
    wrongValues lems words dc = false := by
  have hany : ∀ l : List Bytes, (∀ s ∈ l, s ≠ []) → l.any List.isEmpty = false := by
    intro l hl
    rw [List.any_eq_false]
    intro s hs hempty
    exact hl s hs (List.isEmpty_iff.mp hempty)
  unfold wrongValues
  rw [hany lems hlems, hany words hwords, Bool.false_or, Bool.false_or]
  exact beq_eq_false_iff_ne.mpr hdc

end Texts

/-! ### The representative case -/

section MaxCase
variable {K : Type} {cases : List (Case K)} {cs : Case K}

/-- A case of the greatest count, in storage order the first one: the counts before it are smaller,
and those behind it are not greater. -/
def FirstGreatest (cases : List (Case K)) (cs : Case K) : Prop :=
  ∃ front back, cases = front ++ cs :: back ∧ (∀ c ∈ front, c.count < cs.count) ∧
    ∀ c ∈ back, c.count ≤ cs.count

/-- Behind all cases, one more becomes the first of greatest count when its count is greater than
that of the first one so far. -/
theorem FirstGreatest.append (h : FirstGreatest cases cs) (c : Case K) :
    FirstGreatest (cases ++ [c]) (if cs.count < c.count then c else cs) := by
  obtain ⟨front, back, rfl, hfront, hback⟩ := h
  by_cases hc : cs.count < c.count
  · rw [if_pos hc]
    refine ⟨front ++ cs :: back, [], rfl, fun c' hc' => ?_, fun c' hc' =>
      absurd hc' List.not_mem_nil⟩
    rcases List.mem_append.mp hc' with hc' | hc'
    · exact UInt32.lt_trans (hfront c' hc') hc
    · rcases List.mem_cons.mp hc' with rfl | hc'
      · exact hc
      · exact UInt32.lt_of_le_of_lt (hback c' hc') hc
  · rw [if_neg hc]
    refine ⟨front, back ++ [c], by rw [List.append_assoc, List.cons_append], hfront,
      fun c' hc' => ?_⟩
    rcases List.mem_append.mp hc' with hc' | hc'
    · exact hback c' hc'
    · rw [List.mem_singleton.mp hc']
      exact UInt32.not_lt.mp hc

/-- `max_element` is the first case of greatest count: a later one replaces it only when it is
greater. -/
theorem maxCase_first (h : maxCase cases = some cs) : FirstGreatest cases cs := by
  cases cases with
  | nil => cases h
  | cons start l =>
      rw [← Option.some.inj h]
      clear h
      -- The best case so far is the first of greatest count among those seen.
      induction l using List.reverseRecOn with
      | nil => exact ⟨[], [], rfl, fun c hc => absurd hc List.not_mem_nil,
          fun c hc => absurd hc List.not_mem_nil⟩
      | append_singleton l c ih =>
          rw [List.foldl_append, List.foldl_cons, List.foldl_nil, ← List.cons_append]
          exact ih.append c

/-- Cases have one. -/
theorem exists_maxCase (h : cases ≠ []) : ∃ cs, maxCase cases = some cs := by
  cases cases with
  | nil => exact absurd rfl h
  | cons cs l => exact ⟨_, rfl⟩

/-- It is one of the cases. -/
theorem FirstGreatest.mem (h : FirstGreatest cases cs) : cs ∈ cases := by
  obtain ⟨front, back, rfl, -, -⟩ := h
  exact List.mem_append_right front List.mem_cons_self

/-- No case has a greater count. -/
theorem FirstGreatest.max (h : FirstGreatest cases cs) : ∀ c ∈ cases, c.count ≤ cs.count := by
  obtain ⟨front, back, rfl, hfront, hback⟩ := h
  intro c hc
  rcases List.mem_append.mp hc with hc | hc
  · exact UInt32.le_of_lt (hfront c hc)
  · rcases List.mem_cons.mp hc with rfl | hc
    · exact UInt32.le_refl _
    · exact hback c hc

end MaxCase

/-! ### The groups -/

/-- The filtered groups come from the corpus and have a frequency above zero. -/
structure HasFreqs {K R : Type} [LemTuple K] [Double R] (windows : Phrase → List K)
    (lems : List (List UInt32)) (corpus : List Phrase) (filtered : RecordFile (LemGroup K R))
    (freq : RecordFile (Gram K)) : Prop where
  fromCorpus : ∀ lg ∈ filtered.msgs, FromCorpus windows lems corpus lg
  listed : ∀ lg ∈ filtered.msgs, lg.lids ∈ freq.msgs.map Gram.ids
  nonzero : ∀ g ∈ freq.msgs, g.weight ≠ 0

section Groups
variable {K R : Type} [IdTuple K] [DecidableEq K]

/-- The maps of the texts grow. -/
structure Grows (texts texts' : Texts) : Prop where
  uni : ∀ id, (texts.uni.lookup id).isSome → (texts'.uni.lookup id).isSome
  unilem : ∀ id, (texts.unilem.lookup id).isSome → (texts'.unilem.lookup id).isSome

/-- Maps that grow twice grow. -/
theorem Grows.trans {t₁ t₂ t₃ : Texts} (h : Grows t₁ t₂) (h' : Grows t₂ t₃) : Grows t₁ t₃ where
  uni id hid := h'.uni id (h.uni id hid)
  unilem id hid := h'.unilem id (h.unilem id hid)

/-- No text is set yet. -/
structure Blank (texts : Texts) : Prop where
  uni : ∀ id s, texts.uni.lookup id = some s → s = []
  unilem : ∀ id s, texts.unilem.lookup id = some s → s = []

/-- Empty maps have no text yet. -/
theorem Blank.empty : Blank { uni := ∅, unilem := ∅ } where
  uni _ _ hs := nomatch hs
  unilem _ _ hs := nomatch hs

omit [DecidableEq K] in
/-- New ids get the empty text, so a blank map stays one. The texts come later, from the
dictionaries. -/
theorem emplaceIds_blank (ids : K) {m : FlatHashMap UInt32 Bytes}
    (h : ∀ id s, m.lookup id = some s → s = []) :
    ∀ id s, (emplaceIds m ids).lookup id = some s → s = [] := by
  unfold emplaceIds
  induction IdTuple.toList ids generalizing m with
  | nil => exact h
  | cons i l ih =>
      refine ih (fun id s hs => ?_)
      rcases FlatHashMap.of_lookup_tryEmplace hs with hold | ⟨-, -, hnew⟩
      · exact h id s hold
      · exact hnew

/-- The entries behind the groups `done`: each is that of a group, with its frequency and the
words of its representative case, and the ids of its texts are in the maps. -/
structure Noted (cnt : FlatHashMap K UInt32) (done : List (LemGroup K R)) (texts : Texts)
    (freqs : FlatHashMap K (UInt32 × K)) : Prop where
  freq : ∀ k v, freqs.lookup k = some v → cnt.lookup k = some v.1
  group : ∀ k v, freqs.lookup k = some v →
    ∃ lg ∈ done, lg.lids = k ∧ ∃ cs, maxCase lg.cases = some cs ∧ cs.wids = v.2
  unilem : ∀ k v, freqs.lookup k = some v →
    ∀ l ∈ IdTuple.toList k, (texts.unilem.lookup l).isSome
  uni : ∀ k v, freqs.lookup k = some v → ∀ w ∈ IdTuple.toList v.2, (texts.uni.lookup w).isSome
  listed : ∀ lg ∈ done, (freqs.lookup lg.lids).isSome

/-- Before the first message nothing is noted. -/
theorem Noted.empty {R : Type} (cnt : FlatHashMap K UInt32) (texts : Texts) :
    Noted (R := R) cnt [] texts ∅ where
  freq _ _ hv := nomatch hv
  group _ _ hv := nomatch hv
  unilem _ _ hv := nomatch hv
  uni _ _ hv := nomatch hv
  listed _ hlg := absurd hlg List.not_mem_nil

/-- A group that is read: its frequency is there, and it has a representative case. Its ids get
places in the dictionaries, without a text so far. -/
theorem zmapGroup_eq_ok {cnt : FlatHashMap K UInt32} {st st' : Texts × FlatHashMap K (UInt32 × K)}
    {lg : LemGroup K R} (h : zmapGroup cnt st lg = .ok st') :
    ∃ mit dc, maxCase lg.cases = some mit ∧ cnt.lookup lg.lids = some dc ∧
      st' = ({ uni := emplaceIds st.1.uni mit.wids, unilem := emplaceIds st.1.unilem lg.lids },
        st.2.tryEmplace lg.lids (dc, mit.wids)) := by
  unfold zmapGroup at h
  simp only at h
  cases hmax : maxCase lg.cases with
  | none => rw [hmax] at h; cases h
  | some mit =>
      rw [hmax] at h
      unfold FlatHashMap.deref at h
      cases hdc : cnt.lookup lg.lids with
      | none => simp only [hdc] at h; cases h
      | some dc =>
          simp only [hdc] at h
          exact ⟨mit, dc, rfl, rfl, (Except.ok.inj h).symm⟩

/-- One group is noted. A group of the same lemmas that was there before keeps its entry, as
`try_emplace` leaves it alone. -/
theorem Noted.step {cnt : FlatHashMap K UInt32} {done : List (LemGroup K R)}
    {st st' : Texts × FlatHashMap K (UInt32 × K)} (h : Noted cnt done st.1 st.2)
    {lg : LemGroup K R} (hok : zmapGroup cnt st lg = .ok st') :
    Noted cnt (done ++ [lg]) st'.1 st'.2 ∧ Grows st.1 st'.1 ∧ (Blank st.1 → Blank st'.1) := by
  obtain ⟨mit, dc, hmax, hdc, rfl⟩ := zmapGroup_eq_ok hok
  have hgrows : Grows st.1
      { uni := emplaceIds st.1.uni mit.wids, unilem := emplaceIds st.1.unilem lg.lids } :=
    ⟨fun id hid => (isSome_emplaceIds _ _).mpr (Or.inl hid),
      fun id hid => (isSome_emplaceIds _ _).mpr (Or.inl hid)⟩
  refine ⟨⟨fun k v hv => ?_, fun k v hv => ?_, fun k v hv l hl => ?_, fun k v hv w hw => ?_,
    fun lg' hlg' => ?_⟩, hgrows, fun hblank => ⟨emplaceIds_blank _ hblank.uni,
      emplaceIds_blank _ hblank.unilem⟩⟩
  -- An entry is an earlier one or that of this group.
  · rcases FlatHashMap.of_lookup_tryEmplace hv with hold | ⟨-, rfl, rfl⟩
    · exact h.freq k v hold
    · exact hdc
  · rcases FlatHashMap.of_lookup_tryEmplace hv with hold | ⟨-, rfl, rfl⟩
    · obtain ⟨lg', hlg', hcase⟩ := h.group k v hold
      exact ⟨lg', List.mem_append_left _ hlg', hcase⟩
    · exact ⟨lg, by simp, rfl, mit, hmax, rfl⟩
  · rcases FlatHashMap.of_lookup_tryEmplace hv with hold | ⟨-, rfl, rfl⟩
    · exact hgrows.unilem l (h.unilem k v hold l hl)
    · exact (isSome_emplaceIds _ _).mpr (Or.inr hl)
  · rcases FlatHashMap.of_lookup_tryEmplace hv with hold | ⟨-, rfl, rfl⟩
    · exact hgrows.uni w (h.uni k v hold w hw)
    · exact (isSome_emplaceIds _ _).mpr (Or.inr hw)
  · rw [FlatHashMap.isSome_tryEmplace]
    rcases List.mem_append.mp hlg' with hlg' | hlg'
    · exact Or.inl (h.listed lg' hlg')
    · exact Or.inr (by rw [List.mem_singleton.mp hlg'])

/-- The groups of a file that is read through. The induction is on those that are read so far. -/
theorem Noted.run [Double R] {cnt : FlatHashMap K UInt32} {filtered : RecordFile (LemGroup K R)}
    {texts : Texts} {st : Texts × FlatHashMap K (UInt32 × K)}
    (hrun : readApply filtered (zmapGroup cnt) (texts, ∅) = .ok st) :
    Noted cnt filtered.msgs st.1 st.2 ∧ Grows texts st.1 ∧ (Blank texts → Blank st.1) := by
  rw [readApply_eq] at hrun
  refine foldlM_keeps (P := fun done st =>
    Noted cnt done st.1 st.2 ∧ Grows texts st.1 ∧ (Blank texts → Blank st.1)) hrun
    (fun lg _ done s s' hs hok => ?_)
    ⟨Noted.empty cnt texts, ⟨fun _ h => h, fun _ h => h⟩, fun h => h⟩
  obtain ⟨hnoted, hgrows, hblank⟩ := hs.1.step hok
  exact ⟨hnoted, hs.2.1.trans hgrows, fun h => hblank (hs.2.2 h)⟩

/-- Groups with cases and with a frequency are read through: neither `max_element` nor `find`
comes to the end of its range. -/
theorem zmapGroups_ok [Double R] {cnt : FlatHashMap K UInt32} {filtered : RecordFile (LemGroup K R)}
    (h : ∀ lg ∈ filtered.msgs, lg.cases ≠ [] ∧ (cnt.lookup lg.lids).isSome) (texts : Texts) :
    ∃ st, readApply filtered (zmapGroup cnt) (texts, ∅) = .ok st := by
  obtain ⟨st, hrun, -⟩ := foldlM_ok (f := zmapGroup cnt) (P := fun _ => True) (l := filtered.msgs)
    (s := (texts, ∅)) (fun lg hlg st _ => by
      obtain ⟨hcases, hcnt⟩ := h lg hlg
      obtain ⟨mit, hmax⟩ := exists_maxCase hcases
      obtain ⟨dc, -, hderef⟩ := deref_of_isSome hcnt "it->second"
      refine ⟨({ uni := emplaceIds st.1.uni mit.wids, unilem := emplaceIds st.1.unilem lg.lids },
        st.2.tryEmplace lg.lids (dc, mit.wids)), ?_, trivial⟩
      unfold zmapGroup
      simp only [hmax, hderef]) trivial
  refine ⟨st, ?_⟩
  rw [readApply_eq]
  exact hrun

end Groups

/-! ### The first half -/

section Load
variable {R : Type} [Double R] {files : ZmapInput R}

/-- The first half of `to_zmap`: two runs over groups, and then the dictionaries. The triples
start from the ids that the pairs have noted. -/
theorem zmapLoad_eq {bicnt : FlatHashMap Idd UInt32} {tricnt : FlatHashMap Iddd UInt32}
    (hbicnt : loadFreqs files.bifreq = .ok bicnt) (htricnt : loadFreqs files.trifreq = .ok tricnt) :
    zmapLoad files
      = (readApply files.bifiltered (zmapGroup bicnt) ({ uni := ∅, unilem := ∅ }, ∅)).bind
          fun bi => (readApply files.trifiltered (zmapGroup tricnt) (bi.1, ∅)).bind fun tri => .ok
            ({ uni := files.uni.msgs.foldl (fun t m => setText t m.id m.str) tri.1.uni
               unilem := files.lemid.msgs.foldl (fun t m => setText t m.id m.str) tri.1.unilem },
              bi.2, tri.2) := by
  unfold zmapLoad
  simp only [hbicnt, htricnt, readApply_pure]
  cases readApply files.bifiltered (zmapGroup bicnt) ({ uni := ∅, unilem := ∅ }, ∅) with
  | error e => rfl
  | ok bi =>
      simp only [Except.bind]
      cases readApply files.trifiltered (zmapGroup tricnt) (bi.1, ∅) with
      | error e => rfl
      | ok tri => rfl

/-- The runs of a first half that succeeds. The frequencies are read in any case, so only the
groups can fail. -/
theorem zmapLoad_eq_ok
    {load : Texts × FlatHashMap Idd (UInt32 × Idd) × FlatHashMap Iddd (UInt32 × Iddd)}
    (h : zmapLoad files = .ok load) :
    ∃ bicnt tricnt bi tri, loadFreqs files.bifreq = .ok bicnt ∧
      loadFreqs files.trifreq = .ok tricnt ∧
      readApply files.bifiltered (zmapGroup bicnt) ({ uni := ∅, unilem := ∅ }, ∅) = .ok bi ∧
      readApply files.trifiltered (zmapGroup tricnt) (bi.1, ∅) = .ok tri ∧
      load = ({ uni := files.uni.msgs.foldl (fun t m => setText t m.id m.str) tri.1.uni
                unilem := files.lemid.msgs.foldl (fun t m => setText t m.id m.str) tri.1.unilem },
        bi.2, tri.2) := by
  obtain ⟨bicnt, hbicnt, -⟩ := loadFreqs_eq files.bifreq
  obtain ⟨tricnt, htricnt, -⟩ := loadFreqs_eq files.trifreq
  rw [zmapLoad_eq hbicnt htricnt] at h
  cases hbirun : readApply files.bifiltered (zmapGroup bicnt) ({ uni := ∅, unilem := ∅ }, ∅) with
  | error e => rw [hbirun] at h; cases h
  | ok bi =>
      rw [hbirun] at h
      simp only [Except.bind] at h
      cases htrirun : readApply files.trifiltered (zmapGroup tricnt) (bi.1, ∅) with
      | error e => rw [htrirun] at h; cases h
      | ok tri =>
          rw [htrirun] at h
          exact ⟨bicnt, tricnt, bi, tri, hbicnt, htricnt, hbirun, htrirun, (Except.ok.inj h).symm⟩

end Load

/-! ### The values -/

/-- The entries have a frequency, and their lemmas and words have texts. -/
def Readable {K : Type} [IdTuple K] [DecidableEq K] (texts : Texts)
    (freqs : FlatHashMap K (UInt32 × K)) : Prop :=
  ∀ k v, freqs.lookup k = some v → v.1 ≠ 0 ∧
    (∀ l ∈ IdTuple.toList k, HasText texts.unilem l) ∧
    ∀ w ∈ IdTuple.toList v.2, HasText texts.uni w

/-- What `to_zmap` asks of the groups of a file: cases, a frequency above zero, and texts for the
lemmas and the words. -/
structure GroupsReady {K R : Type} [IdTuple K] (freq : RecordFile (Gram K))
    (filtered : RecordFile (LemGroup K R)) (lemid : RecordFile LemId) (uni : RecordFile Unigram) :
    Prop where
  cases_ne : ∀ lg ∈ filtered.msgs, lg.cases ≠ []
  listed : ∀ lg ∈ filtered.msgs, lg.lids ∈ freq.msgs.map Gram.ids
  nonzero : ∀ g ∈ freq.msgs, g.weight ≠ 0
  lemmas : ∀ lg ∈ filtered.msgs, ∀ l ∈ IdTuple.toList lg.lids, l ∈ lemid.msgs.map LemId.id
  words : ∀ lg ∈ filtered.msgs, ∀ cs ∈ lg.cases, ∀ w ∈ IdTuple.toList cs.wids,
    w ∈ uni.msgs.map StrIdWeight.id

section Ready
variable {K R : Type} [IdTuple K] [DecidableEq K] {freq : RecordFile (Gram K)}
  {filtered : RecordFile (LemGroup K R)} {lemid : RecordFile LemId} {uni : RecordFile Unigram}

/-- Such groups are read through. -/
theorem GroupsReady.run [Double R] (h : GroupsReady freq filtered lemid uni) (texts : Texts) :
    ∃ cnt texts' freqs, loadFreqs freq = .ok cnt ∧
      readApply filtered (zmapGroup cnt) (texts, ∅) = .ok (texts', freqs) ∧
      (∀ k c, cnt.lookup k = some c → ∃ g ∈ freq.msgs, g.ids = k ∧ g.weight = c) := by
  obtain ⟨cnt, hload, hkeys, hval⟩ := loadFreqs_spec freq
  have hgroups : ∀ lg ∈ filtered.msgs, lg.cases ≠ [] ∧ (cnt.lookup lg.lids).isSome :=
    fun lg hlg => ⟨h.cases_ne lg hlg, (hkeys lg.lids).mpr (h.listed lg hlg)⟩
  obtain ⟨st, hrun⟩ := zmapGroups_ok hgroups texts
  exact ⟨cnt, st.1, st.2, hload, hrun, hval⟩

/-- The texts of the files make the entries readable, also when other groups came in between. An
id that was noted stays, and the dictionary of its file has a text for it. -/
theorem GroupsReady.readable (h : GroupsReady freq filtered lemid uni)
    {cnt : FlatHashMap K UInt32} {texts texts' : Texts} {freqs : FlatHashMap K (UInt32 × K)}
    (hval : ∀ k c, cnt.lookup k = some c → ∃ g ∈ freq.msgs, g.ids = k ∧ g.weight = c)
    (hnoted : Noted cnt filtered.msgs texts freqs) (hgrows : Grows texts texts')
    (huni : ∀ m ∈ uni.msgs, m.str ≠ []) (hlemid : ∀ r ∈ lemid.msgs, r.str ≠ []) :
    Readable { uni := uni.msgs.foldl (fun t m => setText t m.id m.str) texts'.uni
               unilem := lemid.msgs.foldl (fun t m => setText t m.id m.str) texts'.unilem }
      freqs := by
  intro k v hv
  obtain ⟨lg, hlg, rfl, mit, hmax, hwids⟩ := hnoted.group k v hv
  refine ⟨?_, fun l hl => ?_, fun w hw => ?_⟩
  · obtain ⟨g, hg, -, hweight⟩ := hval _ _ (hnoted.freq _ v hv)
    rw [← hweight]
    exact h.nonzero g hg
  · exact setText_run LemId.id LemId.str l lemid.msgs hlemid
      (hgrows.unilem l (hnoted.unilem _ v hv l hl)) (h.lemmas lg hlg l hl)
  · refine setText_run StrIdWeight.id StrIdWeight.str w uni.msgs huni
      (hgrows.uni w (hnoted.uni _ v hv w hw)) ?_
    rw [← hwids] at hw
    exact h.words lg hlg mit (maxCase_first hmax).mem w hw

end Ready

/-- Groups of the corpus are ready: their lemmas are those of words of the corpus, which both
dictionaries list, and their frequencies are counts of documents, so not zero. -/
theorem HasFreqs.ready {K R : Type} [LemTuple K] [LawfulTuple K] [Double R]
    {windows : Phrase → List K} (hwin : WindowsOf windows) {lems : List (List UInt32)}
    {docs : List (List Phrase)} {filtered : RecordFile (LemGroup K R)}
    {freq : RecordFile (Gram K)} (h : HasFreqs windows lems (corpusOf docs) filtered freq)
    {uni : RecordFile Unigram} (huni : ListsWords uni (corpusOf docs).flatten)
    {lemid : RecordFile LemId} (hlemid : ListsLemmas lems docs lemid) :
    GroupsReady freq filtered lemid uni where
  cases_ne lg hlg := (h.fromCorpus lg hlg).cases_ne
  listed := h.listed
  nonzero := h.nonzero
  lemmas lg hlg l hl := by
    -- A lemma of a word of the corpus is counted, and so it is in `lemid.bin`.
    obtain ⟨q, hq, hlids⟩ := (h.fromCorpus lg hlg).arises
    obtain ⟨w, hw, hmem⟩ := LawfulTuple.mem_toList lems q lg.lids hlids l hl
    exact (hlemid.mem_iff l).mpr ((docCount_id_pos_iff l).mpr ⟨w, hwin.mem_flatten hq hw, hmem⟩)
  words lg hlg cs hcs w hw :=
    (huni.mem_iff w).mpr (hwin.mem_flatten ((h.fromCorpus lg hlg).words cs hcs) hw)

section Values
variable (std : Stdlib) (lib : Baalbek) {texts : Texts}

/-- The loop over the pairs does not fail when each of them can be read. No value is then wrong,
whether or not the pair is skipped. -/
theorem zmapBigrams_ok {bifreqs : FlatHashMap Idd (UInt32 × Idd)} (h : Readable texts bifreqs)
    (termstat : FlatHashMap Bytes ZVal) :
    ∃ out, (bifreqs.iter std).foldlM (zmapBigram lib texts) termstat = .ok out := by
  obtain ⟨out, hrun, -⟩ := foldlM_ok (f := zmapBigram lib texts) (P := fun _ => True)
    (l := bifreqs.iter std) (s := termstat) (fun el hel termstat _ => by
      obtain ⟨hdc, hlems, hwords⟩ := h el.1 el.2 ((FlatHashMap.mem_iter std bifreqs _ _).mp hel)
      obtain ⟨lems, hlemsOk, hlemsNe⟩ := derefAll_ok "unilem.find" hlems
      obtain ⟨words, hwordsOk, hwordsNe⟩ := derefAll_ok "uni.find" hwords
      unfold zmapBigram
      simp only [hlemsOk, hwordsOk, wrongValues_eq_false hlemsNe hwordsNe hdc]
      by_cases hshort : words.any (fun w => (lib.mbcstowide w).length < 3) = true
      · exact ⟨termstat, if_pos hshort, trivial⟩
      · rw [if_neg hshort, if_neg Bool.false_ne_true]
        exact ⟨_, rfl, trivial⟩) trivial
  exact ⟨out, hrun⟩

/-- Nor does the loop over the triples, which skips none of them. -/
theorem zmapTrigrams_ok {trifreqs : FlatHashMap Iddd (UInt32 × Iddd)} (h : Readable texts trifreqs)
    (termstat : FlatHashMap Bytes ZVal) :
    ∃ out, (trifreqs.iter std).foldlM (zmapTrigram texts) termstat = .ok out := by
  obtain ⟨out, hrun, -⟩ := foldlM_ok (f := zmapTrigram texts) (P := fun _ => True)
    (l := trifreqs.iter std) (s := termstat) (fun el hel termstat _ => by
      obtain ⟨hdc, hlems, hwords⟩ := h el.1 el.2 ((FlatHashMap.mem_iter std trifreqs _ _).mp hel)
      obtain ⟨lems, hlemsOk, hlemsNe⟩ := derefAll_ok "unilem.find" hlems
      obtain ⟨words, hwordsOk, hwordsNe⟩ := derefAll_ok "uni.find" hwords
      unfold zmapTrigram
      simp only [hlemsOk, hwordsOk, wrongValues_eq_false hlemsNe hwordsNe hdc]
      rw [if_neg Bool.false_ne_true]
      exact ⟨_, rfl, trivial⟩) trivial
  exact ⟨out, hrun⟩

end Values

/-- What `to_zmap` asks of its files. -/
structure ZmapReady {R : Type} (files : ZmapInput R) : Prop where
  bi : GroupsReady files.bifreq files.bifiltered files.lemid files.uni
  tri : GroupsReady files.trifreq files.trifiltered files.lemid files.uni
  uni : ∀ m ∈ files.uni.msgs, m.str ≠ []
  lemid : ∀ r ∈ files.lemid.msgs, r.str ≠ []

/-- `to_zmap` succeeds on such files. The groups are read through, the dictionaries make their
entries readable, and the two loops then store them. -/
theorem ZmapReady.total {R : Type} [Double R] {files : ZmapInput R} (h : ZmapReady files)
    (std : Stdlib) (lib : Baalbek) (version : String) :
    ∃ stat, toZmap std lib files version = .ok stat := by
  obtain ⟨bicnt, texts₁, bifreqs, hbicnt, hbirun, hbival⟩ := h.bi.run { uni := ∅, unilem := ∅ }
  obtain ⟨tricnt, texts₂, trifreqs, htricnt, htrirun, htrival⟩ := h.tri.run texts₁
  obtain ⟨hbinoted, -, -⟩ := Noted.run hbirun
  obtain ⟨htrinoted, hgrows, -⟩ := Noted.run htrirun
  have hload : zmapLoad files = .ok
      ({ uni := files.uni.msgs.foldl (fun t m => setText t m.id m.str) texts₂.uni
         unilem := files.lemid.msgs.foldl (fun t m => setText t m.id m.str) texts₂.unilem },
        bifreqs, trifreqs) := by
    rw [zmapLoad_eq hbicnt htricnt, hbirun]
    simp only [Except.bind, htrirun]
  -- The texts grew with the triples, and the pairs kept theirs.
  have hbireadable := h.bi.readable hbival hbinoted hgrows h.uni h.lemid
  have htrireadable := h.tri.readable htrival htrinoted ⟨fun _ h => h, fun _ h => h⟩ h.uni h.lemid
  obtain ⟨termstat₁, hbiok⟩ := zmapBigrams_ok std lib hbireadable
    (files.lemfreq.msgs.foldl zmapLemma ∅)
  obtain ⟨termstat₂, htriok⟩ := zmapTrigrams_ok std htrireadable termstat₁
  refine ⟨{ terms := termstat₂, version := version, totalCount := files.totalCount }, ?_⟩
  unfold toZmap
  simp only [hload, readApply_pure, hbiok, htriok]

/-- `to_zmap` succeeds on filtered groups of the corpus with their frequencies. The words of the
corpus have texts, and so have the lemmas. -/
theorem toZmap_total {R : Type} [Double R] (std : Stdlib) (lib : Baalbek)
    {lems : List (List UInt32)} {docs : List (List Phrase)} (files : ZmapInput R)
    (hbi : HasFreqs pairs lems (corpusOf docs) files.bifiltered files.bifreq)
    (htri : HasFreqs triples lems (corpusOf docs) files.trifiltered files.trifreq)
    (huni : ListsWords files.uni (corpusOf docs).flatten)
    (htext : ∀ m ∈ files.uni.msgs, m.str ≠ []) (hlemid : ListsLemmas lems docs files.lemid)
    (version : String) : ∃ stat, toZmap std lib files version = .ok stat := by
  have hready : ZmapReady files :=
    ⟨hbi.ready windowsOf_pairs huni hlemid, htri.ready windowsOf_triples huni hlemid, htext,
      hlemid.text⟩
  exact hready.total std lib version

end Colloc.Proofs

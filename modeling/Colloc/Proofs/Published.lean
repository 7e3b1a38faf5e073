import Colloc.Lib.Layers
import Colloc.Proofs.CaseOrder
import Colloc.Proofs.TextCorpus

/-!
# `Colloc.Proofs.Published`: the map of a run, in strings

`to_zmap` fills the map in three runs: the lemmas, the pairs, and the triples, each in the
iteration order of a hash map. A later run replaces what an earlier one has put under the same
key, and within a run the last entry of a key stays (`toZmap_layers`).
-/

set_option autoImplicit false

namespace Colloc.Proofs

open Colloc.Lib
open Colloc.Spec

/-! ### The three runs -/

section Layers
variable {R : Type} {files : ZmapInput R}

/-- What the loop over `lemfreq.bin` writes. -/
def lemmaWrite (m : LemFreq) : Option (Bytes × ZVal) :=
  if m.weight > 2 then some (m.str, { dc := m.weight, txt := none }) else none

/-- What the loops over the groups write for an entry. -/
def entryWrite {K : Type} [IdTuple K] (files : ZmapInput R) (skip : List Bytes → Bool)
    (el : K × UInt32 × K) : Option (Bytes × ZVal) :=
  if skip (wordTexts files.uni el.2.2) = true then none
  else some ((lemmaTexts files.lemid el.1).flatten,
    { dc := el.2.1, txt := some (joinWords (wordTexts files.uni el.2.2)) })

/-- A run of writes, as a layer. -/
def writtenBy {E : Type} (write : E → Option (Bytes × ZVal)) (es : List E) (key : Bytes)
    (v : ZVal) : Prop :=
  ∃ e ∈ es, write e = some (key, v)

/-- The loop body of the lemmas is a write of the lowest layer. -/
theorem zmapLemma_eq (stat : FlatHashMap Bytes ZVal) (m : LemFreq) :
    zmapLemma stat m = applyWrite stat (lemmaWrite m) := by
  unfold zmapLemma lemmaWrite
  split
  · rfl
  · rfl

/-- A loop body that succeeds on the entries of a load has made the write of the entry. -/
theorem write_of_checked {lems words : List Bytes} {dc : UInt32} {e : Error}
    {stat stat' : FlatHashMap Bytes ZVal}
    (h : (if wrongValues lems words dc = true then .error e
      else .ok (stat.insert lems.flatten { dc := dc, txt := some (joinWords words) })
        : Except Error (FlatHashMap Bytes ZVal)) = .ok stat') :
    stat' = applyWrite stat (some (lems.flatten, { dc := dc, txt := some (joinWords words) })) :=
  (stored_of_checked h).2.2

/-- The loop body of the pairs, where it does not throw, is a write of the layer of pairs, or none
for a short word. -/
theorem zmapBigram_write {lib : Baalbek} {texts : Texts} {bifreqs : FlatHashMap Idd (UInt32 × Idd)}
    (hfinds : Finds files files.bifiltered texts bifreqs) {el : Idd × UInt32 × Idd}
    (hel : bifreqs.lookup el.1 = some el.2) {stat stat' : FlatHashMap Bytes ZVal}
    (h : zmapBigram lib texts stat el = .ok stat') :
    stat' = applyWrite stat (entryWrite files (hasShort lib) el) := by
  obtain ⟨-, hlems, hwords⟩ := hfinds el.1 el.2 hel
  have heq := zmapBigram_eq lib stat hlems hwords
  rw [h] at heq
  unfold entryWrite
  by_cases hskip : hasShort lib (wordTexts files.uni el.2.2) = true
  · rw [if_pos hskip] at heq ⊢
    exact Except.ok.inj heq
  · rw [if_neg hskip] at heq ⊢
    exact write_of_checked heq.symm

/-- That of the triples is a write of the layer of triples. -/
theorem zmapTrigram_write {texts : Texts} {trifreqs : FlatHashMap Iddd (UInt32 × Iddd)}
    (hfinds : Finds files files.trifiltered texts trifreqs) {el : Iddd × UInt32 × Iddd}
    (hel : trifreqs.lookup el.1 = some el.2) {stat stat' : FlatHashMap Bytes ZVal}
    (h : zmapTrigram texts stat el = .ok stat') :
    stat' = applyWrite stat (entryWrite files (fun _ => false) el) := by
  obtain ⟨-, hlems, hwords⟩ := hfinds el.1 el.2 hel
  have heq := zmapTrigram_eq stat hlems hwords
  rw [h] at heq
  exact write_of_checked heq.symm

/-- The map of a run that succeeds: the triples lie over the pairs, and the pairs over the
lemmas. -/
theorem toZmap_layers [Double R] {std : Stdlib} {lib : Baalbek} {version : String} {stat : TermStat}
    (h : toZmap std lib files version = .ok stat) :
    ∃ bifreqs trifreqs, FreqsOf files.bifreq files.bifiltered bifreqs ∧
      FreqsOf files.trifreq files.trifiltered trifreqs ∧
      stat.version = version ∧ stat.totalCount = files.totalCount ∧
      ∀ key, Topmost key
        [writtenBy (entryWrite files (fun _ => false)) (trifreqs.iter std),
          writtenBy (entryWrite files (hasShort lib)) (bifreqs.iter std),
          writtenBy lemmaWrite files.lemfreq.msgs]
        (stat.terms.lookup key) := by
  unfold toZmap at h
  cases hload : zmapLoad files with
  | error e => rw [hload] at h; cases h
  | ok loaded =>
      obtain ⟨texts, bifreqs, trifreqs⟩ := loaded
      simp only [hload, readApply_pure] at h
      cases hbi : (bifreqs.iter std).foldlM (zmapBigram lib texts)
          (files.lemfreq.msgs.foldl zmapLemma ∅) with
      | error e => simp only [hbi] at h; cases h
      | ok stat₁ =>
          cases htri : (trifreqs.iter std).foldlM (zmapTrigram texts) stat₁ with
          | error e => simp only [hbi, htri] at h; cases h
          | ok stat₂ =>
              simp only [hbi, htri] at h
              rw [← Except.ok.inj h]
              have hloaded := zmapLoad_loaded hload
              obtain ⟨hbifinds, htrifinds⟩ := zmapLoad_finds hload
              -- Each loop is a run of writes.
              have hbieq := foldlM_eq_foldl hbi (fun el hel s s' hok =>
                zmapBigram_write hbifinds ((FlatHashMap.mem_iter std bifreqs _ _).mp hel) hok)
              have htrieq := foldlM_eq_foldl htri (fun el hel s s' hok =>
                zmapTrigram_write htrifinds ((FlatHashMap.mem_iter std trifreqs _ _).mp hel) hok)
              refine ⟨bifreqs, trifreqs, hloaded.bi, hloaded.tri, rfl, rfl, fun key => ?_⟩
              show Topmost key _ (stat₂.lookup key)
              have hlemmas : files.lemfreq.msgs.foldl zmapLemma ∅
                  = files.lemfreq.msgs.foldl (fun m e => applyWrite m (lemmaWrite e)) ∅ := by
                congr 1
                funext m e
                exact zmapLemma_eq m e
              rw [htrieq, hbieq, hlemmas]
              have hempty : Topmost key [] ((∅ : FlatHashMap Bytes ZVal).lookup key) := rfl
              exact ((hempty.writes lemmaWrite files.lemfreq.msgs).writes _ _).writes _ _

end Layers

/-! ### The entries in strings -/

/-- The entry of a lemma of more than two documents. -/
def lemmaEntry (t : Corpus Bytes Bytes) (key : Bytes) (v : ZVal) : Prop :=
  key ∈ t.occurring ∧ 2 < t.docFreq [key] ∧ v.dc.toNat = t.docFreq [key] ∧ v.txt = none

/-- The entry of a collocation of `n` lemmas: its document frequency and its text, which is left
out when `skip` holds of the words. -/
def phraseEntry (t : Corpus Bytes Bytes) (sel : Set (List Bytes)) (b : Bounds) (n : Nat)
    (text : List Bytes → List Bytes) (skip : List Bytes → Bool) (key : Bytes) (v : ZVal) : Prop :=
  ∃ ls, ls.length = n ∧ t.Stable sel b ls ∧ skip (text ls) = false ∧ key = ls.flatten ∧
    v.dc.toNat = t.docFreq ls ∧ v.txt = some (joinWords (text ls))

/-- The text of each collocation is a window of it that no other one outnumbers. -/
def IsText (t : Corpus Bytes Bytes) (sel : Set (List Bytes)) (b : Bounds) (n : Nat)
    (text : List Bytes → List Bytes) : Prop :=
  ∀ ls, ls.length = n → t.Stable sel b ls → t.Commonest sel ls (text ls)

/-- The entry `el` is that of the collocation `ls`. -/
structure ReadsAs {K : Type} [IdTuple K] (t : Corpus Bytes Bytes) (sel : Set (List Bytes))
    (b : Bounds) (n : Nat) (text : List Bytes → List Bytes) (files : ZmapInput ℚ)
    (el : K × UInt32 × K) (ls : List Bytes) : Prop where
  length : ls.length = n
  stable : t.Stable sel b ls
  lemmas : lemmaTexts files.lemid el.1 = ls
  words : wordTexts files.uni el.2.2 = text ls
  docs : el.2.1.toNat = t.docFreq ls

/-- `bifreqs` or `trifreqs`: the entries are those of the collocations. -/
structure EntriesOf {K : Type} [IdTuple K] [DecidableEq K] (t : Corpus Bytes Bytes)
    (sel : Set (List Bytes)) (b : Bounds) (n : Nat) (text : List Bytes → List Bytes)
    (files : ZmapInput ℚ) (freqs : FlatHashMap K (UInt32 × K)) : Prop where
  isText : IsText t sel b n text
  entry : ∀ k e, freqs.lookup k = some e → ∃ ls, ReadsAs t sel b n text files (k, e) ls
  listed : ∀ ls, ls.length = n → t.Stable sel b ls →
    ∃ el, freqs.lookup el.1 = some el.2 ∧ ReadsAs t sel b n text files el ls

/-- What the loop over the entries writes are the entries of the collocations, those with a short
word left out when the loop skips them. -/
theorem EntriesOf.written_iff {K : Type} [IdTuple K] [DecidableEq K] {t : Corpus Bytes Bytes}
    {sel : Set (List Bytes)} {b : Bounds} {n : Nat} {text : List Bytes → List Bytes}
    {files : ZmapInput ℚ} {freqs : FlatHashMap K (UInt32 × K)}
    (h : EntriesOf t sel b n text files freqs) (std : Stdlib) (skip : List Bytes → Bool)
    (key : Bytes) (v : ZVal) :
    writtenBy (entryWrite files skip) (freqs.iter std) key v ↔
      phraseEntry t sel b n text skip key v := by
  unfold writtenBy entryWrite
  constructor
  · rintro ⟨⟨k, e⟩, hmem, hwrite⟩
    obtain ⟨ls, hreads⟩ := h.entry k e ((FlatHashMap.mem_iter std freqs k e).mp hmem)
    rw [hreads.words, hreads.lemmas] at hwrite
    cases hskip : skip (text ls) with
    | true =>
        rw [hskip, if_pos rfl] at hwrite
        cases hwrite
    | false =>
        rw [hskip, if_neg Bool.false_ne_true] at hwrite
        cases hwrite
        exact ⟨ls, hreads.length, hreads.stable, hskip, rfl, hreads.docs, rfl⟩
  · rintro ⟨ls, hlen, hstable, hskip, rfl, hdocs, htxt⟩
    obtain ⟨el, hel, hreads⟩ := h.listed ls hlen hstable
    refine ⟨el, (FlatHashMap.mem_iter std freqs _ _).mpr hel, ?_⟩
    have hdc : v.dc = el.2.1 := by
      rw [← UInt32.toNat_inj, hdocs, hreads.docs]
    rw [hreads.words, hreads.lemmas, hskip, if_neg Bool.false_ne_true, ← hdc, ← htxt]

section Strings
variable {M : Type} {id : M → UInt32} {str : M → Bytes} {msgs : List M}

/-- With distinct ids the last record of an id is the only one, so it is what a lookup finds. -/
theorem textOf_eq_lookup (hnd : (msgs.map id).Nodup) (i : UInt32) :
    textOf id str msgs i = ((msgs.map (fun m => (id m, str m))).lookup i).getD [] := by
  have hkeys : ((msgs.map (fun m => (id m, str m))).map Prod.fst).Nodup := by
    rw [List.map_map]
    exact hnd
  unfold textOf
  cases hfind : msgs.reverse.find? (fun m => decide (id m = i)) with
  | none =>
      have hnone : (msgs.map (fun m => (id m, str m))).lookup i = none := by
        rw [List.lookup_eq_none_iff]
        intro e he
        obtain ⟨m, hm, rfl⟩ := List.mem_map.mp he
        have hne := List.find?_eq_none.mp hfind m (List.mem_reverse.mpr hm)
        exact bne_iff_ne.mpr (fun heq => hne (decide_eq_true heq.symm))
      rw [hnone]
      rfl
  | some m =>
      have hm := List.mem_reverse.mp (List.mem_of_find?_eq_some hfind)
      have hid : id m = i := by simpa using List.find?_some hfind
      have hsome := (lookup_eq_some_iff_mem hkeys i (str m)).mpr
        (List.mem_map.mpr ⟨m, hm, by rw [hid]⟩)
      rw [hsome]
      rfl

/-- The texts of a tuple whose ids are all found. -/
theorem texts_of_inStrings {K : Type} [IdTuple K] (hnd : (msgs.map id).Nodup) {k : K}
    {strs : List Bytes} (h : inStrings (msgs.map (fun m => (id m, str m))) k = strs.map some) :
    (IdTuple.toList k).map (textOf id str msgs) = strs := by
  have hmap := congrArg (List.map (fun o : Option Bytes => o.getD [])) h
  rw [inStrings, List.map_map, List.map_map] at hmap
  refine Eq.trans (List.map_congr_left (fun i _ => textOf_eq_lookup hnd i)) (hmap.trans ?_)
  exact List.map_id strs

/-- Ids that are named are determined by their names, when a name has one id. -/
theorem eq_map_of_names {I S : Type} {name : I → Option S} {idOf : S → I}
    (h : ∀ i s, name i = some s → idOf s = i) {ids : List I} {strs : List S}
    (heq : ids.map name = strs.map some) : ids = strs.map idOf := by
  have hmap := congrArg (List.map (Option.map idOf)) heq
  rw [List.map_map, List.map_map] at hmap
  have hsome : ids.map (Option.map idOf ∘ name) = ids.map some := by
    refine List.map_congr_left (fun i hi => ?_)
    obtain ⟨s, -, hs⟩ := List.mem_map.mp (heq ▸ List.mem_map_of_mem hi)
    rw [Function.comp_apply, ← hs, Option.map_some, h i s hs.symm]
  rw [hsome] at hmap
  refine List.map_injective_iff.mpr (Option.some_injective I) ?_
  rw [hmap, List.map_map]
  rfl

end Strings

/-- The cases of a group and of its record are the same, with the words in strings. -/
theorem cases_of_groupText {K : Type} [IdTuple K] {c : Converted} {l : Lemmatized}
    {lg : LemGroup K ℚ} {rec : List Bytes × ℚ × Multiset (List Bytes × Nat)}
    (h : foundRecord rec = groupText c l lg) :
    (∀ cs ∈ lg.cases, ∃ ws, inStrings (wordStrings c) cs.wids = ws.map some ∧
      (ws, cs.count.toNat) ∈ rec.2.2) ∧
    ∀ ws m, (ws, m) ∈ rec.2.2 → ∃ cs ∈ lg.cases, cs.count.toNat = m := by
  have hcases : rec.2.2.map (Prod.map (List.map some) id)
      = Multiset.ofList (lg.cases.map (fun cs =>
          (inStrings (wordStrings c) cs.wids, cs.count.toNat))) :=
    congrArg (fun g => g.2.2) h
  refine ⟨fun cs hcs => ?_, fun ws m hws => ?_⟩
  · have hmem := Multiset.mem_coe.mpr (List.mem_map_of_mem (f := fun cs : Case K =>
      (inStrings (wordStrings c) cs.wids, cs.count.toNat)) hcs)
    rw [← hcases] at hmem
    obtain ⟨⟨ws, m⟩, hws, heq⟩ := Multiset.mem_map.mp hmem
    obtain ⟨hws', rfl⟩ := Prod.mk.inj heq
    exact ⟨ws, hws'.symm, hws⟩
  · have hmem := Multiset.mem_map_of_mem (Prod.map (List.map some) (id : Nat → Nat)) hws
    rw [hcases] at hmem
    obtain ⟨cs, hcs, heq⟩ := List.mem_map.mp (Multiset.mem_coe.mp hmem)
    exact ⟨cs, hcs, (Prod.mk.inj heq).2⟩

namespace TextFiles
variable {lib : Baalbek} {image : Bytes → List Bytes} {docs : List Bytes} {std : Stdlib}
  {c : Converted} {lm : Lemmer} (h : TextFiles lib image docs std c lm)

include h

/-- The ids in `lemid.bin` are distinct. -/
theorem nodup_lemid : ((lm.save std).lemid.msgs.map LemId.id).Nodup := h.ready.lemid.nodup

/-- So are the keys of the dictionary of lemmas. -/
theorem nodup_lemmaStrings : ((lemmaStrings (lm.save std)).map Prod.fst).Nodup := by
  rw [lemmaStrings, List.map_map]
  exact h.nodup_lemid

/-- A tuple of lemmas that are found. -/
theorem toList_of_inStrings {K : Type} [IdTuple K] {k : K} {ls : List Bytes}
    (hls : inStrings (lemmaStrings (lm.save std)) k = ls.map some) :
    IdTuple.toList k = ls.map (lemIdOf lm.lemid) := by
  refine eq_map_of_names (fun i term hterm => ?_) hls
  rw [lookup_eq_some_iff_mem h.nodup_lemmaStrings] at hterm
  obtain ⟨m, hm, heq⟩ := List.mem_map.mp hterm
  obtain ⟨rfl, rfl⟩ := Prod.mk.inj heq
  exact lemIdOf_eq ((mem_save_lemid std lm m).mp hm)

/-! ### The groups -/

section Groups
variable {K : Type} [LemTuple K] {sel : Set (List Bytes)}
  {b : Bounds} {n : Nat} {records : List (List Bytes × ℚ × Multiset (List Bytes × Nat))}
  {filtered : RecordFile (LemGroup K ℚ)}
  (hrecords : (textCorpus lib image docs).Lists sel b n records)
  (hgroups : filtered.msgs.map (groupText c (lm.save std)) = records.map foundRecord)

include hrecords hgroups

/-- The representative case of a group, in strings: a commonest case of the collocation that the
group records. -/
theorem commonest_of_represents {k : K} {cs : Case K} (hcs : Represents filtered k cs) :
    ∃ ls : List Bytes, ls.length = n ∧ (textCorpus lib image docs).Stable sel b ls ∧
      inStrings (lemmaStrings (lm.save std)) k = ls.map some ∧
      (textCorpus lib image docs).Commonest sel ls (wordTexts c.uni cs.wids) := by
  obtain ⟨lg, hlg, rfl, hmem, hmax⟩ := hcs
  have hrec : groupText c (lm.save std) lg ∈ records.map foundRecord :=
    hgroups ▸ List.mem_map_of_mem hlg
  obtain ⟨rec, hrec, heq⟩ := List.mem_map.mp hrec
  obtain ⟨hlen, hstable⟩ := (hrecords.mem_iff rec.1).mp (List.mem_map_of_mem hrec)
  obtain ⟨hread, hread'⟩ := cases_of_groupText heq
  rw [hrecords.record rec hrec] at hread hread'
  obtain ⟨ws, hws, hcase⟩ := hread cs hmem
  obtain ⟨hsel, hcarries, hcount⟩ := (Corpus.mem_cases_iff _).mp hcase
  have htexts : wordTexts c.uni cs.wids = ws := texts_of_inStrings h.ready.uni.nodup hws
  refine ⟨rec.1, hlen, hstable, (congrArg Prod.fst heq).symm, ?_⟩
  rw [htexts]
  refine ⟨hsel, hcarries, fun ws' hsel' hcarries' => ?_⟩
  obtain ⟨cs', hcs', hcount'⟩ :=
    hread' ws' _ ((Corpus.mem_cases_iff _).mpr ⟨hsel', hcarries', rfl⟩)
  rw [← hcount, ← hcount']
  exact UInt32.le_iff_toNat_le.mp (hmax cs' hcs')

variable [ListedTuple K] [DecidableEq K] {freq : RecordFile (Gram K)}
  {freqs : FlatHashMap K (UInt32 × K)} (hfreqs : FreqsOf freq filtered freqs)
  (hdocs : ∀ g ∈ freq.msgs, ∃ ls : List Bytes,
    inStrings (lemmaStrings (lm.save std)) g.ids = ls.map some ∧
      g.weight.toNat = (textCorpus lib image docs).docFreq ls)

include hfreqs

omit [ListedTuple K] in
/-- Each collocation has an entry. -/
theorem exists_entry {ls : List Bytes} (hlen : ls.length = n)
    (hstable : (textCorpus lib image docs).Stable sel b ls) :
    ∃ k e, freqs.lookup k = some e ∧ lemmaTexts (lm.save std).lemid k = ls := by
  obtain ⟨rec, hrec, rfl⟩ := List.mem_map.mp ((hrecords.mem_iff ls).mpr ⟨hlen, hstable⟩)
  have hgroup : foundRecord rec ∈ filtered.msgs.map (groupText c (lm.save std)) :=
    hgroups ▸ List.mem_map_of_mem hrec
  obtain ⟨lg, hlg, heq⟩ := List.mem_map.mp hgroup
  obtain ⟨e, he⟩ := Option.isSome_iff_exists.mp (hfreqs.listed lg hlg)
  exact ⟨lg.lids, e, he, texts_of_inStrings h.nodup_lemid (congrArg Prod.fst heq)⟩

include hdocs

omit [ListedTuple K] in
/-- Each entry is that of a collocation, with the document frequency of its lemmas and the words
of a commonest case. -/
theorem entry_reads {k : K} {e : UInt32 × K} (he : freqs.lookup k = some e) :
    ∃ ls : List Bytes, ls.length = n ∧ (textCorpus lib image docs).Stable sel b ls ∧
      IdTuple.toList k = ls.map (lemIdOf lm.lemid) ∧
      lemmaTexts (lm.save std).lemid k = ls ∧
      (textCorpus lib image docs).Commonest sel ls (wordTexts c.uni e.2) ∧
      e.1.toNat = (textCorpus lib image docs).docFreq ls := by
  obtain ⟨⟨g, hg, hids, hweight⟩, cs, hcs, hwids⟩ := hfreqs.own k e he
  obtain ⟨ls, hlen, hstable, hls, hcommonest⟩ :=
    h.commonest_of_represents hrecords hgroups hcs
  obtain ⟨ls', hls', hdocFreq⟩ := hdocs g hg
  -- The record of the frequency is about the same lemmas.
  have hsame : ls' = ls := by
    rw [hids, hls] at hls'
    exact (List.map_injective_iff.mpr (Option.some_injective _) hls').symm
  rw [hwids] at hcommonest
  rw [hweight, hsame] at hdocFreq
  exact ⟨ls, hlen, hstable, h.toList_of_inStrings hls, texts_of_inStrings h.nodup_lemid hls,
    hcommonest, hdocFreq⟩

/-- The lemmas determine the entry. -/
theorem entry_unique {k k' : K} {e e' : UInt32 × K} (he : freqs.lookup k = some e)
    (he' : freqs.lookup k' = some e')
    (heq : lemmaTexts (lm.save std).lemid k = lemmaTexts (lm.save std).lemid k') : e = e' := by
  obtain ⟨ls, -, -, hlist, htexts, -⟩ := h.entry_reads hrecords hgroups hfreqs hdocs he
  obtain ⟨ls', -, -, hlist', htexts', -⟩ := h.entry_reads hrecords hgroups hfreqs hdocs he'
  have hls : ls = ls' := by rw [← htexts, ← htexts', heq]
  have hk : k = k' := ListedTuple.injective (by rw [hlist, hlist', hls])
  rw [hk] at he
  exact Option.some.inj (he.symm.trans he')

/-- The entries are those of the collocations, each with one text. A collocation has one entry,
and the text is the one of this entry. -/
theorem exists_entriesOf (files : ZmapInput ℚ) (huni : files.uni = c.uni)
    (hlemid : files.lemid = (lm.save std).lemid) :
    ∃ text, EntriesOf (textCorpus lib image docs) sel b n text files freqs := by
  have hchoice : ∀ ls : List Bytes, ∃ ws, ls.length = n →
      (textCorpus lib image docs).Stable sel b ls → ∃ k e, freqs.lookup k = some e ∧
        lemmaTexts (lm.save std).lemid k = ls ∧ wordTexts c.uni e.2 = ws := by
    intro ls
    by_cases hls : ls.length = n ∧ (textCorpus lib image docs).Stable sel b ls
    · obtain ⟨k, e, he, htexts⟩ := h.exists_entry hrecords hgroups hfreqs hls.1 hls.2
      exact ⟨_, fun _ _ => ⟨k, e, he, htexts, rfl⟩⟩
    · exact ⟨[], fun hlen hstable => absurd ⟨hlen, hstable⟩ hls⟩
  choose text htext using hchoice
  -- An entry is the one that its collocation has chosen.
  have hentry : ∀ k e, freqs.lookup k = some e →
      ∃ ls, ReadsAs (textCorpus lib image docs) sel b n text files (k, e) ls ∧
        (textCorpus lib image docs).Commonest sel ls (text ls) := by
    intro k e he
    obtain ⟨ls, hlen, hstable, -, htexts, hcommonest, hdocFreq⟩ :=
      h.entry_reads hrecords hgroups hfreqs hdocs he
    obtain ⟨k', e', he', htexts', hwords⟩ := htext ls hlen hstable
    have heq := h.entry_unique hrecords hgroups hfreqs hdocs he' he (htexts'.trans htexts.symm)
    rw [heq] at hwords
    refine ⟨ls, ⟨hlen, hstable, hlemid ▸ htexts, huni ▸ hwords, hdocFreq⟩, ?_⟩
    rw [← hwords]
    exact hcommonest
  refine ⟨text, fun ls hlen hstable => ?_, fun k e he => ?_, fun ls hlen hstable => ?_⟩
  · obtain ⟨k, e, he, htexts, -⟩ := htext ls hlen hstable
    obtain ⟨ls', hreads, hcommonest⟩ := hentry k e he
    have hls : ls' = ls := by rw [← hreads.lemmas, hlemid, htexts]
    exact hls ▸ hcommonest
  · obtain ⟨ls, hreads, -⟩ := hentry k e he
    exact ⟨ls, hreads⟩
  · obtain ⟨k, e, he, htexts, -⟩ := htext ls hlen hstable
    obtain ⟨ls', hreads, -⟩ := hentry k e he
    have hls : ls' = ls := by rw [← hreads.lemmas, hlemid, htexts]
    exact ⟨(k, e), he, hls ▸ hreads⟩

end Groups

end TextFiles

/-- What the loop over `lemfreq.bin` writes are the entries of the lemmas: those of more than two
documents. -/
theorem written_lemmas {t : Corpus Bytes Bytes} {lemfreq : List LemFreq}
    (h : (lemfreq.map (fun m => (m.str, m.weight.toNat))).Perm
      (t.occurring.dedup.map (fun l => (l, t.docFreq [l])))) (key : Bytes) (v : ZVal) :
    writtenBy lemmaWrite lemfreq key v ↔ lemmaEntry t key v := by
  have hmem : ∀ n, (∃ m ∈ lemfreq, m.str = key ∧ m.weight.toNat = n) ↔
      key ∈ t.occurring ∧ n = t.docFreq [key] := by
    intro n
    have hiff := h.mem_iff (a := (key, n))
    simp only [List.mem_map, List.mem_dedup, Prod.mk.injEq] at hiff
    rw [hiff]
    constructor
    · rintro ⟨l, hl, rfl, rfl⟩
      exact ⟨hl, rfl⟩
    · rintro ⟨hl, rfl⟩
      exact ⟨key, hl, rfl, rfl⟩
  constructor
  · rintro ⟨m, hm, hwrite⟩
    unfold lemmaWrite at hwrite
    by_cases hweight : m.weight > 2
    · rw [if_pos hweight] at hwrite
      cases hwrite
      obtain ⟨hkey, hdocFreq⟩ := (hmem m.weight.toNat).mp ⟨m, hm, rfl, rfl⟩
      have hlt : 2 < m.weight.toNat := UInt32.lt_iff_toNat_lt.mp hweight
      exact ⟨hkey, hdocFreq ▸ hlt, hdocFreq, rfl⟩
    · rw [if_neg hweight] at hwrite
      cases hwrite
  · rintro ⟨hkey, hmany, hdc, htxt⟩
    obtain ⟨m, hm, rfl, hweight⟩ := (hmem _).mpr ⟨hkey, rfl⟩
    have hval : v = { dc := m.weight, txt := none } := by
      have hdc' : v.dc = m.weight := by rw [← UInt32.toNat_inj, hdc, hweight]
      cases v
      cases hdc'
      cases htxt
      rfl
    refine ⟨m, hm, ?_⟩
    have hlt : m.weight > 2 := by
      show 2 < m.weight
      rw [UInt32.lt_iff_toNat_lt, hweight]
      exact hmany
    rw [lemmaWrite, if_pos hlt, hval]

/-! ### The published map -/

/-- A text for each pair and for each triple of the filtered files. -/
structure PhraseTexts (th : Thresholds ℚ) (t : Corpus Bytes Bytes)
    (bitext tritext : List Bytes → List Bytes) : Prop where
  pairs : IsText t Set.univ (bounds2 th) 2 bitext
  triples : IsText t (tripleWindows th t) (bounds3 th) 3 tritext

/-- The entry of a pair without short words. -/
def pairEntry (lib : Baalbek) (th : Thresholds ℚ) (t : Corpus Bytes Bytes)
    (bitext : List Bytes → List Bytes) : Bytes → ZVal → Prop :=
  phraseEntry t Set.univ (bounds2 th) 2 bitext (hasShort lib)

/-- The entry of a triple. -/
def tripleEntry (th : Thresholds ℚ) (t : Corpus Bytes Bytes) (tritext : List Bytes → List Bytes) :
    Bytes → ZVal → Prop :=
  phraseEntry t (tripleWindows th t) (bounds3 th) 3 tritext (fun _ => false)

/-- The map holds the statistics of the text `t`: the number of its documents, and under each key
the entry of a triple, or else that of a pair without short words, or else that of a lemma. -/
structure Publishes (lib : Baalbek) (th : Thresholds ℚ) (t : Corpus Bytes Bytes)
    (stat : TermStat) : Prop where
  version : stat.version = "v1.10"
  totalCount : stat.totalCount = t.docs.length
  terms : ∃ bitext tritext : List Bytes → List Bytes, PhraseTexts th t bitext tritext ∧
    ∀ key, Topmost key [tripleEntry th t tritext, pairEntry lib th t bitext, lemmaEntry t]
      (stat.terms.lookup key)

namespace TextFiles
variable {lib : Baalbek} {image : Bytes → List Bytes} {docs : List Bytes} {std : Stdlib}
  {c : Converted} {lm : Lemmer} (h : TextFiles lib image docs std c lm) {dsave : String}
  {th : Thresholds ℚ}

/-- The files of a run that `to_zmap` reads. -/
def zmapInput {l : Lemmatized} (r : Run ℚ std dsave th c l) : ZmapInput ℚ :=
  { bifreq := r.bifreq
    bifiltered := r.bifiltered
    trifreq := r.trifreq
    trifiltered := r.trifiltered
    uni := c.uni
    lemid := l.lemid
    lemfreq := r.lemfreq
    totalCount := c.totalCount }

include h

/-- A map of the files of a run publishes the statistics of the text. The three loops write one
layer each, and the last write of a key is the one that stays. -/
theorem publishes (r : Run ℚ std dsave th c (lm.save std)) {stat : TermStat}
    (hstat : toZmap std lib (zmapInput r) "v1.10" = .ok stat) :
    Publishes lib th (textCorpus lib image docs) stat := by
  have hcomputes := h.computes r
  obtain ⟨records2, hrecords2, hgroups2⟩ := hcomputes.pairs
  obtain ⟨records3, hrecords3, hgroups3⟩ := hcomputes.triples
  obtain ⟨bifreqs, trifreqs, hbi, htri, hversion, htotal, htop⟩ := toZmap_layers hstat
  obtain ⟨bitext, hbientries⟩ := h.exists_entriesOf hrecords2 hgroups2 hbi
    hcomputes.extended2.docFreq (zmapInput r) rfl rfl
  obtain ⟨tritext, htrientries⟩ := h.exists_entriesOf hrecords3 hgroups3 htri
    hcomputes.extended3.docFreq (zmapInput r) rfl rfl
  refine ⟨hversion, htotal.trans hcomputes.totalCount, bitext, tritext,
    ⟨hbientries.isText, htrientries.isText⟩, fun key => (htop key).congr ?_⟩
  exact List.Forall₂.cons (fun v => htrientries.written_iff std _ key v)
    (List.Forall₂.cons (fun v => hbientries.written_iff std _ key v)
      (List.Forall₂.cons (fun v => written_lemmas hcomputes.lemmas key v) List.Forall₂.nil))

/-- When no lemma of the text is empty, `lemid.bin` lists the lemmas with texts that are not
empty. -/
theorem lists_lemmas (hlemmas : ∀ l ∈ (textCorpus lib image docs).occurring, l ≠ []) :
    ListsLemmas (tableOf (lm.save std).lems) (framedOf lib docs) (lm.save std).lemid where
  toNumbersLemmas := h.ready.lemid
  text m hm := by
    refine hlemmas m.str ((h.isSome_lemid_iff m.str).mp ?_)
    rw [(mem_save_lemid std lm m).mp hm]
    rfl

/-- The stages behind `lemmatize` end in a run. Each word has lemmas and all numbers fit, so no
stage fails, and each filtered tuple has its frequency. -/
theorem exists_run (dsave : String) (th : Thresholds ℚ) :
    ∃ r : Run ℚ std dsave th c (lm.save std),
      extractBigrams std dsave th c (lm.save std)
        = .ok (BigramFiles.mk r.extended2 r.bifreq r.lemfreq r.bifiltered) ∧
      extractTrigrams std dsave th c (lm.save std) r.bifiltered
        = .ok (TrigramFiles.mk r.extended3 r.trifreq r.trifiltered) ∧
      HasFreqs pairs (tableOf (lm.save std).lems) (corpusOf (framedOf lib docs)) r.bifiltered
        r.bifreq ∧
      HasFreqs triples (tableOf (lm.save std).lems) (corpusOf (framedOf lib docs)) r.trifiltered
        r.trifreq := by
  obtain ⟨b, hb, hbi⟩ := extractBigrams_total std dsave th h.ready
  obtain ⟨t, ht, htri⟩ := extractTrigrams_total std dsave th h.ready b.bifiltered
  obtain ⟨r, rfl, rfl⟩ := Proofs.exists_run hb ht
  exact ⟨r, hb, ht, hbi, htri⟩

end TextFiles

/-- The program ends as `to_zmap` does on the files of its run. The stages before it have ended
with these files. -/
theorem extract_eq_toZmap {lib : Baalbek} {std : Stdlib} {dcorpus dsave : String}
    {tree : List (DirEntry (List Bytes))} {th : Thresholds ℚ} {c : Converted} {lm : Lemmer}
    (hc : convert std lib dcorpus tree 0 0 = c) (hlm : buildLemmer lib c.uni = .ok lm)
    {r : Run ℚ std dsave th c (lm.save std)}
    (hb : extractBigrams std dsave th c (lm.save std)
      = .ok (BigramFiles.mk r.extended2 r.bifreq r.lemfreq r.bifiltered))
    (ht : extractTrigrams std dsave th c (lm.save std) r.bifiltered
      = .ok (TrigramFiles.mk r.extended3 r.trifreq r.trifiltered)) :
    extract std lib dcorpus dsave tree th
      = toZmap std lib (TextFiles.zmapInput r) "v1.10" := by
  have hlemmatize : lemmatize std lib c.uni = .ok (lm.save std) := by
    unfold lemmatize
    rw [hlm]
  rw [extract_eq, hc]
  simp only [hlemmatize, hb, ht]
  rfl

/-- Over a prepared text with lemmas and words that are not empty the program ends, and its map
publishes the statistics of the text. -/
theorem TextFiles.extract_ok {lib : Baalbek} {image : Bytes → List Bytes} {docs : List Bytes}
    {std : Stdlib} {c : Converted} {lm : Lemmer} (h : TextFiles lib image docs std c lm)
    {dcorpus : String} {tree : List (DirEntry (List Bytes))} (dsave : String) (th : Thresholds ℚ)
    (hc : convert std lib dcorpus tree 0 0 = c) (hlm : buildLemmer lib c.uni = .ok lm)
    (hwords : ∀ w ∈ (textCorpus lib image docs).words, w ≠ [])
    (hlemmas : ∀ l ∈ (textCorpus lib image docs).occurring, l ≠ []) :
    ∃ stat, extract std lib dcorpus dsave tree th = .ok stat ∧
      Publishes lib th (textCorpus lib image docs) stat := by
  obtain ⟨r, hb, ht, hbi, htri⟩ := h.exists_run dsave th
  have htext : ∀ m ∈ c.uni.msgs, m.str ≠ [] := fun m hm =>
    hwords m.str ((h.mem_str_iff m.str).mp (List.mem_map_of_mem hm))
  obtain ⟨stat, hstat⟩ := toZmap_total std lib (zmapInput r) hbi htri h.ready.uni htext
    (h.lists_lemmas hlemmas) "v1.10"
  exact ⟨stat, (extract_eq_toZmap hc hlm hb ht).trans hstat, h.publishes r hstat⟩

end Colloc.Proofs

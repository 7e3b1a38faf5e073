import Colloc.Lib.PrefixCode
import Colloc.Proofs.ZmapFinds

/-!
# `Colloc.Proofs.ZmapKeys`: the keys of the published map

`to_zmap` stores a lemma, a pair and a triple under the concatenation of their lemma strings,
with nothing between them. When no lemma string is a prefix of another one (`LemmaTexts`), a key
determines the lemmas (`zmapKey_injective`), so an entry is never replaced by that of other
lemmas, and a lookup finds the frequency and the text of the lemmas it was made of
(`toZmap_lookup`).

Every entry of the map comes from a call of `set_zmap` (`IsCall`), and the calls for the same
lemmas set the same value. `Stored` is the invariant of the map over the three loops.
-/

set_option autoImplicit false

namespace Colloc.Proofs

open Colloc.Lib
open Colloc.Spec

/-! ### The lemma strings -/

section Keys
variable (text : UInt32 → Bytes) (lemid : RecordFile LemId) (lemfreq : RecordFile LemFreq)

/-- A lemma of one of the two dictionary files. -/
def IsLemma (l : UInt32) : Prop := l ∈ lemid.msgs.map LemId.id ∨ l ∈ lemfreq.msgs.map StrIdWeight.id

/-- Both files have the string `text l` for the lemma `l`, and no such string is a prefix of that
of another lemma. -/
structure LemmaTexts : Prop where
  inLemid : ∀ r ∈ lemid.msgs, r.str = text r.id
  inLemfreq : ∀ m ∈ lemfreq.msgs, m.str = text m.id
  prefix_free : ∀ l l', IsLemma lemid lemfreq l → IsLemma lemid lemfreq l' →
    text l <+: text l' → l = l'

/-- The key of a tuple of lemmas. -/
def zmapKey (ids : List UInt32) : Bytes := (ids.map text).flatten

/-- A tuple that is stored: a lemma, or lemmas whose strings are not empty. -/
structure IsKey (ids : List UInt32) : Prop where
  ne_nil : ids ≠ []
  lemmas : ∀ l ∈ ids, IsLemma lemid lemfreq l
  texts : (∀ l ∈ ids, text l ≠ []) ∨ ids.length = 1

variable {text lemid lemfreq}

/-- A lemma with an empty string is the only one, as it is a prefix of all others, and it is
stored alone. -/
theorem IsKey.eq_singleton (h : LemmaTexts text lemid lemfreq) {l : UInt32}
    (hl : IsLemma lemid lemfreq l) (hempty : text l = []) {ids : List UInt32}
    (hids : IsKey text lemid lemfreq ids) : ids = [l] := by
  have hall : ∀ l' ∈ ids, l' = l := fun l' hl' =>
    (h.prefix_free l l' hl (hids.lemmas l' hl') (hempty ▸ List.nil_prefix)).symm
  obtain ⟨l', ids', rfl⟩ := List.exists_cons_of_ne_nil hids.ne_nil
  have hl' := hall l' List.mem_cons_self
  rcases hids.texts with htexts | hlen
  · exact absurd (hl' ▸ hempty) (htexts l' List.mem_cons_self)
  · rw [List.length_cons] at hlen
    rw [List.eq_nil_of_length_eq_zero (by omega : ids'.length = 0), hl']

/-- A tuple with an empty string is a single lemma. -/
theorem IsKey.texts_or {ids : List UInt32}
    (hids : IsKey text lemid lemfreq ids) :
    (∀ l ∈ ids, text l ≠ []) ∨ ∃ l, IsLemma lemid lemfreq l ∧ text l = [] := by
  by_cases htexts : ∀ l ∈ ids, text l ≠ []
  · exact Or.inl htexts
  · push Not at htexts
    obtain ⟨l, hl, hempty⟩ := htexts
    exact Or.inr ⟨l, hids.lemmas l hl, hempty⟩

/-- Different tuples have different keys, also when their lengths differ. No lemma begins another
one, so the lemmas can be read off from the front. -/
theorem zmapKey_injective (h : LemmaTexts text lemid lemfreq) {ids ids' : List UInt32}
    (hids : IsKey text lemid lemfreq ids) (hids' : IsKey text lemid lemfreq ids')
    (hkey : zmapKey text ids = zmapKey text ids') : ids = ids' := by
  have hsole : (∃ l, IsLemma lemid lemfreq l ∧ text l = []) → ids = ids' := by
    rintro ⟨l, hl, hempty⟩
    rw [hids.eq_singleton h hl hempty, hids'.eq_singleton h hl hempty]
  rcases hids.texts_or with htexts | hsome
  · rcases hids'.texts_or with htexts' | hsome
    · refine flatten_map_injOn (I := { l | IsLemma lemid lemfreq l ∧ text l ≠ [] })
        (fun l hl l' hl' hle => h.prefix_free l l' hl.1 hl'.1 hle) (fun l hl => hl.2)
        (fun l hl => ⟨hids.lemmas l hl, htexts l hl⟩)
        (fun l hl => ⟨hids'.lemmas l hl, htexts' l hl⟩) hkey
    · exact hsole hsome
  · exact hsole hsome

end Keys

/-! ### The texts that are set -/

section Set
variable {M : Type} {id : M → UInt32} {str : M → Bytes}

/-- A text is one of the file, or none was set. -/
def TextIn (id : M → UInt32) (str : M → Bytes) (msgs : List M) (i : UInt32) (s : Bytes) : Prop :=
  s = [] ∨ ∃ msg ∈ msgs, id msg = i ∧ str msg = s

/-- A text of the map after the messages is the text of one of them, as it was blank before. The
induction is on the messages. -/
theorem setText_textIn {m : FlatHashMap UInt32 Bytes} (msgs : List M)
    (hm : ∀ i s, m.lookup i = some s → s = []) (i : UInt32) (s : Bytes)
    (h : (msgs.foldl (fun m msg => setText m (id msg) (str msg)) m).lookup i = some s) :
    TextIn id str msgs i s := by
  rw [lookup_setTexts] at h
  obtain ⟨old, hold, rfl⟩ := Option.map_eq_some_iff.mp h
  cases hfind : msgs.reverse.find? (fun msg => decide (id msg = i)) with
  | none => exact Or.inl (hm i old hold)
  | some msg =>
      exact Or.inr ⟨msg, List.mem_reverse.mp (List.mem_of_find?_eq_some hfind),
        by simpa using List.find?_some hfind, rfl⟩

/-- The texts that `find` reads, one for each id. The induction is on the ids. -/
theorem derefAll_eq_ok {m : FlatHashMap UInt32 Bytes} {what : String} {ids : List UInt32} :
    ∀ {strs : List Bytes}, derefAll m what ids = .ok strs →
      List.Forall₂ (fun i s => m.lookup i = some s) ids strs := by
  induction ids with
  | nil =>
      intro strs h
      rw [← Except.ok.inj h]
      exact List.Forall₂.nil
  | cons i ids ih =>
      intro strs h
      rw [derefAll, FlatHashMap.deref] at h
      cases hi : m.lookup i with
      | none => simp only [hi] at h; cases h
      | some s =>
          simp only [hi] at h
          cases hrest : derefAll m what ids with
          | error e => simp only [hrest] at h; cases h
          | ok strs' =>
              simp only [hrest] at h
              rw [← Except.ok.inj h]
              exact List.Forall₂.cons hi (ih hrest)

/-- Texts that are read and not empty are those of the file. An id whose record is missing has an
empty text, which is what excludes it. -/
theorem texts_eq_map {m : FlatHashMap UInt32 Bytes} {msgs : List M}
    (hm : ∀ i s, m.lookup i = some s → TextIn id str msgs i s) {text : UInt32 → Bytes}
    (htext : ∀ msg ∈ msgs, str msg = text (id msg)) {ids : List UInt32} {strs : List Bytes}
    (h : List.Forall₂ (fun i s => m.lookup i = some s) ids strs) (hne : ∀ s ∈ strs, s ≠ []) :
    strs = ids.map text ∧ ∀ i ∈ ids, i ∈ msgs.map id ∧ text i ≠ [] := by
  induction h with
  | nil => exact ⟨rfl, fun i hi => absurd hi List.not_mem_nil⟩
  | @cons i s ids strs hi _ ih =>
      obtain ⟨hstrs, hids⟩ := ih (fun s' hs' => hne s' (List.mem_cons_of_mem s hs'))
      have hs := hne s List.mem_cons_self
      obtain ⟨msg, hmsg, rfl, rfl⟩ := (hm i s hi).resolve_left hs
      rw [htext msg hmsg] at hs
      refine ⟨by rw [List.map_cons, hstrs, htext msg hmsg], fun i hi => ?_⟩
      rcases List.mem_cons.mp hi with rfl | hi
      · exact ⟨List.mem_map_of_mem hmsg, hs⟩
      · exact hids i hi

end Set

/-! ### The loops over the groups -/

section Loop
variable {K : Type} [IdTuple K] {texts : Texts}

/-- The lemma strings and the words that the loop body reads for an entry. -/
structure Reads (texts : Texts) (el : K × UInt32 × K) (lems words : List Bytes) : Prop where
  lems : List.Forall₂ (fun l s => texts.unilem.lookup l = some s) (IdTuple.toList el.1) lems
  words : List.Forall₂ (fun w s => texts.uni.lookup w = some s) (IdTuple.toList el.2.2) words

/-- What a loop body does that succeeds: it leaves the entry out when `skip` holds of its words,
and stores it otherwise, when none of its texts is empty. -/
def StoresGroup (texts : Texts) (skip : List Bytes → Bool)
    (body : FlatHashMap Bytes ZVal → K × UInt32 × K → Except Error (FlatHashMap Bytes ZVal)) :
    Prop :=
  ∀ stat el stat', body stat el = .ok stat' → ∃ lems words, Reads texts el lems words ∧
    (skip words = true → stat' = stat) ∧
    (skip words = false → (∀ s ∈ lems, s ≠ []) ∧ (∀ s ∈ words, s ≠ []) ∧
      stat' = stat.insert lems.flatten { dc := el.2.1, txt := some (joinWords words) })

/-- Texts that pass the check are not empty. -/
theorem ne_nil_of_wrongValues {lems words : List Bytes} {dc : UInt32}
    (h : wrongValues lems words dc = false) : (∀ s ∈ lems, s ≠ []) ∧ ∀ s ∈ words, s ≠ [] := by
  unfold wrongValues at h
  rw [Bool.or_eq_false_iff, Bool.or_eq_false_iff] at h
  have hne : ∀ l : List Bytes, l.any List.isEmpty = false → ∀ s ∈ l, s ≠ [] := by
    intro l hl s hs hnil
    exact List.any_eq_false.mp hl s hs (List.isEmpty_iff.mpr hnil)
  exact ⟨hne lems h.1.1, hne words h.1.2⟩

/-- An entry that passes the check is stored, and its lemmas and words are then not empty. -/
theorem stored_of_checked {lems words : List Bytes} {dc : UInt32} {e : Error}
    {stat stat' : FlatHashMap Bytes ZVal}
    (h : (if wrongValues lems words dc = true then .error e
      else .ok (stat.insert lems.flatten { dc := dc, txt := some (joinWords words) })
        : Except Error (FlatHashMap Bytes ZVal)) = .ok stat') :
    (∀ s ∈ lems, s ≠ []) ∧ (∀ s ∈ words, s ≠ []) ∧
      stat' = stat.insert lems.flatten { dc := dc, txt := some (joinWords words) } := by
  cases hwrong : wrongValues lems words dc with
  | true =>
      rw [hwrong, if_pos rfl] at h
      cases h
  | false =>
      rw [hwrong, if_neg Bool.false_ne_true] at h
      obtain ⟨hlems, hwords⟩ := ne_nil_of_wrongValues hwrong
      exact ⟨hlems, hwords, (Except.ok.inj h).symm⟩

/-- The body of the first loop stores under the key of the group, or skips it when one of its
words is too short. -/
theorem zmapBigram_stores (lib : Baalbek) :
    StoresGroup texts (hasShort lib) (zmapBigram lib texts) := by
  intro stat el stat' h
  unfold zmapBigram at h
  cases hlems : derefAll texts.unilem "unilem.find" (IdTuple.toList el.1) with
  | error e => rw [hlems] at h; cases h
  | ok lems =>
      cases hwords : derefAll texts.uni "uni.find" (IdTuple.toList el.2.2) with
      | error e => simp only [hlems, hwords] at h; cases h
      | ok words =>
          simp only [hlems, hwords] at h
          refine ⟨lems, words, ⟨derefAll_eq_ok hlems, derefAll_eq_ok hwords⟩, fun hskip => ?_,
            fun hkeep => ?_⟩
          · unfold hasShort at hskip
            rw [if_pos hskip] at h
            exact (Except.ok.inj h).symm
          · unfold hasShort at hkeep
            rw [hkeep, if_neg Bool.false_ne_true] at h
            exact stored_of_checked h

/-- That of the second one never skips: short words do not matter in a triple. -/
theorem zmapTrigram_stores : StoresGroup texts (fun _ => false) (zmapTrigram texts) := by
  intro stat el stat' h
  unfold zmapTrigram at h
  cases hlems : derefAll texts.unilem "unilem.find" (IdTuple.toList el.1) with
  | error e => rw [hlems] at h; cases h
  | ok lems =>
      cases hwords : derefAll texts.uni "uni.find" (IdTuple.toList el.2.2) with
      | error e => simp only [hlems, hwords] at h; cases h
      | ok words =>
          simp only [hlems, hwords] at h
          exact ⟨lems, words, ⟨derefAll_eq_ok hlems, derefAll_eq_ok hwords⟩,
            fun hskip => absurd hskip Bool.false_ne_true, fun _ => stored_of_checked h⟩

/-- A call of `set_zmap` for an entry. -/
def GroupCall (texts : Texts) (el : K × UInt32 × K) (key : Bytes) (v : ZVal) : Prop :=
  ∃ lems words, Reads texts el lems words ∧ (∀ s ∈ lems, s ≠ []) ∧ (∀ s ∈ words, s ≠ []) ∧
    key = lems.flatten ∧ v = { dc := el.2.1, txt := some (joinWords words) }

/-- The map behind the entries `els`: it has what it had before, except where an entry was
stored, and every entry that is not left out is stored. -/
structure Looped (texts : Texts) (skip : List Bytes → Bool) (stat : FlatHashMap Bytes ZVal)
    (els : List (K × UInt32 × K)) (stat' : FlatHashMap Bytes ZVal) : Prop where
  source : ∀ key v, stat'.lookup key = some v →
    stat.lookup key = some v ∨ ∃ el ∈ els, GroupCall texts el key v
  keeps : ∀ key, (stat.lookup key).isSome → (stat'.lookup key).isSome
  stored : ∀ el ∈ els, ∃ lems words, Reads texts el lems words ∧
    (skip words = false → (∀ s ∈ lems, s ≠ []) ∧ (∀ s ∈ words, s ≠ []) ∧
      (stat'.lookup lems.flatten).isSome)

/-- An insert does not lose a key. -/
theorem isSome_insert {m : FlatHashMap Bytes ZVal} {key : Bytes} (h : (m.lookup key).isSome)
    (key' : Bytes) (v : ZVal) : ((m.insert key' v).lookup key).isSome := by
  by_cases hkey : key = key'
  · rw [hkey, AList.lookup_insert]
    rfl
  · rw [AList.lookup_insert_ne hkey]
    exact h

section Looped
variable {skip : List Bytes → Bool} {stat s : FlatHashMap Bytes ZVal}
  {done : List (K × UInt32 × K)} {el : K × UInt32 × K} {lems words : List Bytes}

/-- An entry that is left out. The map stays as it is, and the entry was skipped for its words. -/
theorem Looped.skipped (h : Looped texts skip stat done s) (hreads : Reads texts el lems words)
    (hskip : skip words = true) : Looped texts skip stat (done ++ [el]) s where
  source key v hv := by
    refine (h.source key v hv).imp_right ?_
    rintro ⟨el', hel', hcall⟩
    exact ⟨el', List.mem_append_left _ hel', hcall⟩
  keeps := h.keeps
  stored el' hel' := by
    rcases List.mem_append.mp hel' with hel' | hel'
    · exact h.stored el' hel'
    · rw [List.mem_singleton.mp hel']
      refine ⟨lems, words, hreads, fun hno => ?_⟩
      rw [hskip] at hno
      cases hno

/-- An entry that is stored. Its key has the value of this entry, and the other keys keep theirs.
-/
theorem Looped.inserted (h : Looped texts skip stat done s) (hreads : Reads texts el lems words)
    (hlems : ∀ t ∈ lems, t ≠ []) (hwords : ∀ t ∈ words, t ≠ []) :
    Looped texts skip stat (done ++ [el])
      (s.insert lems.flatten { dc := el.2.1, txt := some (joinWords words) }) where
  source key v hv := by
    by_cases hkey : key = lems.flatten
    · rw [hkey, AList.lookup_insert] at hv
      exact Or.inr ⟨el, by simp, lems, words, hreads, hlems, hwords, hkey,
        (Option.some.inj hv).symm⟩
    · rw [AList.lookup_insert_ne hkey] at hv
      refine (h.source key v hv).imp_right ?_
      rintro ⟨el', hel', hcall⟩
      exact ⟨el', List.mem_append_left _ hel', hcall⟩
  keeps key hkey := isSome_insert (h.keeps key hkey) _ _
  stored el' hel' := by
    rcases List.mem_append.mp hel' with hel' | hel'
    · obtain ⟨lems', words', hreads', hstored⟩ := h.stored el' hel'
      refine ⟨lems', words', hreads', fun hno => ?_⟩
      obtain ⟨hne, hne', hsome⟩ := hstored hno
      exact ⟨hne, hne', isSome_insert hsome _ _⟩
    · rw [List.mem_singleton.mp hel']
      refine ⟨lems, words, hreads, fun _ => ⟨hlems, hwords, ?_⟩⟩
      rw [AList.lookup_insert]
      rfl

end Looped

/-- A loop whose body stores one group after another has stored all of them at its end. The pairs
of short words are left out, as the body skips them. -/
theorem Looped.run {skip : List Bytes → Bool}
    {body : FlatHashMap Bytes ZVal → K × UInt32 × K → Except Error (FlatHashMap Bytes ZVal)}
    (hbody : StoresGroup texts skip body) {els : List (K × UInt32 × K)}
    {stat stat' : FlatHashMap Bytes ZVal} (h : els.foldlM body stat = .ok stat') :
    Looped texts skip stat els stat' := by
  refine foldlM_keeps (P := Looped texts skip stat) h (fun el _ done s s' hs hok => ?_)
    ⟨fun key v hv => Or.inl hv, fun key hkey => hkey, fun el hel => absurd hel List.not_mem_nil⟩
  obtain ⟨lems, words, hreads, hskip, hkeep⟩ := hbody s el s' hok
  cases hwords : skip words with
  | true =>
      rw [hskip hwords]
      exact hs.skipped hreads hwords
  | false =>
      obtain ⟨hlems, hwords', heq⟩ := hkeep hwords
      rw [heq]
      exact hs.inserted hreads hlems hwords'

/-- The texts of an entry are determined. -/
theorem Reads.unique {el : K × UInt32 × K} {lems words lems' words' : List Bytes}
    (h : Reads texts el lems words) (h' : Reads texts el lems' words') :
    lems = lems' ∧ words = words' := by
  have hfun : ∀ m : FlatHashMap UInt32 Bytes,
      Relator.RightUnique (fun i s => m.lookup i = some s) :=
    fun m i s s' hs hs' => Option.some.inj (hs.symm.trans hs')
  exact ⟨List.right_unique_forall₂' (hfun _) h.lems h'.lems,
    List.right_unique_forall₂' (hfun _) h.words h'.words⟩

end Loop

/-! ### The first half -/

section Load
variable {K R : Type} [IdTuple K] [DecidableEq K]

/-- A case of greatest count of a filtered group with the lemmas `k`. -/
def Represents (filtered : RecordFile (LemGroup K R)) (k : K) (cs : Case K) : Prop :=
  ∃ lg ∈ filtered.msgs, lg.lids = k ∧ cs ∈ lg.cases ∧ ∀ cs' ∈ lg.cases, cs'.count ≤ cs.count

/-- `bifreqs` or `trifreqs`: an entry for each group, with its frequency and the words of a
representative case. -/
structure FreqsOf (freq : RecordFile (Gram K)) (filtered : RecordFile (LemGroup K R))
    (freqs : FlatHashMap K (UInt32 × K)) : Prop where
  own : ∀ k v, freqs.lookup k = some v → (∃ g ∈ freq.msgs, g.ids = k ∧ g.weight = v.1) ∧
    ∃ cs, Represents filtered k cs ∧ cs.wids = v.2
  listed : ∀ lg ∈ filtered.msgs, (freqs.lookup lg.lids).isSome

/-- What the loading noted is what the files say about the frequent groups: a frequency of the one
file, and the words of a group of the other. -/
theorem Noted.freqsOf {freq : RecordFile (Gram K)} {filtered : RecordFile (LemGroup K R)}
    {cnt : FlatHashMap K UInt32} (hload : loadFreqs freq = .ok cnt) {texts : Texts}
    {freqs : FlatHashMap K (UInt32 × K)} (h : Noted cnt filtered.msgs texts freqs) :
    FreqsOf freq filtered freqs where
  own k v hv := by
    obtain ⟨cnt', hload', -, hval⟩ := loadFreqs_spec freq
    rw [hload] at hload'
    cases hload'
    obtain ⟨lg, hlg, hlids, cs, hmax, hwids⟩ := h.group k v hv
    have hfirst := maxCase_first hmax
    exact ⟨hval k v.1 (h.freq k v hv), cs, ⟨lg, hlg, hlids, hfirst.mem, hfirst.max⟩, hwids⟩
  listed := h.listed

end Load

section Files
variable {R : Type} {files : ZmapInput R}

/-- What the first half hands to the loops. -/
structure Loaded (files : ZmapInput R) (texts : Texts) (bifreqs : FlatHashMap Idd (UInt32 × Idd))
    (trifreqs : FlatHashMap Iddd (UInt32 × Iddd)) : Prop where
  bi : FreqsOf files.bifreq files.bifiltered bifreqs
  tri : FreqsOf files.trifreq files.trifiltered trifreqs
  findsBi : Finds files files.bifiltered texts bifreqs
  findsTri : Finds files files.trifiltered texts trifreqs
  unilem : ∀ l s, texts.unilem.lookup l = some s → TextIn LemId.id LemId.str files.lemid.msgs l s

/-- So the loops start from the texts and the groups of the files. The pairs and the triples have
maps of their own. -/
theorem zmapLoad_loaded [Double R] {texts : Texts} {bifreqs : FlatHashMap Idd (UInt32 × Idd)}
    {trifreqs : FlatHashMap Iddd (UInt32 × Iddd)}
    (h : zmapLoad files = .ok (texts, bifreqs, trifreqs)) :
    Loaded files texts bifreqs trifreqs := by
  obtain ⟨hfindsBi, hfindsTri⟩ := zmapLoad_finds h
  obtain ⟨bicnt, tricnt, bi, tri, hbicnt, htricnt, hbirun, htrirun, hload⟩ := zmapLoad_eq_ok h
  obtain ⟨hbi, -, hbiblank⟩ := Noted.run hbirun
  obtain ⟨htri, -, htriblank⟩ := Noted.run htrirun
  -- Before the dictionaries are read every text is empty.
  have hblank : Blank tri.1 := htriblank (hbiblank Blank.empty)
  cases hload
  exact ⟨hbi.freqsOf hbicnt, htri.freqsOf htricnt, hfindsBi, hfindsTri,
    setText_textIn files.lemid.msgs hblank.unilem⟩

/-! ### The lemmas -/

/-- The entries behind the lemmas `done`. -/
structure LemmasStored (done : List LemFreq) (stat : FlatHashMap Bytes ZVal) : Prop where
  source : ∀ key v, stat.lookup key = some v →
    ∃ m ∈ done, m.weight > 2 ∧ key = m.str ∧ v = { dc := m.weight, txt := none }
  stored : ∀ m ∈ done, m.weight > 2 → (stat.lookup m.str).isSome

/-- The loop over `lemfreq.bin` stores a lemma under its own text, when it is in more than two
documents. The induction is from the end, as the last record with a text is the one that stays. -/
theorem lemmasStored_foldl (msgs : List LemFreq) :
    LemmasStored msgs (msgs.foldl zmapLemma ∅) := by
  induction msgs using List.reverseRecOn with
  | nil =>
      exact ⟨fun key v hv => (nomatch hv), fun m hm => absurd hm List.not_mem_nil⟩
  | append_singleton msgs m ih =>
      rw [List.foldl_append, List.foldl_cons, List.foldl_nil, zmapLemma]
      by_cases hm : m.weight > 2
      · rw [if_pos hm]
        refine ⟨fun key v hv => ?_, fun m' hm' hweight => ?_⟩
        · by_cases hkey : key = m.str
          · rw [hkey, AList.lookup_insert] at hv
            exact ⟨m, by simp, hm, hkey, (Option.some.inj hv).symm⟩
          · rw [AList.lookup_insert_ne hkey] at hv
            obtain ⟨m', hm', hcall⟩ := ih.source key v hv
            exact ⟨m', List.mem_append_left _ hm', hcall⟩
        · rcases List.mem_append.mp hm' with hm' | hm'
          · exact isSome_insert (ih.stored m' hm' hweight) _ _
          · rw [List.mem_singleton.mp hm', AList.lookup_insert]
            rfl
      · rw [if_neg hm]
        refine ⟨fun key v hv => ?_, fun m' hm' hweight => ?_⟩
        · obtain ⟨m', hm', hcall⟩ := ih.source key v hv
          exact ⟨m', List.mem_append_left _ hm', hcall⟩
        · rcases List.mem_append.mp hm' with hm' | hm'
          · exact ih.stored m' hm' hweight
          · rw [List.mem_singleton.mp hm'] at hweight
            exact absurd hweight hm

/-! ### The map -/

section Map
variable {text : UInt32 → Bytes} {texts : Texts} {bifreqs : FlatHashMap Idd (UInt32 × Idd)}
  {trifreqs : FlatHashMap Iddd (UInt32 × Iddd)}

/-- A call of `set_zmap` for the tuple `ids`. -/
inductive IsCall (files : ZmapInput R) (texts : Texts) (bifreqs : FlatHashMap Idd (UInt32 × Idd))
    (trifreqs : FlatHashMap Iddd (UInt32 × Iddd)) (ids : List UInt32) (key : Bytes) (v : ZVal) :
    Prop where
  | single (m : LemFreq) : m ∈ files.lemfreq.msgs → m.weight > 2 → ids = [m.id] → key = m.str →
      v = { dc := m.weight, txt := none } → IsCall files texts bifreqs trifreqs ids key v
  | pair (el : Idd × UInt32 × Idd) : bifreqs.lookup el.1 = some el.2 →
      ids = IdTuple.toList el.1 → GroupCall texts el key v →
      IsCall files texts bifreqs trifreqs ids key v
  | triple (el : Iddd × UInt32 × Iddd) : trifreqs.lookup el.1 = some el.2 →
      ids = IdTuple.toList el.1 → GroupCall texts el key v →
      IsCall files texts bifreqs trifreqs ids key v

/-- The key of a group is that of its lemmas, whose texts passed the check and are so not empty.
-/
theorem GroupCall.isKey {K : Type} [IdTuple K] (htext : LemmaTexts text files.lemid files.lemfreq)
    (hunilem : ∀ l s, texts.unilem.lookup l = some s →
      TextIn LemId.id LemId.str files.lemid.msgs l s)
    {el : K × UInt32 × K} {key : Bytes} {v : ZVal} (hne : IdTuple.toList el.1 ≠ [])
    (h : GroupCall texts el key v) :
    IsKey text files.lemid files.lemfreq (IdTuple.toList el.1) ∧
      key = zmapKey text (IdTuple.toList el.1) := by
  obtain ⟨lems, words, hreads, hlems, -, rfl, -⟩ := h
  obtain ⟨hmap, hids⟩ := texts_eq_map hunilem htext.inLemid hreads.lems hlems
  exact ⟨⟨hne, fun l hl => Or.inl (hids l hl).1, Or.inl (fun l hl => (hids l hl).2)⟩,
    by rw [hmap, zmapKey]⟩

/-- The key of a call is that of its tuple: the texts of its lemmas, one after another. -/
theorem IsCall.isKey (htext : LemmaTexts text files.lemid files.lemfreq)
    (hload : Loaded files texts bifreqs trifreqs) {ids : List UInt32} {key : Bytes} {v : ZVal}
    (h : IsCall files texts bifreqs trifreqs ids key v) :
    IsKey text files.lemid files.lemfreq ids ∧ key = zmapKey text ids := by
  cases h with
  | single m hm hweight hids hkey hv =>
      subst hids hkey
      refine ⟨⟨List.cons_ne_nil _ _, fun l hl => Or.inr ?_, Or.inr rfl⟩, ?_⟩
      · rw [List.mem_singleton.mp hl]
        exact List.mem_map_of_mem hm
      · rw [htext.inLemfreq m hm, zmapKey, List.map_singleton, List.flatten_singleton]
  | pair el hel hids hcall =>
      subst hids
      exact hcall.isKey htext hload.unilem (List.cons_ne_nil _ _)
  | triple el hel hids hcall =>
      subst hids
      exact hcall.isKey htext hload.unilem (List.cons_ne_nil _ _)

/-- The map at the end: its values are those of calls, and the calls that are made leave an entry
under their key. -/
structure Stored (files : ZmapInput R) (lib : Baalbek) (texts : Texts)
    (bifreqs : FlatHashMap Idd (UInt32 × Idd)) (trifreqs : FlatHashMap Iddd (UInt32 × Iddd))
    (stat : FlatHashMap Bytes ZVal) : Prop where
  source : ∀ key v, stat.lookup key = some v →
    ∃ ids, IsCall files texts bifreqs trifreqs ids key v
  lemmas : ∀ m ∈ files.lemfreq.msgs, m.weight > 2 → (stat.lookup m.str).isSome
  pairs : ∀ k v, bifreqs.lookup k = some v → ∃ lems words, Reads texts (k, v) lems words ∧
    (hasShort lib words = false → (∀ s ∈ lems, s ≠ []) ∧ (∀ s ∈ words, s ≠ []) ∧
      (stat.lookup lems.flatten).isSome)
  triples : ∀ k v, trifreqs.lookup k = some v → ∃ lems words, Reads texts (k, v) lems words ∧
    (∀ s ∈ lems, s ≠ []) ∧ (∀ s ∈ words, s ≠ []) ∧ (stat.lookup lems.flatten).isSome

/-- A run that succeeds, with its two halves: what was loaded, and what the loops over the lemmas,
the pairs and the triples have stored from it. -/
theorem toZmap_stored [Double R] {std : Stdlib} {lib : Baalbek} {version : String} {stat : TermStat}
    (h : toZmap std lib files version = .ok stat) :
    ∃ texts bifreqs trifreqs, Loaded files texts bifreqs trifreqs ∧
      Stored files lib texts bifreqs trifreqs stat.terms := by
  unfold toZmap at h
  cases hload : zmapLoad files with
  | error e => rw [hload] at h; cases h
  | ok loaded =>
      obtain ⟨texts, bifreqs, trifreqs⟩ := loaded
      simp only [hload, readApply_pure] at h
      have hlemmas := lemmasStored_foldl files.lemfreq.msgs
      generalize files.lemfreq.msgs.foldl zmapLemma ∅ = stat₀ at h hlemmas
      cases hbi : (bifreqs.iter std).foldlM (zmapBigram lib texts) stat₀ with
      | error e => simp only [hbi] at h; cases h
      | ok stat₁ =>
          cases htri : (trifreqs.iter std).foldlM (zmapTrigram texts) stat₁ with
          | error e => simp only [hbi, htri] at h; cases h
          | ok stat₂ =>
              simp only [hbi, htri] at h
              rw [← Except.ok.inj h]
              have hbiloop := Looped.run (zmapBigram_stores lib) hbi
              have htriloop := Looped.run zmapTrigram_stores htri
              refine ⟨texts, bifreqs, trifreqs, zmapLoad_loaded hload, fun key v hv => ?_,
                fun m hm hweight => ?_, fun k v hv => ?_, fun k v hv => ?_⟩
              · -- The value was stored in the last loop, the second one, or the first one.
                rcases htriloop.source key v hv with hv | ⟨el, hel, hcall⟩
                · rcases hbiloop.source key v hv with hv | ⟨el, hel, hcall⟩
                  · obtain ⟨m, hm, hweight, hkey, hval⟩ := hlemmas.source key v hv
                    exact ⟨_, IsCall.single m hm hweight rfl hkey hval⟩
                  · exact ⟨_, IsCall.pair el ((FlatHashMap.mem_iter std bifreqs _ _).mp hel) rfl
                      hcall⟩
                · exact ⟨_, IsCall.triple el ((FlatHashMap.mem_iter std trifreqs _ _).mp hel) rfl
                    hcall⟩
              · exact htriloop.keeps _ (hbiloop.keeps _ (hlemmas.stored m hm hweight))
              · obtain ⟨lems, words, hreads, hstored⟩ :=
                  hbiloop.stored (k, v) ((FlatHashMap.mem_iter std bifreqs k v).mpr hv)
                refine ⟨lems, words, hreads, fun hskip => ?_⟩
                obtain ⟨hlems, hwords, hsome⟩ := hstored hskip
                exact ⟨hlems, hwords, htriloop.keeps _ hsome⟩
              · obtain ⟨lems, words, hreads, hstored⟩ :=
                  htriloop.stored (k, v) ((FlatHashMap.mem_iter std trifreqs k v).mpr hv)
                exact ⟨lems, words, hreads, hstored rfl⟩

/-- A lookup finds the value of a call for the same tuple. The call that stored it has the same
key, and so the same tuple. -/
theorem Stored.lookup (htext : LemmaTexts text files.lemid files.lemfreq)
    (hload : Loaded files texts bifreqs trifreqs) {lib : Baalbek} {stat : FlatHashMap Bytes ZVal}
    (h : Stored files lib texts bifreqs trifreqs stat) {ids : List UInt32}
    (hids : IsKey text files.lemid files.lemfreq ids)
    (hsome : (stat.lookup (zmapKey text ids)).isSome) :
    ∃ v, stat.lookup (zmapKey text ids) = some v ∧
      IsCall files texts bifreqs trifreqs ids (zmapKey text ids) v := by
  obtain ⟨v, hv⟩ := Option.isSome_iff_exists.mp hsome
  obtain ⟨ids', hcall⟩ := h.source _ v hv
  obtain ⟨hids', hkey⟩ := hcall.isKey htext hload
  have heq := zmapKey_injective htext hids hids' hkey
  exact ⟨v, hv, heq ▸ hcall⟩

/-- The value of a group's call is made of its own entry, as a tuple has one entry in the map. -/
theorem GroupCall.eq {K : Type} [IdTuple K] [DecidableEq K] {freqs : FlatHashMap K (UInt32 × K)}
    {el : K × UInt32 × K} {k : K} {e : UInt32 × K} {key : Bytes} {v : ZVal}
    {lems words : List Bytes} (hreads : Reads texts (k, e) lems words) (hk : el.1 = k)
    (hel : freqs.lookup el.1 = some el.2) (he : freqs.lookup k = some e)
    (h : GroupCall texts el key v) : v = { dc := e.1, txt := some (joinWords words) } := by
  have hsame : el = (k, e) := by
    rw [hk, he] at hel
    exact Prod.ext hk (Option.some.inj hel).symm
  subst hsame
  obtain ⟨lems', words', hreads', -, -, -, rfl⟩ := h
  rw [(hreads'.unique hreads).2]

end Map

/-! ### The lookups -/

/-- A pair is told by the list of its ids. -/
theorem toList_idd_injective {k k' : Idd} (h : IdTuple.toList k = IdTuple.toList k') : k = k' := by
  have hlist : [k.1, k.2] = [k'.1, k'.2] := h
  rw [List.cons.injEq, List.cons.injEq] at hlist
  exact Prod.ext hlist.1 hlist.2.1

/-- So is a triple. -/
theorem toList_iddd_injective {k k' : Iddd} (h : IdTuple.toList k = IdTuple.toList k') :
    k = k' := by
  have hlist : [k.1, k.2.1, k.2.2] = [k'.1, k'.2.1, k'.2.2] := h
  rw [List.cons.injEq] at hlist
  have htail : IdTuple.toList k.2 = IdTuple.toList k'.2 := hlist.2
  exact Prod.ext hlist.1 (toList_idd_injective htail)

/-- The tuple `k` has a value of its own: the frequency of one of its records and, unless its
words are skipped, the words of its chosen case, which is one of its own cases of greatest count,
found under its key. The keys of the two literals are set to other values. -/
def HasOwnValue {K : Type} [IdTuple K] [DecidableEq K] (text : UInt32 → Bytes)
    (freq : RecordFile (Gram K)) (filtered : RecordFile (LemGroup K R)) (uni : RecordFile Unigram)
    (skip : List Bytes → Bool) (stat : TermStat) (k : K) : Prop :=
  ∃ g ∈ freq.msgs, g.ids = k ∧ ∃ cs, Chosen filtered k cs ∧ Represents filtered k cs ∧
    (skip (wordTexts uni cs.wids) = false → (∀ s ∈ wordTexts uni cs.wids, s ≠ []) ∧
      (zmapKey text (IdTuple.toList k) ∉ [literalBytes "version", literalBytes "total_count"] →
        stat.get (zmapKey text (IdTuple.toList k))
          = some (.zmap { dc := g.weight, txt := some (joinWords (wordTexts uni cs.wids)) })))

/-- What is under a key that is no literal. -/
theorem get_of_lookup {stat : TermStat} {key : Bytes} {v : ZVal}
    (hv : stat.terms.lookup key = some v)
    (hkey : key ∉ [literalBytes "version", literalBytes "total_count"]) :
    stat.get key = some (.zmap v) := by
  simp only [List.mem_cons, List.not_mem_nil, or_false, not_or] at hkey
  rw [TermStat.get, if_neg hkey.2, if_neg hkey.1, hv]
  rfl

section Own
variable {text : UInt32 → Bytes} {texts : Texts} {bifreqs : FlatHashMap Idd (UInt32 × Idd)}
  {trifreqs : FlatHashMap Iddd (UInt32 × Iddd)} {lib : Baalbek} {stat : FlatHashMap Bytes ZVal}
  (htext : LemmaTexts text files.lemid files.lemfreq) (hload : Loaded files texts bifreqs trifreqs)
  (h : Stored files lib texts bifreqs trifreqs stat)
include htext hload h

/-- The lookup of a lemma. It may come from another record of the same lemma, and no group has its
key. -/
theorem Stored.single {m : LemFreq} (hm : m ∈ files.lemfreq.msgs) (hweight : m.weight > 2) :
    ∃ m' ∈ files.lemfreq.msgs, m'.id = m.id ∧
      stat.lookup (zmapKey text [m.id]) = some { dc := m'.weight, txt := none } := by
  have hmade : IsCall files texts bifreqs trifreqs [m.id] m.str { dc := m.weight, txt := none } :=
    IsCall.single m hm hweight rfl rfl rfl
  obtain ⟨hids, hstr⟩ := hmade.isKey htext hload
  obtain ⟨v, hv, hcall⟩ := h.lookup htext hload hids (hstr ▸ h.lemmas m hm hweight)
  -- A tuple of one lemma is neither a pair nor a triple.
  cases hcall with
  | single m' hm' _ hone _ hval => exact ⟨m', hm', (List.cons.inj hone).1.symm, hval ▸ hv⟩
  | pair el _ hone _ => simp [IdTuple.toList] at hone
  | triple el _ hone _ => simp [IdTuple.toList] at hone

/-- The lookup of a pair that is not skipped. No other call has its key, as the keys of different
tuples differ. -/
theorem Stored.pair {k : Idd} {e : UInt32 × Idd} (he : bifreqs.lookup k = some e) :
    ∃ words, List.Forall₂ (fun w s => texts.uni.lookup w = some s) (IdTuple.toList e.2) words ∧
      (hasShort lib words = false → (∀ s ∈ words, s ≠ []) ∧
        stat.lookup (zmapKey text (IdTuple.toList k))
          = some { dc := e.1, txt := some (joinWords words) }) := by
  obtain ⟨lems, words, hreads, hstored⟩ := h.pairs k e he
  refine ⟨words, hreads.words, fun hskip => ?_⟩
  obtain ⟨hlems, hwords, hsome⟩ := hstored hskip
  have hmade : IsCall files texts bifreqs trifreqs (IdTuple.toList k) lems.flatten
      { dc := e.1, txt := some (joinWords words) } :=
    IsCall.pair (k, e) he rfl ⟨lems, words, hreads, hlems, hwords, rfl, rfl⟩
  obtain ⟨hids, hkey⟩ := hmade.isKey htext hload
  obtain ⟨v, hv, hcall⟩ := h.lookup htext hload hids (hkey ▸ hsome)
  refine ⟨hwords, ?_⟩
  cases hcall with
  | single m _ _ htwo _ _ => simp [IdTuple.toList] at htwo
  | pair el hel htwo hgroup =>
      rw [hv, hgroup.eq hreads (toList_idd_injective htwo.symm) hel he]
  | triple el _ htwo _ => simp [IdTuple.toList] at htwo

/-- The lookup of a triple. No triple is skipped, and no other call has its key. -/
theorem Stored.triple {k : Iddd} {e : UInt32 × Iddd} (he : trifreqs.lookup k = some e) :
    ∃ words, List.Forall₂ (fun w s => texts.uni.lookup w = some s) (IdTuple.toList e.2) words ∧
      (∀ s ∈ words, s ≠ []) ∧
      stat.lookup (zmapKey text (IdTuple.toList k))
        = some { dc := e.1, txt := some (joinWords words) } := by
  obtain ⟨lems, words, hreads, hlems, hwords, hsome⟩ := h.triples k e he
  have hmade : IsCall files texts bifreqs trifreqs (IdTuple.toList k) lems.flatten
      { dc := e.1, txt := some (joinWords words) } :=
    IsCall.triple (k, e) he rfl ⟨lems, words, hreads, hlems, hwords, rfl, rfl⟩
  obtain ⟨hids, hkey⟩ := hmade.isKey htext hload
  obtain ⟨v, hv, hcall⟩ := h.lookup htext hload hids (hkey ▸ hsome)
  refine ⟨words, hreads.words, hwords, ?_⟩
  cases hcall with
  | single m _ _ hthree _ _ => simp [IdTuple.toList] at hthree
  | pair el _ hthree _ => simp [IdTuple.toList] at hthree
  | triple el hel hthree hgroup =>
      rw [hv, hgroup.eq hreads (toList_iddd_injective hthree.symm) hel he]

end Own

/-- The value of an entry is that of its tuple: the frequency of its record, and the texts of the
words of the case that represents it. -/
theorem hasOwnValue_of_entry {K : Type} [IdTuple K] [DecidableEq K]
    {text : UInt32 → Bytes} {texts : Texts} {freq : RecordFile (Gram K)}
    {filtered : RecordFile (LemGroup K R)} {freqs : FlatHashMap K (UInt32 × K)}
    (hfreqs : FreqsOf freq filtered freqs) (hfinds : Finds files filtered texts freqs)
    {skip : List Bytes → Bool} {stat : TermStat} {k : K} {e : UInt32 × K}
    (he : freqs.lookup k = some e) {words : List Bytes}
    (hwords : List.Forall₂ (fun w s => texts.uni.lookup w = some s) (IdTuple.toList e.2) words)
    (hval : skip words = false → (∀ s ∈ words, s ≠ []) ∧
      stat.terms.lookup (zmapKey text (IdTuple.toList k))
        = some { dc := e.1, txt := some (joinWords words) }) :
    HasOwnValue text freq filtered files.uni skip stat k := by
  obtain ⟨⟨g, hg, hids, hweight⟩, -⟩ := hfreqs.own k e he
  obtain ⟨⟨cs, hcs, hwids⟩, -, hfound⟩ := hfinds k e he
  -- The words that are looked up have the texts of `uni.bin`.
  obtain rfl : words = wordTexts files.uni e.2 :=
    List.right_unique_forall₂' (fun i s s' hs hs' => Option.some.inj (hs.symm.trans hs')) hwords
      (derefAll_eq_ok hfound)
  obtain ⟨lg, hlg, hfirst⟩ := hcs
  obtain ⟨hmem, hlids⟩ := groupFor_mem hlg
  refine ⟨g, hg, hids, cs, ⟨lg, hlg, hfirst⟩, ⟨lg, hmem, hlids, hfirst.mem, hfirst.max⟩,
    fun hskip => ?_⟩
  rw [hwids] at hskip ⊢
  obtain ⟨hne, hlookup⟩ := hval hskip
  rw [← hweight] at hlookup
  exact ⟨hne, get_of_lookup hlookup⟩

/-- The keys of the published map never collide. Different tuples of lemmas with strings have
different keys, and a run that succeeds leaves, for each lemma of more than two documents, each
filtered pair that is not skipped and each filtered triple, a value of its own under its key. A run
on ready files succeeds. -/
theorem toZmap_lookup [Double R] (std : Stdlib) (lib : Baalbek) (files : ZmapInput R)
    (version : String) (text : UInt32 → Bytes) (htext : LemmaTexts text files.lemid files.lemfreq) :
    (∀ ids ids', IsKey text files.lemid files.lemfreq ids →
      IsKey text files.lemid files.lemfreq ids' → zmapKey text ids = zmapKey text ids' →
      ids = ids') ∧
    (ZmapReady files → ∃ stat, toZmap std lib files version = .ok stat) ∧
    ∀ stat, toZmap std lib files version = .ok stat →
      (∀ m ∈ files.lemfreq.msgs, m.weight > 2 →
        zmapKey text [m.id] ∉ [literalBytes "version", literalBytes "total_count"] →
        ∃ m' ∈ files.lemfreq.msgs, m'.id = m.id ∧
          stat.get (zmapKey text [m.id]) = some (.zmap { dc := m'.weight, txt := none })) ∧
      (∀ lg ∈ files.bifiltered.msgs, HasOwnValue text files.bifreq files.bifiltered files.uni
        (hasShort lib) stat lg.lids) ∧
      ∀ lg ∈ files.trifiltered.msgs, HasOwnValue text files.trifreq files.trifiltered files.uni
        (fun _ => false) stat lg.lids := by
  refine ⟨fun ids ids' => zmapKey_injective htext, fun h => h.total std lib version,
    fun stat h => ?_⟩
  obtain ⟨texts, bifreqs, trifreqs, hload, hstored⟩ := toZmap_stored h
  refine ⟨fun m hm hweight hkey => ?_, fun lg hlg => ?_, fun lg hlg => ?_⟩
  · obtain ⟨m', hm', hid, hlookup⟩ := hstored.single htext hload hm hweight
    exact ⟨m', hm', hid, get_of_lookup hlookup hkey⟩
  · obtain ⟨e, he⟩ := Option.isSome_iff_exists.mp (hload.bi.listed lg hlg)
    obtain ⟨words, hwords, hval⟩ := hstored.pair htext hload he
    exact hasOwnValue_of_entry hload.bi hload.findsBi he hwords hval
  · obtain ⟨e, he⟩ := Option.isSome_iff_exists.mp (hload.tri.listed lg hlg)
    obtain ⟨words, hwords, hval⟩ := hstored.triple htext hload he
    exact hasOwnValue_of_entry hload.tri hload.findsTri he hwords (fun _ => hval)

end Files

/-- Letters of two bytes each. -/
def decodeTwo : Bytes → List WideChar
  | a :: b :: rest => (a.toNat % 32 * 64 + b.toNat % 64) :: decodeTwo rest
  | _ => []

/-- A library that reads Cyrillic text. -/
def cyrillicLib : Baalbek := { oneWordLib with mbcstowide := decodeTwo }

/-- Three lemmas. -/
def threeText (l : UInt32) : Bytes :=
  if l = 1 then [208, 176] else if l = 2 then [208, 177] else [208, 178]

/-- A pair and a triple of these lemmas, with their words "мне", "дом" and "я". The pair has the
words of its second case, "мне дом". -/
def threeFiles : ZmapInput ℚ where
  bifreq := { total := 1, msgs := [⟨(1, 2), 7⟩] }
  bifiltered := { total := 1, msgs := [⟨(1, 2), 1, [⟨(3, 2), 3⟩, ⟨(1, 2), 4⟩]⟩] }
  trifreq := { total := 1, msgs := [⟨(1, 2, 3), 5⟩] }
  trifiltered := { total := 1, msgs := [⟨(1, 2, 3), 1, [⟨(1, 2, 3), 2⟩]⟩] }
  uni :=
    { total := 3
      msgs := [⟨[208, 188, 208, 189, 208, 181], 1, 9⟩, ⟨[208, 180, 208, 190, 208, 188], 2, 9⟩,
        ⟨[209, 143], 3, 9⟩] }
  lemid := { total := 3, msgs := [⟨[208, 176], 1⟩, ⟨[208, 177], 2⟩, ⟨[208, 178], 3⟩] }
  lemfreq := { total := 1, msgs := [⟨[208, 176], 1, 8⟩] }
  totalCount := 10

/-- The lemma, the pair, which is not skipped, and the triple are found under their keys. No word
of the pair is short, so it is not skipped; one of the triple is, which does not matter there. -/
theorem toZmap_lookup_three :
    ∃ stat, toZmap Stdlib.sorting cyrillicLib threeFiles "1" = .ok stat ∧
      (∃ m ∈ threeFiles.lemfreq.msgs,
        stat.get [208, 176] = some (.zmap { dc := m.weight, txt := none })) ∧
      stat.get [208, 176, 208, 177] = some (.zmap
        { dc := 7
          txt := some [208, 188, 208, 189, 208, 181, 32, 208, 180, 208, 190, 208, 188] }) ∧
      HasOwnValue threeText threeFiles.trifreq threeFiles.trifiltered threeFiles.uni
        (fun _ => false) stat (1, 2, 3) := by
  have hlemma : ∀ l, IsLemma threeFiles.lemid threeFiles.lemfreq l → l = 1 ∨ l = 2 ∨ l = 3 := by
    intro l hl
    simp only [IsLemma, threeFiles, List.map_cons, List.map_nil, List.mem_cons, List.not_mem_nil,
      or_false] at hl
    exact hl.elim id Or.inl
  have htext : LemmaTexts threeText threeFiles.lemid threeFiles.lemfreq := by
    refine ⟨by decide, by decide, fun l l' hl hl' hle => ?_⟩
    rcases hlemma l hl with rfl | rfl | rfl
    all_goals
      rcases hlemma l' hl' with rfl | rfl | rfl
      all_goals
        revert hle
        decide
  have hready : ZmapReady threeFiles :=
    ⟨⟨by decide, by decide, by decide, by simp [threeFiles, IdTuple.toList],
        by simp [threeFiles, IdTuple.toList]⟩,
      ⟨by decide, by decide, by decide, by simp [threeFiles, IdTuple.toList],
        by simp [threeFiles, IdTuple.toList]⟩, by decide, by decide⟩
  obtain ⟨-, hrun, hlookup⟩ :=
    toZmap_lookup Stdlib.sorting cyrillicLib threeFiles "1" threeText htext
  obtain ⟨stat, hstat⟩ := hrun hready
  obtain ⟨hsingle, hbi, htri⟩ := hlookup stat hstat
  obtain ⟨m, hm, -, hget⟩ := hsingle ⟨[208, 176], 1, 8⟩ (by decide) (by decide) (by decide)
  refine ⟨stat, hstat, ⟨m, hm, hget⟩, ?_, htri _ List.mem_cons_self⟩
  -- The second case of the pair is the only one of greatest count.
  obtain ⟨g, hg, -, cs, -, ⟨lg, hlg, -, hcs, hmax⟩, hval⟩ := hbi _ List.mem_cons_self
  obtain rfl := List.mem_singleton.mp hg
  obtain rfl := List.mem_singleton.mp hlg
  have hwids : cs.wids = (1, 2) := by
    rcases List.mem_cons.mp hcs with rfl | hcs
    · exact absurd (hmax ⟨(1, 2), 4⟩ (by decide)) (by decide)
    · rw [List.mem_singleton.mp hcs]
  rw [hwids] at hval
  exact (hval (by decide)).2 (by decide)

end Colloc.Proofs

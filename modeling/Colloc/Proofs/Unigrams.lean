import Colloc.Lib.Total
import Colloc.Proofs.Framing
import Colloc.Spec.Lemmer

/-!
# `Colloc.Proofs.Unigrams`: `uni.bin` agrees with `corpus.bin`

After any calls of `update` the map of `UnigramCounts` is the one that the keys of the accepted
words make (`updates_map`), and the ids on `corpus.bin` are the ids of these keys, in order
(`updates_flatten`). `counted_foldl_bumped` is the invariant of the map over the keys: it numbers
them without gaps and counts them. `updates_agree` collects what follows for `uni.bin`, and that
no word id leads `lemmatize` out of its table.
-/

set_option autoImplicit false

namespace Colloc.Proofs

open Colloc.Lib
open Colloc.Spec

/-! ### The map -/

/-- The counts before the first document. -/
def noCounts : UnigramCounts := { map := ∅, bufferedOut := [] }

/-- The map of the keys, in the order in which they came. -/
def mapOf (keys : List Bytes) : FlatHashMap Bytes UniVal := keys.foldl bumped ∅

/-- One key more bumps the map once. -/
theorem mapOf_concat (keys : List Bytes) (key : Bytes) :
    mapOf (keys ++ [key]) = bumped (mapOf keys) key := by
  rw [mapOf, List.foldl_append]
  rfl

/-- The map has the keys that were counted. -/
theorem isSome_mapOf (keys : List Bytes) (k : Bytes) :
    ((mapOf keys).lookup k).isSome ↔ k ∈ keys := by
  rw [mapOf, isSome_foldl_bumped]
  exact or_iff_right (by simp)

/-- The map has one entry for each key. -/
theorem size_mapOf (keys : List Bytes) : (mapOf keys).size = keys.dedup.length :=
  size_eq_length keys.nodup_dedup (fun k => by rw [isSome_mapOf, List.mem_dedup])

/-- A counted key has an entry, and its id is the one that the phrases get. -/
theorem lookup_mapOf {keys : List Bytes} {k : Bytes} (h : k ∈ keys) :
    ∃ v, (mapOf keys).lookup k = some v ∧ v.id = idIn (mapOf keys) k := by
  obtain ⟨v, hv⟩ := Option.isSome_iff_exists.mp ((isSome_mapOf keys k).mpr h)
  refine ⟨v, hv, ?_⟩
  rw [idIn, hv]
  rfl

/-- The ids do not change when a key is counted. -/
theorem idIn_mapOf_concat {keys : List Bytes} {k : Bytes} (h : k ∈ keys) (key : Bytes) :
    idIn (mapOf (keys ++ [key])) k = idIn (mapOf keys) k := by
  obtain ⟨v, hv, hid⟩ := lookup_mapOf h
  have hkeeps := KeepsIds.bumped (mapOf keys) key k v.id (by rw [hv]; rfl)
  rw [← hid, idIn, mapOf_concat, hkeeps]
  rfl

/-- Below `2 ^ 32` keys the map numbers them and counts their ids. The induction appends one
key at a time, as the stage does. -/
theorem counted_mapOf (keys : List Bytes) :
    (mapOf keys).size < 2 ^ 32 →
      ∃ names, Counted names (keys.map (idIn (mapOf keys))) (mapOf keys) := by
  induction keys using List.reverseRecOn with
  | nil =>
      exact fun _ => ⟨[], Indexes.nil, fun k v hv => (nomatch hv), fun k v hv => (nomatch hv),
        fun w hw => absurd hw List.not_mem_nil⟩
  | append_singleton keys key ih =>
      intro hsize
      have hle : (mapOf keys).size ≤ (bumped (mapOf keys) key).size :=
        size_le_insert (mapOf keys) key _
      rw [mapOf_concat] at hsize
      obtain ⟨names, hnames⟩ := ih (by omega)
      obtain ⟨names', hnames'⟩ := hnames.bumped key hsize
      have hkeys : keys.map (idIn (mapOf (keys ++ [key]))) = keys.map (idIn (mapOf keys)) :=
        List.map_congr_left (fun k hk => idIn_mapOf_concat hk key)
      have hkey : idIn (mapOf (keys ++ [key])) key = (valueOf (mapOf keys) key).id := by
        rw [mapOf_concat]
        exact (KeepsIds.refl _).idIn_eq
      refine ⟨names', ?_⟩
      rw [List.map_append, List.map_singleton, hkeys, hkey, mapOf_concat]
      exact hnames'

section Bijection
variable {keys : List Bytes} (hsize : keys.dedup.length < 2 ^ 32)
include hsize

/-- The ids of the keys are `1` to the size of the map. -/
theorem id_mem_range {k : Bytes} {v : UniVal} (hv : (mapOf keys).lookup k = some v) :
    1 ≤ v.id.toNat ∧ v.id.toNat ≤ (mapOf keys).size := by
  rw [← size_mapOf] at hsize
  obtain ⟨names, h⟩ := counted_mapOf keys hsize
  obtain ⟨i, hi, hid⟩ := (h.index.id_iff k v.id).mp (by rw [hv]; rfl)
  have hlt := (List.getElem?_eq_some_iff.mp hi).1
  rw [h.size_eq] at hsize ⊢
  rw [hid, Indexes.toNat_succ hlt hsize]
  omega

/-- An id belongs to one key, since the ids are the positions at which the keys came first. -/
theorem id_injective {k k' : Bytes} {v v' : UniVal} (hv : (mapOf keys).lookup k = some v)
    (hv' : (mapOf keys).lookup k' = some v') (h : v.id = v'.id) : k = k' := by
  rw [← size_mapOf] at hsize
  obtain ⟨names, hc⟩ := counted_mapOf keys hsize
  refine hc.index.injective (hc.size_eq ▸ hsize) (n := v.id) (by rw [hv]; rfl) ?_
  rw [hv', h]
  rfl

/-- Each number up to the size of the map is an id, since the ids count the words as they come. -/
theorem exists_id {n : Nat} (hn : 1 ≤ n) (hle : n ≤ (mapOf keys).size) :
    ∃ k v, (mapOf keys).lookup k = some v ∧ v.id.toNat = n := by
  rw [← size_mapOf] at hsize
  obtain ⟨names, h⟩ := counted_mapOf keys hsize
  rw [h.size_eq] at hle hsize
  have hlt : n - 1 < names.length := by omega
  have hid := (h.index.id_iff names[n - 1] (UInt32.ofNat (n - 1 + 1))).mpr
    ⟨n - 1, List.getElem?_eq_getElem hlt, rfl⟩
  obtain ⟨v, hv, hvid⟩ := Option.map_eq_some_iff.mp hid
  refine ⟨_, v, hv, ?_⟩
  rw [hvid, Indexes.toNat_succ hlt hsize]
  omega

/-- So the ids of two counted keys differ as the keys do. -/
theorem idIn_eq_iff {k k' : Bytes} (hk : k ∈ keys) (hk' : k' ∈ keys) :
    idIn (mapOf keys) k = idIn (mapOf keys) k' ↔ k = k' := by
  obtain ⟨v, hv, hid⟩ := lookup_mapOf hk
  obtain ⟨v', hv', hid'⟩ := lookup_mapOf hk'
  refine ⟨fun heq => id_injective hsize hv hv' ?_, fun heq => heq ▸ rfl⟩
  rw [hid, hid', heq]

/-- An id is listed as often as its key. -/
theorem count_map_idIn {k : Bytes} (hk : k ∈ keys) :
    (keys.map (idIn (mapOf keys))).count (idIn (mapOf keys) k) = keys.count k := by
  rw [List.count, List.countP_map, List.count]
  refine List.countP_congr (fun k' hk' => ?_)
  simp only [Function.comp_apply, beq_iff_eq]
  exact idIn_eq_iff hsize hk' hk

/-- The weight of a word is the number of its occurrences, if that is a number in 32 bits. No
other word has its id. -/
theorem weight_toNat (hcount : ∀ k, keys.count k < 2 ^ 32) {k : Bytes} {v : UniVal}
    (hv : (mapOf keys).lookup k = some v) :
    v.weight.toNat = (keys.map (idIn (mapOf keys))).count v.id := by
  have hk : k ∈ keys := (isSome_mapOf keys k).mp (by rw [hv]; rfl)
  obtain ⟨v', hv', hid⟩ := lookup_mapOf hk
  have heq : v = v' := Option.some.inj (hv.symm.trans hv')
  subst heq
  have hsize' := hsize
  rw [← size_mapOf] at hsize'
  obtain ⟨names, h⟩ := counted_mapOf keys hsize'
  rw [h.weight k v hv, occurrences, hid, count_map_idIn hsize hk, UInt32.toNat_ofNat',
    Nat.mod_eq_of_lt (hcount k)]

end Bijection

/-! ### The calls of `update` -/

section Updates
variable (lib : Baalbek) (docs : List (List Word))

/-- The map after some documents is that of the keys they were accepted with. -/
theorem updates_mapOf :
    (updates lib noCounts docs).map = mapOf (docs.flatMap (acceptedKeys lib)) :=
  updates_map lib docs noCounts

/-- The marks between documents have no words. -/
theorem flatten_corpusOf (framed : List (List Phrase)) :
    (corpusOf framed).flatten = framed.flatten.flatten := by
  induction framed with
  | nil => rfl
  | cons doc framed ih =>
      have hcons : corpusOf (doc :: framed) = doc ++ [[]] ++ corpusOf framed := rfl
      rw [hcons, List.flatten_append, ih]
      simp

/-- The phrases of a document have the ids of its accepted words, in order. -/
theorem flatten_framedDoc (map : FlatHashMap Bytes UniVal) (doci : List Word) :
    (framedDoc lib map doci).flatten = (acceptedKeys lib doci).map (idIn map) := by
  have hphrase : framedDoc lib map doci
      = (acceptedRuns doci).map
          (List.map (fun w => idIn map (UnigramCounts.wordKey lib w))) := rfl
  rw [hphrase, ← List.map_flatten, acceptedRuns, flatten_runsBetween, acceptedKeys, List.map_map]
  rfl

/-- The framed documents have an id for each accepted key, in order. Empty phrases and documents
are left out, and they have no ids. -/
theorem flatten_framedDocs (map : FlatHashMap Bytes UniVal) :
    (framedDocs lib map docs).flatten.flatten
      = (docs.flatMap (acceptedKeys lib)).map (idIn map) := by
  unfold framedDocs
  induction docs with
  | nil => rfl
  | cons doci docs ih =>
      rw [List.flatMap_cons, List.map_append, ← ih]
      cases h : accepts doci with
      | true =>
          rw [List.filter_cons_of_pos h, List.map_cons, List.flatten_cons, List.flatten_append,
            flatten_framedDoc]
      | false =>
          -- No key is accepted.
          have hnone : acceptedKeys lib doci = [] := by
            rw [acceptedKeys, List.filter_eq_nil_iff.mpr (fun w hw => List.any_eq_false.mp h w hw)]
            rfl
          rw [List.filter_cons_of_neg (by simp [h]), hnone]
          rfl

/-- The ids on `corpus.bin` are those of the accepted words, in order. -/
theorem updates_flatten :
    (updates lib noCounts docs).bufferedOut.flatten
      = (docs.flatMap (acceptedKeys lib)).map (idIn (updates lib noCounts docs).map) := by
  rw [updates_out lib (updates lib noCounts docs).map docs noCounts (KeepsIds.refl _),
    show noCounts.bufferedOut = [] from rfl, List.nil_append, flatten_corpusOf,
    flatten_framedDocs]

end Updates

/-! ### `lemmatize` -/

section InRange
variable {lib : Baalbek} {n : Nat}

/-- Images of words whose entries are in range: the iterator may run past its end, but no index
is out of range. -/
theorem applyImages_avoids (doci : List (List Bytes)) :
    ∀ (ids : List UInt32) (lm : Lemmer), (∀ id ∈ ids, (id - 1).toNat < n) → lm.lems.length = n →
      Avoids Error.outOfRange (fun lm' : Lemmer => lm'.lems.length = n)
        (lm.applyImages doci ids) := by
  induction doci with
  | nil => exact fun ids lm _ hlen => hlen
  | cons w doci ih =>
      intro ids lm hids hlen
      cases ids with
      | nil => exact fun h => (nomatch h)
      | cons id ids =>
          rw [Lemmer.applyImages]
          simp only
          rw [if_pos (by rw [hlen]; exact hids id List.mem_cons_self)]
          exact ih ids _ (fun i hi => hids i (List.mem_cons_of_mem id hi))
            (by rw [List.length_set, hlen])

/-- The table has its length, and the pending ids are in range. -/
def InRange (n : Nat) (st : LemmatizeState) : Prop :=
  st.lm.lems.length = n ∧ ∀ id ∈ st.ids, (id - 1).toNat < n

/-- A batch of results is written to rows that exist. The ids of the batch are those of words of
`uni.bin`. -/
theorem applyChunk_avoids (lib : Baalbek) {st : LemmatizeState} (h : InRange n st) :
    Avoids Error.outOfRange (InRange n) (applyChunk lib st) := by
  have himages := applyImages_avoids (lib.makeDocumentImage st.corpus) st.ids st.lm h.2 h.1
  unfold applyChunk
  cases hres : st.lm.applyImages (lib.makeDocumentImage st.corpus) st.ids with
  | error e =>
      rw [hres] at himages
      exact himages
  | ok lm =>
      rw [hres] at himages
      exact ⟨himages, h.2⟩

/-- So is one word: its row is there, as the table has a row for each id of `uni.bin`. The ids of
the batch are such ids. -/
theorem lemmatizeWord_avoids (lib : Baalbek) {st : LemmatizeState} {m : Unigram}
    (hm : (m.id - 1).toNat < n) (h : InRange n st) :
    Avoids Error.outOfRange (InRange n) (lemmatizeWord lib st m) := by
  have hjoined : InRange n
      { st with corpus := st.corpus ++ m.str ++ [32], ids := st.ids ++ [m.id] } := by
    refine ⟨h.1, fun id hid => ?_⟩
    rcases List.mem_append.mp hid with hid | hid
    · exact h.2 id hid
    · rw [List.mem_singleton.mp hid]
      exact hm
  have hchunk := applyChunk_avoids lib hjoined
  unfold lemmatizeWord
  simp only
  by_cases hfull : st.i % 10000 = 0
  · rw [if_pos hfull]
    cases hres : applyChunk lib
        { st with corpus := st.corpus ++ m.str ++ [32], ids := st.ids ++ [m.id] } with
    | error e =>
        rw [hres] at hchunk
        exact hchunk
    | ok st' =>
        rw [hres] at hchunk
        exact ⟨hchunk.1, fun id hid => absurd hid List.not_mem_nil⟩
  · rw [if_neg hfull]
    exact hjoined

/-- When the ids of the words are positions of the table, no index is out of range, whatever the
library returns. -/
theorem buildLemmer_inRange (lib : Baalbek) {uni : RecordFile Unigram}
    (h : ∀ m ∈ uni.msgs, (m.id - 1).toNat < readTotal uni) :
    buildLemmer lib uni ≠ .error .outOfRange := by
  have hstart : InRange (readTotal uni)
      { lm := { lems := List.replicate (readTotal uni) [], lemid := ∅ }
        corpus := []
        ids := []
        i := 1 } :=
    ⟨List.length_replicate, fun id hid => absurd hid List.not_mem_nil⟩
  have hrun : Avoids Error.outOfRange (InRange (readTotal uni))
      (uni.msgs.foldlM (lemmatizeWord lib) _) :=
    foldlM_avoids uni.msgs _ (fun m hm st hst => lemmatizeWord_avoids lib (h m hm) hst) hstart
  unfold buildLemmer
  rw [readApply_eq]
  generalize uni.msgs.foldlM (lemmatizeWord lib) _ = res at hrun ⊢
  cases res with
  | error e => exact fun heq => hrun (Except.error.inj heq)
  | ok st =>
      have hchunk := applyChunk_avoids lib hrun
      simp only
      cases hres : applyChunk lib st with
      | error e =>
          rw [hres] at hchunk
          exact fun heq => hchunk (Except.error.inj heq)
      | ok st' => exact fun heq => (nomatch heq)

end InRange

/-! ### The files -/

/-- The counts of the accepted words `keys`, and the phrases written for them: the ids are `1` to
the size of the map, one for each word, the phrases have the ids of the words, and a weight is
the number of times its id is written. -/
structure UniAgrees (keys : List Bytes) (counts : UnigramCounts) : Prop where
  key_iff : ∀ k, (counts.map.lookup k).isSome ↔ k ∈ keys
  range : ∀ k v, counts.map.lookup k = some v → 1 ≤ v.id.toNat ∧ v.id.toNat ≤ counts.map.size
  injective : ∀ k k' v v', counts.map.lookup k = some v → counts.map.lookup k' = some v' →
    v.id = v'.id → k = k'
  surjective : ∀ n, 1 ≤ n → n ≤ counts.map.size →
    ∃ k v, counts.map.lookup k = some v ∧ v.id.toNat = n
  written : counts.bufferedOut.flatten = keys.map (idIn counts.map)
  same_id : ∀ k ∈ keys, ∀ k' ∈ keys, idIn counts.map k = idIn counts.map k' ↔ k = k'
  known : ∀ id ∈ counts.bufferedOut.flatten, ∃ k v, counts.map.lookup k = some v ∧ v.id = id
  weight : ∀ k v, counts.map.lookup k = some v →
    v.weight.toNat = counts.bufferedOut.flatten.count v.id

/-- The map agrees with the phrases that were written: it has the accepted keys, each with its
count, and with an id from `1` on in the order of the first occurrences. -/
theorem uniAgrees_updates (lib : Baalbek) (docs : List (List Word))
    (hsize : (docs.flatMap (acceptedKeys lib)).dedup.length < 2 ^ 32)
    (hcount : ∀ k, (docs.flatMap (acceptedKeys lib)).count k < 2 ^ 32) :
    UniAgrees (docs.flatMap (acceptedKeys lib)) (updates lib noCounts docs) := by
  have hmap := updates_mapOf lib docs
  have hflat := updates_flatten lib docs
  refine ⟨?_, ?_, ?_, ?_, hflat, ?_, fun id hid => ?_, fun k v hv => ?_⟩
  · rw [hmap]
    exact isSome_mapOf _
  · rw [hmap]
    exact fun k v hv => id_mem_range hsize hv
  · rw [hmap]
    exact fun k k' v v' hv hv' heq => id_injective hsize hv hv' heq
  · rw [hmap]
    exact fun n hn hle => exists_id hsize hn hle
  · rw [hmap]
    exact fun k hk k' hk' => idIn_eq_iff hsize hk hk'
  · rw [hflat, hmap] at hid
    obtain ⟨k, hk, rfl⟩ := List.mem_map.mp hid
    obtain ⟨v, hv, hvid⟩ := lookup_mapOf hk
    rw [hmap]
    exact ⟨k, v, hv, hvid⟩
  · rw [hmap] at hv
    rw [hflat, hmap]
    exact weight_toNat hsize hcount hv

/-- `uni.bin` agrees with `corpus.bin` after any documents with less than `2 ^ 32` distinct words
and less than `2 ^ 32` occurrences of each. No word loses its id on the way. The header of
`uni.bin` holds the largest id, so `lemmatize` stays in its table. -/
theorem updates_agree (std : Stdlib) (lib : Baalbek) (docs : List (List Word))
    (hsize : (docs.flatMap (acceptedKeys lib)).dedup.length < 2 ^ 32)
    (hcount : ∀ k, (docs.flatMap (acceptedKeys lib)).count k < 2 ^ 32) :
    UniAgrees (docs.flatMap (acceptedKeys lib)) (updates lib noCounts docs) ∧
      (∀ before after, docs = before ++ after →
        KeepsIds (updates lib noCounts before).map (updates lib noCounts docs).map) ∧
      (∀ m ∈ (saveUni std (updates lib noCounts docs)).msgs,
        m.id.toNat ≤ readTotal (saveUni std (updates lib noCounts docs))) ∧
      (0 < readTotal (saveUni std (updates lib noCounts docs)) →
        ∃ m ∈ (saveUni std (updates lib noCounts docs)).msgs,
          m.id.toNat = readTotal (saveUni std (updates lib noCounts docs))) ∧
      ∀ lib', buildLemmer lib' (saveUni std (updates lib noCounts docs)) ≠ .error .outOfRange := by
  have hagrees := uniAgrees_updates lib docs hsize hcount
  have hle : ∀ m ∈ (saveUni std (updates lib noCounts docs)).msgs,
      1 ≤ m.id.toNat ∧ m.id.toNat ≤ readTotal (saveUni std (updates lib noCounts docs)) :=
    fun m hm => hagrees.range m.str _ ((mem_saveUni std _ m).mp hm)
  refine ⟨hagrees, fun before after hdocs => ?_, fun m hm => (hle m hm).2, fun hpos => ?_,
    fun lib' => ?_⟩
  · rw [hdocs, updates, updates, List.foldl_append]
    show KeepsIds _ (updates lib _ after).map
    rw [updates_map]
    exact KeepsIds.foldl_bumped _ _
  · obtain ⟨k, v, hv, hid⟩ := hagrees.surjective _ hpos (Nat.le_refl _)
    exact ⟨⟨k, v.id, v.weight⟩, (mem_saveUni std _ _).mpr hv, hid⟩
  · refine buildLemmer_inRange lib' (fun m hm => ?_)
    obtain ⟨hone, htotal⟩ := hle m hm
    have hle : (1 : UInt32) ≤ m.id := UInt32.le_iff_toNat_le.mpr hone
    rw [UInt32.toNat_sub_of_le _ _ hle]
    exact Nat.lt_of_lt_of_le (Nat.sub_lt hone Nat.one_pos) htotal

/-- A library with the small letters and the UTF-8 bytes of the Russian alphabet. -/
def russianLib : Baalbek :=
  { oneWordLib with
      strtolower := fun s => s.map (fun wc =>
        if wc < 1040 then wc + 80 else if wc < 1072 then wc + 32 else wc)
      widetombcs := fun s => s.flatMap (fun wc =>
        [UInt8.ofNat (192 + wc / 64), UInt8.ofNat (128 + wc % 64)]) }

/-- Two documents with a word in capital and in small letters, another word and a full stop. -/
def twoTexts : List (List Word) :=
  [[⟨false, [1044, 1072]⟩, ⟨true, [46]⟩, ⟨false, [1085, 1077]⟩], [⟨false, [1076, 1072]⟩]]

/-- Two texts, of which the second has a word of the first. -/
theorem updates_agree_twoTexts :
    UniAgrees (twoTexts.flatMap (acceptedKeys russianLib)) (updates russianLib noCounts twoTexts) ∧
      (updates russianLib noCounts twoTexts).bufferedOut = [[1], [2], [], [1], []] := by
  refine ⟨(updates_agree Stdlib.sorting russianLib twoTexts (by decide) (fun k => ?_)).1, by decide⟩
  have hlen : (twoTexts.flatMap (acceptedKeys russianLib)).length = 3 := by decide
  have hle := List.count_le_length (a := k) (l := twoTexts.flatMap (acceptedKeys russianLib))
  omega

end Colloc.Proofs

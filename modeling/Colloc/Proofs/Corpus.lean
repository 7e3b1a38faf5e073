import Colloc.Lib.Index
import Colloc.Proofs.Convert
import Colloc.Proofs.GramStat

/-!
# `Colloc.Proofs.Corpus`: what `convert` writes

`corpus.bin` is a sequence of closed documents (`corpusOf`), none of its other phrases is
empty, and `uni.bin` lists exactly its words: their ids are distinct, and the weight of a word
is the number of its occurrences, modulo `2 ^ 32` (`convert_spec`).

`Counted` is the invariant of the map of `UnigramCounts` over the words seen so far. It holds
while the map is smaller than `2 ^ 32`, since the ids are numbers in 32 bits. `Reading` adds
the phrases of the open document, and `Written` is what is left at its end.
-/

set_option autoImplicit false

namespace Colloc.Proofs

open Colloc.Lib
open Colloc.Spec

/-- The corpus of closed documents: their phrases, and an empty phrase behind each. -/
def corpusOf (docs : List (List Phrase)) : List Phrase := docs.flatMap (fun doc => doc ++ [[]])

/-- A document more is its phrases and the empty phrase behind them. -/
theorem corpusOf_append (docs : List (List Phrase)) (doc : List Phrase) :
    corpusOf (docs ++ [doc]) = corpusOf docs ++ (doc ++ [[]]) := by
  simp [corpusOf]

/-- Each document has one end: the empty phrase is written behind it, and no phrase in it is
empty. -/
theorem count_corpusOf {docs : List (List Phrase)} (h : ∀ doc ∈ docs, ∀ ids ∈ doc, ids ≠ []) :
    (corpusOf docs).count [] = docs.length := by
  induction docs with
  | nil => rfl
  | cons doc docs ih =>
      -- The phrases of a document are not empty.
      have hdoc : doc.count [] = 0 :=
        List.count_eq_zero.mpr (fun hmem => h doc List.mem_cons_self [] hmem rfl)
      have hcons : corpusOf (doc :: docs) = (doc ++ [[]]) ++ corpusOf docs := rfl
      rw [hcons, List.count_append, List.count_append, hdoc, List.count_singleton_self,
        ih (fun doc' hdoc' => h doc' (List.mem_cons_of_mem doc hdoc')), List.length_cons]
      omega

section Size
variable {κ ν : Type} [DecidableEq κ]

/-- The size of a map is the number of its keys, in any list of them. -/
theorem size_eq_length {m : FlatHashMap κ ν} {keys : List κ} (hnd : keys.Nodup)
    (h : ∀ k, (m.lookup k).isSome ↔ k ∈ keys) : m.size = keys.length := by
  -- Both lists of keys are free of duplicates and have the same elements.
  have hperm : m.keys.Perm keys := by
    refine (List.perm_ext_iff_of_nodup m.keys_nodup hnd).mpr (fun k => ?_)
    rw [← h k, AList.lookup_isSome]
    exact AList.mem_keys
  have hlen : m.keys.length = m.size := List.length_map _
  rw [← hlen, hperm.length_eq]

/-- An insertion never makes a map smaller. -/
theorem size_le_insert (m : FlatHashMap κ ν) (k : κ) (v : ν) :
    m.size ≤ FlatHashMap.size (m.insert k v) := by
  have hsub : m.keys ⊆ (m.insert k v).keys := by
    intro k' hk'
    rw [← AList.mem_keys] at hk' ⊢
    exact (AList.mem_insert m).mpr (Or.inr hk')
  have hlen := (List.subperm_of_subset m.keys_nodup hsub).length_le
  have hkeys : ∀ m' : FlatHashMap κ ν, m'.keys.length = m'.size := fun _ => List.length_map _
  rwa [hkeys, hkeys] at hlen

end Size

section Ids
variable {κ ν : Type} [DecidableEq κ] {names : List κ} {m : FlatHashMap κ ν}

/-- The ids of the entries of a map that numbers its keys are distinct, as its keys are and no two
of them share an id. -/
theorem nodup_iter_ids (id : ν → UInt32) (h : Indexes names (fun k => (m.lookup k).map id))
    (hlen : names.length < 2 ^ 32) (std : Stdlib) :
    ((m.iter std).map (fun el => id el.2)).Nodup := by
  have hkeys := List.pairwise_map.mp (FlatHashMap.nodup_iter_keys std m)
  refine List.pairwise_map.mpr (hkeys.imp_of_mem (fun {a b} ha hb hne heq => hne ?_))
  refine h.injective hlen (n := id a.2) ?_ ?_
  · rw [(FlatHashMap.mem_iter std m a.1 a.2).mp ha]
    rfl
  · rw [(FlatHashMap.mem_iter std m b.1 b.2).mp hb, heq]
    rfl

end Ids

/-! ### The map -/

/-- The map numbers the words in the order in which they came, and counts the ids `ws`. -/
structure Counted (names : List Bytes) (ws : List UInt32) (map : FlatHashMap Bytes UniVal) :
    Prop where
  index : Indexes names (fun k => (map.lookup k).map UniVal.id)
  weight : ∀ k v, map.lookup k = some v → v.weight = occurrences ws v.id
  occurs : ∀ k v, map.lookup k = some v → v.id ∈ ws
  known : ∀ w ∈ ws, ∃ k v, map.lookup k = some v ∧ v.id = w

/-- The map has as many keys as there are names. -/
theorem Counted.size_eq {names : List Bytes} {ws : List UInt32} {map : FlatHashMap Bytes UniVal}
    (h : Counted names ws map) : map.size = names.length := by
  refine size_eq_length h.index.nodup (fun k => ?_)
  rw [← h.index.isSome_iff, Option.isSome_map]

/-- One more occurrence of its last element. -/
theorem occurrences_concat_self (ws : List UInt32) (w : UInt32) :
    occurrences (ws ++ [w]) w = occurrences ws w + 1 := by
  unfold occurrences
  rw [List.count_append, List.count_singleton_self, UInt32.ofNat_add]
  rfl

/-- A word more does not count for the other words. -/
theorem occurrences_concat_ne {ws : List UInt32} {w w' : UInt32} (h : w' ≠ w) :
    occurrences (ws ++ [w]) w' = occurrences ws w' := by
  unfold occurrences
  have hzero : [w].count w' = 0 := List.count_eq_zero.mpr (by simpa using h)
  rw [List.count_append, hzero, Nat.add_zero]

/-- The value of a word before its count goes up. -/
def valueOf (map : FlatHashMap Bytes UniVal) (key : Bytes) : UniVal :=
  match map.lookup key with
  | some value => value
  | none => { id := UInt32.ofNat (map.size + 1), weight := 0 }

/-- The map after an accepted word. -/
def bumped (map : FlatHashMap Bytes UniVal) (key : Bytes) : FlatHashMap Bytes UniVal :=
  map.insert key { valueOf map key with weight := (valueOf map key).weight + 1 }

/-- An occurrence adds one to its own key and leaves the others alone. -/
theorem lookup_bumped (map : FlatHashMap Bytes UniVal) (key k : Bytes) :
    (bumped map key).lookup k
      = if k = key then some { valueOf map key with weight := (valueOf map key).weight + 1 }
        else map.lookup k := by
  unfold bumped
  by_cases h : k = key
  · rw [if_pos h, h, AList.lookup_insert]
  · rw [if_neg h, AList.lookup_insert_ne h]

/-- The names after an accepted word: a new one is the last. The id of a new word is the size of
the map with it, and a known word keeps its id. -/
theorem Counted.index_bumped {names : List Bytes} {ws : List UInt32}
    {map : FlatHashMap Bytes UniVal} (h : Counted names ws map) (key : Bytes) :
    ∃ names', Indexes names' (fun k => ((bumped map key).lookup k).map UniVal.id) := by
  refine h.index.emplace (a := key) ?_ (fun k hk => ?_)
  · show ((bumped map key).lookup key).map UniVal.id
      = some (((map.lookup key).map UniVal.id).getD _)
    rw [lookup_bumped, if_pos rfl]
    cases hkey : map.lookup key with
    | some value => simp [valueOf, hkey]
    | none => simp [valueOf, hkey, h.size_eq]
  · show ((bumped map key).lookup k).map UniVal.id = _
    rw [lookup_bumped, if_neg hk]

/-- Another word has another id than the accepted one, so only the weight of the latter is of its
occurrences. -/
theorem id_ne_of_bumped {names' : List Bytes} {map : FlatHashMap Bytes UniVal} {key : Bytes}
    (hindex : Indexes names' (fun k => ((bumped map key).lookup k).map UniVal.id))
    (hlen : names'.length < 2 ^ 32) {k : Bytes} {v : UniVal} (hk : k ≠ key)
    (hv : map.lookup k = some v) : v.id ≠ (valueOf map key).id := by
  intro heq
  refine hk (hindex.injective hlen (n := v.id) ?_ ?_)
  · rw [lookup_bumped, if_neg hk, hv]
    rfl
  · rw [lookup_bumped, if_pos rfl, heq]
    rfl

/-- The count of a word so far is the number of its occurrences, which is zero for a new one: no
other word has its id. -/
theorem Counted.weight_valueOf {names : List Bytes} {ws : List UInt32}
    {map : FlatHashMap Bytes UniVal} (h : Counted names ws map) {key : Bytes}
    (hother : ∀ k v, k ≠ key → map.lookup k = some v → v.id ≠ (valueOf map key).id) :
    (valueOf map key).weight = occurrences ws (valueOf map key).id := by
  cases hkey : map.lookup key with
  | some value =>
      have hv : valueOf map key = value := by simp [valueOf, hkey]
      rw [hv]
      exact h.weight key value hkey
  | none =>
      have hfresh : (valueOf map key).id ∉ ws := by
        intro hmem
        obtain ⟨k, v, hv, hid⟩ := h.known _ hmem
        refine hother k v (fun hk => ?_) hv hid
        rw [hk, hkey] at hv
        cases hv
      have hzero : (valueOf map key).weight = 0 := by simp [valueOf, hkey]
      rw [hzero, occurrences, List.count_eq_zero.mpr hfresh]
      rfl

/-- An accepted word keeps the invariant. The map has at most one word more, so the ids of its
words still differ, and only the count of this word goes up. -/
theorem Counted.bumped {names : List Bytes} {ws : List UInt32} {map : FlatHashMap Bytes UniVal}
    (h : Counted names ws map) (key : Bytes) (hsize : (bumped map key).size < 2 ^ 32) :
    ∃ names', Counted names' (ws ++ [(valueOf map key).id]) (bumped map key) := by
  obtain ⟨names', hindex⟩ := h.index_bumped key
  -- The ids of the new map do not wrap either.
  have hlen : names'.length < 2 ^ 32 := by
    rw [← size_eq_length hindex.nodup (m := Proofs.bumped map key)
      (fun k => by rw [← hindex.isSome_iff, Option.isSome_map])]
    exact hsize
  have hself := lookup_bumped map key key
  rw [if_pos rfl] at hself
  have hother : ∀ k v, k ≠ key → map.lookup k = some v → v.id ≠ (valueOf map key).id :=
    fun k v hk hv => id_ne_of_bumped hindex hlen hk hv
  have hweight := h.weight_valueOf hother
  refine ⟨names', hindex, fun k v hv => ?_, fun k v hv => ?_, fun w hw => ?_⟩
  · rw [lookup_bumped] at hv
    by_cases hk : k = key
    · rw [if_pos hk] at hv
      rw [← Option.some.inj hv]
      show (valueOf map key).weight + 1 = _
      rw [occurrences_concat_self, hweight]
    · rw [if_neg hk] at hv
      rw [occurrences_concat_ne (hother k v hk hv)]
      exact h.weight k v hv
  · rw [lookup_bumped] at hv
    by_cases hk : k = key
    · rw [if_pos hk] at hv
      rw [← Option.some.inj hv]
      simp
    · rw [if_neg hk] at hv
      exact List.mem_append_left _ (h.occurs k v hv)
  · rcases List.mem_append.mp hw with hw | hw
    · obtain ⟨k, v, hv, rfl⟩ := h.known w hw
      by_cases hk : k = key
      · refine ⟨key, _, hself, ?_⟩
        rw [hk] at hv
        simp [valueOf, hv]
      · exact ⟨k, v, by rw [lookup_bumped, if_neg hk]; exact hv, rfl⟩
    · exact ⟨key, _, hself, (List.mem_singleton.mp hw).symm⟩

/-! ### A document -/

section Update
variable (lib : Baalbek)

/-- `update_word` on a word that it takes: the id, and one occurrence more. -/
theorem updateWord_accepts {w : Word} (h : UnigramCounts.rejects w = false)
    (counts : UnigramCounts) :
    counts.updateWord lib w = (some (valueOf counts.map (UnigramCounts.wordKey lib w)).id,
      { counts with map := bumped counts.map (UnigramCounts.wordKey lib w) }) := by
  unfold UnigramCounts.updateWord
  rw [h]
  rfl

/-- `update_word` on a word that it does not take changes nothing. -/
theorem updateWord_rejects {w : Word} (h : UnigramCounts.rejects w = true)
    (counts : UnigramCounts) : counts.updateWord lib w = (none, counts) := by
  unfold UnigramCounts.updateWord
  rw [if_pos h]

/-- The keys of the map satisfy `P`, and below `2 ^ 32` words it counts the ids `ws`. -/
structure MapOk (P : Bytes → Prop) (ws : List UInt32) (map : FlatHashMap Bytes UniVal) :
    Prop where
  keys : ∀ k, (map.lookup k).isSome → P k
  counted : map.size < 2 ^ 32 → ∃ names, Counted names ws map

/-- An occurrence keeps the invariant of the map, when its key satisfies `P`. The other entries
are as they were. -/
theorem MapOk.bumped {P : Bytes → Prop} {ws : List UInt32} {map : FlatHashMap Bytes UniVal}
    (h : MapOk P ws map) {key : Bytes} (hkey : P key) :
    MapOk P (ws ++ [(valueOf map key).id]) (bumped map key) where
  keys k hk := by
    rw [lookup_bumped] at hk
    by_cases heq : k = key
    · rw [heq]
      exact hkey
    · rw [if_neg heq] at hk
      exact h.keys k hk
  counted hsize := by
    have hle : map.size ≤ (Proofs.bumped map key).size := size_le_insert map key _
    obtain ⟨names, hnames⟩ := h.counted (by omega)
    exact hnames.bumped key hsize

/-- The state in the word loop of `update`, behind the documents `docs` and the phrases
`phrases` of the open document. -/
structure Reading (P : Bytes → Prop) (docs : List (List Phrase)) (phrases : List Phrase)
    (st : UnigramCounts.UpdateState) : Prop where
  out : st.counts.bufferedOut = corpusOf docs ++ phrases
  phrases_ne : ∀ ids ∈ phrases, ids ≠ []
  empty : st.empty = true ↔ phrases = [] ∧ st.ids = []
  map : MapOk P (st.counts.bufferedOut.flatten ++ st.ids) st.counts.map

/-- The counts after a rejected word or the last one: the pending phrase is written. -/
def flushed (st : UnigramCounts.UpdateState) : UnigramCounts :=
  if st.ids.length > 0 then st.counts.writePhrase st.ids else st.counts

/-- The end of a phrase keeps the invariant of the reading: the ids become a phrase, unless there
are none. -/
theorem Reading.flush {P : Bytes → Prop} {docs : List (List Phrase)} {phrases : List Phrase}
    {st : UnigramCounts.UpdateState} (h : Reading P docs phrases st) :
    ∃ phrases', Reading P docs phrases' { st with counts := flushed st, ids := [] } := by
  unfold flushed
  by_cases hids : st.ids = []
  · refine ⟨phrases, ?_⟩
    have hno : ¬ st.ids.length > 0 := by simp [hids]
    rw [if_neg hno]
    have hmap := h.map
    have hempty := h.empty
    rw [hids] at hmap hempty
    exact ⟨h.out, h.phrases_ne, hempty, hmap⟩
  · refine ⟨phrases ++ [st.ids], ?_⟩
    have hlen : st.ids.length > 0 := List.length_pos_of_ne_nil hids
    rw [if_pos hlen]
    refine ⟨?_, fun ids hmem => ?_, ?_, ?_⟩
    · show st.counts.bufferedOut ++ [st.ids] = _
      rw [h.out, List.append_assoc]
    · rcases List.mem_append.mp hmem with hmem | hmem
      · exact h.phrases_ne ids hmem
      · rw [List.mem_singleton.mp hmem]
        exact hids
    · -- The pending phrase has a word, so both sides are false.
      show st.empty = true ↔ _
      rw [h.empty]
      simp [hids]
    · show MapOk P ((st.counts.bufferedOut ++ [st.ids]).flatten ++ []) st.counts.map
      rw [List.flatten_append, List.append_nil]
      simpa using h.map

/-- One word. A word that is rejected ends the phrase, and an accepted one is counted and becomes
the last word of the open phrase. -/
theorem Reading.step {P : Bytes → Prop} {docs : List (List Phrase)} {phrases : List Phrase}
    {st : UnigramCounts.UpdateState} (h : Reading P docs phrases st) {w : Word}
    (hw : UnigramCounts.rejects w = false → P (UnigramCounts.wordKey lib w)) :
    ∃ phrases', Reading P docs phrases' (UnigramCounts.updateStep lib st w) := by
  unfold UnigramCounts.updateStep
  cases hrej : UnigramCounts.rejects w with
  | true =>
      rw [updateWord_rejects lib hrej]
      exact h.flush
  | false =>
      rw [updateWord_accepts lib hrej]
      refine ⟨phrases, h.out, h.phrases_ne, ?_, ?_⟩
      · simp
      · have hmap := h.map.bumped (hw hrej)
        rw [List.append_assoc] at hmap
        exact hmap

/-- The words of a document: each one is accepted into the open phrase or ends it. The induction
is on the words, with the phrases so far. -/
theorem Reading.run {P : Bytes → Prop} {docs : List (List Phrase)} (doci : List Word)
    (hw : ∀ w ∈ doci, UnigramCounts.rejects w = false → P (UnigramCounts.wordKey lib w)) :
    ∀ (phrases : List Phrase) (st : UnigramCounts.UpdateState), Reading P docs phrases st →
      ∃ phrases', Reading P docs phrases' (doci.foldl (UnigramCounts.updateStep lib) st) := by
  induction doci with
  | nil => exact fun phrases st h => ⟨phrases, h⟩
  | cons w doci ih =>
      intro phrases st h
      obtain ⟨phrases₁, h₁⟩ := h.step lib (hw w List.mem_cons_self)
      exact ih (fun w' hw' => hw w' (List.mem_cons_of_mem w hw')) phrases₁ _ h₁

/-- The counts behind the documents `docs`. -/
structure Written (P : Bytes → Prop) (docs : List (List Phrase)) (counts : UnigramCounts) :
    Prop where
  out : counts.bufferedOut = corpusOf docs
  phrases_ne : ∀ doc ∈ docs, ∀ ids ∈ doc, ids ≠ []
  map : MapOk P counts.bufferedOut.flatten counts.map

/-- The counts at the end of `update`: the pending phrase, and the end of the document. A document
without a word has neither. -/
theorem update_snd (counts : UnigramCounts) (doci : List Word)
    {st : UnigramCounts.UpdateState} (hst : doci.foldl (UnigramCounts.updateStep lib)
      { counts := counts, ids := [], empty := true } = st) :
    (counts.update lib doci).2
      = if st.empty = true then flushed st else (flushed st).writePhrase [] := by
  subst hst
  unfold UnigramCounts.update flushed
  simp only
  cases (doci.foldl (UnigramCounts.updateStep lib)
    { counts := counts, ids := [], empty := true }).empty with
  | true => rfl
  | false => rfl

/-- `update` closes the document, or leaves no trace of it. Its phrases are written while it is
read, and the empty phrase behind them only when some word was accepted. -/
theorem Written.update {P : Bytes → Prop} {docs : List (List Phrase)} {counts : UnigramCounts}
    (h : Written P docs counts) (doci : List Word)
    (hw : ∀ w ∈ doci, UnigramCounts.rejects w = false → P (UnigramCounts.wordKey lib w)) :
    ∃ docs', Written P docs' (counts.update lib doci).2 := by
  -- The document is opened with no phrase.
  have hstart : Reading P docs [] { counts := counts, ids := [], empty := true } := by
    refine ⟨?_, fun ids hids => absurd hids List.not_mem_nil, by simp, ?_⟩
    · rw [List.append_nil]
      exact h.out
    · rw [List.append_nil]
      exact h.map
  obtain ⟨phrases, hrun⟩ := Reading.run lib doci hw [] _ hstart
  rw [update_snd lib counts doci rfl]
  generalize doci.foldl (UnigramCounts.updateStep lib)
    { counts := counts, ids := [], empty := true } = st at hrun ⊢
  obtain ⟨phrases', hend⟩ := hrun.flush
  have hout : (flushed st).bufferedOut = corpusOf docs ++ phrases' := hend.out
  have hmap : MapOk P ((flushed st).bufferedOut.flatten ++ []) (flushed st).map := hend.map
  rw [List.append_nil] at hmap
  by_cases hempty : st.empty = true
  · -- No word was accepted.
    have hnil : phrases' = [] := (hend.empty.mp hempty).1
    rw [hnil, List.append_nil] at hout
    rw [if_pos hempty]
    exact ⟨docs, hout, h.phrases_ne, hmap⟩
  · -- The phrases and the empty one behind them are one more document.
    rw [if_neg hempty]
    refine ⟨docs ++ [phrases'], ?_, fun doc hdoc => ?_, ?_⟩
    · show (flushed st).bufferedOut ++ [[]] = _
      rw [hout, corpusOf_append, List.append_assoc]
    · rcases List.mem_append.mp hdoc with hdoc | hdoc
      · exact h.phrases_ne doc hdoc
      · rw [List.mem_singleton.mp hdoc]
        exact hend.phrases_ne
    · show MapOk P ((flushed st).bufferedOut ++ [[]]).flatten (flushed st).map
      rw [List.flatten_append]
      simpa using hmap

/-- The documents that `convert` reads. The induction is on them, with those that are written so
far. -/
theorem Written.run {P : Bytes → Prop} (buffs : List Bytes)
    (hw : ∀ buff ∈ buffs, ∀ w ∈ lib.wordBreakDocument buff,
      UnigramCounts.rejects w = false → P (UnigramCounts.wordKey lib w)) :
    ∀ (docs : List (List Phrase)) (st : ConvertState), Written P docs st.counts →
      ∃ docs', Written P docs' (buffs.foldl (convertDoc lib) st).counts := by
  induction buffs with
  | nil => exact fun docs st h => ⟨docs, h⟩
  | cons buff buffs ih =>
      intro docs st h
      obtain ⟨docs₁, h₁⟩ := h.update lib (lib.wordBreakDocument buff) (hw buff List.mem_cons_self)
      exact ih (fun b hb => hw b (List.mem_cons_of_mem buff hb)) docs₁ _ h₁

end Update

/-! ### The files -/

/-- `uni.bin` lists the words `ws`: their ids are distinct and are the positions of a table,
and their weights are their numbers of occurrences, modulo `2 ^ 32`. -/
structure ListsWords (uni : RecordFile Unigram) (ws : List UInt32) : Prop where
  nodup : (uni.msgs.map StrIdWeight.id).Nodup
  weight : ∀ m ∈ uni.msgs, m.weight = occurrences ws m.id
  mem_iff : ∀ w, w ∈ uni.msgs.map StrIdWeight.id ↔ w ∈ ws
  index_lt : ∀ m ∈ uni.msgs, (m.id - 1).toNat < uni.msgs.length
  exists_index : ∀ i < uni.msgs.length, ∃ m ∈ uni.msgs, (m.id - 1).toNat = i

/-- `uni.bin` has the entries of the map. -/
theorem mem_saveUni (std : Stdlib) (counts : UnigramCounts) (m : Unigram) :
    m ∈ (saveUni std counts).msgs ↔ counts.map.lookup m.str = some ⟨m.id, m.weight⟩ :=
  FlatHashMap.mem_map_iter std counts.map _ (fun m : Unigram => (m.str, ⟨m.id, m.weight⟩))
    (fun _ => rfl) (fun _ => rfl) m

/-- Each of them once. -/
theorem length_saveUni (std : Stdlib) (counts : UnigramCounts) :
    (saveUni std counts).msgs.length = counts.map.size := by
  show ((counts.map.iter std).map _).length = _
  rw [List.length_map, FlatHashMap.length_iter]

/-- A counted map is saved as the list of its words: each with its id, which no other word has,
and its number of occurrences, and with no gap among the ids. -/
theorem Counted.listsWords {names : List Bytes} {ws : List UInt32} {counts : UnigramCounts}
    (h : Counted names ws counts.map) (hsize : counts.map.size < 2 ^ 32) (std : Stdlib) :
    ListsWords (saveUni std counts) ws := by
  have hlen : names.length < 2 ^ 32 := h.size_eq ▸ hsize
  -- A record of the file is an entry of the map, with the id of its word.
  have hid : ∀ m ∈ (saveUni std counts).msgs,
      (counts.map.lookup m.str).map UniVal.id = some m.id := by
    intro m hm
    rw [(mem_saveUni std counts m).mp hm]
    rfl
  refine ⟨?_, fun m hm => ?_, fun w => ?_, fun m hm => ?_, fun i hi => ?_⟩
  · have hnd := nodup_iter_ids UniVal.id h.index hlen std
    show (((counts.map.iter std).map _).map StrIdWeight.id).Nodup
    rw [List.map_map]
    exact hnd
  · exact h.weight m.str ⟨m.id, m.weight⟩ ((mem_saveUni std counts m).mp hm)
  · constructor
    · intro hw
      obtain ⟨m, hm, rfl⟩ := List.mem_map.mp hw
      exact h.occurs m.str ⟨m.id, m.weight⟩ ((mem_saveUni std counts m).mp hm)
    · intro hw
      obtain ⟨k, v, hv, rfl⟩ := h.known w hw
      exact List.mem_map.mpr ⟨⟨k, v.id, v.weight⟩, (mem_saveUni std counts _).mpr hv, rfl⟩
  · rw [length_saveUni, h.size_eq]
    exact h.index.sub_one_lt hlen (hid m hm)
  · rw [length_saveUni, h.size_eq] at hi
    obtain ⟨k, n, hn, hidx⟩ := h.index.exists_id hlen hi
    obtain ⟨v, hv, hvid⟩ := Option.map_eq_some_iff.mp hn
    refine ⟨⟨k, v.id, v.weight⟩, (mem_saveUni std counts _).mpr hv, ?_⟩
    rw [hvid]
    exact hidx

/-- What `convert` writes: closed documents without other empty phrases, and below `2 ^ 32`
words the list of the words of the corpus. -/
theorem convert_spec (std : Stdlib) (lib : Baalbek) (dcorpus : String)
    (tree : List (DirEntry (List Bytes))) (start limit : Nat) {P : Bytes → Prop}
    (hP : ∀ buff, ∀ w ∈ lib.wordBreakDocument buff,
      UnigramCounts.rejects w = false → P (UnigramCounts.wordKey lib w)) :
    ∃ docs, (convert std lib dcorpus tree start limit).corpus = corpusOf docs ∧
      (∀ doc ∈ docs, ∀ ids ∈ doc, ids ≠ []) ∧
      (∀ m ∈ (convert std lib dcorpus tree start limit).uni.msgs, P m.str) ∧
      ((convert std lib dcorpus tree start limit).uni.msgs.length < 2 ^ 32 →
        ListsWords (convert std lib dcorpus tree start limit).uni
          (convert std lib dcorpus tree start limit).corpus.flatten) := by
  have hconvert : convert std lib dcorpus tree start limit
      = ((readDocs ((listFiles start limit ".zip" dcorpus tree).map Prod.snd)).foldl
          (convertDoc lib) convertStart).save std := by
    rw [← foldl_convertArchive]
    rfl
  -- Nothing is written and the map is empty.
  have hstart : Written P [] convertStart.counts := by
    refine ⟨rfl, fun doc hdoc => absurd hdoc List.not_mem_nil, ⟨fun k hk => ?_, fun _ => ?_⟩⟩
    · cases hk
    · exact ⟨[], Indexes.nil, fun k v hv => (nomatch hv), fun k v hv => (nomatch hv),
        fun w hw => absurd hw List.not_mem_nil⟩
  obtain ⟨docs, hout, hne, hmap⟩ := Written.run lib
    (readDocs ((listFiles start limit ".zip" dcorpus tree).map Prod.snd))
    (fun buff _ => hP buff) [] convertStart hstart
  rw [hconvert]
  refine ⟨docs, hout, hne, fun m hm => ?_, fun hlen => ?_⟩
  · refine hmap.keys m.str ?_
    rw [(mem_saveUni std _ m).mp hm]
    rfl
  · have hsize := hlen
    rw [show (ConvertState.save std _).uni.msgs.length = _ from length_saveUni std _] at hsize
    obtain ⟨names, hnames⟩ := hmap.counted hsize
    exact hnames.listsWords hsize std

end Colloc.Proofs

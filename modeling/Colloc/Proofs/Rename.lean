import Colloc.Proofs.DocTables
import Colloc.Proofs.GroupFile

/-!
# `Colloc.Proofs.Rename`: counts and groups under other ids

Ids are given out in the order of first occurrence, so when the documents are read in another
order, the same words and lemmas get other ids. `Renamed w l` relates two corpora with the
tables of their lemmas: `w` replaces the word ids and `l` the lemma ids, and the documents of
the second corpus are those of the first one, in any order.

What the stages compute follows the ids. The renaming laws are about the windows of a phrase
(`RenamesWindows`), the document counts (`Renamed.docCount`), the weights of lemmas and lemma
tuples (`Renamed.lemWeight`, `Renamed.lidW`) and the scores (`RenamesScore`). `Renamed.groups`
puts them together: the group file over renamed records has the same groups under the new ids,
with the same weights and the same cases in some order.
-/

set_option autoImplicit false

namespace Colloc.Proofs

open Colloc.Lib
open Colloc.Spec

/-! ### Tuples -/

/-- A type of tuples whose ids can be replaced, one by one. -/
class RenameTuple (K : Type) [LemTuple K] where
  rename : (UInt32 → UInt32) → K → K
  toList_rename : ∀ (f : UInt32 → UInt32) (k : K),
    IdTuple.toList (rename f k) = (IdTuple.toList k).map f
  injective : ∀ f : UInt32 → UInt32, Function.Injective f → Function.Injective (rename f)
  combos_rename : ∀ {lems lems' : List (List UInt32)} {w l : UInt32 → UInt32},
    (∀ id : UInt32, combos lems' (w id) = (combos lems id).map l) →
      ∀ k : K, combos lems' (rename w k) = (combos lems k).map (rename l)

export RenameTuple (rename)

instance : RenameTuple UInt32 where
  rename f id := f id
  toList_rename _ _ := rfl
  injective _ hf := hf
  combos_rename h := h

instance {A B : Type} [LemTuple A] [LemTuple B] [RenameTuple A] [RenameTuple B] :
    RenameTuple (A × B) where
  rename f := Prod.map (rename f) (rename f)
  toList_rename f k := by
    show IdTuple.toList (rename f k.1) ++ IdTuple.toList (rename f k.2)
      = (IdTuple.toList k.1 ++ IdTuple.toList k.2).map f
    rw [RenameTuple.toList_rename, RenameTuple.toList_rename, List.map_append]
  injective f hf := (RenameTuple.injective f hf).prodMap (RenameTuple.injective f hf)
  combos_rename h k := by
    rw [combos_prod, combos_prod, List.map_flatMap]
    show (combos _ (rename _ k.1)).flatMap (fun lid1 =>
      (combos _ (rename _ k.2)).map (fun lid2 => (lid1, lid2))) = _
    rw [RenameTuple.combos_rename h, RenameTuple.combos_rename h, List.flatMap_map]
    simp only [List.map_map]
    rfl

/-- The windows of a renamed phrase are the renamed windows. -/
def RenamesWindows {K : Type} [LemTuple K] [RenameTuple K] (windows : Phrase → List K) : Prop :=
  ∀ (f : UInt32 → UInt32) (ids : Phrase), windows (ids.map f) = (windows ids).map (rename f)

/-- The phrase itself is a window over which a renaming goes. -/
theorem renamesWindows_id : RenamesWindows (id : Phrase → List UInt32) := fun _ _ => rfl

/-- The pairs of a renamed phrase are the renamed pairs. -/
theorem renamesWindows_pairs : RenamesWindows pairs := fun f ids => pairs_map f ids

/-- So are the triples. -/
theorem renamesWindows_triples : RenamesWindows triples := fun f ids => triples_map f ids

/-- A record of a renamed tuple. -/
def renameGram {K : Type} [LemTuple K] [RenameTuple K] (f : UInt32 → UInt32) (g : Gram K) :
    Gram K :=
  { g with ids := rename f g.ids }

/-- The maps `lid_w` have the same weights under the new ids, and as many of them. -/
structure RenamedWeights (l : UInt32 → UInt32) (lidW lidW' : FlatHashMap UInt32 ℚ) : Prop where
  lookup : ∀ id, lidW'.lookup (l id) = lidW.lookup id
  size : lidW'.size = lidW.size

/-! ### Corpora -/

/-- The second corpus has the documents of the first one in some order, and the second table
has the lemmas of the first one, with the word ids `w` and the lemma ids `l` in the place of
the old ones. -/
structure Renamed (w l : UInt32 → UInt32) (lems lems' : List (List UInt32))
    (docs docs' : List (List Phrase)) : Prop where
  words : Function.Injective w
  lemmas : Function.Injective l
  docs : docs'.Perm (docs.map (List.map (List.map w)))
  table : ∀ id : UInt32, combos lems' (w id) = (combos lems id).map l

namespace Renamed
variable {w l : UInt32 → UInt32} {lems lems' : List (List UInt32)} {docs docs' : List (List Phrase)}
  (h : Renamed w l lems lems' docs docs')
include h

section Counts
variable {K : Type} [LemTuple K] [RenameTuple K] {windows : Phrase → List K}

/-- The windows of the corpora: those of the renamed documents are the renamed windows, in the
order of the documents. -/
theorem windows_perm (hwin : RenamesWindows windows) :
    ((corpusOf docs').flatMap windows).Perm
      (((corpusOf docs).flatMap windows).map (rename w)) := by
  have hrenamed : corpusOf (docs.map (List.map (List.map w)))
      = (corpusOf docs).map (List.map w) := by
    simp [corpusOf, List.flatMap_map, List.map_flatMap]
  have hperm := (h.docs.flatMap_right (fun doc => doc ++ [[]])).flatMap_right windows
  show ((corpusOf docs').flatMap windows).Perm _
  refine hperm.trans (List.Perm.of_eq ?_)
  show (corpusOf (docs.map (List.map (List.map w)))).flatMap windows = _
  rw [hrenamed, List.flatMap_map, List.map_flatMap]
  exact List.flatMap_congr (fun ids _ => hwin w ids)

/-- A renamed document has the renamed keys: its windows and the combinations of their lemmas are
both renamed. -/
theorem mem_docKeys_rename (hwin : RenamesWindows windows) (doc : List Phrase) (k : K) :
    rename l k ∈ docKeys windows lems' (doc.map (List.map w)) ↔ k ∈ docKeys windows lems doc := by
  have hkeys : docKeys windows lems' (doc.map (List.map w))
      = (docKeys windows lems doc).map (rename l) := by
    unfold docKeys
    rw [List.flatMap_map, List.map_flatMap]
    refine List.flatMap_congr (fun ids _ => ?_)
    rw [hwin, List.flatMap_map, List.map_flatMap]
    exact List.flatMap_congr (fun k' _ => RenameTuple.combos_rename h.table k')
  rw [hkeys, List.mem_map_of_injective (RenameTuple.injective l h.lemmas)]

/-- As many documents have the renamed tuple. -/
theorem docCount [DecidableEq K] (hwin : RenamesWindows windows) (k : K) :
    docCount windows lems' docs' (rename l k) = docCount windows lems docs k := by
  unfold Proofs.docCount
  rw [h.docs.countP_eq, List.countP_map]
  refine List.countP_congr (fun doc _ => ?_)
  simp only [Function.comp_apply, decide_eq_true_eq]
  exact h.mem_docKeys_rename hwin doc k

end Counts

section Weights
variable {K : Type} [LemTuple K] [RenameTuple K] {grams grams' : List (Gram K)}
  (hgrams : grams'.Perm (grams.map (renameGram w)))
include hgrams

/-- The records have as many lemma tuples. -/
theorem sum_length_combos :
    (grams'.map (fun g => (combos lems' g.ids).length)).sum
      = (grams.map (fun g => (combos lems g.ids).length)).sum := by
  rw [(hgrams.map _).sum_eq, List.map_map]
  refine congrArg List.sum (List.map_congr_left (fun g _ => ?_))
  show (combos lems' (rename w g.ids)).length = _
  rw [RenameTuple.combos_rename h.table, List.length_map]

/-- The lemma tuples that arise are the renamed ones. The tuples of a renamed record are the
renamed tuples of the record, in the same order. -/
theorem arises_iff (k : K) : (∃ g ∈ grams', k ∈ combos lems' g.ids) ↔
    ∃ k', (∃ g ∈ grams, k' ∈ combos lems g.ids) ∧ rename l k' = k := by
  constructor
  · rintro ⟨g', hg', hk⟩
    obtain ⟨g, hg, rfl⟩ := List.mem_map.mp (hgrams.mem_iff.mp hg')
    have hcombos : combos lems' (renameGram w g).ids = (combos lems g.ids).map (rename l) :=
      RenameTuple.combos_rename h.table g.ids
    rw [hcombos] at hk
    obtain ⟨k', hk', heq⟩ := List.mem_map.mp hk
    exact ⟨k', ⟨g, hg, hk'⟩, heq⟩
  · rintro ⟨k', ⟨g, hg, hk'⟩, rfl⟩
    refine ⟨renameGram w g, hgrams.mem_iff.mpr (List.mem_map_of_mem hg), ?_⟩
    show rename l k' ∈ combos lems' (rename w g.ids)
    rw [RenameTuple.combos_rename h.table]
    exact List.mem_map_of_mem hk'

variable [DecidableEq K]

omit hgrams in
/-- A lemma tuple comes from a renamed word tuple as often as before the renaming. -/
theorem timesIn_combos (k k' : K) :
    timesIn (combos lems' (rename w k)) (rename l k') = timesIn (combos lems k) k' := by
  rw [RenameTuple.combos_rename h.table, timesIn_map (RenameTuple.injective l h.lemmas)]

/-- A renamed tuple has the same weight. -/
theorem lemWeight (k : K) : lemWeight lems' grams' (rename l k) = lemWeight lems grams k := by
  unfold Proofs.lemWeight
  rw [(hgrams.map _).sum_eq, List.map_map]
  refine congrArg List.sum (List.map_congr_left (fun g _ => ?_))
  show share g.weight (timesIn (combos lems' (rename w g.ids)) (rename l k))
    (combos lems' (rename w g.ids)).length = _
  rw [h.timesIn_combos, RenameTuple.combos_rename h.table, List.length_map]

/-- The cases of a renamed tuple are the renamed cases. Their order may differ, as that of the
records does. -/
theorem casesIn (k : K) : (casesIn lems' grams' (rename l k)).Perm
    ((casesIn lems grams k).map (fun c => { c with wids := rename w c.wids })) := by
  refine (hgrams.flatMap_right _).trans (List.Perm.of_eq ?_)
  unfold Proofs.casesIn casesBy
  rw [List.flatMap_map, List.map_flatMap]
  refine List.flatMap_congr (fun g _ => ?_)
  rw [List.map_replicate]
  show List.replicate (timesIn (combos lems' (rename w g.ids)) (rename l k)) _ = _
  rw [h.timesIn_combos]
  rfl

end Weights

/-- `build_lem_weights` over the renamed words. The keys are the lemmas of the words, and their
weights are the same sums of rationals in another order. -/
theorem lidW {uni uni' : RecordFile Unigram}
    (huni : (uni'.msgs.map unigramOf).Perm ((uni.msgs.map unigramOf).map (renameGram w)))
    (hcov : ∀ m ∈ uni.msgs, Covered lems m.id) (hcov' : ∀ m ∈ uni'.msgs, Covered lems' m.id)
    {lidW lidW' : FlatHashMap UInt32 ℚ} (hok : buildLemWeights uni lems = .ok lidW)
    (hok' : buildLemWeights uni' lems' = .ok lidW') : RenamedWeights l lidW lidW' := by
  have hkeys : ∀ {lems : List (List UInt32)} {uni : RecordFile Unigram}
      {lidW : FlatHashMap UInt32 ℚ}, (∀ m ∈ uni.msgs, Covered lems m.id) →
      buildLemWeights uni lems = .ok lidW → ∀ id, (lidW.lookup id).isSome ↔
        ∃ g ∈ uni.msgs.map unigramOf, id ∈ combos lems g.ids := by
    intro lems uni lidW hcov hok id
    obtain ⟨lidW₁, hok₁, hkeys⟩ := buildLemWeights_ok (R := ℚ) lems hcov
    rw [hok] at hok₁
    rw [Except.ok.inj hok₁, hkeys]
    simp [unigramOf]
  have hiff := fun k => (hkeys hcov' hok' k).trans (h.arises_iff huni k)
  -- The new ids are distinct, so the entries of the two maps correspond.
  have hsome : ∀ id, (lidW'.lookup (l id)).isSome ↔ (lidW.lookup id).isSome := by
    intro id
    rw [hiff, hkeys hcov hok]
    constructor
    · rintro ⟨id', hid', heq⟩
      rwa [← h.lemmas heq]
    · exact fun hid => ⟨id, hid, rfl⟩
  refine ⟨fun id => ?_, ?_⟩
  · have hval : (lidW'.lookup (l id)).getD 0 = (lidW.lookup id).getD 0 := by
      rw [buildLemWeights_getD hcov hok, buildLemWeights_getD hcov' hok']
      exact h.lemWeight huni id
    have hs := hsome id
    cases hl : lidW.lookup id with
    | none =>
        rw [hl] at hs
        cases hl' : lidW'.lookup (l id) with
        | none => rfl
        | some v => rw [hl'] at hs; exact absurd (hs.mp rfl) (by simp)
    | some v =>
        rw [hl] at hs hval
        obtain ⟨v', hv'⟩ := Option.isSome_iff_exists.mp (hs.mpr rfl)
        rw [hv'] at hval ⊢
        exact congrArg some hval
  · have hnd : (lidW.keys.map l).Nodup := lidW.keys_nodup.map h.lemmas
    have hsize := size_eq_length lidW.keys_nodup (m := lidW) (fun k =>
      AList.lookup_isSome.trans AList.mem_keys)
    rw [hsize, size_eq_length hnd (fun k => ?_), List.length_map]
    rw [hiff, List.mem_map]
    refine exists_congr (fun id => and_congr_left (fun _ => ?_))
    rw [← hkeys hcov hok, AList.lookup_isSome, AList.mem_keys]

end Renamed

/-! ### Scores -/

/-- The scores of renamed lemma tuples over renamed weights. -/
def RenamesScore {K : Type} [LemTuple K] [RenameTuple K]
    (score : FlatHashMap UInt32 ℚ → ℚ → ℚ → K → Except Error ℚ) : Prop :=
  ∀ l lidW lidW', RenamedWeights l lidW lidW' → ∀ t x k,
    score lidW' t x (rename l k) = score lidW t x k

section Scores
variable {l : UInt32 → UInt32} {lidW lidW' : FlatHashMap UInt32 ℚ}

/-- A lookup of a renamed lemma ends in the same weight, or in the same error. -/
theorem RenamedWeights.deref (h : RenamedWeights l lidW lidW') (id : UInt32)
    (what : String) : lidW'.deref (l id) what = lidW.deref id what := by
  unfold FlatHashMap.deref
  rw [h.lookup]

/-- The score of a pair is the product of two weights that the renaming keeps. -/
theorem renamesScore2 : RenamesScore score2 := by
  intro l lidW lidW' h t x k
  show score2 lidW' t x (l k.1, l k.2) = _
  unfold score2
  rw [h.deref, h.deref, h.size]

/-- The score of a triple is the product of three of them. -/
theorem renamesScore3 : RenamesScore score3 := by
  intro l lidW lidW' h t x k
  show score3 lidW' t x (l k.1, l k.2.1, l k.2.2) = _
  unfold score3
  rw [h.deref, h.deref, h.deref, h.size]

end Scores

/-! ### Groups -/

/-- What a group says, with its lemmas read by `f` and its words by `g`: the cases are in no
order. -/
def readGroup {K A B : Type} (f : K → A) (g : K → B) (lg : LemGroup K ℚ) :
    A × ℚ × Multiset (B × UInt32) :=
  (f lg.lids, lg.weight, (lg.cases.map (fun c => (g c.wids, c.count)) : List (B × UInt32)))

/-- A group that is read, in words for these words. -/
def rereadGroup {A A' B B' : Type} (f : A → A') (g : B → B') (v : A × ℚ × Multiset (B × UInt32)) :
    A' × ℚ × Multiset (B' × UInt32) :=
  (f v.1, v.2.1, v.2.2.map (Prod.map g id))

section Read
variable {K A B : Type}

/-- Reading the names of a read group again is reading them once, by both functions in turn. -/
theorem rereadGroup_readGroup {A' B' : Type} (f' : A → A') (g' : B → B') (f : K → A) (g : K → B)
    (lg : LemGroup K ℚ) :
    rereadGroup f' g' (readGroup f g lg) = readGroup (f' ∘ f) (g' ∘ g) lg := by
  refine Prod.ext rfl (Prod.ext rfl ?_)
  show Multiset.map (Prod.map g' id)
    ((lg.cases.map (fun c => (g c.wids, c.count)) : List (B × UInt32)) : Multiset (B × UInt32)) = _
  rw [Multiset.map_coe, List.map_map]
  rfl

/-- Only the ids of the group are read. -/
theorem readGroup_congr {f f' : K → A} {g g' : K → B} {lg : LemGroup K ℚ}
    (hf : f lg.lids = f' lg.lids) (hg : ∀ c ∈ lg.cases, g c.wids = g' c.wids) :
    readGroup f g lg = readGroup f' g' lg := by
  refine Prod.ext hf (Prod.ext rfl ?_)
  have hcases : lg.cases.map (fun c => (g c.wids, c.count))
      = lg.cases.map (fun c => (g' c.wids, c.count)) :=
    List.map_congr_left (fun c hc => by rw [hg c hc])
  exact congrArg (fun l : List (B × UInt32) => (l : Multiset (B × UInt32))) hcases

/-- Distinct groups say different things. -/
theorem nodup_readGroup {f : K → A} (hf : Function.Injective f) (g : K → B)
    {out : List (LemGroup K ℚ)} (hnd : (out.map LemGroup.lids).Nodup) :
    (out.map (readGroup f g)).Nodup := by
  refine List.Nodup.of_map Prod.fst ?_
  have hlids : (out.map (readGroup f g)).map Prod.fst = (out.map LemGroup.lids).map f := by
    rw [List.map_map, List.map_map]
    rfl
  rw [hlids]
  exact hnd.map hf

end Read

/-- The groups `out'` are the groups `out` with other ids, in any order. -/
def RenamedGroups {K : Type} [LemTuple K] [RenameTuple K] (w l : UInt32 → UInt32)
    (out out' : List (LemGroup K ℚ)) : Prop :=
  (out'.map (readGroup id id)).Perm (out.map (readGroup (rename l) (rename w)))

section Groups
variable {K : Type} [LemTuple K] [RenameTuple K] [DecidableEq K] {w l : UInt32 → UInt32}
  {lems lems' : List (List UInt32)} {docs docs' : List (List Phrase)}

/-- A group stage over renamed records writes the renamed groups. A group is determined by its
lemmas, so both files are permutations of one list. -/
theorem Renamed.groups (h : Renamed w l lems lems' docs docs')
    {score : FlatHashMap UInt32 ℚ → ℚ → ℚ → K → Except Error ℚ} (hscore : RenamesScore score)
    {lidW lidW' : FlatHashMap UInt32 ℚ} (hW : RenamedWeights l lidW lidW') {t : ℚ}
    {grams grams' : List (Gram K)} (hgrams : grams'.Perm (grams.map (renameGram w)))
    {out out' : List (LemGroup K ℚ)} (hf : GroupFile lems (score lidW t) grams out)
    (hf' : GroupFile lems' (score lidW' t) grams' out') : RenamedGroups w l out out' := by
  have hscore' : ∀ k, score lidW' t (Proofs.lemWeight lems' grams' (rename l k)) (rename l k)
      = score lidW t (Proofs.lemWeight lems grams k) k := by
    intro k
    rw [h.lemWeight hgrams, hscore l lidW lidW' hW]
  -- Groups of the same lemmas have the same weight and the same cases.
  have hsame : ∀ lg ∈ out, ∀ lg' ∈ out', lg'.lids = rename l lg.lids →
      readGroup id id lg' = readGroup (rename l) (rename w) lg := by
    intro lg hlg lg' hlg' hlids
    have hweight := hf'.weight lg' hlg'
    rw [hlids, hscore', hf.weight lg hlg] at hweight
    have hcases := hf'.cases lg' hlg'
    rw [hlids] at hcases
    have hperm := (hcases.trans (h.casesIn hgrams lg.lids)).trans
      ((hf.cases lg hlg).symm.map _)
    refine Prod.ext hlids (Prod.ext (Except.ok.inj hweight).symm ?_)
    refine Multiset.coe_eq_coe.mpr ((hperm.map _).trans (List.Perm.of_eq ?_))
    rw [List.map_map]
    rfl
  refine (List.perm_ext_iff_of_nodup (nodup_readGroup Function.injective_id _
    hf'.ascending.nodup_keys) (nodup_readGroup (RenameTuple.injective l h.lemmas) _
    hf.ascending.nodup_keys)).mpr (fun v => ?_)
  rw [List.mem_map, List.mem_map]
  constructor
  · rintro ⟨lg', hlg', rfl⟩
    obtain ⟨k, hk, hlids⟩ := (h.arises_iff hgrams lg'.lids).mp (hf'.arises lg' hlg')
    have hweight := hf'.weight lg' hlg'
    rw [← hlids, hscore'] at hweight
    obtain ⟨lg, hlg, rfl⟩ := hf.complete k lg'.weight hk hweight (hf'.positive lg' hlg')
    exact ⟨lg, hlg, (hsame lg hlg lg' hlg' hlids.symm).symm⟩
  · rintro ⟨lg, hlg, rfl⟩
    have hk := (h.arises_iff hgrams (rename l lg.lids)).mpr ⟨lg.lids, hf.arises lg hlg, rfl⟩
    obtain ⟨lg', hlg', hlids⟩ := hf'.complete (rename l lg.lids) lg.weight hk
      ((hscore' lg.lids).trans (hf.weight lg hlg)) (hf.positive lg hlg)
    exact ⟨lg', hlg', hsame lg hlg lg' hlg' hlids⟩

end Groups

namespace RenamedGroups
variable {K : Type} [LemTuple K] [RenameTuple K] {w l : UInt32 → UInt32}
  {out out' : List (LemGroup K ℚ)} (h : RenamedGroups w l out out')
include h

/-- The groups in words that do not depend on the ids: read so, both files have the same groups.
-/
theorem read {A B : Type} {f f' : K → A} {g g' : K → B}
    (hf : ∀ lg ∈ out, f' (rename l lg.lids) = f lg.lids)
    (hg : ∀ lg ∈ out, ∀ c ∈ lg.cases, g' (rename w c.wids) = g c.wids) :
    (out'.map (readGroup f' g')).Perm (out.map (readGroup f g)) := by
  have hmap := h.map (rereadGroup f' g')
  rw [List.map_map, List.map_map] at hmap
  have hleft : out'.map (readGroup f' g') = out'.map (rereadGroup f' g' ∘ readGroup id id) :=
    List.map_congr_left (fun lg _ => (rereadGroup_readGroup f' g' id id lg).symm)
  rw [hleft]
  refine hmap.trans (List.Perm.of_eq (List.map_congr_left (fun lg hlg => ?_)))
  refine (rereadGroup_readGroup f' g' (rename l) (rename w) lg).trans
    (readGroup_congr (hf lg hlg) (hg lg hlg))

/-- The recorded tuples are the renamed ones. -/
theorem lids_perm : (out'.map LemGroup.lids).Perm ((out.map LemGroup.lids).map (rename l)) := by
  have hmap := h.map Prod.fst
  rw [List.map_map, List.map_map] at hmap
  rw [List.map_map]
  exact hmap

/-- The order of the groups does not matter. -/
theorem perm {sorted sorted' : List (LemGroup K ℚ)} (hp : sorted.Perm out)
    (hp' : sorted'.Perm out') : RenamedGroups w l sorted sorted' :=
  ((hp'.map _).trans h).trans (hp.symm.map _)

/-- The renamed stage writes as many groups. -/
theorem length_eq : out'.length = out.length := by
  have hlen := List.Perm.length_eq h
  rwa [List.length_map, List.length_map] at hlen

/-- The words of a case are renamed with it, and no other case gets them, as the renaming of the
words is injective. -/
theorem case_iff (hw : Function.Injective w) (p : K) :
    (∃ lg ∈ out', ∃ c ∈ lg.cases, c.wids = rename w p) ↔
      ∃ lg ∈ out, ∃ c ∈ lg.cases, c.wids = p := by
  have hread : ∀ {A : Type} (f : K → A) (g : K → K) (out : List (LemGroup K ℚ)) (q : K),
      (∃ lg ∈ out, ∃ c ∈ lg.cases, g c.wids = q) ↔
        ∃ v ∈ out.map (readGroup f g), ∃ c ∈ v.2.2, c.1 = q := by
    intro A f g out q
    simp [readGroup]
  have hright := hread (rename l) (rename w) out (rename w p)
  have hleft := hread id id out' (rename w p)
  have hperm : ∀ v, v ∈ out'.map (readGroup id id) ↔
      v ∈ out.map (readGroup (rename l) (rename w)) := fun v => List.Perm.mem_iff h
  simp only [hperm] at hleft
  refine hleft.trans (hright.symm.trans ?_)
  simp only [(RenameTuple.injective w hw).eq_iff]

/-- Filters with the same counts keep the same groups. The test looks at the count and the score
of a group, which its renaming does not change. -/
theorem filter [DecidableEq K] {count count' : K → UInt32}
    (hcount : ∀ k, count' (rename l k) = count k) (th1 : UInt32) (th2 : ℚ) :
    RenamedGroups w l (out.filter (aboveBoth count th1 th2))
      (out'.filter (aboveBoth count' th1 th2)) := by
  have hfilter := List.Perm.filter (fun v : K × ℚ × Multiset (K × UInt32) =>
    decide (count' v.1 > th1) && Double.less th2 v.2.1) h
  rw [List.filter_map, List.filter_map] at hfilter
  have hkeep : (fun v : K × ℚ × Multiset (K × UInt32) =>
      decide (count' v.1 > th1) && Double.less th2 v.2.1) ∘ readGroup (rename l) (rename w)
        = aboveBoth count th1 th2 := by
    funext lg
    show (decide (count' (rename l lg.lids) > th1) && Double.less th2 lg.weight) = _
    rw [hcount]
    rfl
  rw [hkeep] at hfilter
  exact hfilter

end RenamedGroups

/-- The frequencies of renamed groups, over renamed documents: a renamed tuple is in as many of
them. -/
theorem Renamed.docTable {K : Type} [LemTuple K] [RenameTuple K] [DecidableEq K]
    {w l : UInt32 → UInt32} {lems lems' : List (List UInt32)} {docs docs' : List (List Phrase)}
    (h : Renamed w l lems lems' docs docs') {windows : Phrase → List K}
    (hwin : RenamesWindows windows) {extended extended' : RecordFile (LemGroup K ℚ)}
    {freq freq' : RecordFile (Gram K)}
    (hgroups : RenamedGroups w l extended.msgs extended'.msgs)
    (htable : DocTable windows lems docs extended freq)
    (htable' : DocTable windows lems' docs' extended' freq') :
    freq'.msgs.Perm (freq.msgs.map (renameGram l)) := by
  refine htable.perm_map (fun _ _ => Gram.ext) (RenameTuple.injective l h.lemmas)
    (fun _ => rfl) (fun _ => rfl) (fun k => ?_) (fun k _ => ?_) htable'
  · rw [recorded, hgroups.lids_perm.mem_iff, List.mem_map]
    rfl
  · rw [h.docCount hwin]

end Colloc.Proofs

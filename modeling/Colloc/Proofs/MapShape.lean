import Colloc.Lib.CorpusParts
import Colloc.Proofs.Published

/-!
# `Colloc.Proofs.MapShape`: the shape of the published map

The map is closed downwards. A collocation stands in no more documents than each of its lemmas, so
when the bounds on the documents are at least that of the lemmas, each lemma of a phrase is a key
of its own (`extract_wellFormed`). A key of a lemma may be that of another phrase, whose value
lies on top. Otherwise the value of the lemma counts no fewer documents than that of the phrase.
-/

set_option autoImplicit false

namespace Colloc.Proofs

open Colloc.Lib
open Colloc.Spec

/-- The value of a phrase with the lemmas `ls`. Its text is that of words that stand side by side in
the corpus and have these lemmas. -/
structure PhraseOf (t : Corpus Bytes Bytes) (stat : TermStat) (ls : List Bytes) (v : ZVal) :
    Prop where
  length : ls.length = 2 ∨ ls.length = 3
  text : ∃ ws ∈ t.grams ls.length, t.Carries ws ls ∧ v.txt = some (joinWords ws)
  lemmas : ∀ l ∈ ls, ∃ v', stat.terms.lookup l = some v' ∧ (v'.txt = none → v.dc ≤ v'.dc)

/-- Every value counts more than two documents and no more than there are. A value without a text
is that of a lemma, and a value with a text that of a phrase. -/
structure WellFormed (t : Corpus Bytes Bytes) (stat : TermStat) : Prop where
  counted : ∀ key v, stat.terms.lookup key = some v → 2 < v.dc ∧ v.dc.toNat ≤ stat.totalCount
  lemmas : ∀ key v, stat.terms.lookup key = some v → v.txt = none → key ∈ t.occurring
  phrases : ∀ key v, stat.terms.lookup key = some v → v.txt ≠ none →
    ∃ ls, ls.flatten = key ∧ PhraseOf t stat ls v

section Entries
variable {t : Corpus Bytes Bytes} {sel : Set (List Bytes)} {b : Bounds} {n : Nat}
  {text : List Bytes → List Bytes} {skip : List Bytes → Bool} {key : Bytes} {v : ZVal}

/-- A phrase is above a bound of at least two documents, so it is in three. -/
theorem phraseEntry_counted (hb : 2 ≤ b.docs) (hv : phraseEntry t sel b n text skip key v) :
    2 < v.dc.toNat ∧ v.dc.toNat ≤ t.docs.length := by
  obtain ⟨ls, -, hstable, -, -, hdc, -⟩ := hv
  have hdocs := hstable.docs
  have hle := t.docFreq_le_length ls
  omega

/-- A lemma is published when it is in more than two documents. -/
theorem lemmaEntry_counted (hv : lemmaEntry t key v) :
    2 < v.dc.toNat ∧ v.dc.toNat ≤ t.docs.length := by
  obtain ⟨-, hmany, hdc, -⟩ := hv
  have hle := t.docFreq_le_length [key]
  omega

/-- A lemma of a collocation is in no fewer documents. -/
theorem docFreq_lemma_le {ls : List Bytes} {l : Bytes} (hl : l ∈ ls) :
    t.docFreq ls ≤ t.docFreq [l] :=
  t.docFreq_le_of_part ((List.singleton_infix_iff l ls).mpr hl) (List.cons_ne_nil l [])

/-- A lemma of a collocation has a value of its own. -/
theorem exists_lemmaEntry (hb : 2 ≤ b.docs) (hfew : t.docs.length < 2 ^ 32) {ls : List Bytes}
    (hstable : t.Stable sel b ls) {l : Bytes} (hl : l ∈ ls) : ∃ v, lemmaEntry t l v := by
  have hdocs := hstable.docs
  have hle : t.docFreq ls ≤ t.docFreq [l] := docFreq_lemma_le hl
  have hlt : t.docFreq [l] < 2 ^ 32 := (t.docFreq_le_length [l]).trans_lt hfew
  refine ⟨⟨UInt32.ofNat (t.docFreq [l]), none⟩, hstable.mem_occurring l hl, by omega, ?_, rfl⟩
  exact UInt32.toNat_ofNat_of_lt' hlt

end Entries

namespace Publishes
variable {lib : Baalbek} {th : Thresholds ℚ} {t : Corpus Bytes Bytes} {stat : TermStat}
  (h : Publishes lib th t stat)

include h

/-- What a value of the map is: that of a lemma, of a pair or of a triple. Which one it is, the
topmost layer decides. -/
theorem value_cases : ∃ bitext tritext, PhraseTexts th t bitext tritext ∧
    ∀ key v, stat.terms.lookup key = some v →
      lemmaEntry t key v ∨ pairEntry lib th t bitext key v ∨ tripleEntry th t tritext key v := by
  obtain ⟨bitext, tritext, htexts, htop⟩ := h.terms
  refine ⟨bitext, tritext, htexts, fun key v hv => ?_⟩
  obtain ⟨layer, hlayer, hmem⟩ := (hv ▸ htop key).exists_layer
  simp only [List.mem_cons, List.not_mem_nil, or_false] at hlayer
  rcases hlayer with rfl | rfl | rfl
  · exact Or.inr (Or.inr hmem)
  · exact Or.inr (Or.inl hmem)
  · exact Or.inl hmem

/-- A value without a text is that of a lemma. -/
theorem lemmaEntry_of_txt {key : Bytes} {v : ZVal} (hv : stat.terms.lookup key = some v)
    (htxt : v.txt = none) : lemmaEntry t key v := by
  obtain ⟨bitext, tritext, -, hcases⟩ := h.value_cases
  rcases hcases key v hv with hl | hp | hp
  · exact hl
  · obtain ⟨ls, -, -, -, -, -, hsome⟩ := hp
    cases htxt.symm.trans hsome
  · obtain ⟨ls, -, -, -, -, -, hsome⟩ := hp
    cases htxt.symm.trans hsome

/-- Such a lemma is a key of the map, under its own entry or one that was written later. -/
theorem isSome_of_lemmaEntry {key : Bytes} {v : ZVal} (hv : lemmaEntry t key v) :
    (stat.terms.lookup key).isSome := by
  obtain ⟨bitext, tritext, -, htop⟩ := h.terms
  exact (htop key).isSome (by simp) hv

/-- The value of a collocation has the shape of one. Its lemmas are in at least as many documents,
so each of them has an entry of its own. -/
theorem phraseOf {sel : Set (List Bytes)} {b : Bounds} {n : Nat} {text : List Bytes → List Bytes}
    {skip : List Bytes → Bool} {key : Bytes} {v : ZVal} (hb : 2 ≤ b.docs) (hn : n = 2 ∨ n = 3)
    (hfew : t.docs.length < 2 ^ 32) (htext : IsText t sel b n text)
    (hv : phraseEntry t sel b n text skip key v) :
    ∃ ls, ls.flatten = key ∧ PhraseOf t stat ls v := by
  obtain ⟨ls, hlen, hstable, -, hkey, hdc, htxt⟩ := hv
  have hcommonest := htext ls hlen hstable
  have hgram := (t.mem_selected.mp hcommonest.mem).1
  refine ⟨ls, hkey.symm, by rwa [hlen], ⟨text ls, hgram, hcommonest.carries, htxt⟩,
    fun l hl => ?_⟩
  obtain ⟨v₁, hv₁⟩ := exists_lemmaEntry hb hfew hstable hl
  obtain ⟨v', hv'⟩ := Option.isSome_iff_exists.mp (h.isSome_of_lemmaEntry hv₁)
  refine ⟨v', hv', fun hnone => ?_⟩
  obtain ⟨-, -, hdc', -⟩ := h.lemmaEntry_of_txt hv' hnone
  have hle : t.docFreq ls ≤ t.docFreq [l] := docFreq_lemma_le hl
  rw [UInt32.le_iff_toNat_le, hdc, hdc']
  exact hle

/-- The published layers make a well-formed map: the clauses are about the layer that wrote the
key last, and the layer of the lemmas is below the others. -/
theorem wellFormed (hbi : 2 ≤ th.bi1) (htri : 2 ≤ th.tri1) (hfew : t.docs.length < 2 ^ 32) :
    WellFormed t stat := by
  have hb2 : 2 ≤ (bounds2 th).docs := UInt32.le_iff_toNat_le.mp hbi
  have hb3 : 2 ≤ (bounds3 th).docs := UInt32.le_iff_toNat_le.mp htri
  obtain ⟨bitext, tritext, htexts, hcases⟩ := h.value_cases
  refine ⟨fun key v hv => ?_, fun key v hv htxt => (h.lemmaEntry_of_txt hv htxt).1,
    fun key v hv htxt => ?_⟩
  · have hcounted : 2 < v.dc.toNat ∧ v.dc.toNat ≤ t.docs.length := by
      rcases hcases key v hv with hl | hp | hp
      · exact lemmaEntry_counted hl
      · exact phraseEntry_counted hb2 hp
      · exact phraseEntry_counted hb3 hp
    rw [h.totalCount]
    exact ⟨UInt32.lt_iff_toNat_lt.mpr hcounted.1, hcounted.2⟩
  · rcases hcases key v hv with hl | hp | hp
    · exact absurd hl.2.2.2 htxt
    · exact h.phraseOf hb2 (Or.inl rfl) hfew htexts.pairs hp
    · exact h.phraseOf hb3 (Or.inr rfl) hfew htexts.triples hp

end Publishes

/-- The shape of what the program publishes: over every tree of documents it ends with a map whose
values count between three documents and all of them, and in which each lemma of a phrase is a
key, with no smaller count unless the key is also that of a phrase. The bounds on the documents
are at least that of the lemmas. -/
theorem extract_wellFormed (dsave : String) {th : Thresholds ℚ} (hbi : 2 ≤ th.bi1)
    (htri : 2 ≤ th.tri1) {lib : Baalbek} {image : Bytes → List Bytes} {std : Stdlib}
    {dcorpus : String} {tree : List (DirEntry (List Bytes))} {docs : List Bytes}
    (hdocs : readDocs ((listFiles 0 0 ".zip" dcorpus tree).map Prod.snd) = docs)
    (hlib : LemmatizesWords lib image (convert std lib dcorpus tree 0 0).uni)
    (hfits : Fits (textCorpus lib image docs))
    (hwords : ∀ w ∈ (textCorpus lib image docs).words, w ≠ [])
    (hlemmas : ∀ l ∈ (textCorpus lib image docs).occurring, l ≠ []) :
    ∃ stat, extract std lib dcorpus dsave tree th = .ok stat ∧
      WellFormed (textCorpus lib image docs) stat := by
  generalize hc : convert std lib dcorpus tree 0 0 = c at hlib
  have hsaved := hc
  rw [convert_readDocs, hdocs] at hsaved
  obtain ⟨lm, hok, h⟩ := textFiles_of_fits hsaved hlib hfits
  obtain ⟨stat, hstat, hpublishes⟩ := h.extract_ok dsave th hc hok hwords hlemmas
  have hfew : (textCorpus lib image docs).docs.length < 2 ^ 32 :=
    (length_textDocs_le lib docs image).trans_lt hfits.words
  exact ⟨stat, hstat, hpublishes.wellFormed hbi htri hfew⟩

/-- Three documents `aba`. -/
def echoTree : List (DirEntry (List Bytes)) :=
  [.reg "a.zip" [[97, 98, 97], [97, 98, 97], [97, 98, 97]]]

/-- The triples of the three documents are phrases of the map, above the lemmas `a` and `b`. Both
bounds on the documents are two. -/
theorem extract_wellFormed_echo :
    ∃ stat, extract (R := ℚ) Stdlib.sorting byteLib "corpus/" "save" echoTree ⟨0, 2, 0, 0, 2, 0⟩
        = .ok stat ∧
      WellFormed (textCorpus byteLib letterImage [[97, 98, 97], [97, 98, 97], [97, 98, 97]])
        stat := by
  have huni : (convert Stdlib.sorting byteLib "corpus/" echoTree 0 0).uni
      = { total := 2, msgs := [⟨[97], 1, 6⟩, ⟨[98], 2, 3⟩] } := rfl
  have hspace : ∀ m ∈ (convert Stdlib.sorting byteLib "corpus/" echoTree 0 0).uni.msgs,
      (32 : UInt8) ∉ m.str := by
    rw [huni]
    decide
  have hth : (2 : UInt32) ≤ (⟨0, 2, 0, 0, 2, 0⟩ : Thresholds ℚ).bi1 := by decide
  have hth' : (2 : UInt32) ≤ (⟨0, 2, 0, 0, 2, 0⟩ : Thresholds ℚ).tri1 := by decide
  exact extract_wellFormed "save" hth hth' (by decide)
    ⟨images_spacedLib letterImage hspace, by rw [huni]; decide⟩
    ⟨by decide, by decide, by decide, by decide⟩ (by decide) (by decide)

end Colloc.Proofs

import Colloc.Lib.CorpusOrder
import Colloc.Proofs.Published

/-!
# `Colloc.Proofs.Determined`: what determines the published map

A run depends on orders that the program does not control: that of the directory entries, that of
the hash maps, and that which an unstable sort leaves. They show in the map in two places only.
A collocation with several windows of the greatest count is published with one of them
(`OneText` excludes this), and of two collocations of the same length with the same key one is
lost (`OwnKeys` excludes this).

* `extract_permute`: without these, runs over the same documents in any order publish the same
  map.
-/

set_option autoImplicit false

namespace Colloc.Proofs

open Colloc.Lib
open Colloc.Spec

/-- No collocation of `n` lemmas has two windows of the greatest count. -/
def OneText (t : Corpus Bytes Bytes) (sel : Set (List Bytes)) (b : Bounds) (n : Nat) : Prop :=
  ∀ ls, ls.length = n → t.Stable sel b ls →
    ∀ ws ws', t.Commonest sel ls ws → t.Commonest sel ls ws' → ws = ws'

/-- No two collocations of `n` lemmas have the same key. -/
def OwnKeys (t : Corpus Bytes Bytes) (sel : Set (List Bytes)) (b : Bounds) (n : Nat) : Prop :=
  ∀ ls ls', ls.length = n → ls'.length = n → t.Stable sel b ls → t.Stable sel b ls' →
    ls.flatten = ls'.flatten → ls = ls'

/-- The collocations of the text have one text and a key of their own. -/
structure Unambiguous (th : Thresholds ℚ) (t : Corpus Bytes Bytes) : Prop where
  bitext : OneText t Set.univ (bounds2 th) 2
  bikeys : OwnKeys t Set.univ (bounds2 th) 2
  tritext : OneText t (tripleWindows th t) (bounds3 th) 3
  trikeys : OwnKeys t (tripleWindows th t) (bounds3 th) 3

/-- Keys are their own when no lemma is a prefix of another one. -/
theorem ownKeys_of_prefixFree {t : Corpus Bytes Bytes} (hfree : PrefixFree {l | l ∈ t.occurring})
    (hne : ∀ l ∈ t.occurring, l ≠ []) (sel : Set (List Bytes)) (b : Bounds) (n : Nat) :
    OwnKeys t sel b n := by
  intro ls ls' _ _ hstable hstable' hkey
  exact hfree.uniquelyDecodable (fun hnil => hne [] hnil rfl) ls ls'
    hstable.mem_occurring hstable'.mem_occurring hkey

section Entries
variable {t t' : Corpus Bytes Bytes} {sel : Set (List Bytes)} {b : Bounds} {n : Nat}
  {text text' : List Bytes → List Bytes} {skip : List Bytes → Bool} {key : Bytes}

/-- A key of its own has one value: it is the key of one collocation, and the documents and the
text are those of this one. -/
theorem phraseEntry_unique (h : OwnKeys t sel b n) {v v' : ZVal}
    (hv : phraseEntry t sel b n text skip key v) (hv' : phraseEntry t sel b n text skip key v') :
    v = v' := by
  obtain ⟨ls, hlen, hstable, -, rfl, hdc, htxt⟩ := hv
  obtain ⟨ls', hlen', hstable', -, hkey, hdc', htxt'⟩ := hv'
  obtain rfl := h ls ls' hlen hlen' hstable hstable' hkey
  have hdcs : v.dc = v'.dc := UInt32.toNat_inj.mp (hdc.trans hdc'.symm)
  cases v
  cases v'
  cases hdcs
  cases htxt
  cases htxt'
  rfl

/-- A key has one entry of a lemma, since the key is the lemma and no text is stored with it. -/
theorem lemmaEntry_unique {v v' : ZVal} (hv : lemmaEntry t key v) (hv' : lemmaEntry t key v') :
    v = v' := by
  obtain ⟨-, -, hdc, htxt⟩ := hv
  obtain ⟨-, -, hdc', htxt'⟩ := hv'
  have hdcs : v.dc = v'.dc := UInt32.toNat_inj.mp (hdc.trans hdc'.symm)
  cases v
  cases v'
  cases hdcs
  cases htxt
  cases htxt'
  rfl

variable (hshuffled : t.Shuffled t')

include hshuffled

/-- The entries of the same documents in another order, when each collocation has one text. What
is counted does not see the order, and there is no choice of a text. -/
theorem phraseEntry_shuffled (hone : OneText t sel b n) (htext : IsText t sel b n text)
    (htext' : IsText t' sel b n text') (v : ZVal) :
    phraseEntry t' sel b n text' skip key v ↔ phraseEntry t sel b n text skip key v := by
  unfold phraseEntry
  refine exists_congr (fun ls => and_congr_right (fun hlen => ?_))
  rw [hshuffled.stable_iff, hshuffled.docFreq]
  refine and_congr_right (fun hstable => ?_)
  have hstable' := (hshuffled.stable_iff sel b ls).mpr hstable
  have hsame := hone ls hlen hstable (text' ls) (text ls)
    ((hshuffled.commonest_iff sel ls _).mp (htext' ls hlen hstable')) (htext ls hlen hstable)
  rw [hsame]

/-- The entry of a lemma holds its document frequency, which no order of the documents changes. -/
theorem lemmaEntry_shuffled (v : ZVal) : lemmaEntry t' key v ↔ lemmaEntry t key v := by
  unfold lemmaEntry
  rw [hshuffled.docFreq, hshuffled.occurring.mem_iff]

/-- Which triples extend a collocation does not depend on the order of the documents. -/
theorem tripleWindows_shuffled (th : Thresholds ℚ) : tripleWindows th t' = tripleWindows th t := by
  unfold tripleWindows
  rw [hshuffled.named]

/-- Two maps that publish the same documents are the same map. The layers do not depend on the
order of the documents, and under each key the top one determines the value. -/
theorem Publishes.get_eq {lib : Baalbek} {th : Thresholds ℚ} {stat stat' : TermStat}
    (h : Publishes lib th t stat) (h' : Publishes lib th t' stat') (hun : Unambiguous th t)
    (key : Bytes) : stat'.get key = stat.get key := by
  obtain ⟨bitext, tritext, htexts, htop⟩ := h.terms
  obtain ⟨bitext', tritext', htexts', htop'⟩ := h'.terms
  have hwindows := tripleWindows_shuffled hshuffled th
  have htri : ∀ v, tripleEntry th t' tritext' key v ↔ tripleEntry th t tritext key v := by
    intro v
    have htext' := htexts'.triples
    unfold tripleEntry
    rw [hwindows] at htext' ⊢
    exact phraseEntry_shuffled hshuffled hun.tritext htexts.triples htext' v
  have hpair : ∀ v, pairEntry lib th t' bitext' key v ↔ pairEntry lib th t bitext key v :=
    fun v => phraseEntry_shuffled hshuffled hun.bitext htexts.pairs htexts'.pairs v
  have hlookup : stat'.terms.lookup key = stat.terms.lookup key := by
    have hsame : Topmost key [tripleEntry th t tritext, pairEntry lib th t bitext, lemmaEntry t]
        (stat'.terms.lookup key) :=
      (htop' key).congr (List.Forall₂.cons htri (List.Forall₂.cons hpair
        (List.Forall₂.cons (fun v => lemmaEntry_shuffled hshuffled v) List.Forall₂.nil)))
    refine topmost_unique (fun layer hlayer v v' hv hv' => ?_) hsame (htop key)
    simp only [List.mem_cons, List.not_mem_nil, or_false] at hlayer
    rcases hlayer with rfl | rfl | rfl
    · exact phraseEntry_unique hun.trikeys hv hv'
    · exact phraseEntry_unique hun.bikeys hv hv'
    · exact lemmaEntry_unique hv hv'
  have htotal : stat'.totalCount = stat.totalCount := by
    rw [h'.totalCount, h.totalCount, hshuffled.docs.length_eq]
  unfold TermStat.get
  rw [hlookup, htotal, h.version, h'.version]

end Entries

/-! ### Two runs -/

section Runs
variable {lib : Baalbek} {image : Bytes → List Bytes} {docs docs' : List Bytes}

variable (lib image) in
/-- Documents in another order make a text with the documents in another order. -/
theorem textCorpus_shuffled (hperm : docs'.Perm docs) :
    (textCorpus lib image docs).Shuffled (textCorpus lib image docs') where
  docs := ((hperm.map _).filter _).map _
  lemmas := rfl

/-- The numbers of the text do not depend on the order of its documents, so it fits in each order.
-/
theorem Fits.shuffled {t t' : Corpus Bytes Bytes} (hshuffled : t.Shuffled t') (h : Fits t) :
    Fits t' := by
  have hsum : ∀ n, ((t'.grams n).map t'.readings).sum = ((t.grams n).map t.readings).sum := by
    intro n
    have hreadings : t'.readings = t.readings := funext hshuffled.readings
    rw [hreadings]
    exact ((hshuffled.grams n).map _).sum_eq
  refine ⟨?_, ?_, ?_, ?_⟩
  · rw [hshuffled.words.length_eq]
    exact h.words
  · rw [hshuffled.lemmaCount]
    exact h.lemmas
  · rw [hsum]
    exact h.pairs
  · rw [hsum]
    exact h.triples

/-- The library lemmatizes the words of the documents, whatever file lists them. -/
theorem LemmatizesWords.of_str_iff {uni uni' : RecordFile Unigram}
    (h : LemmatizesWords lib image uni)
    (hstr : ∀ s, s ∈ uni'.msgs.map StrIdWeight.str ↔ s ∈ uni.msgs.map StrIdWeight.str) :
    LemmatizesWords lib image uni' where
  images words hwords := h.images words (fun w hw => (hstr w).mp (hwords w hw))
  lemmas m hm := by
    obtain ⟨m', hm', hm'm⟩ := List.mem_map.mp ((hstr m.str).mp (List.mem_map_of_mem hm))
    rw [← hm'm]
    exact h.lemmas m' hm'

end Runs

/-- The library of the letters, where each letter is its own lemma. -/
def plainLib : Baalbek :=
  { byteLib with makeDocumentImage := (spacedLib (fun word => [word])).makeDocumentImage }

/-- A word that is its own lemma has one text: a tuple of lemmas is carried by the same words
only. -/
theorem oneText_plain {t : Corpus Bytes Bytes} (h : t.lemmas = fun word => [word])
    (sel : Set (List Bytes)) (b : Bounds) (n : Nat) : OneText t sel b n := by
  have hcarries : ∀ ws ls, t.Carries ws ls → ws = ls := by
    intro ws ls hws
    induction hws with
    | nil => rfl
    | cons hl _ ih =>
        rw [h] at hl
        rw [ih, List.mem_singleton.mp hl]
  intro ls _ _ ws ws' hws hws'
  rw [hcarries ws ls hws.carries, hcarries ws' ls hws'.carries]

end Colloc.Proofs

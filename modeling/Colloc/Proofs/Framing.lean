import Colloc.Lib.Cut
import Colloc.Proofs.Corpus
import Colloc.Spec.Capnp

/-!
# `Colloc.Proofs.Framing`: the documents in `corpus.bin`

`update` writes the maximal runs of accepted words of a document as phrases (`acceptedRuns`),
and an empty phrase behind them. No other phrase is empty, so cutting `corpus.bin` at the
empty phrases gives back the documents with an accepted word (`convert_framing`).

A word has the same id from its first occurrence on (`KeepsIds`), so the ids on the file are
those of the final map, `idIn`. The word loop is described by `foldl_updateStep_out`, where the
pending ids are those of the accepted words since the last rejected one.
-/

set_option autoImplicit false

namespace Colloc.Proofs

open Colloc.Lib
open Colloc.Spec

/-- The corpus of documents without empty phrases is cut into these documents. -/
theorem splitOn_corpusOf {docs : List (List Phrase)} (h : ∀ doc ∈ docs, ∀ ids ∈ doc, ids ≠ []) :
    (corpusOf docs).splitOn [] = docs ++ [[]] :=
  splitOn_flatMap_concat [] (fun doc hdoc hmem => h doc hdoc [] hmem rfl)

/-! ### Ids -/

/-- The id of a key. -/
def idIn (map : FlatHashMap Bytes UniVal) (key : Bytes) : UInt32 :=
  ((map.lookup key).map UniVal.id).getD 0

/-- The later map has the words of the earlier one, under the same ids. -/
def KeepsIds (map map' : FlatHashMap Bytes UniVal) : Prop :=
  ∀ k n, (map.lookup k).map UniVal.id = some n → (map'.lookup k).map UniVal.id = some n

/-- A map keeps its own ids. -/
theorem KeepsIds.refl (map : FlatHashMap Bytes UniVal) : KeepsIds map map := fun _ _ h => h

/-- Ids that are kept twice are kept. -/
theorem KeepsIds.trans {map₁ map₂ map₃ : FlatHashMap Bytes UniVal} (h : KeepsIds map₁ map₂)
    (h' : KeepsIds map₂ map₃) : KeepsIds map₁ map₃ := fun k n hn => h' k n (h k n hn)

/-- An occurrence gives its key an id when it has none, and keeps every id that is there. -/
theorem lookup_id_bumped (map : FlatHashMap Bytes UniVal) (key k : Bytes) :
    ((bumped map key).lookup k).map UniVal.id
      = if k = key then some (valueOf map key).id else (map.lookup k).map UniVal.id := by
  rw [lookup_bumped]
  by_cases h : k = key
  · rw [if_pos h, if_pos h]
    rfl
  · rw [if_neg h, if_neg h]

/-- So an occurrence keeps the ids: a word that has one is counted again under it. -/
theorem KeepsIds.bumped (map : FlatHashMap Bytes UniVal) (key : Bytes) :
    KeepsIds map (bumped map key) := by
  intro k n hn
  rw [lookup_id_bumped]
  by_cases h : k = key
  · subst h
    obtain ⟨v, hv, rfl⟩ := Option.map_eq_some_iff.mp hn
    rw [if_pos rfl, valueOf, hv]
  · rw [if_neg h]
    exact hn

/-- So do many. -/
theorem KeepsIds.foldl_bumped (keys : List Bytes) :
    ∀ map, KeepsIds map (keys.foldl Proofs.bumped map) := by
  induction keys with
  | nil => exact KeepsIds.refl
  | cons key keys ih => exact fun map => (KeepsIds.bumped map key).trans (ih _)

/-- The id that is written is the id in every later map. -/
theorem KeepsIds.idIn_eq {map final : FlatHashMap Bytes UniVal} {key : Bytes}
    (h : KeepsIds (Proofs.bumped map key) final) : idIn final key = (valueOf map key).id := by
  have hkey := lookup_id_bumped map key key
  rw [if_pos rfl] at hkey
  rw [idIn, h key _ hkey]
  rfl

/-! ### A document -/

section Update
variable (lib : Baalbek)

/-- The accepted words of a document, run by run. -/
def acceptedRuns (doci : List Word) : List (List Word) := runsBetween UnigramCounts.rejects doci

/-- The phrase of a run of words. -/
def phraseOf (map : FlatHashMap Bytes UniVal) (run : List Word) : Phrase :=
  run.map (fun w => idIn map (UnigramCounts.wordKey lib w))

/-- The phrases of a document. -/
def framedDoc (map : FlatHashMap Bytes UniVal) (doci : List Word) : List Phrase :=
  (acceptedRuns doci).map (phraseOf lib map)

/-- The end of a phrase writes, and does not touch the map. -/
theorem flushed_map (st : UnigramCounts.UpdateState) : (flushed st).map = st.counts.map := by
  unfold flushed
  split
  · rfl
  · rfl

/-- It writes the phrase, unless that is empty. -/
theorem flushed_out (st : UnigramCounts.UpdateState) :
    (flushed st).bufferedOut
      = st.counts.bufferedOut ++ if st.ids = [] then [] else [st.ids] := by
  unfold flushed
  by_cases h : st.ids = []
  · simp [h]
  · rw [if_pos (List.length_pos_of_ne_nil h), if_neg h]
    rfl

/-- A word that is not taken ends the phrase. -/
theorem updateStep_rejects {w : Word} (h : UnigramCounts.rejects w = true)
    (st : UnigramCounts.UpdateState) :
    UnigramCounts.updateStep lib st w = { st with counts := flushed st, ids := [] } := by
  unfold UnigramCounts.updateStep
  rw [updateWord_rejects lib h]
  rfl

/-- A word that is taken adds its id to the phrase. -/
theorem updateStep_accepts {w : Word} (h : UnigramCounts.rejects w = false)
    (st : UnigramCounts.UpdateState) :
    UnigramCounts.updateStep lib st w
      = { counts :=
            { st.counts with map := bumped st.counts.map (UnigramCounts.wordKey lib w) }
          ids := st.ids ++ [(valueOf st.counts.map (UnigramCounts.wordKey lib w)).id]
          empty := false } := by
  unfold UnigramCounts.updateStep
  rw [updateWord_accepts lib h]

/-- The keys of the accepted words, in order. -/
def acceptedKeys (doci : List Word) : List Bytes :=
  (doci.filter (fun w => !UnigramCounts.rejects w)).map (UnigramCounts.wordKey lib)

/-- The first word has a key when it is taken. -/
theorem acceptedKeys_cons (w : Word) (doci : List Word) :
    acceptedKeys lib (w :: doci)
      = if UnigramCounts.rejects w then acceptedKeys lib doci
        else UnigramCounts.wordKey lib w :: acceptedKeys lib doci := by
  unfold acceptedKeys
  cases h : UnigramCounts.rejects w with
  | true => simp [h]
  | false => simp [h]

/-- The map after the word loop, whatever phrases are written: it has counted the accepted keys of
the document, in order. -/
theorem foldl_updateStep_map (doci : List Word) :
    ∀ st : UnigramCounts.UpdateState,
      (doci.foldl (UnigramCounts.updateStep lib) st).counts.map
        = (acceptedKeys lib doci).foldl bumped st.counts.map := by
  induction doci with
  | nil => exact fun st => rfl
  | cons w doci ih =>
      intro st
      rw [List.foldl_cons, ih, acceptedKeys_cons]
      cases h : UnigramCounts.rejects w with
      | true =>
          rw [updateStep_rejects lib h]
          show (acceptedKeys lib doci).foldl bumped (flushed st).map = _
          rw [flushed_map]
          rfl
      | false =>
          rw [updateStep_accepts lib h]
          rfl

/-- Accepted words are one phrase, or none. -/
theorem framedDoc_accepted (final : FlatHashMap Bytes UniVal) {ws : List Word}
    (hws : ∀ w ∈ ws, UnigramCounts.rejects w = false) :
    framedDoc lib final ws
      = if phraseOf lib final ws = [] then [] else [phraseOf lib final ws] := by
  unfold framedDoc acceptedRuns
  rw [runsBetween_of_unmarked _ hws]
  by_cases h : ws = []
  · simp [h, phraseOf]
  · simp [h, phraseOf]

/-- The word loop and the phrase that is pending at its end: the runs of accepted words, the
first of them continuing the words `ws` whose ids are pending at the start. The ids are those
of any later map. -/
theorem foldl_updateStep_out (final : FlatHashMap Bytes UniVal) (doci : List Word) :
    ∀ (st : UnigramCounts.UpdateState) (ws : List Word),
      KeepsIds (doci.foldl (UnigramCounts.updateStep lib) st).counts.map final →
      st.ids = phraseOf lib final ws → (∀ w ∈ ws, UnigramCounts.rejects w = false) →
      (flushed (doci.foldl (UnigramCounts.updateStep lib) st)).bufferedOut
        = st.counts.bufferedOut ++ framedDoc lib final (ws ++ doci) := by
  induction doci with
  | nil =>
      intro st ws _ hids hws
      rw [List.foldl_nil, List.append_nil, flushed_out, framedDoc_accepted lib final hws, hids]
  | cons w doci ih =>
      intro st ws hfinal hids hws
      rw [List.foldl_cons] at hfinal ⊢
      cases hw : UnigramCounts.rejects w with
      | true =>
          -- The pending run ends here, and a new one begins behind `w`.
          rw [updateStep_rejects lib hw] at hfinal ⊢
          rw [ih _ [] hfinal rfl (fun w' hw' => absurd hw' List.not_mem_nil)]
          have hruns : framedDoc lib final (ws ++ w :: doci)
              = framedDoc lib final ws ++ framedDoc lib final doci := by
            unfold framedDoc acceptedRuns
            rw [runsBetween_append_cons _ _ _ hw, List.map_append]
          show (flushed st).bufferedOut ++ _ = _
          rw [flushed_out, hruns, framedDoc_accepted lib final hws, hids, List.nil_append,
            List.append_assoc]
      | false =>
          -- The word joins the pending run.
          rw [updateStep_accepts lib hw] at hfinal ⊢
          have hlater := hfinal
          rw [foldl_updateStep_map] at hlater
          have hid := ((KeepsIds.foldl_bumped _ _).trans hlater).idIn_eq
          rw [ih _ (ws ++ [w]) hfinal ?_ ?_]
          · rw [List.append_assoc]
            rfl
          · show st.ids ++ [_] = _
            rw [hids, phraseOf, phraseOf, List.map_append, ← hid]
            rfl
          · intro w' hw'
            rcases List.mem_append.mp hw' with hw' | hw'
            · exact hws w' hw'
            · rw [List.mem_singleton.mp hw']
              exact hw

/-- Some word of the document is accepted. -/
def accepts (doci : List Word) : Bool := doci.any (fun w => !UnigramCounts.rejects w)

/-- The documents with an accepted word, as they stand in the corpus. -/
def framedDocs (map : FlatHashMap Bytes UniVal) (docs : List (List Word)) : List (List Phrase) :=
  (docs.filter accepts).map (framedDoc lib map)

/-- After a document the map has its accepted keys, one occurrence after the other. -/
theorem update_map (counts : UnigramCounts) (doci : List Word) :
    (counts.update lib doci).2.map = (acceptedKeys lib doci).foldl bumped counts.map := by
  have hloop := foldl_updateStep_map lib doci { counts := counts, ids := [], empty := true }
  rw [update_snd lib counts doci rfl, ← hloop]
  split
  · exact flushed_map _
  · exact flushed_map _

/-- `update` appends the phrases of the document and its end, or nothing when no word is
accepted. -/
theorem update_out (final : FlatHashMap Bytes UniVal) (counts : UnigramCounts) (doci : List Word)
    (hfinal : KeepsIds (counts.update lib doci).2.map final) :
    (counts.update lib doci).2.bufferedOut
      = counts.bufferedOut ++ corpusOf (framedDocs lib final [doci]) := by
  have hout := foldl_updateStep_out lib final doci { counts := counts, ids := [], empty := true }
    [] (by rw [foldl_updateStep_map]; rwa [update_map] at hfinal) rfl
    (fun w hw => absurd hw List.not_mem_nil)
  have hempty := foldl_updateStep_empty lib doci { counts := counts, ids := [], empty := true }
  rw [Bool.true_and] at hempty
  rw [List.nil_append] at hout
  rw [update_snd lib counts doci rfl, framedDocs]
  cases h : accepts doci with
  | true =>
      -- The flag is down, so the end of the document is written.
      have hall : doci.all UnigramCounts.rejects = false := by
        rw [accepts, ← List.not_all_eq_any_not] at h
        simpa using h
      rw [hempty, hall, List.filter_cons_of_pos h]
      show (flushed _).bufferedOut ++ [[]] = _
      rw [hout, List.append_assoc]
      simp [corpusOf]
  | false =>
      -- Every word is rejected, so there is no run.
      have hall : ∀ w ∈ doci, UnigramCounts.rejects w = true := by
        intro w hw
        simpa using List.any_eq_false.mp h w hw
      rw [hempty, List.all_eq_true.mpr hall, List.filter_cons_of_neg (by simp [h]), if_pos rfl,
        hout, framedDoc, acceptedRuns, runsBetween_of_marked _ hall]
      rfl

/-- The documents through `update`, one after the other. -/
def updates (counts : UnigramCounts) (docs : List (List Word)) : UnigramCounts :=
  docs.foldl (fun counts doci => (counts.update lib doci).2) counts

/-- So it has after all documents. The induction is on the documents. -/
theorem updates_map (docs : List (List Word)) :
    ∀ counts, (updates lib counts docs).map
      = (docs.flatMap (acceptedKeys lib)).foldl bumped counts.map := by
  induction docs with
  | nil => exact fun counts => rfl
  | cons doci docs ih =>
      intro counts
      show (updates lib (counts.update lib doci).2 docs).map = _
      rw [ih, update_map, List.flatMap_cons, List.foldl_append]

/-- The documents are written one behind the other, in the ids of any later map, since ids are
kept. -/
theorem updates_out (final : FlatHashMap Bytes UniVal) (docs : List (List Word)) :
    ∀ counts, KeepsIds (updates lib counts docs).map final →
      (updates lib counts docs).bufferedOut
        = counts.bufferedOut ++ corpusOf (framedDocs lib final docs) := by
  induction docs with
  | nil =>
      intro counts _
      exact (List.append_nil _).symm
  | cons doci docs ih =>
      intro counts hfinal
      have hrest := ih (counts.update lib doci).2 hfinal
      have hlater : KeepsIds (counts.update lib doci).2.map final := by
        have hkeeps := KeepsIds.foldl_bumped (docs.flatMap (acceptedKeys lib))
          (counts.update lib doci).2.map
        rw [← updates_map] at hkeeps
        exact hkeeps.trans hfinal
      have hframed : framedDocs lib final (doci :: docs)
          = framedDocs lib final [doci] ++ framedDocs lib final docs := by
        unfold framedDocs
        rw [← List.map_append, ← List.filter_append]
        rfl
      show (updates lib (counts.update lib doci).2 docs).bufferedOut = _
      rw [hrest, update_out lib final counts doci hlater, hframed, List.append_assoc,
        corpusOf, corpusOf, corpusOf, List.flatMap_append]

/-- A document is framed when it has a phrase, and a phrase has a word. So an empty phrase is
the end of a document and nothing else. -/
theorem framedDocs_ne_nil {map : FlatHashMap Bytes UniVal} {docs : List (List Word)}
    {doc : List Phrase} (h : doc ∈ framedDocs lib map docs) :
    doc ≠ [] ∧ ∀ ids ∈ doc, ids ≠ [] := by
  obtain ⟨doci, hdoci, rfl⟩ := List.mem_map.mp h
  have hword := (List.mem_filter.mp hdoci).2
  constructor
  · intro hnil
    obtain ⟨w, hw, haccept⟩ := List.any_eq_true.mp hword
    refine runsBetween_ne_nil UnigramCounts.rejects ⟨w, hw, ?_⟩ (List.map_eq_nil_iff.mp hnil)
    simpa using haccept
  · intro ids hids hnil
    obtain ⟨run, hrun, rfl⟩ := List.mem_map.mp hids
    exact ne_nil_of_mem_runsBetween UnigramCounts.rejects hrun (List.map_eq_nil_iff.mp hnil)

/-! ### The file -/

/-- The state of `convert` behind the documents `docs`. -/
def converted (docs : List Bytes) : ConvertState := docs.foldl (convertDoc lib) convertStart

/-- The loop of `convert` updates the counters document by document. -/
theorem foldl_convertDoc_counts (docs : List Bytes) :
    ∀ st, (docs.foldl (convertDoc lib) st).counts
      = updates lib st.counts (docs.map lib.wordBreakDocument) := by
  induction docs with
  | nil => exact fun st => rfl
  | cons buff docs ih => exact fun st => ih _

/-- What `convert` has written at its end, in the ids of the map that it saves. An id is written
when the word is met, and the map keeps it to the end. -/
theorem converted_out (docs : List Bytes) :
    (converted lib docs).counts.bufferedOut
      = corpusOf (framedDocs lib (converted lib docs).counts.map
          (docs.map lib.wordBreakDocument)) := by
  have hcounts := foldl_convertDoc_counts lib docs convertStart
  rw [converted, hcounts]
  have hout := updates_out lib _ (docs.map lib.wordBreakDocument) convertStart.counts
    (KeepsIds.refl _)
  rw [hout]
  rfl

/-- Every accepted word has an id, and so has every word that had one before. The induction is on
the words. -/
theorem isSome_foldl_bumped (keys : List Bytes) (k : Bytes) :
    ∀ map, ((keys.foldl bumped map).lookup k).isSome ↔ (map.lookup k).isSome ∨ k ∈ keys := by
  induction keys with
  | nil => simp
  | cons key keys ih =>
      intro map
      rw [List.foldl_cons, ih, lookup_bumped, List.mem_cons, ← or_assoc]
      by_cases h : k = key
      · simp [h]
      · simp [h]

/-- The documents with an accepted word are counted. -/
theorem length_framedDocs (map : FlatHashMap Bytes UniVal) (docs : List Bytes) :
    (framedDocs lib map (docs.map lib.wordBreakDocument)).length
      = (converted lib docs).totalCount := by
  rw [converted, foldl_convertDoc_totalCount, framedDocs, List.length_map, List.filter_map,
    List.length_map, List.countP_eq_length_filter]
  exact (Nat.zero_add _).symm

/-- `convert` over the documents that it reads. -/
theorem convert_readDocs (std : Stdlib) (dcorpus : String)
    (tree : List (DirEntry (List Bytes))) (start limit : Nat) :
    convert std lib dcorpus tree start limit
      = (converted lib (readDocs ((listFiles start limit ".zip" dcorpus tree).map
          Prod.snd))).save std := by
  rw [converted, ← foldl_convertArchive]
  rfl

end Update

/-- The phrases that `read_fn` hands out. -/
def readPhrases (capnp : Capnp) (bytes : Bytes) : Except Error (List Phrase) :=
  readFn capnp (fun phrases ids => .ok (phrases ++ [ids])) bytes []

/-- `corpus.bin` reads back as the phrases that were written, when each of them is read back by
itself. The induction is on the phrases. -/
theorem readPhrases_corpusFile (capnp : Capnp) {phrases : List Phrase}
    (h : ∀ ids ∈ phrases, capnp.RoundTrips ids) :
    readPhrases capnp (corpusFile capnp phrases) = .ok phrases := by
  have hfold : ∀ (l done : List Phrase),
      l.foldlM (fun phrases ids => Except.ok (ε := Error) (phrases ++ [ids])) done
        = .ok (done ++ l) := by
    intro l
    induction l with
    | nil => exact fun done => congrArg _ (List.append_nil done).symm
    | cons ids l ih =>
        intro done
        rw [List.foldlM_cons]
        show l.foldlM _ (done ++ [ids]) = _
        rw [ih, List.append_assoc]
        rfl
  rw [readPhrases, readFn_corpusFile capnp _ h, hfold, List.nil_append]

/-- Reading `corpus.bin` back and cutting it at the empty phrases gives the documents with an
accepted word, in order, each as its runs of accepted words under their ids. There is one empty
phrase for each of them, and `total_count` is their number. -/
theorem convert_framing (std : Stdlib) (lib : Baalbek) (capnp : Capnp) (docs : List Bytes)
    (h : ∀ ids ∈ ((converted lib docs).save std).corpus, capnp.RoundTrips ids) :
    ∃ framed phrases,
      framed = framedDocs lib (converted lib docs).counts.map (docs.map lib.wordBreakDocument) ∧
      readPhrases capnp (corpusFile capnp ((converted lib docs).save std).corpus) = .ok phrases ∧
      phrases.splitOn [] = framed ++ [[]] ∧
      (∀ doc ∈ framed, doc ≠ [] ∧ ∀ ids ∈ doc, ids ≠ []) ∧
      (∀ buff ∈ docs, ∀ key ∈ acceptedKeys lib (lib.wordBreakDocument buff),
        ((converted lib docs).counts.map.lookup key).isSome) ∧
      phrases.count [] = framed.length ∧
      ((converted lib docs).save std).totalCount = framed.length ∧
      ∀ dcorpus tree start limit,
        readDocs ((listFiles start limit ".zip" dcorpus tree).map Prod.snd) = docs →
        convert std lib dcorpus tree start limit = (converted lib docs).save std := by
  have hout := converted_out lib docs
  have hne : ∀ doc ∈ framedDocs lib (converted lib docs).counts.map
      (docs.map lib.wordBreakDocument), doc ≠ [] ∧ ∀ ids ∈ doc, ids ≠ [] :=
    fun doc hdoc => framedDocs_ne_nil lib hdoc
  have hkeys : ∀ buff ∈ docs, ∀ key ∈ acceptedKeys lib (lib.wordBreakDocument buff),
      ((converted lib docs).counts.map.lookup key).isSome := by
    intro buff hbuff key hkey
    rw [converted, foldl_convertDoc_counts, updates_map, isSome_foldl_bumped]
    exact Or.inr (List.mem_flatMap.mpr ⟨_, List.mem_map_of_mem hbuff, hkey⟩)
  refine ⟨_, _, rfl, readPhrases_corpusFile capnp h, ?_, hne, hkeys, ?_,
    (length_framedDocs lib _ docs).symm, ?_⟩
  · show (converted lib docs).counts.bufferedOut.splitOn [] = _
    rw [hout]
    exact splitOn_corpusOf (fun doc hdoc => (hne doc hdoc).2)
  · show (converted lib docs).counts.bufferedOut.count [] = _
    rw [hout]
    exact count_corpusOf (fun doc hdoc => (hne doc hdoc).2)
  · intro dcorpus tree start limit hdocs
    rw [convert_readDocs, hdocs]

/-- A reader that finds a message takes bytes away. -/
theorem length_drop_of_take {bytes msg : Bytes} {n : Nat} (hmsg : msg ≠ [])
    (h : bytes.take n = msg) : (bytes.drop n).length < bytes.length := by
  have hlen := congrArg List.length h
  have hpos := List.length_pos_of_ne_nil hmsg
  rw [List.length_take] at hlen
  rw [List.length_drop]
  omega

/-- The packed messages of the phrases of no word and of the word `1`: the segment table, the
root pointer and the list pointer, and the word. -/
def packedPhrases : Capnp where
  writePackedMessage ids :=
    if ids = [] then [16, 2, 64, 1, 17, 1, 4]
    else if ids = [1] then [16, 3, 64, 1, 17, 1, 12, 1, 1]
    else []
  packedMessageReader bytes :=
    if bytes.take 7 = [16, 2, 64, 1, 17, 1, 4] then .ok ([], bytes.drop 7)
    else if bytes.take 9 = [16, 3, 64, 1, 17, 1, 12, 1, 1] then .ok ([1], bytes.drop 9)
    else .error (.runtime "Premature EOF")
  reader_takes bytes ids rest h := by
    split at h
    · rename_i htake
      cases h
      exact length_drop_of_take (by decide) htake
    · split at h
      · rename_i htake
        cases h
        exact length_drop_of_take (by decide) htake
      · cases h

/-- A library that reads a full stop as punctuation and every other byte as a word. -/
def stopLib : Baalbek :=
  { oneWordLib with
      wordBreakDocument := fun buff => buff.map (fun c =>
        if c = 46 then { isPunct := true, pwsstr := [46] }
        else { isPunct := false, pwsstr := [1072] }) }

/-- A document with two runs, one without words, and one with one run. The document without words
leaves no trace. -/
theorem convert_framing_stops :
    ∃ framed phrases,
      framed = framedDocs stopLib (converted stopLib [[46, 65, 46, 46, 65], [46], [65]]).counts.map
        ([[46, 65, 46, 46, 65], [46], [65]].map stopLib.wordBreakDocument) ∧
      readPhrases packedPhrases (corpusFile packedPhrases
        ((converted stopLib [[46, 65, 46, 46, 65], [46], [65]]).save Stdlib.sorting).corpus)
          = .ok phrases ∧
      phrases.splitOn [] = framed ++ [[]] ∧ framed = [[[1], [1]], [[1]]] := by
  have hcorpus : ((converted stopLib [[46, 65, 46, 46, 65], [46], [65]]).save
      Stdlib.sorting).corpus = [[1], [1], [], [1], []] := by decide
  obtain ⟨framed, phrases, hframed, hread, hsplit, -⟩ := convert_framing Stdlib.sorting stopLib
    packedPhrases [[46, 65, 46, 46, 65], [46], [65]] (by
      intro ids hids
      rw [hcorpus] at hids
      have htwo : ids = [] ∨ ids = [1] := by
        revert ids
        decide
      rcases htwo with rfl | rfl
      · exact ⟨by decide, fun rest => rfl⟩
      · exact ⟨by decide, fun rest => rfl⟩)
  refine ⟨framed, phrases, hframed, hread, hsplit, ?_⟩
  rw [hframed]
  decide

end Colloc.Proofs

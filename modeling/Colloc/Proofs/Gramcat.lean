import Colloc.Lib.CorpusParts
import Colloc.Proofs.DataFile
import Colloc.Proofs.Published
import Colloc.Spec.Gramcat

/-!
# `Colloc.Proofs.Gramcat`: what `gramcat` prints

The table of a file of bigrams, trigrams, lemmas or lemma frequencies can be read back: it
determines the type of the file and its messages, in order (`gramcat_lossless`). A lemma is printed
in hexadecimal for that, while the words of `uni.bin` are printed as they are.

Behind a run, `gramcat` finds every word and lemma in the dictionaries. It prints the pairs of words
of the text with their counts, and the collocations with their scores and cases
(`gramcat_shows`).
-/

set_option autoImplicit false

namespace Colloc.Proofs

open Colloc.Lib
open Colloc.Spec

/-! ### Tables -/

section Table
variable {R : Type} [Double R] {fs : String → Option (DataFile R)} {fname : String}

/-- `read_apply` of a file of the right type goes over its messages. -/
theorem applyFile_known {type : MsgType} {file : RecordFile (type.Msg R)}
    (h : fs fname = some (.known type file)) {σ : Type} (fn : σ → type.Msg R → Except Error σ)
    (s : σ) : applyFile fs fname type fn s = file.msgs.foldlM fn s := by
  unfold applyFile openAs openFile
  simp only [h, dif_pos]
  exact readApply_eq file fn s

/-- The line of a message without a dictionary. -/
def plainLine (fixed9 : R → Bytes) : (type : MsgType) → type.Msg R → Bytes
  | .unigram => printUnigram
  | .bigram => printGram (K := Idd)
  | .trigram => printGram (K := Iddd)
  | .lemId => printLemid
  | .lemFreq => printLemfreq
  | .lem2Group => printLem2group fixed9
  | .lem3Group => printLem3group fixed9

/-- A table is its header and a line for each message, in the order of the file. -/
theorem printFile_known {type : MsgType} {file : RecordFile (type.Msg R)}
    (h : fs fname = some (.known type file)) (line : type.Msg R → Bytes) :
    printFile fs fname type line = .ok ⟨0, tableHeader type ++ file.msgs.flatMap line, []⟩ := by
  unfold printFile
  rw [applyFile_known h]
  have hfold : file.msgs.foldlM (fun out msg => (.ok (out ++ line msg) : Except Error Bytes))
      (tableHeader type)
        = .ok (file.msgs.foldl (fun out msg => out ++ line msg) (tableHeader type)) :=
    List.foldlM_pure
  rw [hfold, List.foldl_append_eq_append, ← List.flatMap_def]

omit [Double R] in
/-- The type of a file that can be read is that of its messages. -/
theorem getDataType_known {type : MsgType} {file : RecordFile (type.Msg R)}
    (h : fs fname = some (.known type file)) : getDataType fs fname = .ok type.name := by
  unfold getDataType openFile
  simp only [h]
  rfl

/-- A file without dictionaries is printed as a table, whatever its type is. -/
theorem gramcat_plain (fixed9 : R → Bytes) {type : MsgType} {file : RecordFile (type.Msg R)}
    (h : fs fname = some (.known type file)) : gramcat fs fixed9 [fname]
      = .ok ⟨0, tableHeader type ++ file.msgs.flatMap (plainLine fixed9 type), []⟩ := by
  unfold gramcat
  simp only [getDataType_known h]
  cases type with
  | unigram => exact printFile_known h _
  | bigram => exact printFile_known h _
  | trigram => exact printFile_known h _
  | lemId => exact printFile_known h _
  | lemFreq => exact printFile_known h _
  | lem2Group => exact printFile_known h _
  | lem3Group => exact printFile_known h _

end Table

/-! ### Reading a table back -/

/-- The line of a message, without its newline. -/
def gramRow {K : Type} [IdTuple K] (msg : Gram K) : Bytes :=
  (IdTuple.toList msg.ids).flatMap (fun id => decimal id.toNat ++ [9, 9])
    ++ decimal msg.weight.toNat

def lemRow (term : Bytes) (id : UInt32) : Bytes :=
  printTerm term 50 ++ 9 :: padLeft 50 (decimal id.toNat)

def lemfreqRow (msg : LemFreq) : Bytes :=
  lemRow msg.str msg.id ++ 9 :: decimal msg.weight.toNat

/-- Different ids are printed in different ways. -/
theorem decimal_inj {n k : UInt32} (h : decimal n.toNat = decimal k.toNat) : n = k :=
  UInt32.toNat_inj.mp (decimal_injective h)

/-- The blanks behind a term. -/
theorem printTerm_eq (term : Bytes) (width : Int) : ∃ k : Nat,
    printTerm term width = hex term ++ 32 :: List.replicate k 32 := by
  refine ⟨max 1 (width - 2 * term.length).natAbs - 1, ?_⟩
  rw [printTerm, ← List.replicate_succ, Nat.sub_add_cancel (le_max_left 1 _)]

/-- Different texts are printed in different ways: as hexadecimal digits, and with one space
behind them at least. -/
theorem printTerm_inj {term term' : Bytes} {width width' : Int}
    (h : printTerm term width = printTerm term' width') : term = term' := by
  obtain ⟨k, hk⟩ := printTerm_eq term width
  obtain ⟨k', hk'⟩ := printTerm_eq term' width'
  rw [hk, hk'] at h
  exact hex_injective (column_inj (not_mem_hex (by decide)) (not_mem_hex (by decide)) h).1

/-- The bytes that separate columns and lines are in no column. -/
theorem not_mem_printTerm {b : UInt8} (hb : b.toNat < 32) (term : Bytes) (width : Int) :
    b ∉ printTerm term width := by
  intro h
  rcases List.mem_append.mp h with h | h
  · exact not_mem_hex (by omega) h
  · rw [List.eq_of_mem_replicate h] at hb
    exact absurd hb (by decide)

/-- A number has no control character. -/
theorem not_mem_number {b : UInt8} (hb : b.toNat < 32) (n : UInt32) :
    b ∉ padLeft 50 (decimal n.toNat) := by
  intro h
  rcases mem_padLeft h with rfl | h
  · exact absurd hb (by decide)
  · exact not_mem_decimal (by omega) h

/-- Padding keeps different numbers apart. -/
theorem number_inj {n k : UInt32}
    (h : padLeft 50 (decimal n.toNat) = padLeft 50 (decimal k.toNat)) : n = k :=
  decimal_inj (padLeft_inj (not_mem_decimal (by decide)) (not_mem_decimal (by decide)) h)

/-- The columns of ids, of the same number. Each column ends at its tabs, so the ids and the rest
of the line can be told. -/
theorem ids_inj {ids ids' : List UInt32} (hlen : ids.length = ids'.length) {r r' : Bytes}
    (h : ids.flatMap (fun id => decimal id.toNat ++ [9, 9]) ++ r
      = ids'.flatMap (fun id => decimal id.toNat ++ [9, 9]) ++ r') : ids = ids' ∧ r = r' := by
  induction ids generalizing ids' with
  | nil =>
      cases ids' with
      | nil => exact ⟨rfl, h⟩
      | cons id ids' => cases hlen
  | cons id ids ih =>
      cases ids' with
      | nil => cases hlen
      | cons id' ids' =>
          simp only [List.flatMap_cons, List.append_assoc, List.cons_append] at h
          obtain ⟨hid, htail⟩ := column_inj (not_mem_decimal (by decide))
            (not_mem_decimal (by decide)) h
          obtain ⟨rfl, hr⟩ := ih (Nat.succ.inj hlen) (List.cons.inj htail).2
          exact ⟨by rw [decimal_inj hid], hr⟩

/-- The line of a record determines its ids and its weight, when the number of ids is fixed. -/
theorem gramRow_injective {K : Type} [IdTuple K]
    (hlen : ∀ k k' : K, (IdTuple.toList k).length = (IdTuple.toList k').length)
    (hinj : ∀ k k' : K, IdTuple.toList k = IdTuple.toList k' → k = k') :
    Function.Injective (gramRow : Gram K → Bytes) := by
  intro msg msg' h
  obtain ⟨hids, hweight⟩ := ids_inj (hlen _ _) h
  exact Gram.ext (hinj _ _ hids) (decimal_inj hweight)

/-- It is one line. -/
theorem not_mem_gramRow {K : Type} [IdTuple K] (msg : Gram K) : 10 ∉ gramRow msg := by
  intro h
  rcases List.mem_append.mp h with h | h
  · obtain ⟨id, -, h⟩ := List.mem_flatMap.mp h
    rcases List.mem_append.mp h with h | h
    · exact not_mem_decimal (by decide) h
    · exact absurd h (by decide)
  · exact not_mem_decimal (by decide) h

/-- The line of a text and an id determines both. -/
theorem lemRow_inj {term term' : Bytes} {id id' : UInt32} (h : lemRow term id = lemRow term' id') :
    term = term' ∧ id = id' := by
  obtain ⟨hterm, hid⟩ := column_inj (not_mem_printTerm (by decide) _ _)
    (not_mem_printTerm (by decide) _ _) h
  exact ⟨printTerm_inj hterm, number_inj hid⟩

/-- It is one line, whatever the bytes of the text are. -/
theorem not_mem_lemRow (term : Bytes) (id : UInt32) : 10 ∉ lemRow term id := by
  intro h
  rcases List.mem_append.mp h with h | h
  · exact not_mem_printTerm (by decide) _ _ h
  · rcases List.mem_cons.mp h with h | h
    · exact absurd h (by decide)
    · exact not_mem_number (by decide) _ h

/-- The line of a lemma determines its record. No column has a tab in it, so the columns are what
stands between the tabs. -/
theorem lemfreqRow_injective : Function.Injective lemfreqRow := by
  intro msg msg' h
  unfold lemfreqRow lemRow at h
  simp only [List.append_assoc, List.cons_append] at h
  obtain ⟨hterm, hrest⟩ := column_inj (not_mem_printTerm (by decide) _ _)
    (not_mem_printTerm (by decide) _ _) h
  obtain ⟨hid, hweight⟩ := column_inj (not_mem_number (by decide) _)
    (not_mem_number (by decide) _) hrest
  cases msg
  cases msg'
  simp only [StrIdWeight.mk.injEq]
  exact ⟨printTerm_inj hterm, number_inj hid, decimal_inj hweight⟩

/-- It is one line. -/
theorem not_mem_lemfreqRow (msg : LemFreq) : 10 ∉ lemfreqRow msg := by
  intro h
  rcases List.mem_append.mp h with h | h
  · exact not_mem_lemRow _ _ h
  · rcases List.mem_cons.mp h with h | h
    · exact absurd h (by decide)
    · exact not_mem_decimal (by decide) h

/-- The types whose tables have the ids and the lemmas alone. -/
def readableTypes : List MsgType := [.bigram, .trigram, .lemId, .lemFreq]

/-- The header is a line of its own, and tells the type: the first lines of two tables are the
same for one type only. -/
theorem tableHeader_inj {type type' : MsgType} (h : type ∈ readableTypes)
    (h' : type' ∈ readableTypes) {r r' : Bytes}
    (heq : tableHeader type ++ r = tableHeader type' ++ r') : type = type' ∧ r = r' := by
  have hline : ∀ t ∈ readableTypes, tableHeader t = (tableHeader t).dropLast ++ [10] ∧
      10 ∉ (tableHeader t).dropLast := by decide
  have hname : ∀ t ∈ readableTypes, ∀ t' ∈ readableTypes,
      (tableHeader t).dropLast = (tableHeader t').dropLast → t = t' := by decide
  rw [(hline type h).1, (hline type' h').1, List.append_assoc, List.append_assoc] at heq
  obtain ⟨hrow, hr⟩ := column_inj (hline type h).2 (hline type' h').2 heq
  exact ⟨hname type h type' h' hrow, hr⟩

/-- The lines of a table tell its messages. Each line ends at its line break, and within a line
each column at its tabs. -/
theorem plainLines_injective {R : Type} (fixed9 : R → Bytes) {type : MsgType}
    (h : type ∈ readableTypes) :
    Function.Injective (fun msgs : List (type.Msg R) => msgs.flatMap (plainLine fixed9 type)) := by
  have hof : ∀ {M : Type} {line : M → Bytes} (row : M → Bytes),
      (∀ msg, line msg = row msg ++ [10]) → (∀ msg, 10 ∉ row msg) → Function.Injective row →
      Function.Injective (fun msgs : List M => msgs.flatMap line) := by
    intro M line row heq hnot hinj
    rw [funext heq]
    exact lines_injective hnot hinj
  cases type with
  | bigram =>
      exact hof gramRow (fun _ => rfl) not_mem_gramRow
        (gramRow_injective (fun _ _ => rfl) (fun _ _ => toList_idd_injective))
  | trigram =>
      exact hof gramRow (fun _ => rfl) not_mem_gramRow
        (gramRow_injective (fun _ _ => rfl) (fun _ _ => toList_iddd_injective))
  | lemId =>
      refine hof (fun msg : LemId => lemRow msg.str msg.id) (fun msg => ?_)
        (fun msg => not_mem_lemRow _ _) (fun msg msg' heq => ?_)
      · simp [plainLine, printLemid, lemRow]
      · obtain ⟨hstr, hid⟩ := lemRow_inj heq
        cases msg
        cases msg'
        exact congrArg₂ LemId.mk hstr hid
  | lemFreq =>
      refine hof lemfreqRow (fun msg => ?_) not_mem_lemfreqRow lemfreqRow_injective
      simp [plainLine, printLemfreq, lemfreqRow, lemRow]
  | _ => exact absurd h (by decide)

/-- Two files of these types have the same table if and only if they have the same type and the
same messages. -/
theorem gramcat_lossless {R : Type} [Double R] (fixed9 : R → Bytes)
    {fs fs' : String → Option (DataFile R)} {fname fname' : String} {type type' : MsgType}
    {file : RecordFile (type.Msg R)} {file' : RecordFile (type'.Msg R)}
    (htype : type ∈ readableTypes) (htype' : type' ∈ readableTypes)
    (hfile : fs fname = some (.known type file)) (hfile' : fs' fname' = some (.known type' file')) :
    gramcat fs fixed9 [fname] = gramcat fs' fixed9 [fname'] ↔
      (⟨type, file.msgs⟩ : Σ type : MsgType, List (type.Msg R)) = ⟨type', file'.msgs⟩ := by
  rw [gramcat_plain fixed9 hfile, gramcat_plain fixed9 hfile']
  constructor
  · intro heq
    have hout := congrArg Printed.out (Except.ok.inj heq)
    obtain ⟨rfl, hlines⟩ := tableHeader_inj htype htype' hout
    rw [plainLines_injective fixed9 htype hlines]
  · intro heq
    obtain ⟨rfl, hmsgs⟩ := Sigma.mk.inj heq
    rw [eq_of_heq hmsgs]

/-- A directory where every file numbers these lemmas. -/
def lemFiles (msgs : List LemId) (_ : String) : Option (DataFile ℚ) :=
  some (.known .lemId ⟨msgs.length, msgs⟩)

/-- The lemma `ab`, and a lemma whose bytes are those of its hexadecimal digits. Both are printed
in hexadecimal, so they are told apart. -/
theorem gramcat_lossless_hex :
    gramcat (lemFiles [⟨[97, 98], 1⟩]) (fun _ => []) ["lemid.bin"]
        = gramcat (lemFiles [⟨[54, 49, 54, 50], 1⟩]) (fun _ => []) ["lemid.bin"] ↔
      (⟨.lemId, [⟨[97, 98], 1⟩]⟩ : Σ type : MsgType, List (type.Msg ℚ))
        = ⟨.lemId, [⟨[54, 49, 54, 50], 1⟩]⟩ := by
  have htype : MsgType.lemId ∈ readableTypes := by decide
  have hfile : ∀ msgs, lemFiles msgs "lemid.bin" = some (.known .lemId ⟨msgs.length, msgs⟩) :=
    fun _ => rfl
  exact gramcat_lossless (fun _ => []) htype htype (hfile [⟨[97, 98], 1⟩])
    (hfile [⟨[54, 49, 54, 50], 1⟩])

/-! ### Dictionaries -/

section Decode
variable {R : Type} [Double R] {fs : String → Option (DataFile R)} {fname : String}

/-- With dictionaries that load, the lines are decoded one by one. They are loaded at the first
message, and the later ones find them there. -/
theorem decodeFile_known {type : MsgType} {file : RecordFile (type.Msg R)}
    (h : fs fname = some (.known type file)) {load : Except Error Texts} {texts : Texts}
    (hload : load = .ok texts) {line : Texts → type.Msg R → Except Error Bytes}
    {text : type.Msg R → Bytes} (hline : ∀ msg ∈ file.msgs, line texts msg = .ok (text msg)) :
    decodeFile fs fname type load line = .ok ⟨0, file.msgs.flatMap text, []⟩ := by
  have hrun : ∀ (msgs : List (type.Msg R)) (st : Option Texts × Bytes),
      (∀ msg ∈ msgs, line texts msg = .ok (text msg)) → (st.1 = none ∨ st.1 = some texts) →
      ∃ st', msgs.foldlM (decodeOne load line) st = .ok (st', st.2 ++ msgs.flatMap text) := by
    intro msgs
    induction msgs with
    | nil =>
        intro st _ _
        exact ⟨st.1, by rw [List.flatMap_nil, List.append_nil]; rfl⟩
    | cons msg msgs ih =>
        intro st hmsgs hst
        have honce : loadOnce load st.1 = .ok texts := by
          rcases hst with hst | hst
          · rw [hst]
            exact hload
          · rw [hst]
            rfl
        have hone : decodeOne load line st msg = .ok (some texts, st.2 ++ text msg) := by
          unfold decodeOne
          simp only [honce, hmsgs msg List.mem_cons_self]
        obtain ⟨st', hst'⟩ := ih (some texts, st.2 ++ text msg)
          (fun m hm => hmsgs m (List.mem_cons_of_mem msg hm)) (Or.inr rfl)
        refine ⟨st', ?_⟩
        rw [List.foldlM_cons, hone, List.flatMap_cons, ← List.append_assoc]
        exact hst'
  unfold decodeFile
  obtain ⟨st', hst'⟩ := hrun file.msgs (none, []) hline (Or.inl rfl)
  rw [applyFile_known h, hst', List.nil_append]

/-- The dictionary has the first string of each id, since `try_emplace` keeps what is there. -/
theorem loadIdmap_known {type : MsgType} {file : RecordFile (type.Msg R)}
    (h : fs fname = some (.known type file)) (id : type.Msg R → UInt32)
    (str : type.Msg R → Bytes) : ∃ idmap, loadIdmap fs fname type id str = .ok idmap ∧
      ∀ i, idmap.lookup i = (file.msgs.map (fun msg => (id msg, str msg))).lookup i := by
  have hfold : file.msgs.foldlM (fun idmap msg =>
        (.ok (FlatHashMap.tryEmplace idmap (id msg) (str msg)) :
          Except Error (FlatHashMap UInt32 Bytes))) ∅
      = .ok (file.msgs.foldl (fun idmap msg => idmap.tryEmplace (id msg) (str msg)) ∅) :=
    List.foldlM_pure
  refine ⟨_, (applyFile_known h _ _).trans hfold, fun i => ?_⟩
  rw [FlatHashMap.lookup_foldl_tryEmplace, AList.lookup_empty, Option.none_or]
  induction file.msgs with
  | nil => rfl
  | cons msg msgs ih =>
      rw [List.map_cons, List.lookup_cons]
      by_cases hi : id msg = i
      · subst hi
        simp
      · rw [List.find?_cons_of_neg (by simpa using hi), ih]
        have hne : (i == id msg) = false := by simpa using Ne.symm hi
        rw [hne]

end Decode

/-! ### Records in strings -/

/-- The strings of the ids of a tuple. -/
def namesIn {K : Type} [IdTuple K] (strings : List (UInt32 × Bytes)) (k : K) : List Bytes :=
  (IdTuple.toList k).map (fun id => (strings.lookup id).getD [])

section Names
variable {K : Type} [IdTuple K] {strings : List (UInt32 × Bytes)} {k : K} {strs : List Bytes}

/-- The names of ids are their strings. -/
theorem namesIn_eq (h : inStrings strings k = strs.map some) : namesIn strings k = strs := by
  have hget := congrArg (List.map (fun s : Option Bytes => s.getD [])) h
  rw [inStrings, List.map_map, List.map_map] at hget
  exact hget.trans (List.map_id strs)

/-- A tuple whose strings are all there is read from a dictionary of them. -/
theorem derefAll_names {dict : FlatHashMap UInt32 Bytes}
    (hdict : ∀ i, dict.lookup i = strings.lookup i) (h : inStrings strings k = strs.map some)
    (what : String) : derefAll dict what (IdTuple.toList k) = .ok (namesIn strings k) := by
  refine derefAll_eq_map what (fun i hi => ?_)
  have hmem : strings.lookup i ∈ inStrings strings k := List.mem_map_of_mem hi
  rw [h] at hmem
  obtain ⟨s, -, hs⟩ := List.mem_map.mp hmem
  rw [hdict, ← hs]
  rfl

end Names

/-- A collocation as it is printed: its lemmas, its score and the lines of its cases. -/
structure Shown where
  lems : List Bytes
  weight : ℚ
  cases : List (List Bytes × Nat)

/-- The record that is shown. -/
def Shown.record (shown : Shown) : List Bytes × ℚ × Multiset (List Bytes × Nat) :=
  (shown.lems, shown.weight, (shown.cases : Multiset (List Bytes × Nat)))

/-- The lines of a collocation. -/
def Shown.text (fixed9 : ℚ → Bytes) (shown : Shown) : Bytes :=
  groupLine fixed9 shown.lems shown.weight ++ shown.cases.flatMap (fun cs => wordLine cs.1 cs.2)

/-- A group in strings. -/
def shownGroup {K : Type} [IdTuple K] (c : Converted) (lm : Lemmatized) (lg : LemGroup K ℚ) :
    Shown :=
  { lems := namesIn (lemmaStrings lm) lg.lids
    weight := lg.weight
    cases := lg.cases.map (fun cs => (namesIn (wordStrings c) cs.wids, cs.count.toNat)) }

section Groups
variable {K : Type} [IdTuple K] {c : Converted} {lm : Lemmatized} {texts : Texts}
  (huni : ∀ i, texts.uni.lookup i = (wordStrings c).lookup i)
  (hlem : ∀ i, texts.unilem.lookup i = (lemmaStrings lm).lookup i)

include huni in
/-- The cases are printed with the words of their ids, which are all in the dictionary. The
induction is on the cases. -/
theorem decodeCases_names {cases : List (Case K)}
    (h : ∀ cs ∈ cases, ∃ ws : List Bytes, inStrings (wordStrings c) cs.wids = ws.map some) :
    decodeCases texts cases
      = .ok ((cases.map (fun cs => (namesIn (wordStrings c) cs.wids, cs.count.toNat))).flatMap
          (fun cs => wordLine cs.1 cs.2)) := by
  induction cases with
  | nil => rfl
  | cons cs cases ih =>
      obtain ⟨ws, hws⟩ := h cs List.mem_cons_self
      rw [decodeCases, derefAll_names huni hws]
      simp only [ih (fun cs' hcs' => h cs' (List.mem_cons_of_mem cs hcs'))]
      rfl

/-- A group is the record that it is printed as: when all its ids have strings, reading them back
gives the record. -/
theorem record_shownGroup {rec : List Bytes × ℚ × Multiset (List Bytes × Nat)} {lg : LemGroup K ℚ}
    (h : foundRecord rec = groupText c lm lg) : (shownGroup c lm lg).record = rec := by
  have hcases := congrArg (fun g => g.2.2.map (Prod.map (List.map fun s : Option Bytes => s.getD [])
    (id : Nat → Nat))) h
  have hback : (List.map fun s : Option Bytes => s.getD []) ∘ List.map some
      = (id : List Bytes → List Bytes) := by
    funext ws
    rw [Function.comp_apply, List.map_map]
    exact List.map_id ws
  refine Prod.ext ?_ (Prod.ext ?_ ?_)
  · exact namesIn_eq (congrArg Prod.fst h).symm
  · exact (congrArg (fun g => g.2.1) h).symm
  · simp only [foundRecord, groupText, Multiset.map_map, Prod.map_comp_map, hback, Function.id_comp,
      Prod.map_id, Multiset.map_id] at hcases
    rw [hcases]
    show Multiset.ofList _ = Multiset.map _ (Multiset.ofList _)
    rw [Multiset.map_coe, List.map_map]
    refine congrArg Multiset.ofList (List.map_congr_left (fun cs _ => ?_))
    exact Prod.ext (by rw [Function.comp_apply]; simp [namesIn, inStrings]) rfl

include huni hlem in
/-- So is a group, with the lemmas of its ids and its score. Its record is one in strings, so each
of its ids has one. -/
theorem decodeGroup_shown (fixed9 : ℚ → Bytes)
    {rec : List Bytes × ℚ × Multiset (List Bytes × Nat)} {lg : LemGroup K ℚ}
    (h : foundRecord rec = groupText c lm lg) :
    decodeGroup fixed9 texts lg = .ok ((shownGroup c lm lg).text fixed9) := by
  have hlems : inStrings (lemmaStrings lm) lg.lids = rec.1.map some := (congrArg Prod.fst h).symm
  have hcases : ∀ cs ∈ lg.cases, ∃ ws : List Bytes,
      inStrings (wordStrings c) cs.wids = ws.map some := fun cs hcs =>
    let ⟨ws, hws, _⟩ := (cases_of_groupText h).1 cs hcs
    ⟨ws, hws⟩
  unfold decodeGroup
  rw [derefAll_names hlem hlems, decodeCases_names huni hcases]
  rfl

end Groups

/-- The groups are the records that they are printed as, one by one. -/
theorem record_shown {K : Type} [IdTuple K] {c : Converted} {lm : Lemmatized}
    {records : List (List Bytes × ℚ × Multiset (List Bytes × Nat))} {groups : List (LemGroup K ℚ)}
    (h : groups.map (groupText c lm) = records.map foundRecord) :
    (groups.map (shownGroup c lm)).map Shown.record = records ∧
      ∀ lg ∈ groups, ∃ rec, foundRecord rec = groupText c lm lg := by
  induction groups generalizing records with
  | nil =>
      rw [List.map_nil] at h
      rw [List.map_eq_nil_iff.mp h.symm]
      exact ⟨rfl, fun lg hlg => absurd hlg List.not_mem_nil⟩
  | cons lg groups ih =>
      obtain ⟨rec, records, rfl, hrec, hrecords⟩ := List.map_eq_cons_iff.mp h.symm
      obtain ⟨hshown, hall⟩ := ih hrecords.symm
      refine ⟨?_, List.forall_mem_cons.mpr ⟨⟨rec, hrec⟩, hall⟩⟩
      rw [List.map_cons, List.map_cons, hshown, record_shownGroup hrec]

/-! ### The dictionaries of a save directory -/

section Load
variable {fs : String → Option (DataFile ℚ)} {c : Converted} {lm : Lemmatized}
  (huni : fs "uni.bin" = some (.known .unigram c.uni))

include huni

/-- A file of bigrams is printed with the words of its ids, when each id is in the dictionary of
the words. -/
theorem gramcat_words (fixed9 : ℚ → Bytes) {fname : String} {file : RecordFile Bigram}
    (h : fs fname = some (.known .bigram file))
    (hwords : ∀ g ∈ file.msgs, ∃ ws : List Bytes, inStrings (wordStrings c) g.ids = ws.map some) :
    gramcat fs fixed9 [fname, "uni.bin"]
      = .ok ⟨0, file.msgs.flatMap
          (fun g => wordLine (namesIn (wordStrings c) g.ids) g.weight.toNat), []⟩ := by
  obtain ⟨uni, hload, hlookup⟩ := loadIdmap_known huni StrIdWeight.id StrIdWeight.str
  have htexts : loadWords fs "uni.bin" = .ok { uni := uni, unilem := ∅ } := by
    unfold loadWords
    rw [hload]
  unfold gramcat
  simp only [getDataType_known h]
  refine decodeFile_known h htexts (fun g hg => ?_)
  obtain ⟨ws, hws⟩ := hwords g hg
  unfold decodeGram
  rewrite [derefAll_names hlookup hws]
  rfl

/-- The dictionaries of a run: the words of `uni.bin`, and the lemmas of `lemid.bin`. -/
theorem loadTexts_known (hlem : fs "lemid.bin" = some (.known .lemId lm.lemid)) :
    ∃ texts, loadTexts fs "uni.bin" "lemid.bin" = .ok texts ∧
      (∀ i, texts.uni.lookup i = (wordStrings c).lookup i) ∧
      ∀ i, texts.unilem.lookup i = (lemmaStrings lm).lookup i := by
  obtain ⟨uni, huniload, hunilookup⟩ := loadIdmap_known huni StrIdWeight.id StrIdWeight.str
  obtain ⟨unilem, hlemload, hlemlookup⟩ := loadIdmap_known hlem LemId.id LemId.str
  refine ⟨{ uni := uni, unilem := unilem }, ?_, hunilookup, hlemlookup⟩
  unfold loadTexts
  rw [huniload]
  simp only [hlemload]

variable (hlem : fs "lemid.bin" = some (.known .lemId lm.lemid))
  {records : List (List Bytes × ℚ × Multiset (List Bytes × Nat))} (fixed9 : ℚ → Bytes)
  {fname : String}

include hlem

/-- `gramcat` with both dictionaries prints the groups of two lemmas in strings, one after
another. -/
theorem gramcat_lem2 {file : RecordFile (Lem2Group ℚ)}
    (h : fs fname = some (.known .lem2Group file))
    (hrecords : file.msgs.map (groupText c lm) = records.map foundRecord) :
    gramcat fs fixed9 [fname, "uni.bin", "lemid.bin"]
      = .ok ⟨0, (file.msgs.map (shownGroup c lm)).flatMap (Shown.text fixed9), []⟩ := by
  obtain ⟨texts, hload, hwords, hlems⟩ := loadTexts_known huni hlem
  unfold gramcat
  simp only [getDataType_known h]
  rw [List.flatMap_map]
  refine decodeFile_known h hload (fun lg hlg => ?_)
  obtain ⟨rec, hrec⟩ := (record_shown hrecords).2 lg hlg
  exact decodeGroup_shown hwords hlems fixed9 hrec

/-- And those of three. The groups of both types are printed by the same function. -/
theorem gramcat_lem3 {file : RecordFile (Lem3Group ℚ)}
    (h : fs fname = some (.known .lem3Group file))
    (hrecords : file.msgs.map (groupText c lm) = records.map foundRecord) :
    gramcat fs fixed9 [fname, "uni.bin", "lemid.bin"]
      = .ok ⟨0, (file.msgs.map (shownGroup c lm)).flatMap (Shown.text fixed9), []⟩ := by
  obtain ⟨texts, hload, hwords, hlems⟩ := loadTexts_known huni hlem
  unfold gramcat
  simp only [getDataType_known h]
  rw [List.flatMap_map]
  refine decodeFile_known h hload (fun lg hlg => ?_)
  obtain ⟨rec, hrec⟩ := (record_shown hrecords).2 lg hlg
  exact decodeGroup_shown hwords hlems fixed9 hrec

end Load

/-! ### Behind a run -/

/-- The files that a run leaves in the save directory, by name. -/
def savedFiles {std : Stdlib} {dsave : String} {th : Thresholds ℚ} {c : Converted}
    {lm : Lemmatized} (r : Run ℚ std dsave th c lm) (fname : String) : Option (DataFile ℚ) :=
  [("uni.bin", DataFile.known .unigram c.uni),
    ("lemid.bin", .known .lemId lm.lemid),
    ("lems.bin", .other "Phrase" (fun type => by cases type <;> decide)),
    ("bi.bin", .known .bigram r.bi),
    ("extended2.bin", .known .lem2Group r.extended2),
    ("bifreq.bin", .known .bigram r.bifreq),
    ("lemfreq.bin", .known .lemFreq r.lemfreq),
    ("bifiltered.bin", .known .lem2Group r.bifiltered),
    ("tri.bin", .known .trigram r.tri),
    ("extended3.bin", .known .lem3Group r.extended3),
    ("trifreq.bin", .known .trigram r.trifreq),
    ("trifiltered.bin", .known .lem3Group r.trifiltered)].lookup fname

/-- The directory has the files of the run, and perhaps others. -/
def HasFiles {std : Stdlib} {dsave : String} {th : Thresholds ℚ} {c : Converted} {lm : Lemmatized}
    (r : Run ℚ std dsave th c lm) (fs : String → Option (DataFile ℚ)) : Prop :=
  ∀ {fname type file}, savedFiles r fname = some (.known type file) →
    fs fname = some (.known type file)

/-- A directory of bytes has the files that were written to it. The formats are a parameter, with
the laws by which a message is read back. -/
theorem hasFiles_of_written {std : Stdlib} {dsave : String} {th : Thresholds ℚ} {c : Converted}
    {lm : Lemmatized} (r : Run ℚ std dsave th c lm) (fmts : Formats ℚ)
    {fs : String → Option Bytes}
    (h : ∀ {fname type} {file : RecordFile (type.Msg ℚ)},
      savedFiles r fname = some (.known type file) → ∃ total : UInt64, total.toNat = file.total ∧
        fmts.header.Lawful Message.mergeFrom (headerOf (fmts.format type) total) ∧
        (∀ m ∈ file.msgs, (fmts.msg type).Lawful Message.mergeFrom m) ∧
        fs fname = some (Wire.fileBytes (fmts.format type) total file.msgs)) :
    HasFiles r (viewed fmts fs) := by
  intro fname type file hfile
  obtain ⟨total, htotal, hheader, hmsgs, hbytes⟩ := h hfile
  unfold viewed
  rw [hbytes, Option.map_some, view_fileBytes fmts hheader hmsgs, htotal]

/-- What `gramcat` prints of the files: the pairs of words with their counts, and the collocations
of two and of three lemmas. -/
structure Shows (fixed9 : ℚ → Bytes) (th : Thresholds ℚ) (t : Corpus Bytes Bytes)
    (fs : String → Option (DataFile ℚ)) : Prop where
  words : ∃ grams : List (List Bytes × Nat),
    grams.Perm ((t.grams 2).dedup.map (fun ws => (ws, (t.grams 2).count ws))) ∧
    gramcat fs fixed9 ["bi.bin", "uni.bin"]
      = .ok ⟨0, grams.flatMap (fun g => wordLine g.1 g.2), []⟩
  pairs : ∃ shown : List Shown, t.Lists Set.univ (bounds2 th) 2 (shown.map Shown.record) ∧
    gramcat fs fixed9 ["bifiltered.bin", "uni.bin", "lemid.bin"]
      = .ok ⟨0, shown.flatMap (Shown.text fixed9), []⟩
  triples : ∃ shown : List Shown,
    t.Lists (extending (t.named Set.univ (bounds2 th))) (bounds3 th) 3 (shown.map Shown.record) ∧
    gramcat fs fixed9 ["trifiltered.bin", "uni.bin", "lemid.bin"]
      = .ok ⟨0, shown.flatMap (Shown.text fixed9), []⟩

namespace TextFiles
variable {lib : Baalbek} {image : Bytes → List Bytes} {docs : List Bytes} {std : Stdlib}
  {c : Converted} {lm : Lemmer} (h : TextFiles lib image docs std c lm) {dsave : String}
  {th : Thresholds ℚ} (r : Run ℚ std dsave th c (lm.save std))

include h

/-- A record of `bi.bin` is one of a pair of words of the text. -/
theorem bi_strings : ∀ g ∈ r.bi.msgs, ∃ ws : List Bytes,
    inStrings (wordStrings c) g.ids = ws.map some := by
  intro g hg
  have hmem := ((h.computes r).bi.mem_iff).mp (List.mem_map_of_mem hg)
  obtain ⟨ws, -, heq⟩ := List.mem_map.mp hmem
  exact ⟨ws, (congrArg Prod.fst heq).symm⟩

/-- `bi.bin` has the pairs of words of the text with their counts. The ids are read as the words
that `uni.bin` gives them. -/
theorem bi_words : (r.bi.msgs.map (fun g => (namesIn (wordStrings c) g.ids, g.weight.toNat))).Perm
    ((textCorpus lib image docs).grams 2 |>.dedup.map
      (fun ws => (ws, ((textCorpus lib image docs).grams 2).count ws))) := by
  have hbi := (h.computes r).bi
  rw [CountsGrams, Corpus.selected_univ] at hbi
  have hread := hbi.map (Prod.map (List.map (fun s : Option Bytes => s.getD [])) id)
  rw [List.map_map, List.map_map] at hread
  refine (List.Perm.of_eq ?_).trans (hread.trans (List.Perm.of_eq ?_))
  · refine List.map_congr_left (fun g _ => ?_)
    simp only [Function.comp_apply, gramText, Prod.map, namesIn, inStrings, List.map_map, id]
    rfl
  · refine List.map_congr_left (fun ws _ => Prod.ext ?_ rfl)
    show (ws.map some).map _ = ws
    rw [List.map_map]
    exact List.map_id' ws

/-- The tables of the files of a run. Each file is in the directory under its name, so the lines
are those of the statistics that the run has computed. -/
theorem shows (fixed9 : ℚ → Bytes) {fs : String → Option (DataFile ℚ)} (hfs : HasFiles r fs) :
    Shows fixed9 th (textCorpus lib image docs) fs := by
  have hcomputes := h.computes r
  have huni : fs "uni.bin" = some (.known .unigram c.uni) := hfs rfl
  have hlem : fs "lemid.bin" = some (.known .lemId (lm.save std).lemid) := hfs rfl
  have hbi : fs "bi.bin" = some (.known .bigram r.bi) := hfs rfl
  have hpairs : fs "bifiltered.bin" = some (.known .lem2Group r.bifiltered) := hfs rfl
  have htriples : fs "trifiltered.bin" = some (.known .lem3Group r.trifiltered) := hfs rfl
  constructor
  · refine ⟨_, h.bi_words r, ?_⟩
    rw [gramcat_words huni fixed9 hbi (h.bi_strings r), List.flatMap_map]
  · obtain ⟨records, hlists, hrecords⟩ := hcomputes.pairs
    refine ⟨r.bifiltered.msgs.map (shownGroup c (lm.save std)), ?_,
      gramcat_lem2 huni hlem fixed9 hpairs hrecords⟩
    rw [(record_shown hrecords).1]
    exact hlists
  · obtain ⟨records, hlists, hrecords⟩ := hcomputes.triples
    refine ⟨r.trifiltered.msgs.map (shownGroup c (lm.save std)), ?_,
      gramcat_lem3 huni hlem fixed9 htriples hrecords⟩
    rw [(record_shown hrecords).1]
    exact hlists

end TextFiles

end Colloc.Proofs

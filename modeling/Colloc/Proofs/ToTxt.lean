import Colloc.Proofs.ParList
import Colloc.Spec.ToTxt
import Mathlib.Data.List.ReduceOption

/-!
# `Colloc.Proofs.ToTxt`: the jobs of `to_txt`, side by side

The jobs share the entries of `$path`, and nothing orders their commands. A job reads and writes
the entries of its own zip files and of their `$newdir` (`jobStep_confined`). `par_list` hands each
zip file to one job, so these entries are those of one job alone when no zip file is named as the
`$newdir` of another. Then every interleaving of the jobs ends, and leaves what one job over all
the zip files leaves (`jobsOf_interleaves`): the zip files are gone, and each one's files stand in
its directory. `to_txt` leaves the text of each book there in the place of the book
(`toTxt_interleaves`).

The names of the zip files and of the books must be plain, or `glob` and the shell split them. The
books must be files: `glob` lists a directory `a.fb2` as well, and then `unlink` ends the job
(`act_unlinkFb2_dies`). And without the condition on the names of the zip files the jobs race. Of
`b.zip` and `b.zip.zip` the second is unpacked into `b.zip`, and while the first is still there, it
is deleted without being unpacked (`toTxt_races`).
-/

set_option autoImplicit false

namespace Colloc.Proofs

open Colloc.Lib
open Colloc.Spec

/-! ### Names -/

/-- A name is its stem and its suffix. -/
theorem fileparse_append {name suffix : String} (h : hasEnding name suffix = true) :
    fileparse name suffix ++ suffix = name := by
  have hsuffix := (hasEnding_iff name suffix).mp h
  rw [fileparse, if_pos h, ← String.toList_inj, String.toList_append, String.toList_ofList]
  exact List.suffix_iff_eq_append.mp hsuffix

/-- What the pattern lists has its suffix. -/
theorem hasEnding_of_isGlobbed {suffix name : String} (h : isGlobbed suffix name = true) :
    hasEnding name suffix = true := by
  unfold isGlobbed at h
  simp only [Bool.and_eq_true] at h
  exact h.2

/-- Zip files have directories of their own. -/
theorem newdir_inj {zip zip' : String} (h : isGlobbed ".zip" zip = true)
    (h' : isGlobbed ".zip" zip' = true) (heq : newdir zip = newdir zip') : zip = zip' := by
  rw [← fileparse_append (hasEnding_of_isGlobbed h),
    ← fileparse_append (hasEnding_of_isGlobbed h')]
  exact congrArg (· ++ ".zip") heq

/-- Books have texts of their own: the ending is cut off and another one put in its place. -/
theorem textName_inj {fb2 fb2' : String} (h : isGlobbed ".fb2" fb2 = true)
    (h' : isGlobbed ".fb2" fb2' = true) (heq : textName fb2 = textName fb2') : fb2 = fb2' := by
  have hstem : fileparse fb2 ".fb2" = fileparse fb2' ".fb2" := by
    rw [← String.toList_inj]
    have hlist := congrArg String.toList heq
    unfold textName at hlist
    rw [String.toList_append, String.toList_append] at hlist
    exact List.append_cancel_right hlist
  rw [← fileparse_append (hasEnding_of_isGlobbed h),
    ← fileparse_append (hasEnding_of_isGlobbed h'), hstem]

/-- A text is not a book, as it ends in another way. -/
theorem not_isGlobbed_textName (fb2 : String) : isGlobbed ".fb2" (textName fb2) = false := by
  have hending : hasEnding (textName fb2) ".fb2" = false := by
    rw [Bool.eq_false_iff]
    intro h
    have hfb2 := (hasEnding_iff _ _).mp h
    have htxt : ".txt".toList <:+ (textName fb2).toList := by
      unfold textName
      rw [String.toList_append]
      exact List.suffix_append _ _
    -- Both suffixes have four characters.
    have heq := List.IsSuffix.eq_of_length (List.suffix_of_suffix_length_le hfb2 htxt (by decide))
      (by decide)
    exact absurd heq (by decide)
  rw [isGlobbed, hending, Bool.and_false]

/-! ### The books of one directory -/

section Books
variable (sh : Shell)

/-- No directory is named as a book, or as the text of a book that is there. -/
structure Tidy (d : Dir) : Prop where
  book : ∀ fb2, isGlobbed ".fb2" fb2 = true → d.lookup fb2 ≠ some .dir
  text : ∀ fb2, isGlobbed ".fb2" fb2 = true → (d.lookup fb2).isSome →
    d.lookup (textName fb2) ≠ some .dir

/-- The books of `d` are texts in `d'`, and the other files stay. -/
structure TextsOf (d d' : Dir) : Prop where
  gone : ∀ fb2, isGlobbed ".fb2" fb2 = true → d'.lookup fb2 = none
  text : ∀ fb2 book, isGlobbed ".fb2" fb2 = true → d.lookup fb2 = some (.file book) →
    d'.lookup (textName fb2) = some (.file (sh.xmlGrep book))
  kept : ∀ name, isGlobbed ".fb2" name = false →
    (∀ fb2, isGlobbed ".fb2" fb2 = true → (d.lookup fb2).isSome → textName fb2 ≠ name) →
    d'.lookup name = d.lookup name

/-- The loop over the books, and the `unlink` behind it. -/
def texts (d : Dir) : Dir := unlinkBooks sh ((bookNames sh d).foldl (writeText sh) d)

/-- The books of a directory are the listed names that it has. -/
theorem mem_bookNames {d : Dir} {fb2 : String} :
    fb2 ∈ bookNames sh d ↔ isGlobbed ".fb2" fb2 = true ∧ (d.lookup fb2).isSome := by
  unfold bookNames
  rw [(sh.glob_perm _).mem_iff, List.mem_filter, ← AList.mem_keys, AList.lookup_isSome, and_comm]

/-- The text of a book changes nothing else. -/
theorem lookup_writeText_of_ne (d : Dir) {fb2 name : String} (h : name ≠ textName fb2) :
    (writeText sh d fb2).lookup name = d.lookup name := by
  unfold writeText
  split
  · rfl
  · exact AList.lookup_insert_ne h

/-- It is a file, unless a directory has its name. -/
theorem lookup_writeText {d : Dir} {fb2 : String} (h : d.lookup (textName fb2) ≠ some .dir) :
    (writeText sh d fb2).lookup (textName fb2) = some (.file (grepNode sh (d.lookup fb2))) := by
  unfold writeText
  split
  · rename_i hdir
    exact absurd hdir h
  · exact AList.lookup_insert d

/-- A text is not a book, so the books stay. -/
theorem lookup_writeText_book (d : Dir) {x : String} (hx : isGlobbed ".fb2" x = true)
    (fb2 : String) : (writeText sh d fb2).lookup x = d.lookup x := by
  refine lookup_writeText_of_ne sh d ?_
  rintro rfl
  rw [not_isGlobbed_textName] at hx
  cases hx

/-- A directory is tidy after a text as it was before: what is written is a file. -/
theorem Tidy.writeText {d : Dir} (h : Tidy d) (fb2 : String) : Tidy (writeText sh d fb2) := by
  have hlookup : ∀ name, d.lookup name ≠ some .dir →
      (Spec.writeText sh d fb2).lookup name ≠ some .dir := by
    intro name hname
    by_cases heq : name = textName fb2
    · subst heq
      rw [lookup_writeText sh hname]
      exact fun hdir => by cases hdir
    · rw [lookup_writeText_of_ne sh d heq]
      exact hname
  refine ⟨fun x hx => hlookup x (h.book x hx), fun x hx hsome => hlookup _ (h.text x hx ?_)⟩
  rwa [lookup_writeText_book sh d hx] at hsome

/-- Texts are files, so a directory without a directory in it stays one. -/
theorem Tidy.writeTexts {d : Dir} (h : Tidy d) (books : List String) :
    Tidy (books.foldl (Spec.writeText sh) d) := by
  induction books generalizing d with
  | nil => exact h
  | cons fb2 books ih => exact ih (h.writeText sh fb2)

/-- The books of a tidy directory are files, so `unlink` can remove them all. -/
theorem Tidy.isFile {d : Dir} (h : Tidy d) : ∀ fb2 ∈ bookNames sh d, isFile d fb2 = true := by
  intro fb2 hfb2
  obtain ⟨hglobbed, hsome⟩ := (mem_bookNames sh).mp hfb2
  obtain ⟨node, hnode⟩ := Option.isSome_iff_exists.mp hsome
  unfold Spec.isFile
  rw [hnode]
  cases node with
  | file content => rfl
  | dir => exact absurd hnode (h.book fb2 hglobbed)

/-- The loop leaves every file but the texts of its books. -/
theorem lookup_writeTexts_of_ne {name : String} {books : List String}
    (h : ∀ fb2 ∈ books, textName fb2 ≠ name) (d : Dir) :
    (books.foldl (writeText sh) d).lookup name = d.lookup name := by
  induction books generalizing d with
  | nil => rfl
  | cons fb2 books ih =>
      rw [List.foldl_cons, ih (fun x hx => h x (List.mem_cons_of_mem _ hx)),
        lookup_writeText_of_ne sh d (h fb2 List.mem_cons_self).symm]

/-- The text of a book in the loop. No text has the name of a book, so a book that is still to
come is as it was. -/
theorem lookup_writeTexts {books : List String} (hnd : books.Nodup)
    (hbooks : ∀ fb2 ∈ books, isGlobbed ".fb2" fb2 = true) {d : Dir} (htidy : Tidy d)
    {fb2 : String} {book : Bytes} (hmem : fb2 ∈ books) (hbook : d.lookup fb2 = some (.file book)) :
    (books.foldl (writeText sh) d).lookup (textName fb2) = some (.file (sh.xmlGrep book)) := by
  have hsome : (d.lookup fb2).isSome := by
    rw [hbook]
    rfl
  induction books generalizing d with
  | nil => cases hmem
  | cons x books ih =>
      rw [List.nodup_cons] at hnd
      have hx := hbooks x List.mem_cons_self
      have hbooks' := fun y hy => hbooks y (List.mem_cons_of_mem x hy)
      rw [List.foldl_cons]
      rcases List.mem_cons.mp hmem with rfl | hmem
      · rw [lookup_writeTexts_of_ne, lookup_writeText sh (htidy.text fb2 hx hsome), hbook]
        · rfl
        · intro y hy heq
          rw [textName_inj (hbooks' y hy) hx heq] at hy
          exact hnd.1 hy
      · have hkept := lookup_writeText_book sh d (hbooks' fb2 hmem) x
        exact ih hnd.2 hbooks' (htidy.writeText sh x) hmem (hkept.trans hbook)
          (by rw [hkept]; exact hsome)

/-- The directory after the names are erased one after the other. The induction is on the names.
-/
theorem lookup_eraseAll (names : List String) (d : Dir) (name : String) :
    (names.foldl (fun d fb2 => d.erase fb2) d).lookup name
      = if name ∈ names then none else d.lookup name := by
  induction names generalizing d with
  | nil => simp
  | cons x names ih =>
      rw [List.foldl_cons, ih]
      by_cases hx : name = x
      · subst hx
        simp [AList.lookup_erase]
      · simp [hx, AList.lookup_erase_ne hx]

/-- In a tidy directory each book gives way to its text, and the other files stay. The texts are
written first, from books that no text replaces, and then the books go. -/
theorem texts_spec {d : Dir} (htidy : Tidy d) : TextsOf sh d (texts sh d) := by
  have hbooks : ∀ fb2 ∈ bookNames sh d, isGlobbed ".fb2" fb2 = true :=
    fun fb2 h => ((mem_bookNames sh).mp h).1
  have hnd : (bookNames sh d).Nodup :=
    (sh.glob_perm _).nodup_iff.mpr ((AList.keys_nodup d).filter _)
  have hfiles := (htidy.writeTexts sh (bookNames sh d)).isFile sh
  have hlookup : ∀ name, (texts sh d).lookup name = if isGlobbed ".fb2" name = true then none
      else ((bookNames sh d).foldl (writeText sh) d).lookup name := by
    intro name
    rw [texts, unlinkBooks, List.filter_eq_self.mpr hfiles, lookup_eraseAll]
    by_cases hname : isGlobbed ".fb2" name = true
    · by_cases hmem : name ∈ bookNames sh ((bookNames sh d).foldl (writeText sh) d)
      · rw [if_pos hmem, if_pos hname]
      · rw [if_neg hmem, if_pos hname]
        rw [mem_bookNames, not_and, Option.not_isSome_iff_eq_none] at hmem
        exact hmem hname
    · rw [if_neg hname, if_neg (fun hmem => hname ((mem_bookNames sh).mp hmem).1)]
  refine ⟨fun fb2 h => ?_, fun fb2 book h hbook => ?_, fun name h hother => ?_⟩
  · rw [hlookup, if_pos h]
  · rw [hlookup, not_isGlobbed_textName, if_neg Bool.false_ne_true]
    exact lookup_writeTexts sh hnd hbooks htidy
      ((mem_bookNames sh).mpr ⟨h, by rw [hbook]; rfl⟩) hbook
  · rw [hlookup, h, if_neg Bool.false_ne_true]
    exact lookup_writeTexts_of_ne sh (fun fb2 hfb2 =>
      hother fb2 ((mem_bookNames sh).mp hfb2).1 ((mem_bookNames sh).mp hfb2).2) d

/-- A directory among the books ends the job, and the zip file stays. The other books are unlinked
all the same. -/
theorem act_unlinkFb2_dies {d : Dir} {fb2 : String} (h : isGlobbed ".fb2" fb2 = true)
    (hdir : d.lookup fb2 = some .dir) (zip : String) (z : Option PathEntry) :
    (Cmd.unlinkFb2 zip).act sh z (some (.dir d)) = (none, z, some (.dir (unlinkBooks sh d))) := by
  have hmem : fb2 ∈ bookNames sh d := (mem_bookNames sh).mpr ⟨h, by rw [hdir]; rfl⟩
  have hfile : isFile d fb2 = false := by
    unfold isFile
    rw [hdir]
  have hall : ¬(bookNames sh d).all (isFile d) = true := fun hall =>
    Bool.false_ne_true (hfile ▸ List.all_eq_true.mp hall fb2 hmem)
  show (if (bookNames sh d).all (isFile d) then some [] else none, z, _) = _
  rw [if_neg hall]

/-! ### Plain names -/

/-- The books have plain names. -/
def PlainBooks (d : Dir) : Prop :=
  ∀ fb2, isGlobbed ".fb2" fb2 = true → (d.lookup fb2).isSome → isPlain fb2 = true

/-- So have those that an archive adds. -/
def PlainEntry : PathEntry → Prop
  | .file content => ∀ d, PlainBooks d → PlainBooks (sh.unzip content d)
  | .dir d => PlainBooks d

/-- An empty directory has no books. -/
theorem plainBooks_empty : PlainBooks (∅ : Dir) := by
  intro fb2 _ hsome
  rw [AList.lookup_empty] at hsome
  cases hsome

/-- A text is not a book. -/
theorem PlainBooks.writeText {d : Dir} (h : PlainBooks d) (fb2 : String) :
    PlainBooks (writeText sh d fb2) := by
  intro x hx hsome
  rw [lookup_writeText_book sh d hx] at hsome
  exact h x hx hsome

/-- The texts are not books, so the books are those from before. -/
theorem PlainBooks.writeTexts {d : Dir} (h : PlainBooks d) (books : List String) :
    PlainBooks (books.foldl (Spec.writeText sh) d) := by
  induction books generalizing d with
  | nil => exact h
  | cons fb2 books ih => exact ih (h.writeText sh fb2)

/-- Nor are there more books after some are unlinked. -/
theorem PlainBooks.unlinkBooks {d : Dir} (h : PlainBooks d) : PlainBooks (unlinkBooks sh d) := by
  intro x hx hsome
  rw [Spec.unlinkBooks, lookup_eraseAll] at hsome
  split at hsome
  · cases hsome
  · exact h x hx hsome

end Books

/-! ### One job -/

section Job
variable (sh : Shell)

/-- The zip file and its directory. -/
theorem putEntries_zip (fs : PathEntries) (zip : String) (z d : Option PathEntry) :
    putEntries fs zip z d zip = z := by
  unfold putEntries
  rw [Function.update_self]

/-- The entry of the directory after both entries are set. -/
theorem putEntries_newdir (fs : PathEntries) {zip : String} (hne : newdir zip ≠ zip)
    (z d : Option PathEntry) : putEntries fs zip z d (newdir zip) = d := by
  unfold putEntries
  rw [Function.update_of_ne hne, Function.update_self]

/-- No other entry is set. -/
theorem putEntries_of_ne (fs : PathEntries) {zip name : String} (hzip : name ≠ zip)
    (hdir : name ≠ newdir zip) (z d : Option PathEntry) : putEntries fs zip z d name = fs name := by
  unfold putEntries
  rw [Function.update_of_ne hzip, Function.update_of_ne hdir]

/-- Setting the two entries again forgets what they were set to before. This is what a job does to
its zip file and its directory. -/
theorem putEntries_putEntries (fs : PathEntries) (zip : String) (z d z' d' : Option PathEntry) :
    putEntries (putEntries fs zip z d) zip z' d' = putEntries fs zip z' d' := by
  funext name
  unfold putEntries
  by_cases hzip : name = zip
  · subst hzip
    rw [Function.update_self, Function.update_self]
  · rw [Function.update_of_ne hzip, Function.update_of_ne hzip]
    by_cases hdir : name = newdir zip
    · subst hdir
      rw [Function.update_self, Function.update_self]
    · rw [Function.update_of_ne hdir, Function.update_of_ne hdir, Function.update_of_ne hzip,
        Function.update_of_ne hdir]

/-- Setting them to what they are changes nothing. -/
theorem putEntries_self (fs : PathEntries) (zip : String) :
    putEntries fs zip (fs zip) (fs (newdir zip)) = fs := by
  unfold putEntries
  rw [Function.update_eq_self, Function.update_eq_self]

variable {sh} in
/-- A command on its zip file, and what comes behind it: one step more, from the two entries that
it leaves. -/
theorem alone_cmd (cmd : Cmd) {zip : String} (hzip : cmd.zip = zip)
    (hplain : cmd.isPlain sh.path = true) (hne : newdir zip ≠ zip)
    {new cmds cmds' : List Cmd} {z d z' d' : Option PathEntry} {fs fs' : PathEntries} {n : Nat}
    (hact : cmd.act sh z d = (some new, z', d'))
    (h : Alone (jobStep sh) (new ++ cmds) (putEntries fs zip z' d') n cmds' fs') :
    Alone (jobStep sh) (cmd :: cmds) (putEntries fs zip z d) (1 + n) cmds' fs' := by
  have hstep : jobStep sh (cmd :: cmds) (putEntries fs zip z d)
      = some (new ++ cmds, putEntries fs zip z' d') := by
    simp only [jobStep, hplain, if_true, hzip]
    rw [putEntries_zip, putEntries_newdir fs hne, hact]
    simp only [putEntries_putEntries, cmdsAfter]
  exact Alone.head hstep h

/-- The names in a command on a zip file are plain when the name of the zip file is. -/
theorem isPlain_cmd (hpath : isPlain sh.path = true) {zip : String} (hzip : isPlain zip = true)
    {cmd : Cmd} (h : cmd.zip = zip) (hbook : ∀ x fb2, cmd = .xmlGrep x fb2 → isPlain fb2 = true) :
    cmd.isPlain sh.path = true := by
  unfold Cmd.isPlain
  rw [hpath, h, hzip]
  cases cmd with
  | xmlGrep x fb2 => exact hbook x fb2 rfl
  | _ => rfl

variable (hpath : isPlain sh.path = true)
include hpath

/-- The texts of the books are written one by one, whatever commands come behind. The induction is
on the books. -/
theorem alone_xmlGreps {zip : String} (hzip : isPlain zip = true) (hne : newdir zip ≠ zip)
    (fs : PathEntries) (z : Option PathEntry) (cmds : List Cmd) (books : List String)
    (hbooks : ∀ fb2 ∈ books, isPlain fb2 = true) (d : Dir) : ∃ n,
    Alone (jobStep sh) (books.map (Cmd.xmlGrep zip) ++ cmds) (putEntries fs zip z (some (.dir d)))
      n cmds (putEntries fs zip z (some (.dir (books.foldl (writeText sh) d)))) := by
  induction books generalizing d with
  | nil => exact ⟨0, Alone.zero⟩
  | cons fb2 books ih =>
      obtain ⟨n, hn⟩ := ih (fun x hx => hbooks x (List.mem_cons_of_mem fb2 hx))
        (writeText sh d fb2)
      have hact : (Cmd.xmlGrep zip fb2).act sh z (some (.dir d))
          = (some [], z, some (.dir (writeText sh d fb2))) := rfl
      have hplain : (Cmd.xmlGrep zip fb2).isPlain sh.path = true := by
        refine isPlain_cmd sh hpath hzip rfl (fun x y heq => ?_)
        cases heq
        exact hbooks fb2 List.mem_cons_self
      exact ⟨1 + n, alone_cmd (.xmlGrep zip fb2) rfl hplain hne hact hn⟩

/-- The entry of `$newdir` after `mkdir` and `unzip`, when it was `e` before. -/
def unzipped (content : Bytes) : Option PathEntry → PathEntry
  | none => .dir (sh.unzip content ∅)
  | some (.dir d) => .dir (sh.unzip content d)
  | some (.file other) => .file other

/-- The commands of the loops, but for `xml_grep`. -/
theorem alone_plain {zip : String} (hzip : isPlain zip = true) (hne : newdir zip ≠ zip)
    {cmd : Cmd} (hcmd : cmd.zip = zip) (hgrep : ∀ x fb2, cmd ≠ .xmlGrep x fb2)
    {new cmds cmds' : List Cmd} {z d z' d' : Option PathEntry} {fs fs' : PathEntries} {n : Nat}
    (hact : cmd.act sh z d = (some new, z', d'))
    (h : Alone (jobStep sh) (new ++ cmds) (putEntries fs zip z' d') n cmds' fs') :
    Alone (jobStep sh) (cmd :: cmds) (putEntries fs zip z d) (1 + n) cmds' fs' :=
  alone_cmd cmd hcmd
    (isPlain_cmd sh hpath hzip hcmd (fun x fb2 heq => absurd heq (hgrep x fb2))) hne hact h

/-- The first two commands of both loops. `mkdir` makes the directory when there is none, and
`unzip` finds the same in either case. -/
theorem alone_unzip {zip : String} (hzip : isPlain zip = true) (hne : newdir zip ≠ zip)
    (fs : PathEntries) (content : Bytes) {cmds cmds' : List Cmd} {fs' : PathEntries}
    (e : Option PathEntry)
    (h : ∃ n, Alone (jobStep sh) cmds
      (putEntries fs zip (some (.file content)) (some (unzipped sh content e))) n cmds' fs') :
    ∃ n, Alone (jobStep sh) (.mkdir zip :: .unzip zip :: cmds)
      (putEntries fs zip (some (.file content)) e) n cmds' fs' := by
  obtain ⟨n, hn⟩ := h
  -- What `mkdir` leaves, where `unzip` finds the same as before.
  have hunzip : ∀ e', (Cmd.unzip zip).act sh (some (.file content)) (some e')
      = (some [], some (.file content), some (unzipped sh content (some e'))) := by
    intro e'
    cases e' with
    | dir d => rfl
    -- A file of this name stays, and nothing is unpacked.
    | file other => rfl
  have hmkdir : ∃ e', (Cmd.mkdir zip).act sh (some (.file content)) e
      = (some [], some (.file content), some e') ∧
      unzipped sh content (some e') = unzipped sh content e := by
    cases e with
    | none => exact ⟨.dir ∅, rfl, rfl⟩
    | some e => exact ⟨e, rfl, rfl⟩
  obtain ⟨e', hmkdir, heq⟩ := hmkdir
  have hact := hunzip e'
  rw [heq] at hact
  exact ⟨_, alone_plain sh hpath hzip hne rfl (fun _ _ => Cmd.noConfusion) hmkdir
    (alone_plain sh hpath hzip hne rfl (fun _ _ => Cmd.noConfusion) hact hn)⟩

omit hpath

/-- What the body of a loop does with a zip file that is a file, when its `$newdir` is another
entry and `ok` holds of the content and of that entry: the zip file goes, and `leaves` says what
stands at its `$newdir` after it. -/
structure BodyOf (body : String → List Cmd) (ok : Bytes → Option PathEntry → Prop)
    (leaves : Bytes → Option PathEntry → PathEntry) : Prop where
  alone : ∀ {zip}, isPlain zip = true → newdir zip ≠ zip → ∀ fs content cmds e, ok content e →
    ∃ n, Alone (jobStep sh) (body zip ++ cmds) (putEntries fs zip (some (.file content)) e) n cmds
      (putEntries fs zip none (some (leaves content e)))
  zip : ∀ zip, ∀ cmd ∈ body zip, cmd.zip = zip ∧ ∀ x fb2, cmd ≠ .xmlGrep x fb2

/-- The entry of `$newdir` with the texts of the books. -/
def withTexts : PathEntry → PathEntry
  | .dir d => .dir (texts sh d)
  | .file other => .file other

variable {sh} in
/-- The books have plain names after `unzip` when they have in the archive and had before. A new
directory has no books before. -/
theorem plainBooks_unzipped {content : Bytes} {e : Option PathEntry} {d : Dir}
    (hcontent : PlainEntry sh (.file content)) (he : ∀ e', e = some e' → PlainEntry sh e')
    (hd : unzipped sh content e = .dir d) : PlainBooks d := by
  cases e with
  | none =>
      cases hd
      exact hcontent ∅ plainBooks_empty
  | some e =>
      cases e with
      | dir d' =>
          cases hd
          exact hcontent d' (he _ rfl)
      | file other => cases hd

/-- The books that `unzip` leaves are files with plain names. -/
def GoodBooks (content : Bytes) (e : Option PathEntry) : Prop :=
  ∀ d, unzipped sh content e = .dir d → Tidy d ∧ PlainBooks d

include hpath

/-- The body of `to_txt`: the two commands that unpack, the texts, and the two `unlink`. The second
`glob` lists the same books, since a text is not one. -/
theorem bodyOf_oneZip :
    BodyOf sh oneZip (GoodBooks sh) (fun content e => withTexts sh (unzipped sh content e)) where
  alone {zip} hzip hne fs content cmds e hgood := by
    refine alone_unzip sh hpath hzip hne fs content e ?_
    have hunlink : ∀ d, (Cmd.unlink zip).act sh (some (.file content)) d = (some [], none, d) :=
      fun _ => rfl
    cases hunzipped : unzipped sh content e with
    | dir d =>
        obtain ⟨htidy, hplain⟩ := hgood d hunzipped
        have heach : (Cmd.eachFb2 zip).act sh (some (.file content)) (some (.dir d))
            = (some ((bookNames sh d).map (Cmd.xmlGrep zip)), some (.file content),
                some (.dir d)) := rfl
        have hfiles := List.all_eq_true.mpr ((htidy.writeTexts sh (bookNames sh d)).isFile sh)
        have hfb2 : (Cmd.unlinkFb2 zip).act sh (some (.file content))
            (some (.dir ((bookNames sh d).foldl (writeText sh) d)))
            = (some [], some (.file content), some (.dir (texts sh d))) := by
          show (if _ then some [] else none, _, _) = _
          rw [if_pos hfiles]
          rfl
        obtain ⟨n, hn⟩ := alone_xmlGreps sh hpath hzip hne fs (some (.file content))
          (.unlinkFb2 zip :: .unlink zip :: cmds) (bookNames sh d)
          (fun fb2 hfb2 => hplain fb2 ((mem_bookNames sh).mp hfb2).1 ((mem_bookNames sh).mp hfb2).2)
          d
        exact ⟨_, alone_plain sh hpath hzip hne rfl (fun _ _ => Cmd.noConfusion) heach (hn.trans
          (alone_plain sh hpath hzip hne rfl (fun _ _ => Cmd.noConfusion) hfb2
            (alone_plain sh hpath hzip hne rfl (fun _ _ => Cmd.noConfusion) (hunlink _)
              Alone.zero)))⟩
    | file other =>
        have heach : (Cmd.eachFb2 zip).act sh (some (.file content)) (some (.file other))
            = (some [], some (.file content), some (.file other)) := rfl
        have hfb2 : (Cmd.unlinkFb2 zip).act sh (some (.file content)) (some (.file other))
            = (some [], some (.file content), some (.file other)) := rfl
        exact ⟨_, alone_plain sh hpath hzip hne rfl (fun _ _ => Cmd.noConfusion) heach
          (alone_plain sh hpath hzip hne rfl (fun _ _ => Cmd.noConfusion) hfb2
            (alone_plain sh hpath hzip hne rfl (fun _ _ => Cmd.noConfusion) (hunlink _)
              Alone.zero))⟩
  zip zip cmd hcmd := by
    simp only [oneZip, List.mem_cons, List.not_mem_nil, or_false] at hcmd
    rcases hcmd with rfl | rfl | rfl | rfl | rfl
    all_goals exact ⟨rfl, fun _ _ => Cmd.noConfusion⟩

/-- The body of `unarchive` asks nothing of the books, as it does not touch them. -/
theorem bodyOf_unarchiveZip : BodyOf sh unarchiveZip (fun _ _ => True) (unzipped sh) where
  alone {zip} hzip hne fs content cmds e _ := by
    refine alone_unzip sh hpath hzip hne fs content e ?_
    have hunlink : ∀ d, (Cmd.unlink zip).act sh (some (.file content)) d = (some [], none, d) :=
      fun _ => rfl
    exact ⟨_, alone_plain sh hpath hzip hne rfl (fun _ _ => Cmd.noConfusion) (hunlink _)
      Alone.zero⟩
  zip zip cmd hcmd := by
    simp only [unarchiveZip, List.mem_cons, List.not_mem_nil, or_false] at hcmd
    rcases hcmd with rfl | rfl | rfl
    all_goals exact ⟨rfl, fun _ _ => Cmd.noConfusion⟩

omit hpath

/-- What a zip file with the given content leaves at its `$newdir`, where `e` was before: its
files and those that were there, with a text for each book. A file of that name stays. -/
def LeavesAt (content : Bytes) (e e' : Option PathEntry) : Prop :=
  match e with
  | none => ∃ d', e' = some (.dir d') ∧ TextsOf sh (sh.unzip content ∅) d'
  | some (.dir d) => ∃ d', e' = some (.dir d') ∧ TextsOf sh (sh.unzip content d) d'
  | some (.file other) => e' = some (.file other)

/-- A job that does not die leaves a directory with the texts of the books it unzipped. -/
theorem leavesAt_withTexts {content : Bytes} {e : Option PathEntry} (h : GoodBooks sh content e) :
    LeavesAt sh content e (some (withTexts sh (unzipped sh content e))) := by
  cases e with
  | none => exact ⟨_, rfl, texts_spec sh (h _ rfl).1⟩
  | some e =>
      cases e with
      | dir d => exact ⟨_, rfl, texts_spec sh (h _ rfl).1⟩
      | file other => rfl

/-- The zip files are unpacked: they are gone, each leaves at its directory what it should, and
every other entry is as before. -/
structure Unpacked (leaves : Bytes → Option PathEntry → Option PathEntry → Prop)
    (fs : PathEntries) (zips : List String) (fs' : PathEntries) : Prop where
  gone : ∀ zip ∈ zips, fs' zip = none
  left : ∀ zip ∈ zips, ∀ content, fs zip = some (.file content) →
    leaves content (fs (newdir zip)) (fs' (newdir zip))
  kept : ∀ name, name ∉ zips → (∀ zip ∈ zips, name ≠ newdir zip) → fs' name = fs name

/-- The zip files are files that are `ok`, with plain names of their own, and none is named as the
directory of one of them. -/
structure Unpackable (ok : Bytes → Option PathEntry → Prop) (fs : PathEntries)
    (zips : List String) : Prop where
  nodup : zips.Nodup
  globbed : ∀ zip ∈ zips, isGlobbed ".zip" zip = true
  plain : ∀ zip ∈ zips, isPlain zip = true
  file : ∀ zip ∈ zips, ∃ content, fs zip = some (.file content) ∧ ok content (fs (newdir zip))
  apart : ∀ zip ∈ zips, newdir zip ∉ zips

namespace Unpackable
variable {ok : Bytes → Option PathEntry → Prop} {fs : PathEntries} {zip : String}
  {zips : List String} (h : Unpackable ok fs (zip :: zips))

include h

/-- The directory of an archive has a shorter name than the archive. -/
theorem newdir_ne : newdir zip ≠ zip := by
  intro heq
  have hapart := h.apart zip List.mem_cons_self
  rw [heq] at hapart
  exact hapart List.mem_cons_self

/-- The first zip file and its directory are no zip file of the rest. -/
theorem not_mem : zip ∉ zips ∧ newdir zip ∉ zips :=
  ⟨(List.nodup_cons.mp h.nodup).1,
    fun hmem => h.apart zip List.mem_cons_self (List.mem_cons_of_mem zip hmem)⟩

/-- They are not the directory of one either. -/
theorem ne_newdir {zip' : String} (hmem : zip' ∈ zips) :
    newdir zip' ≠ zip ∧ newdir zip' ≠ newdir zip := by
  constructor
  · intro heq
    exact h.apart zip' (List.mem_cons_of_mem zip hmem) (heq ▸ List.mem_cons_self)
  · intro heq
    have hzip := newdir_inj (h.globbed zip' (List.mem_cons_of_mem zip hmem))
      (h.globbed zip List.mem_cons_self) heq
    exact h.not_mem.1 (hzip ▸ hmem)

/-- The entries of the rest stay as they are. -/
theorem putEntries_rest (z d : Option PathEntry) {zip' : String} (hmem : zip' ∈ zips) :
    putEntries fs zip z d zip' = fs zip' ∧
      putEntries fs zip z d (newdir zip') = fs (newdir zip') := by
  have hne₁ : zip' ≠ zip := fun heq => h.not_mem.1 (heq ▸ hmem)
  have hne₂ : zip' ≠ newdir zip := fun heq => h.not_mem.2 (heq ▸ hmem)
  exact ⟨putEntries_of_ne fs hne₁ hne₂ z d,
    putEntries_of_ne fs (h.ne_newdir hmem).1 (h.ne_newdir hmem).2 z d⟩

/-- The archives that are left to a job are as they were before: unpacking the first one touches
its own two entries only. -/
theorem tail (z d : Option PathEntry) : Unpackable ok (putEntries fs zip z d) zips where
  nodup := (List.nodup_cons.mp h.nodup).2
  globbed := fun zip' hmem => h.globbed zip' (List.mem_cons_of_mem zip hmem)
  plain := fun zip' hmem => h.plain zip' (List.mem_cons_of_mem zip hmem)
  file := fun zip' hmem => by
    rw [(h.putEntries_rest z d hmem).1, (h.putEntries_rest z d hmem).2]
    exact h.file zip' (List.mem_cons_of_mem zip hmem)
  apart := fun zip' hmem hin =>
    h.apart zip' (List.mem_cons_of_mem zip hmem) (List.mem_cons_of_mem zip hin)

/-- The first zip file is unpacked, and then the rest. No other zip file unpacks into its
directory, so the rest leaves it alone. -/
theorem unpacked_cons {leaves : Bytes → Option PathEntry → Option PathEntry → Prop}
    {content : Bytes} (hcontent : fs zip = some (.file content)) {e : Option PathEntry}
    (he : leaves content (fs (newdir zip)) e) {fs' : PathEntries}
    (hrest : Unpacked leaves (putEntries fs zip none e) zips fs') :
    Unpacked leaves fs (zip :: zips) fs' where
  gone := by
    intro zip' hmem
    rcases List.mem_cons.mp hmem with rfl | hmem
    · rw [hrest.kept _ h.not_mem.1 (fun _ hin => (h.ne_newdir hin).1.symm), putEntries_zip]
    · exact hrest.gone zip' hmem
  left := by
    intro zip' hmem content' hcontent'
    rcases List.mem_cons.mp hmem with rfl | hmem
    · rw [hcontent] at hcontent'
      cases hcontent'
      rw [hrest.kept _ h.not_mem.2 (fun _ hin => (h.ne_newdir hin).2.symm),
        putEntries_newdir fs h.newdir_ne]
      exact he
    · have hleft := hrest.left zip' hmem content'
      rw [(h.putEntries_rest none e hmem).1, (h.putEntries_rest none e hmem).2] at hleft
      exact hleft hcontent'
  kept := by
    intro name hnot hother
    rw [List.mem_cons, not_or] at hnot
    rw [hrest.kept name hnot.2 (fun zip' hmem => hother zip' (List.mem_cons_of_mem zip hmem)),
      putEntries_of_ne fs hnot.1 (hother zip List.mem_cons_self)]

end Unpackable

variable {sh} in
/-- A job over such files, alone. The induction is on its zip files, which are unpacked one after
another. -/
theorem ends_job {body : String → List Cmd} {ok : Bytes → Option PathEntry → Prop}
    {leaves : Bytes → Option PathEntry → PathEntry} (hbody : BodyOf sh body ok leaves)
    {fs : PathEntries} {zips : List String} (h : Unpackable ok fs zips) :
    ∃ n fs', Ends (jobStep sh) (zips.flatMap body) fs n [] fs' ∧
      Unpacked (fun content e e' => e' = some (leaves content e)) fs zips fs' := by
  induction zips generalizing fs with
  | nil => exact ⟨0, fs, ⟨Alone.zero, rfl⟩, by simp, by simp, fun _ _ _ => rfl⟩
  | cons zip zips ih =>
      obtain ⟨content, hcontent, hok⟩ := h.file zip List.mem_cons_self
      obtain ⟨n, hn⟩ := hbody.alone (h.plain zip List.mem_cons_self) h.newdir_ne fs content
        (zips.flatMap body) (fs (newdir zip)) hok
      rw [← hcontent, putEntries_self] at hn
      obtain ⟨k, fs', hends, hrest⟩ := ih (h.tail none (some (leaves content (fs (newdir zip)))))
      exact ⟨n + k, fs', ⟨hn.trans hends.1, rfl⟩, h.unpacked_cons hcontent rfl hrest⟩

end Job

/-! ### The jobs -/

section Jobs
variable (sh : Shell)

/-- The job owns its footprint: the names in its commands are plain, the entries of their zip files
are in the footprint, and the books there have plain names. -/
structure Owns (cmds : List Cmd) (F : Set String) (fs : PathEntries) : Prop where
  plain : ∀ cmd ∈ cmds, cmd.isPlain sh.path = true
  zip : ∀ cmd ∈ cmds, cmd.zip ∈ F ∧ newdir cmd.zip ∈ F
  books : ∀ name ∈ F, ∀ e, fs name = some e → PlainEntry sh e

/-- The commands that a command adds: those of the books, with the names that `glob` lists. They
are plain when the names in the directory are. -/
theorem new_of_act {cmd : Cmd} (hplain : cmd.isPlain sh.path = true) {z d z' d' : Option PathEntry}
    (hd : ∀ e, d = some e → PlainEntry sh e) {new : List Cmd}
    (h : cmd.act sh z d = (some new, z', d')) :
    ∀ c ∈ new, c.isPlain sh.path = true ∧ c.zip = cmd.zip := by
  unfold Cmd.act at h
  split at h
  case h_6 name z d =>
      -- `eachFb2` is the command that adds some.
      cases h
      intro c hc
      obtain ⟨fb2, hfb2, rfl⟩ := List.mem_map.mp hc
      obtain ⟨hglobbed, hsome⟩ := (mem_bookNames sh).mp hfb2
      have hbook : isPlain fb2 = true := hd _ rfl fb2 hglobbed hsome
      unfold Cmd.isPlain at hplain ⊢
      simp only [Cmd.zip, Bool.and_eq_true] at hplain ⊢
      exact ⟨⟨hplain.1, hbook⟩, trivial⟩
  case h_10 name z d =>
      split at h
      · cases h
        exact fun c hc => absurd hc List.not_mem_nil
      · cases h
  all_goals
    cases h
    try exact fun c hc => absurd hc List.not_mem_nil

/-- The entries that a command leaves have books with plain names. Only `unzip` brings new names,
and those of an archive are plain too. -/
theorem entries_of_act {cmd : Cmd} {z d z' d' : Option PathEntry} {new : Option (List Cmd)}
    (hz : ∀ e, z = some e → PlainEntry sh e) (hd : ∀ e, d = some e → PlainEntry sh e)
    (h : cmd.act sh z d = (new, z', d')) :
    (∀ e, z' = some e → PlainEntry sh e) ∧ ∀ e, d' = some e → PlainEntry sh e := by
  have hsome : ∀ {e e' : PathEntry}, PlainEntry sh e → some e = some e' → PlainEntry sh e' :=
    fun hplain heq => Option.some.inj heq ▸ hplain
  unfold Cmd.act at h
  split at h
  -- `mkdir`, and `unzip` into a directory that was not there or was.
  case h_1 =>
      cases h
      exact ⟨hz, fun _ => hsome plainBooks_empty⟩
  case h_3 =>
      cases h
      exact ⟨hz, fun _ => hsome (hz _ rfl _ plainBooks_empty)⟩
  case h_4 =>
      cases h
      exact ⟨hz, fun _ => hsome (hz _ rfl _ (hd _ rfl))⟩
  -- `xml_grep`, and the two `unlink`.
  case h_8 =>
      cases h
      exact ⟨hz, fun _ => hsome (PlainBooks.writeText sh (hd _ rfl) _)⟩
  case h_10 =>
      cases h
      exact ⟨hz, fun _ => hsome (PlainBooks.unlinkBooks sh (hd _ rfl))⟩
  case h_12 =>
      cases h
      refine ⟨fun _ hnone => ?_, hd⟩
      cases hnone
  all_goals
    cases h
    exact ⟨hz, hd⟩

/-- What a step does when the names in the commands are plain: it runs the first command. A
command with a blank in a name is not of this kind. -/
theorem jobStep_cases {cmds cmds' : List Cmd} {fs fs' : PathEntries}
    (hplain : ∀ cmd ∈ cmds, cmd.isPlain sh.path = true)
    (h : jobStep sh cmds fs = some (cmds', fs')) : ∃ cmd rest new z d, cmds = cmd :: rest ∧
      cmd.act sh (fs cmd.zip) (fs (newdir cmd.zip)) = (new, z, d) ∧
      cmds' = cmdsAfter new rest ∧ fs' = putEntries fs cmd.zip z d := by
  cases cmds with
  | nil => cases h
  | cons cmd rest =>
      simp only [jobStep, hplain cmd List.mem_cons_self, if_true, Option.some.injEq,
        Prod.mk.injEq] at h
      exact ⟨cmd, rest, _, _, _, rfl, rfl, h.1.symm, h.2.symm⟩

/-- A job reads and writes the entries of its zip files and of their directories. So it runs alike
where these agree, and leaves everything else as it is. -/
theorem jobStep_confined : Confined (jobStep sh) (Owns sh) where
  within {cmds fs gs F} h hagree :=
    ⟨h.plain, h.zip, fun name hname e he => h.books name hname e ((hagree name hname).trans he)⟩
  keeps {cmds cmds' fs fs' F} h hstep := by
    obtain ⟨cmd, rest, new, z, d, rfl, hact, rfl, rfl⟩ := jobStep_cases sh h.plain hstep
    obtain ⟨hzip, hdir⟩ := h.zip cmd List.mem_cons_self
    have hplain := h.plain cmd List.mem_cons_self
    obtain ⟨hz, hd⟩ := entries_of_act sh (h.books _ hzip) (h.books _ hdir) hact
    -- Each command that is left is one of the rest, or a new one about the same zip file.
    have hleft : ∀ c ∈ cmdsAfter new rest, c ∈ rest ∨
        (c.isPlain sh.path = true ∧ c.zip = cmd.zip) := by
      intro c hc
      cases new with
      | none => exact absurd hc List.not_mem_nil
      | some new =>
          rcases List.mem_append.mp hc with hc | hc
          · exact Or.inr (new_of_act sh hplain (h.books _ hdir) hact c hc)
          · exact Or.inl hc
    refine ⟨fun c hc => ?_, fun c hc => ?_, fun name hname e he => ?_⟩
    · rcases hleft c hc with hc | ⟨hc, -⟩
      · exact h.plain c (List.mem_cons_of_mem cmd hc)
      · exact hc
    · rcases hleft c hc with hc | ⟨-, hc⟩
      · exact h.zip c (List.mem_cons_of_mem cmd hc)
      · rw [hc]
        exact ⟨hzip, hdir⟩
    · by_cases hzipname : name = cmd.zip
      · rw [hzipname, putEntries_zip] at he
        exact hz e he
      · by_cases hdirname : name = newdir cmd.zip
        · rw [hdirname] at hzipname he
          rw [putEntries_newdir fs hzipname] at he
          exact hd e he
        · rw [putEntries_of_ne fs hzipname hdirname] at he
          exact h.books name hname e he
  frame {cmds cmds' fs fs' F} h hstep := by
    intro name hname
    obtain ⟨cmd, rest, new, z, d, rfl, -, -, rfl⟩ := jobStep_cases sh h.plain hstep
    obtain ⟨hzip, hdir⟩ := h.zip cmd List.mem_cons_self
    have hne₁ : name ≠ cmd.zip := fun heq => hname (heq ▸ hzip)
    have hne₂ : name ≠ newdir cmd.zip := fun heq => hname (heq ▸ hdir)
    exact putEntries_of_ne fs hne₁ hne₂ z d
  reads {cmds cmds' fs fs' gs F} h hagree hstep := by
    obtain ⟨cmd, rest, new, z, d, rfl, hact, rfl, rfl⟩ := jobStep_cases sh h.plain hstep
    obtain ⟨hzip, hdir⟩ := h.zip cmd List.mem_cons_self
    rw [hagree _ hzip, hagree _ hdir] at hact
    refine ⟨putEntries gs cmd.zip z d, ?_, fun name hname => ?_⟩
    · simp only [jobStep, h.plain cmd List.mem_cons_self, if_true, hact]
    · unfold putEntries Function.update
      split
      · rfl
      · split
        · rfl
        · exact hagree name hname

variable (entries : AList (fun _ : String => PathEntry))

/-- The jobs are handed the zip files, each once. -/
theorem flatten_jobZips : (jobZips sh entries).flatten = zipFiles sh entries := by
  have h := congrArg List.reduceOption (jobFiles_parList (zipFiles sh entries))
  have hsome : ((zipFiles sh entries).map some).reduceOption = zipFiles sh entries := by
    rw [List.reduceOption, List.filterMap_map]
    exact List.filterMap_some
  rw [hsome, List.reduceOption, List.filterMap_flatMap] at h
  rw [jobZips, ← List.flatMap_def]
  exact h

/-- The entries of a job: those of its zip files and of their directories. -/
def footprint (job : Fin (jobZips sh entries).length) : Set String :=
  {name | ∃ zip ∈ (jobZips sh entries).get job, name = zip ∨ name = newdir zip}

variable {sh entries}

/-- A job has archives of the listing. -/
theorem mem_zipFiles_of_job (job : Fin (jobZips sh entries).length) :
    ∀ zip ∈ (jobZips sh entries).get job, zip ∈ zipFiles sh entries := by
  intro zip hzip
  rw [← flatten_jobZips]
  exact List.mem_flatten_of_mem (List.get_mem _ job) hzip

/-- A zip file is in one job. -/
theorem jobs_disjoint (hnd : (zipFiles sh entries).Nodup)
    {i j : Fin (jobZips sh entries).length} (hne : i ≠ j) :
    ((jobZips sh entries).get i).Disjoint ((jobZips sh entries).get j) := by
  rw [← flatten_jobZips, List.nodup_flatten] at hnd
  have hpair := List.pairwise_iff_getElem.mp hnd.2
  rcases lt_or_gt_of_ne (fun heq => hne (Fin.ext heq) : i.1 ≠ j.1) with hlt | hlt
  · exact hpair i.1 j.1 i.2 j.2 hlt
  · exact (hpair j.1 i.1 j.2 i.2 hlt).symm

variable {ok : Bytes → Option PathEntry → Prop}
  (h : Unpackable ok entries.lookup (zipFiles sh entries))
include h

/-- Different jobs touch different entries, since no archive is given to two jobs and their
directories differ as their names do. -/
theorem footprint_disjoint :
    Pairwise fun i j => Disjoint (footprint sh entries i) (footprint sh entries j) := by
  intro i j hij
  rw [Set.disjoint_left]
  rintro name ⟨zip, hzip, hname⟩ ⟨zip', hzip', hname'⟩
  have hin := mem_zipFiles_of_job i zip hzip
  have hin' := mem_zipFiles_of_job j zip' hzip'
  have hne : zip ≠ zip' := by
    rintro rfl
    exact jobs_disjoint h.nodup hij hzip hzip'
  rcases hname with rfl | rfl
  · rcases hname' with heq | heq
    · exact hne heq
    · exact h.apart zip' hin' (heq ▸ hin)
  · rcases hname' with heq | heq
    · exact h.apart zip hin (heq ▸ hin')
    · exact hne (newdir_inj (h.globbed zip hin) (h.globbed zip' hin') heq)

/-- So each job can unpack its archives one after the other. They are some of all archives. -/
theorem unpackable_job (job : Fin (jobZips sh entries).length) :
    Unpackable ok entries.lookup ((jobZips sh entries).get job) := by
  have hsub := mem_zipFiles_of_job job
  have hnd := h.nodup
  rw [← flatten_jobZips, List.nodup_flatten] at hnd
  exact
    { nodup := hnd.1 _ (List.get_mem _ job)
      globbed := fun zip hzip => h.globbed zip (hsub zip hzip)
      plain := fun zip hzip => h.plain zip (hsub zip hzip)
      file := fun zip hzip => h.file zip (hsub zip hzip)
      apart := fun zip hzip hin => h.apart zip (hsub zip hzip) (hsub _ hin) }

/-- The jobs own their footprints when they start: each command of a body names the zip file it
was made for. -/
theorem owns_jobsOf (hpath : isPlain sh.path = true)
    (hplain : ∀ zip ∈ zipFiles sh entries, ∀ e,
      entries.lookup zip = some e ∨ entries.lookup (newdir zip) = some e → PlainEntry sh e)
    {body : String → List Cmd} {leaves : Bytes → Option PathEntry → PathEntry}
    (hbody : BodyOf sh body ok leaves) (job : Fin (jobZips sh entries).length) :
    Owns sh (jobsOf sh entries body job) (footprint sh entries job) entries.lookup := by
  refine ⟨fun cmd hcmd => ?_, fun cmd hcmd => ?_, ?_⟩
  · obtain ⟨zip, hzip, hcmd⟩ := List.mem_flatMap.mp hcmd
    obtain ⟨heq, hgrep⟩ := hbody.zip zip cmd hcmd
    exact isPlain_cmd sh hpath (h.plain zip (mem_zipFiles_of_job job zip hzip)) heq
      (fun x fb2 hx => absurd hx (hgrep x fb2))
  · obtain ⟨zip, hzip, hcmd⟩ := List.mem_flatMap.mp hcmd
    rw [(hbody.zip zip cmd hcmd).1]
    exact ⟨⟨zip, hzip, Or.inl rfl⟩, ⟨zip, hzip, Or.inr rfl⟩⟩
  · rintro name ⟨zip, hzip, rfl | rfl⟩ e he
    · exact hplain _ (mem_zipFiles_of_job job _ hzip) e (Or.inl he)
    · exact hplain _ (mem_zipFiles_of_job job _ hzip) e (Or.inr he)

end Jobs

/-- The names are plain: `$path`, those of the zip files, and those of the books that are in their
directories or come there from the archives. -/
structure PlainNames (sh : Shell) (entries : AList (fun _ : String => PathEntry)) : Prop where
  path : isPlain sh.path = true
  zip : ∀ zip ∈ zipFiles sh entries, isPlain zip = true
  book : ∀ zip ∈ zipFiles sh entries, ∀ e,
    entries.lookup zip = some e ∨ entries.lookup (newdir zip) = some e → PlainEntry sh e

/-- The jobs of a loop, in any interleaving of their commands. Their footprints are disjoint, so
each job ends as it would alone, and the files are those of one job after another. -/
theorem jobsOf_interleaves {sh : Shell} {entries : AList (fun _ : String => PathEntry)}
    {body : String → List Cmd} {ok : Bytes → Option PathEntry → Prop}
    {leaves : Bytes → Option PathEntry → PathEntry} (hplain : PlainNames sh entries)
    (hbody : BodyOf sh body ok leaves)
    (h : Unpackable ok entries.lookup (zipFiles sh entries)) :
    ∃ n, ∀ {s jobs fs}, Interleaved (jobStep sh) (jobsOf sh entries body) entries.lookup s jobs fs →
      s.length ≤ n ∧
      (∃ s' jobs' fs',
        Interleaved (jobStep sh) (jobsOf sh entries body) entries.lookup (s ++ s') jobs' fs' ∧
          Ended (jobStep sh) jobs' fs') ∧
      (Ended (jobStep sh) jobs fs → s.length = n ∧
        Unpacked (fun content e e' => e' = some (leaves content e)) entries.lookup
          (zipFiles sh entries) fs) := by
  have halone := fun job => ends_job hbody (unpackable_job h job)
  choose n fs' hends hunpacked using halone
  have hc := jobStep_confined sh
  have hF := footprint_disjoint h
  have howns := owns_jobsOf h hplain.path hplain.book hbody
  refine ⟨∑ job, n job, fun {s jobs fs} hrun => ⟨?_, ?_, fun hended => ⟨?_, ?_⟩⟩⟩
  · exact hrun.length_le hc hF howns hends
  · exact hrun.exists_ended hc hF howns hends
  · exact hrun.length_eq hc hF howns hends hended
  · have hjob := hrun.ended hc hF howns hends hended
    have hrest := (hrun.alone hc hF howns).rest
    -- The job of a zip file.
    have hof : ∀ zip ∈ zipFiles sh entries, ∃ job, zip ∈ (jobZips sh entries).get job := by
      intro zip hzip
      rw [← flatten_jobZips, List.mem_flatten] at hzip
      obtain ⟨zips, hzips, hzip⟩ := hzip
      obtain ⟨job, rfl⟩ := List.get_of_mem hzips
      exact ⟨job, hzip⟩
    refine ⟨fun zip hzip => ?_, fun zip hzip content hcontent => ?_, fun name hnot hother => ?_⟩
    · obtain ⟨job, hin⟩ := hof zip hzip
      rw [(hjob job).2.2 zip ⟨zip, hin, Or.inl rfl⟩]
      exact (hunpacked job).gone zip hin
    · obtain ⟨job, hin⟩ := hof zip hzip
      rw [(hjob job).2.2 (newdir zip) ⟨zip, hin, Or.inr rfl⟩]
      exact (hunpacked job).left zip hin content hcontent
    · refine hrest name (fun job => ?_)
      rintro ⟨zip, hin, rfl | rfl⟩
      · exact hnot (mem_zipFiles_of_job job _ hin)
      · exact hother zip (mem_zipFiles_of_job job _ hin) rfl

section Scripts
variable (sh : Shell) {entries : AList (fun _ : String => PathEntry)}
  (hplain : PlainNames sh entries)
  (hapart : ∀ zip ∈ zipFiles sh entries, newdir zip ∉ zipFiles sh entries)

include hplain hapart

/-- So can one job that has all archives. -/
theorem unpackable_zipFiles {ok : Bytes → Option PathEntry → Prop}
    (hfile : ∀ zip ∈ zipFiles sh entries, ∃ content, entries.lookup zip = some (.file content) ∧
      ok content (entries.lookup (newdir zip))) :
    Unpackable ok entries.lookup (zipFiles sh entries) where
  nodup := (sh.glob_perm _).nodup_iff.mpr ((AList.keys_nodup entries).filter _)
  globbed _ hzip := (List.mem_filter.mp ((sh.glob_perm _).mem_iff.mp hzip)).2
  plain := hplain.zip
  file := hfile
  apart := hapart

/-- The jobs of `to_txt`, in any interleaving of their commands: no run takes more steps than all
of them need, every run can go on to an end, and at the end every zip file is unpacked. The names
are plain, the zip files are files, none is named as the directory of another, and no directory
stands where a book or its text does. -/
theorem toTxt_interleaves
    (hfile : ∀ zip ∈ zipFiles sh entries, ∃ content, entries.lookup zip = some (.file content))
    (htidy : ∀ zip ∈ zipFiles sh entries, ∀ content d, entries.lookup zip = some (.file content) →
      unzipped sh content (entries.lookup (newdir zip)) = .dir d → Tidy d) :
    ∃ n, ∀ {s jobs fs}, Interleaved (jobStep sh) (toTxt sh entries) entries.lookup s jobs fs →
      s.length ≤ n ∧
      (∃ s' jobs' fs',
        Interleaved (jobStep sh) (toTxt sh entries) entries.lookup (s ++ s') jobs' fs' ∧
          Ended (jobStep sh) jobs' fs') ∧
      (Ended (jobStep sh) jobs fs → s.length = n ∧
        Unpacked (LeavesAt sh) entries.lookup (zipFiles sh entries) fs) := by
  have hgood : ∀ zip ∈ zipFiles sh entries, ∀ content, entries.lookup zip = some (.file content) →
      GoodBooks sh content (entries.lookup (newdir zip)) := by
    intro zip hzip content hcontent d hd
    exact ⟨htidy zip hzip content d hcontent hd,
      plainBooks_unzipped (hplain.book zip hzip _ (Or.inl hcontent))
        (fun e he => hplain.book zip hzip e (Or.inr he)) hd⟩
  obtain ⟨n, hn⟩ := jobsOf_interleaves hplain (bodyOf_oneZip sh hplain.path)
    (unpackable_zipFiles sh hplain hapart (fun zip hzip => by
      obtain ⟨content, hcontent⟩ := hfile zip hzip
      exact ⟨content, hcontent, hgood zip hzip content hcontent⟩))
  refine ⟨n, fun hrun => ⟨(hn hrun).1, (hn hrun).2.1, fun hended => ?_⟩⟩
  obtain ⟨hlen, hunpacked⟩ := (hn hrun).2.2 hended
  refine ⟨hlen, hunpacked.gone, fun zip hzip content hcontent => ?_, hunpacked.kept⟩
  rw [hunpacked.left zip hzip content hcontent]
  exact leavesAt_withTexts sh (hgood zip hzip content hcontent)

/-- So do those of `unarchive`, without the texts, whatever stands in the archives. No `glob` is
run there. -/
theorem unarchive_interleaves
    (hfile : ∀ zip ∈ zipFiles sh entries, ∃ content, entries.lookup zip = some (.file content)) :
    ∃ n, ∀ {s jobs fs}, Interleaved (jobStep sh) (unarchive sh entries) entries.lookup s jobs fs →
      s.length ≤ n ∧
      (∃ s' jobs' fs',
        Interleaved (jobStep sh) (unarchive sh entries) entries.lookup (s ++ s') jobs' fs' ∧
          Ended (jobStep sh) jobs' fs') ∧
      (Ended (jobStep sh) jobs fs → s.length = n ∧
        Unpacked (fun content e e' => e' = some (unzipped sh content e)) entries.lookup
          (zipFiles sh entries) fs) :=
  jobsOf_interleaves hplain (bodyOf_unarchiveZip sh hplain.path)
    (unpackable_zipFiles sh hplain hapart (fun zip hzip => by
      obtain ⟨content, hcontent⟩ := hfile zip hzip
      exact ⟨content, hcontent, trivial⟩))

end Scripts

/-- A shell whose `unzip` finds one book in an archive. -/
def oneBookShell : Shell :=
  { path := "corpus"
    glob := id
    glob_perm := fun _ => List.Perm.refl _
    unzip := fun content d => d.insert "a.fb2" (.file content)
    xmlGrep := id
    unquoted := fun _ _ _ => none }

/-- The book that it unpacks is a file with a plain name. -/
theorem lookup_unzip_oneBookShell (content : Bytes) (d : Dir) (name : String) :
    (oneBookShell.unzip content d).lookup name
      = if name = "a.fb2" then some (.file content) else d.lookup name := by
  show (d.insert "a.fb2" (.file content)).lookup name = _
  by_cases h : name = "a.fb2"
  · rw [h, AList.lookup_insert, if_pos rfl]
  · rw [AList.lookup_insert_ne h, if_neg h]

/-- The archive of the example has one book with a plain name. -/
theorem plainEntry_oneBookShell (content : Bytes) : PlainEntry oneBookShell (.file content) := by
  intro d hd fb2 hfb2 hsome
  rw [lookup_unzip_oneBookShell] at hsome
  split at hsome
  · rename_i heq
    rw [heq]
    decide
  · exact hd fb2 hfb2 hsome

/-- Two zip files, a directory for one of them and another file. -/
def someEntries : AList (fun _ : String => PathEntry) :=
  ((((∅ : AList (fun _ : String => PathEntry)).insert "a.zip" (.file [1])).insert "b.zip"
    (.file [2])).insert "b" (.dir ∅)).insert "list.txt" (.file [3])

/-- Two archives for two jobs. Both have plain names, and neither unpacks into what the other one
reads. -/
theorem toTxt_interleaves_some :
    ∃ n, ∀ {s jobs fs}, Interleaved (jobStep oneBookShell) (toTxt oneBookShell someEntries)
        someEntries.lookup s jobs fs →
      s.length ≤ n ∧
      (∃ s' jobs' fs', Interleaved (jobStep oneBookShell) (toTxt oneBookShell someEntries)
        someEntries.lookup (s ++ s') jobs' fs' ∧ Ended (jobStep oneBookShell) jobs' fs') ∧
      (Ended (jobStep oneBookShell) jobs fs →
        s.length = n ∧
          Unpacked (LeavesAt oneBookShell) someEntries.lookup (zipFiles oneBookShell someEntries)
            fs) := by
  have hzips : zipFiles oneBookShell someEntries = ["b.zip", "a.zip"] := by decide
  have hcases : ∀ {P : String → Prop}, P "b.zip" → P "a.zip" →
      ∀ zip ∈ zipFiles oneBookShell someEntries, P zip := by
    intro P hb ha zip hzip
    rw [hzips, List.mem_cons, List.mem_singleton] at hzip
    rcases hzip with rfl | rfl
    · exact hb
    · exact ha
  -- The one directory that is there is empty.
  have hnew : ∀ zip ∈ zipFiles oneBookShell someEntries, ∀ e,
      someEntries.lookup (newdir zip) = some e → e = .dir ∅ :=
    hcases (fun e he => (Option.some.inj he).symm) (fun e he => by cases he)
  refine toTxt_interleaves oneBookShell ⟨by decide, hcases (by decide) (by decide), ?_⟩
    (by rw [hzips]; decide) (hcases ⟨[2], rfl⟩ ⟨[1], rfl⟩) ?_
  · rintro zip hzip e (he | he)
    · obtain ⟨content, hcontent⟩ : ∃ content, someEntries.lookup zip = some (.file content) :=
        hcases (P := fun zip => ∃ content, someEntries.lookup zip = some (.file content))
          ⟨[2], rfl⟩ ⟨[1], rfl⟩ zip hzip
      rw [hcontent] at he
      cases he
      exact plainEntry_oneBookShell content
    · rw [hnew zip hzip e he]
      exact plainBooks_empty
  · intro zip hzip content d _ hd
    have hempty : d = oneBookShell.unzip content ∅ := by
      cases he : someEntries.lookup (newdir zip) with
      | none =>
          rw [he] at hd
          cases hd
          rfl
      | some e =>
          rw [he, hnew zip hzip e he] at hd
          cases hd
          rfl
    have hlookup : ∀ name, d.lookup name ≠ some .dir := by
      intro name hdir
      rw [hempty, lookup_unzip_oneBookShell, AList.lookup_empty] at hdir
      split at hdir
      · cases hdir
      · cases hdir
    exact ⟨fun fb2 _ => hlookup fb2, fun fb2 _ _ => hlookup (textName fb2)⟩

/-- Two zip files, the first named as the directory of the second. -/
def nestedZips : AList (fun _ : String => PathEntry) :=
  ((∅ : AList (fun _ : String => PathEntry)).insert "b.zip.zip" (.file [2])).insert "b.zip"
    (.file [1])

/-- Two archives of which one has the directory of the other in its name. -/
theorem jobZips_nestedZips : jobZips oneBookShell nestedZips = [["b.zip"], ["b.zip.zip"]] := by
  have hjobs : parList (zipFiles oneBookShell nestedZips).length = [(0, 1 / 4), (5 / 4, 1)] := by
    show parList 2 = [(0, 1 / 4), (5 / 4, 1)]
    rw [parList, parListFrom_of_lt (by norm_num), parListFrom_of_lt (by norm_num [chunkSize]),
      parListFrom_of_le (by norm_num [chunkSize])]
    norm_num [chunkSize, perlMin]
  rw [jobZips, hjobs]
  decide +kernel

/-- The two jobs. -/
def nestedJobs (job : Fin 2) : List Cmd :=
  ([["b.zip"], ["b.zip.zip"]].get job).flatMap oneZip

/-- An order in which both jobs end, read off a run in this order. The names are looked up in the
directory that is left. -/
theorem ended_nestedJobs {order : List (Fin 2)} {name : String} {there : Bool}
    (h : ((runOrder (jobStep oneBookShell) order nestedJobs nestedZips.lookup).map (fun st =>
      (st.1 0, st.1 1, (st.2 name).isSome, (st.2 "b.zip.zip").isSome)))
        = some ([], [], there, false)) :
    ∃ jobs fs, Interleaved (jobStep oneBookShell) nestedJobs nestedZips.lookup order jobs fs ∧
      Ended (jobStep oneBookShell) jobs fs ∧ (fs name).isSome = there ∧ fs "b.zip.zip" = none := by
  obtain ⟨⟨jobs, fs⟩, hrun, hst⟩ := Option.map_eq_some_iff.mp h
  simp only [Prod.mk.injEq] at hst
  obtain ⟨hfirst, hsecond, hname, hzip⟩ := hst
  refine ⟨jobs, fs, Interleaved.nil.runOrder hrun, Fin.forall_fin_two.mpr ⟨?_, ?_⟩, hname,
    Option.not_isSome_iff_eq_none.mp (by rw [hzip]; exact Bool.false_ne_true)⟩
  · rw [hfirst]
    rfl
  · rw [hsecond]
    rfl

/-- The jobs over nested zip files race: when the second is slower its books are in `b.zip`, and
when it is faster they are lost. -/
theorem toTxt_races :
    ∃ s jobs fs s' jobs' fs',
      Interleaved (jobStep oneBookShell) (toTxt oneBookShell nestedZips) nestedZips.lookup s jobs
        fs ∧
      Ended (jobStep oneBookShell) jobs fs ∧
      Interleaved (jobStep oneBookShell) (toTxt oneBookShell nestedZips) nestedZips.lookup s' jobs'
        fs' ∧
      Ended (jobStep oneBookShell) jobs' fs' ∧
      (fs "b.zip").isSome ∧ fs "b.zip.zip" = none ∧ fs' "b.zip" = none ∧
      fs' "b.zip.zip" = none := by
  have hslow := @ended_nestedJobs [0, 0, 0, 0, 0, 0, 1, 1, 1, 1, 1, 1] "b.zip" true
    (by decide +kernel)
  have hfast := @ended_nestedJobs [1, 1, 1, 1, 1, 0, 0, 0, 0, 0, 0] "b.zip" false
    (by decide +kernel)
  unfold toTxt jobsOf
  rw [jobZips_nestedZips]
  obtain ⟨jobs, fs, hrun, hended, hthere, hgone⟩ := hslow
  obtain ⟨jobs', fs', hrun', hended', hnot, hgone'⟩ := hfast
  exact ⟨_, jobs, fs, _, jobs', fs', hrun, hended, hrun', hended', hthere, hgone,
    Option.not_isSome_iff_eq_none.mp (by rw [hnot]; exact Bool.false_ne_true), hgone'⟩

end Colloc.Proofs

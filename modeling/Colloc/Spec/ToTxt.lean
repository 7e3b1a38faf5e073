import Colloc.Lib.Interleave
import Colloc.Spec.Grams
import Colloc.Spec.ParList
import Colloc.Spec.Tools

/-!
# `Colloc.Spec.ToTxt`: unpacking the archives

`to_txt` of `convert.pl` unpacks the archives of a directory and writes the text of each book in
them, and `unarchive` unpacks them only. The jobs of `par_list` are processes that run side by side
on the entries of `$path`. A job is the list of the commands that it has still to run, and each
command is one step.

The programs `unzip` and `xml_grep` are parameters, and so is the order in which `glob` lists
names. The names stand in the patterns of `glob` and in the command lines of the shell as they are.
What those make of a name that is not plain, such as one with a blank, is a parameter as well. What
the jobs print is left out.
-/

set_option autoImplicit false

namespace Colloc.Spec

open Colloc.Lib

/-! ### Names -/

/-- The characters that `glob` or the shell take in another way than as they stand. -/
def specialChars : List Char :=
  " \t\n\r\x0b\x0c'\"`\\$&|;<>()\x7b\x7d[]*?!~#^".toList

/-- `glob` and the shell take the name as it stands, and programs do not take it for an option. -/
def isPlain (name : String) : Bool :=
  name.toList.all (fun c => !specialChars.contains c) && name.toList.head? != some '-'

/-- `fileparse`: the name without the suffix. -/
def fileparse (fullname suffix : String) : String :=
  if hasEnding fullname suffix then
    String.ofList (fullname.toList.take (fullname.toList.length - suffix.toList.length))
  else fullname

/-- `glob` lists the name for `*` and the suffix. -/
def isGlobbed (suffix name : String) : Bool :=
  !isHidden name && !name.toList.contains '/' && hasEnding name suffix

/-- `$newdir`. -/
def newdir (zip : String) : String := fileparse zip ".zip"

/-- `$dir/$name.txt`. -/
def textName (fb2 : String) : String := fileparse fb2 ".fb2" ++ ".txt"

/-! ### Files and commands -/

/-- What stands below a directory at some path. -/
inductive DirNode where
  | file (content : Bytes)
  | dir
  deriving DecidableEq

/-- The files and directories below a directory, by their path from there. -/
abbrev Dir := AList (fun _ : String => DirNode)

/-- An entry of `$path`. -/
inductive PathEntry where
  | file (content : Bytes)
  | dir (files : Dir)

/-- The entries of `$path`, by name. -/
abbrev PathEntries := String → Option PathEntry

/-- The commands in the body of `$one`. The zip file is `$_` of the outer loop. -/
inductive Cmd where
  | mkdir (zip : String)
  | unzip (zip : String)
  | eachFb2 (zip : String)
  | xmlGrep (zip fb2 : String)
  | unlinkFb2 (zip : String)
  | unlink (zip : String)
  deriving DecidableEq

/-- `$_` of the outer loop. -/
def Cmd.zip : Cmd → String
  | .mkdir zip | .unzip zip | .eachFb2 zip | .xmlGrep zip _ | .unlinkFb2 zip | .unlink zip => zip

/-- The names in the command are plain. -/
def Cmd.isPlain (path : String) (cmd : Cmd) : Bool :=
  Spec.isPlain path && Spec.isPlain cmd.zip &&
    match cmd with
    | .xmlGrep _ fb2 => Spec.isPlain fb2
    | _ => true

/-- What the script asks of the system: `$path`, the order of `glob`, the files of a directory
after `unzip -qq` of an archive into it, what `xml_grep 'p' --text_only` prints of a book, and the
step of a job, of which a command with a name that is not plain is the first. -/
structure Shell where
  path : String
  glob : List String → List String
  glob_perm : ∀ names, (glob names).Perm names
  unzip : Bytes → Dir → Dir
  xmlGrep : Bytes → Bytes
  unquoted : Cmd → List Cmd → PathEntries → Option (List Cmd × PathEntries)

section
variable (sh : Shell)

/-- `glob( $newdir . '/*.fb2' )`: files and directories. -/
def bookNames (d : Dir) : List String := sh.glob (d.keys.filter (isGlobbed ".fb2"))

/-- What `xml_grep` prints: nothing of a directory. -/
def grepNode : Option DirNode → Bytes
  | some (.file book) => sh.xmlGrep book
  | _ => []

/-- `xml_grep` of one book. The shell opens its output before, which fails on a directory. -/
def writeText (d : Dir) (fb2 : String) : Dir :=
  match d.lookup (textName fb2) with
  | some .dir => d
  | _ => d.insert (textName fb2) (.file (grepNode sh (d.lookup fb2)))

/-- `unlink` removes it. -/
def isFile (d : Dir) (name : String) : Bool :=
  match d.lookup name with
  | some (.file _) => true
  | _ => false

/-- `unlink glob( $newdir . '/*.fb2' )` goes through the whole list. -/
def unlinkBooks (d : Dir) : Dir :=
  ((bookNames sh d).filter (isFile d)).foldl (fun d fb2 => d.erase fb2) d

/-- A command, on the entries of the zip file and of `$newdir`: the commands that it puts in front
of the others, none when the job dies, and the two entries after it. -/
def Cmd.act : Cmd → Option PathEntry → Option PathEntry →
    Option (List Cmd) × Option PathEntry × Option PathEntry
  | .mkdir _, zip, none => (some [], zip, some (.dir ∅))
  -- `mkdir -p` leaves a directory alone. It fails on a file, and the script goes on.
  | .mkdir _, zip, some e => (some [], zip, some e)
  | .unzip _, some (.file content), none =>
      (some [], some (.file content), some (.dir (sh.unzip content ∅)))
  | .unzip _, some (.file content), some (.dir d) =>
      (some [], some (.file content), some (.dir (sh.unzip content d)))
  -- `unzip` fails, and the script goes on.
  | .unzip _, zip, e => (some [], zip, e)
  | .eachFb2 name, zip, some (.dir d) =>
      (some ((bookNames sh d).map (Cmd.xmlGrep name)), zip, some (.dir d))
  | .eachFb2 _, zip, e => (some [], zip, e)
  | .xmlGrep _ fb2, zip, some (.dir d) => (some [], zip, some (.dir (writeText sh d fb2)))
  | .xmlGrep _ _, zip, e => (some [], zip, e)
  -- `autodie` ends the job when `unlink` could not remove all of its list.
  | .unlinkFb2 _, zip, some (.dir d) =>
      (if (bookNames sh d).all (isFile d) then some [] else none, zip,
        some (.dir (unlinkBooks sh d)))
  | .unlinkFb2 _, zip, e => (some [], zip, e)
  | .unlink _, some (.file _), e => (some [], none, e)
  | .unlink _, zip, e => (none, zip, e)

/-- The entries with new ones for the zip file and its `$newdir`. -/
def putEntries (fs : PathEntries) (zip : String) (z d : Option PathEntry) : PathEntries :=
  Function.update (Function.update fs (newdir zip) d) zip z

/-- The commands after one that puts `new` in front of them, or ends the job. -/
def cmdsAfter (new : Option (List Cmd)) (cmds : List Cmd) : List Cmd :=
  match new with
  | some new => new ++ cmds
  | none => []

/-- One step of a job. -/
def jobStep : List Cmd → PathEntries → Option (List Cmd × PathEntries)
  | [], _ => none
  | cmd :: cmds, fs =>
      if cmd.isPlain sh.path then
        let (new, z, d) := cmd.act sh (fs cmd.zip) (fs (newdir cmd.zip))
        some (cmdsAfter new cmds, putEntries fs cmd.zip z d)
      else sh.unquoted cmd cmds fs

/-- The body of the outer loop in `$one` of `to_txt`. -/
def oneZip (zip : String) : List Cmd :=
  [.mkdir zip, .unzip zip, .eachFb2 zip, .unlinkFb2 zip, .unlink zip]

/-- The body of the loop in `$one` of `unarchive`. -/
def unarchiveZip (zip : String) : List Cmd := [.mkdir zip, .unzip zip, .unlink zip]

variable (entries : AList (fun _ : String => PathEntry))

/-- `@files`: `glob( $path . '/*.zip' )`, for a plain `$path`. -/
def zipFiles : List String := sh.glob (entries.keys.filter (isGlobbed ".zip"))

/-- The zip files of each job. -/
def jobZips : List (List String) :=
  (parList (zipFiles sh entries).length).map (fun job =>
    (jobFiles (zipFiles sh entries) job).reduceOption)

/-- The jobs as `prun` starts them, with a body of the loop. -/
def jobsOf (body : String → List Cmd) (job : Fin (jobZips sh entries).length) : List Cmd :=
  ((jobZips sh entries).get job).flatMap body

/-- `to_txt`. -/
def toTxt : Fin (jobZips sh entries).length → List Cmd := jobsOf sh entries oneZip

/-- `unarchive`. -/
def unarchive : Fin (jobZips sh entries).length → List Cmd := jobsOf sh entries unarchiveZip

end

end Colloc.Spec

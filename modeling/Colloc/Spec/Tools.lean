import Colloc.Spec.Base

/-!
# `Colloc.Spec.Tools`: listing files

`listFiles` walks a directory tree depth first, in the order in which `readdir` lists each
directory, and calls `fn` on the files it selects. The model collects these files with
their content.

One counter is shared by all levels. A file past the window ends the loop over its own
directory only: the loops above go on.
-/

set_option autoImplicit false

namespace Colloc.Spec

open Colloc.Lib

/-- An entry of a directory: a subdirectory (`DT_DIR`) or a regular file (`DT_REG`). -/
inductive DirEntry (α : Type) where
  | dir (dName : String) (entries : List (DirEntry α))
  | reg (dName : String) (content : α)

/-- The lambda `hasEnding`. -/
def hasEnding (fullString ending : String) : Bool :=
  if fullString.toList.length ≥ ending.toList.length then
    decide (fullString.toList.drop (fullString.toList.length - ending.toList.length)
      = ending.toList)
  else false

/-- `f->d_name[0] == '.'`. -/
def isHidden (dName : String) : Bool := decide (dName.toList.head? = some '.')

/-- The counter of `listFiles` and the files that `fn` was called on. -/
structure ListState (α : Type) where
  counter : Nat
  found : List (String × α)

section
variable {α : Type} (start limit : Nat) (ending : String)

/-- A regular file in the loop of `loop_dir`. The flag says that the loop over its directory
ends here. `from + limit` is a sum of `size_t`. -/
def visitFile (fname : String) (content : α) (st : ListState α) : ListState α × Bool :=
  -- A file with another ending is not counted.
  if !hasEnding fname ending then (st, false)
  else
    let st := { st with counter := st.counter + 1 }
    -- The files before the window are counted and skipped.
    if st.counter ≤ start then (st, false)
    else if limit ≠ 0 ∧ st.counter > (start + limit) % 2 ^ 64 then (st, true)
    else ({ st with found := st.found ++ [(fname, content)] }, false)

mutual

/-- One entry in the loop of `loop_dir`. -/
def visitEntry (curPath : String) : DirEntry α → ListState α → ListState α × Bool
  | .dir dName entries, st =>
      if isHidden dName then (st, false)
      -- What stopped the loop below does not stop this one.
      else (loopDir (curPath ++ dName ++ "/") entries st, false)
  | .reg dName content, st =>
      if isHidden dName then (st, false)
      else visitFile start limit ending (curPath ++ dName) content st

/-- `loop_dir`. -/
def loopDir (curPath : String) : List (DirEntry α) → ListState α → ListState α
  | [], st => st
  | e :: es, st =>
      match visitEntry curPath e st with
      | (st, true) => st
      | (st, false) => loopDir curPath es st

end

/-- `listFiles`: the files that `fn` is called on, in order. -/
def listFiles (path : String) (entries : List (DirEntry α)) : List (String × α) :=
  (loopDir start limit ending path entries { counter := 0, found := [] }).found

end

/-- `glob`: every file below `dir` with the given ending. -/
def glob {α : Type} (dir : String) (entries : List (DirEntry α)) (ending : String) :
    List (String × α) :=
  listFiles 0 0 ending (dir ++ "/") entries

/-- The entries of a directory of regular files, in the order of `readdir`. -/
def dirEntries {α : Type} (std : Stdlib) (files : FlatHashMap String α) :
    List (DirEntry α) :=
  (std.readdir files.entries).map (fun e => DirEntry.reg e.1 e.2)

/-! ### The files that are listed -/

/-- The comparison of the last characters is the suffix relation. A string that is shorter than
the ending does not have it. -/
theorem hasEnding_iff (fullString ending : String) :
    hasEnding fullString ending = true ↔ ending.toList <:+ fullString.toList := by
  unfold hasEnding
  split
  · rw [decide_eq_true_eq, List.suffix_iff_eq_drop]
    exact eq_comm
  · rename_i h
    constructor
    · intro hf
      exact absurd hf Bool.false_ne_true
    · intro hs
      exact absurd hs.length_le h

/-- A file of a directory is listed: it is not hidden and has the ending. -/
def isListed (path ending dName : String) : Bool :=
  !isHidden dName && hasEnding (path ++ dName) ending

end Colloc.Spec

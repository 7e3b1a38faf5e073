import Colloc.Lib.Positions
import Colloc.Spec.Tools

/-!
# `Colloc.Proofs.ListFiles`: the windows of `listFiles`

`filesBelow` is the list that `listFiles` counts through: every visible file with the ending,
depth first and in the order of `readdir`. `listFiles_windows` says that a window of the list
is what `fn` is called on.

The counter is shared by all directories, so the invariant is about a part of the list and the
counter before it (`Visited`): `fn` is called on the files of the part at positions of the
window. The counter is the number of files met, until one past the window ends the loop over
its directory. From then on the counter is too low, but it is past the window, and so is the
number of files met. Both are past it for good (`Visited.past`).

`from` and `limit` are `size_t`, and the window ends at their sum. The counter is a `size_t`
too. It counts the files of a tree and stays a `Nat`.
-/

set_option autoImplicit false

namespace Colloc.Proofs

open Colloc.Lib
open Colloc.Spec

variable {α : Type}

/-! ### The list -/

section Files
variable (ending : String)

mutual

/-- The files with the ending that are an entry or below it. -/
def filesOf (curPath : String) : DirEntry α → List (String × α)
  | .dir dName entries =>
      if isHidden dName then [] else filesBelow (curPath ++ dName ++ "/") entries
  | .reg dName content =>
      if isListed curPath ending dName then [(curPath ++ dName, content)] else []

/-- The files with the ending below a directory, depth first and in the order of `readdir`. -/
def filesBelow (curPath : String) : List (DirEntry α) → List (String × α)
  | [] => []
  | e :: es => filesOf curPath e ++ filesBelow curPath es

end

/-- A directory without subdirectories: its visible files with the ending, under their paths. -/
theorem filesBelow_flat (path : String) (files : List (String × α)) :
    filesBelow ending path (files.map (fun f => DirEntry.reg f.1 f.2))
      = (files.filter (fun f => isListed path ending f.1)).map (fun f => (path ++ f.1, f.2)) := by
  induction files with
  | nil => rfl
  | cons f files ih =>
      rw [List.map_cons, filesBelow, filesOf, ih, List.filter_cons]
      by_cases hf : isListed path ending f.1
      · rw [if_pos hf, if_pos hf]
        rfl
      · rw [if_neg hf, if_neg hf, List.nil_append]

end Files

/-! ### The loop over a part of the list -/

section Visit
variable (start limit : Nat)

/-- The position, counted from zero, is in the window. With the limit zero it has no end. -/
def inWindow (i : Nat) : Bool :=
  decide (start ≤ i) && (decide (limit = 0) || decide (i < start + limit))

variable {start limit}

/-- The window is over. -/
def Past (start limit n : Nat) : Prop := limit ≠ 0 ∧ start + limit ≤ n

/-- Behind the window all later positions are behind it as well. -/
theorem Past.mono {n m : Nat} (h : Past start limit n) (hle : n ≤ m) : Past start limit m :=
  ⟨h.1, h.2.trans hle⟩

/-- Behind the window nothing is picked. -/
theorem Past.pickFrom_eq_nil {n : Nat} (h : Past start limit n) (files : List (String × α)) :
    pickFrom (inWindow start limit) n files = [] := by
  refine Lib.pickFrom_eq_nil (fun i hi => ?_)
  have hstop : ¬ i < start + limit := Nat.not_lt.mpr (h.2.trans hi)
  simp [inWindow, h.1, hstop]

/-- The loop from `st` to `st'` over the files `files`: it calls `fn` on those in the window,
and counts all of them, unless the window is over on both counts. -/
structure Visited (start limit : Nat) (files : List (String × α)) (st st' : ListState α) :
    Prop where
  found : st'.found = st.found ++ pickFrom (inWindow start limit) st.counter files
  counter : st'.counter = st.counter + files.length ∨
    (Past start limit st'.counter ∧ Past start limit (st.counter + files.length))

/-- No file, no step. -/
theorem Visited.nil (st : ListState α) : Visited start limit [] st st :=
  ⟨(List.append_nil _).symm, Or.inl rfl⟩

/-- Behind the window no file is visited. -/
theorem Visited.past {st : ListState α} (h : Past start limit st.counter)
    (files : List (String × α)) : Visited start limit files st st := by
  refine ⟨?_, Or.inr ⟨h, h.mono (Nat.le_add_right _ _)⟩⟩
  rw [h.pickFrom_eq_nil, List.append_nil]

/-- Files and then more files. The second part begins at the position behind the first one, or
both are past the window. -/
theorem Visited.append {files₁ files₂ : List (String × α)} {st₁ st₂ st₃ : ListState α}
    (h₁ : Visited start limit files₁ st₁ st₂) (h₂ : Visited start limit files₂ st₂ st₃) :
    Visited start limit (files₁ ++ files₂) st₁ st₃ := by
  have hlen : st₁.counter + (files₁ ++ files₂).length
      = st₁.counter + files₁.length + files₂.length := by
    rw [List.length_append, Nat.add_assoc]
  constructor
  · -- The second part begins at the position of its first file, or both are past the window.
    have hpick : pickFrom (inWindow start limit) st₂.counter files₂
        = pickFrom (inWindow start limit) (st₁.counter + files₁.length) files₂ := by
      rcases h₁.counter with hcounter | ⟨hpast, hpast'⟩
      · rw [hcounter]
      · rw [hpast.pickFrom_eq_nil, hpast'.pickFrom_eq_nil]
    rw [h₂.found, h₁.found, hpick, pickFrom_append, List.append_assoc]
  · rw [hlen]
    rcases h₁.counter with hcounter | ⟨hpast, hpast'⟩
    · rw [← hcounter]
      exact h₂.counter
    · refine Or.inr ⟨?_, hpast'.mono (Nat.le_add_right _ _)⟩
      rcases h₂.counter with hcounter | ⟨hpast₃, -⟩
      · exact hpast.mono (by omega)
      · exact hpast₃

variable (ending : String)

/-- One file with the ending is counted, and found when its position is in the window. The loop
over its directory ends only behind the window. -/
theorem visitFile_visited (hsum : start + limit < 2 ^ 64) {fname : String}
    (h : hasEnding fname ending = true) (content : α) (st : ListState α) :
    Visited start limit [(fname, content)] st (visitFile start limit ending fname content st).1 ∧
      ((visitFile start limit ending fname content st).2 = true →
        Past start limit (visitFile start limit ending fname content st).1.counter) := by
  have hvisit : visitFile start limit ending fname content st
      = if st.counter + 1 ≤ start then ({ st with counter := st.counter + 1 }, false)
        else if limit ≠ 0 ∧ st.counter + 1 > start + limit then
          ({ st with counter := st.counter + 1 }, true)
        else ({ counter := st.counter + 1, found := st.found ++ [(fname, content)] }, false) := by
    unfold visitFile
    rw [h, Nat.mod_eq_of_lt hsum]
    rfl
  have hpick : ∀ b : Bool, inWindow start limit st.counter = b →
      pickFrom (inWindow start limit) st.counter [(fname, content)]
        = if b then [(fname, content)] else [] := by
    intro b hb
    rw [pickFrom, pickFrom, hb]
  rw [hvisit]
  by_cases hbefore : st.counter + 1 ≤ start
  · -- The file is before the window.
    have hout : inWindow start limit st.counter = false := by
      have hlt : ¬ start ≤ st.counter := by omega
      simp [inWindow, hlt]
    rw [if_pos hbefore]
    refine ⟨⟨?_, Or.inl rfl⟩, fun hstop => absurd hstop Bool.false_ne_true⟩
    rw [hpick false hout]
    exact (List.append_nil _).symm
  · rw [if_neg hbefore]
    by_cases hpast : limit ≠ 0 ∧ st.counter + 1 > start + limit
    · have hover : Past start limit st.counter := ⟨hpast.1, by omega⟩
      rw [if_pos hpast]
      refine ⟨⟨?_, Or.inl rfl⟩, fun _ => hover.mono (Nat.le_succ _)⟩
      rw [hover.pickFrom_eq_nil]
      exact (List.append_nil _).symm
    · have hin : inWindow start limit st.counter = true := by
        have hge : start ≤ st.counter := by omega
        by_cases hlimit : limit = 0
        · simp [inWindow, hge, hlimit]
        · have hlt : st.counter < start + limit := by omega
          simp [inWindow, hge, hlt]
      rw [if_neg hpast]
      refine ⟨⟨?_, Or.inl rfl⟩, fun hstop => absurd hstop Bool.false_ne_true⟩
      rw [hpick true hin]
      rfl

mutual

/-- One entry: a directory with what is below it, a file, or something hidden, which is not looked
at. -/
theorem visitEntry_visited (hsum : start + limit < 2 ^ 64) (curPath : String) :
    ∀ (e : DirEntry α) (st : ListState α),
      Visited start limit (filesOf ending curPath e) st
          (visitEntry start limit ending curPath e st).1 ∧
        ((visitEntry start limit ending curPath e st).2 = true →
          Past start limit (visitEntry start limit ending curPath e st).1.counter)
  | .dir dName entries, st => by
      rw [visitEntry, filesOf]
      by_cases hh : isHidden dName = true
      · rw [if_pos hh, if_pos hh]
        exact ⟨Visited.nil st, fun hstop => absurd hstop Bool.false_ne_true⟩
      · rw [if_neg hh, if_neg hh]
        exact ⟨loopDir_visited hsum _ entries st, fun hstop => absurd hstop Bool.false_ne_true⟩
  | .reg dName content, st => by
      rw [visitEntry, filesOf, isListed]
      by_cases hh : isHidden dName = true
      · rw [if_pos hh, hh]
        exact ⟨Visited.nil st, fun hstop => absurd hstop Bool.false_ne_true⟩
      · have hvisible : isHidden dName = false := Bool.eq_false_iff.mpr hh
        rw [if_neg hh, hvisible]
        by_cases he : hasEnding (curPath ++ dName) ending = true
        · rw [he]
          exact visitFile_visited ending hsum he content st
        · -- A file with another ending is not counted.
          have hother : hasEnding (curPath ++ dName) ending = false := Bool.eq_false_iff.mpr he
          have hvisit : visitFile start limit ending (curPath ++ dName) content st
              = (st, false) := by
            unfold visitFile
            rw [hother]
            rfl
          rw [hother, hvisit]
          exact ⟨Visited.nil st, fun hstop => absurd hstop Bool.false_ne_true⟩

/-- The loop over a directory. What a stopped loop leaves out is past the window, and so are all
files that the loops around it come to. -/
theorem loopDir_visited (hsum : start + limit < 2 ^ 64) (curPath : String) :
    ∀ (es : List (DirEntry α)) (st : ListState α),
      Visited start limit (filesBelow ending curPath es) st
        (loopDir start limit ending curPath es st)
  | [], st => by
      rw [loopDir, filesBelow]
      exact Visited.nil st
  | e :: es, st => by
      obtain ⟨hvisited, hstop⟩ := visitEntry_visited hsum curPath e st
      rw [loopDir, filesBelow]
      rcases hentry : visitEntry start limit ending curPath e st with ⟨st₁, stopped⟩
      rw [hentry] at hvisited hstop
      cases stopped with
      | true => exact hvisited.append (Visited.past (hstop rfl) _)
      | false => exact hvisited.append (loopDir_visited hsum curPath es st₁)

end

/-- `fn` is called on the files of the window, in the order of the tree. A limit of zero is none.
-/
theorem listFiles_eq (hsum : start + limit < 2 ^ 64) (path : String) (entries : List (DirEntry α)) :
    listFiles start limit ending path entries
      = if limit = 0 then (filesBelow ending path entries).drop start
        else ((filesBelow ending path entries).drop start).take limit := by
  have hvisited := loopDir_visited ending hsum path entries { counter := 0, found := [] }
  rw [listFiles, hvisited.found, List.nil_append]
  by_cases hlimit : limit = 0
  · have hwindow : inWindow start limit = fun i => decide (start ≤ i) := by
      funext i
      simp [inWindow, hlimit]
    rw [if_pos hlimit, hwindow, pickFrom_ge, Nat.sub_zero]
  · have hwindow : inWindow start limit
        = fun i => decide (start ≤ i) && decide (i < start + limit) := by
      funext i
      simp [inWindow, hlimit]
    rw [if_neg hlimit, hwindow, pickFrom_interval, Nat.sub_zero, Nat.max_zero,
      Nat.add_sub_cancel_left]

end Visit

/-- `listFiles` takes exact windows of the files in depth-first order: all from `from` on when
the limit is zero, and at most `limit` of them otherwise. Abutting windows visit every file
once, in order. -/
theorem listFiles_windows (path ending : String) (entries : List (DirEntry α)) :
    (∀ start limit, start + limit < 2 ^ 64 →
      listFiles start limit ending path entries
        = if limit = 0 then (filesBelow ending path entries).drop start
          else ((filesBelow ending path entries).drop start).take limit) ∧
    ∀ k n, 0 < k → n * k < 2 ^ 64 → (filesBelow ending path entries).length ≤ n * k →
      (List.range n).flatMap (fun i => listFiles (i * k) k ending path entries)
        = filesBelow ending path entries := by
  refine ⟨fun start limit hsum => listFiles_eq ending hsum path entries,
    fun k n hk hn hall => ?_⟩
  -- No window ends behind the last one, so no sum wraps.
  have hwindow : ∀ i ∈ List.range n, listFiles (i * k) k ending path entries
      = ((filesBelow ending path entries).drop (i * k)).take k := by
    intro i hi
    have hle : i * k + k ≤ n * k := by
      rw [← Nat.succ_mul]
      exact Nat.mul_le_mul_right k (List.mem_range.mp hi)
    rw [listFiles_eq ending (hle.trans_lt hn), if_neg hk.ne']
  rw [List.flatMap_congr hwindow, flatMap_windows, List.take_of_length_le hall]

/-- A subdirectory between two files, and a file that is hidden. -/
def nestedTree : List (DirEntry Nat) :=
  [.reg "a.zip" 1, .dir "d" [.reg "b.zip" 2, .reg "c.txt" 3, .reg ".h.zip" 4, .reg "e.zip" 5],
    .reg "f.zip" 6]

/-- The second window of one directory in another, and two windows side by side. -/
theorem listFiles_windows_nested :
    listFiles 1 2 ".zip" "/" nestedTree = [("/d/b.zip", 2), ("/d/e.zip", 5)] ∧
      (List.range 2).flatMap (fun i => listFiles (i * 3) 3 ".zip" "/" nestedTree)
        = [("/a.zip", 1), ("/d/b.zip", 2), ("/d/e.zip", 5), ("/f.zip", 6)] := by
  obtain ⟨hwindow, habut⟩ := listFiles_windows "/" ".zip" nestedTree
  have hfiles : filesBelow ".zip" "/" nestedTree
      = [("/a.zip", 1), ("/d/b.zip", 2), ("/d/e.zip", 5), ("/f.zip", 6)] := by decide
  constructor
  · rw [hwindow 1 2 (by decide), hfiles]
    rfl
  · rw [habut 3 2 (by decide) (by decide) (by rw [hfiles]; decide), hfiles]

end Colloc.Proofs

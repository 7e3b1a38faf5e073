import Colloc.Spec.ToZmap

/-!
# `Colloc.Spec.Extract`: the program

`Job.runIn` runs the stages in the order of `main`, each on the files of the stages before it.
The thresholds are parameters. `Thresholds.main` are those of `extract.cpp`.

`bigram_stat` and `trigram_stat` write numbered part files and then merge all part files that
`glob` finds. The directories `bi_parts` and `tri_parts` are never emptied, so they are a state
that one run leaves to the next. Every other file of the save directory is replaced by a run
before it is read: `OFStreamer` and `convert` truncate, and `ExternalSorter` empties its
directory. An exception ends a run where it is thrown, and the part files stay as they are then.

`extract` is a run in a fresh save directory.
-/

set_option autoImplicit false

namespace Colloc.Spec

open Colloc.Lib

/-- The thresholds of the stages. -/
structure Thresholds (R : Type) where
  lem2 : R
  bi1 : UInt32
  bi2 : R
  lem3 : R
  tri1 : UInt32
  tri2 : R

/-- The thresholds in `main`: `1'000`, then `1'000` and `0.01`, `1'000`, and `1'000` and
`0.003`. -/
def Thresholds.main {R : Type} [Double R] : Thresholds R :=
  { lem2 := ((1000 : Nat) : R)
    bi1 := 1000
    bi2 := ((1 : Nat) : R) / ((100 : Nat) : R)
    lem3 := ((1000 : Nat) : R)
    tri1 := 1000
    tri2 := ((3 : Nat) : R) / ((1000 : Nat) : R) }

/-- The stages from `bigram_stat` to `filter_bilems`: `bi.bin` is read by no later stage. -/
structure BigramFiles (R : Type) where
  extended2 : RecordFile (Lem2Group R)
  bifreq : RecordFile Bigram
  lemfreq : RecordFile LemFreq
  bifiltered : RecordFile (Lem2Group R)

/-- The stages from `trigram_stat` to `filter_trilems`. -/
structure TrigramFiles (R : Type) where
  extended3 : RecordFile (Lem3Group R)
  trifreq : RecordFile Trigram
  trifiltered : RecordFile (Lem3Group R)

/-- The directories of part files in the save directory. -/
structure PartDirs where
  biParts : FlatHashMap String (RecordFile Bigram)
  triParts : FlatHashMap String (RecordFile Trigram)

/-- Those of a fresh save directory. -/
def PartDirs.empty : PartDirs := { biParts := ∅, triParts := ∅ }

section
variable {R : Type} [Double R] (std : Stdlib) (dsave : String) (th : Thresholds R)
  (converted : Converted) (lemmatized : Lemmatized)

/-- `bigram_stat`, `group_lem2`, `bifreq_stat` and `filter_bilems`, with the part files that are
there. -/
def extractBigramsIn (biParts : FlatHashMap String (RecordFile Bigram)) :
    Except Error (BigramFiles R) :=
  match bigramStat std dsave converted.corpus biParts with
  | .error e => .error e
  | .ok (bi, _) =>
      match groupLem2 std lemmatized.lems converted.uni bi th.lem2 with
      | .error e => .error e
      | .ok extended2 =>
          match bifreqStat std lemmatized.lems lemmatized.lemid extended2 converted.corpus with
          | .error e => .error e
          | .ok (bifreq, lemfreq) =>
              match filterBilems std bifreq extended2 th.bi1 th.bi2 with
              | .error e => .error e
              | .ok bifiltered => .ok (BigramFiles.mk extended2 bifreq lemfreq bifiltered)

/-- `trigram_stat`, `group_lem3`, `trifreq_stat` and `filter_trilems`, with the part files that
are there. -/
def extractTrigramsIn (triParts : FlatHashMap String (RecordFile Trigram))
    (bifiltered : RecordFile (Lem2Group R)) : Except Error (TrigramFiles R) :=
  match trigramStat std dsave bifiltered converted.corpus triParts with
  | .error e => .error e
  | .ok (tri, _) =>
      match groupLem3 std lemmatized.lems converted.uni tri th.lem3 with
      | .error e => .error e
      | .ok extended3 =>
          match trifreqStat std lemmatized.lems extended3 converted.corpus with
          | .error e => .error e
          | .ok trifreq =>
              match filterTrilems std trifreq extended3 th.tri1 th.tri2 with
              | .error e => .error e
              | .ok trifiltered => .ok (TrigramFiles.mk extended3 trifreq trifiltered)

/-- The stages of the pairs in a fresh save directory. -/
def extractBigrams : Except Error (BigramFiles R) :=
  extractBigramsIn std dsave th converted lemmatized PartDirs.empty.biParts

/-- The stages of the triples in a fresh save directory. -/
def extractTrigrams (bifiltered : RecordFile (Lem2Group R)) : Except Error (TrigramFiles R) :=
  extractTrigramsIn std dsave th converted lemmatized PartDirs.empty.triParts bifiltered

end

/-- What `main` is started with, besides the save directory: the corpus in the directory tree
`tree`, and any thresholds. -/
structure Job (R : Type) where
  std : Stdlib
  lib : Baalbek
  dcorpus : String
  tree : List (DirEntry (List Bytes))
  th : Thresholds R

namespace Job
variable {R : Type} [Double R] (j : Job R)

/-- The files of `convert`. -/
def converted : Converted := convert j.std j.lib j.dcorpus j.tree 0 0

/-- `main`, after the command line, in a save directory with part files: how it ends, and the
part files then. -/
def runIn (dsave : String) (dirs : PartDirs) : Except Error TermStat × PartDirs :=
  match lemmatize j.std j.lib j.converted.uni with
  | .error e => (.error e, dirs)
  | .ok lemmatized =>
      let biParts := biPartsAfter j.std j.converted.corpus dirs.biParts
      match extractBigramsIn j.std dsave j.th j.converted lemmatized dirs.biParts with
      | .error e => (.error e, { dirs with biParts := biParts })
      | .ok b =>
          let triParts := triPartsAfter j.std b.bifiltered j.converted.corpus dirs.triParts
          match extractTrigramsIn j.std dsave j.th j.converted lemmatized dirs.triParts
              b.bifiltered with
          | .error e => (.error e, { biParts := biParts, triParts := triParts })
          | .ok t =>
              (toZmap j.std j.lib
                { bifreq := b.bifreq
                  bifiltered := b.bifiltered
                  trifreq := t.trifreq
                  trifiltered := t.trifiltered
                  uni := j.converted.uni
                  lemid := lemmatized.lemid
                  lemfreq := b.lemfreq
                  totalCount := j.converted.totalCount }
                "v1.10", { biParts := biParts, triParts := triParts })

/-- The part files after runs in one save directory. -/
def dirsAfter (dsave : String) (history : List (Job R)) : PartDirs :=
  history.foldl (fun dirs j => (j.runIn dsave dirs).2) PartDirs.empty

end Job

/-- `main` in the fresh save directory `dsave`. -/
def extract {R : Type} [Double R] (std : Stdlib) (lib : Baalbek) (dcorpus dsave : String)
    (tree : List (DirEntry (List Bytes))) (th : Thresholds R) : Except Error TermStat :=
  (Job.runIn { std := std, lib := lib, dcorpus := dcorpus, tree := tree, th := th }
    dsave PartDirs.empty).1

end Colloc.Spec

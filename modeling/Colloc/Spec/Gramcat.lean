import Colloc.Lib.Columns
import Colloc.Spec.DataFile
import Colloc.Spec.ToZmap

/-!
# `Colloc.Spec.Gramcat`: record files as text

`gramcat` prints a record file as a table. With the dictionaries `uni.bin` and `lemid.bin` it
prints the words and lemmas of the records in the place of their ids. `read_total` prints the
number in the header.

`printf` pads a column with blanks, and a string ends for it at the first zero byte. What `%.9lf`
makes of a weight is the parameter `fixed9`.
-/

set_option autoImplicit false

namespace Colloc.Spec

open Colloc.Lib

/-! ### Lines -/

/-- `%s` of a string. -/
def cString (s : Bytes) : Bytes := s.takeWhile (fun b => b != 0)

/-- `print_term`: the width that is left after the digits may be negative. -/
def printTerm (term : Bytes) (width : Int) : Bytes :=
  hex term ++ List.replicate (max 1 (width - 2 * term.length).natAbs) 32

/-- `print_unigram`. -/
def printUnigram (msg : Unigram) : Bytes :=
  cString msg.str ++ [9] ++ padLeft 50 (decimal msg.id.toNat) ++ [9] ++ decimal msg.weight.toNat
    ++ [10]

/-- `print_bigram` and `print_trigram`. -/
def printGram {K : Type} [IdTuple K] (msg : Gram K) : Bytes :=
  (IdTuple.toList msg.ids).flatMap (fun id => decimal id.toNat ++ [9, 9])
    ++ decimal msg.weight.toNat ++ [10]

/-- `print_lemid`. -/
def printLemid (msg : LemId) : Bytes :=
  printTerm msg.str 50 ++ [9] ++ padLeft 50 (decimal msg.id.toNat) ++ [10]

/-- `print_lemfreq`. -/
def printLemfreq (msg : LemFreq) : Bytes :=
  printTerm msg.str 50 ++ [9] ++ padLeft 50 (decimal msg.id.toNat) ++ [9]
    ++ decimal msg.weight.toNat ++ [10]

/-- Columns of numbers. -/
def columns (width : Nat) (ns : List UInt32) : Bytes :=
  ns.flatMap (fun n => padLeft width (decimal n.toNat))

section
variable {R : Type} (fixed9 : R → Bytes)

/-- `print_lem2group`. -/
def printLem2group (msg : Lem2Group R) : Bytes :=
  decimal msg.lids.1.toNat ++ columns 16 [msg.lids.2] ++ padLeft 16 (fixed9 msg.weight) ++ [10]
    ++ msg.cases.flatMap (fun cs =>
      [9, 9] ++ decimal cs.wids.1.toNat ++ columns 16 [cs.wids.2, cs.count] ++ [10])

/-- `print_lem3group`. -/
def printLem3group (msg : Lem3Group R) : Bytes :=
  decimal msg.lids.1.toNat ++ columns 20 [msg.lids.2.1, msg.lids.2.2]
    ++ padLeft 20 (fixed9 msg.weight) ++ [10]
    ++ msg.cases.flatMap (fun cs =>
      [9] ++ columns 20 (IdTuple.toList cs.wids ++ [cs.count]) ++ [10])

/-- `%50s\\t%-50s%16u\\n`, and with one column more for three words. -/
def wordLine (words : List Bytes) (count : Nat) : Bytes :=
  padLeft 50 (cString (words.headD [])) ++ [9]
    ++ words.tail.flatMap (fun w => padRight 50 (cString w)) ++ padLeft 16 (decimal count) ++ [10]

/-- The line of a group with its lemmas. -/
def groupLine (lems : List Bytes) (weight : R) : Bytes :=
  lems.flatMap (fun lem => printTerm lem 30) ++ padLeft 16 (fixed9 weight) ++ [10]

/-- `print_bigram_decode`, with its dictionary. -/
def decodeGram {K : Type} [IdTuple K] (texts : Texts) (msg : Gram K) : Except Error Bytes :=
  match derefAll texts.uni "uni.find" (IdTuple.toList msg.ids) with
  | .error e => .error e
  | .ok words => .ok (wordLine words msg.weight.toNat)

/-- The loop over the cases. -/
def decodeCases {K : Type} [IdTuple K] (texts : Texts) : List (Case K) → Except Error Bytes
  | [] => .ok []
  | cs :: cases =>
      match derefAll texts.uni "uni.find" (IdTuple.toList cs.wids) with
      | .error e => .error e
      | .ok words =>
          match decodeCases texts cases with
          | .error e => .error e
          | .ok lines => .ok (wordLine words cs.count.toNat ++ lines)

/-- `print_lemg2roup_decode` and `print_lem3group_decode`, with their dictionaries. -/
def decodeGroup {K : Type} [IdTuple K] (texts : Texts) (msg : LemGroup K R) : Except Error Bytes :=
  match derefAll texts.unilem "unilem.find" (IdTuple.toList msg.lids) with
  | .error e => .error e
  | .ok lems =>
      match decodeCases texts msg.cases with
      | .error e => .error e
      | .ok lines => .ok (groupLine fixed9 lems msg.weight ++ lines)

end

/-! ### `main` -/

/-- What a program leaves: its exit code and what it printed. -/
structure Printed where
  code : Nat
  out : Bytes
  err : Bytes
  deriving DecidableEq

section
variable {R : Type} [Double R] (fs : String → Option (DataFile R))

/-- `load_idmap`. -/
def loadIdmap (fname : String) (type : MsgType) (id : type.Msg R → UInt32)
    (str : type.Msg R → Bytes) : Except Error (FlatHashMap UInt32 Bytes) :=
  applyFile fs fname type (fun idmap msg => .ok (idmap.tryEmplace (id msg) (str msg))) ∅

/-- The dictionary of words. -/
def loadWords (funi : String) : Except Error Texts :=
  match loadIdmap fs funi .unigram StrIdWeight.id StrIdWeight.str with
  | .error e => .error e
  | .ok uni => .ok { uni := uni, unilem := ∅ }

/-- The dictionaries of words and of lemmas. -/
def loadTexts (funi flem : String) : Except Error Texts :=
  match loadIdmap fs funi .unigram StrIdWeight.id StrIdWeight.str with
  | .error e => .error e
  | .ok uni =>
      match loadIdmap fs flem .lemId LemId.id LemId.str with
      | .error e => .error e
      | .ok unilem => .ok { uni := uni, unilem := unilem }

/-- The headers of the tables. -/
def tableHeader : MsgType → Bytes
  | .unigram =>
      literalBytes "WORD\t" ++ padLeft 50 (literalBytes "ID") ++ literalBytes "\t\tCOUNT\n"
  | .bigram => literalBytes "ID1\t\tID2\t\tCOUNT\n"
  | .trigram => literalBytes "ID1\t\tID2\t\tID3\t\tCOUNT\n"
  | .lemId => literalBytes "LEM\t" ++ padLeft 50 (literalBytes "ID") ++ literalBytes "\n"
  | .lemFreq => literalBytes "LEM\t" ++ padLeft 50 (literalBytes "ID") ++ literalBytes "\tCOUNT\n"
  | .lem2Group | .lem3Group => []

/-- A file, printed line by line behind its header. -/
def printFile (fname : String) (type : MsgType) (line : type.Msg R → Bytes) :
    Except Error Printed :=
  match applyFile fs fname type (fun out msg => .ok (out ++ line msg)) (tableHeader type) with
  | .error e => .error e
  | .ok out => .ok ⟨0, out, []⟩

/-- The dictionaries are `static` variables of the lambda: the first call loads them. -/
def loadOnce (load : Except Error Texts) : Option Texts → Except Error Texts
  | some texts => .ok texts
  | none => load

/-- One call of a lambda that decodes. -/
def decodeOne {M : Type} (load : Except Error Texts) (line : Texts → M → Except Error Bytes)
    (st : Option Texts × Bytes) (msg : M) : Except Error (Option Texts × Bytes) :=
  match loadOnce load st.1 with
  | .error e => .error e
  | .ok texts =>
      match line texts msg with
      | .error e => .error e
      | .ok text => .ok (some texts, st.2 ++ text)

/-- A file, printed with dictionaries. -/
def decodeFile (fname : String) (type : MsgType) (load : Except Error Texts)
    (line : Texts → type.Msg R → Except Error Bytes) : Except Error Printed :=
  match applyFile fs fname type (decodeOne load line) (none, []) with
  | .error e => .error e
  | .ok (_, out) => .ok ⟨0, out, []⟩

/-- A complaint, with exit code `0` all the same. -/
def complain (text : String) : Except Error Printed := .ok ⟨0, [], literalBytes text⟩

variable (fixed9 : R → Bytes)

/-- `main` of `gramcat.cpp`, with the arguments behind the name of the program. -/
def gramcat : List String → Except Error Printed
  | [] => .ok ⟨1, [], literalBytes "wrong number of arguments\n"⟩
  | fname :: args =>
      match getDataType fs fname with
      | .error e => .error e
      | .ok dtype =>
          if dtype = MsgType.unigram.name then
            printFile fs fname .unigram printUnigram
          else if dtype = MsgType.bigram.name then
            match args with
            | [] => printFile fs fname .bigram (printGram (K := Idd))
            | [funi] => decodeFile fs fname .bigram (loadWords fs funi) (decodeGram (K := Idd))
            | _ => complain (dtype ++ ":wrong number of arguments\n")
          else if dtype = MsgType.trigram.name then
            printFile fs fname .trigram (printGram (K := Iddd))
          else if dtype = MsgType.lemId.name then
            printFile fs fname .lemId printLemid
          else if dtype = MsgType.lemFreq.name then
            printFile fs fname .lemFreq printLemfreq
          else if dtype = MsgType.lem2Group.name then
            match args with
            | [] => printFile fs fname .lem2Group (printLem2group fixed9)
            | [funi, flem] =>
                decodeFile fs fname .lem2Group (loadTexts fs funi flem)
                  (decodeGroup fixed9 (K := Idd))
            | _ => complain (dtype ++ ":wrong number of arguments\n")
          else if dtype = MsgType.lem3Group.name then
            match args with
            | [] => printFile fs fname .lem3Group (printLem3group fixed9)
            | [funi, flem] =>
                decodeFile fs fname .lem3Group (loadTexts fs funi flem)
                  (decodeGroup fixed9 (K := Iddd))
            | _ => complain (dtype ++ ":wrong number of arguments\n")
          else if dtype = "" then complain "could't read data header\n"
          else complain "data type not implemented\n"

/-- `cllc::read_total<M>` of a file. -/
def totalOf (fname : String) (type : MsgType) : Except Error Printed :=
  match openAs fs fname type with
  | .error e => .error e
  | .ok file => .ok ⟨0, decimal (readTotal file) ++ [10], []⟩

/-- `main` of `read_total.cpp`, with its first argument. -/
def readTotalMain (fname : String) : Except Error Printed :=
  match getDataType fs fname with
  | .error e => .error e
  | .ok dtype =>
      if dtype = MsgType.unigram.name then totalOf fs fname .unigram
      else if dtype = MsgType.bigram.name then totalOf fs fname .bigram
      else if dtype = MsgType.lemId.name then totalOf fs fname .lemId
      else if dtype = MsgType.lemFreq.name then totalOf fs fname .lemFreq
      else if dtype = MsgType.lem2Group.name then totalOf fs fname .lem2Group
      else if dtype = MsgType.trigram.name then totalOf fs fname .trigram
      else if dtype = "" then .ok ⟨1, [], literalBytes "could't read data header\n"⟩
      else .ok ⟨1, [], literalBytes "data type not implemented\n"⟩

end

end Colloc.Spec

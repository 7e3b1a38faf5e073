import Colloc.Proofs.GroupExact

/-!
# `Colloc.Proofs.Filters`: the two filters compute one function

`filter_bilems` sorts the groups on disk and filters what the merge shows. `filter_trilems`
filters first and sorts in memory. `filterOnDisk` and `filterInMemory` are the two paths for
any tuple of ids and, on disk, for any bound of the parts.

Both keep the groups above the thresholds and sort them by weight, greatest first (`Filtered`).
A sort is determined up to the order of ties, so on the same data the outputs differ in the
order of groups of the same weight alone (`Filtered.agree`). Whatever the number of parts, only
groups of the file are written (`filterBilems_spec`, `filterTrilems_spec`).

The part files are numbered by an `unsigned int`. `filterBilems_manyGroups` is a file of groups
that are all lost, because the counter comes back to zero.
-/

set_option autoImplicit false

namespace Colloc.Proofs

open Colloc.Lib
open Colloc.Spec

/-! ### The two paths -/

section Paths
variable {K R : Type} [IdTuple K] [DecidableEq K] [Double R]

/-- `filter_bilems` with the bound `max` in the place of `20'000'000`. -/
def filterOnDisk (std : Stdlib) (max : Nat) (freq : RecordFile (Gram K))
    (extended : RecordFile (LemGroup K R)) (th1 : UInt32) (th2 : R) :
    Except Error (RecordFile (LemGroup K R)) :=
  match loadFreqs freq with
  | .error e => .error e
  | .ok freqs =>
      match (ExternalSorter.new max).sortUnstable std lemGroupLess (IFStreamer.open extended) with
      | .error e => .error e
      | .ok merger =>
          match merger.forEach std lemGroupLess
              (fun written lg =>
                (keepGroup freqs th1 th2 written lg).map (fun written => (written, lg))) [] with
          | .error e => .error e
          | .ok msgs => .ok { total := 0, msgs := msgs }

/-- `filter_trilems`. -/
def filterInMemory (std : Stdlib) (freq : RecordFile (Gram K))
    (extended : RecordFile (LemGroup K R)) (th1 : UInt32) (th2 : R) :
    Except Error (RecordFile (LemGroup K R)) :=
  match loadFreqs freq with
  | .error e => .error e
  | .ok freqs =>
      match readApply extended (keepGroup freqs th1 th2) [] with
      | .error e => .error e
      | .ok v => .ok { total := 0, msgs := std.sort (fun l r => lemGroupLess r l) v }

/-- `filter_bilems` is the path on disk, with parts of 20,000,000 groups. Both check a group by
`keepGroup` when the merge shows it. -/
theorem filterBilems_eq (std : Stdlib) (bifreq : RecordFile Bigram)
    (extended2 : RecordFile (Lem2Group R)) (th1 : UInt32) (th2 : R) :
    filterBilems std bifreq extended2 th1 th2
      = filterOnDisk std 20000000 bifreq extended2 th1 th2 := by
  unfold filterBilems filterOnDisk
  cases loadFreqs bifreq with
  | error e => rfl
  | ok freqs =>
      simp only
      cases (ExternalSorter.new 20000000).sortUnstable std lemGroupLess
          (IFStreamer.open extended2) with
      | error e => rfl
      | ok merger =>
          simp only
          cases merger.forEach std lemGroupLess (fun written lg =>
              (keepGroup freqs th1 th2 written lg).map (fun written => (written, lg))) [] with
          | error e => rfl
          | ok msgs => rfl

/-- `filter_trilems` is the path in memory: it reads the frequencies, keeps groups and sorts them
once. -/
theorem filterTrilems_eq (std : Stdlib) (trifreq : RecordFile Trigram)
    (extended3 : RecordFile (Lem3Group R)) (th1 : UInt32) (th2 : R) :
    filterTrilems std trifreq extended3 th1 th2
      = filterInMemory std trifreq extended3 th1 th2 := by
  unfold filterTrilems filterInMemory
  cases loadFreqs trifreq with
  | error e => rfl
  | ok freqs =>
      simp only
      cases readApply extended3 (keepGroup freqs th1 th2) [] with
      | error e => rfl
      | ok v => rfl

/-- The groups whose frequency and weight are above the thresholds. -/
def aboveBoth (count : K → UInt32) (th1 : UInt32) (th2 : R) (lg : LemGroup K R) : Bool :=
  decide (count lg.lids > th1) && Double.less th2 lg.weight

omit [IdTuple K] in
/-- A run over groups with frequencies keeps those above the thresholds, in order. No lookup of a
frequency misses. -/
theorem keepGroup_filter (freqs : FlatHashMap K UInt32) (count : K → UInt32) (th1 : UInt32)
    (th2 : R) {msgs : List (LemGroup K R)}
    (h : ∀ lg ∈ msgs, freqs.lookup lg.lids = some (count lg.lids)) :
    msgs.foldlM (keepGroup freqs th1 th2) [] = .ok (msgs.filter (aboveBoth count th1 th2)) := by
  obtain ⟨out, hok, hout⟩ := foldlM_list (f := keepGroup freqs th1 th2)
    (P := fun before written => written = before.filter (aboveBoth count th1 th2)) (l := msgs)
    (s := [])
    (fun lg hlg before written hwritten => by
      have hderef : freqs.deref lg.lids "fit->second" = .ok (count lg.lids) := by
        unfold FlatHashMap.deref
        rw [h lg hlg]
      refine ⟨_, by unfold keepGroup passes; rw [hderef], ?_⟩
      rw [List.filter_append, hwritten]
      by_cases hkeep : aboveBoth count th1 th2 lg = true
      · have hpass : (decide (count lg.lids > th1) && Double.less th2 lg.weight) = true := hkeep
        simp only [hpass, if_true, List.filter_cons, hkeep, List.filter_nil]
      · have hpass : ¬ (decide (count lg.lids > th1) && Double.less th2 lg.weight) = true := hkeep
        simp only [if_neg hpass, List.filter_cons, if_neg hkeep, List.filter_nil,
          List.append_nil]) rfl
  rw [hok, hout]

end Paths

/-! ### What both write -/

/-- The files of a filter: the table counts each group, and every weight is a number. -/
structure FilterInput (K R : Type) [Double R] where
  freq : RecordFile (Gram K)
  groups : RecordFile (LemGroup K R)
  counted : ∀ lg ∈ groups.msgs, lg.lids ∈ freq.msgs.map Gram.ids
  number : ∀ lg ∈ groups.msgs, Double.isNumber lg.weight

/-- The groups a filter is to write: those above the thresholds, as they are and as often as
they are there, the greatest weight first. -/
structure Filtered {K R : Type} [DecidableEq K] [Double R] (input : FilterInput K R)
    (th1 : UInt32) (th2 : R) (out : List (LemGroup K R)) : Prop where
  perm : out.Perm (input.groups.msgs.filter (aboveBoth (docCountIn input.freq) th1 th2))
  sorted : Sorted lemGroupLess out

/-- Neither weight is less than the other. -/
def SameWeight {K R : Type} [Double R] (a b : LemGroup K R) : Prop :=
  lemGroupLess a b = false ∧ lemGroupLess b a = false

section Filtered
variable {K R : Type} [IdTuple K] [DecidableEq K] [Double R] (std : Stdlib)
  (input : FilterInput K R) (th1 : UInt32) (th2 : R)

omit [IdTuple K] [DecidableEq K] in
/-- Weights that are numbers order the groups. -/
theorem FilterInput.strictWeakOn {S : LemGroup K R → Prop}
    (h : ∀ lg, S lg → lg ∈ input.groups.msgs) : StrictWeakOn lemGroupLess S :=
  lemGroupLess_strictWeakOn.mono (fun lg hlg => input.number lg (h lg hlg))

/-- The counts of the groups are loaded. -/
theorem FilterInput.loadFreqs :
    ∃ freqs, loadFreqs input.freq = .ok freqs ∧
      ∀ lg ∈ input.groups.msgs, freqs.lookup lg.lids = some (docCountIn input.freq lg.lids) := by
  obtain ⟨freqs, hload, hlookup⟩ := loadFreqs_eq input.freq
  refine ⟨freqs, hload, fun lg hlg => ?_⟩
  rw [hlookup]
  exact find_eq_docCountIn (input.counted lg hlg)

variable {input th1 th2} in
/-- The path on disk filters what the merge shows, when each shown group is one of the input and
so has a frequency. -/
theorem filterOnDisk_eq {max : Nat} {merger : KMerge (LemGroup K R)}
    {sorted : List (LemGroup K R)}
    (hsort : (ExternalSorter.new max).sortUnstable std lemGroupLess
      (IFStreamer.mk input.groups.msgs) = .ok merger)
    (hmerges : Merges std lemGroupLess merger sorted)
    (hmem : ∀ lg ∈ sorted, lg ∈ input.groups.msgs) :
    filterOnDisk std max input.freq input.groups th1 th2 = .ok
      { total := 0, msgs := sorted.filter (aboveBoth (docCountIn input.freq) th1 th2) } := by
  obtain ⟨freqs, hload, hcount⟩ := input.loadFreqs
  have hrun : merger.forEach std lemGroupLess (fun written lg =>
      (keepGroup freqs th1 th2 written lg).map (fun written => (written, lg))) []
        = .ok (sorted.filter (aboveBoth (docCountIn input.freq) th1 th2)) := by
    rw [hmerges.forEach_keep]
    exact keepGroup_filter freqs (docCountIn input.freq) th1 th2
      (fun lg hlg => hcount lg (hmem lg hlg))
  unfold filterOnDisk IFStreamer.open
  simp only [hload, hsort, hrun]

/-- The path on disk, when its parts do not wrap. -/
theorem filterOnDisk_filtered {max : Nat} (hsize : max ≤ std.maxSize)
    (hmax : max = 0 ∨ input.groups.msgs.length ≤ max * (2 ^ 32 - 1)) :
    ∃ out, filterOnDisk std max input.freq input.groups th1 th2
        = .ok { total := 0, msgs := out } ∧ Filtered input th1 th2 out := by
  obtain ⟨merger, hsort, sorted, hmerges, hperm, hsorted⟩ := sortUnstable_spec std lemGroupLess
    (delivers_file input.groups.msgs) hsize (input.strictWeakOn (fun lg hlg => hlg)) hmax
  exact ⟨_, filterOnDisk_eq std hsort hmerges (fun lg hlg => hperm.mem_iff.mp hlg),
    hperm.filter _, hsorted.filter _⟩

/-- Whatever the number of its parts, the path on disk writes groups of the file. -/
theorem filterOnDisk_mem {max : Nat} (hsize : max ≤ std.maxSize) :
    ∃ out, filterOnDisk std max input.freq input.groups th1 th2
        = .ok { total := 0, msgs := out } ∧ ∀ lg ∈ out, lg ∈ input.groups.msgs := by
  obtain ⟨merger, hsort, sorted, hmerges, hmem, -⟩ := sortUnstable_mem std lemGroupLess
    (delivers_file input.groups.msgs) hsize (input.strictWeakOn (fun lg hlg => hlg))
  exact ⟨_, filterOnDisk_eq std hsort hmerges hmem,
    fun lg hlg => hmem lg (List.mem_of_mem_filter hlg)⟩

/-- The path in memory: the groups that pass the test, in one sort. The test looks up the count of
each group, which is there. -/
theorem filterInMemory_filtered :
    ∃ out, filterInMemory std input.freq input.groups th1 th2
        = .ok { total := 0, msgs := out } ∧ Filtered input th1 th2 out := by
  obtain ⟨freqs, hload, hcount⟩ := input.loadFreqs
  have hrun : readApply input.groups (keepGroup freqs th1 th2) []
      = .ok (input.groups.msgs.filter (aboveBoth (docCountIn input.freq) th1 th2)) := by
    rw [readApply_eq]
    exact keepGroup_filter freqs (docCountIn input.freq) th1 th2 hcount
  have horder : StrictWeakOn (fun l r : LemGroup K R => lemGroupLess r l)
      (· ∈ input.groups.msgs.filter (aboveBoth (docCountIn input.freq) th1 th2)) :=
    (input.strictWeakOn (fun lg hlg => List.mem_of_mem_filter hlg)).flip
  refine ⟨_, ?_, std.sort_perm _ _ horder, std.sort_sorted _ _ horder⟩
  unfold filterInMemory
  simp only [hload, hrun]

variable {input th1 th2}

omit [IdTuple K] in
/-- Two such outputs are the same groups, with the same weight at each place. -/
theorem Filtered.agree {out out' : List (LemGroup K R)} (h : Filtered input th1 th2 out)
    (h' : Filtered input th1 th2 out') : out.Perm out' ∧ List.Forall₂ SameWeight out out' := by
  have hperm := h.perm.trans h'.perm.symm
  have horder : StrictWeakOn lemGroupLess (· ∈ out) :=
    input.strictWeakOn (fun lg hlg => List.mem_of_mem_filter (h.perm.mem_iff.mp hlg))
  exact ⟨hperm, horder.forall₂_of_perm hperm h.sorted h'.sorted⟩

end Filtered

section Stages
variable {R : Type} [Double R]

/-- `filter_bilems` keeps some of the groups, also when the part counter wraps, as every file that
is opened is a part. -/
theorem filterBilems_spec (std : Stdlib) {bifreq : RecordFile Bigram}
    {extended2 : RecordFile (Lem2Group R)} (th1 : UInt32) (th2 : R)
    (hfreq : ∀ lg ∈ extended2.msgs, lg.lids ∈ bifreq.msgs.map Gram.ids)
    (hnum : ∀ lg ∈ extended2.msgs, Double.isNumber lg.weight) :
    ∃ bifiltered, filterBilems std bifreq extended2 th1 th2 = .ok bifiltered ∧
      ∀ lg ∈ bifiltered.msgs, lg ∈ extended2.msgs := by
  rw [filterBilems_eq]
  obtain ⟨out, hok, hmem⟩ := filterOnDisk_mem std ⟨bifreq, extended2, hfreq, hnum⟩ th1 th2
    (std.le_maxSize (by decide : 20000000 ≤ 2 ^ 32))
  exact ⟨_, hok, hmem⟩

/-- `filter_trilems` keeps some of the groups. -/
theorem filterTrilems_spec (std : Stdlib) {trifreq : RecordFile Trigram}
    {extended3 : RecordFile (Lem3Group R)} (th1 : UInt32) (th2 : R)
    (hfreq : ∀ lg ∈ extended3.msgs, lg.lids ∈ trifreq.msgs.map Gram.ids)
    (hnum : ∀ lg ∈ extended3.msgs, Double.isNumber lg.weight) :
    ∃ trifiltered, filterTrilems std trifreq extended3 th1 th2 = .ok trifiltered ∧
      ∀ lg ∈ trifiltered.msgs, lg ∈ extended3.msgs := by
  rw [filterTrilems_eq]
  obtain ⟨out, hok, hout⟩ := filterInMemory_filtered std ⟨trifreq, extended3, hfreq, hnum⟩ th1 th2
  exact ⟨_, hok, fun lg hlg => List.mem_of_mem_filter (hout.perm.mem_iff.mp hlg)⟩

end Stages

/-- Both filters write the groups above the thresholds, each as often as it is there, in an
order of weights that never increases. On the same data, for every tuple of ids and every bound
of the parts that a vector has room for, the paths agree up to the order of groups of the same
weight. -/
theorem filters_exact {R : Type} [Double R] (std std' : Stdlib) (th1 : UInt32) (th2 : R) :
    (∀ input : FilterInput Idd R, input.groups.msgs.length ≤ 20000000 * (2 ^ 32 - 1) →
      ∃ out, filterBilems std input.freq input.groups th1 th2
          = .ok { total := 0, msgs := out } ∧ Filtered input th1 th2 out) ∧
    (∀ input : FilterInput Iddd R,
      ∃ out, filterTrilems std input.freq input.groups th1 th2
          = .ok { total := 0, msgs := out } ∧ Filtered input th1 th2 out) ∧
    ∀ (K : Type) [IdTuple K] [DecidableEq K] (input : FilterInput K R) (max : Nat),
      max ≤ std.maxSize → (max = 0 ∨ input.groups.msgs.length ≤ max * (2 ^ 32 - 1)) →
      ∃ out out', filterOnDisk std max input.freq input.groups th1 th2
          = .ok { total := 0, msgs := out } ∧
        filterInMemory std' input.freq input.groups th1 th2 = .ok { total := 0, msgs := out' } ∧
        Filtered input th1 th2 out ∧ Filtered input th1 th2 out' ∧
        out.Perm out' ∧ List.Forall₂ SameWeight out out' := by
  refine ⟨fun input hmax => ?_, fun input => ?_, fun K _ _ input max hsize hmax => ?_⟩
  · rw [filterBilems_eq]
    exact filterOnDisk_filtered std input th1 th2 (std.le_maxSize (by decide)) (Or.inr hmax)
  · rw [filterTrilems_eq]
    exact filterInMemory_filtered std input th1 th2
  · obtain ⟨out, hok, hout⟩ := filterOnDisk_filtered std input th1 th2 hsize hmax
    obtain ⟨out', hok', hout'⟩ := filterInMemory_filtered std' input th1 th2
    exact ⟨out, out', hok, hok', hout, hout', hout.agree hout'⟩

/-- Two groups of the same weight and one that is not above the thresholds. -/
def tiedGroups : FilterInput Idd ℚ where
  freq := { total := 0, msgs := [⟨(1, 2), 5⟩, ⟨(2, 1), 5⟩, ⟨(3, 1), 1⟩] }
  groups :=
    { total := 0
      msgs := [⟨(1, 2), 4, [⟨(1, 2), 3⟩]⟩, ⟨(3, 1), 9, []⟩, ⟨(2, 1), 4, [⟨(2, 1), 3⟩]⟩] }
  counted := by decide
  number _ _ := trivial

/-- On these both paths write the two groups of weight `4`, in some order each. Their weights
agree place by place. -/
theorem filters_exact_tied :
    ∃ out out', filterBilems Stdlib.sorting tiedGroups.freq tiedGroups.groups 1 (0 : ℚ)
        = .ok { total := 0, msgs := out } ∧
      filterInMemory Stdlib.sorting tiedGroups.freq tiedGroups.groups 1 (0 : ℚ)
        = .ok { total := 0, msgs := out' } ∧
      out.Perm [⟨(1, 2), 4, [⟨(1, 2), 3⟩]⟩, ⟨(2, 1), 4, [⟨(2, 1), 3⟩]⟩] ∧
      List.Forall₂ SameWeight out out' := by
  obtain ⟨hdisk, -, hboth⟩ :=
    filters_exact Stdlib.sorting Stdlib.sorting (1 : UInt32) (0 : ℚ)
  obtain ⟨out, hok, hout⟩ := hdisk tiedGroups (by decide)
  obtain ⟨out₁, out', hok₁, hok', -, -, -, hsame⟩ := hboth Idd tiedGroups 20000000
    (by decide) (Or.inr (by decide))
  rw [filterBilems_eq, hok₁] at hok
  cases hok
  refine ⟨out, out', by rw [filterBilems_eq, hok₁], hok', ?_, hsame⟩
  have hfilter : tiedGroups.groups.msgs.filter (aboveBoth (docCountIn tiedGroups.freq) 1 0)
      = [⟨(1, 2), 4, [⟨(1, 2), 3⟩]⟩, ⟨(2, 1), 4, [⟨(2, 1), 3⟩]⟩] := by decide
  rw [← hfilter]
  exact hout.perm

/-! ### The part counter -/

section Wraps

/-- When the number of its parts comes back to zero, the path on disk keeps no group. The merge
has nothing to show. -/
theorem filterOnDisk_wraps {K R : Type} [IdTuple K] [DecidableEq K] [Double R] (std : Stdlib)
    {freq : RecordFile (Gram K)} {extended : RecordFile (LemGroup K R)} (th1 : UInt32) (th2 : R)
    {max n : Nat} (hsize : max ≤ std.maxSize) (hmax : 0 < max)
    (hlen : extended.msgs.length = max * n) (hn : UInt32.ofNat n = 0) :
    filterOnDisk std max freq extended th1 th2 = .ok { total := 0, msgs := [] } := by
  obtain ⟨freqs, hload, -⟩ := loadFreqs_spec freq
  have hsort : (ExternalSorter.new max).sortUnstable std lemGroupLess
      (IFStreamer.mk extended.msgs) = .ok (KMerge.new []) :=
    sortUnstable_wraps_zero std lemGroupLess (delivers_file extended.msgs) hsize hmax hlen hn
  unfold filterOnDisk IFStreamer.open
  simp only [hload, hsort]
  rfl

/-- The group of a pair of lemmas that are words. -/
def groupOf (g : Bigram) : Lem2Group ℚ := ⟨g.ids, 1, [⟨g.ids, 1⟩]⟩

/-- A group for each pair of a number up to `n` and one up to `m`. -/
def manyGroups (n m : Nat) : FilterInput Idd ℚ where
  freq := manyPairs n m
  groups := { total := 0, msgs := (manyPairs n m).msgs.map groupOf }
  counted := by
    intro lg hlg
    obtain ⟨g, hg, rfl⟩ := List.mem_map.mp hlg
    exact List.mem_map_of_mem hg
  number _ _ := trivial

/-- The pairs that the groups are made of are distinct, as long as their ids fit `u32`. -/
theorem nodup_manyPairs {n m : Nat} (hn : n < 2 ^ 32) (hm : m ≤ n) :
    ((manyPairs n m).msgs.map Gram.ids).Nodup := by
  have hinj : ∀ i j : Nat, i < n → j < n → UInt32.ofNat (i + 1) = UInt32.ofNat (j + 1) →
      i = j := by
    intro i j hi hj heq
    have hnat := congrArg UInt32.toNat heq
    rw [Indexes.toNat_succ hi hn, Indexes.toNat_succ hj hn] at hnat
    omega
  have hflat : (manyPairs n m).msgs.map Gram.ids
      = ((List.range n).product (List.range m)).map
        (fun p => (UInt32.ofNat (p.1 + 1), UInt32.ofNat (p.2 + 1))) := by
    simp [manyPairs, List.product, List.map_flatMap, Function.comp_def]
  rw [hflat]
  refine List.Nodup.map_on (fun p hp q hq heq => ?_) (List.nodup_range.product List.nodup_range)
  obtain ⟨hp₁, hp₂⟩ := List.mem_product.mp hp
  obtain ⟨hq₁, hq₂⟩ := List.mem_product.mp hq
  rw [List.mem_range] at hp₁ hp₂ hq₁ hq₂
  obtain ⟨heq₁, heq₂⟩ := Prod.mk.inj heq
  exact Prod.ext (hinj _ _ hp₁ hq₁ heq₁) (hinj _ _ (by omega) (by omega) heq₂)

/-- So are the tuples of the groups. -/
theorem nodup_manyGroups {n m : Nat} (hn : n < 2 ^ 32) (hm : m ≤ n) :
    ((manyGroups n m).groups.msgs.map LemGroup.lids).Nodup := by
  have hids : (manyGroups n m).groups.msgs.map LemGroup.lids
      = (manyPairs n m).msgs.map Gram.ids := by
    simp [manyGroups, groupOf, Function.comp_def]
  rw [hids]
  exact nodup_manyPairs hn hm

/-- They are all above the thresholds zero. -/
theorem aboveBoth_manyPairs {n m : Nat} (hm : m ≤ n) {g : Bigram} (hg : g ∈ (manyPairs n m).msgs) :
    aboveBoth (docCountIn (manyPairs n m)) 0 0 (groupOf g) = true := by
  obtain ⟨g', hfind, hweight⟩ := Option.map_eq_some_iff.mp
    (find_eq_docCountIn (List.mem_map_of_mem (f := Gram.ids) hg))
  obtain ⟨i, j, -, -, rfl⟩ := mem_manyPairs hm (List.mem_of_find?_eq_some hfind)
  unfold aboveBoth groupOf
  simp only [← hweight]
  rfl

/-- When the number of full parts is a multiple of `2 ^ 32`, the counter is zero at the end and
none of the parts is opened. So a group that is above both thresholds is missing. -/
theorem not_filtered_manyGroups {n m q : Nat} (hm : m ≤ n) (hn0 : 0 < n) (hm0 : 0 < m)
    (hq : n * m = 20000000 * q) (hzero : UInt32.ofNat q = 0) :
    ¬ ∃ out, filterBilems Stdlib.sorting (manyGroups n m).freq (manyGroups n m).groups 0 0
        = .ok { total := 0, msgs := out } ∧ Filtered (manyGroups n m) 0 0 out := by
  rintro ⟨out, hok, hout⟩
  have hlen : (manyGroups n m).groups.msgs.length = 20000000 * q := by
    rw [← hq]
    simp [manyGroups, manyPairs, List.length_flatMap]
  rw [filterBilems_eq, filterOnDisk_wraps Stdlib.sorting 0 0 (by decide) (by decide) hlen
    hzero] at hok
  cases hok
  have hg := first_mem_manyPairs hn0 hm0
  have hmem := hout.perm.mem_iff.mpr (List.mem_filter.mpr
    ⟨List.mem_map_of_mem (f := groupOf) hg, aboveBoth_manyPairs hm hg⟩)
  exact absurd hmem List.not_mem_nil

/-- Of `2 ^ 31 * 40,000,000` groups with tuples of their own, all above the thresholds,
`filter_bilems` writes none. -/
theorem filterBilems_manyGroups :
    ((manyGroups (2 ^ 31) 40000000).groups.msgs.map LemGroup.lids).Nodup ∧
    ¬ ∃ out, filterBilems Stdlib.sorting (manyGroups (2 ^ 31) 40000000).freq
          (manyGroups (2 ^ 31) 40000000).groups 0 0 = .ok { total := 0, msgs := out } ∧
        Filtered (manyGroups (2 ^ 31) 40000000) 0 0 out := by
  refine ⟨?_, not_filtered_manyGroups (q := 2 ^ 32) (by decide) (by decide) (by decide)
    (by decide) (by decide)⟩
  exact nodup_manyGroups (by decide) (by decide)

end Wraps

end Colloc.Proofs

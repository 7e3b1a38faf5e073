import Mathlib.Algebra.Ring.Nat
import Mathlib.Data.List.AList

/-!
# `Colloc.Lib.Numbered`: values stored under a wrapping 32-bit counter

A program stores values one by one, each under a name that is a function of a 32-bit
counter, and a later value under the same name replaces the earlier one. The counter wraps,
so only the last `2 ^ 32` values survive. `writeNumbered` is the loop, `survivors` are the
values that are left, and `writeNumbered_entries` describes the store at the end: the
survivors under their names, and every older entry whose name was not used.
-/

set_option autoImplicit false

namespace Colloc.Lib

variable {N V : Type} [DecidableEq N] (name : UInt32 → N)

/-- Store `vs` under `name c`, `name (c + 1)`, and so on. -/
def writeNumbered (m : AList (fun _ : N => V)) (c : UInt32) :
    List V → AList (fun _ : N => V)
  | [] => m
  | v :: vs => writeNumbered (m.insert (name c) v) (c + 1) vs

/-- The entries `writeNumbered` makes, in order. -/
def numbered (c : UInt32) : List V → List (Sigma fun _ : N => V)
  | [] => []
  | v :: vs => ⟨name c, v⟩ :: numbered (c + 1) vs

/-- Counting on from the next counter. -/
theorem add_ofNat_succ (c : UInt32) (i : Nat) :
    c + UInt32.ofNat (i + 1) = c + 1 + UInt32.ofNat i := by
  rw [UInt32.ofNat_add, UInt32.add_comm (UInt32.ofNat i), ← UInt32.add_assoc]
  rfl

/-- The names `writeNumbered` uses. -/
def numberedKeys (c : UInt32) (vs : List V) : List N := (numbered name c vs).map Sigma.fst

/-- The values under a counter that was not reused: the last `2 ^ 32`. -/
def survivors (vs : List V) : List V := vs.drop (vs.length - 2 ^ 32)

/-- The counter of the first survivor. -/
def survivorsStart (c : UInt32) (vs : List V) : UInt32 := c + UInt32.ofNat (vs.length - 2 ^ 32)

/-- Up to `2 ^ 32` values no number comes twice, and all of them stay. -/
theorem survivors_of_le {vs : List V} (h : vs.length ≤ 2 ^ 32) : survivors vs = vs := by
  unfold survivors
  rw [Nat.sub_eq_zero_of_le h, List.drop_zero]

/-- Which values stay depends on their places only. -/
theorem survivors_map {W : Type} (f : V → W) (vs : List V) :
    survivors (vs.map f) = (survivors vs).map f := by
  unfold survivors
  rw [List.length_map, List.map_drop]

/-- Up to `2 ^ 32` values the first one that stays is the first one. -/
theorem survivorsStart_of_le (c : UInt32) {vs : List V} (h : vs.length ≤ 2 ^ 32) :
    survivorsStart c vs = c := by
  unfold survivorsStart
  rw [Nat.sub_eq_zero_of_le h]
  exact UInt32.add_zero c

omit [DecidableEq N] in
/-- Numbering does not touch the values. -/
theorem numbered_map_snd (c : UInt32) (vs : List V) :
    (numbered name c vs).map Sigma.snd = vs := by
  induction vs generalizing c with
  | nil => rfl
  | cons v vs ih => rw [numbered, List.map_cons, ih]

omit [DecidableEq N] in
/-- The `i`-th value is stored under the `i`-th counter, which may have wrapped around. -/
theorem mem_numbered {c : UInt32} {vs : List V} {i : Nat} (h : i < vs.length) :
    (⟨name (c + UInt32.ofNat i), vs[i]⟩ : Sigma fun _ : N => V) ∈ numbered name c vs := by
  induction vs generalizing c i with
  | nil => simp at h
  | cons v vs ih =>
      rw [numbered, List.mem_cons]
      cases i with
      | zero => exact Or.inl (by simp)
      | succ i =>
          refine Or.inr ?_
          rw [add_ofNat_succ]
          exact ih (by simpa using h)

omit [DecidableEq N] in
/-- The names in use are those of the counters `c`, ..., `c + (vs.length - 1)`, taken modulo `2 ^
32`. The induction is on the values, with the counter. -/
theorem mem_numberedKeys {c : UInt32} {vs : List V} {n : N} :
    n ∈ numberedKeys name c vs ↔ ∃ i < vs.length, n = name (c + UInt32.ofNat i) := by
  unfold numberedKeys
  induction vs generalizing c with
  | nil => simp [numbered]
  | cons v vs ih =>
      rw [numbered, List.map_cons, List.mem_cons, ih]
      constructor
      · rintro (h | ⟨i, hi, h⟩)
        · exact ⟨0, by simp, by simpa using h⟩
        · refine ⟨i + 1, by simpa using hi, ?_⟩
          rw [h, add_ofNat_succ]
      · rintro ⟨i, hi, h⟩
        cases i with
        | zero => exact Or.inl (by simpa using h)
        | succ i =>
            refine Or.inr ⟨i, by simpa using hi, ?_⟩
            rw [h, add_ofNat_succ]

omit [DecidableEq N] in
/-- With `2 ^ 32` values every name is in use. -/
theorem name_mem_numberedKeys {c : UInt32} {vs : List V} (h : 2 ^ 32 ≤ vs.length)
    (x : UInt32) : name x ∈ numberedKeys name c vs := by
  refine (mem_numberedKeys name).mpr ⟨(x - c).toNat, ?_, ?_⟩
  · exact Nat.lt_of_lt_of_le (UInt32.toNat_lt _) h
  · rw [UInt32.ofNat_toNat, UInt32.add_comm, UInt32.sub_add_cancel]

variable {name} (hname : Function.Injective name)

omit [DecidableEq N] in
include hname in
/-- Up to `2 ^ 32` values the counter does not come back to its start. Two names are the same for
the same counter only. -/
theorem name_not_mem_numberedKeys {c : UInt32} {vs : List V} (h : vs.length < 2 ^ 32) :
    name c ∉ numberedKeys name (c + 1) vs := by
  rw [mem_numberedKeys]
  rintro ⟨i, hi, heq⟩
  -- A name in use again would be that of a counter `i + 1` steps on.
  have hc : c + 0 = c + UInt32.ofNat (i + 1) := by
    rw [UInt32.add_zero, add_ofNat_succ]
    exact hname heq
  have h0 : UInt32.ofNat (i + 1) = 0 := (UInt32.add_right_inj c).mp hc.symm
  have hn := congrArg UInt32.toNat h0
  rw [UInt32.toNat_ofNat', Nat.mod_eq_of_lt (by omega)] at hn
  exact absurd hn (by simp)

/-- The entries after an insertion: the new one, and the old ones under other keys. At most one
old entry has the key, since a store has no key twice. -/
theorem entries_insert_perm (m : AList (fun _ : N => V)) (k : N) (v : V) :
    (m.insert k v).entries = ⟨k, v⟩ :: m.entries.filter (fun e => e.1 ≠ k) := by
  rw [AList.entries_insert]
  congr 1
  have hnd := m.nodupKeys
  generalize m.entries = l at hnd
  induction l with
  | nil => rfl
  | cons e l ih =>
      obtain ⟨he, hl⟩ := List.nodupKeys_cons.mp hnd
      by_cases hk : k = e.1
      · subst hk
        rw [List.kerase_cons_eq rfl, List.filter_cons_of_neg (by simp),
          List.filter_eq_self.mpr]
        intro e' he'
        simp only [decide_eq_true_eq]
        exact fun h => he (h ▸ List.mem_keys_of_mem he')
      · rw [List.kerase_cons_ne hk, List.filter_cons_of_pos (by simpa using Ne.symm hk), ih hl]

include hname in
/-- The store after at most `2 ^ 32` values: each value under its name, and what was there under
other names. The names are all different, so no value is written over. -/
theorem writeNumbered_entries_of_le (vs : List V) :
    ∀ (m : AList (fun _ : N => V)) (c : UInt32), vs.length ≤ 2 ^ 32 →
      (writeNumbered name m c vs).entries.Perm
        (numbered name c vs
          ++ m.entries.filter (fun e => e.1 ∉ numberedKeys name c vs)) := by
  induction vs with
  | nil =>
      intro m c _
      simp [writeNumbered, numbered, numberedKeys]
  | cons v vs ih =>
      intro m c hlen
      rw [List.length_cons] at hlen
      -- The name of the head is not used again, so the head's entry survives the tail.
      have hfresh : name c ∉ numberedKeys name (c + 1) vs :=
        name_not_mem_numberedKeys hname (by omega)
      refine (ih (m.insert (name c) v) (c + 1) (by omega)).trans ?_
      have hkeys : ∀ e : Sigma (fun _ : N => V), e.1 ∉ numberedKeys name c (v :: vs) ↔
          e.1 ≠ name c ∧ e.1 ∉ numberedKeys name (c + 1) vs := by
        intro e
        rw [numberedKeys, numbered, List.map_cons, List.mem_cons, not_or]
        rfl
      rw [entries_insert_perm, List.filter_cons_of_pos (by simpa using hfresh), numbered,
        List.filter_filter]
      have hfilter : m.entries.filter (fun e => decide (e.1 ∉ numberedKeys name (c + 1) vs)
            && decide (e.1 ≠ name c))
          = m.entries.filter (fun e => e.1 ∉ numberedKeys name c (v :: vs)) := by
        refine List.filter_congr (fun e _ => ?_)
        rw [← Bool.decide_and]
        exact decide_eq_decide.mpr ((and_comm).trans (hkeys e).symm)
      rw [hfilter, List.cons_append]
      exact List.perm_middle

/-- Entries under names outside the numbered ones are never touched, however many values are
written. -/
theorem writeNumbered_filter (P : N → Bool) (hP : ∀ x, P (name x) = false) (vs : List V) :
    ∀ (m : AList (fun _ : N => V)) (c : UInt32),
      (writeNumbered name m c vs).entries.filter (fun e => P e.1)
        = m.entries.filter (fun e => P e.1) := by
  induction vs with
  | nil => intro m c; rfl
  | cons v vs ih =>
      intro m c
      rw [writeNumbered, ih, entries_insert_perm, List.filter_cons_of_neg (by simp [hP]),
        List.filter_filter]
      refine List.filter_congr (fun e _ => ?_)
      -- `P` holds of no numbered name, so the entry that is replaced is not in the filter.
      by_cases he : e.1 = name c
      · simp [he, hP]
      · simp [he]

/-- Values written one after the other: the second part goes on with the next number. -/
theorem writeNumbered_append (us vs : List V) :
    ∀ (m : AList (fun _ : N => V)) (c : UInt32),
      writeNumbered name m c (us ++ vs)
        = writeNumbered name (writeNumbered name m c us) (c + UInt32.ofNat us.length) vs := by
  induction us with
  | nil => intro m c; simp [writeNumbered]
  | cons u us ih =>
      intro m c
      rw [List.cons_append, writeNumbered, ih, writeNumbered, List.length_cons, add_ofNat_succ]

include hname in
/-- The store at the end: the survivors under their names, and the old entries under names
that were not used. -/
theorem writeNumbered_entries (m : AList (fun _ : N => V)) (c : UInt32) (vs : List V) :
    (writeNumbered name m c vs).entries.Perm
      (numbered name (survivorsStart c vs) (survivors vs)
        ++ m.entries.filter (fun e => e.1 ∉ numberedKeys name c vs)) := by
  by_cases hlen : vs.length ≤ 2 ^ 32
  · rw [survivors_of_le hlen, survivorsStart_of_le c hlen]
    exact writeNumbered_entries_of_le hname vs m c hlen
  · have hlast : (survivors vs).length = 2 ^ 32 := by
      rw [survivors, List.length_drop]
      omega
    -- The last `2 ^ 32` values alone use every name, so nothing older is left.
    have hall : ∀ x, name x ∈ numberedKeys name (survivorsStart c vs) (survivors vs) :=
      name_mem_numberedKeys name (Nat.le_of_eq hlast.symm)
    have hcongr : ∀ e : Sigma (fun _ : N => V),
        (e.1 ∉ numberedKeys name (survivorsStart c vs) (survivors vs))
          ↔ e.1 ∉ numberedKeys name c vs := by
      intro e
      rw [not_iff_not, mem_numberedKeys, mem_numberedKeys]
      constructor
      · rintro ⟨i, -, h⟩
        exact (mem_numberedKeys name).mp
          (h ▸ name_mem_numberedKeys name (by omega : 2 ^ 32 ≤ vs.length) _)
      · rintro ⟨i, -, h⟩
        exact (mem_numberedKeys name).mp (h ▸ hall _)
    have hsplit : writeNumbered name m c vs
        = writeNumbered name (writeNumbered name m c (vs.take (vs.length - 2 ^ 32)))
            (survivorsStart c vs) (survivors vs) := by
      conv_lhs => rw [← List.take_append_drop (vs.length - 2 ^ 32) vs]
      rw [writeNumbered_append, List.length_take, Nat.min_eq_left (Nat.sub_le _ _)]
      rfl
    rw [hsplit]
    refine (writeNumbered_entries_of_le hname _ _ _ (Nat.le_of_eq hlast)).trans ?_
    rw [writeNumbered_filter
      (fun n => decide (n ∉ numberedKeys name (survivorsStart c vs) (survivors vs)))
      (fun x => by simp [hall x])]
    refine List.Perm.append_left _ (List.Perm.of_eq (List.filter_congr (fun e _ => ?_)))
    exact decide_eq_decide.mpr (hcongr e)

/-- A name made of the counter in decimal and a fixed suffix determines the counter. -/
theorem repr_append_injective (suffix : String) :
    Function.Injective (fun n : UInt32 => Nat.repr n.toNat ++ suffix) := by
  intro a b h
  have hrepr : Nat.repr a.toNat = Nat.repr b.toNat := (String.append_left_inj suffix).mp h
  have hdigits := congrArg String.toList hrepr
  rw [Nat.toList_repr, Nat.toList_repr] at hdigits
  have hval := congrArg (fun l => Nat.ofDigitChars 10 l 0) hdigits
  simp only [Nat.ofDigitChars_ten_toDigits] at hval
  exact UInt32.toNat_inj.mp hval

end Colloc.Lib

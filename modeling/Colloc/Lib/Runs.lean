import Colloc.Lib.Tally

/-!
# `Colloc.Lib.Runs`: the runs of a sorted list

A loop that groups the records of a sorted list keeps the records of the open group and
closes it at the first record with another key. `runs` are the groups it closes. In a list
sorted by key they are a table: one group for each key, in strictly ascending order, and the
group of a key has all records with that key (`runs_table`).
-/

set_option autoImplicit false

namespace Colloc.Lib

open StrictTotal (less)

variable {M K : Type}

/-- A record with a smaller key than those of a table extends the table in front. Its key is new,
so the values of the others stay. -/
theorem IsTable.cons {W : Type} [StrictTotal K] [DecidableEq K] {key : M → K} {val : M → W}
    {P : K → Prop} {f : K → W} {out : List M} {m : M} (h : IsTable key val P f out)
    (hlt : ∀ x ∈ out, less (key m) (key x) = true) :
    IsTable key val (fun k => k = key m ∨ P k) (fun k => if k = key m then val m else f k)
      (m :: out) where
  ascending := List.pairwise_cons.mpr ⟨hlt, h.ascending⟩
  complete k hk := by
    rcases hk with rfl | hk
    · exact ⟨m, List.mem_cons_self, rfl⟩
    · obtain ⟨x, hx, hkey⟩ := h.complete k hk
      exact ⟨x, List.mem_cons_of_mem m hx, hkey⟩
  sound x hx := by
    rcases List.mem_cons.mp hx with rfl | hx
    · exact ⟨Or.inl rfl, (if_pos rfl).symm⟩
    · obtain ⟨hP, hval⟩ := h.sound x hx
      have hne : ¬ key x = key m := fun heq => less_ne (hlt x hx) heq.symm
      exact ⟨Or.inr hP, by rw [if_neg hne, hval]⟩

variable [DecidableEq K] (key : M → K)

/-- The groups of the list `ms` behind the open group `run` with the key `k`. -/
def runsFrom : K → List M → List M → List (K × List M)
  | k, run, [] => [(k, run)]
  | k, run, m :: ms =>
      if k = key m then runsFrom k (run ++ [m]) ms else (k, run) :: runsFrom (key m) [m] ms

/-- The groups of a list. -/
def runs : List M → List (K × List M)
  | [] => []
  | m :: ms => runsFrom key (key m) [m] ms

/-- The records with the key `k`. -/
def withKey (l : List M) (k : K) : List M := l.filter (fun m => key m = k)

/-- The messages of a key are those that have it. -/
theorem mem_withKey {l : List M} {k : K} {m : M} : m ∈ withKey key l k ↔ m ∈ l ∧ key m = k := by
  unfold withKey
  rw [List.mem_filter, decide_eq_true_eq]

/-- The head is one of them when it has the key. -/
theorem withKey_cons (m : M) (l : List M) (k : K) :
    withKey key (m :: l) k = if key m = k then m :: withKey key l k else withKey key l k := by
  unfold withKey
  by_cases h : key m = k
  · simp [h]
  · simp [h]

/-- The messages of a key, over two parts of a list. -/
theorem withKey_append (l₁ l₂ : List M) (k : K) :
    withKey key (l₁ ++ l₂) k = withKey key l₁ k ++ withKey key l₂ k :=
  List.filter_append l₁ l₂

/-- A group has the records with its key. -/
theorem withKey_self {run : List M} {k : K} (h : ∀ m ∈ run, key m = k) :
    withKey key run k = run :=
  List.filter_eq_self.mpr (fun m hm => decide_eq_true (h m hm))

/-- A key that no message has. -/
theorem withKey_eq_nil {l : List M} {k : K} (h : ∀ m ∈ l, key m ≠ k) : withKey key l k = [] :=
  List.filter_eq_nil_iff.mpr (fun m hm => by rw [decide_eq_true_eq]; exact h m hm)

variable [StrictTotal K]

/-- In a strictly ascending list a record is the only one with its key. Those before it have
smaller keys, and those behind it greater ones. -/
theorem withKey_of_ascending {l : List M} (h : Ascending key l) {m : M} (hm : m ∈ l) :
    withKey key l (key m) = [m] := by
  induction l with
  | nil => cases hm
  | cons x l ih =>
      obtain ⟨hx, hl⟩ := List.pairwise_cons.mp h
      rw [withKey_cons]
      rcases List.mem_cons.mp hm with rfl | hm
      · rw [if_pos rfl, withKey_eq_nil key (fun y hy => (less_ne (hx y hy)).symm)]
      · rw [if_neg (less_ne (hx m hm)), ih hl hm]

/-- `ms` is sorted by key. -/
def SortedBy (l : List M) : Prop := l.Pairwise (fun a b => less (key b) (key a) = false)

/-- A group in front of the table of records with greater keys: the group has all records of its
key, and takes none of the others. -/
theorem IsTable.cons_run {k : K} {run ms : List M} {out : List (K × List M)} (hne : run ≠ [])
    (hrun : ∀ m ∈ run, key m = k) (habove : ∀ m ∈ ms, less k (key m) = true)
    (h : IsTable Prod.fst Prod.snd (· ∈ ms.map key) (withKey key ms) out) :
    IsTable Prod.fst Prod.snd (· ∈ (run ++ ms).map key) (withKey key (run ++ ms))
      ((k, run) :: out) := by
  have hcons := h.cons (m := (k, run)) (fun r hr => by
    obtain ⟨m, hm, hkey⟩ := List.mem_map.mp (h.sound r hr).1
    rw [← hkey]
    exact habove m hm)
  refine hcons.congr (fun k' => ?_) (fun k' _ => ?_)
  · rw [List.map_append, List.mem_append]
    refine or_congr_left ⟨fun heq => ?_, fun hmem => ?_⟩
    · obtain ⟨m, hm⟩ := List.exists_mem_of_ne_nil run hne
      exact List.mem_map.mpr ⟨m, hm, (hrun m hm).trans heq.symm⟩
    · obtain ⟨m, hm, hkey⟩ := List.mem_map.mp hmem
      exact hkey.symm.trans (hrun m hm)
  · rw [withKey_append]
    by_cases hk' : k' = k
    · subst hk'
      rw [if_pos rfl, withKey_self key hrun, withKey_eq_nil key (l := ms)
        (fun m hm heq => less_ne (habove m hm) heq.symm), List.append_nil]
    · rw [if_neg hk', withKey_eq_nil key (l := run)
        (fun m hm heq => hk' (heq.symm.trans (hrun m hm))), List.nil_append]

/-- No record has no group. -/
theorem IsTable.nil_runs :
    IsTable Prod.fst Prod.snd (· ∈ ([] : List M).map key) (withKey key []) [] :=
  ⟨List.Pairwise.nil, fun _ hk => absurd hk List.not_mem_nil,
    fun _ hr => absurd hr List.not_mem_nil⟩

/-- The groups behind an open one are the table of their records. The induction is on the
list, and the open group changes with it. -/
theorem runsFrom_table (ms : List M) :
    ∀ (k : K) (run : List M), run ≠ [] → (∀ m ∈ run, key m = k) →
      (∀ m ∈ ms, less (key m) k = false) → SortedBy key ms →
      IsTable Prod.fst Prod.snd (· ∈ (run ++ ms).map key) (withKey key (run ++ ms))
        (runsFrom key k run ms) := by
  induction ms with
  | nil =>
      intro k run hne hrun _ _
      exact IsTable.cons_run key hne hrun (fun m hm => absurd hm List.not_mem_nil)
        (IsTable.nil_runs key)
  | cons m ms ih =>
      intro k run hne hrun hlow hsorted
      obtain ⟨hm, hms⟩ := List.pairwise_cons.mp hsorted
      rw [runsFrom]
      by_cases hk : k = key m
      · rw [if_pos hk]
        have h := ih k (run ++ [m]) (by simp)
          (fun x hx => by
            rcases List.mem_append.mp hx with hx | hx
            · exact hrun x hx
            · rw [List.mem_singleton.mp hx, hk])
          (fun x hx => hlow x (List.mem_cons_of_mem m hx)) hms
        rwa [List.append_assoc] at h
      · rw [if_neg hk]
        -- The key of `m` is above `k`, and so are those behind it.
        have hkm : less k (key m) = true :=
          (less_or_eq (hlow m List.mem_cons_self)).resolve_right hk
        have habove : ∀ x ∈ m :: ms, less k (key x) = true := by
          intro x hx
          rcases List.mem_cons.mp hx with rfl | hx
          · exact hkm
          · exact less_of_less_of_not hkm (hm x hx)
        have h := ih (key m) [m] (by simp) (fun x hx => by rw [List.mem_singleton.mp hx]) hm hms
        exact IsTable.cons_run key hne hrun habove h

/-- The groups of a sorted list are the table of its records. -/
theorem runs_table (l : List M) (h : SortedBy key l) :
    IsTable Prod.fst Prod.snd (· ∈ l.map key) (withKey key l) (runs key l) := by
  cases l with
  | nil => exact IsTable.nil_runs key
  | cons m ms =>
      obtain ⟨hm, hms⟩ := List.pairwise_cons.mp h
      exact runsFrom_table key ms (key m) [m] (by simp)
        (fun x hx => by rw [List.mem_singleton.mp hx]) hm hms

/-- A group has a record, and its records are those of the list with its key. -/
theorem of_mem_runs {l : List M} (h : SortedBy key l) {r : K × List M} (hr : r ∈ runs key l) :
    r.2 ≠ [] ∧ ∀ m ∈ r.2, m ∈ l ∧ key m = r.1 := by
  obtain ⟨hkey, hrun⟩ := (runs_table key l h).sound r hr
  have hmem : ∀ m, m ∈ r.2 ↔ m ∈ l ∧ key m = r.1 := by
    intro m
    rw [hrun]
    exact mem_withKey key
  obtain ⟨m, hm⟩ := List.mem_map.mp hkey
  exact ⟨List.ne_nil_of_mem ((hmem m).mpr hm), fun m hm => (hmem m).mp hm⟩

end Colloc.Lib

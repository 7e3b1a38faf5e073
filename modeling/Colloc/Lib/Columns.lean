import Colloc.Lib.PrefixCode
import Mathlib.Data.List.Basic
import Mathlib.Data.UInt

/-!
# `Colloc.Lib.Columns`: tables as text

What `printf` makes of numbers and strings, and when the text of a table can be read back. A
number in decimal and a string in hexadecimal determine it (`decimal_injective`, `hex_injective`),
blanks in front of a column do no harm (`padLeft_inj`), a column ends at its separator, and a
table is a list of lines that contain no newline (`lines_injective`).
-/

set_option autoImplicit false

namespace Colloc.Lib

/-- `%u`. -/
def decimal (n : Nat) : List UInt8 := (Nat.toDigits 10 n).map (fun c => UInt8.ofNat c.toNat)

/-- A hexadecimal digit. -/
def hexDigit (d : Nat) : UInt8 := UInt8.ofNat (if d < 10 then 48 + d else 87 + d)

/-- `%02x` of each byte. -/
def hex (s : List UInt8) : List UInt8 :=
  s.flatMap (fun b => [hexDigit (b.toNat / 16), hexDigit (b.toNat % 16)])

/-- Blanks in front, up to the width. -/
def padLeft (width : Nat) (s : List UInt8) : List UInt8 := List.replicate (width - s.length) 32 ++ s

/-- Blanks behind, up to the width. -/
def padRight (width : Nat) (s : List UInt8) : List UInt8 :=
  s ++ List.replicate (width - s.length) 32

/-! ### Numbers and strings -/

/-- The digits of a number. -/
theorem digit_of_mem_decimal {n : Nat} {b : UInt8} (h : b ∈ decimal n) :
    48 ≤ b.toNat ∧ b.toNat ≤ 57 := by
  obtain ⟨c, hc, rfl⟩ := List.mem_map.mp h
  have hdigit : 48 ≤ c.toNat ∧ c.toNat ≤ 57 :=
    Char.isDigit_iff_toNat.mp (Nat.isDigit_of_mem_toDigits (by decide) (by decide) hc)
  rw [UInt8.toNat_ofNat', Nat.mod_eq_of_lt (by omega)]
  exact hdigit

/-- A decimal has digits only, so no byte below the digits. -/
theorem not_mem_decimal {n : Nat} {b : UInt8} (hb : b.toNat < 48) : b ∉ decimal n := by
  intro h
  have hdigit := (digit_of_mem_decimal h).1
  omega

/-- Different numbers have different decimals. The bytes are those of the digits, which can be
read back, and the digits of a number give the number. -/
theorem decimal_injective : Function.Injective decimal := by
  -- The digits, and from them the number.
  have hback : ∀ n, (decimal n).map (fun b => Char.ofNat b.toNat) = Nat.toDigits 10 n := by
    intro n
    rw [decimal, List.map_map]
    conv_rhs => rw [← List.map_id (Nat.toDigits 10 n)]
    refine List.map_congr_left (fun c hc => ?_)
    have hle : c.toNat ≤ 57 :=
      (Char.isDigit_iff_toNat.mp (Nat.isDigit_of_mem_toDigits (by decide) (by decide) hc)).2
    show Char.ofNat (UInt8.ofNat c.toNat).toNat = c
    rw [UInt8.toNat_ofNat', Nat.mod_eq_of_lt (by omega), Char.ofNat_toNat]
  intro n k h
  have hdigits : Nat.toDigits 10 n = Nat.toDigits 10 k := by
    rw [← hback, h, hback]
  have hval := congrArg (fun l => Nat.ofDigitChars 10 l 0) hdigits
  simp only [Nat.ofDigitChars_ten_toDigits] at hval
  exact hval

/-- Different digits are different bytes. -/
theorem hexDigit_inj {c d : Nat} (hc : c < 16) (hd : d < 16) (h : hexDigit c = hexDigit d) :
    c = d := by
  have hval := congrArg UInt8.toNat h
  unfold hexDigit at hval
  rw [UInt8.toNat_ofNat', UInt8.toNat_ofNat'] at hval
  split at hval
  all_goals
    split at hval
    all_goals omega

/-- A hexadecimal digit is not below the decimal digits. -/
theorem le_hexDigit {d : Nat} (hd : d < 16) : 48 ≤ (hexDigit d).toNat := by
  unfold hexDigit
  rw [UInt8.toNat_ofNat']
  split
  all_goals omega

/-- The hexadecimal form has digits and letters only, so no byte below the digits: no blank, no
tab and no newline. -/
theorem not_mem_hex {s : List UInt8} {b : UInt8} (hb : b.toNat < 48) : b ∉ hex s := by
  intro h
  obtain ⟨x, -, hx⟩ := List.mem_flatMap.mp h
  have hlt := x.toNat_lt
  rw [List.mem_cons, List.mem_singleton] at hx
  rcases hx with rfl | rfl
  · have hle := le_hexDigit (d := x.toNat / 16) (by omega)
    omega
  · have hle := le_hexDigit (d := x.toNat % 16) (by omega)
    omega

/-- Different strings have different hexadecimal forms. Each byte is two digits, its quotient and
its remainder by sixteen, so both forms can be compared byte by byte. -/
theorem hex_injective : Function.Injective hex := by
  intro s
  induction s with
  | nil =>
      intro s' h
      cases s' with
      | nil => rfl
      | cons b s' => cases h
  | cons b s ih =>
      intro s' h
      cases s' with
      | nil => cases h
      | cons b' s' =>
          have hlt := b.toNat_lt
          have hlt' := b'.toNat_lt
          obtain ⟨hhigh, htail⟩ := List.cons.inj h
          obtain ⟨hlow, hrest⟩ := List.cons.inj htail
          have hdiv := hexDigit_inj (by omega) (by omega) hhigh
          have hmod := hexDigit_inj (by omega) (by omega) hlow
          have hb : b = b' := by
            rw [← UInt8.toNat_inj, ← Nat.div_add_mod b.toNat 16, ← Nat.div_add_mod b'.toNat 16,
              hdiv, hmod]
          rw [hb, ih hrest]

/-! ### Columns -/

/-- A padded string has spaces besides its own bytes. -/
theorem mem_padLeft {width : Nat} {s : List UInt8} {b : UInt8} (h : b ∈ padLeft width s) :
    b = 32 ∨ b ∈ s := by
  rcases List.mem_append.mp h with h | h
  · exact Or.inl (List.eq_of_mem_replicate h)
  · exact Or.inr h

/-- Blanks in front of strings without blanks: the strings are what is left without the blanks,
whatever the widths are. -/
theorem padLeft_inj {width width' : Nat} {s s' : List UInt8} (hs : 32 ∉ s) (hs' : 32 ∉ s')
    (h : padLeft width s = padLeft width' s') : s = s' := by
  have hdrop : ∀ {w : Nat} {t : List UInt8}, 32 ∉ t →
      (padLeft w t).filter (fun b => b != 32) = t := by
    intro w t ht
    have hblank : (List.replicate (w - t.length) (32 : UInt8)).filter (fun b => b != 32) = [] := by
      simp
    rw [padLeft, List.filter_append, hblank, List.nil_append]
    refine List.filter_eq_self.mpr (fun b hb => ?_)
    rw [bne_iff_ne]
    rintro rfl
    exact ht hb
  rw [← hdrop hs, h, hdrop hs']

/-- A column ends at its separator. When no column has the separator in it, the first one and the
rest can be told from what is printed. -/
theorem column_inj {sep : UInt8} {a a' r r' : List UInt8} (ha : sep ∉ a) (ha' : sep ∉ a')
    (h : a ++ sep :: r = a' ++ sep :: r') : a = a' ∧ r = r' := by
  induction a generalizing a' with
  | nil =>
      cases a' with
      | nil => exact ⟨rfl, (List.cons.inj h).2⟩
      | cons b a' => exact absurd (List.cons.inj h).1 (fun heq => ha' (heq ▸ List.mem_cons_self))
  | cons b a ih =>
      cases a' with
      | nil => exact absurd (List.cons.inj h).1 (fun heq => ha (heq ▸ List.mem_cons_self))
      | cons b' a' =>
          obtain ⟨rfl, htail⟩ := List.cons.inj h
          obtain ⟨rfl, hr⟩ := ih (fun hm => ha (List.mem_cons_of_mem _ hm))
            (fun hm => ha' (List.mem_cons_of_mem _ hm)) htail
          exact ⟨rfl, hr⟩

/-- A table without newlines in its lines determines the rows, when a line does. No line with its
newline begins another one, so the rows can be read off from the front. -/
theorem lines_injective {Row : Type} {line : Row → List UInt8} (hline : ∀ row, 10 ∉ line row)
    (hinj : Function.Injective line) :
    Function.Injective (fun rows : List Row => rows.flatMap (fun row => line row ++ [10])) := by
  intro rows rows' h
  have hfree : ∀ row ∈ (Set.univ : Set Row), ∀ row' ∈ (Set.univ : Set Row),
      line row ++ [10] <+: line row' ++ [10] → row = row' := by
    rintro row - row' - ⟨t, ht⟩
    rw [List.append_assoc] at ht
    exact hinj (column_inj (hline row) (hline row') ht).1
  refine flatten_map_injOn hfree (fun row _ => ?_) (fun row _ => Set.mem_univ row)
    (fun row _ => Set.mem_univ row) h
  exact List.append_ne_nil_of_right_ne_nil _ (List.cons_ne_nil 10 [])

end Colloc.Lib

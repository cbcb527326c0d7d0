import Conform.Text.Decimal
import Mathlib.Data.List.Induction

/-!
Numbers read from decimal digits. A text is read as a number exactly if it consists of digits, and
then as the number that they write (`digits?_eq_some_iff`); a bounded number may have a plus sign
and zeros in front (`unsigned?_eq_some_iff`). Without zeros in front each number is written in one
way only (`toDigits_ofDigitChars`).
-/

set_option autoImplicit false

namespace Conform.Text

variable {cs : List Char} {n : Nat}

theorem digitsFrom_eq_some_iff {start : Nat} :
    digitsFrom start cs = some n ↔
      (∀ c ∈ cs, c.isDigit = true) ∧ Nat.ofDigitChars 10 cs start = n := by
  induction cs generalizing start with
  | nil => simp [digitsFrom]
  | cons c rest ih =>
    rw [digitsFrom, List.forall_mem_cons, Nat.ofDigitChars_cons]
    by_cases hc : c.isDigit = true
    · rw [if_pos hc, ih, Nat.mul_comm]
      simp [hc]
    · simp [hc]

/-- A text is read as the number that it writes, if there are digits in it and nothing else. -/
theorem digits?_eq_some_iff :
    digits? cs = some n ↔
      cs ≠ [] ∧ (∀ c ∈ cs, c.isDigit = true) ∧ Nat.ofDigitChars 10 cs 0 = n := by
  rw [digits?]
  cases cs with
  | nil => simp
  | cons c rest => simp [digitsFrom_eq_some_iff]

/-- A number is read back from its digits. -/
theorem digits?_toDigits (n : Nat) : digits? (Nat.toDigits 10 n) = some n :=
  digits?_eq_some_iff.mpr ⟨Nat.toDigits_ne_nil,
    fun _ hc ↦ Nat.isDigit_of_mem_toDigits (by decide) (by decide) hc,
    Nat.ofDigitChars_ten_toDigits⟩

/-! ### Digits without zeros in front -/

theorem exists_digitChar {c : Char} (hc : c.isDigit = true) : ∃ d < 10, c = Nat.digitChar d := by
  obtain ⟨hlow, hhigh⟩ := Char.isDigit_iff_toNat.mp hc
  have hbounds : 48 ≤ c.toNat ∧ c.toNat ≤ 57 := ⟨hlow, hhigh⟩
  refine ⟨c.toNat - 48, by omega, Char.toNat_inj.mp ?_⟩
  rw [Nat.toNat_digitChar_of_lt_ten (by omega)]
  omega

/-- Assumes: digits with no zero in front. They are those that the number is written with. -/
theorem toDigits_ofDigitChars (hne : cs ≠ []) (hcs : ∀ c ∈ cs, c.isDigit = true)
    (hhead : cs.head? ≠ some '0') : Nat.toDigits 10 (Nat.ofDigitChars 10 cs 0) = cs := by
  induction cs using List.reverseRecOn with
  | nil => contradiction
  | append_singleton front c ih =>
    obtain ⟨d, hd, rfl⟩ := exists_digitChar (hcs c (by simp))
    rw [Nat.ofDigitChars_append, Nat.ofDigitChars_cons_digitChar_of_lt_ten hd, Nat.ofDigitChars_nil]
    cases front with
    | nil => simp [Nat.toDigits_of_lt_base hd]
    | cons first rest =>
      have hfront := ih (List.cons_ne_nil first rest)
        (fun c hc ↦ hcs c (List.mem_append_left _ hc)) hhead
      have hpos : 0 < Nat.ofDigitChars 10 (first :: rest) 0 := by
        refine Nat.pos_of_ne_zero fun hzero ↦ hhead ?_
        rw [hzero, Nat.toDigits_zero] at hfront
        rw [← hfront]
        rfl
      rw [← Nat.toDigits_append_toDigits (by decide) hpos hd, hfront, Nat.toDigits_of_lt_base hd]

theorem head?_toDigits_ne_zero {number : Nat} (hpos : 0 < number) :
    (Nat.toDigits 10 number).head? ≠ some '0' := by
  induction number using Nat.strongRecOn with
  | ind number ih =>
    by_cases hsmall : number < 10
    · rw [Nat.toDigits_of_lt_base hsmall, List.head?_cons, ne_eq, Option.some.injEq,
        Nat.digitChar_eq_zero]
      omega
    · obtain ⟨c, rest, hdigits⟩ := List.exists_cons_of_ne_nil
        (Nat.toDigits_ne_nil (n := number / 10) (b := 10))
      have hhead := ih (number / 10) (by omega) (by omega)
      rw [hdigits, List.head?_cons] at hhead
      rwa [Nat.toDigits_of_base_le (by decide) (by omega), hdigits, List.cons_append,
        List.head?_cons]

/-- No number is written with a zero in front of another digit. -/
theorem toDigits_ne_zero_cons (number : Nat) (c : Char) (rest : List Char) :
    Nat.toDigits 10 number ≠ '0' :: c :: rest := by
  intro hdigits
  by_cases hpos : number = 0
  · simp [hpos] at hdigits
  · exact head?_toDigits_ne_zero (Nat.pos_of_ne_zero hpos) (by rw [hdigits, List.head?_cons])

/-! ### Bounded numbers -/

/-- A text that writes a number below the bound of a word: digits, with zeros in front or not, and a
plus sign before them or not. -/
def Writes (cs : List Char) (n : Nat) : Prop :=
  ∃ digits, (cs = digits ∨ cs = '+' :: digits) ∧ digits ≠ [] ∧
    (∀ c ∈ digits, c.isDigit = true) ∧ Nat.ofDigitChars 10 digits 0 = n ∧ n < wordBound

theorem writes_toDigits (hn : n < wordBound) : Writes (Nat.toDigits 10 n) n := by
  obtain ⟨hne, hdigits, hvalue⟩ := digits?_eq_some_iff.mp (digits?_toDigits n)
  exact ⟨_, .inl rfl, hne, hdigits, hvalue, hn⟩

theorem bounded_eq_some_iff (digits : List Char) :
    (digits? digits).bind (fun n ↦ if n < wordBound then some n else none) = some n ↔
      digits ≠ [] ∧ (∀ c ∈ digits, c.isDigit = true) ∧
        Nat.ofDigitChars 10 digits 0 = n ∧ n < wordBound := by
  simp only [Option.bind_eq_some_iff, Option.ite_none_right_eq_some, digits?_eq_some_iff,
    Option.some.injEq]
  constructor
  · rintro ⟨_, ⟨hne, hdigits, hvalue⟩, hn, rfl⟩
    exact ⟨hne, hdigits, hvalue, hn⟩
  · rintro ⟨hne, hdigits, hvalue, hn⟩
    exact ⟨n, ⟨hne, hdigits, hvalue⟩, hn, rfl⟩

/-- A bounded number is read from the texts that write it, and from no other. -/
theorem unsigned?_eq_some_iff : unsigned? cs = some n ↔ Writes cs n := by
  by_cases hplus : ∃ rest, cs = '+' :: rest
  · obtain ⟨rest, rfl⟩ := hplus
    refine (bounded_eq_some_iff rest).trans ⟨fun h ↦ ⟨rest, .inr rfl, h⟩, ?_⟩
    rintro ⟨digits, hcs | hcs, hne, hdigits, hvalue⟩
    · exact absurd (hdigits '+' (hcs ▸ List.mem_cons_self)) (by decide)
    · obtain rfl := (List.cons.inj hcs).2
      exact ⟨hne, hdigits, hvalue⟩
  · have hplain : unsigned? cs =
        (digits? cs).bind fun n ↦ if n < wordBound then some n else none := by
      unfold unsigned?
      split
      · exact absurd ⟨_, rfl⟩ hplus
      · rfl
    rw [hplain, bounded_eq_some_iff]
    refine ⟨fun h ↦ ⟨cs, .inl rfl, h⟩, ?_⟩
    rintro ⟨digits, rfl | rfl, hdigits⟩
    · exact hdigits
    · exact absurd ⟨digits, rfl⟩ hplus

end Conform.Text

import Mathlib.Algebra.Group.Nat.Defs
import Mathlib.Data.List.Induction
import MurlSystem.Foundation.Text

namespace Numeral

open Nat

def value (l : List Char) : Nat := ofDigitChars 10 l 0

structure Plain (l : List Char) : Prop where
  digits : ∀ c ∈ l, c.isDigit = true
  some : l ≠ []
  lead : 1 < l.length → l.head? ≠ .some '0'

variable {c : Char} {l : List Char} {n : Nat}

theorem digit_bounds (h : c.isDigit = true) : 48 ≤ c.toNat ∧ c.toNat ≤ 57 := by
  simp only [Char.isDigit,Bool.and_eq_true,decide_eq_true_eq] at h
  exact ⟨UInt32.le_iff_toNat_le.mp h.1,UInt32.le_iff_toNat_le.mp h.2⟩

theorem digitChar_of_digit (h : c.isDigit = true) : digitChar (c.toNat - 48) = c := by
  obtain ⟨hlo,hhi⟩ := digit_bounds h
  apply Char.toNat_inj.mp
  rw [toNat_digitChar_of_lt_ten (by omega)]
  omega

theorem value_nil : value [] = 0 := rfl

theorem value_concat (l : List Char) (c : Char) : value (l ++ [c]) = 10 * value l + (c.toNat - 48) := by
  rw [value,ofDigitChars_append,ofDigitChars_cons,ofDigitChars_nil]
  rfl

theorem value_toDigits (n : Nat) : value (toDigits 10 n) = n := ofDigitChars_ten_toDigits

theorem value_lt (h : ∀ c ∈ l, c.isDigit = true) : value l < 10 ^ l.length := by
  induction l using List.reverseRecOn with
  | nil => simp [value_nil]
  | append_singleton l c ih =>
    have hl := ih fun d hd => h d (by simp [hd])
    obtain ⟨-,hhi⟩ := digit_bounds (h c (by simp))
    rw [value_concat,List.length_append,List.length_singleton,Nat.pow_succ]
    omega

theorem value_eq_zero (h : ∀ c ∈ l, c.isDigit = true) : value l = 0 → ∀ c ∈ l, c = '0' := by
  induction l using List.reverseRecOn with
  | nil => simp
  | append_singleton l c ih =>
    intro hzero
    obtain ⟨hlo,-⟩ := digit_bounds (h c (by simp))
    rw [value_concat] at hzero
    have hl := ih (fun d hd => h d (by simp [hd])) (by omega)
    intro d hd
    rcases List.mem_append.mp hd with hd | hd
    · exact hl d hd
    · obtain rfl := List.mem_singleton.mp hd
      apply Char.toNat_inj.mp
      change d.toNat = 48
      omega

theorem plain_toDigits (n : Nat) : Plain (toDigits 10 n) where
  digits := fun _ hc => isDigit_of_mem_toDigits (by decide) (by decide) hc
  some := toDigits_ne_nil
  lead := by
    induction n using Nat.strongRecOn with
    | ind n ih =>
      by_cases hn : n < 10
      · rw [toDigits_of_lt_base hn]
        simp
      · rw [toDigits_of_base_le (by decide) (by omega)]
        intro _
        have hne : toDigits 10 (n / 10) ≠ [] := toDigits_ne_nil
        rw [List.head?_append_of_ne_nil _ hne]
        by_cases hsmall : n / 10 < 10
        · rw [toDigits_of_lt_base hsmall]
          intro hzero
          have hdigit := digitChar_eq_zero.mp (Option.some.inj hzero)
          omega
        · apply ih (n / 10) (by omega)
          rw [toDigits_of_base_le (by decide) (by omega),List.length_append]
          have hpos : 0 < (toDigits 10 (n / 10 / 10)).length := length_toDigits_pos
          simp only [List.length_singleton]
          omega

theorem toDigits_value (h : Plain l) : toDigits 10 (value l) = l := by
  obtain ⟨hdigits,hsome,hlead⟩ := h
  induction l using List.reverseRecOn with
  | nil => exact absurd rfl hsome
  | append_singleton l c ih =>
    have hc := hdigits c (by simp)
    obtain ⟨hlo,hhi⟩ := digit_bounds hc
    rw [value_concat]
    by_cases hl : l = []
    · subst hl
      rw [value_nil,toDigits_of_lt_base (by omega),Nat.mul_zero,Nat.zero_add,digitChar_of_digit hc]
      rfl
    · have hhead : l.head? ≠ .some '0' := by
        have hpos := List.length_pos_of_ne_nil hl
        have := hlead (by simp; omega)
        rwa [List.head?_append_of_ne_nil _ hl] at this
      have hpos : 0 < value l := by
        by_contra hzero
        have hall := value_eq_zero (l := l) (fun d hd => hdigits d (by simp [hd])) (by omega)
        obtain ⟨d,rest,rfl⟩ := List.exists_cons_of_ne_nil hl
        exact hhead (by rw [hall d (by simp)]; rfl)
      have hl' := ih (fun d hd => hdigits d (by simp [hd])) hl fun _ => hhead
      rw [← toDigits_append_toDigits (by decide) hpos (by omega),hl',toDigits_of_lt_base (by omega),
        digitChar_of_digit hc]

theorem length_le_of_lt {k : Nat} (hk : 0 < k) (h : n < 10 ^ k) : (toDigits 10 n).length ≤ k :=
  (length_toDigits_le_iff (by decide) hk).mpr h

end Numeral

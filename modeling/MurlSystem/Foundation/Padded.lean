import MurlSystem.Foundation.Numeral
import Mathlib.Data.String.Basic

namespace Numeral

open Nat

def padded : Nat → Nat → List Char
  | 0,_ => []
  | k + 1,n => padded k (n / 10) ++ [digitChar (n % 10)]

section Padded

variable {k n m : Nat} {l : List Char} {c d : Char}

theorem length_padded (k n : Nat) : (padded k n).length = k := by
  induction k generalizing n with
  | zero => rfl
  | succ k ih => rw [padded,List.length_append,ih,List.length_singleton]

theorem toNat_digitChar (n : Nat) : (digitChar (n % 10)).toNat = 48 + n % 10 := by
  rw [toNat_digitChar_of_lt_ten (Nat.mod_lt n (by decide))]

theorem isDigit_of_bounds (hlo : 48 ≤ c.toNat) (hhi : c.toNat ≤ 57) : c.isDigit = true := by
  simp only [Char.isDigit,Bool.and_eq_true,decide_eq_true_eq]
  exact ⟨UInt32.le_iff_toNat_le.mpr hlo,UInt32.le_iff_toNat_le.mpr hhi⟩

theorem isDigit_padded (k n : Nat) : ∀ c ∈ padded k n, c.isDigit = true := by
  induction k generalizing n with
  | zero => simp [padded]
  | succ k ih =>
    intro c hc
    rw [padded,List.mem_append,List.mem_singleton] at hc
    rcases hc with hc | rfl
    · exact ih (n / 10) c hc
    · have hvalue := toNat_digitChar n
      have hlt := Nat.mod_lt n (show 0 < 10 by decide)
      exact isDigit_of_bounds (by omega) (by omega)

theorem value_padded (h : n < 10 ^ k) : value (padded k n) = n := by
  induction k generalizing n with
  | zero =>
    have hzero : n = 0 := by simpa using h
    rw [hzero,padded,value_nil]
  | succ k ih =>
    have hdiv : n / 10 < 10 ^ k := by
      rw [Nat.pow_succ] at h
      omega
    rw [padded,value_concat,ih hdiv,toNat_digitChar]
    omega

theorem padded_value (h : ∀ c ∈ l, c.isDigit = true) : padded l.length (value l) = l := by
  induction l using List.reverseRecOn with
  | nil => rfl
  | append_singleton l c ih =>
    have hc := h c (by simp)
    obtain ⟨hlo,hhi⟩ := digit_bounds hc
    have hlast : digitChar (value (l ++ [c]) % 10) = c := by
      have hmod : value (l ++ [c]) % 10 = c.toNat - 48 := by
        rw [value_concat]
        omega
      rw [hmod,digitChar_of_digit hc]
    have hinit : value (l ++ [c]) / 10 = value l := by
      rw [value_concat]
      omega
    rw [List.length_append,List.length_singleton,padded,hinit,hlast,
      ih fun d hd => h d (by simp [hd])]

end Padded

section Order

variable {α : Type} [LinearOrder α]

theorem append_lt_iff {a b r s : List α} (h : a.length = b.length) :
    a ++ r < b ++ s ↔ a < b ∨ a = b ∧ r < s := by
  induction a generalizing b with
  | nil =>
    obtain rfl := List.length_eq_zero_iff.mp h.symm
    simp
  | cons x a ih =>
    cases b with
    | nil => cases h
    | cons y b =>
      rw [List.cons_append,List.cons_append,List.cons_lt_cons_iff,List.cons_lt_cons_iff,
        ih (Nat.succ.inj h),List.cons.injEq]
      tauto

variable {l l' : List Char}

theorem lt_iff_value_lt (hl : ∀ c ∈ l, c.isDigit = true) (hl' : ∀ c ∈ l', c.isDigit = true)
    (h : l.length = l'.length) : l < l' ↔ value l < value l' := by
  induction l using List.reverseRecOn generalizing l' with
  | nil =>
    obtain rfl := List.length_eq_zero_iff.mp h.symm
    simp
  | append_singleton l c ih =>
    obtain ⟨m,d,rfl⟩ : ∃ m d, l' = m ++ [d] := by
      refine ⟨_,_,(List.dropLast_append_getLast ?_).symm⟩
      rintro rfl
      simp at h
    have hlen : l.length = m.length := by simpa using h
    have hfirst := ih (fun e he => hl e (by simp [he])) (fun e he => hl' e (by simp [he])) hlen
    have heq : l = m ↔ value l = value m := by
      constructor
      · rintro rfl
        rfl
      · intro hv
        rw [← @padded_value l fun e he => hl e (by simp [he]),
          ← @padded_value m fun e he => hl' e (by simp [he]),hv,hlen]
    obtain ⟨hlo,hhi⟩ := digit_bounds (hl c (by simp))
    obtain ⟨hlo',hhi'⟩ := digit_bounds (hl' d (by simp))
    have hlast : [c] < [d] ↔ c.toNat < d.toNat := by
      rw [List.cons_lt_cons_iff]
      simp only [List.lt_irrefl,and_false,or_false]
      exact UInt32.lt_iff_toNat_lt
    rw [append_lt_iff hlen,hfirst,heq,hlast,value_concat,value_concat]
    omega

theorem padded_lt_iff {k n m : Nat} (hn : n < 10 ^ k) (hm : m < 10 ^ k) :
    padded k n < padded k m ↔ n < m := by
  rw [lt_iff_value_lt (isDigit_padded k n) (isDigit_padded k m)
    (by rw [length_padded,length_padded]),value_padded hn,value_padded hm]

theorem padded_inj {k n m : Nat} (hn : n < 10 ^ k) (hm : m < 10 ^ k) :
    padded k n = padded k m ↔ n = m := by
  constructor
  · intro h
    rw [← value_padded hn,h,value_padded hm]
  · rintro rfl
    rfl

end Order

end Numeral

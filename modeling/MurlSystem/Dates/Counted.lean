import MurlSystem.Core.Time
import MurlSystem.Foundation.Calendar

namespace MurlSystem

open Gregorian

section Count

variable {y m d : Nat}

def marchYear (y m : Nat) : Nat := if m ≤ 2 then y - 1 else y

def marchMonth (m : Nat) : Nat := if 2 < m then m - 3 else m + 9

theorem daysFromCivil_eq (hy : 1 ≤ y) (hm : 1 ≤ m) : daysFromCivil y m d =
    365 * marchYear y m + marchYear y m / 4 - marchYear y m / 100 + marchYear y m / 400 +
      (153 * marchMonth m + 2) / 5 + d - 719469 := by
  have hyear : (if (m : Int) ≤ 2 then (y : Int) - 1 else y) = marchYear y m := by
    unfold marchYear
    split <;> split <;> omega
  have hmonth : (if 2 < (m : Int) then (m : Int) - 3 else m + 9) = marchMonth m := by
    unfold marchMonth
    split <;> split <;> omega
  have hera : (if 0 ≤ (marchYear y m : Int) then (marchYear y m : Int) else marchYear y m - 399) =
      marchYear y m := if_pos (Int.natCast_nonneg _)
  simp only [daysFromCivil,hyear,hmonth,hera]
  rw [Int.tdiv_eq_ediv_of_nonneg (by omega),Int.tdiv_eq_ediv_of_nonneg (by omega),
    Int.tdiv_eq_ediv_of_nonneg (by omega),Int.tdiv_eq_ediv_of_nonneg (by omega)]
  omega

theorem isLeap_eq : MurlSystem.isLeap (y : Int) = Gregorian.isLeap y := by
  have h4 : ((y : Int) % 4 == 0) = (y % 4 == 0) := by
    rw [Bool.eq_iff_iff,beq_iff_eq,beq_iff_eq]
    omega
  have h100 : ((y : Int) % 100 != 0) = (y % 100 != 0) := by
    rw [Bool.eq_iff_iff,bne_iff_ne,bne_iff_ne]
    omega
  have h400 : ((y : Int) % 400 == 0) = (y % 400 == 0) := by
    rw [Bool.eq_iff_iff,beq_iff_eq,beq_iff_eq]
    omega
  rw [MurlSystem.isLeap,Gregorian.isLeap,h4,h100,h400,Bool.eq_iff_iff]
  simp only [Bool.or_eq_true,Bool.and_eq_true,beq_iff_eq,bne_iff_ne]
  omega

theorem daysInMonth_eq (hm : 1 ≤ m) (hm' : m ≤ 12) :
    daysInMonth (y : Int) (m : Int) = (daysIn y m : Int) := by
  have hcast : ∀ k : Nat, ((m : Int) = (k : Int)) ↔ m = k := fun k => Int.ofNat_inj
  unfold daysInMonth daysIn
  rw [isLeap_eq]
  interval_cases m <;> simp

theorem daysFromCivil_next {e : Date} (h : e.Real) (hyear : 1970 ≤ e.year) :
    daysFromCivil e.next.year e.next.month e.next.day = daysFromCivil e.year e.month e.day + 1 := by
  obtain ⟨y,m,k⟩ := e
  obtain ⟨⟨hm,hm'⟩,hk,hk'⟩ := h
  dsimp only at hyear hm hm' hk hk'
  have hleap := @isLeap_iff y
  obtain ⟨-,he⟩ | ⟨hlast,hlt,he⟩ | ⟨hlast,hend,he⟩ := next_cases ⟨y,m,k⟩
  · simp only [he]
    rw [daysFromCivil_eq (by omega) hm,daysFromCivil_eq (by omega) hm]
    omega
  · dsimp only at hlast hlt
    simp only [he]
    rw [daysFromCivil_eq (by omega) (by omega),daysFromCivil_eq (by omega) hm,
      Nat.le_antisymm hk' hlast]
    clear he hlast hk hk'
    by_cases hfeb : m = 2
    · subst hfeb
      have hmarch : marchYear y 3 = y ∧ marchYear y 2 = y - 1 ∧ marchMonth 3 = 0 ∧
          marchMonth 2 = 11 := ⟨rfl,rfl,rfl,rfl⟩
      have hdays : daysIn y 2 = if Gregorian.isLeap y then 29 else 28 := rfl
      rw [hmarch.1,hmarch.2.1,hmarch.2.2.1,hmarch.2.2.2,hdays]
      split
      · next hy =>
        have hdiv := hleap.mp hy
        omega
      · next hy =>
        have hdiv := mt hleap.mpr hy
        omega
    · have hsame : marchYear y (m + 1) = marchYear y m := by
        unfold marchYear
        split <;> split <;> omega
      have hmonths : (153 * marchMonth (m + 1) + 2) / 5 =
          (153 * marchMonth m + 2) / 5 + daysIn y m := by
        unfold marchMonth daysIn
        interval_cases m <;> simp at hfeb ⊢
      have hcast : (153 * (marchMonth (m + 1) : Int) + 2) / 5 =
          (153 * marchMonth m + 2) / 5 + daysIn y m := by exact_mod_cast hmonths
      rw [hsame,hcast]
      omega
  · dsimp only at hlast hend
    obtain rfl : m = 12 := by omega
    have hdays : daysIn y 12 = 31 := rfl
    simp only [he]
    rw [daysFromCivil_eq (by omega) (by omega),daysFromCivil_eq (by omega) hm]
    have hmarch : marchYear (y + 1) 1 = y ∧ marchYear y 12 = y ∧ marchMonth 1 = 10 ∧
        marchMonth 12 = 9 := ⟨rfl,rfl,rfl,rfl⟩
    rw [hmarch.1,hmarch.2.1,hmarch.2.2.1,hmarch.2.2.2]
    rw [hdays] at hlast hk'
    omega

theorem daysFromCivil_after (n : Nat) : 1970 ≤ (dateAfter n).year ∧
    daysFromCivil (dateAfter n).year (dateAfter n).month (dateAfter n).day = n := by
  induction n with
  | zero => exact ⟨by decide,by decide⟩
  | succ n ih =>
    have hnext := daysFromCivil_next (dateAfter_real n) ih.1
    rw [dateAfter_succ]
    refine ⟨?_,by rw [hnext,ih.2]; rfl⟩
    obtain ⟨-,he⟩ | ⟨-,-,he⟩ | ⟨-,-,he⟩ := next_cases (dateAfter n)
    · rw [he]
      exact ih.1
    · rw [he]
      exact ih.1
    · rw [he]
      exact Nat.le_succ_of_le ih.1

end Count

end MurlSystem

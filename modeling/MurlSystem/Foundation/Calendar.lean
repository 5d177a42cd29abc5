import Mathlib.Logic.Function.Iterate
import Mathlib.Order.Monotone.Basic
import Mathlib.Tactic.IntervalCases

namespace Gregorian

structure Date where
  year : Nat
  month : Nat
  day : Nat
deriving DecidableEq, Repr

def isLeap (year : Nat) : Bool := year % 4 == 0 && (year % 100 != 0 || year % 400 == 0)

def daysIn (year month : Nat) : Nat :=
  if month = 2 then if isLeap year then 29 else 28
  else if month = 4 ∨ month = 6 ∨ month = 9 ∨ month = 11 then 30
  else 31

def epoch : Date := ⟨1970,1,1⟩

namespace Date

structure Real (d : Date) : Prop where
  month : 1 ≤ d.month ∧ d.month ≤ 12
  day : 1 ≤ d.day ∧ d.day ≤ daysIn d.year d.month

def next (d : Date) : Date :=
  if d.day < daysIn d.year d.month then { d with day := d.day + 1 }
  else if d.month < 12 then ⟨d.year,d.month + 1,1⟩
  else ⟨d.year + 1,1,1⟩

def rank (d : Date) : Nat := (d.year * 100 + d.month) * 100 + d.day

end Date

def dateAfter (n : Nat) : Date := Date.next^[n] epoch

section Days

theorem isLeap_iff {year : Nat} :
    isLeap year = true ↔ year % 4 = 0 ∧ (year % 100 ≠ 0 ∨ year % 400 = 0) := by
  simp [isLeap]

variable {d e : Date} {n : Nat}

theorem daysIn_bounds (year month : Nat) : 28 ≤ daysIn year month ∧ daysIn year month ≤ 31 := by
  unfold daysIn
  split
  · split <;> decide
  · split <;> decide

theorem next_cases (d : Date) :
    (d.day < daysIn d.year d.month ∧ d.next = ⟨d.year,d.month,d.day + 1⟩) ∨
    (daysIn d.year d.month ≤ d.day ∧ d.month < 12 ∧ d.next = ⟨d.year,d.month + 1,1⟩) ∨
    (daysIn d.year d.month ≤ d.day ∧ 12 ≤ d.month ∧ d.next = ⟨d.year + 1,1,1⟩) := by
  unfold Date.next
  split
  · next h => exact .inl ⟨h,rfl⟩
  · next h =>
    split
    · next hm => exact .inr (.inl ⟨not_lt.mp h,hm,rfl⟩)
    · next hm => exact .inr (.inr ⟨not_lt.mp h,not_lt.mp hm,rfl⟩)

theorem next_real (h : d.Real) : d.next.Real := by
  obtain ⟨⟨hm,hm'⟩,hd,hd'⟩ := h
  obtain ⟨hlt,he⟩ | ⟨-,hlt,he⟩ | ⟨-,-,he⟩ := next_cases d
  · rw [he]
    exact ⟨⟨hm,hm'⟩,Nat.le_add_left 1 d.day,hlt⟩
  · have hbound := (daysIn_bounds d.year (d.month + 1)).1
    have hfirst : 1 ≤ daysIn d.year (d.month + 1) := by omega
    rw [he]
    exact ⟨⟨Nat.le_add_left 1 d.month,hlt⟩,Nat.le_refl 1,hfirst⟩
  · have hbound := (daysIn_bounds (d.year + 1) 1).1
    have hfirst : 1 ≤ daysIn (d.year + 1) 1 := by omega
    rw [he]
    exact ⟨⟨Nat.le_refl 1,(by decide : 1 ≤ 12)⟩,Nat.le_refl 1,hfirst⟩

theorem next_rank (h : d.Real) : d.rank < d.next.rank := by
  obtain ⟨⟨hm,hm'⟩,hd,hd'⟩ := h
  have hbound := (daysIn_bounds d.year d.month).2
  obtain ⟨hlt,he⟩ | ⟨-,hlt,he⟩ | ⟨-,-,he⟩ := next_cases d
  · rw [he]
    simp only [Date.rank]
    omega
  · rw [he]
    simp only [Date.rank]
    omega
  · rw [he]
    simp only [Date.rank]
    omega

theorem dateAfter_succ (n : Nat) : dateAfter (n + 1) = (dateAfter n).next :=
  Function.iterate_succ_apply' Date.next n epoch

theorem dateAfter_real (n : Nat) : (dateAfter n).Real := by
  induction n with
  | zero => exact ⟨⟨by decide,by decide⟩,by decide,by decide⟩
  | succ n ih =>
    rw [dateAfter_succ]
    exact next_real ih

theorem rank_strictMono : StrictMono fun n => (dateAfter n).rank := by
  refine strictMono_nat_of_lt_succ fun n => ?_
  rw [dateAfter_succ]
  exact next_rank (dateAfter_real n)

theorem dateAfter_inj {k : Nat} (h : dateAfter n = dateAfter k) : n = k :=
  rank_strictMono.injective (congrArg Date.rank h)

def Counted (d : Date) : Prop := ∃ n, dateAfter n = d

theorem Counted.next (h : Counted d) : Counted d.next := by
  obtain ⟨n,rfl⟩ := h
  exact ⟨n + 1,dateAfter_succ n⟩

theorem counted_day {year month day : Nat} (h : Counted ⟨year,month,1⟩)
    (hday : day + 1 ≤ daysIn year month) : Counted ⟨year,month,day + 1⟩ := by
  induction day with
  | zero => exact h
  | succ day ih =>
    have hnext := (ih (by omega)).next
    rwa [Date.next,if_pos (by exact hday)] at hnext

theorem counted_month {year month : Nat} (h : Counted ⟨year,1,1⟩) (hmonth : month + 1 ≤ 12) :
    Counted ⟨year,month + 1,1⟩ := by
  induction month with
  | zero => exact h
  | succ month ih =>
    have hbound := (daysIn_bounds year (month + 1)).1
    obtain ⟨k,hk⟩ : ∃ k, daysIn year (month + 1) = k + 1 := ⟨_,(Nat.succ_pred_eq_of_pos (by omega)).symm⟩
    have hlast := (counted_day (ih (by omega)) hk.ge).next
    rwa [Date.next,if_neg (by simp only [hk]; omega),if_pos (by exact hmonth)] at hlast

theorem counted_year (year : Nat) : Counted ⟨1970 + year,1,1⟩ := by
  induction year with
  | zero => exact ⟨0,rfl⟩
  | succ year ih =>
    have hdays : daysIn (1970 + year) 12 = 31 := rfl
    have hdecember : Counted ⟨1970 + year,12,1⟩ := counted_month ih (by decide)
    have hlast := (@counted_day (1970 + year) 12 30 hdecember hdays.ge).next
    rwa [Date.next,if_neg (by simp [hdays]),if_neg (by simp)] at hlast

theorem exists_dateAfter (h : d.Real) (hyear : 1970 ≤ d.year) : ∃ n, dateAfter n = d := by
  obtain ⟨y,m,k⟩ := d
  obtain ⟨⟨hm,hm'⟩,hk,hk'⟩ := h
  obtain ⟨year,rfl⟩ := Nat.exists_eq_add_of_le hyear
  obtain ⟨month,rfl⟩ := Nat.exists_eq_add_of_le' hm
  obtain ⟨day,rfl⟩ := Nat.exists_eq_add_of_le' hk
  exact counted_day (counted_month (counted_year year) hm') hk'

end Days

end Gregorian

import MurlSystem.Dates.Counted
import MurlSystem.Foundation.Padded

namespace MurlSystem

open Gregorian Numeral

structure Stamp where
  date : Date
  hour : Nat
  minute : Nat
  second : Nat

namespace Stamp

structure Real (x : Stamp) : Prop where
  date : x.date.Real
  year : 1970 ≤ x.date.year ∧ x.date.year ≤ 9999
  hour : x.hour ≤ 23
  minute : x.minute ≤ 59
  second : x.second ≤ 59

def chars (x : Stamp) : List Char :=
  padded 4 x.date.year ++ '-' :: (padded 2 x.date.month ++ '-' :: (padded 2 x.date.day ++ 'T' ::
    (padded 2 x.hour ++ ':' :: (padded 2 x.minute ++ ':' :: (padded 2 x.second ++ ['Z'])))))

def text (x : Stamp) : String := String.ofList x.chars

def seconds (x : Stamp) : Nat := x.hour * 3600 + x.minute * 60 + x.second

def Epoch (x : Stamp) (t : Nat) : Prop := ∃ n, dateAfter n = x.date ∧ t = n * 86400 + x.seconds

end Stamp

section Order

variable {x y : Stamp}

theorem Stamp.Real.bounds (h : x.Real) : x.date.year < 10 ^ 4 ∧ x.date.month < 10 ^ 2 ∧
    x.date.day < 10 ^ 2 ∧ x.hour < 10 ^ 2 ∧ x.minute < 10 ^ 2 ∧ x.second < 10 ^ 2 := by
  obtain ⟨⟨hmonth,hday⟩,hyear,hhour,hminute,hsecond⟩ := h
  have hdays := (daysIn_bounds x.date.year x.date.month).2
  omega

theorem seconds_lt (h : x.Real) : x.seconds < 86400 := by
  obtain ⟨-,-,hhour,hminute,hsecond⟩ := h
  simp only [Stamp.seconds]
  omega

theorem cons_lt_iff {c : Char} {r s : List Char} : c :: r < c :: s ↔ r < s := by
  rw [List.cons_lt_cons_iff]
  simp

theorem padded_step {k n m : Nat} {c : Char} {r s : List Char} (hn : n < 10 ^ k) (hm : m < 10 ^ k) :
    padded k n ++ c :: r < padded k m ++ c :: s ↔ n < m ∨ n = m ∧ r < s := by
  rw [append_lt_iff (by rw [length_padded,length_padded]),padded_lt_iff hn hm,padded_inj hn hm,
    cons_lt_iff]

theorem text_lt_iff (hx : x.Real) (hy : y.Real) : x.text < y.text ↔
    x.date.rank < y.date.rank ∨ x.date.rank = y.date.rank ∧ x.seconds < y.seconds := by
  obtain ⟨hx1,hx2,hx3,hx4,hx5,hx6⟩ := hx.bounds
  obtain ⟨hy1,hy2,hy3,hy4,hy5,hy6⟩ := hy.bounds
  have hirrefl : ¬ (['Z'] : List Char) < ['Z'] := List.lt_irrefl _
  rw [String.lt_iff_toList_lt,Stamp.text,Stamp.text,@String.toList_ofList x.chars,
    @String.toList_ofList y.chars,Stamp.chars,Stamp.chars,padded_step hx1 hy1,padded_step hx2 hy2,
    padded_step hx3 hy3,padded_step hx4 hy4,padded_step hx5 hy5,
    append_lt_iff (by rw [length_padded,length_padded]),padded_lt_iff hx6 hy6,padded_inj hx6 hy6]
  obtain ⟨-,-,hhour,hminute,hsecond⟩ := hx
  obtain ⟨-,-,hhour',hminute',hsecond'⟩ := hy
  simp only [Date.rank,Stamp.seconds,hirrefl,and_false,or_false]
  omega

theorem epoch_lt_iff {t u : Nat} (hx : x.Real) (hy : y.Real) (ht : x.Epoch t) (hu : y.Epoch u) :
    x.text < y.text ↔ t < u := by
  obtain ⟨n,hn,rfl⟩ := ht
  obtain ⟨m,hm,rfl⟩ := hu
  have hxs := seconds_lt hx
  have hys := seconds_lt hy
  have hrank : x.date.rank < y.date.rank ↔ n < m := by
    rw [← hn,← hm]
    exact rank_strictMono.lt_iff_lt
  have hsame : x.date.rank = y.date.rank ↔ n = m := by
    rw [← hn,← hm]
    exact rank_strictMono.injective.eq_iff
  rw [text_lt_iff hx hy,hrank,hsame]
  omega

end Order

section Count

variable {x : Stamp}

theorem epoch_iff {t : Nat} (h : x.Real) : x.Epoch t ↔ t =
    (daysFromCivil x.date.year x.date.month x.date.day * 86400 + x.hour * 3600 + x.minute * 60 +
      x.second).toNat := by
  obtain ⟨n,hn⟩ := exists_dateAfter h.date h.year.1
  have hdays := (daysFromCivil_after n).2
  rw [hn] at hdays
  constructor
  · rintro ⟨k,hk,rfl⟩
    obtain rfl := dateAfter_inj (hn.trans hk.symm)
    rw [hdays,Stamp.seconds]
    omega
  · rintro rfl
    refine ⟨n,hn,?_⟩
    rw [hdays,Stamp.seconds]
    omega

end Count

end MurlSystem

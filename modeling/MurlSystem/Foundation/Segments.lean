import Mathlib.Data.List.Basic

namespace Trace

inductive Segmented {α : Type} (P : List α → List α → Prop) : List α → Prop
  | nil : Segmented P []
  | snoc {t segment : List α} (earlier : Segmented P t) (last : P t segment) :
      Segmented P (t ++ segment)

section Segmented

variable {α : Type} {P : List α → List α → Prop} {t : List α} {i : Nat} {a : α}

structure Located (P : List α → List α → Prop) (t : List α) (i : Nat) (a : α) : Prop where
  split : ∃ before segment after j, t = before ++ segment ++ after ∧ P before segment ∧
    i = before.length + j ∧ segment[j]? = some a

theorem Located.append (h : Located P t i a) (more : List α) : Located P (t ++ more) i a := by
  obtain ⟨before,segment,after,j,rfl,hseg,hi,ha⟩ := h.split
  exact ⟨before,segment,after ++ more,j,by simp only [List.append_assoc],hseg,hi,ha⟩

theorem Segmented.locate (h : Segmented P t) (ha : t[i]? = some a) :
    Located P t i a := by
  induction h generalizing i with
  | nil => cases ha
  | @snoc t segment earlier last ih =>
    by_cases hi : i < t.length
    · rw [List.getElem?_append_left hi] at ha
      exact (ih ha).append segment
    · have hle := Nat.le_of_not_lt hi
      rw [List.getElem?_append_right hle] at ha
      exact ⟨t,segment,[],i - t.length,(List.append_nil _).symm,last,by omega,ha⟩

end Segmented

end Trace

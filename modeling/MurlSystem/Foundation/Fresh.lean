import Mathlib.Data.Finset.Card
import Mathlib.Data.Finset.Image

namespace Fresh

variable {α : Type} [DecidableEq α] (name : Nat → α) (used : List α)

def seek : Nat → Nat → Option Nat
  | 0,_ => none
  | fuel + 1,n => if name n ∈ used then seek fuel (n + 1) else some n

variable {name used} {fuel n k : Nat}

theorem seek_first (h : seek name used fuel n = some k) :
    n ≤ k ∧ name k ∉ used ∧ ∀ i, n ≤ i → i < k → name i ∈ used := by
  induction fuel generalizing n with
  | zero => cases h
  | succ fuel ih =>
    rw [seek] at h
    split at h
    · next hn =>
      obtain ⟨hle,hfree,htaken⟩ := ih h
      refine ⟨by omega,hfree,fun i hi hk => ?_⟩
      rcases Nat.eq_or_lt_of_le hi with rfl | hi
      · exact hn
      · exact htaken i hi hk
    · next hn =>
      obtain rfl := Option.some.inj h
      exact ⟨Nat.le_refl n,hn,fun i hi hk => absurd hi (Nat.not_le.mpr hk)⟩

theorem seek_none (h : seek name used fuel n = none) : ∀ i < fuel, name (n + i) ∈ used := by
  induction fuel generalizing n with
  | zero => exact fun i hi => absurd hi (Nat.not_lt_zero i)
  | succ fuel ih =>
    rw [seek] at h
    split at h
    · next hn =>
      intro i hi
      cases i with
      | zero => exact hn
      | succ i =>
        have hnext := ih h i (by omega)
        rwa [Nat.add_right_comm,Nat.add_assoc] at hnext
    · cases h

theorem exists_seek (hname : Function.Injective name) (h : used.length < fuel) (n : Nat) :
    ∃ k, seek name used fuel n = some k := by
  cases hseek : seek name used fuel n with
  | some k => exact ⟨k,rfl⟩
  | none =>
    have hsub : (Finset.range fuel).image (fun i => name (n + i)) ⊆ used.toFinset := by
      intro a ha
      obtain ⟨i,hi,rfl⟩ := Finset.mem_image.mp ha
      exact List.mem_toFinset.mpr (seek_none hseek i (Finset.mem_range.mp hi))
    have hcard := Finset.card_le_card hsub
    have hinj : Function.Injective fun i => name (n + i) :=
      fun i j hij => Nat.add_left_cancel (hname hij)
    rw [Finset.card_image_of_injective _ hinj,Finset.card_range] at hcard
    have hused := List.toFinset_card_le used
    omega

theorem seek_total (hname : Function.Injective name) (n : Nat) :
    ∃ k, (∀ fuel, used.length < fuel → seek name used fuel n = some k) ∧ name k ∉ used ∧
      ∀ i, n ≤ i → i < k → name i ∈ used := by
  obtain ⟨k,hk⟩ := exists_seek hname (Nat.lt_succ_self used.length) n
  obtain ⟨hle,hfree,htaken⟩ := seek_first hk
  refine ⟨k,fun fuel hfuel => ?_,hfree,htaken⟩
  obtain ⟨m,hm⟩ := exists_seek hname hfuel n
  obtain ⟨hle',hfree',htaken'⟩ := seek_first hm
  rcases Nat.lt_trichotomy k m with h | rfl | h
  · exact absurd (htaken' k hle h) hfree
  · exact hm
  · exact absurd (htaken m hle' h) hfree'

end Fresh

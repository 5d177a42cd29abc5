import Mathlib.Data.List.Chain
import Mathlib.Data.Set.Insert
import Mathlib.Logic.Relation

namespace DepthFirst

open Relation

section Cycles

variable {α : Type} {edge : α → α → Prop}

def IsCycle (edge : α → α → Prop) (c : List α) : Prop :=
  ∃ x mid, c = x :: (mid ++ [x]) ∧ c.IsChain edge

theorem transGen_of_isChain {x y : α} {mid : List α} (h : (x :: (mid ++ [y])).IsChain edge) :
    TransGen edge x y := by
  induction mid generalizing x with
  | nil => exact .single (List.isChain_pair.mp h)
  | cons z mid ih =>
    obtain ⟨hxz,hrest⟩ := List.isChain_cons_cons.mp h
    exact (ih hrest).head hxz

theorem IsCycle.transGen {c : List α} (h : IsCycle edge c) : ∃ x, TransGen edge x x := by
  obtain ⟨x,mid,rfl,hchain⟩ := h
  exact ⟨x,transGen_of_isChain hchain⟩

theorem isCycle_of_trail [DecidableEq α] {path : List α} {x : α} (hpath : path.IsChain edge)
    (hlast : ∀ y, path.getLast? = some y → edge y x) (hx : x ∈ path) :
    IsCycle edge (path.drop (path.idxOf x) ++ [x]) := by
  have hlt : path.idxOf x < path.length := List.idxOf_lt_length_iff.mpr hx
  have hdrop : path.drop (path.idxOf x) = x :: path.drop (path.idxOf x + 1) := by
    rw [List.drop_eq_getElem_cons hlt,List.getElem_idxOf]
  refine ⟨x,path.drop (path.idxOf x + 1),by rw [hdrop]; rfl,?_⟩
  refine List.isChain_append.mpr ⟨hpath.drop _,List.isChain_singleton x,?_⟩
  intro y hy z hz
  obtain rfl : x = z := by simpa using hz
  refine hlast y ?_
  rw [List.getLast?_drop,if_neg (by omega)] at hy
  exact hy

end Cycles

section Settled

variable {α : Type} {edge : α → α → Prop} {done : Set α}

structure Settled (edge : α → α → Prop) (done : Set α) : Prop where
  closed : ∀ x ∈ done, ∀ y, edge x y → y ∈ done
  acyclic : ∀ x ∈ done, ¬TransGen edge x x

theorem Settled.reaches (h : Settled edge done) {x y : α} (hx : x ∈ done)
    (hxy : TransGen edge x y) : y ∈ done := by
  induction hxy with
  | single hxy => exact h.closed x hx _ hxy
  | tail _ hyz ih => exact h.closed _ ih _ hyz

theorem Settled.insert {x : α} (h : Settled edge done) (hout : ∀ y, edge x y → y ∈ done)
    (hx : x ∉ done) : Settled edge (Insert.insert x done) := by
  refine ⟨?_,?_⟩
  · rintro a (rfl | ha) y hay
    · exact .inr (hout y hay)
    · exact .inr (h.closed a ha y hay)
  · rintro a (rfl | ha) hcycle
    · obtain ⟨y,hay,hya⟩ := TransGen.head'_iff.mp hcycle
      rcases reflTransGen_iff_eq_or_transGen.mp hya with rfl | hya
      · exact hx (hout _ hay)
      · exact hx (h.reaches (hout y hay) hya)
    · exact h.acyclic a ha hcycle

end Settled

end DepthFirst

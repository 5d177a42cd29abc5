import Mathlib.Data.Finset.Card
import MurlSystem.Core.Document

namespace MurlSystem

section Order

variable (resources : List ResourceDoc)

def indexOf (id : String) : Option Nat := resources.findIdx? fun r => r.id == id

def depsOf (i : Nat) : List Nat :=
  match resources[i]? with
  | some r => (r.dependsOn.filterMap (indexOf resources)).filter fun j => j != i
  | none => []

def orderOf (i : Nat) : Int :=
  match resources[i]? with
  | some r => r.order
  | none => 0

def isReady (out : List Nat) (i : Nat) : Bool :=
  !out.contains i && (depsOf resources i).all fun j => out.contains j

def goesBefore (i p : Nat) : Bool :=
  orderOf resources i < orderOf resources p ||
    (orderOf resources i == orderOf resources p && decide (i < p))

def better (pick : Option Nat) (i : Nat) : Option Nat :=
  match pick with
  | none => some i
  | some p => if goesBefore resources i p then some i else some p

def pickNext (out : List Nat) : Option Nat :=
  ((List.range resources.length).filter (isReady resources out)).foldl (better resources) none

def stuckIds (out : List Nat) : List String :=
  (resources.zipIdx.filter fun (_,i) => !out.contains i).map fun (r,_) => r.id

def orderLoop : Nat → List Nat → Except String (List Nat)
  | 0,out => .ok out
  | k + 1,out =>
    match pickNext resources out with
    | some i => orderLoop k (out ++ [i])
    | none =>
      let stuck := " -> ".intercalate (stuckIds resources out)
      .error s!"dependsOn cycle among resources: {stuck}"

def executionOrder : Except String (List Nat) := orderLoop resources resources.length []

variable {resources}

theorem better_fold_mem {pool : List Nat} {start : Option Nat} {i : Nat}
    (h : pool.foldl (better resources) start = some i) : start = some i ∨ i ∈ pool := by
  induction pool generalizing start with
  | nil => exact .inl h
  | cons x xs ih =>
    rcases ih h with hx | hx
    · cases start with
      | none =>
        obtain rfl : x = i := by simpa [better] using hx
        exact .inr (by simp)
      | some p =>
        simp only [better] at hx
        split at hx
        · obtain rfl : x = i := by simpa using hx
          exact .inr (by simp)
        · exact .inl hx
    · exact .inr (List.mem_cons_of_mem x hx)

theorem pickNext_spec {out : List Nat} {i : Nat} (h : pickNext resources out = some i) :
    i < resources.length ∧ i ∉ out ∧ ∀ j ∈ depsOf resources i, j ∈ out := by
  rcases better_fold_mem h with hn | hm
  · cases hn
  · obtain ⟨hr,hready⟩ := List.mem_filter.mp hm
    simp only [isReady,Bool.and_eq_true,Bool.not_eq_true',List.contains_eq_mem,
      decide_eq_false_iff_not,List.all_eq_true,decide_eq_true_eq] at hready
    exact ⟨List.mem_range.mp hr,hready⟩

structure OrderedSoFar (resources : List ResourceDoc) (out : List Nat) : Prop where
  nodup : out.Nodup
  bounded : ∀ i ∈ out, i < resources.length
  depsFirst : ∀ pre i post, out = pre ++ i :: post → ∀ j ∈ depsOf resources i, j ∈ pre

theorem OrderedSoFar.snoc {out : List Nat} {i : Nat} (h : OrderedSoFar resources out)
    (hi : pickNext resources out = some i) : OrderedSoFar resources (out ++ [i]) := by
  obtain ⟨hlt,hnot,hdeps⟩ := pickNext_spec hi
  refine ⟨?_,?_,?_⟩
  · rw [List.nodup_append]
    refine ⟨h.nodup,by simp,?_⟩
    intro a ha b hb hab
    obtain rfl : b = i := by simpa using hb
    exact hnot (hab ▸ ha)
  · intro j hj
    rcases List.mem_append.mp hj with hj | hj
    · exact h.bounded j hj
    · obtain rfl : j = i := by simpa using hj
      exact hlt
  · intro pre k post he j hj
    rcases List.eq_nil_or_concat post with rfl | ⟨post',last,rfl⟩
    · obtain ⟨rfl,hk⟩ := List.append_inj' he rfl
      obtain rfl : i = k := by simpa using hk
      exact hdeps j hj
    · have hsplit : out ++ [i] = (pre ++ k :: post') ++ [last] := by simp [he]
      obtain ⟨hout,-⟩ := List.append_inj' hsplit rfl
      exact h.depsFirst pre k post' hout j hj

theorem orderLoop_spec {k : Nat} {out result : List Nat}
    (h : orderLoop resources k out = .ok result) (ho : OrderedSoFar resources out) :
    OrderedSoFar resources result ∧ result.length = out.length + k := by
  induction k generalizing out with
  | zero =>
    obtain rfl : out = result := by simpa [orderLoop] using h
    exact ⟨ho,rfl⟩
  | succ k ih =>
    simp only [orderLoop] at h
    cases hp : pickNext resources out with
    | none => simp [hp] at h
    | some i =>
      rw [hp] at h
      obtain ⟨hres,hlen⟩ := ih h (ho.snoc hp)
      refine ⟨hres,?_⟩
      simp only [List.length_append,List.length_singleton] at hlen
      omega

theorem executionOrder_ordered {result : List Nat}
    (h : executionOrder resources = .ok result) :
    OrderedSoFar resources result ∧ result.length = resources.length := by
  have hstart : OrderedSoFar resources [] :=
    ⟨by simp,by simp,fun pre i post he => by simp at he⟩
  obtain ⟨ho,hlen⟩ := orderLoop_spec h hstart
  exact ⟨ho,by simpa using hlen⟩

theorem executionOrder_mem {result : List Nat} (h : executionOrder resources = .ok result)
    (i : Nat) : i ∈ result ↔ i < resources.length := by
  obtain ⟨ho,hlen⟩ := executionOrder_ordered h
  refine ⟨ho.bounded i,?_⟩
  intro hi
  have hsub : result.toFinset ⊆ Finset.range resources.length := by
    intro j hj
    exact Finset.mem_range.mpr (ho.bounded j (List.mem_toFinset.mp hj))
  have hcard : (Finset.range resources.length).card ≤ result.toFinset.card := by
    rw [List.toFinset_card_of_nodup ho.nodup,hlen,Finset.card_range]
  have heq := Finset.eq_of_subset_of_card_le hsub hcard
  exact List.mem_toFinset.mp (heq ▸ Finset.mem_range.mpr hi)

end Order

end MurlSystem

import Mathlib.Data.List.Pairwise
import Mathlib.Logic.Relation

namespace Nesting

inductive Trace : List (Option Nat) → List (Option Nat) → Prop
  | start : Trace [] [none]
  | event {owners stack : List (Option Nat)} {o : Option Nat} (h : Trace owners (o :: stack)) :
      Trace (owners ++ [o]) (o :: stack)
  | opened {owners stack : List (Option Nat)} {o : Option Nat} (h : Trace owners (o :: stack)) :
      Trace (owners ++ [o]) (some owners.length :: o :: stack)
  | closed {owners stack : List (Option Nat)} {o o' : Option Nat}
      (h : Trace owners (o :: o' :: stack)) : Trace owners (o' :: stack)

def Under (owners : List (Option Nat)) (p q : Nat) : Prop := owners[q]? = some (some p)

def Covers (owners : List (Option Nat)) : Nat → Nat → Prop := Relation.ReflTransGen (Under owners)

variable {owners stack : List (Option Nat)} {o : Option Nat} {p q m : Nat}

theorem Under.lt_length (h : Under owners p q) : q < owners.length :=
  (List.getElem?_eq_some_iff.mp h).1

theorem Under.snoc (h : Under owners p q) : Under (owners ++ [o]) p q := by
  unfold Under
  rw [List.getElem?_append_left h.lt_length]
  exact h

theorem Covers.snoc (h : Covers owners p q) : Covers (owners ++ [o]) p q := by
  induction h with
  | refl => exact .refl
  | tail _ hu ih => exact ih.tail hu.snoc

theorem under_snoc (h : Under (owners ++ [o]) p q) :
    Under owners p q ∨ (q = owners.length ∧ o = some p) := by
  have hlt := h.lt_length
  unfold Under at h
  rcases Nat.lt_or_ge q owners.length with hq | hq
  · rw [List.getElem?_append_left hq] at h
    exact .inl h
  · have heq : q = owners.length := by
      simp only [List.length_append,List.length_singleton] at hlt
      omega
    subst heq
    exact .inr ⟨rfl,by simpa using h⟩

theorem Trace.open_lt (h : Trace owners stack) : ∀ p, some p ∈ stack → p < owners.length := by
  induction h with
  | start => simp
  | event _ ih =>
    intro p hp
    have := ih p hp
    simp only [List.length_append,List.length_singleton]
    omega
  | opened _ ih =>
    intro p hp
    simp only [List.length_append,List.length_singleton]
    rcases List.mem_cons.mp hp with heq | hp
    · obtain rfl := Option.some.inj heq
      omega
    · have := ih p hp
      omega
  | closed _ ih => exact fun p hp => ih p (List.mem_cons_of_mem _ hp)

theorem Trace.grows {P : List (Option Nat) → Prop} (start : P [])
    (snoc : ∀ owners stack o, Trace owners (o :: stack) → P owners → P (owners ++ [o]))
    (h : Trace owners stack) : P owners := by
  induction h with
  | start => exact start
  | event ht ih => exact snoc _ _ _ ht ih
  | opened ht ih => exact snoc _ _ _ ht ih
  | closed _ ih => exact ih

theorem Trace.under_lt (h : Trace owners stack) : ∀ p q, Under owners p q → p < q := by
  refine Trace.grows (P := fun owners => ∀ p q, Under owners p q → p < q) ?_ ?_ h
  · intro p q hu
    exact absurd hu.lt_length (by simp)
  · intro owners stack o ht ih p q hu
    rcases under_snoc hu with hu | ⟨rfl,rfl⟩
    · exact ih p q hu
    · exact ht.open_lt p List.mem_cons_self

theorem Trace.covers_le (h : Trace owners stack) (hc : Covers owners p q) : p ≤ q := by
  induction hc with
  | refl => exact Nat.le_refl _
  | tail _ hu ih => exact Nat.le_trans ih (Nat.le_of_lt (h.under_lt _ _ hu))

theorem Trace.covers_of_snoc (h : Trace owners (o :: stack)) (hc : Covers (owners ++ [o]) p q)
    (hq : q < owners.length) : Covers owners p q := by
  induction hc with
  | refl => exact .refl
  | tail _ hu ih =>
    rcases under_snoc hu with hu | ⟨rfl,-⟩
    · exact (ih (Nat.lt_trans (h.under_lt _ _ hu) hq)).tail hu
    · exact absurd hq (Nat.lt_irrefl _)

def Encloses (owners : List (Option Nat)) (inner outer : Option Nat) : Prop :=
  ∀ p, outer = some p → ∃ t, inner = some t ∧ Covers owners p t

theorem Encloses.snoc {inner outer : Option Nat} (h : Encloses owners inner outer) :
    Encloses (owners ++ [o]) inner outer := by
  intro p hp
  obtain ⟨t,ht,hc⟩ := h p hp
  exact ⟨t,ht,hc.snoc⟩

theorem Trace.covers_last (hstack : ∀ x ∈ stack, Encloses owners o x) {p : Nat}
    (hp : some p ∈ o :: stack) : Covers (owners ++ [o]) p owners.length := by
  have hunder : ∀ t, o = some t → Under (owners ++ [o]) t owners.length := by
    intro t ht
    simp [Under,ht]
  rcases List.mem_cons.mp hp with heq | hp
  · exact .single (hunder p heq.symm)
  · obtain ⟨t,ht,hc⟩ := hstack _ hp p rfl
    exact (Covers.snoc hc).tail (hunder t ht)

theorem Trace.enclosed (h : Trace owners stack) : stack.Pairwise (Encloses owners) := by
  induction h with
  | start => simp
  | event _ ih => exact ih.imp Encloses.snoc
  | opened _ ih =>
    refine .cons ?_ (ih.imp Encloses.snoc)
    intro x hx p hp
    exact ⟨_,rfl,Trace.covers_last (List.pairwise_cons.mp ih).1 (hp ▸ hx)⟩
  | closed _ ih => exact (List.pairwise_cons.mp ih).2

theorem Trace.open_covers (h : Trace owners stack) :
    ∀ p q, some p ∈ stack → p ≤ q → q < owners.length → Covers owners p q := by
  have hsnoc : ∀ {owners stack : List (Option Nat)} {o : Option Nat}, Trace owners (o :: stack) →
      (∀ p q, some p ∈ o :: stack → p ≤ q → q < owners.length → Covers owners p q) →
      ∀ p q, some p ∈ o :: stack → p ≤ q → q < (owners ++ [o]).length →
        Covers (owners ++ [o]) p q := by
    intro owners stack o ht ih p q hp hpq hq
    rcases Nat.lt_or_ge q owners.length with hlt | hge
    · exact (ih p q hp hpq hlt).snoc
    · have heq : q = owners.length := by
        simp only [List.length_append,List.length_singleton] at hq
        omega
      subst heq
      exact Trace.covers_last (List.pairwise_cons.mp ht.enclosed).1 hp
  induction h with
  | start => simp
  | event ht ih => exact hsnoc ht ih
  | @opened owners stack o ht ih =>
    intro p q hp hpq hq
    rcases List.mem_cons.mp hp with heq | hp
    · obtain rfl := Option.some.inj heq
      have heq : q = owners.length := by
        simp only [List.length_append,List.length_singleton] at hq
        omega
      subst heq
      exact .refl
    · exact hsnoc ht ih p q hp hpq hq
  | closed _ ih => exact fun p q hp => ih p q (List.mem_cons_of_mem _ hp)

theorem Trace.interval (h : Trace owners stack) :
    ∀ p m q, Covers owners p q → p ≤ m → m ≤ q → Covers owners p m := by
  refine Trace.grows (P := fun owners => ∀ p m q, Covers owners p q → p ≤ m → m ≤ q →
    Covers owners p m) ?_ ?_ h
  · intro p m q hc hpm hmq
    rcases hc.cases_tail with rfl | ⟨x,-,hu⟩
    · have heq := Nat.le_antisymm hpm hmq
      subst heq
      exact .refl
    · exact absurd hu.lt_length (by simp)
  · intro owners stack o ht ih p m q hc hpm hmq
    rcases hc.cases_tail with rfl | ⟨x,hpx,hu⟩
    · have heq := Nat.le_antisymm hpm hmq
      subst heq
      exact .refl
    · rcases under_snoc hu with hold | ⟨rfl,rfl⟩
      · exact (ih p m q (ht.covers_of_snoc hc hold.lt_length) hpm hmq).snoc
      · have hx := ht.open_lt x List.mem_cons_self
        rcases Nat.lt_or_ge m x with hmx | hxm
        · exact (ih p m x (ht.covers_of_snoc hpx hx) hpm (Nat.le_of_lt hmx)).snoc
        · rcases Nat.lt_or_ge m owners.length with hlt | hge
          · have hopen := ht.open_covers x m List.mem_cons_self hxm hlt
            exact hpx.trans hopen.snoc
          · obtain rfl : m = owners.length := Nat.le_antisymm hmq hge
            exact hc

theorem Trace.before (h : Trace owners stack) {p p' : Nat} (hp : owners[p]? = some o)
    (hp' : owners[p']? = some o) (hlt : p < p') (hc : Covers owners p q) : q < p' := by
  by_contra hge
  have hcov := h.interval p p' q hc (Nat.le_of_lt hlt) (Nat.not_lt.mp hge)
  rcases hcov.cases_tail with rfl | ⟨x,hpx,hu⟩
  · exact Nat.lt_irrefl _ hlt
  · unfold Under at hu
    rw [hp'] at hu
    obtain rfl := Option.some.inj hu
    have hxp := h.under_lt x p hp
    have hle := h.covers_le hpx
    omega

end Nesting

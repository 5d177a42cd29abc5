import Mathlib.Data.List.Forall2

namespace Fallible

universe u
variable {ε ε' α β : Type u}

@[simp]
theorem bind_ok {x : Except ε α} {f : α → Except ε β} {b : β} :
    x >>= f = .ok b ↔ ∃ a, x = .ok a ∧ f a = .ok b := by
  cases x with
  | ok a =>
    change f a = .ok b ↔ _
    simp
  | error e =>
    change Except.error e = .ok b ↔ _
    simp

theorem seq_ok {x : Except ε PUnit.{u + 1}} {f : PUnit.{u + 1} → Except ε β} {b : β} :
    x >>= f = .ok b ↔ x = .ok ⟨⟩ ∧ f ⟨⟩ = .ok b := by
  rw [bind_ok]
  exact ⟨fun ⟨_,hx,hf⟩ => ⟨hx,hf⟩,fun h => ⟨⟨⟩,h⟩⟩

@[simp]
theorem pure_ok {a b : α} : (pure a : Except ε α) = .ok b ↔ a = b := by
  change Except.ok a = .ok b ↔ _
  simp

@[simp]
theorem throw_ok {e : ε} {a : α} : (throw e : Except ε α) = .ok a ↔ False := by
  change Except.error e = .ok a ↔ _
  simp

@[simp]
theorem mapError_ok {x : Except ε α} {f : ε → ε'} {a : α} :
    x.mapError f = .ok a ↔ x = .ok a := by
  cases x <;> simp [Except.mapError]

@[simp]
theorem map_ok {x : Except ε α} {f : α → β} {b : β} :
    x.map f = .ok b ↔ ∃ a, x = .ok a ∧ f a = b := by
  cases x <;> simp [Except.map]

@[simp]
theorem fmap_ok {x : Except ε α} {f : α → β} {b : β} :
    f <$> x = .ok b ↔ ∃ a, x = .ok a ∧ f a = b := map_ok

theorem ite_ok {c : Prop} [Decidable c] {x y : Except ε α} {a : α} :
    (if c then x else y) = .ok a ↔ (c ∧ x = .ok a) ∨ (¬c ∧ y = .ok a) := by
  by_cases h : c <;> simp [h]

theorem guard_ok {c : Prop} [Decidable c] {e : ε} {y : Except ε α} {a : α} :
    (if c then .error e else y) = .ok a ↔ ¬c ∧ y = .ok a := by
  by_cases h : c <;> simp [h]

theorem mapM_ok {f : α → Except ε β} {l : List α} {bs : List β} :
    l.mapM f = .ok bs ↔ List.Forall₂ (fun a b => f a = .ok b) l bs := by
  induction l generalizing bs with
  | nil =>
    rw [List.mapM_nil,pure_ok]
    simp [eq_comm]
  | cons a l ih =>
    simp only [List.mapM_cons,bind_ok,pure_ok,List.forall₂_cons_left_iff]
    constructor
    · rintro ⟨b,hb,rest,hrest,rfl⟩
      exact ⟨b,rest,hb,ih.mp hrest,rfl⟩
    · rintro ⟨b,rest,hb,hrest,rfl⟩
      exact ⟨b,hb,rest,ih.mpr hrest,rfl⟩

theorem forall₂_mem {R : α → β → Prop} {l : List α} {bs : List β} (h : List.Forall₂ R l bs) :
    ∀ a ∈ l, ∃ b ∈ bs, R a b := by
  induction h with
  | nil => simp
  | @cons a b l bs hab _ ih =>
    refine List.forall_mem_cons.mpr ⟨⟨b,List.mem_cons_self,hab⟩,?_⟩
    intro x hx
    obtain ⟨y,hy,hxy⟩ := ih x hx
    exact ⟨y,List.mem_cons_of_mem b hy,hxy⟩

theorem forM_ok {f : α → Except ε PUnit.{u + 1}} {l : List α} {v : PUnit.{u + 1}} :
    l.forM f = .ok v ↔ ∀ a ∈ l, f a = .ok ⟨⟩ := by
  induction l with
  | nil =>
    change (pure ⟨⟩ : Except ε PUnit) = .ok v ↔ _
    simp
  | cons a l ih =>
    change (f a >>= fun _ => l.forM f) = .ok v ↔ _
    rw [bind_ok]
    constructor
    · rintro ⟨⟨⟩,ha,hl⟩ b hb
      rcases List.mem_cons.mp hb with rfl | hb
      · exact ha
      · exact ih.mp hl b hb
    · intro h
      exact ⟨⟨⟩,h a (by simp),ih.mpr fun b hb => h b (by simp [hb])⟩

end Fallible

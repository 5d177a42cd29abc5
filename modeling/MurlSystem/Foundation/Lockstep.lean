import MurlSystem.Foundation.Cut

namespace Program

section Lockstep

variable {ε σ τ α β γ κ : Type}

inductive Paired (R : σ → τ → Prop) (Q : α → β → Prop) :
    EStateM.Result ε σ α → EStateM.Result ε τ β → Prop
  | ok {a : α} {b : β} {s : σ} {t : τ} (value : Q a b) (state : R s t) : Paired R Q (.ok a s) (.ok b t)
  | error {s : σ} {t : τ} (e : ε) (state : R s t) : Paired R Q (.error e s) (.error e t)

def Lockstep (R : σ → τ → Prop) (Q : α → β → Prop) (p : EStateM ε σ α) (q : EStateM ε τ β) : Prop :=
  ∀ s t, R s t → Paired R Q (p s) (q t)

variable {R : σ → τ → Prop} {Q : α → β → Prop}

theorem Lockstep.pure {a : α} {b : β} (h : Q a b) :
    Lockstep R Q (pure a : EStateM ε σ α) (pure b : EStateM ε τ β) := fun _ _ hR => .ok h hR

theorem Lockstep.throw (e : ε) :
    Lockstep R Q (throw e : EStateM ε σ α) (throw e : EStateM ε τ β) := fun _ _ hR => .error e hR

theorem Lockstep.get : Lockstep R R (get : EStateM ε σ σ) (get : EStateM ε τ τ) :=
  fun _ _ hR => .ok hR hR

theorem Lockstep.modify {f : σ → σ} {g : τ → τ} (h : ∀ s t, R s t → R (f s) (g t)) :
    Lockstep R Eq (modify f : EStateM ε σ PUnit) (modify g : EStateM ε τ PUnit) :=
  fun s t hR => .ok rfl (h s t hR)

theorem Lockstep.fromExcept (x : Except ε α) :
    Lockstep R Eq (fromExcept x : EStateM ε σ α) (fromExcept x : EStateM ε τ α) := by
  cases x with
  | ok a => exact Lockstep.pure rfl
  | error e => exact Lockstep.throw e

theorem Lockstep.bind {p : EStateM ε σ α} {q : EStateM ε τ β} {f : α → EStateM ε σ γ}
    {g : β → EStateM ε τ κ} {Q' : γ → κ → Prop} (hp : Lockstep R Q p q)
    (hf : ∀ a b, Q a b → Lockstep R Q' (f a) (g b)) : Lockstep R Q' (p >>= f) (q >>= g) := by
  intro s t hR
  have hfirst := hp s t hR
  cases hps : p s with
  | ok a s' =>
    cases hqt : q t with
    | ok b t' =>
      rw [hps,hqt] at hfirst
      cases hfirst with
      | ok value state =>
        rw [bind_ok hps,bind_ok hqt]
        exact hf a b value s' t' state
    | error e t' =>
      rw [hps,hqt] at hfirst
      cases hfirst
  | error e s' =>
    cases hqt : q t with
    | ok b t' =>
      rw [hps,hqt] at hfirst
      cases hfirst
    | error e' t' =>
      rw [hps,hqt] at hfirst
      cases hfirst with
      | error _ state =>
        rw [bind_error hps,bind_error hqt]
        exact .error e state

theorem Lockstep.andThen {p : EStateM ε σ α} {q : EStateM ε τ α} {f : α → EStateM ε σ γ}
    {g : α → EStateM ε τ κ} {Q' : γ → κ → Prop} (hp : Lockstep R Eq p q)
    (hf : ∀ a, Lockstep R Q' (f a) (g a)) : Lockstep R Q' (p >>= f) (q >>= g) := by
  refine hp.bind fun a b hab => ?_
  subst hab
  exact hf a

theorem Lockstep.ite {c : Prop} [Decidable c] {p p' : EStateM ε σ α} {q q' : EStateM ε τ β}
    (hp : Lockstep R Q p q) (hp' : Lockstep R Q p' q') :
    Lockstep R Q (if c then p else p') (if c then q else q') := by
  split
  · exact hp
  · exact hp'

theorem Lockstep.dite {c : Prop} [Decidable c] {p : c → EStateM ε σ α} {p' : ¬c → EStateM ε σ α}
    {q : c → EStateM ε τ β} {q' : ¬c → EStateM ε τ β} (hp : ∀ h, Lockstep R Q (p h) (q h))
    (hp' : ∀ h, Lockstep R Q (p' h) (q' h)) :
    Lockstep R Q (if h : c then p h else p' h) (if h : c then q h else q' h) := by
  split
  · exact hp _
  · exact hp' _

theorem Lockstep.forM {f : κ → EStateM ε σ PUnit} {g : κ → EStateM ε τ PUnit}
    (hf : ∀ x, Lockstep R Eq (f x) (g x)) (l : List κ) : Lockstep R Eq (forM l f) (forM l g) := by
  induction l with
  | nil => exact Lockstep.pure rfl
  | cons x xs ih =>
    rw [List.forM_cons,List.forM_cons]
    exact (hf x).andThen fun _ => ih

end Lockstep

end Program

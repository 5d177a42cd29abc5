import MurlSystem.Foundation.Program

namespace Fallible

variable {ε ε' α β : Type}

def Blames (P : ε → Prop) (x : Except ε α) : Prop := ∀ e, x = .error e → P e

variable {P : ε → Prop}

theorem Blames.ok (a : α) : Blames P (.ok a : Except ε α) := by
  intro e h
  cases h

theorem Blames.pure (a : α) : Blames P (pure a : Except ε α) := Blames.ok a

theorem Blames.error {e : ε} (h : P e) : Blames P (.error e : Except ε α) := by
  rintro _ ⟨⟩
  exact h

theorem Blames.mono {P' : ε → Prop} {x : Except ε α} (hPP' : ∀ e, P e → P' e) (h : Blames P x) :
    Blames P' x := fun e he => hPP' e (h e he)

theorem Blames.bind {x : Except ε α} {f : α → Except ε β} (hx : Blames P x)
    (hf : ∀ a, Blames P (f a)) : Blames P (x >>= f) := by
  intro e h
  cases x with
  | ok a => exact hf a e h
  | error e' =>
    cases h
    exact hx e rfl

theorem Blames.ite {c : Prop} [Decidable c] {x y : Except ε α} (hx : Blames P x)
    (hy : Blames P y) : Blames P (if c then x else y) := by
  split
  · exact hx
  · exact hy

theorem Blames.guard {c : Prop} [Decidable c] {e : ε} {f : PUnit → Except ε α} (he : P e)
    (hf : Blames P (f ⟨⟩)) : Blames P (if c then Except.error e >>= f else f ⟨⟩) :=
  Blames.ite ((Blames.error he).bind fun _ => hf) hf

theorem Blames.mapError {f : ε' → ε} (h : ∀ e, P (f e)) (x : Except ε' α) :
    Blames P (x.mapError f) := by
  intro e he
  cases x with
  | ok a => cases he
  | error e' =>
    cases he
    exact h e'

theorem Blames.map {x : Except ε α} (f : α → β) (h : Blames P x) : Blames P (x.map f) := by
  intro e he
  cases x with
  | ok a => cases he
  | error e' =>
    cases he
    exact h e rfl

theorem Blames.forM {f : α → Except ε PUnit} (hf : ∀ x, Blames P (f x)) (l : List α) :
    Blames P (forM l f) := by
  induction l with
  | nil => exact Blames.pure _
  | cons x xs ih =>
    rw [List.forM_cons]
    exact (hf x).bind fun _ => ih

end Fallible

namespace Program

variable {ε σ α γ κ : Type}

def Raises (P : ε → Prop) (p : EStateM ε σ α) : Prop := ∀ s e s', p s = .error e s' → P e

variable {P : ε → Prop}

theorem Raises.pure (a : α) : Raises P (pure a : EStateM ε σ α) := by
  intro s e s' h
  cases h

theorem Raises.throw {e : ε} (h : P e) : Raises P (throw e : EStateM ε σ α) := by
  rintro s _ s' ⟨⟩
  exact h

theorem Raises.get : Raises P (get : EStateM ε σ σ) := by
  intro s e s' h
  cases h

theorem Raises.modify (f : σ → σ) : Raises P (modify f : EStateM ε σ PUnit) := by
  intro s e s' h
  cases h

theorem Raises.fromExcept {x : Except ε α} (h : ∀ e, x = .error e → P e) :
    Raises P (fromExcept x : EStateM ε σ α) := by
  intro s e s' he
  cases x with
  | ok a => cases he
  | error e' =>
    cases he
    exact h e rfl

theorem Raises.bind_of {p : EStateM ε σ α} {f : α → EStateM ε σ γ} (hp : Raises P p)
    (hf : ∀ s a s', p s = .ok a s' → Raises P (f a)) : Raises P (p >>= f) := by
  intro s e s' h
  change EStateM.bind p f s = .error e s' at h
  unfold EStateM.bind at h
  cases hps : p s with
  | ok a s₁ =>
    rw [hps] at h
    exact hf s a s₁ hps s₁ e s' h
  | error e₁ s₁ =>
    rw [hps] at h
    cases h
    exact hp s e s' hps

theorem Raises.bind {p : EStateM ε σ α} {f : α → EStateM ε σ γ} (hp : Raises P p)
    (hf : ∀ a, Raises P (f a)) : Raises P (p >>= f) := hp.bind_of fun _ a _ _ => hf a

theorem Raises.ite {c : Prop} [Decidable c] {p q : EStateM ε σ α} (hp : Raises P p)
    (hq : Raises P q) : Raises P (if c then p else q) := by
  split
  · exact hp
  · exact hq

theorem Raises.forM {f : κ → EStateM ε σ PUnit} (hf : ∀ x, Raises P (f x)) (l : List κ) :
    Raises P (forM l f) := by
  induction l with
  | nil => exact Raises.pure _
  | cons x xs ih =>
    rw [List.forM_cons]
    exact (hf x).bind fun _ => ih

theorem wp_raises {p : EStateM ε σ α} {Q : α → σ → Prop} {E : ε → σ → Prop} {s : σ}
    (h : wp p Q E s) (hp : Raises P p) : wp p Q (fun e s' => E e s' ∧ P e) s := by
  refine wp_of_result ?_ ?_
  · intro a s' hx
    exact wp_ok h hx
  · intro e s' hx
    exact ⟨wp_error h hx,hp s e s' hx⟩

def stops (x : EStateM ε σ α) (p : ε → σ → Bool) (s : σ) : Bool :=
  match x s with
  | .ok _ _ => false
  | .error e s' => p e s'

theorem stops_error {x : EStateM ε σ α} {p : ε → σ → Bool} {s : σ} (h : stops x p s = true) :
    ∃ e s', x s = .error e s' ∧ p e s' = true := by
  unfold stops at h
  cases hx : x s with
  | ok a s' =>
    rw [hx] at h
    cases h
  | error e s' =>
    rw [hx] at h
    exact ⟨e,s',rfl,h⟩

end Program

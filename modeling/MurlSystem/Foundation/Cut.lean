import MurlSystem.Foundation.Program

namespace Program

section Cut

variable {ε σ τ α β κ : Type}

def Grows (trace : σ → List τ) (p : EStateM ε σ α) : Prop := ∀ s, trace s <+: trace (final p s)

def CutBy (stop : ε → Prop) (trace : σ → List τ) (p q : EStateM ε σ α) : Prop :=
  ∀ s, p s = q s ∨ ∃ e s', p s = .error e s' ∧ stop e ∧ trace s' <+: trace (final q s)

variable {stop : ε → Prop} {trace : σ → List τ}

theorem final_bind_ok {p : EStateM ε σ α} {f : α → EStateM ε σ β} {s s' : σ} {a : α}
    (h : p s = .ok a s') : final (p >>= f) s = final (f a) s' := by
  simp only [final,bind,EStateM.bind,h]

theorem final_bind_error {p : EStateM ε σ α} {f : α → EStateM ε σ β} {s s' : σ} {e : ε}
    (h : p s = .error e s') : final (p >>= f) s = s' := by
  simp only [final,bind,EStateM.bind,h]

theorem final_ok {p : EStateM ε σ α} {s s' : σ} {a : α} (h : p s = .ok a s') : final p s = s' := by
  rw [final,h]

theorem final_error {p : EStateM ε σ α} {s s' : σ} {e : ε} (h : p s = .error e s') :
    final p s = s' := by
  rw [final,h]

theorem bind_error {p : EStateM ε σ α} {f : α → EStateM ε σ β} {s s' : σ} {e : ε}
    (h : p s = .error e s') : (p >>= f) s = .error e s' := by
  change EStateM.bind p f s = _
  unfold EStateM.bind
  rw [h]

theorem bind_ok {p : EStateM ε σ α} {f : α → EStateM ε σ β} {s s' : σ} {a : α}
    (h : p s = .ok a s') : (p >>= f) s = f a s' := by
  change EStateM.bind p f s = _
  unfold EStateM.bind
  rw [h]

theorem Grows.pure (a : α) : Grows trace (pure a : EStateM ε σ α) := fun _ => List.prefix_rfl

theorem Grows.throw (e : ε) : Grows trace (throw e : EStateM ε σ α) := fun _ => List.prefix_rfl

theorem Grows.get : Grows trace (get : EStateM ε σ σ) := fun _ => List.prefix_rfl

theorem Grows.modify {f : σ → σ} (h : ∀ s, trace s <+: trace (f s)) :
    Grows trace (modify f : EStateM ε σ PUnit) := h

theorem Grows.fromExcept (x : Except ε α) : Grows trace (fromExcept x : EStateM ε σ α) := by
  cases x with
  | ok a => exact Grows.pure a
  | error e => exact Grows.throw e

theorem Grows.bind {p : EStateM ε σ α} {f : α → EStateM ε σ β} (hp : Grows trace p)
    (hf : ∀ a, Grows trace (f a)) : Grows trace (p >>= f) := by
  intro s
  have hfirst := hp s
  cases h : p s with
  | ok a s' =>
    rw [final_bind_ok h]
    rw [final_ok h] at hfirst
    exact hfirst.trans (hf a s')
  | error e s' =>
    rw [final_bind_error h]
    rwa [final_error h] at hfirst

theorem Grows.ite {c : Prop} [Decidable c] {p q : EStateM ε σ α} (hp : Grows trace p)
    (hq : Grows trace q) : Grows trace (if c then p else q) := by
  split
  · exact hp
  · exact hq

theorem Grows.dite {c : Prop} [Decidable c] {p : c → EStateM ε σ α} {q : ¬c → EStateM ε σ α}
    (hp : ∀ h, Grows trace (p h)) (hq : ∀ h, Grows trace (q h)) :
    Grows trace (if h : c then p h else q h) := by
  split
  · exact hp _
  · exact hq _

theorem Grows.forM {f : κ → EStateM ε σ PUnit} (hf : ∀ x, Grows trace (f x)) (l : List κ) :
    Grows trace (forM l f) := by
  induction l with
  | nil => exact Grows.pure _
  | cons x xs ih =>
    rw [List.forM_cons]
    exact (hf x).bind fun _ => ih

theorem CutBy.refl (p : EStateM ε σ α) : CutBy stop trace p p := fun _ => .inl rfl

theorem CutBy.throw {e : ε} {q : EStateM ε σ α} (h : stop e) (hq : Grows trace q) :
    CutBy stop trace (throw e : EStateM ε σ α) q :=
  fun s => .inr ⟨e,s,rfl,h,hq s⟩

theorem CutBy.bind {p q : EStateM ε σ α} {f g : α → EStateM ε σ β} (hp : CutBy stop trace p q)
    (hf : ∀ a, CutBy stop trace (f a) (g a)) (hg : ∀ a, Grows trace (g a)) :
    CutBy stop trace (p >>= f) (q >>= g) := by
  intro s
  rcases hp s with hsame | ⟨e,s',hcut,hstop,hbefore⟩
  · cases hq : q s with
    | ok a s' =>
      have hpa := hsame.trans hq
      rw [bind_ok hpa,bind_ok hq,final_bind_ok hq]
      exact hf a s'
    | error e s' =>
      rw [bind_error (hsame.trans hq),bind_error hq]
      exact .inl rfl
  · refine .inr ⟨e,s',bind_error hcut,hstop,?_⟩
    cases hq : q s with
    | ok a t =>
      rw [final_ok hq] at hbefore
      rw [final_bind_ok hq]
      exact hbefore.trans (hg a t)
    | error e' t =>
      rw [final_error hq] at hbefore
      rwa [final_bind_error hq]

theorem CutBy.after {p : EStateM ε σ α} {f g : α → EStateM ε σ β}
    (hf : ∀ a, CutBy stop trace (f a) (g a)) : CutBy stop trace (p >>= f) (p >>= g) := by
  intro s
  cases hp : p s with
  | ok a s' =>
    rw [bind_ok hp,bind_ok hp,final_bind_ok hp]
    exact hf a s'
  | error e s' =>
    rw [bind_error hp,bind_error hp]
    exact .inl rfl

theorem CutBy.ite {c : Prop} [Decidable c] {p q p' q' : EStateM ε σ α}
    (hp : CutBy stop trace p p') (hq : CutBy stop trace q q') :
    CutBy stop trace (if c then p else q) (if c then p' else q') := by
  split
  · exact hp
  · exact hq

theorem CutBy.forM {f g : κ → EStateM ε σ PUnit} (hf : ∀ x, CutBy stop trace (f x) (g x))
    (hg : ∀ x, Grows trace (g x)) (l : List κ) : CutBy stop trace (forM l f) (forM l g) := by
  induction l with
  | nil => exact CutBy.refl _
  | cons x xs ih =>
    rw [List.forM_cons,List.forM_cons]
    exact (hf x).bind (fun _ => ih) fun _ => Grows.forM hg xs

end Cut

end Program

import MurlSystem.Foundation.Program

namespace Program

section Relational

variable {ε δ σ τ α β γ κ : Type}

def Back (E : σ → Prop) (p : EStateM ε σ α) : Prop := ∀ s a s', p s = .ok a s' → E s' → E s

def Follows (E : σ → Prop) (R : σ → τ → Prop) (Q : α → β → Prop) (p : EStateM ε σ α)
    (q : EStateM δ τ β) (s : σ) (t : τ) : Prop :=
  ∀ a s', p s = .ok a s' → E s' → ∃ b t', q t = .ok b t' ∧ R s' t' ∧ Q a b

variable {E : σ → Prop} {R : σ → τ → Prop} {Q : α → β → Prop}

theorem Back.pure (a : α) : Back E (pure a : EStateM ε σ α) := by
  intro s b s' h hE
  cases h
  exact hE

theorem Back.throw (e : ε) : Back E (throw e : EStateM ε σ α) := by
  intro s b s' h
  cases h

theorem Back.get : Back E (get : EStateM ε σ σ) := by
  intro s b s' h hE
  cases h
  exact hE

theorem Back.modify {f : σ → σ} (hf : ∀ s, E (f s) → E s) :
    Back E (modify f : EStateM ε σ PUnit) := by
  intro s b s' h hE
  cases h
  exact hf s hE

theorem Back.fromExcept (x : Except ε α) : Back E (fromExcept x) := by
  intro s a s' h hE
  obtain ⟨-,rfl⟩ := fromExcept_eq_ok.mp h
  exact hE

theorem Back.bind {p : EStateM ε σ α} {f : α → EStateM ε σ γ} (hp : Back E p)
    (hf : ∀ a, Back E (f a)) : Back E (p >>= f) := by
  intro s c s' h hE
  obtain ⟨a,s₁,h₁,h₂⟩ := bind_eq_ok.mp h
  exact hp s a s₁ h₁ (hf a s₁ c s' h₂ hE)

theorem Back.ite {c : Prop} [Decidable c] {p q : EStateM ε σ α} (hp : Back E p)
    (hq : Back E q) : Back E (if c then p else q) := by
  split
  · exact hp
  · exact hq

theorem Back.dite {c : Prop} [Decidable c] {p : c → EStateM ε σ α} {q : ¬c → EStateM ε σ α}
    (hp : ∀ h, Back E (p h)) (hq : ∀ h, Back E (q h)) :
    Back E (if h : c then p h else q h) := by
  split
  · exact hp _
  · exact hq _

theorem Back.forM {f : κ → EStateM ε σ PUnit} (hf : ∀ x, Back E (f x)) (l : List κ) :
    Back E (forM l f) := by
  induction l with
  | nil => exact Back.pure _
  | cons x xs ih =>
    rw [List.forM_cons]
    exact (hf x).bind fun _ => ih

def Keeps (I : σ → Prop) (p : EStateM ε σ α) : Prop := ∀ s a s', p s = .ok a s' → I s → I s'

theorem Keeps.of_back {I : σ → Prop} {p : EStateM ε σ α} (h : Back (fun s => ¬I s) p) :
    Keeps I p := by
  intro s a s' hp
  have hback := h s a s' hp
  exact not_imp_not.mp hback

theorem Keeps.back {I : σ → Prop} {p : EStateM ε σ α} (h : Keeps I p) :
    Back (fun s => ¬I s) p := by
  intro s a s' hp hno hI
  exact hno (h s a s' hp hI)

variable {s : σ} {t : τ}

theorem Follows.pure {a : α} {b : β} (hR : R s t) (hQ : Q a b) :
    Follows E R Q (pure a : EStateM ε σ α) (pure b : EStateM δ τ β) s t := by
  intro a' s' h _
  cases h
  exact ⟨b,t,rfl,hR,hQ⟩

theorem Follows.throw {e : ε} {q : EStateM δ τ β} :
    Follows E R Q (throw e : EStateM ε σ α) q s t := by
  intro a s' h
  cases h

theorem Follows.modify {f : σ → σ} {g : τ → τ} {Q : PUnit → PUnit → Prop} (hR : R (f s) (g t))
    (hQ : Q ⟨⟩ ⟨⟩) :
    Follows E R Q (modify f : EStateM ε σ PUnit) (modify g : EStateM δ τ PUnit) s t := by
  intro a s' h _
  cases h
  exact ⟨⟨⟩,g t,rfl,hR,hQ⟩

theorem Follows.fromExcept {x : Except ε α} {y : Except δ β} (hR : R s t)
    (h : ∀ a, x = .ok a → ∃ b, y = .ok b ∧ Q a b) :
    Follows E R Q (fromExcept x) (fromExcept y) s t := by
  intro a s' hx _
  obtain ⟨ha,rfl⟩ := fromExcept_eq_ok.mp hx
  obtain ⟨b,hb,hQ⟩ := h a ha
  exact ⟨b,t,fromExcept_eq_ok.mpr ⟨hb,rfl⟩,hR,hQ⟩

theorem Follows.bind {p : EStateM ε σ α} {q : EStateM δ τ β} {f : α → EStateM ε σ γ}
    {g : β → EStateM δ τ κ} {Q' : γ → κ → Prop} (hp : Follows E R Q p q s t)
    (hf : ∀ a b s' t', R s' t' → Q a b → Follows E R Q' (f a) (g b) s' t')
    (hback : ∀ a, Back E (f a)) : Follows E R Q' (p >>= f) (q >>= g) s t := by
  intro c s' h hE
  obtain ⟨a,s₁,h₁,h₂⟩ := bind_eq_ok.mp h
  obtain ⟨b,t₁,hq,hR,hQ⟩ := hp a s₁ h₁ (hback a s₁ c s' h₂ hE)
  obtain ⟨d,t',hg,hR',hQ'⟩ := hf a b s₁ t₁ hR hQ c s' h₂ hE
  exact ⟨d,t',bind_eq_ok.mpr ⟨b,t₁,hq,hg⟩,hR',hQ'⟩

theorem Follows.get_bind {f : σ → EStateM ε σ γ} {g : τ → EStateM δ τ κ} {Q' : γ → κ → Prop}
    (h : Follows E R Q' (f s) (g t) s t) : Follows E R Q' (get >>= f) (get >>= g) s t := by
  intro c s' hc hE
  obtain ⟨a,s₁,h₁,h₂⟩ := bind_eq_ok.mp hc
  cases h₁
  obtain ⟨d,t',hg,hrest⟩ := h c s' h₂ hE
  exact ⟨d,t',bind_eq_ok.mpr ⟨t,t,rfl,hg⟩,hrest⟩

theorem Follows.forM {f : κ → EStateM ε σ PUnit} {g : κ → EStateM δ τ PUnit} {l : List κ}
    (hf : ∀ x ∈ l, ∀ s t, R s t → Follows E R (fun _ _ => True) (f x) (g x) s t)
    (hback : ∀ x, Back E (f x)) (hR : R s t) :
    Follows E R (fun _ _ => True) (forM l f) (forM l g) s t := by
  induction l generalizing s t with
  | nil => exact Follows.pure hR trivial
  | cons x xs ih =>
    rw [List.forM_cons,List.forM_cons]
    refine (hf x List.mem_cons_self s t hR).bind ?_ fun _ => Back.forM hback xs
    intro _ _ s' t' hR' _
    exact ih (fun y hy => hf y (List.mem_cons_of_mem _ hy)) hR'

end Relational

end Program

import Mathlib.Data.List.Basic

namespace Program

universe u
variable {ε σ α β : Type u}

def wp (x : EStateM ε σ α) (Q : α → σ → Prop) (E : ε → σ → Prop) (s : σ) : Prop :=
  match x s with
  | .ok a s' => Q a s'
  | .error e s' => E e s'

def final (x : EStateM ε σ α) (s : σ) : σ :=
  match x s with
  | .ok _ s' => s'
  | .error _ s' => s'

def result : Except ε α → σ → EStateM.Result ε σ α
  | .ok a,s => .ok a s
  | .error e,s => .error e s

@[simp]
theorem wp_pure {Q : α → σ → Prop} {E : ε → σ → Prop} {s : σ} (a : α) :
    wp (pure a) Q E s ↔ Q a s := Iff.rfl

@[simp]
theorem wp_throw {Q : α → σ → Prop} {E : ε → σ → Prop} {s : σ} (e : ε) :
    wp (throw e) Q E s ↔ E e s := Iff.rfl

@[simp]
theorem wp_get {Q : σ → σ → Prop} {E : ε → σ → Prop} {s : σ} :
    wp (get : EStateM ε σ σ) Q E s ↔ Q s s := Iff.rfl

@[simp]
theorem wp_modify {Q : PUnit → σ → Prop} {E : ε → σ → Prop} {s : σ} (f : σ → σ) :
    wp (modify f : EStateM ε σ PUnit) Q E s ↔ Q ⟨⟩ (f s) := Iff.rfl

@[simp]
theorem wp_bind {Q : β → σ → Prop} {E : ε → σ → Prop} {s : σ} (x : EStateM ε σ α)
    (f : α → EStateM ε σ β) :
    wp (x >>= f) Q E s ↔ wp x (fun a s' => wp (f a) Q E s') E s := by
  change (match EStateM.bind x f s with | .ok a s' => Q a s' | .error e s' => E e s') ↔ _
  unfold wp EStateM.bind
  cases x s <;> rfl

@[simp]
theorem wp_ite {Q : α → σ → Prop} {E : ε → σ → Prop} {s : σ} (c : Prop) [Decidable c]
    (x y : EStateM ε σ α) :
    wp (if c then x else y) Q E s ↔ (c → wp x Q E s) ∧ (¬c → wp y Q E s) := by
  by_cases h : c <;> simp [h]

@[simp]
theorem wp_dite {Q : α → σ → Prop} {E : ε → σ → Prop} {s : σ} (c : Prop) [Decidable c]
    (x : c → EStateM ε σ α) (y : ¬c → EStateM ε σ α) :
    wp (if h : c then x h else y h) Q E s ↔ (∀ h, wp (x h) Q E s) ∧ (∀ h, wp (y h) Q E s) := by
  by_cases h : c <;> simp [h]

def fromExcept (x : Except ε α) : EStateM ε σ α :=
  match x with
  | .ok a => pure a
  | .error e => throw e

@[simp]
theorem wp_fromExcept {Q : α → σ → Prop} {E : ε → σ → Prop} {s : σ} (x : Except ε α) :
    wp (fromExcept x : EStateM ε σ α) Q E s ↔
      (∀ a, x = .ok a → Q a s) ∧ ∀ e, x = .error e → E e s := by
  cases x <;> simp [fromExcept]

theorem wp_mono {x : EStateM ε σ α} {Q Q' : α → σ → Prop} {E E' : ε → σ → Prop} {s : σ}
    (h : wp x Q E s) (hQ : ∀ a s', Q a s' → Q' a s') (hE : ∀ e s', E e s' → E' e s') :
    wp x Q' E' s := by
  unfold wp at h ⊢
  cases hx : x s with
  | ok a s' => rw [hx] at h; exact hQ a s' h
  | error e s' => rw [hx] at h; exact hE e s' h

theorem wp_and {x : EStateM ε σ α} {Q Q' : α → σ → Prop} {E E' : ε → σ → Prop} {s : σ}
    (h : wp x Q E s) (h' : wp x Q' E' s) :
    wp x (fun a s' => Q a s' ∧ Q' a s') (fun e s' => E e s' ∧ E' e s') s := by
  unfold wp at h h' ⊢
  cases hx : x s with
  | ok a s' => rw [hx] at h h'; exact ⟨h,h'⟩
  | error e s' => rw [hx] at h h'; exact ⟨h,h'⟩

theorem wp_of_result {x : EStateM ε σ α} {Q : α → σ → Prop} {E : ε → σ → Prop} {s : σ}
    (hQ : ∀ a s', x s = .ok a s' → Q a s') (hE : ∀ e s', x s = .error e s' → E e s') :
    wp x Q E s := by
  unfold wp
  cases hx : x s with
  | ok a s' => exact hQ a s' hx
  | error e s' => exact hE e s' hx

theorem wp_ok {x : EStateM ε σ α} {Q : α → σ → Prop} {E : ε → σ → Prop} {s s' : σ} {a : α}
    (h : wp x Q E s) (hx : x s = .ok a s') : Q a s' := by
  unfold wp at h
  rwa [hx] at h

theorem wp_error {x : EStateM ε σ α} {Q : α → σ → Prop} {E : ε → σ → Prop} {s s' : σ} {e : ε}
    (h : wp x Q E s) (hx : x s = .error e s') : E e s' := by
  unfold wp at h
  rwa [hx] at h

theorem wp_final {x : EStateM ε σ α} {P : σ → Prop} {s : σ}
    (h : wp x (fun _ => P) (fun _ => P) s) : P (final x s) := by
  unfold wp at h
  unfold final
  cases hx : x s with
  | ok a s' => rwa [hx] at h
  | error e s' => rwa [hx] at h

def okHolds (x : EStateM ε σ α) (p : α → σ → Bool) (s : σ) : Bool :=
  match x s with
  | .ok a s' => p a s'
  | .error _ _ => true

theorem wp_okHolds {x : EStateM ε σ α} {p : α → σ → Bool} {s : σ} :
    wp x (fun a s' => p a s' = true) (fun _ _ => True) s ↔ okHolds x p s = true := by
  unfold wp okHolds
  cases x s <;> simp

def finishes (x : EStateM ε σ α) (p : α → σ → Bool) (s : σ) : Bool :=
  match x s with
  | .ok a s' => p a s'
  | .error _ _ => false

theorem finishes_ok {x : EStateM ε σ α} {p : α → σ → Bool} {s : σ} (h : finishes x p s = true) :
    ∃ a s', x s = .ok a s' ∧ p a s' = true := by
  unfold finishes at h
  cases hx : x s with
  | ok a s' =>
    rw [hx] at h
    exact ⟨a,s',rfl,h⟩
  | error e s' =>
    rw [hx] at h
    cases h

def succeeds (x : EStateM ε σ α) (s : σ) : Bool :=
  match x s with
  | .ok _ _ => true
  | .error _ _ => false

theorem succeeds_ok {x : EStateM ε σ α} {s : σ} (h : succeeds x s = true) :
    ∃ a s', x s = .ok a s' := by
  unfold succeeds at h
  cases hx : x s with
  | ok a s' => exact ⟨a,s',rfl⟩
  | error e s' =>
    rw [hx] at h
    cases h

theorem bind_eq_ok {x : EStateM ε σ α} {f : α → EStateM ε σ β} {s t : σ} {b : β} :
    (x >>= f) s = .ok b t ↔ ∃ a s', x s = .ok a s' ∧ f a s' = .ok b t := by
  change EStateM.bind x f s = .ok b t ↔ _
  unfold EStateM.bind
  cases hx : x s with
  | ok a s' =>
    constructor
    · intro h
      exact ⟨a,s',rfl,h⟩
    · rintro ⟨a',s'',h,hf⟩
      cases h
      exact hf
  | error e s' =>
    constructor
    · intro h
      cases h
    · rintro ⟨a',s'',h,-⟩
      cases h

theorem fromExcept_eq_ok {x : Except ε α} {s t : σ} {a : α} :
    (fromExcept x : EStateM ε σ α) s = .ok a t ↔ x = .ok a ∧ t = s := by
  cases x with
  | ok b =>
    constructor
    · intro h
      cases h
      exact ⟨rfl,rfl⟩
    · rintro ⟨h,rfl⟩
      cases h
      rfl
  | error e =>
    constructor
    · intro h
      cases h
    · rintro ⟨h,-⟩
      cases h

theorem bind_congr_ok {x : EStateM ε σ α} {f g : α → EStateM ε σ β} {s : σ}
    (h : ∀ a s', x s = .ok a s' → f a s' = g a s') : (x >>= f) s = (x >>= g) s := by
  change EStateM.bind x f s = EStateM.bind x g s
  unfold EStateM.bind
  cases hx : x s with
  | ok a s' => exact h a s' hx
  | error e s' => rfl

section Loops

variable {ε σ : Type} {α : Type}

theorem wp_forM {f : α → EStateM ε σ PUnit} {I : List α → σ → Prop} {E : ε → σ → Prop}
    {l : List α} (done : List α)
    (hf : ∀ pre x post, done ++ l = pre ++ x :: post → done.length ≤ pre.length →
      ∀ s, I pre s → wp (f x) (fun _ => I (pre ++ [x])) E s)
    {s : σ} (hs : I done s) : wp (forM l f) (fun _ => I (done ++ l)) E s := by
  induction l generalizing done s with
  | nil => simpa using hs
  | cons x xs ih =>
    rw [List.forM_cons,wp_bind]
    refine wp_mono (hf done x xs rfl (Nat.le_refl _) s hs) ?_ (fun _ _ h => h)
    intro _ s' hs'
    have hrest := ih (done ++ [x]) (fun pre y post he hl => hf pre y post (by simpa using he)
      (Nat.le_trans (by simp) hl)) hs'
    simpa using hrest

theorem wp_forM_inv {f : α → EStateM ε σ PUnit} {I : σ → Prop} {E : ε → σ → Prop}
    {l : List α} (hf : ∀ x ∈ l, ∀ s, I s → wp (f x) (fun _ => I) E s)
    {s : σ} (hs : I s) : wp (forM l f) (fun _ => I) E s := by
  refine wp_forM (I := fun _ => I) [] ?_ hs
  intro pre x post he _ s hI
  exact hf x (by simp only [List.nil_append] at he; simp [he]) s hI

end Loops

end Program

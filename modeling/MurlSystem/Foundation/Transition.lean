import Mathlib.Logic.Relation

namespace Transition

universe u

structure System (σ : Type u) where
  init : σ → Prop
  step : σ → σ → Prop

variable {σ : Type u} {S : System σ}

def System.Path (S : System σ) : σ → σ → Prop := Relation.ReflTransGen S.step

def System.Reachable (S : System σ) (s : σ) : Prop := ∃ s₀, S.init s₀ ∧ S.Path s₀ s

def System.restrict (S : System σ) (C : σ → σ → Prop) : System σ :=
  ⟨S.init,fun s t => S.step s t ∧ C s t⟩

theorem exits {R : σ → σ → Prop} {I : σ → Prop} {s t : σ} (h : Relation.ReflTransGen R s t)
    (hs : I s) (ht : ¬I t) :
    ∃ u v, Relation.ReflTransGen R s u ∧ I u ∧ R u v ∧ ¬I v ∧ Relation.ReflTransGen R v t := by
  induction h with
  | refl => exact absurd hs ht
  | @tail u v hsu huv ih =>
    by_cases hu : I u
    · exact ⟨u,v,hsu,hu,huv,ht,.refl⟩
    · obtain ⟨w,x,hsw,hw,hwx,hx,hxu⟩ := ih hu
      exact ⟨w,x,hsw,hw,hwx,hx,hxu.tail huv⟩

theorem System.Path.single {s t : σ} (h : S.step s t) : S.Path s t :=
  Relation.ReflTransGen.single h

theorem System.Path.cons {s t u : σ} (h : S.step s t) (hp : S.Path t u) : S.Path s u :=
  Relation.ReflTransGen.head h hp

theorem System.Path.append {s t u : σ} (h : S.Path s t) (h' : S.Path t u) : S.Path s u :=
  Relation.ReflTransGen.trans h h'

theorem System.Path.preserves {I : σ → Prop} (hI : ∀ s t, I s → S.step s t → I t) {s t : σ}
    (h : S.Path s t) (hs : I s) : I t := by
  induction h with
  | refl => exact hs
  | tail _ hst ih => exact hI _ _ ih hst

theorem System.Reachable.path {s t : σ} (h : S.Reachable s) (hp : S.Path s t) :
    S.Reachable t := by
  obtain ⟨s₀,h0,hs⟩ := h
  exact ⟨s₀,h0,hs.append hp⟩

theorem System.invariant (I : σ → Prop) (base : ∀ s, S.init s → I s)
    (step : ∀ s t, S.Reachable s → I s → S.step s t → I t) {s : σ} (h : S.Reachable s) :
    I s := by
  obtain ⟨s₀,h0,hp⟩ := h
  have hstep : ∀ t u, S.Reachable t ∧ I t → S.step t u → S.Reachable u ∧ I u := by
    intro t u ⟨hr,hI⟩ htu
    exact ⟨hr.path (System.Path.single htu),step t u hr hI htu⟩
  have hstart : S.Reachable s₀ := ⟨s₀,h0,Relation.ReflTransGen.refl⟩
  exact (hp.preserves hstep ⟨hstart,base s₀ h0⟩).2

theorem System.Reachable.of_restrict {C : σ → σ → Prop} {s : σ} (h : (S.restrict C).Reachable s) :
    S.Reachable s := by
  obtain ⟨s₀,h0,hp⟩ := h
  have hle : (S.restrict C).step ≤ S.step := fun _ _ hstep => hstep.1
  exact ⟨s₀,h0,Relation.ReflTransGen.mono hle _ _ hp⟩

section Follow

variable {ε : Type} {next : σ → ε → Option σ}

def follow (next : σ → ε → Option σ) : σ → List ε → Option σ
  | s,[] => some s
  | s,e :: es => (next s e).bind fun t => follow next t es

theorem follow_path (hnext : ∀ s e t, next s e = some t → S.step s t) {s t : σ} {es : List ε}
    (h : follow next s es = some t) : S.Path s t := by
  induction es generalizing s with
  | nil =>
    cases h
    exact .refl
  | cons e es ih =>
    obtain ⟨u,hu,hrest⟩ := Option.bind_eq_some_iff.mp h
    exact System.Path.cons (hnext s e u hu) (ih hrest)

end Follow

end Transition

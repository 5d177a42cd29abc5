import Mathlib.Data.List.Basic

namespace Component

variable {σ τ ω α : Type}

def run (act : σ → ω → α × σ) : σ → List ω → List (ω × α) × σ
  | s,[] => ([],s)
  | s,op :: ops =>
    let next := act s op
    let rest := run act next.2 ops
    ((op,next.1) :: rest.1,rest.2)

abbrev Spec (τ ω α : Type) := τ → ω → α → τ → Prop

inductive Allows (spec : Spec τ ω α) : τ → List (ω × α) → τ → Prop
  | done (t : τ) : Allows spec t [] t
  | more {t t₁ t₂ : τ} {op : ω} {answer : α} {log : List (ω × α)} (one : spec t op answer t₁)
      (rest : Allows spec t₁ log t₂) : Allows spec t ((op,answer) :: log) t₂

variable {act : σ → ω → α × σ} {spec : Spec τ ω α}

theorem run_allowed {view : σ → τ}
    (refines : ∀ s op, spec (view s) op (act s op).1 (view (act s op).2)) (s : σ) (ops : List ω) :
    Allows spec (view s) (run act s ops).1 (view (run act s ops).2) := by
  induction ops generalizing s with
  | nil => exact .done _
  | cons op ops ih => exact .more (refines s op) (ih _)

theorem Allows.preserves {I : τ → Prop}
    (kept : ∀ t op answer t', I t → spec t op answer t' → I t') {t t' : τ} {log : List (ω × α)}
    (h : Allows spec t log t') (ht : I t) : I t' := by
  induction h with
  | done => exact ht
  | more one rest ih => exact ih (kept _ _ _ _ ht one)

end Component

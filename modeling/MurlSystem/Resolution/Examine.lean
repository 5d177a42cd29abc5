import MurlSystem.Resolution.Walk

namespace MurlSystem

open Program

def Noted (r r' : Run) : Prop := ∃ ws ticks, r' = r.note ws ticks

theorem Noted.refl (r : Run) : Noted r r := ⟨[],0,by simp [Run.note]⟩

theorem Noted.said (r : Run) (ws : List String) : Noted r (r.note ws 0) := ⟨ws,0,rfl⟩

theorem Noted.warn (r : Run) (w : String) : Noted r (r.warn w) := ⟨[w],0,rfl⟩

section Primitives

variable {E : Error → Run → Prop} {r : Run}

@[simp]
theorem wp_warn {Q : Unit → Run → Prop} (w : String) :
    wp (warn w) Q E r ↔ Q () (r.warn w) := Iff.rfl

@[simp]
theorem wp_nowEpoch {Q : Nat → Run → Prop} (env : Env) :
    wp (nowEpoch env) Q E r ↔ Q (env.clock r.ticks) r.tick := Iff.rfl

theorem wp_warn_when {Q : Unit → Run → Prop} {c : Bool} {w : String}
    (h : ∀ ws, Q () (r.note ws 0)) : wp (warnWhen c w) Q E r := by
  unfold warnWhen
  cases c with
  | true => exact h [w]
  | false =>
    have hnone : r.note [] 0 = r := by simp [Run.note]
    rw [if_neg (by simp),wp_pure,← hnone]
    exact h []

theorem wp_warn_each {α : Type} {f : α → String} {l : List α} {Q : Unit → Run → Prop}
    (h : ∀ ws, Q () (r.note ws 0)) : wp (forM l fun a => warn (f a)) Q E r := by
  have hall : wp (forM l fun a => warn (f a)) (fun _ r' => ∃ ws, r' = r.note ws 0) E r := by
    refine wp_forM_inv ?_ ⟨[],by simp [Run.note]⟩
    rintro a _ s ⟨ws,rfl⟩
    exact ⟨ws ++ [f a],by simp [Run.note,Run.warn]⟩
  refine wp_mono hall ?_ (fun _ _ he => he)
  rintro _ r' ⟨ws,rfl⟩
  exact h ws

end Primitives

section Examine

variable (env : Env) (murl : Option Murl) (bytes : Bytes) (origin : Origin)

structure Examined (manifest : Manifest) (verified : Option VerifiedSignature) : Prop where
  parsed : Manifest.fromSlice env.crates bytes env.limits = .ok manifest
  valid : (manifest.validate env.crates).errors = []
  verified : verifyManifest env.crates manifest.raw = .ok verified
  bound : bindIdentity murl origin manifest.doc = .ok ()

def nodeOf (depth : Nat) (manifest : Manifest) (verified : Option VerifiedSignature) (now : Nat) :
    ResolvedNode :=
  ⟨murl.map Murl.identity,origin,manifest,bytes,trustOf env murl origin verified,depth,
    isExpired manifest.doc now,isPremature manifest.doc now⟩

variable {env murl bytes origin}

theorem Examined.manifest_eq {manifest manifest' : Manifest} {verified : Option VerifiedSignature}
    (h : Examined env murl bytes origin manifest verified)
    (parsed : Manifest.fromSlice env.crates bytes env.limits = .ok manifest') :
    manifest = manifest' := Except.ok.inj (h.parsed.symm.trans parsed)

theorem wp_examine {depth : Nat} {r : Run} {Q : ResolvedNode → Run → Prop}
    {E : Error → Run → Prop}
    (hpass : ∀ manifest verified ws, Examined env murl bytes origin manifest verified →
      Q (nodeOf env murl bytes origin depth manifest verified (env.clock r.ticks)) (r.note ws 1))
    (hfail : ∀ e ws n, (∀ manifest verified, ¬Examined env murl bytes origin manifest verified) →
      E e (r.note ws n)) :
    wp (examine env murl bytes origin depth) Q E r := by
  unfold examine
  dsimp only
  rw [wp_bind,wp_fromExcept]
  refine ⟨?_,?_⟩
  · intro manifest hparsed
    generalize hreported : manifest.validate env.crates = report
    rw [wp_bind]
    refine wp_warn_each ?_
    intro ws₁
    rw [wp_bind,wp_fromExcept]
    refine ⟨?_,?_⟩
    · intro _ hreport
      rw [wp_bind,wp_fromExcept]
      refine ⟨?_,?_⟩
      · intro verified hverified
        rw [wp_bind]
        refine wp_warn_when ?_
        intro ws₂
        rw [wp_bind,wp_fromExcept]
        refine ⟨?_,?_⟩
        · intro _ hbound
          rw [wp_bind,wp_nowEpoch,wp_bind]
          refine wp_warn_when ?_
          intro ws₃
          rw [wp_bind]
          refine wp_warn_when ?_
          intro ws₄
          have hnode := hpass manifest verified (ws₁ ++ (ws₂ ++ (ws₃ ++ ws₄)))
            ⟨hparsed,hreported ▸ ValidationReport.intoResult_ok.mp hreport,hverified,hbound⟩
          have hrun : (((r.note ws₁ 0).note ws₂ 0).tick.note ws₃ 0).note ws₄ 0 =
              r.note (ws₁ ++ (ws₂ ++ (ws₃ ++ ws₄))) 1 := by
            simp [Run.note,Run.tick]
          rw [wp_pure,hrun]
          exact hnode
        · intro e he
          have hrun : (r.note ws₁ 0).note ws₂ 0 = r.note (ws₁ ++ ws₂) 0 := by simp [Run.note]
          rw [hrun]
          refine hfail e _ 0 ?_
          intro manifest' verified' h
          obtain rfl := h.manifest_eq hparsed
          cases he.symm.trans h.bound
      · intro e he
        refine hfail e _ 0 ?_
        intro manifest' verified' h
        obtain rfl := h.manifest_eq hparsed
        cases he.symm.trans h.verified
    · intro e he
      refine hfail e _ 0 ?_
      intro manifest' verified' h
      obtain rfl := h.manifest_eq hparsed
      rw [← hreported,ValidationReport.intoResult_ok.mpr h.valid] at he
      cases he
  · intro e he
    have hsame : r.note [] 0 = r := by simp [Run.note]
    rw [← hsame]
    refine hfail e [] 0 ?_
    intro manifest verified h
    cases he.symm.trans h.parsed

end Examine

theorem examine_spec (env : Env) (req : Request) (bytes : Bytes) (origin : Origin) (r : Run) :
    wp (examine env req.murl bytes origin req.depth)
      (fun node r' => Noted r r' ∧ Admitted env req bytes origin node)
      (fun _ r' => Noted r r') r := by
  refine wp_examine ?_ ?_
  · intro manifest verified ws h
    exact ⟨⟨ws,1,rfl⟩,rfl,rfl,rfl,rfl,h.parsed,h.valid,h.bound,verified,h.verified,rfl⟩
  · intro e ws n _
    exact ⟨ws,n,rfl⟩

end MurlSystem

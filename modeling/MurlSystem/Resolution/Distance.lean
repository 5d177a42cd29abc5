import MurlSystem.Resolution.Outcome
import MurlSystem.Resolution.Shape

namespace MurlSystem

open Program

def Run.nests (r : Run) (p k : Nat) : Prop :=
  ∃ call, r.calls[k]? = some call ∧ call.parent = some p

def Run.above (r : Run) : Nat → Nat → Prop := Relation.ReflTransGen r.nests

structure Farther (ref : TargetRef) (r : Run) : Prop where
  root : ∀ a ∈ r.log, a.parent = none → ∃ m, ref = .murl m ∧ a.murl = m.unselected
  path : ∀ a ∈ r.log, ∀ p, a.parent = some p → ∀ k, r.above k p →
    ∃ source, r.locality k = some source ∧ source ≤ Locality.of a.murl.authority
  network : ∀ a ∈ r.log, ∀ p, a.parent = some p → ∀ k, r.above k p →
    r.locality k = some .network → Locality.of a.murl.authority = .network

structure LogFar (ref : TargetRef) (r : Run) : Prop where
  root : ∀ a ∈ r.log, a.parent = none → ∃ m, ref = .murl m ∧ a.murl = m.unselected
  parent : ∀ a ∈ r.log, ∀ p, a.parent = some p →
    ∃ source, r.locality p = some source ∧ source ≤ Locality.of a.murl.authority

section Runs

variable {env : Env} {cache : Cache} {ref : TargetRef}

theorem Step.locality_mono {c c' : Config} (h : Step env c c') (hshape : Shape env ref c)
    {k : Nat} {l : Locality} (hk : c.run.locality k = some l) : c'.run.locality k = some l := by
  rcases h.node_cases with ⟨hn,hc⟩ | ⟨node,call,hrun,-⟩
  · rw [locality_congr hn hc]
    exact hk
  · rw [hrun]
    exact Run.locality_pushNode_old hshape.calls hk

theorem LogFar.step {c c' : Config} (h : LogFar ref c.run) (hshape : Shape env ref c)
    (hs : Step env c c') : LogFar ref c'.run := by
  rcases hs.log_cases with ⟨hlog,-,-⟩ | ⟨req,m,hseek,hm,-,hloc⟩
  · constructor
    · intro a ha
      rw [hlog] at ha
      exact h.root a ha
    · intro a ha p hp
      rw [hlog] at ha
      obtain ⟨source,hsource,hle⟩ := h.parent a ha p hp
      exact ⟨source,hs.locality_mono hshape hsource,hle⟩
  · have hreq : RequestOk env ref c.run req := hshape.frames _ hseek
    obtain ⟨acts,hlog,-,-⟩ := hloc.effect
    have hnew : ∀ a ∈ c'.run.log, a ∈ c.run.log ∨ (a.parent = req.parent ∧
        a.murl = m.unselected) := by
      intro a ha
      rw [hlog] at ha
      rcases List.mem_append.mp ha with ha | ha
      · exact .inl ha
      · obtain ⟨act,-,rfl⟩ := List.mem_map.mp ha
        exact .inr ⟨rfl,rfl⟩
    constructor
    · intro a ha hnone
      rcases hnew a ha with ha | ⟨hp,hmurl⟩
      · exact h.root a ha hnone
      · exact ⟨m,(hreq.root (hp ▸ hnone)).2 m hm,hmurl⟩
    · intro a ha p hp
      rcases hnew a ha with ha | ⟨hparent,hmurl⟩
      · obtain ⟨source,hsource,hle⟩ := h.parent a ha p hp
        exact ⟨source,hs.locality_mono hshape hsource,hle⟩
      · obtain ⟨source,m',hsource,hm',hle⟩ := hreq.parent p (hparent ▸ hp)
        obtain rfl : m = m' := by simpa [hm] using hm'
        rw [hmurl]
        exact ⟨source,hs.locality_mono hshape hsource,hle⟩

theorem LogFar.reachable {c : Config} (h : (walkSystem env cache ref).Reachable c) :
    LogFar ref c.run := by
  refine Transition.System.invariant (fun c => LogFar ref c.run) ?_ ?_ h
  · intro c₀ h₀
    cases h₀ with
    | named m => exact ⟨by simp [Run.pushStack,Run.start],by simp [Run.pushStack,Run.start]⟩
    | file path bytes hread => exact ⟨by simp [Run.start],by simp [Run.start]⟩
  · intro c c' hc hI hs
    exact hI.step (Shape.reachable hc) hs

theorem Shape.above_locality {c : Config} (h : Shape env ref c) {k p : Nat} {here : Locality}
    (habove : c.run.above k p) (hp : c.run.locality p = some here) :
    ∃ source, c.run.locality k = some source ∧ source ≤ here := by
  induction habove using Relation.ReflTransGen.head_induction_on with
  | refl => exact ⟨here,hp,le_refl here⟩
  | head hnest _ ih =>
    obtain ⟨call,hcall,hparent⟩ := hnest
    obtain ⟨mid,hmid,hle⟩ := ih
    obtain ⟨-,source,mid',hsource,hmid',hle'⟩ := h.nested _ call _ hcall hparent
    obtain rfl : mid = mid' := by simpa [hmid] using hmid'
    exact ⟨source,hsource,le_trans hle' hle⟩

theorem Reaches.farther {r : Run} (h : Reaches env cache ref r) : Farther ref r := by
  obtain ⟨fs,hr⟩ := h
  have hshape := Shape.reachable hr
  have hlog := LogFar.reachable hr
  have hpath : ∀ a ∈ r.log, ∀ p, a.parent = some p → ∀ k, r.above k p →
      ∃ source, r.locality k = some source ∧ source ≤ Locality.of a.murl.authority := by
    intro a ha p hp k hk
    obtain ⟨here,hhere,hle⟩ := hlog.parent a ha p hp
    obtain ⟨source,hsource,hle'⟩ := hshape.above_locality hk hhere
    exact ⟨source,hsource,le_trans hle' hle⟩
  refine ⟨hlog.root,hpath,?_⟩
  intro a ha p hp k hk hnet
  obtain ⟨source,hsource,hle⟩ := hpath a ha p hp k hk
  obtain rfl : Locality.network = source := by simpa [hnet] using hsource
  exact le_antisymm (Locality.le_network _) hle

theorem resolveRef_farther (env : Env) (cache : Cache) (ref : TargetRef) :
    Farther ref (final (resolveRef env ref) (Run.start cache)) := by
  have hstop := resolveRef_final env cache ref
  generalize final (resolveRef env ref) (Run.start cache) = last at hstop ⊢
  cases hstop with
  | unread => exact ⟨by simp [Run.start],by simp [Run.start],by simp [Run.start]⟩
  | reached r stack h =>
    have hfar := h.farther
    exact ⟨hfar.root,hfar.path,hfar.network⟩

end Runs

end MurlSystem

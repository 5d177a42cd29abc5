import MurlSystem.Resolution.Budget

namespace MurlSystem

open Program

structure Produced (env : Env) (res : Resolution) : Prop where
  root : res.nodes ≠ []
  valid : ∀ node ∈ res.nodes, (node.manifest.validate env.crates).errors = []
  planned : ∀ pr ∈ res.resources, ∃ node, res.nodes[pr.node]? = some node ∧
    pr.resource ∈ node.manifest.doc.resources
  tier : ∀ pr ∈ res.resources, pr.tier = classify pr.kind pr.resource.target

section Produced

variable {env : Env} {cache : Cache} {ref : TargetRef}

theorem nodes_valid {c : Config} (h : (walkSystem env cache ref).Reachable c) :
    ∀ node ∈ c.run.st.nodes, (node.manifest.validate env.crates).errors = [] := by
  refine Transition.System.invariant (fun c : Config =>
    ∀ node ∈ c.run.st.nodes, (node.manifest.validate env.crates).errors = []) ?_ ?_ h
  · intro c₀ h₀
    cases h₀ with
    | named m => simp [Run.pushStack,Run.start]
    | file path bytes hread => simp [Run.start]
  · intro c c' _ hI hs node hnode
    rcases hs.node_cases with ⟨hn,-⟩ | ⟨new,call,hrun,hvalid⟩
    · rw [hn] at hnode
      exact hI node hnode
    · have hnodes : node ∈ c.run.st.nodes ++ [new] := by
        rw [hrun] at hnode
        exact hnode
      rcases List.mem_append.mp hnodes with hold | hnew
      · exact hI node hold
      · rw [List.mem_singleton.mp hnew]
        exact hvalid

theorem Finished.produced {r : Run} {res : Resolution} (h : Finished env cache ref r)
    (hres : finish r.st ref.selector = .ok res) : Produced env res := by
  obtain ⟨hnodes,-,hsub⟩ := finish_ok hres
  cases h with
  | all r stack site rs h =>
    have hnodes : res.nodes = r.st.nodes := hnodes
    have hsub : res.resources.Sublist r.st.resources := hsub
    have hplan := PlanOk.reachable h
    refine ⟨?_,?_,?_,?_⟩
    · rw [hnodes]
      obtain ⟨node,hnode,-⟩ := (Shape.reachable h).topSite.node
      exact List.ne_nil_of_mem (List.mem_of_getElem? hnode)
    · rw [hnodes]
      exact nodes_valid h
    · intro pr hpr
      rw [hnodes]
      exact (hplan.planned pr (hsub.subset hpr)).node
    · intro pr hpr
      exact (hplan.planned pr (hsub.subset hpr)).tier

theorem resolveRef_produced (env : Env) (cache : Cache) (ref : TargetRef) :
    wp (resolveRef env ref) (fun res _ => Produced env res) (fun _ _ => True)
      (Run.start cache) := by
  refine wp_mono (resolveRef_spec env cache ref) ?_ (fun _ _ _ => trivial)
  rintro res r ⟨hfinished,hres⟩
  exact hfinished.produced hres

end Produced

section Policy

structure Decided (policy : Policy) (res : Resolution) : Prop where
  root : res.nodes ≠ []
  decided : ∀ pr ∈ res.resources, ∃ node, res.nodes[pr.node]? = some node ∧
    pr.decision = some (policy.evaluate pr.kind pr.tier node.evalContext)

theorem Produced.decided {env : Env} {res : Resolution} (h : Produced env res) (policy : Policy) :
    Decided policy (res.applyPolicy policy) := by
  refine ⟨h.root,?_⟩
  intro pr hpr
  obtain ⟨old,hold,rfl⟩ := List.mem_map.mp hpr
  obtain ⟨node,hnode,-⟩ := h.planned old hold
  have hdecide : PlannedResource.decide policy res.nodes old =
      { old with decision := some (policy.evaluate old.kind old.tier node.evalContext) } := by
    simp [PlannedResource.decide,hnode]
  rw [hdecide]
  exact ⟨node,hnode,rfl⟩

end Policy

end MurlSystem

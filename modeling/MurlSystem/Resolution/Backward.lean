import MurlSystem.Foundation.Relational
import MurlSystem.Resolution.Locate

namespace MurlSystem

open Program

def Run.core (r : Run) : List ResolvedNode × Nat × Cache × List Access × List Call × Nat :=
  (r.st.nodes,r.st.manifests,r.cache,r.log,r.calls,r.ticks)

class Unmoved (E : Run → Prop) : Prop where
  same : ∀ r r' : Run, r'.core = r.core → E r' → E r

class Growing (E : Run → Prop) : Prop where
  back : ∀ r r' : Run, r.st.nodes <+: r'.st.nodes → r.st.manifests ≤ r'.st.manifests → E r' → E r

instance (E : Run → Prop) [Growing E] : Unmoved E where
  same := by
    intro r r' h
    simp only [Run.core,Prod.mk.injEq] at h
    exact Growing.back r r' (by rw [h.1]) (by rw [h.2.1])

section Backward

variable {env : Env} {E : Run → Prop}

variable [Unmoved E]

theorem back_modify {f : Run → Run} (h : ∀ r, (f r).core = r.core) :
    Back E (modify f : ResolveM PUnit) := Back.modify fun r => Unmoved.same r (f r) (h r)

theorem back_warn (w : String) : Back (E) (warn w) := back_modify fun _ => rfl

theorem back_warnWhen (c : Bool) (w : String) : Back (E) (warnWhen c w) := by
  unfold warnWhen
  exact Back.ite (back_warn w) (Back.pure _)

theorem back_planResource (site : Site) (i : Nat) (doc : ResourceDoc) (kind : Kind) :
    Back (E) (planResource env site i doc kind) := by
  unfold planResource
  refine Back.get.bind fun run => Back.ite (Back.throw _) (Back.ite ?_ ?_)
  · exact Back.bind (back_warn _) fun _ => back_modify fun _ => rfl
  · exact Back.bind (back_modify fun _ => rfl) fun _ => back_modify fun _ => rfl

theorem back_crossingWarning (site : Site) (child : Murl) :
    Back (E) (crossingWarning site child) := by
  unfold crossingWarning
  cases site.murl with
  | none => exact Back.pure _
  | some parent => exact back_warnWhen _ _

theorem back_spliceChild {site : Site}
    {recur : Murl → Option String → Option String → Nat → ResolveM Unit}
    (hrec : ∀ child anchor pin node, Back (E) (recur child anchor pin node)) (i : Nat)
    (doc : ResourceDoc) (child : Murl) : Back (E) (spliceChild site recur i doc child) := by
  unfold spliceChild
  refine Back.get.bind fun run => Back.ite (Back.throw _) (Back.ite ?_ ?_)
  · exact Back.bind (back_warn _) fun _ => back_modify fun _ => rfl
  · refine Back.bind (back_crossingWarning _ _) fun _ =>
      Back.bind (back_modify fun _ => rfl) fun _ =>
      Back.bind (back_modify fun _ => rfl) fun _ => Back.bind (hrec _ _ _ _) fun _ => ?_
    exact Back.bind (back_modify fun _ => rfl) fun _ => back_modify fun _ => rfl

theorem back_spliceNested {site : Site}
    {recur : site.depth + 1 ≤ env.limits.maxDepth →
      Murl → Option String → Option String → Nat → ResolveM Unit}
    (hrec : ∀ hd child anchor pin node, Back (E) (recur hd child anchor pin node)) (i : Nat)
    (doc : ResourceDoc) : Back (E) (spliceNested env site recur i doc) := by
  unfold spliceNested
  refine Back.bind (Back.fromExcept _) fun child => Back.ite (Back.throw _) ?_
  refine Back.bind (back_warnWhen _ _) fun _ => Back.dite (fun hd => ?_) fun _ => Back.throw _
  exact back_spliceChild (hrec hd) _ _ _

theorem back_spliceResource {site : Site}
    {recur : site.depth + 1 ≤ env.limits.maxDepth →
      Murl → Option String → Option String → Nat → ResolveM Unit}
    (hrec : ∀ hd child anchor pin node, Back (E) (recur hd child anchor pin node))
    (rs : List ResourceDoc) (i : Nat) : Back (E) (spliceResource env site recur rs i) := by
  unfold spliceResource
  cases rs[i]? with
  | none => exact Back.pure _
  | some doc =>
    exact Back.bind (Back.fromExcept _) fun kind =>
      Back.ite (back_spliceNested hrec i doc) (back_planResource _ _ _ _)

end Backward

section Growing

variable {env : Env} {E : Run → Prop} [Growing E]

theorem back_of_growth {α : Type} {p : ResolveM α} (h : ∀ s a s', p s = .ok a s' →
    s.st.nodes <+: s'.st.nodes ∧ s.st.manifests ≤ s'.st.manifests) : Back E p := by
  intro s a s' hp
  obtain ⟨hnodes,hmanifests⟩ := h s a s' hp
  exact Growing.back s s' hnodes hmanifests

theorem back_locate (parent : Option Nat) (m : Murl) : Back E (locate env parent m) := by
  refine back_of_growth ?_
  rintro s ⟨bytes,origin⟩ s' h
  obtain ⟨⟨ws,hst⟩,-,-,-⟩ := (locate_ok h).1
  rw [hst]
  exact ⟨List.prefix_rfl,Nat.le_refl _⟩

theorem back_examine (murl : Option Murl) (bytes : Bytes) (origin : Origin) (depth : Nat) :
    Back E (examine env murl bytes origin depth) := by
  refine back_of_growth ?_
  intro s node s' h
  obtain ⟨⟨ws,n,rfl⟩,-⟩ := wp_ok (examine_spec env ⟨murl,depth,none,none,none⟩ bytes origin s) h
  exact ⟨List.prefix_rfl,Nat.le_refl _⟩

theorem back_countManifest : Back E (countManifest env) := by
  unfold countManifest
  refine Back.bind (Back.modify fun r => ?_) fun _ => Back.bind Back.get fun _ => ?_
  · exact Growing.back r r.count List.prefix_rfl (Nat.le_succ _)
  · exact Back.ite (Back.throw _) (Back.pure _)

theorem back_ingestBytes {depth : Nat}
    {recur : depth + 1 ≤ env.limits.maxDepth →
      Murl → Option String → Option String → Nat → ResolveM Unit}
    (hrec : ∀ hd child anchor pin node, Back (E) (recur hd child anchor pin node))
    (murl : Option Murl) (bytes : Bytes) (origin : Origin) (anchor : Option String)
    (parent : Option Nat) :
    Back (E) (ingestBytes env depth recur murl bytes origin anchor parent) := by
  unfold ingestBytes
  refine (back_examine _ _ _ _).bind fun node => Back.get.bind fun run => ?_
  refine Back.bind (Back.modify fun r => ?_) fun _ => (Back.fromExcept _).bind fun order => ?_
  · exact Growing.back r _ (List.prefix_append r.st.nodes [node]) (Nat.le_refl _)
  · exact Back.forM (back_spliceResource hrec _) order

theorem back_ingestNamed (m : Murl) (depth : Nat) (anchor pin : Option String)
    (parent : Option Nat) : Back (E) (ingestNamed env m depth anchor pin parent) := by
  induction hn : env.limits.maxDepth - depth using Nat.strong_induction_on
    generalizing m depth anchor pin parent with
  | _ n ih =>
    rw [ingestNamed]
    refine back_countManifest.bind fun _ => (back_locate _ _).bind fun got =>
      (Back.fromExcept _).bind fun _ => ?_
    refine back_ingestBytes ?_ _ _ _ _ _
    intro hd child anchor' pin' node
    exact ih (env.limits.maxDepth - (depth + 1)) (by omega) child (depth + 1) anchor' pin' _ rfl

end Growing

section Entered

variable {env : Env} {I : Run → Prop}

structure Entered (env : Env) (m : Murl) (depth : Nat) (integrity : Option String)
    (parent : Option Nat) (s s' : Run) (bytes : Bytes) (origin : Origin) (s₁ s₂ : Run)
    (node : ResolvedNode) : Prop where
  room : s.st.manifests + 1 ≤ env.limits.maxNestedManifests
  located : locate env parent m s.count = .ok (bytes,origin) s₁
  pin : checkPin env bytes integrity = .ok ()
  examined : examine env (some m) bytes origin depth s₁ = .ok node s₂
  after : s' = s₂.pushNode node ⟨parent,some m.unselected⟩

theorem Entered.counted {m : Murl} {depth : Nat} {pin : Option String} {parent : Option Nat}
    {s s' s₁ s₂ : Run} {bytes : Bytes} {origin : Origin} {node : ResolvedNode}
    (h : Entered env m depth pin parent s s' bytes origin s₁ s₂ node) :
    s'.st.nodes = s.st.nodes ++ [node] ∧ s'.st.manifests = s.st.manifests + 1 := by
  obtain ⟨⟨ws,hst⟩,-,-,-⟩ := (locate_ok h.located).1
  obtain ⟨⟨ws',ticks,hnoted⟩,-⟩ :=
    wp_ok (examine_spec env ⟨some m,depth,none,none,none⟩ bytes origin s₁) h.examined
  rw [h.after,hnoted]
  refine ⟨?_,?_⟩
  · change s₁.st.nodes ++ [node] = _
    rw [hst]
    rfl
  · change s₁.st.manifests = _
    rw [hst]
    rfl

theorem countManifest_ok {s s' : Run} (h : countManifest env s = .ok () s') :
    s' = s.count ∧ s.st.manifests + 1 ≤ env.limits.maxNestedManifests := by
  unfold countManifest at h
  obtain ⟨_,_,hmodify,h⟩ := bind_eq_ok.mp h
  cases hmodify
  obtain ⟨_,_,hget,h⟩ := bind_eq_ok.mp h
  cases hget
  split at h
  · cases h
  · rename_i hroom
    cases h
    exact ⟨rfl,not_lt.mp hroom⟩

theorem ingestBytes_ok {depth : Nat}
    {recur : depth + 1 ≤ env.limits.maxDepth →
      Murl → Option String → Option String → Nat → ResolveM Unit}
    {murl : Option Murl} {bytes : Bytes} {origin : Origin} {anchor : Option String}
    {parent : Option Nat} {s s' : Run}
    (h : ingestBytes env depth recur murl bytes origin anchor parent s = .ok () s') :
    ∃ node s₂ order, examine env murl bytes origin depth s = .ok node s₂ ∧
      executionOrder node.manifest.doc.resources = .ok order ∧
      forM order (spliceResource env ⟨murl,labelOf murl origin,Locality.ofSource origin murl,depth,
          anchor,s₂.st.nodes.length⟩ recur node.manifest.doc.resources)
        (s₂.pushNode node ⟨parent,murl.map Murl.unselected⟩) = .ok () s' := by
  unfold ingestBytes at h
  obtain ⟨node,s₂,hexamine,h⟩ := bind_eq_ok.mp h
  obtain ⟨run,s₃,hget,h⟩ := bind_eq_ok.mp h
  cases hget
  obtain ⟨_,s₄,hpush,h⟩ := bind_eq_ok.mp h
  cases hpush
  obtain ⟨order,s₅,horder,h⟩ := bind_eq_ok.mp h
  obtain ⟨horder,rfl⟩ := fromExcept_eq_ok.mp horder
  refine ⟨node,s₂,order,hexamine,?_,h⟩
  cases ho : executionOrder node.manifest.doc.resources with
  | error e =>
    rw [ho] at horder
    cases horder
  | ok order' =>
    rw [ho] at horder
    cases horder
    rfl

theorem keeps_ingestNamed [Unmoved fun r => ¬I r]
    (hhead : ∀ m depth pin parent s s' bytes origin s₁ s₂ node,
      Entered env m depth pin parent s s' bytes origin s₁ s₂ node → I s → I s')
    (m : Murl) (depth : Nat) (anchor pin : Option String) (parent : Option Nat) :
    Keeps I (ingestNamed env m depth anchor pin parent) := by
  induction hn : env.limits.maxDepth - depth using Nat.strong_induction_on
    generalizing m depth anchor pin parent with
  | _ n ih =>
    intro s _ s' h hI
    rw [ingestNamed] at h
    obtain ⟨_,s₀,hcount,h⟩ := bind_eq_ok.mp h
    obtain ⟨rfl,hroom⟩ := countManifest_ok hcount
    obtain ⟨⟨bytes,origin⟩,s₁,hgot,h⟩ := bind_eq_ok.mp h
    obtain ⟨_,s₂,hchecked,hread⟩ := bind_eq_ok.mp h
    obtain ⟨hpin,hsame⟩ := fromExcept_eq_ok.mp hchecked
    rw [hsame] at hread
    obtain ⟨node,s₃,order,hexamine,-,hrest⟩ := ingestBytes_ok hread
    have hentered := hhead m depth pin parent s _ bytes origin s₁ s₃ node
      ⟨hroom,hgot,hpin,hexamine,rfl⟩ hI
    refine Keeps.of_back (Back.forM (back_spliceResource ?_ _) order) _ _ _ hrest hentered
    intro (hd : depth + 1 ≤ env.limits.maxDepth) child anchor' pin' k
    exact (ih (env.limits.maxDepth - (depth + 1)) (by omega) child (depth + 1) anchor' pin' _
      rfl).back

end Entered

section Finished

variable {env : Env} {res : Resolution} {s r : Run}

theorem resolve_runs {m : Murl} : resolve env m s = .ok res r ↔
    ∃ s', ingestNamed env m 0 none none none (s.pushStack m.identity) = .ok () s' ∧
      r = s'.popStack ∧ finish r.st m.selector = .ok res := by
  unfold resolve
  constructor
  · intro h
    obtain ⟨_,s₁,hpush,h⟩ := bind_eq_ok.mp h
    cases hpush
    obtain ⟨_,s₂,hread,h⟩ := bind_eq_ok.mp h
    obtain ⟨_,s₃,hpop,h⟩ := bind_eq_ok.mp h
    cases hpop
    obtain ⟨_,s₄,hget,h⟩ := bind_eq_ok.mp h
    cases hget
    obtain ⟨hfinish,hlast⟩ := fromExcept_eq_ok.mp h
    rw [hlast]
    exact ⟨s₂,hread,rfl,hfinish⟩
  · rintro ⟨s',hread,rfl,hfinish⟩
    exact bind_eq_ok.mpr ⟨_,_,rfl,bind_eq_ok.mpr ⟨_,s',hread,bind_eq_ok.mpr ⟨_,_,rfl,
      bind_eq_ok.mpr ⟨_,_,rfl,fromExcept_eq_ok.mpr ⟨hfinish,rfl⟩⟩⟩⟩⟩

def ingestFile (env : Env) (path : String) (bytes : Bytes) : ResolveM Unit :=
  ingestBytes env 0
    (fun _ child anchor integrity node => ingestNamed env child 1 anchor integrity (some node))
    none bytes (.localFile path) none none

theorem resolveFile_runs {path : String} : resolveFile env path s = .ok res r ↔
    ∃ bytes, env.files path = .ok bytes ∧ ingestFile env path bytes s = .ok () r ∧
      finish r.st none = .ok res := by
  unfold resolveFile
  constructor
  · intro h
    obtain ⟨bytes,s₁,hread,h⟩ := bind_eq_ok.mp h
    obtain ⟨hbytes,hsame⟩ := fromExcept_eq_ok.mp hread
    rw [hsame] at h
    obtain ⟨_,s₂,hroot,h⟩ := bind_eq_ok.mp h
    obtain ⟨_,s₃,hget,h⟩ := bind_eq_ok.mp h
    cases hget
    obtain ⟨hfinish,hlast⟩ := fromExcept_eq_ok.mp h
    rw [hlast]
    refine ⟨bytes,?_,hroot,hfinish⟩
    cases hf : env.files path with
    | error e =>
      rw [hf] at hbytes
      cases hbytes
    | ok found =>
      rw [hf] at hbytes
      cases hbytes
      rfl
  · rintro ⟨bytes,hbytes,hroot,hfinish⟩
    have hread : (env.files path).mapError
        (fun e => Error.notFound s!"cannot read manifest {path}: {e}") = .ok bytes := by
      rw [hbytes]
      rfl
    exact bind_eq_ok.mpr ⟨bytes,s,fromExcept_eq_ok.mpr ⟨hread,rfl⟩,bind_eq_ok.mpr ⟨_,r,hroot,
      bind_eq_ok.mpr ⟨_,_,rfl,fromExcept_eq_ok.mpr ⟨hfinish,rfl⟩⟩⟩⟩

end Finished

end MurlSystem

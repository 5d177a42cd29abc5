import MurlSystem.Resolution.Excess

namespace MurlSystem

open Program Fallible

def Path (env : Env) : Config → Config → Prop := Relation.ReflTransGen (Step env)

theorem Path.refl {env : Env} (c : Config) : Path env c c := Relation.ReflTransGen.refl

theorem Path.snoc {env : Env} {a b c : Config} (h : Path env a b) (h' : Step env b c) :
    Path env a c := Relation.ReflTransGen.tail h h'

theorem Path.noted {env : Env} {a : Config} {r r' : Run} {fs : List Frame}
    (h : Path env a ⟨r,fs⟩) (hn : Noted r r') : Path env a ⟨r',fs⟩ := by
  obtain ⟨ws,n,rfl⟩ := hn
  exact h.snoc (.note r fs ws n)

def Leads (env : Env) (a : Config) (r : Run) : Prop := ∃ fs, Path env a ⟨r,fs⟩

def Halts (env : Env) (a : Config) (e : Error) (r : Run) : Prop :=
  ∃ fs, Path env a ⟨r,fs⟩ ∧
    (OwnWords env → e = totalExceeded env.limits → Overfull env.limits ⟨r,fs⟩)

theorem Path.halts {env : Env} {a : Config} {r : Run} {fs : List Frame} {e : Error}
    (h : Path env a ⟨r,fs⟩) (he : Elsewhere env.limits e) : Halts env a e r :=
  ⟨fs,h,fun _ htotal => absurd htotal he⟩

theorem Halts.leads {env : Env} {a : Config} {r : Run} {e : Error} (h : Halts env a e r) :
    Leads env a r := by
  obtain ⟨fs,hpath,-⟩ := h
  exact ⟨fs,hpath⟩

section Splice

variable {env : Env} {a : Config} {fs : List Frame} {site : Site} {resources : List ResourceDoc}
  {i : Nat} {todo : List Nat} {doc : ResourceDoc} {r : Run}

def Sim (env : Env) (site : Site)
    (recur : Murl → Option String → Option String → Nat → ResolveM Unit) : Prop :=
  ∀ (a : Config) (fs : List Frame) (r : Run) (doc : ResourceDoc) (child : Murl),
    Path env a ⟨r,.seek (site.request doc child) :: fs⟩ →
    wp (recur child (some (site.anchorOf doc)) doc.integrity site.node)
      (fun _ r' => ∃ inner rs, inner.murl = some child ∧
        Path env a ⟨r',.walk inner rs [] :: fs⟩)
      (Halts env a) r

theorem planResource_steps {kind : Kind} (hat : resources[i]? = some doc)
    (hparsed : Kind.parse doc.kind = .ok kind) (hleaf : kind ≠ .murl)
    (h : Path env a ⟨r,.walk site resources (i :: todo) :: fs⟩) :
    wp (planResource env site i doc kind)
      (fun _ r' => Path env a ⟨r',.walk site resources todo :: fs⟩) (Halts env a) r := by
  unfold planResource
  rw [wp_bind,wp_get]
  split
  · rename_i hfull
    exact ⟨_,h,fun _ _ => ⟨hfull,site,i,doc,kind,⟨resources,todo,fs,rfl,hat⟩,hparsed,hleaf⟩⟩
  · rename_i hroom
    split
    · rename_i hseen
      have hseen : dedupKey kind doc ∈ r.st.dedup := by simpa using hseen
      have hw := fun w => h.noted (.warn r w)
      rw [wp_bind,wp_warn,wp_modify]
      exact (hw _).snoc (.duplicate _ fs site resources i todo doc kind hat hparsed hleaf hseen)
    · rename_i hfresh
      rw [wp_bind,wp_modify,wp_modify]
      exact h.snoc (.plan r fs site resources i todo doc kind hat hparsed hleaf (by omega)
        (by simpa using hfresh))

theorem crossingWarning_noted {child : Murl} {Q : Unit → Run → Prop} {E : Error → Run → Prop}
    (h : ∀ r', Noted r r' → Q () r') : wp (crossingWarning site child) Q E r := by
  unfold crossingWarning
  cases site.murl with
  | none => exact h r (.refl r)
  | some parent => exact wp_warn_when fun ws => h _ (.said r ws)

theorem spliceChild_steps {child : Murl}
    {recur : Murl → Option String → Option String → Nat → ResolveM Unit}
    (hrec : Sim env site recur) (hat : resources[i]? = some doc)
    (hnests : Nests env site doc child)
    (h : Path env a ⟨r,.walk site resources (i :: todo) :: fs⟩) :
    wp (spliceChild site recur i doc child)
      (fun _ r' => Path env a ⟨r',.walk site resources todo :: fs⟩) (Halts env a) r := by
  unfold spliceChild
  rw [wp_bind,wp_get]
  split
  · exact h.halts (Unlimited.elsewhere rfl)
  · rename_i hoff
    have hoff : child.identity ∉ r.st.stack := by simpa using hoff
    split
    · rename_i hseen
      have hseen : child.identity ∈ r.st.visited := by simpa using hseen
      have hw := fun w => h.noted (.warn r w)
      rw [wp_bind,wp_warn,wp_modify]
      exact (hw _).snoc (.diamond _ fs site resources i todo doc child hat hnests hoff hseen)
    · rename_i hunseen
      have hunseen : child.identity ∉ r.st.visited := by simpa using hunseen
      rw [wp_bind]
      refine crossingWarning_noted ?_
      intro r₁ h₁
      rw [wp_bind,wp_modify,wp_bind,wp_modify,wp_bind]
      have hstack : r₁.st.stack = r.st.stack ∧ r₁.st.visited = r.st.visited := by
        obtain ⟨ws,n,rfl⟩ := h₁
        exact ⟨rfl,rfl⟩
      have hsplice := (h.noted h₁).snoc (.splice r₁ fs site resources i todo doc child hat hnests
        (by rwa [hstack.1]) (by rwa [hstack.2]))
      refine wp_mono (hrec a _ _ doc child hsplice) ?_ (fun _ _ he => he)
      rintro _ r₂ ⟨inner,rs,hinner,hpath⟩
      rw [wp_bind,wp_modify,wp_modify]
      exact hpath.snoc (.close r₂ fs inner site rs resources todo child hinner)

theorem spliceNested_steps
    {recur : site.depth + 1 ≤ env.limits.maxDepth →
      Murl → Option String → Option String → Nat → ResolveM Unit}
    (hrec : ∀ hd, Sim env site (recur hd)) (hat : resources[i]? = some doc)
    (hkind : Kind.parse doc.kind = .ok .murl)
    (h : Path env a ⟨r,.walk site resources (i :: todo) :: fs⟩) :
    wp (spliceNested env site recur i doc)
      (fun _ r' => Path env a ⟨r',.walk site resources todo :: fs⟩) (Halts env a) r := by
  unfold spliceNested
  rw [wp_bind,wp_fromExcept]
  refine ⟨?_,fun e he => h.halts (Unlimited.elsewhere ?_)⟩
  swap
  · exact Blames.mapError (P := Unlimited) (by exact fun _ => rfl) _ e he
  intro child hchild
  have hparsed : Murl.parse doc.target = .ok child := by
    cases hp : Murl.parse doc.target with
    | error e => simp [hp,Except.mapError] at hchild
    | ok c => simpa [hp,Except.mapError] using hchild
  split
  · exact h.halts (Unlimited.elsewhere rfl)
  · rename_i hfar
    rw [wp_bind]
    refine wp_warn_when ?_
    intro ws
    have h := h.noted (.said r ws)
    rw [wp_dite]
    refine ⟨?_,fun _ => h.halts (depth_elsewhere _ _)⟩
    intro hd
    exact spliceChild_steps (hrec hd) hat ⟨hkind,hparsed,not_lt.mp hfar,hd⟩ h

theorem spliceResource_steps
    {recur : site.depth + 1 ≤ env.limits.maxDepth →
      Murl → Option String → Option String → Nat → ResolveM Unit}
    (hrec : ∀ hd, Sim env site (recur hd)) (hlt : i < resources.length)
    (h : Path env a ⟨r,.walk site resources (i :: todo) :: fs⟩) :
    wp (spliceResource env site recur resources i)
      (fun _ r' => Path env a ⟨r',.walk site resources todo :: fs⟩) (Halts env a) r := by
  unfold spliceResource
  have hat : resources[i]? = some resources[i] := List.getElem?_eq_getElem hlt
  rw [hat]
  dsimp only
  rw [wp_bind,wp_fromExcept]
  refine ⟨?_,fun e he => h.halts (Unlimited.elsewhere ?_)⟩
  swap
  · exact Blames.mapError (P := Unlimited) (by exact fun _ => rfl) _ e he
  intro kind hkind
  have hparsed : Kind.parse resources[i].kind = .ok kind := by
    cases hp : Kind.parse resources[i].kind with
    | error e => simp [hp,Except.mapError] at hkind
    | ok k => simpa [hp,Except.mapError] using hkind
  rw [wp_ite]
  constructor
  · rintro rfl
    exact spliceNested_steps hrec hat hparsed h
  · intro hleaf
    exact planResource_steps hat hparsed hleaf h

theorem spliceAll_steps
    {recur : site.depth + 1 ≤ env.limits.maxDepth →
      Murl → Option String → Option String → Nat → ResolveM Unit}
    (hrec : ∀ hd, Sim env site (recur hd)) (hlt : ∀ j ∈ todo, j < resources.length)
    (h : Path env a ⟨r,.walk site resources todo :: fs⟩) :
    wp (forM todo (spliceResource env site recur resources))
      (fun _ r' => Path env a ⟨r',.walk site resources [] :: fs⟩) (Halts env a) r := by
  induction todo generalizing r with
  | nil => exact h
  | cons j rest ih =>
    rw [List.forM_cons,wp_bind]
    refine wp_mono (spliceResource_steps hrec (hlt j (by simp)) h) ?_ (fun _ _ he => he)
    intro _ r₁ h₁
    exact ih (fun k hk => hlt k (by simp [hk])) h₁

end Splice

section Ingest

variable {env : Env} {a : Config} {fs : List Frame} {r : Run}

theorem ingestBytes_steps (req : Request) {bytes : Bytes} {origin : Origin}
    {recur : req.depth + 1 ≤ env.limits.maxDepth →
      Murl → Option String → Option String → Nat → ResolveM Unit}
    (hrec : ∀ hd node, Sim env (req.site origin node) (recur hd))
    (hpin : checkPin env bytes req.integrity = .ok ())
    (h : Path env a ⟨r,.found req bytes origin :: fs⟩) :
    wp (ingestBytes env req.depth recur req.murl bytes origin req.anchor req.parent)
      (fun _ r' => ∃ inner rs, inner.murl = req.murl ∧
        Path env a ⟨r',.walk inner rs [] :: fs⟩)
      (Halts env a) r := by
  unfold ingestBytes
  rw [wp_bind]
  refine wp_mono (wp_raises (examine_spec env req bytes origin r)
    (examine_elsewhere req.murl bytes origin req.depth)) ?_ ?_
  · rintro node r₁ ⟨hnoted,hnode⟩
    have h₁ := h.noted hnoted
    obtain ⟨order,horder⟩ := validate_order hnode.valid
    rw [wp_bind,wp_get,wp_bind,wp_modify,wp_bind,wp_fromExcept,horder]
    refine ⟨?_,?_⟩
    · rintro order' hsame
      obtain rfl : order = order' := by simpa [Except.mapError] using hsame
      have hpush := h₁.snoc (.enter r₁ fs req bytes origin node order hpin hnode horder)
      refine wp_mono (spliceAll_steps (fun hd => hrec hd _) ?_ hpush) ?_ (fun _ _ he => he)
      · intro j hj
        exact (executionOrder_mem horder j).mp hj
      · intro _ r₂ h₂
        exact ⟨_,_,rfl,h₂⟩
    · intro e he
      simp [Except.mapError] at he
  · rintro e r₁ ⟨hnoted,he⟩
    exact (h.noted hnoted).halts he

theorem ingestNamed_steps (m : Murl) (depth : Nat) (anchor integrity : Option String)
    (parent : Option Nat) (h : Path env a ⟨r,.seek ⟨some m,depth,anchor,integrity,parent⟩ :: fs⟩) :
    wp (ingestNamed env m depth anchor integrity parent)
      (fun _ r' => ∃ inner rs, inner.murl = some m ∧ Path env a ⟨r',.walk inner rs [] :: fs⟩)
      (Halts env a) r := by
  induction hn : env.limits.maxDepth - depth using Nat.strong_induction_on
    generalizing m depth anchor integrity parent a fs r with
  | _ n ih =>
    rw [ingestNamed,wp_bind]
    unfold countManifest
    rw [wp_bind,wp_modify,wp_bind,wp_get,wp_ite]
    constructor
    · intro hfull
      exact (h.snoc (.overBudget r _ hfull)).halts (manifests_elsewhere _)
    · intro hroom
      have hroom : r.st.manifests + 1 ≤ env.limits.maxNestedManifests := not_lt.mp hroom
      rw [wp_pure,wp_bind]
      refine wp_of_result ?_ ?_
      · rintro ⟨bytes,origin⟩ r₁ hgot
        have hfound := h.snoc (.locate r r₁ fs _ m bytes origin rfl hroom hgot)
        rw [wp_bind,wp_fromExcept]
        refine ⟨?_,fun e he => hfound.halts (checkPin_unlimited bytes integrity e he).elsewhere⟩
        intro _ hpin
        refine ingestBytes_steps ⟨some m,depth,anchor,integrity,parent⟩ ?_ hpin hfound
        intro hd node a' fs' r' doc child hseek
        have hd : depth + 1 ≤ env.limits.maxDepth := hd
        exact ih (env.limits.maxDepth - (depth + 1)) (by omega) child (depth + 1) _ _ _ hseek rfl
      · intro e r₁ hgot
        refine ⟨_,h.snoc (.lost r r₁ fs _ m e rfl hroom hgot),fun hown htotal => ?_⟩
        exact absurd htotal (locate_elsewhere hown parent m _ e r₁ hgot)

end Ingest

end MurlSystem

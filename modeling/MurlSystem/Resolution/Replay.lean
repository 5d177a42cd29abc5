import MurlSystem.Resolution.Backward
import MurlSystem.Resolution.Selection

namespace MurlSystem

open Program

def Env.sited (env : Env) (store : LocalStore)
    (remote : Option (List String → String → Except Error Bytes))
    (cache : Option (Nat → Option PutFault)) (clock : Nat → Nat) : Env :=
  { env with localStore := store, remote := remote, cache := cache, clock := clock }

structure Leeway where
  origin : Origin → Origin → Prop
  timed : Prop
  cache : Cache → Prop

structure SameNode (L : Leeway) (a b : ResolvedNode) : Prop where
  identity : b.identity = a.identity
  origin : L.origin a.origin b.origin
  manifest : b.manifest = a.manifest
  rawBytes : b.rawBytes = a.rawBytes
  trust : b.trust = a.trust
  depth : b.depth = a.depth
  times : L.timed → b.expired = a.expired ∧ b.premature = a.premature

structure Replays (L : Leeway) (s t : Run) : Prop where
  nodes : List.Forall₂ (SameNode L) s.st.nodes t.st.nodes
  resources : t.st.resources = s.st.resources
  stack : t.st.stack = s.st.stack
  visited : t.st.visited = s.st.visited
  dedup : t.st.dedup = s.st.dedup
  manifests : t.st.manifests = s.st.manifests
  cache : L.cache t.cache

def Within (z : List ResolvedNode) (r : Run) : Prop := r.st.nodes <+: z

instance (z : List ResolvedNode) : Growing (Within z) where
  back := by
    intro r r' hnodes _ hz
    exact hnodes.trans hz

section Within

variable {env : Env} {z : List ResolvedNode}

theorem ingestBytes_pushes {depth : Nat}
    {recur : depth + 1 ≤ env.limits.maxDepth →
      Murl → Option String → Option String → Nat → ResolveM Unit}
    (hrec : ∀ z hd child anchor pin node, Back (Within z) (recur hd child anchor pin node))
    {murl : Option Murl} {bytes : Bytes} {origin : Origin} {anchor : Option String}
    {parent : Option Nat} {s s' : Run}
    (h : ingestBytes env depth recur murl bytes origin anchor parent s = .ok () s') :
    ∃ node, s.st.nodes ++ [node] <+: s'.st.nodes ∧ node.identity = murl.map Murl.identity ∧
      node.origin = origin ∧ node.rawBytes = bytes := by
  obtain ⟨node,s₂,order,hexamine,-,hrest⟩ := ingestBytes_ok h
  obtain ⟨⟨ws,n,rfl⟩,hnode⟩ :=
    wp_ok (examine_spec env ⟨murl,depth,none,none,none⟩ bytes origin s) hexamine
  have hback := Back.forM (back_spliceResource (hrec s'.st.nodes) _) order _ _ _ hrest
    (List.prefix_refl _)
  exact ⟨node,hback,hnode.identity,hnode.source,hnode.rawBytes⟩

theorem ingestNamed_pushes {m : Murl} {depth : Nat} {anchor pin : Option String}
    {parent : Option Nat} {s s' : Run} (h : ingestNamed env m depth anchor pin parent s = .ok () s') :
    ∃ node, s.st.nodes ++ [node] <+: s'.st.nodes ∧ node.identity = some m.identity := by
  rw [ingestNamed] at h
  obtain ⟨_,s₁,hcount,h⟩ := bind_eq_ok.mp h
  obtain ⟨⟨bytes,origin⟩,s₂,hgot,h⟩ := bind_eq_ok.mp h
  obtain ⟨_,s₃,hpin,hread⟩ := bind_eq_ok.mp h
  obtain ⟨-,hsame⟩ := fromExcept_eq_ok.mp hpin
  rw [hsame] at hread
  obtain ⟨node,hnode,hid,-,-⟩ := ingestBytes_pushes (fun z _ child anchor pin node =>
    back_ingestNamed child (depth + 1) anchor pin (some node)) hread
  obtain ⟨hcounted,-⟩ := countManifest_ok hcount
  obtain ⟨⟨ws,hst⟩,-,-,-⟩ := (locate_ok hgot).1
  rw [hst,hcounted] at hnode
  exact ⟨node,hnode,hid⟩

theorem locate_home {m : Murl} (atHome : m.authority.isLocal = true) {parent : Option Nat}
    {bytes : Bytes} {origin : Origin} {s s' : Run} :
    locate env parent m s = .ok (bytes,origin) s' ↔ ∃ path,
      env.localStore.load m = .ok (bytes,path) ∧ origin = .localStore path ∧
        s' = s.access ⟨parent,m.unselected,.load⟩ := by
  unfold locate
  rw [if_pos atHome]
  unfold loadLocal
  constructor
  · intro h
    obtain ⟨_,s₁,hlog,hrest⟩ := bind_eq_ok.mp h
    cases hlog
    obtain ⟨⟨bytes',path⟩,s₂,hload,hlast⟩ := bind_eq_ok.mp hrest
    cases hlast
    obtain ⟨hload,hsame⟩ := fromExcept_eq_ok.mp hload
    exact ⟨path,hload,rfl,hsame⟩
  · rintro ⟨path,hload,rfl,rfl⟩
    exact bind_eq_ok.mpr ⟨_,_,rfl,bind_eq_ok.mpr ⟨_,_,fromExcept_eq_ok.mpr ⟨hload,rfl⟩,rfl⟩⟩

end Within

structure SameSource (env : Env) (murl : Option Murl) (a b : Origin) : Prop where
  label : labelOf murl b = labelOf murl a
  source : Locality.ofSource b murl = Locality.ofSource a murl
  trust : ∀ verified, trustOf env murl b verified = trustOf env murl a verified

theorem SameSource.refl (env : Env) (murl : Option Murl) (a : Origin) :
    SameSource env murl a a := ⟨rfl,rfl,fun _ => rfl⟩

section Follow

variable {env : Env} {store : LocalStore}
  {remote : Option (List String → String → Except Error Bytes)}
  {cache : Option (Nat → Option PutFault)} {clock : Nat → Nat} {L : Leeway}
  {z : List ResolvedNode} {s t s' t' : Run}

theorem Replays.noted (h : Replays L s t) (hs : Noted s s') (ht : Noted t t') :
    Replays L s' t' := by
  obtain ⟨ws,n,rfl⟩ := hs
  obtain ⟨ws',n',rfl⟩ := ht
  exact ⟨h.nodes,h.resources,h.stack,h.visited,h.dedup,h.manifests,h.cache⟩

theorem Replays.turn (h : Replays L s t) (u v : Turn) : Replays L (s.turn u) (t.turn v) :=
  ⟨h.nodes,h.resources,h.stack,h.visited,h.dedup,h.manifests,h.cache⟩

theorem Replays.pushStack (h : Replays L s t) (id : String) :
    Replays L (s.pushStack id) (t.pushStack id) :=
  ⟨h.nodes,h.resources,congrArg (· ++ [id]) h.stack,h.visited,h.dedup,h.manifests,h.cache⟩

theorem Replays.popStack (h : Replays L s t) : Replays L s.popStack t.popStack :=
  ⟨h.nodes,h.resources,congrArg List.dropLast h.stack,h.visited,h.dedup,h.manifests,h.cache⟩

theorem Replays.visit (h : Replays L s t) (id : String) : Replays L (s.visit id) (t.visit id) :=
  ⟨h.nodes,h.resources,h.stack,congrArg (List.cons id) h.visited,h.dedup,h.manifests,h.cache⟩

theorem Replays.count (h : Replays L s t) : Replays L s.count t.count :=
  ⟨h.nodes,h.resources,h.stack,h.visited,h.dedup,congrArg (· + 1) h.manifests,h.cache⟩

theorem Replays.plan (h : Replays L s t) (key : String × String) (pr : PlannedResource) :
    Replays L (s.plan key pr) (t.plan key pr) :=
  ⟨h.nodes,congrArg (· ++ [pr]) h.resources,h.stack,h.visited,congrArg (List.cons key) h.dedup,
    h.manifests,h.cache⟩

theorem Replays.pushNode (h : Replays L s t) {a b : ResolvedNode} (hab : SameNode L a b)
    (call call' : Call) : Replays L (s.pushNode a call) (t.pushNode b call') :=
  ⟨List.rel_append h.nodes (.cons hab .nil),h.resources,h.stack,h.visited,h.dedup,h.manifests,
    h.cache⟩

theorem follows_warn (h : Replays L s t) (w w' : String) :
    Follows (Within z) (Replays L) (fun _ _ => True) (warn w) (warn w') s t :=
  Follows.modify (h.noted (.warn s w) (.warn t w')) trivial

theorem follows_warnWhen (h : Replays L s t) (c c' : Bool) (w w' : String) :
    Follows (Within z) (Replays L) (fun _ _ => True) (warnWhen c w) (warnWhen c' w') s t := by
  unfold warnWhen
  cases c <;> cases c'
  · exact Follows.pure h trivial
  · intro _ _ hp _
    cases hp
    exact ⟨(),_,rfl,h.noted (.refl s) (.warn t w'),trivial⟩
  · intro _ _ hp _
    cases hp
    exact ⟨(),t,rfl,h.noted (.warn s w) (.refl t),trivial⟩
  · exact follows_warn h w w'

theorem follows_crossingWarning (h : Replays L s t) (site : Site) (child : Murl) :
    Follows (Within z) (Replays L) (fun _ _ => True) (crossingWarning site child)
      (crossingWarning site child) s t := by
  unfold crossingWarning
  cases site.murl with
  | none => exact Follows.pure h trivial
  | some parent => exact follows_warnWhen h _ _ _ _

theorem follows_countManifest (h : Replays L s t) :
    Follows (Within z) (Replays L) (fun _ _ => True) (countManifest env)
      (countManifest (env.sited store remote cache clock)) s t := by
  unfold countManifest
  refine Follows.bind (Follows.modify (Q := fun _ _ => True) h.count trivial) ?_ fun _ =>
    Back.bind Back.get fun _ => Back.ite (Back.throw _) (Back.pure _)
  intro _ _ s₁ t₁ h₁ _
  refine Follows.get_bind ?_
  rw [h₁.manifests]
  by_cases hfull : env.limits.maxNestedManifests < s₁.st.manifests
  · rw [if_pos hfull]
    exact Follows.throw
  · rw [if_neg hfull,if_neg (show ¬(env.sited store remote cache clock).limits.maxNestedManifests <
      s₁.st.manifests from hfull)]
    exact Follows.pure h₁ trivial

theorem follows_planResource (h : Replays L s t) (site : Site) (i : Nat) (doc : ResourceDoc)
    (kind : Kind) :
    Follows (Within z) (Replays L) (fun _ _ => True) (planResource env site i doc kind)
      (planResource (env.sited store remote cache clock) site i doc kind) s t := by
  unfold planResource
  refine Follows.get_bind ?_
  rw [h.resources,h.dedup]
  by_cases hfull : env.limits.maxTotalResources < s.st.resources.length + 1
  · rw [if_pos hfull]
    exact Follows.throw
  · rw [if_neg hfull,if_neg (show ¬(env.sited store remote cache clock).limits.maxTotalResources <
      s.st.resources.length + 1 from hfull)]
    by_cases hseen : s.st.dedup.contains (dedupKey kind doc) = true
    · rw [if_pos hseen]
      refine Follows.bind (follows_warn h _ _) ?_ fun _ => back_modify fun _ => rfl
      intro _ _ s₁ t₁ h₁ _
      exact Follows.modify (h₁.turn _ _) trivial
    · rw [if_neg hseen]
      refine Follows.bind (Follows.modify (Q := fun _ _ => True) (h.plan _ _) trivial) ?_
        fun _ => back_modify fun _ => rfl
      intro _ _ s₁ t₁ h₁ _
      exact Follows.modify (h₁.turn _ _) trivial

theorem follows_spliceChild {site : Site}
    {recur recur' : Murl → Option String → Option String → Nat → ResolveM Unit}
    (hback : ∀ child anchor pin node, Back (Within z) (recur child anchor pin node))
    (hrec : ∀ child anchor pin node s t, Replays L s t → Follows (Within z) (Replays L)
      (fun _ _ => True) (recur child anchor pin node) (recur' child anchor pin node) s t)
    (h : Replays L s t) (i : Nat) (doc : ResourceDoc) (child : Murl) :
    Follows (Within z) (Replays L) (fun _ _ => True) (spliceChild site recur i doc child)
      (spliceChild site recur' i doc child) s t := by
  unfold spliceChild
  refine Follows.get_bind ?_
  rw [h.stack,h.visited]
  by_cases hcycle : s.st.stack.contains child.identity = true
  · rw [if_pos hcycle]
    exact Follows.throw
  · rw [if_neg hcycle,if_neg hcycle]
    by_cases hseen : s.st.visited.contains child.identity = true
    · rw [if_pos hseen,if_pos hseen]
      refine Follows.bind (follows_warn h _ _) ?_ fun _ => back_modify fun _ => rfl
      intro _ _ s₁ t₁ h₁ _
      exact Follows.modify (h₁.turn _ _) trivial
    · rw [if_neg hseen,if_neg hseen]
      have hclose : ∀ _ : Unit, Back (Within z) (do
          modify Run.popStack
          modify fun run => run.visit child.identity : ResolveM Unit) := fun _ =>
        Back.bind (back_modify fun _ => rfl) fun _ => back_modify fun _ => rfl
      refine Follows.bind (follows_crossingWarning h _ _) ?_ fun _ =>
        Back.bind (back_modify fun _ => rfl) fun _ =>
        Back.bind (back_modify fun _ => rfl) fun _ => Back.bind (hback _ _ _ _) hclose
      intro _ _ s₁ t₁ h₁ _
      refine Follows.bind (Follows.modify (Q := fun _ _ => True) (h₁.pushStack _) trivial) ?_
        fun _ => Back.bind (back_modify fun _ => rfl) fun _ => Back.bind (hback _ _ _ _) hclose
      intro _ _ s₂ t₂ h₂ _
      refine Follows.bind (Follows.modify (Q := fun _ _ => True) (h₂.turn _ _) trivial) ?_
        fun _ => Back.bind (hback _ _ _ _) hclose
      intro _ _ s₃ t₃ h₃ _
      refine Follows.bind (hrec _ _ _ _ s₃ t₃ h₃) ?_ hclose
      intro _ _ s₄ t₄ h₄ _
      refine Follows.bind (Follows.modify (Q := fun _ _ => True) h₄.popStack trivial) ?_
        fun _ => back_modify fun _ => rfl
      intro _ _ s₅ t₅ h₅ _
      exact Follows.modify (h₅.visit _) trivial

theorem follows_spliceNested {site : Site}
    {recur recur' : site.depth + 1 ≤ env.limits.maxDepth →
      Murl → Option String → Option String → Nat → ResolveM Unit}
    (hback : ∀ hd child anchor pin node, Back (Within z) (recur hd child anchor pin node))
    (hrec : ∀ hd child anchor pin node s t, Replays L s t → Follows (Within z) (Replays L)
      (fun _ _ => True) (recur hd child anchor pin node) (recur' hd child anchor pin node) s t)
    (h : Replays L s t) (i : Nat) (doc : ResourceDoc) :
    Follows (Within z) (Replays L) (fun _ _ => True) (spliceNested env site recur i doc)
      (spliceNested (env.sited store remote cache clock) site recur' i doc) s t := by
  have htail : ∀ child : Murl, ∀ _ : Unit, Back (Within z)
      (if hd : site.depth + 1 ≤ env.limits.maxDepth then spliceChild site (recur hd) i doc child
        else throw (.limitExceeded
          s!"nesting depth exceeds {env.limits.maxDepth} at `{child.identity}`")) :=
    fun child _ => Back.dite (fun hd => back_spliceChild (hback hd) i doc child)
      fun _ => Back.throw _
  unfold spliceNested
  refine Follows.bind (Q := fun a b => b = a) (Follows.fromExcept h fun a ha => ⟨a,ha,rfl⟩) ?_
    fun child => Back.ite (Back.throw _) (Back.bind (back_warnWhen _ _) (htail child))
  rintro _ child s₁ t₁ h₁ rfl
  by_cases hnear : Locality.of child.authority < site.source
  · rw [if_pos hnear]
    exact Follows.throw
  · rw [if_neg hnear,if_neg hnear]
    refine Follows.bind (follows_warnWhen h₁ _ _ _ _) ?_ (htail child)
    intro _ _ s₂ t₂ h₂ _
    by_cases hd : site.depth + 1 ≤ env.limits.maxDepth
    · rw [dif_pos hd,dif_pos (show site.depth + 1 ≤
        (env.sited store remote cache clock).limits.maxDepth from hd)]
      exact follows_spliceChild (hback hd) (hrec hd) h₂ i doc child
    · rw [dif_neg hd]
      exact Follows.throw

theorem follows_spliceResource {site : Site}
    {recur recur' : site.depth + 1 ≤ env.limits.maxDepth →
      Murl → Option String → Option String → Nat → ResolveM Unit}
    (hback : ∀ hd child anchor pin node, Back (Within z) (recur hd child anchor pin node))
    (hrec : ∀ hd child anchor pin node s t, Replays L s t → Follows (Within z) (Replays L)
      (fun _ _ => True) (recur hd child anchor pin node) (recur' hd child anchor pin node) s t)
    (h : Replays L s t) (rs : List ResourceDoc) (i : Nat) :
    Follows (Within z) (Replays L) (fun _ _ => True) (spliceResource env site recur rs i)
      (spliceResource (env.sited store remote cache clock) site recur' rs i) s t := by
  unfold spliceResource
  cases rs[i]? with
  | none => exact Follows.pure h trivial
  | some doc =>
    dsimp only
    refine Follows.bind (Q := fun a b => b = a) (Follows.fromExcept h fun a ha => ⟨a,ha,rfl⟩) ?_
      fun kind => Back.ite (back_spliceNested hback i doc) (back_planResource _ _ _ _)
    rintro _ kind s₁ t₁ h₁ rfl
    by_cases hk : kind = .murl
    · rw [if_pos hk,if_pos hk]
      exact follows_spliceNested hback hrec h₁ i doc
    · rw [if_neg hk,if_neg hk]
      exact follows_planResource h₁ site i doc kind

theorem bindIdentity_origin {murl : Option Murl} {a b : Origin} {doc : ManifestDoc}
    (h : bindIdentity murl a doc = .ok ()) : bindIdentity murl b doc = .ok () := by
  unfold bindIdentity at h ⊢
  cases murl with
  | none => rfl
  | some requested =>
    cases hid : doc.id with
    | none => rfl
    | some declared =>
      rw [hid] at h
      dsimp only at h ⊢
      cases hp : Murl.parse declared with
      | error e =>
        rw [hp] at h
        cases h
      | ok parsed =>
        rw [hp] at h
        dsimp only at h ⊢
        split at h
        · cases h
        · rename_i hc
          rw [if_neg hc]

theorem examine_again {req : Request} {bytes : Bytes} {origin origin' : Origin}
    {node : ResolvedNode} (hnode : Admitted env req bytes origin node)
    (hsame : SameSource env req.murl origin origin') (horigin : L.origin origin origin')
    (htimes : L.timed → ∃ now, (∀ n, clock n = now) ∧
      node.expired = isExpired node.manifest.doc now ∧
      node.premature = isPremature node.manifest.doc now) (t : Run) :
    wp (examine (env.sited store remote cache clock) req.murl bytes origin' req.depth)
      (fun node' t' => Noted t t' ∧ SameNode L node node') (fun _ _ => False) t := by
  obtain ⟨verified,hverified,htrust⟩ := hnode.trust
  have hbound : bindIdentity req.murl origin' node.manifest.doc = .ok () :=
    bindIdentity_origin hnode.bound
  have hpasses : Examined (env.sited store remote cache clock) req.murl bytes origin'
      node.manifest verified := ⟨hnode.parsed,hnode.valid,hverified,hbound⟩
  refine wp_examine ?_ ?_
  · intro manifest verified' ws h
    obtain rfl := h.manifest_eq hnode.parsed
    obtain rfl := Except.ok.inj (h.verified.symm.trans hverified)
    refine ⟨⟨ws,1,rfl⟩,hnode.identity.symm,?_,rfl,hnode.rawBytes.symm,?_,hnode.depth.symm,?_⟩
    · rw [hnode.source]
      exact horigin
    · rw [htrust]
      exact hsame.trust verified'
    · intro htimed
      obtain ⟨now,hclock,hexpired,hpremature⟩ := htimes htimed
      rw [hexpired,hpremature,← hclock t.ticks]
      exact ⟨rfl,rfl⟩
  · intro e ws n hnone
    exact hnone _ _ hpasses

theorem examine_timed {now : Nat} (hclock : ∀ n, env.clock n = now) (murl : Option Murl)
    (bytes : Bytes) (origin : Origin) (depth : Nat) (s : Run) :
    wp (examine env murl bytes origin depth)
      (fun node _ => node.expired = isExpired node.manifest.doc now ∧
        node.premature = isPremature node.manifest.doc now) (fun _ _ => True) s := by
  refine wp_examine ?_ (fun _ _ _ _ => trivial)
  intro manifest verified ws _
  rw [hclock]
  exact ⟨rfl,rfl⟩

def SameTime (L : Leeway) (env : Env) (clock : Nat → Nat) : Prop :=
  L.timed → ∃ now, (∀ n, env.clock n = now) ∧ ∀ n, clock n = now

theorem follows_examine {murl : Option Murl} {bytes : Bytes} {origin origin' : Origin}
    (htime : SameTime L env clock) (h : Replays L s t)
    (hsame : SameSource env murl origin origin') (horigin : L.origin origin origin')
    (depth : Nat) :
    Follows (Within z) (Replays L) (SameNode L) (examine env murl bytes origin depth)
      (examine (env.sited store remote cache clock) murl bytes origin' depth) s t := by
  intro node s₁ hs _
  obtain ⟨hnoted,hnode⟩ := wp_ok (examine_spec env ⟨murl,depth,none,none,none⟩ bytes origin s) hs
  have htimes : L.timed → ∃ now, (∀ n, clock n = now) ∧
      node.expired = isExpired node.manifest.doc now ∧
      node.premature = isPremature node.manifest.doc now := by
    intro htimed
    obtain ⟨now,hclock,hclock'⟩ := htime htimed
    have hflags := wp_ok (examine_timed hclock murl bytes origin depth s) hs
    exact ⟨now,hclock',hflags⟩
  have hagain : wp (examine (env.sited store remote cache clock) murl bytes origin' depth)
      (fun node' t' => Noted t t' ∧ SameNode L node node') (fun _ _ => False) t :=
    examine_again hnode hsame horigin htimes t
  unfold wp at hagain
  split at hagain
  · rename_i node' t₁ ht
    exact ⟨node',t₁,ht,h.noted hnoted hagain.1,hagain.2⟩
  · cases hagain

theorem spliceResource_alike {murl murl' : Option Murl}
    (hbare : murl'.map Syntax.bare = murl.map Syntax.bare) (label : String) (source : Locality)
    {depth : Nat} (anchor : Option String) (node : Nat)
    (recur : depth + 1 ≤ env.limits.maxDepth →
      Murl → Option String → Option String → Nat → ResolveM Unit) (rs : List ResourceDoc) :
    spliceResource env ⟨murl',label,source,depth,anchor,node⟩ recur rs =
      spliceResource env ⟨murl,label,source,depth,anchor,node⟩ recur rs := by
  have hleft := spliceResource_bare env ⟨murl',label,source,depth,anchor,node⟩ recur rs
  have hright := spliceResource_bare env ⟨murl,label,source,depth,anchor,node⟩ recur rs
  have hmiddle := congrArg
    (fun name => spliceResource env ⟨name,label,source,depth,anchor,node⟩ recur rs) hbare
  exact hleft.symm.trans (hmiddle.trans hright)

theorem follows_ingestBytes {depth : Nat}
    {recur recur' : depth + 1 ≤ env.limits.maxDepth →
      Murl → Option String → Option String → Nat → ResolveM Unit}
    (hback : ∀ hd child anchor pin node, Back (Within z) (recur hd child anchor pin node))
    (hrec : ∀ hd child anchor pin node s t, Replays L s t → Follows (Within z) (Replays L)
      (fun _ _ => True) (recur hd child anchor pin node) (recur' hd child anchor pin node) s t)
    {murl murl' : Option Murl} (hbare : murl'.map Syntax.bare = murl.map Syntax.bare)
    {origin origin' : Origin} (htime : SameTime L env clock)
    (h : Replays L s t) (hsame : SameSource env murl origin origin')
    (horigin : L.origin origin origin') (bytes : Bytes) (anchor : Option String)
    (parent : Option Nat) :
    Follows (Within z) (Replays L) (fun _ _ => True)
      (ingestBytes env depth recur murl bytes origin anchor parent)
      (ingestBytes (env.sited store remote cache clock) depth recur' murl' bytes origin' anchor
        parent) s t := by
  unfold ingestBytes
  rw [← examine_bare (env.sited store remote cache clock) murl',hbare,
    examine_bare (env.sited store remote cache clock) murl,← labelOf_bare murl',
    ← ofSource_bare origin' murl',hbare,labelOf_bare murl,ofSource_bare origin' murl]
  refine Follows.bind (follows_examine htime h hsame horigin depth) ?_ fun node => Back.bind Back.get fun run =>
    Back.bind (Back.modify fun r hz => (List.prefix_append r.st.nodes [node]).trans hz) fun _ =>
    Back.bind (Back.fromExcept _) fun order => Back.forM (back_spliceResource hback _) order
  intro node node' s₁ t₁ h₁ hnode
  refine Follows.get_bind ?_
  refine Follows.bind (Follows.modify (Q := fun _ _ => True) (h₁.pushNode hnode _ _) trivial) ?_
    fun _ => Back.bind (Back.fromExcept _) fun order =>
      Back.forM (back_spliceResource hback _) order
  intro _ _ s₂ t₂ h₂ _
  rw [hnode.manifest,h₁.nodes.length_eq,hsame.label,hsame.source]
  refine Follows.bind (Q := fun a b => b = a) (Follows.fromExcept h₂ fun a ha => ⟨a,ha,rfl⟩) ?_
    fun order => Back.forM (back_spliceResource hback _) order
  rintro _ order s₃ t₃ h₃ rfl
  have halike := @spliceResource_alike (env.sited store remote cache clock) murl murl' hbare
    (labelOf murl origin) (Locality.ofSource origin murl) depth anchor t₁.st.nodes.length recur'
    node.manifest.doc.resources
  have hsite (i : Nat) (s t : Run) (hst : Replays L s t) : Follows (Within z) (Replays L)
      (fun _ _ => True)
      (spliceResource env ⟨murl,labelOf murl origin,Locality.ofSource origin murl,depth,anchor,
        t₁.st.nodes.length⟩ recur node.manifest.doc.resources i)
      (spliceResource (env.sited store remote cache clock) ⟨murl,labelOf murl origin,
        Locality.ofSource origin murl,depth,anchor,t₁.st.nodes.length⟩ recur'
        node.manifest.doc.resources i) s t := follows_spliceResource hback hrec hst _ i
  refine Follows.forM (fun i _ s t hst => ?_) (back_spliceResource hback _) h₃
  exact (congrFun halike i).symm ▸ hsite i s t hst

def Relocates (L : Leeway) (env env' : Env) (z : List ResolvedNode) : Prop :=
  ∀ (parent : Option Nat) (m : Murl) (s t s' : Run) (bytes : Bytes) (origin : Origin),
    Replays L s t → locate env parent m s = .ok (bytes,origin) s' →
    (∃ node ∈ z, node.identity = some m.identity ∧ node.origin = origin ∧
      node.rawBytes = bytes) →
    ∃ origin' t', locate env' parent m t = .ok (bytes,origin') t' ∧ Replays L s' t' ∧
      SameSource env (some m) origin origin' ∧ L.origin origin origin'

def Found (L : Leeway) (env env' : Env) (z : List ResolvedNode) (parent : Option Nat)
    (m m' : Murl) : Prop :=
  ∀ (s t s' : Run) (bytes : Bytes) (origin : Origin),
    Replays L s t → locate env parent m s = .ok (bytes,origin) s' →
    (∃ node ∈ z, node.identity = some m.identity ∧ node.origin = origin ∧
      node.rawBytes = bytes) →
    ∃ origin' t', locate env' parent m' t = .ok (bytes,origin') t' ∧ Replays L s' t' ∧
      SameSource env (some m) origin origin' ∧ L.origin origin origin'

theorem follows_named {m m' : Murl} (hbare : Syntax.bare m' = Syntax.bare m) {depth : Nat}
    {parent : Option Nat}
    (hfound : Found L env (env.sited store remote cache clock) z parent m m')
    (hrec : ∀ (_ : depth + 1 ≤ env.limits.maxDepth) (child : Murl) (anchor pin : Option String)
      (node : Nat) (s t : Run), Replays L s t → Follows (Within z) (Replays L) (fun _ _ => True)
        (ingestNamed env child (depth + 1) anchor pin (some node))
        (ingestNamed (env.sited store remote cache clock) child (depth + 1) anchor pin
          (some node)) s t)
    (htime : SameTime L env clock) (h : Replays L s t) (anchor pin : Option String) :
    Follows (Within z) (Replays L) (fun _ _ => True) (ingestNamed env m depth anchor pin parent)
      (ingestNamed (env.sited store remote cache clock) m' depth anchor pin parent) s t := by
  have hback : ∀ (z : List ResolvedNode) (_ : depth + 1 ≤ env.limits.maxDepth) (child : Murl)
      (anchor pin : Option String) (node : Nat), Back (Within z)
        (ingestNamed env child (depth + 1) anchor pin (some node)) :=
    fun z _ child anchor pin node => back_ingestNamed child (depth + 1) anchor pin (some node)
  rw [ingestNamed,ingestNamed]
  refine Follows.bind (follows_countManifest h) ?_ fun _ => Back.bind (back_locate _ _) fun got =>
    Back.bind (Back.fromExcept _) fun _ => back_ingestBytes (hback z) _ _ _ _ _
  intro _ _ s₁ t₁ h₁ _ u s' hs hz
  obtain ⟨⟨bytes,origin⟩,s₂,hgot,hpinned⟩ := bind_eq_ok.mp hs
  obtain ⟨_,s₃,hpin,hread⟩ := bind_eq_ok.mp hpinned
  obtain ⟨hok,hsame⟩ := fromExcept_eq_ok.mp hpin
  rw [hsame] at hread
  obtain ⟨node,hnode,hid,horigin,hbytes⟩ := ingestBytes_pushes hback hread
  have hmem : node ∈ z := List.IsPrefix.subset (hnode.trans hz) (by simp)
  obtain ⟨origin',t₂,hgot',h₂,hsource,horigin'⟩ := hfound s₁ t₁ s₂ bytes origin h₁ hgot
    ⟨node,hmem,hid,horigin,hbytes⟩
  have hasked : (some m').map Syntax.bare = (some m).map Syntax.bare := congrArg some hbare
  have hbody : Follows (Within z) (Replays L) (fun _ _ => True)
      (ingestBytes env depth (fun _ child anchor pin node =>
        ingestNamed env child (depth + 1) anchor pin (some node)) (some m) bytes origin anchor
        parent)
      (ingestBytes (env.sited store remote cache clock) depth (fun _ child anchor pin node =>
        ingestNamed (env.sited store remote cache clock) child (depth + 1) anchor pin
          (some node)) (some m') bytes origin' anchor parent) s₂ t₂ :=
    follows_ingestBytes (hback z) hrec hasked htime h₂ hsource horigin' bytes anchor parent
  obtain ⟨v,t',ht,hrest⟩ := hbody u s' hread hz
  have hok' : (fromExcept (checkPin (env.sited store remote cache clock) bytes pin) :
      ResolveM Unit) t₂ = .ok () t₂ := fromExcept_eq_ok.mpr ⟨hok,rfl⟩
  refine ⟨v,t',?_,hrest⟩
  rw [bind_eq_ok]
  refine ⟨(bytes,origin'),t₂,hgot',?_⟩
  dsimp only
  rw [bind_eq_ok]
  exact ⟨(),t₂,hok',ht⟩

theorem follows_ingestNamed (hloc : Relocates L env (env.sited store remote cache clock) z)
    (htime : SameTime L env clock) (h : Replays L s t) (m : Murl) (depth : Nat) (anchor pin : Option String)
    (parent : Option Nat) :
    Follows (Within z) (Replays L) (fun _ _ => True) (ingestNamed env m depth anchor pin parent)
      (ingestNamed (env.sited store remote cache clock) m depth anchor pin parent) s t := by
  induction hn : env.limits.maxDepth - depth using Nat.strong_induction_on
    generalizing m depth anchor pin parent s t with
  | _ n ih =>
    refine follows_named rfl (hloc parent m) ?_ htime h anchor pin
    intro hd child anchor' pin' node s₁ t₁ h₁
    exact ih (env.limits.maxDepth - (depth + 1)) (by omega) h₁ child (depth + 1) anchor' pin'
      _ rfl

structure SameResolution (L : Leeway) (a b : Resolution) : Prop where
  nodes : List.Forall₂ (SameNode L) a.nodes b.nodes
  resources : b.resources = a.resources
  selector : b.selector = a.selector

theorem Replays.matchesIn (h : Replays L s t) (item : SelectorItem) :
    item.matchesIn t.st = item.matchesIn s.st := by
  unfold SelectorItem.matchesIn
  rw [h.resources]
  cases item with
  | id anchor =>
    dsimp only
    obtain hnodes := h.nodes
    generalize s.st.nodes = a at hnodes
    generalize t.st.nodes = b at hnodes
    cases hnodes with
    | nil => rfl
    | cons hab _ =>
      dsimp only [List.head?_cons]
      rw [hab.manifest]
  | role _ => rfl
  | tag _ => rfl

theorem Replays.finish (h : Replays L s t) {selector : Option (List SelectorItem)}
    {res : Resolution} (hres : finish s.st selector = .ok res) :
    ∃ res', MurlSystem.finish t.st selector = .ok res' ∧ SameResolution L res res' := by
  cases selector with
  | none =>
    obtain rfl : _ = res := by simpa [MurlSystem.finish] using hres
    exact ⟨_,rfl,h.nodes,h.resources,rfl⟩
  | some items =>
    have hcheck : checkSelector t.st = checkSelector s.st := by
      funext item
      unfold checkSelector
      rw [h.matchesIn]
    unfold MurlSystem.finish at hres ⊢
    dsimp only at hres ⊢
    rw [hcheck]
    cases hc : forM items (checkSelector s.st) with
    | error e =>
      rw [hc] at hres
      cases hres
    | ok u =>
      rw [hc] at hres
      obtain rfl : _ = res := by simpa [bind,Except.bind,pure,Except.pure] using hres
      refine ⟨_,rfl,h.nodes,?_,rfl⟩
      dsimp only
      rw [h.resources]

theorem Replays.start {before after : Cache} (h : L.cache after) :
    Replays L (Run.start before) (Run.start after) := ⟨.nil,rfl,rfl,rfl,rfl,rfl,h⟩

theorem resolve_again {before after : Cache} {m m' : Murl} {res : Resolution} {r : Run}
    (hid : m'.identity = m.identity) (hselector : m'.selector = m.selector)
    (hnamed : ∀ s t, Replays L s t → Follows (Within r.st.nodes) (Replays L) (fun _ _ => True)
      (ingestNamed env m 0 none none none)
      (ingestNamed (env.sited store remote cache clock) m' 0 none none none) s t)
    (hcache : L.cache after) (hrun : resolve env m (Run.start before) = .ok res r) :
    ∃ res' r', resolve (env.sited store remote cache clock) m' (Run.start after) = .ok res' r' ∧
      SameResolution L res res' := by
  have hstart : Replays L (Run.start before) (Run.start after) := Replays.start hcache
  unfold resolve at hrun ⊢
  rw [hid,hselector]
  obtain ⟨_,s₁,hpush,hrun⟩ := bind_eq_ok.mp hrun
  cases hpush
  obtain ⟨_,s₂,hread,hrun⟩ := bind_eq_ok.mp hrun
  obtain ⟨_,s₃,hpop,hrun⟩ := bind_eq_ok.mp hrun
  cases hpop
  obtain ⟨_,s₄,hget,hrun⟩ := bind_eq_ok.mp hrun
  cases hget
  obtain ⟨hfinish,rfl⟩ := fromExcept_eq_ok.mp hrun
  obtain ⟨_,t₂,hread',h₂,-⟩ := hnamed _ _ (hstart.pushStack m.identity) () s₂ hread
    (List.prefix_refl _)
  obtain ⟨res',hfinish',hsame⟩ := h₂.popStack.finish hfinish
  refine ⟨res',t₂.popStack,?_,hsame⟩
  exact bind_eq_ok.mpr ⟨_,_,rfl,bind_eq_ok.mpr ⟨_,t₂,hread',bind_eq_ok.mpr ⟨_,_,rfl,
    bind_eq_ok.mpr ⟨_,_,rfl,fromExcept_eq_ok.mpr ⟨hfinish',rfl⟩⟩⟩⟩⟩

theorem resolveRef_again {before after : Cache} {ref : TargetRef} {res : Resolution} {r : Run}
    (hloc : Relocates L env (env.sited store remote cache clock) r.st.nodes)
    (htime : SameTime L env clock) (hcache : L.cache after)
    (hfile : ∀ path, L.origin (.localFile path) (.localFile path))
    (hrun : resolveRef env ref (Run.start before) = .ok res r) :
    ∃ res' r', resolveRef (env.sited store remote cache clock) ref (Run.start after) =
      .ok res' r' ∧ SameResolution L res res' := by
  cases ref with
  | murl m =>
    exact resolve_again rfl rfl (fun s t hst => follows_ingestNamed hloc htime hst m 0 none none none)
      hcache hrun
  | file path =>
    have hstart : Replays L (Run.start before) (Run.start after) := Replays.start hcache
    have hback : ∀ (z : List ResolvedNode) (_ : 0 + 1 ≤ env.limits.maxDepth) (child : Murl)
        (anchor pin : Option String) (node : Nat), Back (Within z)
          (ingestNamed env child 1 anchor pin (some node)) :=
      fun z _ child anchor pin node => back_ingestNamed child 1 anchor pin (some node)
    change resolveFile env path (Run.start before) = .ok res r at hrun
    unfold resolveFile at hrun
    obtain ⟨bytes,s₁,hread,hrest⟩ := bind_eq_ok.mp hrun
    obtain ⟨hbytes,hsame⟩ := fromExcept_eq_ok.mp hread
    rw [hsame] at hrest
    obtain ⟨_,s₂,hroot,hlast⟩ := bind_eq_ok.mp hrest
    obtain ⟨_,s₃,hget,hlast⟩ := bind_eq_ok.mp hlast
    cases hget
    obtain ⟨hfinish,rfl⟩ := fromExcept_eq_ok.mp hlast
    have hfile' : (fromExcept (((env.sited store remote cache clock).files path).mapError
        fun e => .notFound s!"cannot read manifest {path}: {e}") : ResolveM Bytes)
        (Run.start after) = .ok bytes (Run.start after) := fromExcept_eq_ok.mpr ⟨hbytes,rfl⟩
    have hbody : Follows (Within r.st.nodes) (Replays L) (fun _ _ => True)
        (ingestBytes env 0 (fun _ child anchor pin node =>
          ingestNamed env child 1 anchor pin (some node)) none bytes (.localFile path) none none)
        (ingestBytes (env.sited store remote cache clock) 0 (fun _ child anchor pin node =>
          ingestNamed (env.sited store remote cache clock) child 1 anchor pin (some node)) none
          bytes (.localFile path) none none) (Run.start before) (Run.start after) :=
      follows_ingestBytes (hback r.st.nodes) (fun _ child anchor pin node s t hst =>
        follows_ingestNamed hloc htime hst child 1 anchor pin (some node)) rfl htime hstart
        (.refl env none (.localFile path)) (hfile path) bytes none none
    obtain ⟨_,t₂,hroot',h₂,-⟩ := hbody () _ hroot (List.prefix_refl _)
    obtain ⟨res',hfinish',hsame⟩ := h₂.finish hfinish
    refine ⟨res',t₂,?_,hsame⟩
    change resolveFile (env.sited store remote cache clock) path (Run.start after) = _
    unfold resolveFile
    rw [bind_eq_ok]
    refine ⟨bytes,_,hfile',?_⟩
    rw [bind_eq_ok]
    refine ⟨(),t₂,hroot',?_⟩
    exact bind_eq_ok.mpr ⟨_,_,rfl,fromExcept_eq_ok.mpr ⟨hfinish',rfl⟩⟩

end Follow

end MurlSystem

import MurlSystem.Resolution.Blind
import MurlSystem.Resolution.Offline
import MurlSystem.Trusting.Revoked

namespace MurlSystem

open Program

structure SameButTrust (L : TrustStatus → TrustStatus → Prop) (a b : ResolvedNode) : Prop where
  trust : L a.trust b.trust
  rest : b = { a with trust := b.trust }

def Run.withNodes (r : Run) (nodes : List ResolvedNode) : Run :=
  { r with st := { r.st with nodes := nodes } }

inductive Relabels (L : TrustStatus → TrustStatus → Prop) (r : Run) : Run → Prop
  | intro (nodes : List ResolvedNode) (h : List.Forall₂ (SameButTrust L) r.st.nodes nodes) :
    Relabels L r (r.withNodes nodes)

structure Resolution.Relabels (L : TrustStatus → TrustStatus → Prop) (res res' : Resolution) :
    Prop where
  nodes : List.Forall₂ (SameButTrust L) res.nodes res'.nodes
  rest : res' = { res with nodes := res'.nodes }

def Relabelled (L : TrustStatus → TrustStatus → Prop) (env : Env) (t u : TrustStore) : Prop :=
  ∀ murl origin verified, L (trustOf (env.trusting t) murl origin verified)
    (trustOf (env.trusting u) murl origin verified)

section Relabels

variable {L : TrustStatus → TrustStatus → Prop} {env : Env} {t u : TrustStore}

abbrev Labels (L : TrustStatus → TrustStatus → Prop) {α : Type} : ResolveM α → ResolveM α → Prop :=
  Lockstep (Relabels L) Eq

theorem labels_still {f : Run → Run} (hf : ∀ r nodes, f (r.withNodes nodes) = (f r).withNodes nodes)
    (hnodes : ∀ r, (f r).st.nodes = r.st.nodes) :
    Labels L (modify f : ResolveM PUnit) (modify f) := by
  refine Lockstep.modify fun r r' h => ?_
  cases h with
  | intro nodes h =>
    rw [hf]
    exact .intro nodes (by rwa [hnodes])

theorem labels_get_bind {α : Type} {Q : α → α → Prop} {f : Run → ResolveM α}
    (h : ∀ r nodes, List.Forall₂ (SameButTrust L) r.st.nodes nodes →
      Lockstep (Relabels L) Q (f r) (f (r.withNodes nodes))) :
    Lockstep (Relabels L) Q (get >>= f) (get >>= f) := by
  refine Lockstep.get.bind fun r r' hr => ?_
  cases hr with
  | intro nodes hnodes => exact h r nodes hnodes

theorem relabels_blind : Blind (Relabels L) where
  cache := by rintro r r' ⟨nodes,_⟩; rfl
  log := by rintro r r' ⟨nodes,_⟩; rfl
  ticks := by rintro r r' ⟨nodes,_⟩; rfl
  warn := by rintro r r' w ⟨nodes,h⟩; exact .intro nodes h
  access := by rintro r r' a ⟨nodes,h⟩; exact .intro nodes h
  tick := by rintro r r' ⟨nodes,h⟩; exact .intro nodes h
  store := by rintro r r' cache ⟨nodes,h⟩; exact .intro nodes h

theorem labels_warn (w : String) : Labels L (warn w) (warn w) := blind_warn relabels_blind w

theorem labels_warnWhen (c : Bool) (w : String) : Labels L (warnWhen c w) (warnWhen c w) :=
  blind_warnWhen relabels_blind c w

theorem labels_examine (hL : Relabelled L env t u)
    (murl : Option Murl) (bytes : Bytes) (origin : Origin) (depth : Nat) :
    Lockstep (Relabels L) (SameButTrust L) (examine (env.trusting t) murl bytes origin depth)
      (examine (env.trusting u) murl bytes origin depth) := by
  refine (Lockstep.fromExcept _).andThen fun manifest => ?_
  refine (Lockstep.forM (fun _ => labels_warn _) _).andThen fun _ => ?_
  refine (Lockstep.fromExcept _).andThen fun _ => ?_
  refine (Lockstep.fromExcept _).andThen fun verified => ?_
  refine (labels_warnWhen _ _).andThen fun _ => ?_
  refine (Lockstep.fromExcept _).andThen fun _ => ?_
  refine (blind_nowEpoch env relabels_blind).andThen fun now => ?_
  refine (labels_warnWhen _ _).andThen fun _ => (labels_warnWhen _ _).andThen fun _ => ?_
  exact Lockstep.pure ⟨hL murl origin verified,rfl⟩

theorem labels_planResource (env : Env) (site : Site) (i : Nat) (doc : ResourceDoc) (kind : Kind) :
    Labels L (planResource env site i doc kind) (planResource env site i doc kind) := by
  refine labels_get_bind fun r nodes _ => Lockstep.ite (Lockstep.throw _) (Lockstep.ite ?_ ?_)
  · exact (labels_warn _).andThen fun _ => labels_still (fun _ _ => by rfl) fun _ => by rfl
  · exact (labels_still (fun _ _ => by rfl) fun _ => by rfl).andThen fun _ =>
      labels_still (fun _ _ => by rfl) fun _ => by rfl

theorem labels_crossingWarning (site : Site) (child : Murl) :
    Labels L (crossingWarning site child) (crossingWarning site child) := by
  unfold crossingWarning
  cases site.murl with
  | none => exact Lockstep.pure rfl
  | some parent => exact labels_warnWhen _ _

theorem labels_spliceChild {site : Site}
    {recur recur' : Murl → Option String → Option String → Nat → ResolveM Unit}
    (h : ∀ child anchor integrity node,
      Labels L (recur child anchor integrity node) (recur' child anchor integrity node))
    (i : Nat) (doc : ResourceDoc) (child : Murl) :
    Labels L (spliceChild site recur i doc child) (spliceChild site recur' i doc child) := by
  refine Lockstep.get.bind fun r r' hr => ?_
  cases hr with
  | intro nodes hnodes =>
    refine Lockstep.ite (Lockstep.throw _) (Lockstep.ite ?_ ?_)
    · exact (labels_warn _).andThen fun _ => labels_still (fun _ _ => by rfl) fun _ => by rfl
    · refine (labels_crossingWarning site child).andThen fun _ => ?_
      refine (labels_still (fun _ _ => by rfl) fun _ => by rfl).andThen fun _ => ?_
      refine (labels_still (fun _ _ => by rfl) fun _ => by rfl).andThen fun _ => ?_
      refine (h child _ _ _).andThen fun _ => ?_
      exact (labels_still (fun _ _ => by rfl) fun _ => by rfl).andThen fun _ =>
        labels_still (fun _ _ => by rfl) fun _ => by rfl

theorem labels_spliceResource {site : Site}
    {recur recur' : site.depth + 1 ≤ env.limits.maxDepth →
      Murl → Option String → Option String → Nat → ResolveM Unit}
    (h : ∀ hd child anchor integrity node,
      Labels L (recur hd child anchor integrity node) (recur' hd child anchor integrity node))
    (resources : List ResourceDoc) (i : Nat) :
    Labels L (spliceResource (env.trusting t) site recur resources i)
      (spliceResource (env.trusting u) site recur' resources i) := by
  unfold spliceResource
  cases resources[i]? with
  | none => exact Lockstep.pure rfl
  | some doc =>
    refine (Lockstep.fromExcept _).andThen fun kind =>
      Lockstep.ite ?_ (labels_planResource env site i doc kind)
    refine (Lockstep.fromExcept _).andThen fun child => Lockstep.ite (Lockstep.throw _) ?_
    refine (labels_warnWhen _ _).andThen fun _ => ?_
    exact Lockstep.dite (fun hd => labels_spliceChild (h hd) i doc child) fun _ => Lockstep.throw _

theorem Relabels.pushNode {r r' : Run} (h : Relabels L r r') {a b : ResolvedNode}
    (hab : SameButTrust L a b) (call : Call) : Relabels L (r.pushNode a call) (r'.pushNode b call) := by
  cases h with
  | intro nodes h => exact .intro (nodes ++ [b]) (List.rel_append h (.cons hab .nil))

theorem labels_ingestBytes (hL : Relabelled L env t u) {depth : Nat}
    {recur recur' : depth + 1 ≤ env.limits.maxDepth →
      Murl → Option String → Option String → Nat → ResolveM Unit}
    (h : ∀ hd child anchor integrity node,
      Labels L (recur hd child anchor integrity node) (recur' hd child anchor integrity node))
    (murl : Option Murl) (bytes : Bytes) (origin : Origin) (anchor : Option String)
    (parent : Option Nat) :
    Labels L (ingestBytes (env.trusting t) depth recur murl bytes origin anchor parent)
      (ingestBytes (env.trusting u) depth recur' murl bytes origin anchor parent) := by
  refine (labels_examine hL murl bytes origin depth).bind fun a b hab => ?_
  refine Lockstep.get.bind fun r r' hr => ?_
  have hcount : r'.st.nodes.length = r.st.nodes.length := by
    cases hr with
    | intro nodes hnodes => exact hnodes.length_eq.symm
  have hdoc : b.manifest = a.manifest := by rw [hab.rest]
  rw [hdoc,hcount]
  refine (Lockstep.modify fun r r' hr => hr.pushNode hab _).andThen fun _ => ?_
  exact (Lockstep.fromExcept _).andThen fun order =>
    Lockstep.forM (labels_spliceResource h _) order

theorem labels_countManifest (env : Env) : Labels L (countManifest env) (countManifest env) := by
  refine (labels_still (fun _ _ => by rfl) fun _ => by rfl).andThen fun _ =>
    labels_get_bind fun r nodes _ => ?_
  exact Lockstep.ite (Lockstep.throw _) (Lockstep.pure rfl)

theorem labels_ingestNamed (hL : Relabelled L env t u) (m : Murl) (depth : Nat)
    (anchor integrity : Option String) (parent : Option Nat) :
    Labels L (ingestNamed (env.trusting t) m depth anchor integrity parent)
      (ingestNamed (env.trusting u) m depth anchor integrity parent) := by
  induction hn : env.limits.maxDepth - depth using Nat.strong_induction_on
    generalizing m depth anchor integrity parent with
  | _ n ih =>
    rw [ingestNamed,ingestNamed]
    refine (labels_countManifest env).andThen fun _ => (blind_locate env parent m relabels_blind).andThen
      fun found => (Lockstep.fromExcept _).andThen fun _ => ?_
    refine labels_ingestBytes hL (fun hd child anchor' integrity' node => ?_) _ _ _ _ _
    have hdeeper : depth + 1 ≤ env.limits.maxDepth := hd
    exact ih (env.limits.maxDepth - (depth + 1)) (by omega) child (depth + 1) _ _ _ rfl

theorem matchesIn_relabelled {r : Run} {nodes : List ResolvedNode}
    (h : List.Forall₂ (SameButTrust L) r.st.nodes nodes) (item : SelectorItem) :
    item.matchesIn (r.withNodes nodes).st = item.matchesIn r.st := by
  cases item with
  | role name => rfl
  | tag name => rfl
  | id anchor =>
    have hhead : (r.withNodes nodes).st.nodes.head?.map ResolvedNode.manifest =
        r.st.nodes.head?.map ResolvedNode.manifest := by
      obtain ⟨old,hold⟩ : ∃ old, old = r.st.nodes := ⟨_,rfl⟩
      change nodes.head?.map ResolvedNode.manifest = _
      rw [← hold] at h ⊢
      cases h with
      | nil => rfl
      | cons hroot _ =>
        rw [hroot.rest]
        rfl
    unfold SelectorItem.matchesIn
    cases hfirst : (r.withNodes nodes).st.nodes.head? with
    | none =>
      rw [hfirst] at hhead
      cases hsecond : r.st.nodes.head? with
      | none => rfl
      | some root =>
        rw [hsecond] at hhead
        cases hhead
    | some root' =>
      rw [hfirst] at hhead
      cases hsecond : r.st.nodes.head? with
      | none =>
        rw [hsecond] at hhead
        cases hhead
      | some root =>
        rw [hsecond] at hhead
        have hmanifest : root'.manifest = root.manifest := Option.some.inj hhead
        dsimp only
        rw [hmanifest]

theorem labels_finish (selector : Option (List SelectorItem)) :
    Lockstep (Relabels L) (Resolution.Relabels L)
      (get >>= fun run : Run => fromExcept (finish run.st selector) : ResolveM Resolution)
      (get >>= fun run : Run => fromExcept (finish run.st selector) : ResolveM Resolution) := by
  refine Lockstep.get.bind fun r r' hr => ?_
  cases hr with
  | intro nodes hnodes =>
    cases selector with
    | none => exact Lockstep.pure ⟨hnodes,rfl⟩
    | some items =>
      have hcheck : checkSelector (r.withNodes nodes).st = checkSelector r.st := by
        funext item
        rw [checkSelector,checkSelector,matchesIn_relabelled hnodes]
      unfold finish
      dsimp only
      rw [hcheck]
      cases forM items (checkSelector r.st) with
      | error e => exact Lockstep.throw e
      | ok _ => exact Lockstep.pure ⟨hnodes,rfl⟩

theorem labels_resolveRef (hL : Relabelled L env t u) (ref : TargetRef) :
    Lockstep (Relabels L) (Resolution.Relabels L) (resolveRef (env.trusting t) ref)
      (resolveRef (env.trusting u) ref) := by
  cases ref with
  | murl m =>
    refine (labels_still (fun _ _ => by rfl) fun _ => by rfl).andThen fun _ => ?_
    refine (labels_ingestNamed hL m 0 none none none).andThen fun _ => ?_
    exact (labels_still (fun _ _ => by rfl) fun _ => by rfl).andThen fun _ => labels_finish m.selector
  | file path =>
    refine (Lockstep.fromExcept _).andThen fun bytes => ?_
    refine (labels_ingestBytes hL (fun _ child anchor integrity node =>
      labels_ingestNamed hL child 1 anchor integrity (some node)) none bytes (.localFile path) none
        none).andThen fun _ => ?_
    exact labels_finish none

theorem relabels_start (cache : Cache) : Relabels L (Run.start cache) (Run.start cache) :=
  .intro [] .nil

end Relabels

section Pinning

def Vouches (a b : TrustStatus) : Prop :=
  a = b ∨ ∃ keyId, a = .signedUnknownKey keyId ∧ b = .signedTrusted keyId

variable {t u : TrustStore}

theorem trustOf_vouches (h : ∀ authority keyId, t.isTrusted authority keyId = true →
      u.isTrusted authority keyId = true) (env : Env) : Relabelled Vouches env t u := by
  intro murl origin verified
  have hasked (authority keyId : String) :
      Vouches (if t.isTrusted authority keyId then .signedTrusted keyId else .signedUnknownKey keyId)
        (if u.isTrusted authority keyId then .signedTrusted keyId else .signedUnknownKey keyId) := by
    by_cases ht : t.isTrusted authority keyId = true
    · rw [if_pos ht,if_pos (h _ _ ht)]
      exact .inl rfl
    · rw [if_neg ht]
      by_cases hu : u.isTrusted authority keyId = true
      · rw [if_pos hu]
        exact .inr ⟨keyId,rfl,rfl⟩
      · rw [if_neg hu]
        exact .inl rfl
  cases origin with
  | localStore p => exact .inl rfl
  | localFile p => exact .inl rfl
  | remote url fromCache =>
    cases verified with
    | none => exact .inl rfl
    | some v =>
      cases murl with
      | none => exact hasked "" v.keyId
      | some m => exact hasked m.authority.toString v.keyId

theorem pins_only_relabel (env : Env) (t u : TrustStore)
    (h : ∀ authority keyId, t.isTrusted authority keyId = true → u.isTrusted authority keyId = true)
    (ref : TargetRef) (cache : Cache) :
    Paired (Relabels Vouches) (Resolution.Relabels Vouches)
      (resolveRef (env.trusting t) ref (Run.start cache))
      (resolveRef (env.trusting u) ref (Run.start cache)) :=
  labels_resolveRef (trustOf_vouches h env) ref _ _ (relabels_start cache)

theorem unpinned (authority keyId : String) :
    (⟨[]⟩ : TrustStore).isTrusted authority keyId = false := by
  rw [isTrusted_eq]
  cases normalizeAuthority authority <;> rfl

def keyedStore : TrustStore := ⟨[("a.com",[⟨"ed25519:00","",none⟩])]⟩

theorem nesting_relabelled : Paired (Relabels Vouches) (Resolution.Relabels Vouches)
    (resolveRef (nestingEnv.trusting ⟨[]⟩) nestingRef (Run.start Cache.empty))
    (resolveRef (nestingEnv.trusting keyedStore) nestingRef (Run.start Cache.empty)) := by
  refine pins_only_relabel nestingEnv ⟨[]⟩ keyedStore (fun authority keyId h => ?_) nestingRef
    Cache.empty
  rw [unpinned] at h
  cases h

end Pinning

end MurlSystem

import MurlSystem.Foundation.Fallible
import MurlSystem.Resolution.Locate
import MurlSystem.Resolution.Outcome

namespace MurlSystem

open Program

inductive Supplied (env : Env) : Option Murl → Bytes → Origin → Prop
  | file (path : String) (bytes : Bytes) (read : env.files path = .ok bytes) :
      Supplied env none bytes (.localFile path)
  | store (m : Murl) (path : String) (bytes : Bytes) (atHome : m.authority.isLocal = true)
      (loaded : env.localStore.load m = .ok (bytes,path)) :
      Supplied env (some m) bytes (.localStore path)
  | cached (m : Murl) (cache : Cache) (now : Nat) (entry : CacheEntry)
      (away : m.authority.isLocal = false)
      (got : (cache.get env.crates m.identity (ttlOf env.limits m.version) now).1 = some entry) :
      Supplied env (some m) entry.bytes (.remote entry.info.url true)
  | fetched (m : Murl) (fetcher : List String → String → Except Error Bytes) (seen : List String)
      (url : String) (bytes : Bytes) (online : env.remote = some fetcher)
      (named : wellKnownUrl m = some url) (answer : fetcher seen url = .ok bytes)
      (small : bytes.length ≤ env.limits.maxManifestBytes) :
      Supplied env (some m) bytes (.remote url false)

structure CheckedSignature (crates : Crates) (raw : Value) (v : VerifiedSignature) : Prop where
  block : ∃ members block sigB64 pk sig bytes, raw = .object members ∧
    members.lookup "signature" = some (.object block) ∧
    signatureField block "alg" = .ok "ed25519" ∧
    signatureField block "keyId" = .ok v.keyId ∧
    signatureField block "publicKey" = .ok v.publicKeyB64 ∧
    signatureField block "sig" = .ok sigB64 ∧
    crates.base64Decode v.publicKeyB64 = .ok pk ∧ pk.length = 32 ∧
    keyIdFor crates pk = v.keyId ∧
    crates.base64Decode sigB64 = .ok sig ∧ sig.length = 64 ∧
    signableBytes raw = .ok bytes ∧ crates.ed25519Verify pk bytes sig = true

structure Bound (m : Murl) (declared : String) : Prop where
  parsed : ∃ d, Murl.parse declared = .ok d ∧ d.authority = m.authority ∧ d.name = m.name ∧
    ∀ a b, d.version = .pinned a → m.version = .pinned b → a = b

structure Gauntlet (env : Env) (murl : Option Murl) (node : ResolvedNode) : Prop where
  identity : node.identity = murl.map Murl.identity
  supplied : Supplied env murl node.rawBytes node.origin
  small : node.rawBytes.length ≤ env.limits.maxManifestBytes
  strict : fromSliceStrict env.crates node.rawBytes = .ok node.manifest.raw
  parsed : Manifest.fromSlice env.crates node.rawBytes env.limits = .ok node.manifest
  valid : (node.manifest.validate env.crates).errors = []
  verified : ∃ v, verifyManifest env.crates node.manifest.raw = .ok v ∧
    node.trust = trustOf env murl node.origin v
  localTrust : node.trust = .local ↔ node.origin.isRemote = false
  trusted : ∀ keyId, node.trust = .signedTrusted keyId → ∃ m v, murl = some m ∧
    v.keyId = keyId ∧ CheckedSignature env.crates node.manifest.raw v ∧
    env.trustStore.isTrusted m.authority.toString keyId = true
  bound : ∀ m declared, murl = some m → node.manifest.doc.id = some declared → Bound m declared

section Supply

variable {env : Env}

theorem Supplied.unselected {m : Murl} {bytes : Bytes} {origin : Origin}
    (h : Supplied env (some m) bytes origin) : Supplied env (some m.unselected) bytes origin := by
  cases h with
  | store m path bytes atHome loaded => exact .store m.unselected path bytes atHome loaded
  | cached m cache now entry away got => exact .cached m.unselected cache now entry away got
  | fetched m fetcher seen url bytes online named answer small =>
    exact .fetched m.unselected fetcher seen url bytes online named answer small

theorem acceptFetched_supplied {m : Murl} {url : String} {bytes : Bytes} {now : Nat} {r : Run}
    (h : bytes.length ≤ env.limits.maxManifestBytes → Supplied env (some m) bytes (.remote url false)) :
    wp (acceptFetched env m url bytes now) (fun got _ => Supplied env (some m) got.1 got.2)
      (fun _ _ => True) r := by
  unfold acceptFetched
  rw [wp_ite]
  refine ⟨fun _ => trivial,?_⟩
  intro hsmall
  rw [wp_bind]
  refine wp_of_result ?_ (fun _ _ _ => trivial)
  intro _ _ _
  rw [wp_pure]
  exact h (not_lt.mp hsmall)

theorem locateRemote_supplied {parent : Option Nat} {m : Murl} {now : Nat}
    {cached : Option CacheEntry} {r : Run} (away : m.authority.isLocal = false)
    (hcached : ∀ entry, cached = some entry →
      Supplied env (some m) entry.bytes (.remote entry.info.url true)) :
    wp (locateRemote env parent m now cached) (fun got _ => Supplied env (some m) got.1 got.2)
      (fun _ _ => True) r := by
  obtain ⟨url,hurl⟩ := wellKnownUrl_isSome m away
  unfold locateRemote
  rw [hurl,Option.getD_some]
  cases hremote : env.remote with
  | none =>
    cases cached with
    | none => trivial
    | some entry => exact hcached entry rfl
  | some fetcher =>
    dsimp only
    unfold fetchUrl
    rw [wp_bind,wp_bind,wp_get,wp_bind,wp_modify,wp_pure]
    cases hanswer : fetcher r.fetched url with
    | ok bytes =>
      exact acceptFetched_supplied fun hsmall =>
        .fetched m fetcher r.fetched url bytes hremote hurl hanswer hsmall
    | error e =>
      cases cached with
      | none => trivial
      | some entry => exact hcached entry rfl

theorem locate_supplied (env : Env) (parent : Option Nat) (m : Murl) (r : Run) :
    wp (locate env parent m) (fun got _ => Supplied env (some m) got.1 got.2)
      (fun _ _ => True) r := by
  unfold locate
  cases hlocal : m.authority.isLocal with
  | true =>
    rw [if_pos rfl]
    unfold loadLocal
    rw [wp_bind,wp_modify,wp_bind,wp_fromExcept]
    refine ⟨?_,fun _ _ => trivial⟩
    rintro ⟨bytes,path⟩ hload
    exact .store m path bytes hlocal hload
  | false =>
    rw [if_neg (by simp),wp_bind,wp_nowEpoch,wp_bind]
    have hlook : wp (cacheGet env parent m (env.clock r.ticks))
        (fun cached _ => ∀ entry, cached = some entry →
          Supplied env (some m) entry.bytes (.remote entry.info.url true))
        (fun _ _ => True) r.tick := by
      unfold cacheGet
      cases env.cache with
      | none =>
        intro entry h
        cases h
      | some fault =>
        intro entry h
        exact .cached m _ _ entry hlocal h
    refine wp_mono hlook ?_ (fun _ _ _ => trivial)
    intro cached r' hcached
    cases cached with
    | none => exact locateRemote_supplied hlocal hcached
    | some entry =>
      dsimp only
      split
      · exact hcached entry rfl
      · exact locateRemote_supplied hlocal hcached

end Supply

section Checks

variable {env : Env}

theorem verifyManifest_signed {crates : Crates} {raw : Value} {v : VerifiedSignature}
    (h : verifyManifest crates raw = .ok (some v)) : CheckedSignature crates raw v := by
  unfold verifyManifest at h
  split at h
  · rename_i members
    split at h
    · cases h
    · rename_i block hblock
      simp only [Fallible.map_ok,Option.some.injEq,exists_eq_right,checkSignature,Fallible.bind_ok,
        Fallible.ite_ok,Fallible.throw_ok,Fallible.mapError_ok,Fallible.pure_ok,false_and,
        exists_false,and_false,false_or,bne_iff_ne,ne_eq,Decidable.not_not,Bool.not_eq_true',
        Bool.not_eq_false] at h
      obtain ⟨alg,halg,rfl,keyId,hkey,pkB64,hpkB64,sigB64,hsigB64,pk,hpk,hlen,hid,sig,hsig,hlen',
        _,_,bytes,hbytes,hverify,rfl⟩ := h
      exact ⟨members,block,sigB64,pk,sig,bytes,rfl,hblock,halg,hkey,hpkB64,hsigB64,hpk,hlen,hid,
        hsig,hlen',hbytes,hverify⟩
    · cases h
  · cases h

theorem bindIdentity_ok {m : Murl} {origin : Origin} {doc : ManifestDoc} {declared : String}
    (h : bindIdentity (some m) origin doc = .ok ()) (hid : doc.id = some declared) :
    Bound m declared := by
  unfold bindIdentity at h
  rw [hid] at h
  dsimp only at h
  split at h
  · cases h
  · rename_i d hd
    split at h
    · cases h
    · rename_i hclash
      simp only [Bool.or_eq_true,Bool.not_eq_true',Bool.and_eq_false_iff,beq_eq_false_iff_ne,
        ne_eq,not_or,not_not,Bool.not_eq_true] at hclash
      obtain ⟨⟨hauth,hname⟩,hver⟩ := hclash
      refine ⟨d,hd,hauth,hname,?_⟩
      intro a b ha hb
      simpa [versionConflicts,ha,hb] using hver

theorem trustOf_local {murl : Option Murl} {origin : Origin} {v : Option VerifiedSignature} :
    trustOf env murl origin v = .local ↔ origin.isRemote = false := by
  cases origin with
  | localStore path => simp [trustOf,Origin.isRemote]
  | localFile path => simp [trustOf,Origin.isRemote]
  | remote url fromCache =>
    cases v with
    | none => simp [trustOf,Origin.isRemote]
    | some v => cases murl <;> simp only [trustOf,Origin.isRemote] <;> split <;> simp

theorem trustOf_trusted {murl : Option Murl} {origin : Origin} {v : Option VerifiedSignature}
    {keyId : String} (h : trustOf env murl origin v = .signedTrusted keyId) :
    origin.isRemote = true ∧ ∃ w, v = some w ∧ w.keyId = keyId ∧
      ∀ m, murl = some m → env.trustStore.isTrusted m.authority.toString keyId = true := by
  cases origin with
  | localStore path => cases h
  | localFile path => cases h
  | remote url fromCache =>
    cases v with
    | none => cases h
    | some w =>
      cases murl with
      | none =>
        simp only [trustOf] at h
        split at h <;> cases h
        exact ⟨rfl,w,rfl,rfl,nofun⟩
      | some m =>
        simp only [trustOf] at h
        split at h
        · rename_i htrust
          cases h
          refine ⟨rfl,w,rfl,rfl,?_⟩
          rintro m' hm
          cases hm
          exact htrust
        · cases h

theorem Supplied.named {murl : Option Murl} {bytes : Bytes} {origin : Origin}
    (h : Supplied env murl bytes origin) (hremote : origin.isRemote = true) :
    ∃ m, murl = some m := by
  cases h with
  | file path bytes read => cases hremote
  | store m path bytes atHome loaded => cases hremote
  | cached m cache now entry away got => exact ⟨m,rfl⟩
  | fetched m fetcher seen url bytes online named answer small => exact ⟨m,rfl⟩

theorem Admitted.gauntlet {req : Request} {bytes : Bytes} {origin : Origin} {node : ResolvedNode}
    (h : Admitted env req bytes origin node) (hs : Supplied env req.murl bytes origin) :
    Gauntlet env req.murl node := by
  obtain ⟨hid,rfl,rfl,-,hparsed,hvalid,hbound,v,hverified,htrust⟩ := h
  obtain ⟨hsmall,hstrict,-⟩ := Manifest.fromSlice_iff.mp hparsed
  refine ⟨hid,hs,hsmall,hstrict,hparsed,hvalid,⟨v,hverified,htrust⟩,?_,?_,?_⟩
  · rw [htrust]
    exact trustOf_local
  · intro keyId hkey
    rw [htrust] at hkey
    obtain ⟨hremote,w,rfl,hw,hpinned⟩ := trustOf_trusted hkey
    obtain ⟨m,hm⟩ := hs.named hremote
    exact ⟨m,w,hm,hw,verifyManifest_signed hverified,hpinned m hm⟩
  · intro m declared hm hdeclared
    rw [hm] at hbound
    exact bindIdentity_ok hbound hdeclared

theorem Gauntlet.unselected {murl : Option Murl} {node : ResolvedNode}
    (h : Gauntlet env murl node) : Gauntlet env (murl.map Murl.unselected) node := by
  cases murl with
  | none => exact h
  | some m =>
    refine ⟨h.identity,h.supplied.unselected,h.small,h.strict,h.parsed,h.valid,?_,h.localTrust,?_,?_⟩
    · obtain ⟨v,hv,htrust⟩ := h.verified
      refine ⟨v,hv,?_⟩
      rw [htrust]
      cases node.origin <;> rfl
    · intro keyId hkey
      obtain ⟨m',v,hm,hv,hsig,hpinned⟩ := h.trusted keyId hkey
      cases hm
      exact ⟨m.unselected,v,rfl,hv,hsig,hpinned⟩
    · intro m' declared hm hdeclared
      cases hm
      obtain ⟨hparsed⟩ := h.bound m declared rfl hdeclared
      exact ⟨hparsed⟩

end Checks

section Runs

variable {env : Env} {cache : Cache} {ref : TargetRef}

structure Screened (env : Env) (c : Config) : Prop where
  nodes : List.Forall₂ (fun call node => Gauntlet env call.murl node) c.run.calls c.run.st.nodes
  found : ∀ req bytes origin, .found req bytes origin ∈ c.frames →
    Supplied env req.murl bytes origin

theorem Step.nodes_cases {c c' : Config} (h : Step env c c') :
    (c'.run.st.nodes = c.run.st.nodes ∧ c'.run.calls = c.run.calls) ∨
    ∃ req bytes origin node, .found req bytes origin ∈ c.frames ∧
      Admitted env req bytes origin node ∧
      c'.run = c.run.pushNode node ⟨req.parent,req.murl.map Murl.unselected⟩ := by
  cases h with
  | locate r r' fs req m bytes origin named room got =>
    obtain ⟨⟨ws,hst⟩,hcalls,-,-⟩ := (locate_ok got).1
    exact .inl ⟨by rw [hst]; rfl,hcalls⟩
  | lost r r' fs req m e named room got =>
    obtain ⟨⟨ws,hst⟩,hcalls,-,-⟩ := locate_error got
    exact .inl ⟨by rw [hst]; rfl,hcalls⟩
  | enter r fs req bytes origin node order pin admitted ordered =>
    exact .inr ⟨req,bytes,origin,node,by simp,admitted,rfl⟩
  | note => exact .inl ⟨rfl,rfl⟩
  | overBudget => exact .inl ⟨rfl,rfl⟩
  | plan => exact .inl ⟨rfl,rfl⟩
  | duplicate => exact .inl ⟨rfl,rfl⟩
  | diamond => exact .inl ⟨rfl,rfl⟩
  | splice => exact .inl ⟨rfl,rfl⟩
  | close => exact .inl ⟨rfl,rfl⟩

theorem Step.found_cases {c c' : Config} (h : Step env c c') {req : Request} {bytes : Bytes}
    {origin : Origin} (hf : .found req bytes origin ∈ c'.frames) :
    .found req bytes origin ∈ c.frames ∨ Supplied env req.murl bytes origin := by
  cases h with
  | locate r r' fs req' m bytes' origin' named room got =>
    rcases List.mem_cons.mp hf with hf | hf
    · cases hf
      rw [named]
      have hsupplied := wp_ok (locate_supplied env req.parent m r.count) got
      exact .inr hsupplied
    · exact .inl (List.mem_cons_of_mem _ hf)
  | lost => exact .inl (by simpa using hf)
  | enter => exact .inl (by simp_all)
  | note => exact .inl hf
  | overBudget => exact .inl hf
  | plan => exact .inl (by simp_all)
  | duplicate => exact .inl (by simp_all)
  | diamond => exact .inl (by simp_all)
  | splice => exact .inl (by simp_all)
  | close => exact .inl (by simp_all)

theorem Screened.step {c c' : Config} (h : Screened env c) (hs : Step env c c') : Screened env c' := by
  constructor
  · rcases hs.nodes_cases with ⟨hn,hc⟩ | ⟨req,bytes,origin,node,hf,hadmitted,hrun⟩
    · rw [hn,hc]
      exact h.nodes
    · have hg := (hadmitted.gauntlet (h.found req bytes origin hf)).unselected
      rw [hrun]
      exact List.rel_append h.nodes (.cons hg .nil)
  · intro req bytes origin hf
    rcases hs.found_cases hf with hold | hnew
    · exact h.found req bytes origin hold
    · exact hnew

theorem Screened.reachable {c : Config} (h : (walkSystem env cache ref).Reachable c) :
    Screened env c := by
  refine Transition.System.invariant (Screened env) ?_ (fun _ _ _ hI hs => hI.step hs) h
  intro c₀ h₀
  cases h₀ with
  | named m => exact ⟨.nil,by simp⟩
  | file path bytes hread =>
    refine ⟨.nil,?_⟩
    intro req b origin hf
    obtain ⟨hreq,hb,horigin⟩ : req = Request.file ∧ b = bytes ∧ origin = .localFile path := by
      simpa using hf
    rw [hreq,hb,horigin]
    exact .file path bytes hread

theorem Step.nodes_prefix {c c' : Config} (h : Step env c c') :
    c.run.st.nodes <+: c'.run.st.nodes := by
  rcases h.nodes_cases with ⟨hn,-⟩ | ⟨req,bytes,origin,node,-,-,hrun⟩
  · rw [hn]
  · rw [hrun]
    exact List.prefix_append _ _

theorem Path.nodes_prefix {c c' : Config} (h : Path env c c') :
    c.run.st.nodes <+: c'.run.st.nodes := by
  induction h with
  | refl => exact List.prefix_refl _
  | tail _ hs ih => exact ih.trans hs.nodes_prefix

theorem Finished.screened {r : Run} (h : Finished env cache ref r) :
    List.Forall₂ (fun call node => Gauntlet env call.murl node) r.calls r.st.nodes := by
  cases h with
  | all r stack site rs h =>
    have hscreened := Screened.reachable h
    exact hscreened.nodes

theorem resolveRef_gauntlet (env : Env) (cache : Cache) (ref : TargetRef) :
    wp (resolveRef env ref)
      (fun res r => List.Forall₂ (fun call node => Gauntlet env call.murl node) r.calls res.nodes)
      (fun _ _ => True) (Run.start cache) ∧
    ∀ c c', (walkSystem env cache ref).Reachable c → Path env c c' →
      ∀ (k : Nat) (node : ResolvedNode), c.run.st.nodes[k]? = some node →
        c'.run.st.nodes[k]? = some node := by
  constructor
  · refine wp_mono (resolveRef_spec env cache ref) ?_ (fun _ _ _ => trivial)
    rintro res r ⟨hfinished,hres⟩
    obtain ⟨hnodes,-,-⟩ := finish_ok hres
    rw [hnodes]
    exact hfinished.screened
  · intro c c' _ hpath k node hnode
    obtain ⟨hk,-⟩ := List.getElem?_eq_some_iff.mp hnode
    obtain ⟨rest,hrest⟩ := hpath.nodes_prefix
    rw [← hrest,List.getElem?_append_left hk]
    exact hnode

end Runs

end MurlSystem

import MurlSystem.Canonical.Lossless
import MurlSystem.Resolution.Gauntlet
import MurlSystem.Resolution.Sequence
import MurlSystem.Trusting.Signed

namespace MurlSystem

open Program

structure Discharged (m : Manifest) : Prop where
  kinds : ∀ r ∈ m.doc.resources, ∃ kind, Kind.parse r.kind = .ok kind
  targets : ∀ r ∈ m.doc.resources, Kind.parse r.kind = .ok .murl →
    ∃ child, Murl.parse r.target = .ok child
  declared : ∀ id, m.doc.id = some id → ∃ d, Murl.parse id = .ok d
  order : ∃ order, executionOrder m.doc.resources = .ok order
  expires : ∀ stamp, m.doc.expires = some stamp → ∃ t, parseRfc3339Utc stamp = .ok t
  notBefore : ∀ stamp, m.doc.notBefore = some stamp → ∃ t, parseRfc3339Utc stamp = .ok t
  signable : ∃ bytes, signableBytes m.raw = .ok bytes

section Validated

variable {crates : Crates} {m : Manifest} {r : ResourceDoc}

theorem validateResource_kind {all earlier : List ResourceDoc}
    (h : (validateResource crates all earlier r).errors = []) :
    (∃ kind, Kind.parse r.kind = .ok kind) ∧
      (Kind.parse r.kind = .ok .murl → ∃ child, Murl.parse r.target = .ok child) := by
  simp only [validateResource,validateResourceTarget,ValidationReport.append_errors,
    List.append_eq_nil_iff,ValidationReport.ofExcept_errors_nil,
    ValidationReport.forOption_errors_nil,ValidationReport.when_errors_nil,
    ValidationReport.error_errors] at h
  obtain ⟨⟨⟨⟨⟨⟨⟨⟨⟨-,-⟩,hkind⟩,⟨hpresent,hcontrol⟩,htarget⟩,-⟩,-⟩,-⟩,-⟩,-⟩,-⟩ := h
  refine ⟨hkind,?_⟩
  intro hmurl
  have hreaches : reachesTarget r = some .murl := by
    have hthere : targetPresent r.target = true := by
      cases hp : targetPresent r.target with
      | true => rfl
      | false => simp [hp] at hpresent
    have hclean : hasControl r.target = false := by
      cases hc : hasControl r.target with
      | false => rfl
      | true => simp [hthere,hc] at hcontrol
    rw [reachesTarget,hthere,hclean,hmurl]
    rfl
  obtain ⟨⟨⟨u,hok⟩,-⟩,-⟩ := htarget .murl hreaches
  rw [validateTarget] at hok
  split at hok
  · next child hchild => exact ⟨child,hchild⟩
  · cases hok

theorem validateHeader_dates {d : ManifestDoc} (h : (validateHeader d).errors = []) :
    (∀ id, d.id = some id → ∃ m, Murl.parse id = .ok m) ∧
    (∀ stamp, d.expires = some stamp → ∃ t, parseRfc3339Utc stamp = .ok t) ∧
    ∀ stamp, d.notBefore = some stamp → ∃ t, parseRfc3339Utc stamp = .ok t := by
  simp only [validateHeader,ValidationReport.append_errors,List.append_eq_nil_iff,
    ValidationReport.forOption_errors_nil,ValidationReport.ofExcept_errors_nil] at h
  obtain ⟨⟨⟨⟨⟨-,hid⟩,-⟩,hexpires⟩,hnotBefore⟩,-⟩ := h
  refine ⟨?_,hexpires,hnotBefore⟩
  intro id hsome
  have hchecked := hid id hsome
  rw [validateId] at hchecked
  split at hchecked
  · next m hm => exact ⟨m,hm⟩
  · simp at hchecked

theorem validate_numbers (h : (m.validate crates).errors = []) : Serde.Integral m.raw := by
  simp only [Manifest.validate,ValidationReport.append_errors,List.append_eq_nil_iff] at h
  exact (Serde.walkNumbers_iff m.raw "").mp h.2

theorem validate_discharges {bytes : Bytes} {limits : Limits}
    (hread : Manifest.fromSlice crates bytes limits = .ok m)
    (h : (m.validate crates).errors = []) : Discharged m := by
  have heach : ∀ r ∈ m.doc.resources, (∃ kind, Kind.parse r.kind = .ok kind) ∧
      (Kind.parse r.kind = .ok .murl → ∃ child, Murl.parse r.target = .ok child) := by
    intro r hr
    obtain ⟨i,hi⟩ := List.mem_iff_getElem?.mp hr
    exact validateResource_kind (validate_at h hi)
  have hhead := (validate_head h).1
  simp only [ValidationReport.append_errors,List.append_eq_nil_iff] at hhead
  obtain ⟨hid,hexpires,hnotBefore⟩ := validateHeader_dates hhead.1
  obtain ⟨-,-,hraw,-⟩ := Manifest.fromSlice_iff.mp hread
  obtain ⟨members,hobject⟩ := Value.isObject_iff.mp hraw
  have hnumbers := validate_numbers h
  rw [hobject] at hnumbers
  refine ⟨fun r hr => (heach r hr).1,fun r hr => (heach r hr).2,hid,validate_order h,hexpires,
    hnotBefore,?_⟩
  rw [hobject]
  exact signable_of_canonical ((Serde.canonicalJsonBytes_iff _).mpr hnumbers)

end Validated

structure Detour where
  kind : Except Error Kind
  target : Except Error Murl
  declared : Except Error Murl
  order : Except Error (List Nat)
  signable : Except Error Bytes
  epoch : Nat

section Via

variable (detour : Detour)

def orDetour {ε α : Type} (x : Except ε α) (y : Except Error α) : Except Error α :=
  match x with
  | .ok a => .ok a
  | .error _ => y

def checkSignatureVia (crates : Crates) (raw : Value) (block : List (String × Value)) :
    Except Error VerifiedSignature := do
  let alg ← signatureField block "alg"
  if alg != "ed25519" then throw (.trust s!"unsupported signature algorithm `{alg}`")
  let keyId ← signatureField block "keyId"
  let publicKeyB64 ← signatureField block "publicKey"
  let sigB64 ← signatureField block "sig"
  let pk ← (crates.base64Decode publicKeyB64).mapError
    fun e => .trust s!"bad publicKey encoding: {e}"
  if pk.length != 32 then throw (.trust "publicKey must be 32 bytes")
  if keyIdFor crates pk != keyId then throw (.trust "keyId does not match publicKey")
  let sig ← (crates.base64Decode sigB64).mapError fun e => .trust s!"bad sig encoding: {e}"
  if sig.length != 64 then throw (.trust "sig must be 64 bytes")
  (crates.verifyingKey pk).mapError fun e => .trust s!"invalid public key: {e}"
  let bytes ← orDetour (signableBytes raw) detour.signable
  if !crates.ed25519Verify pk bytes sig then
    throw (.trust "signature verification failed (manifest was modified after signing, or the signature is forged)")
  return ⟨keyId,publicKeyB64⟩

def verifyManifestVia (crates : Crates) (raw : Value) : Except Error (Option VerifiedSignature) :=
  match raw with
  | .object members =>
    match members.lookup "signature" with
    | none => .ok none
    | some (.object block) => (checkSignatureVia detour crates raw block).map some
    | some _ => .error (.trust "signature must be an object")
  | _ => .error (.manifest "manifest must be a JSON object")

def bindIdentityVia (murl : Option Murl) (origin : Origin) (doc : ManifestDoc) : Except Error Unit :=
  match murl,doc.id with
  | some requested,some declared =>
    match orDetour (Murl.parse declared) detour.declared with
    | .error e => .error e
    | .ok declared =>
      let nameMatches := declared.authority == requested.authority &&
        declared.name == requested.name
      if !nameMatches || versionConflicts declared.version requested.version then
        .error (.resolution s!"manifest at {origin.describe} declares id `{declared.identity}` but was resolved as `{requested.identity}` — refusing a re-labeled manifest")
      else .ok ()
  | _,_ => .ok ()

def epochVia (stamp : String) : Nat := (parseRfc3339Utc stamp).toOption.getD detour.epoch

def isExpiredVia (doc : ManifestDoc) (now : Nat) : Bool :=
  match doc.expires with
  | some stamp => decide (epochVia detour stamp ≤ now)
  | none => false

def isPrematureVia (doc : ManifestDoc) (now : Nat) : Bool :=
  match doc.notBefore with
  | some stamp => decide (now < epochVia detour stamp)
  | none => false

variable (env : Env)

def examineVia (murl : Option Murl) (bytes : Bytes) (origin : Origin) (depth : Nat) :
    ResolveM ResolvedNode := do
  let label := labelOf murl origin
  let manifest ← fromExcept (Manifest.fromSlice env.crates bytes env.limits)
  let report := manifest.validate env.crates
  forM report.warnings fun w => warn s!"{label}: {w.path} — {w.message}"
  fromExcept report.intoResult
  let verified ← fromExcept (verifyManifestVia detour env.crates manifest.raw)
  warnWhen (verified.isSome && manifest.doc.id.isNone)
    s!"{label}: signed manifest carries no `id`; without it a valid signature can be replayed under a different name"
  fromExcept (bindIdentityVia detour murl origin manifest.doc)
  let now ← nowEpoch env
  let expired := isExpiredVia detour manifest.doc now
  let stamp := manifest.doc.expires.getD ""
  warnWhen expired s!"{label}: manifest expired at {stamp}"
  let premature := isPrematureVia detour manifest.doc now
  let stamp := manifest.doc.notBefore.getD ""
  warnWhen premature s!"{label}: manifest is not valid before {stamp}"
  return ⟨murl.map Murl.identity,origin,manifest,bytes,trustOf env murl origin verified,depth,
    expired,premature⟩

def spliceNestedVia (site : Site) (recur : site.depth + 1 ≤ env.limits.maxDepth →
      Murl → Option String → Option String → Nat → ResolveM Unit)
    (index : Nat) (r : ResourceDoc) : ResolveM Unit := do
  let child ← fromExcept (orDetour (Murl.parse r.target) detour.target)
  if Locality.of child.authority < site.source then
    throw (.resolution s!"{site.label} comes from {site.source.describe} and nests `{child.identity}`, which is on this machine; a manifest may nest only names at least as far away as itself")
  else do
    warnWhen child.selector.isSome
      s!"{site.label}: selector on nested mURL `{r.target}` is ignored"
    if h : site.depth + 1 ≤ env.limits.maxDepth then spliceChild site (recur h) index r child
    else
      throw (.limitExceeded
        s!"nesting depth exceeds {env.limits.maxDepth} at `{child.identity}`")

def spliceResourceVia (site : Site) (recur : site.depth + 1 ≤ env.limits.maxDepth →
      Murl → Option String → Option String → Nat → ResolveM Unit)
    (resources : List ResourceDoc) (index : Nat) : ResolveM Unit :=
  match resources[index]? with
  | none => pure ()
  | some r => do
    let kind ← fromExcept (orDetour (Kind.parse r.kind) detour.kind)
    if kind = .murl then spliceNestedVia detour env site recur index r
    else planResource env site index r kind

def ingestBytesVia (depth : Nat)
    (recur : depth + 1 ≤ env.limits.maxDepth →
      Murl → Option String → Option String → Nat → ResolveM Unit)
    (murl : Option Murl) (bytes : Bytes) (origin : Origin) (anchor : Option String)
    (parent : Option Nat) : ResolveM Unit := do
  let node ← examineVia detour env murl bytes origin depth
  let run ← get
  modify fun run => run.pushNode node ⟨parent,murl.map Murl.unselected⟩
  let order ← fromExcept (orDetour (executionOrder node.manifest.doc.resources) detour.order)
  forM order (spliceResourceVia detour env
    ⟨murl,labelOf murl origin,Locality.ofSource origin murl,depth,anchor,run.st.nodes.length⟩
    recur node.manifest.doc.resources)

def ingestNamedVia (murl : Murl) (depth : Nat) (anchor integrity : Option String)
    (parent : Option Nat) : ResolveM Unit := do
  countManifest env
  let (bytes,origin) ← locate env parent murl
  fromExcept (checkPin env bytes integrity)
  ingestBytesVia detour env depth
    (fun h child anchor integrity node =>
      ingestNamedVia child (depth + 1) anchor integrity (some node))
    (some murl) bytes origin anchor parent
termination_by env.limits.maxDepth - depth
decreasing_by omega

end Via

section Unreached

variable {detour : Detour} {env : Env}

theorem orDetour_ok {ε α : Type} {x : Except ε α} {a : α} (h : x = .ok a) (y : Except Error α) :
    orDetour x y = .ok a := by
  rw [h]
  rfl

theorem verifyManifest_via {crates : Crates} {m : Manifest} (h : Discharged m) :
    verifyManifestVia detour crates m.raw = verifyManifest crates m.raw := by
  obtain ⟨bytes,hbytes⟩ := h.signable
  have hsig : ∀ block, checkSignatureVia detour crates m.raw block =
      checkSignature crates m.raw block := by
    intro block
    rw [checkSignatureVia,checkSignature,orDetour_ok hbytes,hbytes]
  cases hraw : m.raw with
  | object members =>
    rw [hraw] at hsig
    unfold verifyManifestVia verifyManifest
    dsimp only
    cases members.lookup "signature" with
    | none => rfl
    | some field =>
      cases field with
      | object block => exact congrArg (Except.map some) (hsig block)
      | null | bool | number | string | array => rfl
  | null | bool | number | string | array => rfl

theorem bindIdentity_via {m : Manifest} (h : Discharged m) (murl : Option Murl) (origin : Origin) :
    bindIdentityVia detour murl origin m.doc = bindIdentity murl origin m.doc := by
  unfold bindIdentityVia bindIdentity
  cases murl with
  | none => rfl
  | some requested =>
    cases hid : m.doc.id with
    | none => rfl
    | some declared =>
      obtain ⟨d,hd⟩ := h.declared declared hid
      simp only [hd]
      rfl

theorem window_via {m : Manifest} (h : Discharged m) (now : Nat) :
    isExpiredVia detour m.doc now = isExpired m.doc now ∧
      isPrematureVia detour m.doc now = isPremature m.doc now := by
  have hepoch : ∀ {stamp t}, parseRfc3339Utc stamp = .ok t →
      epochVia detour stamp = epochOf stamp := by
    intro stamp t ht
    rw [epochVia,epochOf,ht]
    rfl
  constructor
  · unfold isExpiredVia isExpired
    cases hexp : m.doc.expires with
    | none => rfl
    | some stamp =>
      obtain ⟨t,ht⟩ := h.expires stamp hexp
      simp only [hepoch ht]
  · unfold isPrematureVia isPremature
    cases hnb : m.doc.notBefore with
    | none => rfl
    | some stamp =>
      obtain ⟨t,ht⟩ := h.notBefore stamp hnb
      simp only [hepoch ht]

theorem examine_via (murl : Option Murl) (bytes : Bytes) (origin : Origin) (depth : Nat) :
    examineVia detour env murl bytes origin depth = examine env murl bytes origin depth := by
  funext run
  unfold examineVia examine
  refine bind_congr_ok ?_
  intro manifest r₁ hmanifest
  refine bind_congr_ok ?_
  intro _ r₂ _
  refine bind_congr_ok ?_
  intro _ r₃ hreport
  have hread := (fromExcept_eq_ok.mp hmanifest).1
  have hdischarged := validate_discharges hread (ValidationReport.intoResult_ok.mp
    (fromExcept_eq_ok.mp hreport).1)
  rw [verifyManifest_via hdischarged,bindIdentity_via hdischarged]
  refine bind_congr_ok ?_
  intro verified r₄ _
  refine bind_congr_ok ?_
  intro _ r₅ _
  refine bind_congr_ok ?_
  intro _ r₆ _
  refine bind_congr_ok ?_
  intro now r₇ _
  rw [(window_via hdischarged now).1,(window_via hdischarged now).2]

theorem spliceResource_via {m : Manifest} (h : Discharged m) (site : Site)
    (recur : site.depth + 1 ≤ env.limits.maxDepth →
      Murl → Option String → Option String → Nat → ResolveM Unit) (index : Nat) :
    spliceResourceVia detour env site recur m.doc.resources index =
      spliceResource env site recur m.doc.resources index := by
  unfold spliceResourceVia spliceResource
  cases hr : m.doc.resources[index]? with
  | none => rfl
  | some r =>
    have hmem := List.mem_of_getElem? hr
    obtain ⟨kind,hkind⟩ := h.kinds r hmem
    simp only [hkind]
    cases kind with
    | murl =>
      obtain ⟨child,hchild⟩ := h.targets r hmem hkind
      unfold spliceNestedVia spliceNested
      rw [orDetour_ok hchild,hchild]
      rfl
    | _ => rfl

theorem forM_congr {α : Type} {f g : α → ResolveM Unit} (h : ∀ a, f a = g a) (l : List α) :
    forM l f = forM l g := by
  rw [funext h]

theorem ingestBytes_via {depth : Nat} {recur recur' : depth + 1 ≤ env.limits.maxDepth →
      Murl → Option String → Option String → Nat → ResolveM Unit} (hrecur : recur = recur')
    (murl : Option Murl) (bytes : Bytes) (origin : Origin) (anchor : Option String)
    (parent : Option Nat) :
    ingestBytesVia detour env depth recur murl bytes origin anchor parent =
      ingestBytes env depth recur' murl bytes origin anchor parent := by
  subst hrecur
  funext run
  unfold ingestBytesVia ingestBytes
  rw [examine_via]
  refine bind_congr_ok ?_
  intro node r₁ hnode
  have hdischarged : Discharged node.manifest := by
    have hspec := examine_spec env ⟨murl,depth,anchor,none,parent⟩ bytes origin run
    rw [wp,hnode] at hspec
    exact validate_discharges hspec.2.parsed hspec.2.valid
  obtain ⟨order,horder⟩ := hdischarged.order
  rw [orDetour_ok horder,horder]
  refine congrFun (bind_congr fun run' => ?_) r₁
  refine bind_congr fun _ => ?_
  refine bind_congr fun order' => ?_
  exact forM_congr (fun index => @spliceResource_via detour env node.manifest hdischarged
    ⟨murl,labelOf murl origin,Locality.ofSource origin murl,depth,anchor,run'.st.nodes.length⟩
    recur index) order'

theorem ingestNamed_via (m : Murl) (depth : Nat) (anchor integrity : Option String)
    (parent : Option Nat) : ingestNamedVia detour env m depth anchor integrity parent =
      ingestNamed env m depth anchor integrity parent := by
  induction hn : env.limits.maxDepth - depth using Nat.strong_induction_on
    generalizing m depth anchor integrity parent with
  | _ n ih =>
    rw [ingestNamedVia,ingestNamed]
    refine bind_congr fun _ => ?_
    refine bind_congr fun located => ?_
    refine bind_congr fun _ => ?_
    refine ingestBytes_via ?_ (some m) _ _ anchor parent
    funext hd child anchor' integrity' node
    exact ih (env.limits.maxDepth - (depth + 1)) (by omega) child (depth + 1) _ _ _ rfl

theorem validation_discharges (crates : Crates) :
    (∀ bytes limits m, Manifest.fromSlice crates bytes limits = .ok m →
      (m.validate crates).errors = [] → Discharged m) ∧
    ∀ (detour : Detour) (env : Env), (∀ depth recur murl bytes origin anchor parent,
      ingestBytesVia detour env depth recur murl bytes origin anchor parent =
        ingestBytes env depth recur murl bytes origin anchor parent) ∧
      ∀ m depth anchor integrity parent, ingestNamedVia detour env m depth anchor integrity parent =
        ingestNamed env m depth anchor integrity parent :=
  ⟨fun _ _ _ hread h => validate_discharges hread h,fun _ _ =>
    ⟨fun _ _ murl bytes origin anchor parent => ingestBytes_via rfl murl bytes origin anchor parent,
      ingestNamed_via⟩⟩

def soundPage : Value := manifestValue "P" [resourceValue "a" "https" "https://e.com" none]

theorem sound_page_discharged : ∃ m,
    Manifest.fromSlice (siteCrates [soundPage] [] []) (published soundPage) {} = .ok m ∧
      (m.validate (siteCrates [soundPage] [] [])).errors = [] ∧ Discharged m := by
  have hread : ((Manifest.fromSlice (siteCrates [soundPage] [] []) (published soundPage) {}).toOption.any
      fun m => (m.validate (siteCrates [soundPage] [] [])).errors.isEmpty) = true := by
    simp only [siteCrates,published_compact]
    decide +kernel
  cases hm : Manifest.fromSlice (siteCrates [soundPage] [] []) (published soundPage) {} with
  | error e =>
    rw [hm] at hread
    cases hread
  | ok m =>
    rw [hm] at hread
    have hvalid : (m.validate (siteCrates [soundPage] [] [])).errors = [] :=
      List.isEmpty_iff.mp hread
    exact ⟨m,rfl,hvalid,(validation_discharges _).1 _ _ m hm hvalid⟩

end Unreached

end MurlSystem

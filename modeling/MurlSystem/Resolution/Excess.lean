import MurlSystem.Foundation.Blame
import MurlSystem.Foundation.Text
import MurlSystem.Resolution.Examine

namespace MurlSystem

open Program Fallible

def totalExceeded (limits : Limits) : Error :=
  .limitExceeded s!"resolution exceeds {limits.maxTotalResources} total resources"

def OwnWords (env : Env) : Prop :=
  ∀ fetcher, env.remote = some fetcher →
    ∀ past url, fetcher past url ≠ .error (totalExceeded env.limits)

def Elsewhere (limits : Limits) (e : Error) : Prop := e ≠ totalExceeded limits

def Error.isLimit : Error → Bool
  | .limitExceeded _ => true
  | _ => false

def Unlimited (e : Error) : Prop := e.isLimit = false

structure Meets (c : Config) (site : Site) (i : Nat) (doc : ResourceDoc) (kind : Kind) : Prop where
  next : ∃ resources todo fs, c.frames = .walk site resources (i :: todo) :: fs ∧
    resources[i]? = some doc
  parsed : Kind.parse doc.kind = .ok kind
  leaf : kind ≠ .murl

structure Overfull (limits : Limits) (c : Config) : Prop where
  full : limits.maxTotalResources < c.run.st.resources.length + 1
  meets : ∃ site i doc kind, Meets c site i doc kind

section Elsewhere

variable {env : Env} {limits : Limits} {P : Error → Prop}

theorem Unlimited.elsewhere {e : Error} (h : Unlimited e) : Elsewhere limits e := by
  rintro rfl
  cases h

theorem elsewhere_of_text {p t : String} (hlen : 12 ≤ p.toList.length)
    (h : p.toList.take 12 ≠ "resolution exceeds ".toList.take 12) :
    Elsewhere limits (.limitExceeded (p ++ t)) := by
  intro heq
  unfold totalExceeded at heq
  rw [String.append_assoc] at heq
  exact Text.append_ne 12 hlen (by decide) h (Error.limitExceeded.inj heq)

theorem manifests_elsewhere (n : Nat) :
    Elsewhere limits (.limitExceeded s!"resolution touches more than {n} manifests") := by
  simp only [String.append_assoc]
  exact elsewhere_of_text (by decide) (by decide)

theorem depth_elsewhere (n : Nat) (name : String) :
    Elsewhere limits (.limitExceeded s!"nesting depth exceeds {n} at `{name}`") := by
  simp only [String.append_assoc]
  exact elsewhere_of_text (by decide) (by decide)

theorem fromSlice_elsewhere (crates : Crates) (bytes : Bytes) (limits : Limits) :
    Blames (Elsewhere limits) (Manifest.fromSlice crates bytes limits) := by
  unfold Manifest.fromSlice
  refine Blames.ite (Blames.error ?_) ?_
  · simp only [String.append_assoc]
    exact elsewhere_of_text (by decide) (by decide)
  · refine Blames.mono (fun _ he => Unlimited.elsewhere he) ?_
    cases fromSliceStrict crates bytes with
    | error e => exact Blames.error rfl
    | ok raw =>
      refine Blames.ite (Blames.error rfl) ?_
      cases ManifestDoc.fromValue raw with
      | error e => exact Blames.error rfl
      | ok doc => exact Blames.ok _

theorem intoResult_unlimited (rep : ValidationReport) : Blames Unlimited rep.intoResult := by
  unfold ValidationReport.intoResult
  cases rep.errors with
  | nil => exact Blames.ok _
  | cons i is => exact Blames.error rfl

theorem signableBytes_unlimited (raw : Value) : Blames Unlimited (signableBytes raw) := by
  unfold signableBytes
  cases raw with
  | object members =>
    dsimp only
    exact Blames.mapError (P := Unlimited) (by exact fun _ => rfl) _
  | _ => exact Blames.error rfl

theorem signatureField_unlimited (block : List (String × Value)) (name : String) :
    Blames Unlimited (signatureField block name) := by
  unfold signatureField
  cases (block.lookup name).bind Value.asStr with
  | none => exact Blames.error rfl
  | some s => exact Blames.ok s

theorem checkSignature_unlimited (crates : Crates) (raw : Value) (block : List (String × Value)) :
    Blames Unlimited (checkSignature crates raw block) := by
  unfold checkSignature
  refine (signatureField_unlimited _ _).bind fun alg => Blames.guard rfl ?_
  refine (signatureField_unlimited _ _).bind fun keyId =>
    (signatureField_unlimited _ _).bind fun publicKey =>
    (signatureField_unlimited _ _).bind fun sig64 => ?_
  refine (Blames.mapError (P := Unlimited) (by exact fun _ => rfl) _).bind fun pk => Blames.guard rfl (Blames.guard rfl ?_)
  refine (Blames.mapError (P := Unlimited) (by exact fun _ => rfl) _).bind fun sig => Blames.guard rfl ?_
  refine (Blames.mapError (P := Unlimited) (by exact fun _ => rfl) _).bind fun _ =>
    (signableBytes_unlimited _).bind fun bytes => ?_
  exact Blames.guard rfl (Blames.pure _)

theorem verifyManifest_unlimited (crates : Crates) (raw : Value) :
    Blames Unlimited (verifyManifest crates raw) := by
  unfold verifyManifest
  cases raw with
  | object members =>
    dsimp only
    cases members.lookup "signature" with
    | none => exact Blames.ok _
    | some v =>
      cases v with
      | object block => exact (checkSignature_unlimited crates _ block).map _
      | _ => exact Blames.error rfl
  | _ => exact Blames.error rfl

theorem bindIdentity_unlimited (murl : Option Murl) (origin : Origin) (doc : ManifestDoc) :
    Blames Unlimited (bindIdentity murl origin doc) := by
  unfold bindIdentity
  cases murl with
  | none => exact Blames.ok _
  | some requested =>
    cases doc.id with
    | none => exact Blames.ok _
    | some declared =>
      dsimp only
      cases Murl.parse declared with
      | error e => exact Blames.error rfl
      | ok d => exact Blames.ite (Blames.error rfl) (Blames.ok _)

theorem checkPin_unlimited (bytes : Bytes) (pin : Option String) :
    Blames Unlimited (checkPin env bytes pin) := by
  unfold checkPin
  cases pin with
  | none => exact Blames.ok _
  | some pin =>
    dsimp only
    unfold checkIntegrity
    cases pin.toList.dropPrefix? "sha256-".toList with
    | none => exact Blames.error rfl
    | some rest =>
      dsimp only
      cases env.crates.base64Decode (String.ofList rest) with
      | error e => exact Blames.error rfl
      | ok expected => exact Blames.ite (Blames.error rfl) (Blames.ok _)

theorem raises_warn (w : String) : Raises P (warn w) := Raises.modify _

theorem raises_warnWhen (c : Bool) (w : String) : Raises P (warnWhen c w) :=
  Raises.ite (raises_warn w) (Raises.pure _)

theorem nowEpoch_raises : Raises P (nowEpoch env) :=
  Raises.get.bind fun _ => (Raises.modify _).bind fun _ => Raises.pure _

theorem examine_elsewhere (murl : Option Murl) (bytes : Bytes) (origin : Origin) (depth : Nat) :
    Raises (Elsewhere env.limits) (examine env murl bytes origin depth) := by
  unfold examine
  have hlift : ∀ e : Error, Unlimited e → Elsewhere env.limits e := fun _ he => he.elsewhere
  refine (Raises.fromExcept (fromSlice_elsewhere _ _ _)).bind fun manifest => ?_
  refine (Raises.forM (fun _ => raises_warn _) _).bind fun _ =>
    (Raises.fromExcept (Blames.mono hlift (intoResult_unlimited _))).bind fun _ =>
    (Raises.fromExcept (Blames.mono hlift (verifyManifest_unlimited _ _))).bind fun verified => ?_
  refine (raises_warnWhen _ _).bind fun _ =>
    (Raises.fromExcept (Blames.mono hlift (bindIdentity_unlimited _ _ _))).bind fun _ =>
    nowEpoch_raises.bind fun now => ?_
  exact (raises_warnWhen _ _).bind fun _ => (raises_warnWhen _ _).bind fun _ => Raises.pure _

theorem cachePut_raises (murl : Murl) (url : String) (bytes : Bytes) (now : Nat) :
    Raises P (cachePut env murl url bytes now) := by
  unfold cachePut
  cases env.cache with
  | none => exact Raises.pure _
  | some fault =>
    refine Raises.get.bind fun r => (Raises.modify _).bind fun _ => ?_
    split
    · exact Raises.pure _
    · exact raises_warn _

theorem cacheGet_raises (parent : Option Nat) (murl : Murl) (now : Nat) :
    Raises P (cacheGet env parent murl now) := by
  unfold cacheGet
  cases env.cache with
  | none => exact Raises.pure _
  | some fault => exact Raises.get.bind fun r => (Raises.modify _).bind fun _ => Raises.pure _

theorem acceptFetched_elsewhere (m : Murl) (url : String) (bytes : Bytes) (now : Nat) :
    Raises (Elsewhere env.limits) (acceptFetched env m url bytes now) := by
  unfold acceptFetched
  refine Raises.ite (Raises.throw ?_) ?_
  · simp only [String.append_assoc]
    exact elsewhere_of_text (by decide) (by decide)
  · exact (cachePut_raises _ _ _ _).bind fun _ => Raises.pure _

theorem locateRemote_elsewhere (hown : OwnWords env) (parent : Option Nat) (m : Murl) (now : Nat)
    (cached : Option CacheEntry) :
    Raises (Elsewhere env.limits) (locateRemote env parent m now cached) := by
  unfold locateRemote
  cases hr : env.remote with
  | none =>
    cases cached with
    | none => exact Raises.throw (Unlimited.elsewhere rfl)
    | some entry => exact (raises_warn _).bind fun _ => Raises.pure _
  | some fetcher =>
    dsimp only
    have hasks : Raises (Elsewhere env.limits)
        (fetchUrl parent m fetcher ((wellKnownUrl m).getD "")) :=
      Raises.get.bind fun r => (Raises.modify _).bind fun _ => Raises.pure _
    refine hasks.bind_of ?_
    intro s answer s' hask
    have hanswer : answer = fetcher s.fetched ((wellKnownUrl m).getD "") := by
      cases hask
      rfl
    cases answer with
    | ok bytes => exact acceptFetched_elsewhere _ _ _ _
    | error e =>
      cases cached with
      | some entry => exact (raises_warn _).bind fun _ => Raises.pure _
      | none =>
        refine Raises.throw ?_
        rintro rfl
        exact hown fetcher hr _ _ hanswer.symm

theorem locate_elsewhere (hown : OwnWords env) (parent : Option Nat) (m : Murl) :
    Raises (Elsewhere env.limits) (locate env parent m) := by
  unfold locate
  refine Raises.ite ?_ ?_
  · unfold loadLocal
    refine (Raises.modify _).bind fun _ => (Raises.fromExcept ?_).bind fun got => Raises.pure _
    refine Blames.mono (fun _ he => Unlimited.elsewhere he) ?_
    unfold LocalStore.load
    dsimp only
    cases env.localStore.files (env.localStore.manifestPath m) with
    | bytes b => exact Blames.ok _
    | notFound => exact Blames.error rfl
    | failed why => exact Blames.error rfl
  · refine nowEpoch_raises.bind fun now => (cacheGet_raises _ _ _).bind fun cached => ?_
    cases cached with
    | none => exact locateRemote_elsewhere hown parent m now none
    | some entry =>
      exact Raises.ite (Raises.pure _) (locateRemote_elsewhere hown parent m now _)

end Elsewhere

end MurlSystem

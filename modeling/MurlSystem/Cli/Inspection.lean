import MurlSystem.Cli.Context
import MurlSystem.Resolution.Backward
import MurlSystem.Resolution.Blind
import MurlSystem.Resolution.Records

namespace MurlSystem

open Program

structure Root where
  manifest : Manifest
  origin : Origin
  warnings : List String
  murl : Option Murl

def Root.authority (root : Root) : String :=
  match root.murl with
  | some m => m.authority.toString
  | none => ""

structure Report where
  code : Nat
  lines : List String

section Commands

variable (env : Env)

def fetchRoot (m : Murl) : ResolveM (Manifest × Origin × List String) := do
  let (bytes,origin) ← locate env none m
  let manifest ← fromExcept (Manifest.fromSlice env.crates bytes env.limits)
  let run ← get
  return (manifest,origin,run.st.warnings)

def fetchNamed (m : Murl) : ResolveM Root := do
  let (manifest,origin,warnings) ← fetchRoot env m
  return ⟨manifest,origin,warnings,some m⟩

def fetchFile (path : String) : ResolveM Root := do
  let bytes ← fromExcept ((env.files path).mapError fun e => .notFound s!"cannot read {path}: {e}")
  let manifest ← fromExcept (Manifest.fromSlice env.crates bytes env.limits)
  return ⟨manifest,.localFile path,[],none⟩

def fetchRootOf (refresh : Bool) (fault : Option EvictFault) : TargetRef → ResolveM Root
  | .murl m =>
    if refresh then do
      evictOwn env fault m
      fetchNamed env m
    else fetchNamed env m
  | .file path => fetchFile env path

def plural (n : Nat) : String := if n = 1 then "" else "s"

def validate (target : String) (root : Root) : Report :=
  let report := root.manifest.validate env.crates
  let errors := report.errors.length
  let warnings := report.warnings.length
  let issues := report.errors.map (fun i => s!"error   {i.path}: {i.message}") ++
    report.warnings.map fun i => s!"warning {i.path}: {i.message}"
  if report.errors.isEmpty then
    ⟨0,issues ++
      [s!"OK: `{target}` is a valid mURL v0.1 manifest ({warnings} warning{plural warnings})"]⟩
  else
    ⟨2,issues ++
      [s!"INVALID: {errors} error{plural errors}, {warnings} warning{plural warnings}"]⟩

def pinnedLine (root : Root) : String := s!"TRUSTED: key is pinned for `{root.authority}`"

def pinLines (root : Root) (v : VerifiedSignature) : List String :=
  if root.origin.isRemote then
    if env.trustStore.isTrusted root.authority v.keyId then
      [pinnedLine root]
    else [s!"NOT PINNED: pin it with `murl trust add {root.authority} {v.publicKeyB64}`"]
  else []

def verify (target : String) (root : Root) : Report :=
  match verifyManifest env.crates root.manifest.raw with
  | .error e => ⟨1,[s!"INVALID: {e.toString}"]⟩
  | .ok none => ⟨2,[s!"UNSIGNED: `{target}` carries no signature"]⟩
  | .ok (some v) => ⟨0,s!"VALID: signed with key {v.keyId}" :: pinLines env root v⟩

def trustLine (root : Root) : String :=
  match verifyManifest env.crates root.manifest.raw with
  | .error e => s!"INVALID SIGNATURE — {e.toString}"
  | .ok none => if root.origin.isRemote then "UNSIGNED (remote)" else "LOCAL (unsigned)"
  | .ok (some v) =>
    if root.origin.isRemote then
      if env.trustStore.isTrusted root.authority v.keyId then
        s!"TRUSTED — signed with pinned key {v.keyId}"
      else s!"SIGNED — key {v.keyId} is not pinned for `{root.authority}`"
    else s!"LOCAL (signed, key {v.keyId})"

end Commands

inductive Announces (authority : String) : TrustStatus → String → Prop
  | unsignedHere : Announces authority .local "LOCAL (unsigned)"
  | signedHere (keyId : String) : Announces authority .local s!"LOCAL (signed, key {keyId})"
  | unsigned : Announces authority .unsignedRemote "UNSIGNED (remote)"
  | unpinned (keyId : String) : Announces authority (.signedUnknownKey keyId)
      s!"SIGNED — key {keyId} is not pinned for `{authority}`"
  | pinned (keyId : String) : Announces authority (.signedTrusted keyId)
      s!"TRUSTED — signed with pinned key {keyId}"

def Countable (env : Env) : TargetRef → Prop
  | .murl _ => 1 ≤ env.limits.maxNestedManifests
  | .file _ => True

section Inspection

variable (env : Env) (target : String) (root : Root)

structure Clears (ref : TargetRef) : Prop where
  room : Countable env ref
  valid : (validate env target root).code = 0
  signed : (verify env target root).code ≠ 1
  bound : bindIdentity root.murl root.origin root.manifest.doc = .ok ()

structure Agrees (node : ResolvedNode) : Prop where
  identity : node.identity = root.murl.map Murl.identity
  manifest : node.manifest = root.manifest
  origin : node.origin = root.origin
  outermost : node.depth = 0
  trust : Announces root.authority node.trust (trustLine env root)
  pinned : pinnedLine root ∈ (verify env target root).lines ↔
    ∃ keyId, node.trust = .signedTrusted keyId

variable {env target root}

theorem validate_code :
    (validate env target root).code = 0 ↔ (root.manifest.validate env.crates).errors = [] := by
  unfold validate
  dsimp only
  split
  · rename_i h
    exact ⟨fun _ => List.isEmpty_iff.mp h,fun _ => rfl⟩
  · rename_i h
    refine ⟨fun hcode => ?_,fun hnone => absurd (List.isEmpty_iff.mpr hnone) h⟩
    change 2 = 0 at hcode
    omega

theorem verify_code : (verify env target root).code ≠ 1 ↔
    ∃ verified, verifyManifest env.crates root.manifest.raw = .ok verified := by
  unfold verify
  cases verifyManifest env.crates root.manifest.raw with
  | error e =>
    refine ⟨fun hcode => absurd rfl hcode,?_⟩
    rintro ⟨_,hok⟩
    cases hok
  | ok verified =>
    refine ⟨fun _ => ⟨verified,rfl⟩,fun _ => ?_⟩
    cases verified with
    | none => exact Nat.succ_ne_self 1
    | some v => exact Nat.zero_ne_one

theorem clears_iff {ref : TargetRef} : Clears env target root ref ↔ Countable env ref ∧
    (root.manifest.validate env.crates).errors = [] ∧
    (∃ verified, verifyManifest env.crates root.manifest.raw = .ok verified) ∧
    bindIdentity root.murl root.origin root.manifest.doc = .ok () := by
  constructor
  · rintro ⟨hroom,hvalid,hsigned,hbound⟩
    exact ⟨hroom,validate_code.mp hvalid,verify_code.mp hsigned,hbound⟩
  · rintro ⟨hroom,hvalid,hsigned,hbound⟩
    exact ⟨hroom,validate_code.mpr hvalid,verify_code.mpr hsigned,hbound⟩

theorem announces_trust {verified : Option VerifiedSignature}
    (h : verifyManifest env.crates root.manifest.raw = .ok verified) :
    Announces root.authority (trustOf env root.murl root.origin verified) (trustLine env root) := by
  unfold trustLine trustOf
  rw [h]
  cases root.origin with
  | localStore _ | localFile _ =>
    cases verified with
    | none => exact .unsignedHere
    | some v => exact .signedHere v.keyId
  | remote url cached =>
    cases verified with
    | none => exact .unsigned
    | some v =>
      change Announces root.authority (if env.trustStore.isTrusted root.authority v.keyId then
        .signedTrusted v.keyId else .signedUnknownKey v.keyId)
        (if env.trustStore.isTrusted root.authority v.keyId then _ else _)
      split
      · exact .pinned v.keyId
      · exact .unpinned v.keyId

theorem head_append {a s : String} {c : Char} (h : a.toList.head? = some c) :
    (a ++ s).toList.head? = some c := by
  rw [String.toList_append,List.head?_append,h,Option.some_or]

theorem pinnedLine_head : (pinnedLine root).toList.head? = some 'T' := by
  unfold pinnedLine
  exact head_append (head_append rfl)

theorem pinnedLine_ne {line : String} {c : Char} (h : line.toList.head? = some c)
    (hc : c ≠ 'T') : pinnedLine root ≠ line := by
  intro hsame
  have hhead := congrArg (fun l => l.toList.head?) hsame
  rw [pinnedLine_head,h] at hhead
  exact hc (Option.some.inj hhead).symm

theorem mem_pinLines {v : VerifiedSignature} : pinnedLine root ∈ pinLines env root v ↔
    root.origin.isRemote = true ∧ env.trustStore.isTrusted root.authority v.keyId = true := by
  have hnot : pinnedLine root ≠
      s!"NOT PINNED: pin it with `murl trust add {root.authority} {v.publicKeyB64}`" := by
    refine pinnedLine_ne (c := 'N') ?_ (by decide)
    exact head_append (head_append (head_append (head_append rfl)))
  unfold pinLines
  by_cases hremote : root.origin.isRemote = true
  · rw [if_pos hremote]
    by_cases htrusted : env.trustStore.isTrusted root.authority v.keyId = true
    · rw [if_pos htrusted]
      exact ⟨fun _ => ⟨hremote,htrusted⟩,fun _ => List.mem_singleton_self _⟩
    · rw [if_neg htrusted,List.mem_singleton]
      exact ⟨fun h => absurd h hnot,fun h => absurd h.2 htrusted⟩
  · rw [if_neg hremote]
    exact ⟨fun h => absurd h List.not_mem_nil,fun h => absurd h.1 hremote⟩

theorem trusted_iff_pinned {murl : Option Murl} {origin : Origin} {v : VerifiedSignature} :
    (∃ keyId, trustOf env murl origin (some v) = .signedTrusted keyId) ↔
      origin.isRemote = true ∧ env.trustStore.isTrusted
        (murl.elim "" fun m => m.authority.toString) v.keyId = true := by
  cases origin with
  | localStore _ | localFile _ => simp [Origin.isRemote,trustOf]
  | remote url cached =>
    have hone : ∀ pinned : Bool, (∃ keyId, (if pinned then TrustStatus.signedTrusted v.keyId
        else .signedUnknownKey v.keyId) = .signedTrusted keyId) ↔ pinned = true := by
      intro pinned
      cases pinned <;> simp
    cases murl with
    | none => exact (hone (env.trustStore.isTrusted "" v.keyId)).trans (iff_and_self.mpr fun _ => rfl)
    | some m =>
      exact (hone (env.trustStore.isTrusted m.authority.toString v.keyId)).trans
        (iff_and_self.mpr fun _ => rfl)

theorem verify_pinned {verified : Option VerifiedSignature}
    (h : verifyManifest env.crates root.manifest.raw = .ok verified) :
    pinnedLine root ∈ (verify env target root).lines ↔
      ∃ keyId, trustOf env root.murl root.origin verified = .signedTrusted keyId := by
  unfold verify
  rw [h]
  cases verified with
  | none =>
    have hnot : pinnedLine root ≠ s!"UNSIGNED: `{target}` carries no signature" := by
      refine pinnedLine_ne (c := 'U') ?_ (by decide)
      exact head_append (head_append rfl)
    refine ⟨fun hline => absurd (List.mem_singleton.mp hline) hnot,?_⟩
    rintro ⟨keyId,htrust⟩
    cases horigin : root.origin <;> rw [horigin] at htrust <;> cases htrust
  | some v =>
    have hnot : pinnedLine root ≠ s!"VALID: signed with key {v.keyId}" := by
      refine pinnedLine_ne (c := 'V') ?_ (by decide)
      exact head_append rfl
    dsimp only
    rw [List.mem_cons,or_iff_right hnot,mem_pinLines,trusted_iff_pinned]
    unfold Root.authority
    cases root.murl <;> rfl

end Inspection

section Taking

variable {env : Env} {murl : Option Murl} {bytes : Bytes} {origin : Origin} {s r : Run}

structure TakenIn (env : Env) (murl : Option Murl) (bytes : Bytes) (origin : Origin)
    (s r : Run) : Prop where
  admitted : ∀ manifest verified, Examined env murl bytes origin manifest verified →
    r.st.nodes.head? =
      some (nodeOf env murl bytes origin 0 manifest verified (env.clock s.ticks))
  refused : (∀ manifest verified, ¬Examined env murl bytes origin manifest verified) →
    r.st.nodes = []
  log : s.log <+: r.log
  warnings : s.st.warnings <+: r.st.warnings

theorem Examined.unique {manifest manifest' : Manifest}
    {verified verified' : Option VerifiedSignature}
    (h : Examined env murl bytes origin manifest verified)
    (h' : Examined env murl bytes origin manifest' verified') :
    manifest' = manifest ∧ verified' = verified := by
  obtain rfl := h'.manifest_eq h.parsed
  exact ⟨rfl,Except.ok.inj (h.verified.symm.trans h'.verified).symm⟩

def Adds {α : Type} (p : ResolveM α) : Prop :=
  ∀ (τ : Type) (trace : Run → List τ), Records trace → Grows trace p

structure Extends (s r : Run) : Prop where
  nodes : s.st.nodes <+: r.st.nodes
  log : s.log <+: r.log
  warnings : s.st.warnings <+: r.st.warnings

theorem Adds.extends {α : Type} {p : ResolveM α} (h : Adds p) (s : Run) :
    wp p (fun _ r => Extends s r) (fun _ r => Extends s r) s := by
  have hnodes := h _ _ records_nodes s
  have hlog := h _ _ records_log s
  have hwarnings := h _ _ records_warnings s
  unfold final at hnodes hlog hwarnings
  unfold wp
  cases hp : p s with
  | ok a s' =>
    rw [hp] at hnodes hlog hwarnings
    exact ⟨hnodes,hlog,hwarnings⟩
  | error e s' =>
    rw [hp] at hnodes hlog hwarnings
    exact ⟨hnodes,hlog,hwarnings⟩

theorem head_of_prefix {α : Type} {a : α} {l : List α} (h : [a] <+: l) : l.head? = some a := by
  obtain ⟨rest,rfl⟩ := h
  rfl

theorem TakenIn.of_extends {manifest : Manifest} {verified : Option VerifiedSignature}
    {ws : List String} {call : Call}
    (hexamined : Examined env murl bytes origin manifest verified) (hs : s.st.nodes = [])
    (h : Extends ((s.note ws 1).pushNode
      (nodeOf env murl bytes origin 0 manifest verified (env.clock s.ticks)) call) r) :
    TakenIn env murl bytes origin s r ∧ r.st.nodes ≠ [] := by
  have hnodes : [nodeOf env murl bytes origin 0 manifest verified (env.clock s.ticks)] <+:
      r.st.nodes := by
    have hall := h.nodes
    change s.st.nodes ++ _ <+: _ at hall
    rwa [hs] at hall
  have hhead := head_of_prefix hnodes
  refine ⟨⟨?_,?_,h.log,(List.prefix_append _ _).trans h.warnings⟩,?_⟩
  · intro manifest' verified' h'
    obtain ⟨rfl,rfl⟩ := hexamined.unique h'
    exact hhead
  · intro hnone
    exact absurd hexamined (hnone manifest verified)
  · intro hnil
    rw [hnil] at hhead
    cases hhead

theorem ingestBytes_takesIn
    {recur : 0 + 1 ≤ env.limits.maxDepth →
      Murl → Option String → Option String → Nat → ResolveM Unit}
    (hrec : ∀ hd child anchor pin node, Adds (recur hd child anchor pin node))
    (anchor : Option String) (parent : Option Nat) (hs : s.st.nodes = []) :
    wp (ingestBytes env 0 recur murl bytes origin anchor parent)
      (fun _ r => TakenIn env murl bytes origin s r ∧ r.st.nodes ≠ [])
      (fun _ r => TakenIn env murl bytes origin s r) s := by
  unfold ingestBytes
  rw [wp_bind]
  refine wp_examine ?_ ?_
  · intro manifest verified ws hexamined
    rw [wp_bind,wp_get,wp_bind,wp_modify]
    refine wp_mono (Adds.extends ?_ _) ?_ ?_
    · intro τ trace keeps
      exact (Grows.fromExcept _).bind fun order => Grows.forM
        (grows_spliceResource keeps env (fun hd child anchor pin node => hrec hd child anchor pin
          node τ trace keeps) _) order
    · intro _ r h
      exact TakenIn.of_extends hexamined hs h
    · intro _ r h
      exact (TakenIn.of_extends hexamined hs h).1
  · intro e ws n hnone
    exact ⟨fun manifest verified h => absurd h (hnone manifest verified),fun _ => hs,
      List.prefix_rfl,List.prefix_append _ _⟩

theorem ingestNamed_adds (m : Murl) (depth : Nat) (anchor pin : Option String)
    (parent : Option Nat) : Adds (ingestNamed env m depth anchor pin parent) :=
  fun _ _ keeps => grows_ingestNamed keeps env m depth anchor pin parent

structure Beside (r r' : Run) : Prop where
  cache : r'.cache = r.cache
  log : r'.log = r.log
  ticks : r'.ticks = r.ticks
  warnings : r'.st.warnings = r.st.warnings
  nodes : r'.st.nodes = r.st.nodes

theorem beside_blind : Blind Beside where
  cache := Beside.cache
  log := Beside.log
  ticks := Beside.ticks
  warn := by
    intro r r' w h
    exact ⟨h.cache,h.log,h.ticks,congrArg (· ++ [w]) h.warnings,h.nodes⟩
  access := by
    intro r r' a h
    exact ⟨h.cache,congrArg (· ++ [a]) h.log,h.ticks,h.warnings,h.nodes⟩
  tick := by
    intro r r' h
    exact ⟨h.cache,h.log,congrArg (· + 1) h.ticks,h.warnings,h.nodes⟩
  store := by
    intro r r' cache h
    exact ⟨rfl,h.log,h.ticks,h.warnings,h.nodes⟩

end Taking

structure Foretells (env : Env) (target : String) (ref : TargetRef)
    (x : EStateM.Result Error Run Root) (r : Run) : Prop where
  taken : r.st.nodes ≠ [] ↔ ∃ root r', x = .ok root r' ∧ Clears env target root ref
  agrees : ∀ root r' node, x = .ok root r' → r.st.nodes.head? = some node →
    Agrees env target root node ∧ r'.log <+: r.log ∧ root.warnings <+: r.st.warnings

section Foretold

variable {env : Env} {target : String} {ref : TargetRef} {x : EStateM.Result Error Run Root}
  {bytes : Bytes} {s s' r : Run}

theorem foretells_takenIn {root : Root} (hroom : Countable env ref)
    (h : TakenIn env root.murl bytes root.origin s r)
    (hparsed : Manifest.fromSlice env.crates bytes env.limits = .ok root.manifest)
    (hx : x = .ok root s') (hlog : s'.log = s.log) (hwarnings : root.warnings = s.st.warnings) :
    Foretells env target ref x r := by
  subst hx
  have hall : r.st.nodes ≠ [] → ∃ verified,
      Examined env root.murl bytes root.origin root.manifest verified := by
    intro hne
    by_contra hnone
    refine hne (h.refused fun manifest verified hexamined => hnone ⟨verified,?_⟩)
    obtain rfl := hexamined.manifest_eq hparsed
    exact hexamined
  refine ⟨⟨?_,?_⟩,?_⟩
  · intro hne
    obtain ⟨verified,hexamined⟩ := hall hne
    exact ⟨root,s',rfl,clears_iff.mpr
      ⟨hroom,hexamined.valid,⟨verified,hexamined.verified⟩,hexamined.bound⟩⟩
  · rintro ⟨root',r',hsame,hclears⟩ hnil
    cases hsame
    obtain ⟨-,hvalid,⟨verified,hverified⟩,hbound⟩ := clears_iff.mp hclears
    have hhead := h.admitted root.manifest verified ⟨hparsed,hvalid,hverified,hbound⟩
    rw [hnil] at hhead
    cases hhead
  · intro root' r' node hsame hhead
    cases hsame
    have hne : r.st.nodes ≠ [] := by
      intro hnil
      rw [hnil] at hhead
      cases hhead
    obtain ⟨verified,hexamined⟩ := hall hne
    obtain rfl := Option.some.inj ((h.admitted _ _ hexamined).symm.trans hhead)
    refine ⟨⟨rfl,rfl,rfl,rfl,announces_trust hexamined.verified,
      verify_pinned hexamined.verified⟩,?_,?_⟩
    · rw [hlog]
      exact h.log
    · rw [hwarnings]
      exact h.warnings

theorem foretells_nothing (hx : ∀ root r', x = .ok root r' → ¬Countable env ref)
    (hnil : r.st.nodes = []) : Foretells env target ref x r := by
  refine ⟨⟨fun hne => absurd hnil hne,?_⟩,?_⟩
  · rintro ⟨root,r',hok,hclears⟩
    exact absurd hclears.room (hx root r' hok)
  · intro root r' node _ hhead
    rw [hnil] at hhead
    cases hhead

theorem foretells_bytes {murl : Option Murl} {origin : Origin} {ws : List String}
    (hroom : Countable env ref) (h : TakenIn env murl bytes origin s r)
    (hok : ∀ manifest, Manifest.fromSlice env.crates bytes env.limits = .ok manifest →
      x = .ok ⟨manifest,origin,ws,murl⟩ s')
    (herror : ∀ e, Manifest.fromSlice env.crates bytes env.limits = .error e →
      ∃ e' t, x = .error e' t)
    (hlog : s'.log = s.log) (hwarnings : ws = s.st.warnings) :
    Foretells env target ref x r := by
  cases hparsed : Manifest.fromSlice env.crates bytes env.limits with
  | ok manifest => exact foretells_takenIn hroom h hparsed (hok manifest hparsed) hlog hwarnings
  | error e =>
    obtain ⟨e',t,rfl⟩ := herror e hparsed
    refine foretells_nothing (fun root r' hsame => by cases hsame) (h.refused ?_)
    intro manifest verified hexamined
    cases hparsed.symm.trans hexamined.parsed

theorem fetchNamed_parsed {m : Murl} {origin : Origin} {manifest : Manifest}
    (hfound : locate env none m s = .ok (bytes,origin) s')
    (hparsed : Manifest.fromSlice env.crates bytes env.limits = .ok manifest) :
    fetchNamed env m s = .ok ⟨manifest,origin,s'.st.warnings,some m⟩ s' := by
  have hread : (fromExcept (Manifest.fromSlice env.crates bytes env.limits) : ResolveM Manifest) s'
      = .ok manifest s' := by
    rw [hparsed]
    rfl
  unfold fetchNamed fetchRoot
  rw [bind_assoc,bind_ok hfound]
  dsimp only
  rw [bind_assoc,bind_ok hread]
  rfl

theorem fetchNamed_unparsed {m : Murl} {origin : Origin} {e : Error}
    (hfound : locate env none m s = .ok (bytes,origin) s')
    (herror : Manifest.fromSlice env.crates bytes env.limits = .error e) :
    fetchNamed env m s = .error e s' := by
  have hread : (fromExcept (Manifest.fromSlice env.crates bytes env.limits) : ResolveM Manifest) s'
      = .error e s' := by
    rw [herror]
    rfl
  unfold fetchNamed fetchRoot
  rw [bind_assoc,bind_ok hfound]
  dsimp only
  rw [bind_assoc,bind_error hread]

theorem fetchNamed_lost {m : Murl} {e : Error} (hlost : locate env none m s = .error e s') :
    fetchNamed env m s = .error e s' := by
  unfold fetchNamed fetchRoot
  rw [bind_assoc,bind_error hlost]

theorem beside_counted (s : Run) (id : String) : Beside s (s.pushStack id).count :=
  ⟨rfl,rfl,rfl,rfl,rfl⟩

theorem wp_iff_ok {α : Type} {p : ResolveM α} {Q : α → Run → Prop} {E : Error → Run → Prop}
    {a : α} (h : p s = .ok a s') : wp p Q E s ↔ Q a s' := by
  unfold wp
  rw [h]

theorem wp_iff_error {α : Type} {p : ResolveM α} {Q : α → Run → Prop} {E : Error → Run → Prop}
    {e : Error} (h : p s = .error e s') : wp p Q E s ↔ E e s' := by
  unfold wp
  rw [h]

theorem locate_nodes {m : Murl} (hnil : s.st.nodes = []) (h : final (locate env none m) s = s') :
    s'.st.nodes = [] := by
  unfold final at h
  cases hrun : locate env none m s with
  | ok got t =>
    rw [hrun] at h
    subst h
    obtain ⟨⟨ws,hst⟩,-⟩ := (locate_ok hrun).1
    rw [hst]
    exact hnil
  | error e t =>
    rw [hrun] at h
    subst h
    obtain ⟨⟨ws,hst⟩,-⟩ := locate_error hrun
    rw [hst]
    exact hnil

theorem ingestNamed_foretold (target : String) (m : Murl) {s s₁ : Run} (hs : s.st.nodes = [])
    (hfirst : s₁.st.manifests = 0) (hbeside : Beside s s₁.count) :
    wp (ingestNamed env m 0 none none none)
      (fun _ r => Foretells env target (.murl m) (fetchNamed env m s) r ∧ r.st.nodes ≠ [])
      (fun _ r => Foretells env target (.murl m) (fetchNamed env m s) r) s₁ := by
  have hnil : s₁.count.st.nodes = [] := hbeside.nodes.trans hs
  have hone : s₁.count.st.manifests = 1 := congrArg (· + 1) hfirst
  rw [ingestNamed,wp_bind]
  unfold countManifest
  rw [wp_bind,wp_modify,wp_bind,wp_get,wp_ite,hone]
  refine ⟨?_,?_⟩
  · intro hfull
    exact foretells_nothing (fun _ _ _ hroom => absurd hfull (Nat.not_lt.mpr hroom)) hnil
  · intro hroom
    rw [wp_pure,wp_bind]
    have hfind := blind_locate env none m beside_blind s s₁.count hbeside
    cases hfound : locate env none m s with
    | error e s' =>
      rw [hfound] at hfind
      cases hagain : locate env none m s₁.count with
      | ok got t =>
        rw [hagain] at hfind
        cases hfind
      | error e' t =>
        refine (wp_iff_error hagain).mpr (foretells_nothing ?_ ?_)
        · intro root r' hok
          rw [fetchNamed_lost hfound] at hok
          cases hok
        · exact locate_nodes hnil (final_error hagain)
    | ok got s' =>
      obtain ⟨bytes,origin⟩ := got
      rw [hfound] at hfind
      cases hagain : locate env none m s₁.count with
      | error e' t =>
        rw [hagain] at hfind
        cases hfind
      | ok got' t =>
        rw [hagain] at hfind
        cases hfind with
        | ok value state =>
          subst value
          have hempty : t.st.nodes = [] := locate_nodes hnil (final_ok hagain)
          have hforetold : ∀ r, TakenIn env (some m) bytes origin t r →
              Foretells env target (.murl m) (fetchNamed env m s) r := by
            intro r htaken
            refine foretells_bytes (Nat.le_of_not_lt hroom) htaken
              (fun manifest => fetchNamed_parsed hfound)
              (fun e he => ⟨e,s',fetchNamed_unparsed hfound he⟩) state.log.symm
              state.warnings.symm
          rw [wp_iff_ok hagain]
          change wp (fromExcept (.ok ()) >>= fun _ => _) _ _ t
          refine wp_mono (ingestBytes_takesIn ?_ none none hempty) ?_ ?_
          · intro hd child anchor pin node
            exact ingestNamed_adds child 1 anchor pin (some node)
          · intro _ r h
            exact ⟨hforetold r h.1,h.2⟩
          · intro _ r h
            exact hforetold r h

structure Delivers (res : Resolution) (r : Run) : Prop where
  rooted : res.nodes ≠ []
  nodes : res.nodes = r.st.nodes
  warnings : res.warnings = r.st.warnings

theorem finish_delivers {r : Run} {selector : Option (List SelectorItem)} {res : Resolution}
    (hne : r.st.nodes ≠ []) (h : finish r.st selector = .ok res) : Delivers res r := by
  obtain ⟨hnodes,hwarnings,-⟩ := finish_ok h
  refine ⟨?_,hnodes,hwarnings⟩
  rw [hnodes]
  exact hne

theorem resolve_foretold (target : String) (m : Murl) (hs : s.st.nodes = [])
    (hfirst : s.st.manifests = 0) :
    wp (resolve env m)
      (fun res r => Foretells env target (.murl m) (fetchNamed env m s) r ∧ Delivers res r)
      (fun _ r => Foretells env target (.murl m) (fetchNamed env m s) r) s := by
  unfold resolve
  rw [wp_bind,wp_modify,wp_bind]
  refine wp_mono (ingestNamed_foretold target m hs hfirst (beside_counted s _)) ?_ ?_
  · rintro _ r ⟨hforetold,hne⟩
    rw [wp_bind,wp_modify,wp_bind,wp_get,wp_fromExcept]
    have hpopped : Foretells env target (.murl m) (fetchNamed env m s) r.popStack :=
      ⟨hforetold.taken,hforetold.agrees⟩
    refine ⟨?_,?_⟩
    · intro res hres
      exact ⟨hpopped,finish_delivers hne hres⟩
    · intro e _
      exact hpopped
  · intro _ r h
    exact h

theorem fetchFile_parsed {path : String} {manifest : Manifest} (hread : env.files path = .ok bytes)
    (hparsed : Manifest.fromSlice env.crates bytes env.limits = .ok manifest) :
    fetchFile env path s = .ok ⟨manifest,.localFile path,[],none⟩ s := by
  unfold fetchFile
  rw [hread]
  change (fromExcept (Manifest.fromSlice env.crates bytes env.limits) >>= fun _ => _) s = _
  rw [hparsed]
  rfl

theorem fetchFile_unparsed {path : String} {e : Error} (hread : env.files path = .ok bytes)
    (herror : Manifest.fromSlice env.crates bytes env.limits = .error e) :
    fetchFile env path s = .error e s := by
  unfold fetchFile
  rw [hread]
  change (fromExcept (Manifest.fromSlice env.crates bytes env.limits) >>= fun _ => _) s = _
  rw [herror]
  rfl

theorem resolveFile_foretold (target : String) (path : String) (hs : s.st.nodes = [])
    (hquiet : s.st.warnings = []) :
    wp (resolveFile env path)
      (fun res r => Foretells env target (.file path) (fetchFile env path s) r ∧ Delivers res r)
      (fun _ r => Foretells env target (.file path) (fetchFile env path s) r) s := by
  unfold resolveFile
  rw [wp_bind,wp_fromExcept]
  cases hread : env.files path with
  | error why =>
    refine ⟨fun _ hok => (by cases hok),fun e _ => foretells_nothing ?_ hs⟩
    intro root r' hok
    unfold fetchFile at hok
    rw [hread] at hok
    cases hok
  | ok bytes =>
    refine ⟨?_,fun e herr => by cases herr⟩
    rintro _ ⟨⟩
    have hforetold : ∀ r, TakenIn env none bytes (.localFile path) s r →
        Foretells env target (.file path) (fetchFile env path s) r := by
      intro r htaken
      exact foretells_bytes trivial htaken (fun manifest => fetchFile_parsed hread)
        (fun e herror => ⟨e,s,fetchFile_unparsed hread herror⟩) rfl hquiet.symm
    rw [wp_bind]
    refine wp_mono (ingestBytes_takesIn ?_ none none hs) ?_ ?_
    · intro hd child anchor pin node
      exact ingestNamed_adds child 1 anchor pin (some node)
    · rintro _ r ⟨htaken,hne⟩
      rw [wp_bind,wp_get,wp_fromExcept]
      exact ⟨fun res hres => ⟨hforetold r htaken,finish_delivers hne hres⟩,
        fun e _ => hforetold r htaken⟩
    · intro _ r h
      exact hforetold r h

theorem inspection_foretells (env : Env) (refresh : Bool) (fault : Option EvictFault)
    (target : String) (ref : TargetRef) (before : Cache) :
    wp (resolveTarget env refresh fault ref)
      (fun res r => Foretells env target ref
        (fetchRootOf env refresh fault ref (Run.start before)) r ∧ Delivers res r)
      (fun _ r => Foretells env target ref
        (fetchRootOf env refresh fault ref (Run.start before)) r) (Run.start before) := by
  cases ref with
  | file path => exact resolveFile_foretold target path rfl rfl
  | murl m =>
    cases refresh with
    | false => exact resolve_foretold target m rfl rfl
    | true =>
      -- Both start from the cache that the eviction leaves.
      have h : wp (resolve env m) _ _ (Run.start (before.evict env.crates fault m.identity)) :=
        resolve_foretold target m rfl rfl
      exact h

end Foretold

end MurlSystem

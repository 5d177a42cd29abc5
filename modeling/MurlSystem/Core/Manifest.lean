import MurlSystem.Core.Graph
import MurlSystem.Core.Target
import MurlSystem.Core.Time

namespace MurlSystem

def acceptedMurlVersions : List String := ["0.1","0.2"]
def maxResourcesPerManifest : Nat := 64
def maxNameLen : Nat := 120
def maxDescriptionLen : Nat := 2000
def maxTargetLen : Nat := 2048
def maxLabelLen : Nat := 120
def maxTags : Nat := 16
def maxTagLen : Nat := 32
def maxDepends : Nat := 16
def maxRelations : Nat := 128

structure Issue where
  path : String
  message : String
deriving DecidableEq, Repr

structure ValidationReport where
  errors : List Issue
  warnings : List Issue
deriving DecidableEq, Repr

namespace ValidationReport

def empty : ValidationReport := ⟨[],[]⟩

def append (a b : ValidationReport) : ValidationReport :=
  ⟨a.errors ++ b.errors,a.warnings ++ b.warnings⟩

instance : Append ValidationReport := ⟨append⟩

def error (path message : String) : ValidationReport := ⟨[⟨path,message⟩],[]⟩

def warn (path message : String) : ValidationReport := ⟨[],[⟨path,message⟩]⟩

def when (c : Bool) (rep : ValidationReport) : ValidationReport := if c then rep else empty

def concat (reps : List ValidationReport) : ValidationReport := reps.foldr append empty

def ofExcept {α : Type} (path : String) (prefixed : String) (r : Except String α) :
    ValidationReport :=
  match r with
  | .ok _ => empty
  | .error e => error path (prefixed ++ e)

def forOption {α : Type} (o : Option α) (f : α → ValidationReport) : ValidationReport :=
  match o with
  | some a => f a
  | none => empty

@[simp]
theorem append_errors (a b : ValidationReport) : (a ++ b).errors = a.errors ++ b.errors := rfl

@[simp]
theorem empty_errors : empty.errors = [] := rfl

@[simp]
theorem error_errors (p m : String) : (error p m).errors = [⟨p,m⟩] := rfl

@[simp]
theorem warn_errors (p m : String) : (warn p m).errors = [] := rfl

@[simp]
theorem when_errors_nil (c : Bool) (rep : ValidationReport) :
    (when c rep).errors = [] ↔ (c = true → rep.errors = []) := by
  cases c <;> simp [when]

@[simp]
theorem ofExcept_errors_nil {α : Type} (p q : String) (r : Except String α) :
    (ofExcept p q r).errors = [] ↔ ∃ a, r = .ok a := by
  cases r <;> simp [ofExcept]

@[simp]
theorem forOption_errors_nil {α : Type} (o : Option α) (f : α → ValidationReport) :
    (forOption o f).errors = [] ↔ ∀ a, o = some a → (f a).errors = [] := by
  cases o <;> simp [forOption]

theorem concat_errors_nil (reps : List ValidationReport) :
    (concat reps).errors = [] ↔ ∀ r ∈ reps, r.errors = [] := by
  induction reps with
  | nil => simp [concat]
  | cons r rs ih =>
    change (r.errors ++ (concat rs).errors) = [] ↔ _
    simp [ih]

def intoResult (rep : ValidationReport) : Except Error Unit :=
  if rep.errors.isEmpty then .ok ()
  else
    let parts := (rep.errors.take 5).map fun i => s!"{i.path}: {i.message}"
    let more := if 5 < rep.errors.length then [s!"... and {rep.errors.length - 5} more"] else []
    .error (.validation ("; ".intercalate (parts ++ more)))

theorem intoResult_ok {rep : ValidationReport} : rep.intoResult = .ok () ↔ rep.errors = [] := by
  unfold intoResult
  cases rep.errors with
  | nil => simp
  | cons e es => simp

end ValidationReport

open ValidationReport

def hasControl (s : String) : Bool := s.toList.any Text.isControl

def validateName (name : String) : ValidationReport :=
  when (name.isEmpty || maxNameLen < name.length)
    (error "/name" s!"must be 1..={maxNameLen} characters") ++
  when (hasControl name) (error "/name" "must not contain control characters")

def validateDescription (desc : String) : ValidationReport :=
  when (maxDescriptionLen < desc.length)
    (error "/description" s!"must be <= {maxDescriptionLen} characters") ++
  when (hasControl desc) (error "/description" "must not contain control characters")

def validateId (id : String) : ValidationReport :=
  match Murl.parse id with
  | .ok m =>
    when (m.selector.isSome || m.query.isSome) (error "/id" "must not carry a selector or query")
  | .error e => error "/id" s!"not a valid mURL: {e.toString}"

def validateVersion (v : String) : ValidationReport :=
  match VersionTag.parse v.toList with
  | .ok (.pinned _) => empty
  | .ok .latest => error "/version" "manifest version must be concrete, not `latest`"
  | .error e => error "/version" e.toString

def validateWindow (notBefore expires : Option String) : ValidationReport :=
  match notBefore.map parseRfc3339Utc,expires.map parseRfc3339Utc with
  | some (.ok nb),some (.ok exp) =>
    when (exp ≤ nb) (error "/notBefore" "must be strictly before /expires")
  | _,_ => empty

def validateHeader (d : ManifestDoc) : ValidationReport :=
  let accepted := ", ".intercalate acceptedMurlVersions
  when (!acceptedMurlVersions.contains d.murlVersion)
    (error "/murlVersion"
      s!"unsupported version `{d.murlVersion}` (this implementation accepts {accepted})") ++
  validateName d.name ++
  forOption d.description validateDescription ++
  forOption d.id validateId ++
  forOption d.version validateVersion ++
  forOption d.expires (fun exp => ofExcept "/expires" "" (parseRfc3339Utc exp)) ++
  forOption d.notBefore (fun nb => ofExcept "/notBefore" "" (parseRfc3339Utc nb)) ++
  validateWindow d.notBefore d.expires

def isValidIntegrity (s : String) : Bool :=
  match s.toList.dropPrefix? "sha256-".toList with
  | some b64 =>
    b64.length == 44 && b64.all (fun c => isAlnum c || c == '+' || c == '/' || c == '=')
  | none => false

def targetPresent (target : String) : Bool :=
  !(target.isEmpty || maxTargetLen < target.utf8ByteSize)

def reachesTarget (r : ResourceDoc) : Option Kind :=
  if targetPresent r.target && !hasControl r.target then (Kind.parse r.kind).toOption else none

def targetKey (r : ResourceDoc) : Option (String × String) :=
  (reachesTarget r).map fun k => (k.toString,r.target)

def validateResourceTarget (crates : Crates) (p : String → String) (earlier : List ResourceDoc)
    (r : ResourceDoc) : ValidationReport :=
  when (!targetPresent r.target) (error (p "target") s!"must be 1..={maxTargetLen} bytes") ++
  when (targetPresent r.target && hasControl r.target)
    (error (p "target") "must not contain control characters") ++
  forOption (reachesTarget r) fun kind =>
    ofExcept (p "target") "" (validateTarget crates kind r.target) ++
    when ((earlier.filterMap targetKey).contains (kind.toString,r.target))
      (warn (p "target")
        "duplicate (kind, target) pair; duplicates are skipped at dispatch") ++
    when (r.integrity.isSome && kind != .murl)
      (warn (p "integrity") "integrity pins are only enforced for kind `murl`")

def validateLabel (p : String → String) (label : String) : ValidationReport :=
  when (label.isEmpty || maxLabelLen < label.length)
    (error (p "label") s!"must be 1..={maxLabelLen} characters") ++
  when (hasControl label) (error (p "label") "must not contain control characters")

def validateRole (p : String → String) (role : String) : ValidationReport :=
  when (!isValidRole role) (error (p "role") s!"`{role}` must match [a-z0-9][a-z0-9-]\x7b0,31\x7d")

def validateTags (p : String → String) (tags : List String) : ValidationReport :=
  when (maxTags < tags.length) (error (p "tags") s!"at most {maxTags} tags") ++
  concat (tags.map fun t =>
    when (!isValidTag t) (error (p "tags") s!"tag `{t}` must match [a-z0-9-]\x7b1,{maxTagLen}\x7d"))

def validateDepends (p : String → String) (all : List ResourceDoc) (r : ResourceDoc) :
    ValidationReport :=
  when (maxDepends < r.dependsOn.length)
    (error (p "dependsOn") s!"at most {maxDepends} dependencies") ++
  concat (r.dependsOn.map fun dep =>
    if dep = r.id then error (p "dependsOn") s!"`{r.id}` depends on itself"
    else when (!all.any (fun other => other.id == dep))
      (error (p "dependsOn") s!"unknown resource id `{dep}`"))

def validateResource (crates : Crates) (all earlier : List ResourceDoc) (r : ResourceDoc) :
    ValidationReport :=
  let p := fun (field : String) => s!"/resources/{earlier.length}/{field}"
  when (!isValidResourceId r.id)
    (error (p "id") s!"`{r.id}` must match [a-z0-9][a-z0-9_-]\x7b0,63\x7d") ++
  when (earlier.any (fun e => e.id == r.id)) (error (p "id") s!"duplicate resource id `{r.id}`") ++
  ofExcept (p "kind") "" (Kind.parse r.kind) ++
  validateResourceTarget crates p earlier r ++
  forOption r.label (validateLabel p) ++
  forOption r.role (validateRole p) ++
  when (r.order < 0 || 10000 < r.order) (error (p "order") "must be in 0..=10000") ++
  validateTags p r.tags ++
  validateDepends p all r ++
  forOption r.integrity (fun integrity => when (!isValidIntegrity integrity)
    (error (p "integrity") "must be `sha256-<44 base64 chars>` over the nested manifest bytes"))

def validateEach (crates : Crates) (all : List ResourceDoc) :
    List ResourceDoc → List ResourceDoc → ValidationReport
  | _,[] => empty
  | earlier,r :: rest =>
    validateResource crates all earlier r ++ validateEach crates all (earlier ++ [r]) rest

def validateResources (crates : Crates) (resources : List ResourceDoc) : ValidationReport :=
  if resources.isEmpty then error "/resources" "manifest must declare at least one resource"
  else
    when (maxResourcesPerManifest < resources.length)
      (error "/resources"
        s!"{resources.length} resources exceeds the limit of {maxResourcesPerManifest}") ++
    validateEach crates resources [] resources

def validateOrder (resources : List ResourceDoc) (soFar : ValidationReport) : ValidationReport :=
  when soFar.errors.isEmpty (ofExcept "/resources" "" (executionOrder resources))

def isValidRel (rel : String) : Bool :=
  matchesIdent 32 (fun c => 'a' ≤ c && c ≤ 'z') (fun c => ('a' ≤ c && c ≤ 'z') || c == '-') rel

def validateRelation (resources : List ResourceDoc) (i : Nat) (rel : RelationDoc) :
    ValidationReport :=
  let known := fun (id : String) => resources.any fun r => r.id == id
  let p := s!"/relations/{i}"
  when (!known rel.source) (error s!"{p}/from" s!"unknown resource id `{rel.source}`") ++
  when (!known rel.dest) (error s!"{p}/to" s!"unknown resource id `{rel.dest}`") ++
  when (!isValidRel rel.rel)
    (error s!"{p}/rel" s!"`{rel.rel}` must match [a-z][a-z-]\x7b0,31\x7d")

def validateRelations (d : ManifestDoc) : ValidationReport :=
  when (maxRelations < d.relations.length)
    (error "/relations" s!"at most {maxRelations} relations") ++
  concat (d.relations.zipIdx.map fun (rel,i) => validateRelation d.resources i rel)

def isLowerHex (c : Char) : Bool := isDigit c || ('a' ≤ c && c ≤ 'f')

def isValidKeyId (s : String) : Bool :=
  match s.toList.dropPrefix? "ed25519:".toList with
  | some hex => hex.length == 16 && hex.all isLowerHex
  | none => false

def decodesTo (crates : Crates) (s : String) (n : Nat) : Bool :=
  match crates.base64Decode s with
  | .ok b => b.length == n
  | .error _ => false

def validateSignatureShape (crates : Crates) (sig : SignatureBlock) : ValidationReport :=
  when (sig.alg != "ed25519") (error "/signature/alg" s!"unsupported algorithm `{sig.alg}`") ++
  when (!decodesTo crates sig.publicKey 32)
    (error "/signature/publicKey" "must be base64 of 32 bytes") ++
  when (!decodesTo crates sig.sig 64) (error "/signature/sig" "must be base64 of 64 bytes") ++
  when (!isValidKeyId sig.keyId)
    (error "/signature/keyId" "must be `ed25519:<16 lowercase hex chars>`")

def unknownKeys (known : List String) (base message : String) (v : Value) : ValidationReport :=
  match v with
  | .object members =>
    concat (members.map fun (k,_) => when (!known.contains k) (warn s!"{base}/{k}" message))
  | _ => empty

def unknownInEach (known : List String) (base : String) (v : Option Value) : ValidationReport :=
  match v with
  | some (.array items) =>
    concat (items.zipIdx.map fun (item,i) =>
      unknownKeys known s!"{base}/{i}" "unknown member (ignored)" item)
  | _ => empty

def validateUnknownMembers (raw : Value) : ValidationReport :=
  match raw with
  | .object members =>
    unknownKeys manifestMembers "" "unknown member (ignored by this implementation)" raw ++
    unknownInEach resourceMembers "/resources" (members.lookup "resources") ++
    unknownInEach relationMembers "/relations" (members.lookup "relations") ++
    forOption (members.lookup "signature")
      (unknownKeys signatureMembers "/signature" "unknown member (ignored)")
  | _ => empty

mutual

def walkNumbers (path : String) : Value → ValidationReport
  | .number n =>
    when (n.asI64.isNone && n.asU64.isNone) (error path s!"non-integer number `{n.toString}`")
  | .array items => walkItems path 0 items
  | .object members => walkMembers path members
  | _ => empty

def walkItems (path : String) (i : Nat) : List Value → ValidationReport
  | [] => empty
  | v :: rest => walkNumbers s!"{path}/{i}" v ++ walkItems path (i + 1) rest

def walkMembers (path : String) : List (String × Value) → ValidationReport
  | [] => empty
  | (k,v) :: rest => walkNumbers s!"{path}/{k}" v ++ walkMembers path rest

end

def Manifest.validate (crates : Crates) (m : Manifest) : ValidationReport :=
  let d := m.doc
  let rep := validateHeader d ++ validateResources crates d.resources
  rep ++ validateOrder d.resources rep ++ validateRelations d ++
  forOption d.signature (validateSignatureShape crates) ++
  validateUnknownMembers m.raw ++ walkNumbers "" m.raw

theorem validateEach_errors_nil {crates : Crates} {all earlier rest : List ResourceDoc}
    (h : (validateEach crates all earlier rest).errors = []) {pre post : List ResourceDoc}
    {r : ResourceDoc} (hr : rest = pre ++ r :: post) :
    (validateResource crates all (earlier ++ pre) r).errors = [] := by
  induction pre generalizing earlier rest with
  | nil =>
    subst hr
    simp only [List.nil_append,validateEach,append_errors,List.append_eq_nil_iff] at h
    simpa using h.1
  | cons x xs ih =>
    subst hr
    simp only [List.cons_append,validateEach,append_errors,List.append_eq_nil_iff] at h
    have hrest := ih h.2 rfl
    simpa using hrest

section Valid

variable {crates : Crates} {m : Manifest}

theorem validate_head (h : (m.validate crates).errors = []) :
    (validateHeader m.doc ++ validateResources crates m.doc.resources).errors = [] ∧
    (validateOrder m.doc.resources
      (validateHeader m.doc ++ validateResources crates m.doc.resources)).errors = [] := by
  simp only [Manifest.validate,append_errors,List.append_eq_nil_iff] at h
  obtain ⟨⟨⟨⟨⟨hhead,horder⟩,-⟩,-⟩,-⟩,-⟩ := h
  exact ⟨by simpa using hhead,horder⟩

theorem validate_resources (h : (m.validate crates).errors = []) :
    (validateResources crates m.doc.resources).errors = [] := by
  have hhead := (validate_head h).1
  simp only [append_errors,List.append_eq_nil_iff] at hhead
  exact hhead.2

theorem validate_order (h : (m.validate crates).errors = []) :
    ∃ order, executionOrder m.doc.resources = .ok order := by
  obtain ⟨hhead,horder⟩ := validate_head h
  simp only [validateOrder,when_errors_nil,ofExcept_errors_nil] at horder
  exact horder (by simp [hhead])

theorem validate_each (h : (m.validate crates).errors = []) :
    (validateEach crates m.doc.resources [] m.doc.resources).errors = [] := by
  have hres := validate_resources h
  unfold validateResources at hres
  split at hres
  · simp at hres
  · simp only [append_errors,List.append_eq_nil_iff] at hres
    exact hres.2

end Valid

theorem validateResource_id {crates : Crates} {all earlier : List ResourceDoc} {r : ResourceDoc}
    (h : (validateResource crates all earlier r).errors = []) :
    isValidResourceId r.id = true ∧ ∀ e ∈ earlier, e.id ≠ r.id := by
  simp only [validateResource,append_errors,List.append_eq_nil_iff,when_errors_nil,error_errors,
    List.cons_ne_nil,imp_false,Bool.not_eq_true,Bool.not_eq_false'] at h
  refine ⟨by simpa using h.1.1.1.1.1.1.1.1.1,?_⟩
  intro e he heq
  have hany := h.1.1.1.1.1.1.1.1.2
  rw [List.any_eq_false] at hany
  exact hany e he (by simp [heq])

end MurlSystem

import MurlSystem.Bundling.Checked
import MurlSystem.Bundling.Size
import MurlSystem.Canonical.Lossless
import MurlSystem.Foundation.Base64
import MurlSystem.Naming.Printing
import MurlSystem.Resolution.Gauntlet
import MurlSystem.Resolution.Produced

namespace MurlSystem

open Program

section Spelling

variable {env : Env} {cache : Cache} {ref : TargetRef}

theorem parsed_canonical {s : String} {m : Murl} (h : Murl.parse s = .ok m) :
    Canonical m.identity :=
  ⟨_,Syntax.parse_identity h,rfl⟩

def Frame.request? : Frame → Option Request
  | .seek req | .found req _ _ => some req
  | .walk _ _ _ => none

structure Spelled (c : Config) : Prop where
  nodes : ∀ k node s, c.run.st.nodes[k + 1]? = some node → node.identity = some s → Canonical s
  nested : ∀ f ∈ c.frames, ∀ req m, f.request? = some req → req.parent ≠ none →
    req.murl = some m → Canonical m.identity

theorem Step.request_cases {c c' : Config} (h : Step env c c') {f : Frame} {req : Request}
    (hf : f ∈ c'.frames) (hreq : f.request? = some req) :
    (∃ g ∈ c.frames, g.request? = some req) ∨ ∃ s m, Murl.parse s = .ok m ∧ req.murl = some m := by
  have keep {g : Frame} (hg : g ∈ c.frames) (hr : g.request? = some req) :
      ∃ g ∈ c.frames, g.request? = some req := ⟨g,hg,hr⟩
  cases h with
  | note => exact .inl (keep hf hreq)
  | overBudget => exact .inl (keep hf hreq)
  | lost => exact .inl (keep hf hreq)
  | locate r r' fs req' m bytes origin named room got =>
    rcases List.mem_cons.mp hf with rfl | hf
    · exact .inl ⟨.seek req',by simp,hreq⟩
    · exact .inl (keep (by simp [hf]) hreq)
  | enter =>
    rcases List.mem_cons.mp hf with rfl | hf
    · cases hreq
    · exact .inl (keep (by simp [hf]) hreq)
  | plan =>
    rcases List.mem_cons.mp hf with rfl | hf
    · cases hreq
    · exact .inl (keep (by simp [hf]) hreq)
  | duplicate =>
    rcases List.mem_cons.mp hf with rfl | hf
    · cases hreq
    · exact .inl (keep (by simp [hf]) hreq)
  | diamond =>
    rcases List.mem_cons.mp hf with rfl | hf
    · cases hreq
    · exact .inl (keep (by simp [hf]) hreq)
  | splice r fs site resources i todo doc child at_ nests =>
    rcases List.mem_cons.mp hf with rfl | hf
    · cases hreq
      exact .inr ⟨doc.target,child,nests.parsed,rfl⟩
    · rcases List.mem_cons.mp hf with rfl | hf
      · cases hreq
      · exact .inl (keep (by simp [hf]) hreq)
  | close =>
    rcases List.mem_cons.mp hf with rfl | hf
    · cases hreq
    · exact .inl (keep (by simp [hf]) hreq)

theorem Spelled.step {c c' : Config} (h : Spelled c) (hshape : Shape env ref c)
    (hs : Step env c c') : Spelled c' := by
  constructor
  · intro k node s hk hid
    rcases hs.nodes_cases with ⟨hn,-⟩ | ⟨req,bytes,origin,new,hf,hadmitted,hrun⟩
    · rw [hn] at hk
      exact h.nodes k node s hk hid
    · have hnodes : (c.run.st.nodes ++ [new])[k + 1]? = some node := by
        rw [hrun] at hk
        exact hk
      rcases lt_or_ge (k + 1) c.run.st.nodes.length with hlt | hge
      · rw [List.getElem?_append_left hlt] at hnodes
        exact h.nodes k node s hnodes hid
      · rw [List.getElem?_append_right hge] at hnodes
        obtain ⟨hlast,rfl⟩ : k + 1 - c.run.st.nodes.length = 0 ∧ new = node := by
          simpa [List.getElem?_singleton] using hnodes
        obtain ⟨m,hm,rfl⟩ : ∃ m, req.murl = some m ∧ m.identity = s := by
          rw [hadmitted.identity] at hid
          simpa using hid
        refine h.nested _ hf req m rfl ?_ hm
        intro hroot
        have hframe : FrameOk env ref c.run (.found req bytes origin) := hshape.frames _ hf
        have hempty := (hframe.1.root hroot).1
        rw [hempty,List.length_nil] at hlast
        omega
  · intro f hf req m hreq hparent hm
    rcases hs.request_cases hf hreq with ⟨g,hg,hr⟩ | ⟨text,m',hparsed,hm'⟩
    · exact h.nested g hg req m hr hparent hm
    · obtain rfl : m' = m := Option.some.inj (hm'.symm.trans hm)
      exact parsed_canonical hparsed

theorem Spelled.reachable {c : Config} (h : (walkSystem env cache ref).Reachable c) :
    Spelled c := by
  have hboth : Shape env ref c ∧ Spelled c := by
    refine Transition.System.invariant (fun c => Shape env ref c ∧ Spelled c) ?_ ?_ h
    · intro c₀ h₀
      refine ⟨Shape.start h₀,?_⟩
      cases h₀ with
      | named m =>
        refine ⟨by simp [Run.pushStack,Run.start],?_⟩
        intro f hf req m' hreq hparent
        obtain rfl : f = .seek (Request.root m) := by simpa using hf
        cases hreq
        exact absurd rfl hparent
      | file path bytes hread =>
        refine ⟨by simp [Run.start],?_⟩
        intro f hf req m' hreq hparent
        obtain rfl : f = .found Request.file bytes (.localFile path) := by simpa using hf
        cases hreq
        exact absurd rfl hparent
    · rintro c c' - ⟨hshape,hI⟩ hs
      exact ⟨hshape.step hs,hI.step hshape hs⟩
  exact hboth.2

end Spelling

section Origins

variable {crates : Crates} {limits : Limits} {f64 : List Char → Option String}

inductive Built (crates : Crates) (limits : Limits) : Bundle → Prop
  | read (bytes : Bytes) (b : Bundle) (accepted : Bundle.fromSlice crates limits bytes = .ok b) :
      Built crates limits b
  | resolved (env : Env) (cache : Cache) (ref : TargetRef) (res : Resolution) (r : Run)
      (b : Bundle) (sameCrates : env.crates = crates) (sameLimits : env.limits = limits)
      (ok : resolveRef env ref (Run.start cache) = .ok res r)
      (bundled : Bundle.fromResolution crates res = .ok b) : Built crates limits b

theorem integrity_checks (base64 : ∀ b, crates.base64Decode (crates.base64Encode b) = .ok b)
    (b : Bytes) : checkIntegrity crates b (makeIntegrity crates b) = .ok () := by
  have hdrop : (makeIntegrity crates b).toList.dropPrefix? "sha256-".toList =
      some (crates.base64Encode (crates.sha256 b)).toList := by
    have happ : (makeIntegrity crates b).toList =
        "sha256-".toList ++ (crates.base64Encode (crates.sha256 b)).toList := by
      rw [← String.toList_append]
      rfl
    rw [List.dropPrefix?_eq_some_iff]
    exact ⟨"sha256-".toList,happ,by simp⟩
  unfold checkIntegrity
  rw [hdrop]
  dsimp only
  rw [String.ofList_toList,base64]
  simp

theorem node_carried (base64 : ∀ b, crates.base64Decode (crates.base64Encode b) = .ok b)
    {env : Env} {murl : Option Murl} {node : ResolvedNode} (h : Gauntlet env murl node)
    (sameCrates : env.crates = crates) (sameLimits : env.limits = limits) :
    Carried crates limits
      ⟨node.identity,node.manifest.doc.name,makeIntegrity crates node.rawBytes,
        crates.base64Encode node.rawBytes⟩ node.rawBytes node.manifest := by
  subst sameCrates
  subst sameLimits
  exact ⟨base64 node.rawBytes,h.small,integrity_checks base64 node.rawBytes,h.parsed,h.valid⟩

theorem resolved_checked (base64 : ∀ b, crates.base64Decode (crates.base64Encode b) = .ok b)
    {env : Env} {cache : Cache} {ref : TargetRef} {res : Resolution} {r : Run} {b : Bundle}
    (sameCrates : env.crates = crates) (sameLimits : env.limits = limits)
    (ok : resolveRef env ref (Run.start cache) = .ok res r)
    (bundled : Bundle.fromResolution crates res = .ok b)
    (hroot : ∀ root, b.root = some root → Canonical root) : Checked crates limits b := by
  obtain ⟨hfinished,hfinish⟩ := resolveRef_ok ok
  have hne := (hfinished.produced hfinish).root
  have hnodup := (hfinished.bounded hfinish).identities
  obtain ⟨hnodes,-,-⟩ := finish_ok hfinish
  obtain ⟨hscreened,hspelled⟩ :
      (∀ node ∈ res.nodes, ∃ murl, Gauntlet env murl node) ∧
      ∀ k node s, res.nodes[k + 1]? = some node → node.identity = some s → Canonical s := by
    rw [hnodes]
    refine ⟨?_,?_⟩
    · intro node hnode
      obtain ⟨call,-,hgauntlet⟩ := Fallible.forall₂_mem hfinished.screened.flip node hnode
      exact ⟨call.murl,hgauntlet⟩
    · cases hfinished with
      | all r stack site rs h => exact (Spelled.reachable h).nodes
  unfold Bundle.fromResolution at bundled
  split at bundled
  · cases bundled
  · rename_i hfew
    cases bundled
    have hids : (res.nodes.map fun node => (⟨node.identity,node.manifest.doc.name,
        makeIntegrity crates node.rawBytes,crates.base64Encode node.rawBytes⟩ : BundleEntry)).filterMap
          BundleEntry.identity = res.nodes.filterMap ResolvedNode.identity := by
      rw [List.filterMap_map]
      rfl
    refine ⟨rfl,by simpa using hne,by simpa using hfew,?_,?_,?_,?_⟩
    · intro e he
      obtain ⟨node,hnode,rfl⟩ := List.mem_map.mp he
      obtain ⟨murl,hg⟩ := hscreened node hnode
      exact ⟨node.rawBytes,node.manifest,node_carried base64 hg sameCrates sameLimits⟩
    · rw [hids]
      intro identity hidentity
      obtain ⟨node,hnode,hid⟩ := List.mem_filterMap.mp hidentity
      obtain ⟨k,hk⟩ := List.mem_iff_getElem?.mp hnode
      cases k with
      | zero =>
        refine hroot identity ?_
        rw [List.head?_eq_getElem?,hk]
        exact hid
      | succ k => exact hspelled k node identity hk hid
    · rw [hids]
      exact hnodup
    · rw [hids]
      intro root hroot
      obtain ⟨node,hnode,hid⟩ := Option.bind_eq_some_iff.mp hroot
      exact List.mem_filterMap.mpr ⟨node,List.mem_of_head? hnode,hid⟩

theorem printed_strict (serde : Serde.Tokenises crates f64) (b : Bundle) :
    fromSliceStrict crates b.toJsonBytes = .ok b.sorted := by
  simp only [fromSliceStrict,Fallible.bind_ok]
  exact ⟨b.toValue,(serde _ _).mpr (bundle_tokens b),bundle_noDup b⟩

theorem fromSlice_same (serde : Serde.Tokenises crates f64) {b b' : Bundle}
    (h : Bundle.fromSlice crates limits b.toJsonBytes = .ok b') : b' = b := by
  obtain ⟨-,⟨value,hvalue,hbundle⟩,-⟩ := fromSlice_iff.mp h
  obtain rfl := Except.ok.inj ((printed_strict serde b).symm.trans hvalue)
  exact Except.ok.inj (hbundle.symm.trans (bundle_fromValue b))

theorem fromSlice_printed (serde : Serde.Tokenises crates f64) {b : Bundle}
    (h : b.entries ≠ []) : Bundle.fromSlice crates limits b.toJsonBytes = .ok b ↔
      b.printedSize ≤ bundleCap limits ∧ Checked crates limits b := by
  have hvalue := printed_strict serde b
  rw [fromSlice_iff,size_bundle h]
  constructor
  · rintro ⟨hsize,-,hchecked⟩
    exact ⟨hsize,hchecked⟩
  · rintro ⟨hsize,hchecked⟩
    exact ⟨hsize,⟨b.sorted,hvalue,bundle_fromValue b⟩,hchecked⟩

theorem Built.checked (base64 : ∀ b, crates.base64Decode (crates.base64Encode b) = .ok b)
    {b : Bundle} (h : Built crates limits b) (hroot : ∀ root, b.root = some root → Canonical root) :
    Checked crates limits b := by
  cases h with
  | read bytes b accepted => exact (fromSlice_iff.mp accepted).2.2
  | resolved env cache ref res r b sameCrates sameLimits ok bundled =>
    exact resolved_checked base64 sameCrates sameLimits ok bundled hroot

theorem Built.carries {b : Bundle} (h : Built crates limits b) : b.entries ≠ [] := by
  cases h with
  | read bytes b accepted => exact (fromSlice_iff.mp accepted).2.2.carries
  | resolved env cache ref res r b sameCrates sameLimits ok bundled =>
    obtain ⟨hfinished,hfinish⟩ := resolveRef_ok ok
    have hne := (hfinished.produced hfinish).root
    unfold Bundle.fromResolution at bundled
    split at bundled
    · cases bundled
    · cases bundled
      simpa using hne

theorem bundle_round_trip (crates : Crates) (limits : Limits) (f64 : List Char → Option String)
    (serde : Serde.Tokenises crates f64)
    (base64 : ∀ b, crates.base64Decode (crates.base64Encode b) = .ok b) (b : Bundle)
    (h : Built crates limits b) :
    Bundle.fromSlice crates limits b.toJsonBytes = .ok b ↔
      b.printedSize ≤ bundleCap limits ∧ ∀ root, b.root = some root → Canonical root := by
  rw [fromSlice_printed serde h.carries]
  constructor
  · rintro ⟨hsize,hchecked⟩
    exact ⟨hsize,fun root hroot => hchecked.identities root (hchecked.root root hroot)⟩
  · rintro ⟨hsize,hroot⟩
    exact ⟨hsize,h.checked base64 hroot⟩

end Origins

section Cap

def slimManifest : Value := manifestValue "a" [resourceValue "a" "https" "https://a" none]

def slimDigest : Bytes :=
  [250,24,68,97,118,247,129,100,92,120,107,172,46,75,129,141,186,129,151,192,213,162,129,144,
    54,154,74,186,190,141,209,193]

def bundlingCrates : Crates := Serde.tokenising Serde.shown
  { Serde.bareCrates with
    sha256 := fun b => if b == published slimManifest then slimDigest else []
    base64Encode := fun b => String.ofList (Base64.encode b)
    base64Decode := fun s =>
      match Base64.decode s.toList with
      | some b => .ok b
      | none => .error "Invalid padding" }

def slimLimits : Limits := { maxManifestBytes := 93 }

def slimEntry (identity : Option String) (name : String) : BundleEntry :=
  ⟨identity,name,makeIntegrity bundlingCrates (published slimManifest),
    bundlingCrates.base64Encode (published slimManifest)⟩

def slimBundle (name : String) : Bundle := ⟨MurlSystem.bundleVersion,none,[slimEntry none name]⟩

def longName : String := String.ofList (List.replicate 480 'x')

theorem bundlingCrates_serde : Serde.Tokenises bundlingCrates Serde.shown :=
  Serde.tokenising_tokenises _ _

theorem bundlingCrates_base64 (b : Bytes) :
    bundlingCrates.base64Decode (bundlingCrates.base64Encode b) = .ok b := by
  change (match Base64.decode (String.ofList (Base64.encode b)).toList with
    | some b => Except.ok b
    | none => .error "Invalid padding") = _
  rw [String.toList_ofList,Base64.decode_encode]

theorem published_written {v : Value} (h : Serde.Integral v) :
    canonicalJsonBytes v = .ok (published v) := by
  obtain ⟨bytes,hbytes⟩ := (Serde.canonicalJsonBytes_iff v).mpr h
  rw [published,hbytes]
  rfl

theorem slimManifest_token : Serde.Token Serde.maxNesting slimManifest :=
  .object 126 _ (List.forall_mem_cons.mpr ⟨.string 126 _,List.forall_mem_cons.mpr ⟨.string 126 _,
    List.forall_mem_singleton.mpr (.array 125 _ (List.forall_mem_singleton.mpr
      (.object 124 _ (List.forall_mem_cons.mpr ⟨.string 124 _,List.forall_mem_cons.mpr
        ⟨.string 124 _,List.forall_mem_singleton.mpr (.string 124 _)⟩⟩))))⟩⟩)

theorem slimManifest_reads : fromSliceStrict bundlingCrates (published slimManifest) =
    .ok slimManifest := by
  have htext : canonicalJsonBytes slimManifest = .ok (published slimManifest) :=
    published_written nofun
  have hread := (bundlingCrates_serde _ _).mpr
    (Serde.readTokens_written slimManifest_token htext)
  rw [fromSliceStrict,hread]
  rfl

def slim : Manifest :=
  ⟨slimManifest,⟨"0.1",none,"a",none,none,none,none,
    [⟨"a","https","https://a",none,none,false,100,[],[],none,none⟩],[],none⟩⟩

theorem slimManifest_length : (published slimManifest).length = 93 := by
  rw [published_compact]
  decide +kernel

theorem slimEntry_carried {limits : Limits} (h : 93 ≤ limits.maxManifestBytes)
    (identity : Option String) (name : String) : Carried bundlingCrates limits
      (slimEntry identity name) (published slimManifest) slim := by
  have hbytes : (slimEntry identity name).bytes =
      bundlingCrates.base64Encode (published slimManifest) := rfl
  have hsmall : (published slimManifest).length ≤ limits.maxManifestBytes := by
    rw [slimManifest_length]
    exact h
  refine ⟨?_,hsmall,?_,?_,?_⟩
  · rw [hbytes]
    exact bundlingCrates_base64 (published slimManifest)
  · exact integrity_checks bundlingCrates_base64 (published slimManifest)
  · exact Manifest.fromSlice_iff.mpr ⟨hsmall,slimManifest_reads,rfl,rfl⟩
  · decide +kernel

theorem slimBundle_checked (name : String) :
    Checked bundlingCrates slimLimits (slimBundle name) := by
  refine ⟨rfl,by simp [slimBundle],by simp [slimBundle,maxBundleEntries],?_,?_,?_,nofun⟩
  · intro e he
    obtain rfl := List.mem_singleton.mp he
    exact ⟨_,_,slimEntry_carried (by decide) none name⟩
  · intro identity hidentity
    cases hidentity
  · exact List.nodup_nil

theorem compact_accepted {name : String} {bytes : Bytes}
    (hbytes : canonicalJsonBytes (slimBundle name).toValue = .ok bytes)
    (hsize : bytes.length ≤ bundleCap slimLimits) :
    Bundle.fromSlice bundlingCrates slimLimits bytes = .ok (slimBundle name) := by
  have hread := (bundlingCrates_serde _ _).mpr
    (Serde.readTokens_written (bundle_token (slimBundle name)) hbytes)
  refine fromSlice_iff.mpr ⟨hsize,⟨(slimBundle name).sorted,?_,bundle_fromValue _⟩,
    slimBundle_checked name⟩
  simp only [fromSliceStrict,Fallible.bind_ok]
  exact ⟨_,hread,bundle_noDup (slimBundle name)⟩

theorem compact_written (b : Bundle) : canonicalJsonBytes b.toValue = .ok (published b.toValue) := by
  refine published_written ?_
  rw [Serde.Integral,bundle_numbers]
  simp

theorem bundlingCrates_encode (b : Bytes) :
    bundlingCrates.base64Encode b = String.ofList (Base64.encode b) := rfl

theorem bundlingCrates_hash (b : Bytes) :
    bundlingCrates.sha256 b = if b == published slimManifest then slimDigest else [] := rfl

theorem slimManifest_digest : bundlingCrates.sha256 (published slimManifest) = slimDigest := by
  rw [bundlingCrates_hash,if_pos (beq_self_eq_true _)]

theorem size_integrity : textSize (makeIntegrity bundlingCrates (published slimManifest)) = 53 :=
  size_makeIntegrity bundlingCrates_encode (by rw [slimManifest_digest]; rfl)

theorem size_payload : textSize (bundlingCrates.base64Encode (published slimManifest)) = 126 := by
  rw [bundlingCrates_encode,textSize_base64,slimManifest_length]

theorem slimEntry_printed (identity : Option String) (name : String) :
    (slimEntry identity name).printedSize = 245 + optionalSize 20 identity + textSize name := by
  simp only [BundleEntry.printedSize,slimEntry,size_integrity,size_payload]
  omega

theorem slimEntry_named (identity name : String) : (slimEntry (some identity) name).printedSize =
    265 + textSize identity + textSize name := by
  rw [slimEntry_printed,optionalSize]
  omega

theorem slimBundle_pretty (name : String) : (slimBundle name).printedSize = textSize name + 293 := by
  have hversion : textSize MurlSystem.bundleVersion = 5 := rfl
  simp only [Bundle.printedSize,slimBundle,slimEntry_printed,optionalSize,List.map_cons,
    List.map_nil,List.sum_cons,List.sum_nil,hversion]
  omega

theorem slimBundle_compact (name : String) :
    (published (slimBundle name).toValue).length = textSize name + 246 := by
  obtain ⟨text,htext,hbytes⟩ := Fallible.map_ok.mp (compact_written (slimBundle name))
  have hopen : "\x7b".utf8ByteSize = 1 := rfl
  have hclose : "\x7d".utf8ByteSize = 1 := rfl
  have hbracket : "[".utf8ByteSize = 1 := rfl
  have hbracket' : "]".utf8ByteSize = 1 := rfl
  have hcolon : ":".utf8ByteSize = 1 := rfl
  have hversion : textSize "bundleVersion" = 15 := rfl
  have hversion' : textSize MurlSystem.bundleVersion = 5 := rfl
  have hentries : textSize "entries" = 9 := rfl
  have hname : textSize "name" = 6 := rfl
  have hintegrity : textSize "integrity" = 11 := rfl
  have hpayload : textSize "bytes" = 7 := rfl
  simp only [Bundle.toValue,slimBundle,BundleEntry.toValue,slimEntry,optionalMember,
    List.nil_append,List.map_cons,List.map_nil,writeValue,writeMembers,writeItems,Fallible.bind_ok,
    Fallible.pure_ok,Except.ok.injEq,exists_eq_left'] at htext
  rw [← hbytes,Text.length_bytes,← htext]
  simp only [String.utf8ByteSize_append,size_intercalate,List.map_cons,List.map_nil,List.sum_cons,
    List.sum_nil,size_writeString,List.length_cons,List.length_nil,hopen,hclose,hbracket,hbracket',
    hcolon,hversion,hversion',hentries,hname,hintegrity,hpayload,size_integrity,size_payload]
  omega

theorem slimLimits_cap : bundleCap slimLimits = 744 := by decide

theorem bundle_outgrows_cap :
    Bundle.fromSlice bundlingCrates slimLimits (published (slimBundle longName).toValue) =
        .ok (slimBundle longName) ∧
      ¬∃ b, Bundle.fromSlice bundlingCrates slimLimits (slimBundle longName).toJsonBytes = .ok b := by
  have hname : textSize longName = 482 := size_plain 480
  constructor
  · refine compact_accepted (compact_written (slimBundle longName)) ?_
    rw [slimBundle_compact,hname,slimLimits_cap]
    omega
  · rintro ⟨b,hb⟩
    have hsize := (fromSlice_iff.mp hb).1
    rw [size_bundle (by simp [slimBundle]),slimBundle_pretty,hname,slimLimits_cap] at hsize
    omega

theorem bundle_round_trip_short : Bundle.fromSlice bundlingCrates slimLimits
    (slimBundle "a").toJsonBytes = .ok (slimBundle "a") := by
  have hname : textSize "a" = 3 := rfl
  have hread : Bundle.fromSlice bundlingCrates slimLimits (published (slimBundle "a").toValue) =
      .ok (slimBundle "a") := by
    refine compact_accepted (compact_written (slimBundle "a")) ?_
    rw [slimBundle_compact,hname,slimLimits_cap]
    omega
  refine (bundle_round_trip bundlingCrates slimLimits Serde.shown bundlingCrates_serde
    bundlingCrates_base64 (slimBundle "a") (.read _ _ hread)).mpr ⟨?_,nofun⟩
  rw [slimBundle_pretty,hname,slimLimits_cap]
  omega

end Cap

end MurlSystem

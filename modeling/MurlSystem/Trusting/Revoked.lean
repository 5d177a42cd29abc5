import MurlSystem.Trusting.Updates
import MurlSystem.Naming.Exact
import MurlSystem.Naming.Printing
import MurlSystem.Resolution.Isolation

namespace MurlSystem

section Normalised

open Syntax

variable {s : String} {p : Parts} {m : Murl}

def Murl.atAuthority (m : Murl) : Murl := ⟨m.authority,["x"],.latest,none,none⟩

theorem letter_reads : SegmentReads Text.isControl "x".toList "x" where
  some := by decide
  decoded := .plain 'x' [] [] (by decide) .done
  size := by decide
  clean := by
    intro c hc
    obtain rfl : c = 'x' := List.mem_singleton.mp hc
    decide
  solid := by decide

theorem atAuthority_toString (m : Murl) :
    m.atAuthority.toString = s!"murl://{m.authority.toString}/x" := by
  have hx : encodeSegment "x" = "x" := by decide +kernel
  simp [Murl.toString,Murl.atAuthority,Murl.identity,Murl.selectorDisplay,hx,toString,
    String.append_assoc]

theorem atAuthority_reads (h : p.Reads .exact Text.isControl m) :
    (printedParts m.atAuthority).Reads .exact Text.isControl m.atAuthority where
  authority := (printed_reads h).authority
  few := (by decide : 1 ≤ maxSegments)
  name := segments_reencode (.cons letter_reads .nil)
  version := .absent
  query := rfl
  selector := .absent

theorem printed_path_ne_nil (h : Accepts .exact s p m) : (printedParts m).path ≠ [] := by
  have hname := (printed_reads h.reads).name
  obtain ⟨seg,rest,hseg⟩ := List.exists_cons_of_ne_nil (printed_wellFormed h).nonempty
  rw [hseg] at hname
  obtain ⟨text,name,htext,-,-⟩ := List.forall₂_cons_left_iff.mp hname
  obtain ⟨c,chars,rfl⟩ := List.exists_cons_of_ne_nil htext.some
  rw [Parts.path,hseg,Abnf.intercalate_cons_eq]
  simp

theorem atAuthority_size (h : Accepts .exact s p m) :
    m.atAuthority.toString.utf8ByteSize ≤ maxMurlLen := by
  obtain ⟨c,rest,hpath⟩ := List.exists_cons_of_ne_nil (printed_path_ne_nil h)
  have hid := identity_toList (name_ne_nil h.rule h.reads)
  have hle : (s!"murl://{m.authority.toString}/" ++ String.singleton c).utf8ByteSize ≤
      m.identity.utf8ByteSize := by
    refine size_le_of_prefix (t := rest) ?_
    rw [hid,hpath]
    simp [toString]
  have hfits := identity_fits h
  have hc := Char.utf8Size_pos c
  rw [atAuthority_toString]
  simp only [toString,String.utf8ByteSize_append,String.utf8ByteSize_singleton] at hle ⊢
  have hx : ("/x" : String).utf8ByteSize = 2 := by decide +kernel
  have hslash : ("/" : String).utf8ByteSize = 1 := by decide +kernel
  rw [hx]
  rw [hslash] at hle
  omega

theorem atAuthority_accepts (h : Accepts .exact s p m) :
    Accepts .exact m.atAuthority.toString (printedParts m.atAuthority) m.atAuthority where
  text := toString_toList (by simp [Murl.atAuthority])
  rule := by
    refine reads_wellFormed (printed_scheme _) (List.cons_ne_nil _ _) ?_ (atAuthority_reads h.reads)
    rintro q ⟨⟩
  reads := atAuthority_reads h.reads
  size := atAuthority_size h
  canonical := atAuthority_size h
  host := h.host

theorem normalizeAuthority_ok {input authority : String} :
    normalizeAuthority input = .ok authority ↔
      ∃ m, Murl.parse s!"murl://{input}/x" = .ok m ∧ m.authority.toString = authority := by
  unfold normalizeAuthority
  cases Murl.parse s!"murl://{input}/x" <;> simp

theorem normalizeAuthority_parsed (h : Murl.parse s = .ok m) :
    normalizeAuthority m.authority.toString = .ok m.authority.toString := by
  obtain ⟨p,hp⟩ := parse_ok.mp h
  have hparse := parse_ok.mpr ⟨_,atAuthority_accepts hp⟩
  rw [atAuthority_toString] at hparse
  exact normalizeAuthority_ok.mpr ⟨_,hparse,rfl⟩

end Normalised

section Congruence

open Program

def Env.trusting (env : Env) (store : TrustStore) : Env := { env with trustStore := store }

def AlikeTrust (t u : TrustStore) : Prop :=
  ∀ (env : Env) murl origin verified,
    trustOf (env.trusting t) murl origin verified = trustOf (env.trusting u) murl origin verified

variable {t u : TrustStore}

theorem examine_trusting (h : AlikeTrust t u) (env : Env) (murl : Option Murl) (bytes : Bytes)
    (origin : Origin) (depth : Nat) :
    examine (env.trusting t) murl bytes origin depth =
      examine (env.trusting u) murl bytes origin depth := by
  unfold examine
  refine bind_congr fun manifest => ?_
  refine bind_congr fun _ => ?_
  refine bind_congr fun _ => ?_
  refine bind_congr fun verified => ?_
  refine bind_congr fun _ => ?_
  refine bind_congr fun _ => ?_
  refine bind_congr fun now => ?_
  refine bind_congr fun _ => ?_
  refine bind_congr fun _ => ?_
  rw [h env murl origin verified]

theorem ingestBytes_trusting (h : AlikeTrust t u) (env : Env) {depth : Nat}
    {recur recur' : depth + 1 ≤ env.limits.maxDepth →
      Murl → Option String → Option String → Nat → ResolveM Unit}
    (hrecur : recur = recur') (murl : Option Murl) (bytes : Bytes) (origin : Origin)
    (anchor : Option String) (parent : Option Nat) :
    ingestBytes (env.trusting t) depth recur murl bytes origin anchor parent =
      ingestBytes (env.trusting u) depth recur' murl bytes origin anchor parent := by
  subst hrecur
  unfold ingestBytes
  rw [examine_trusting h]
  rfl

theorem ingestNamed_trusting (h : AlikeTrust t u) (env : Env) (m : Murl) (depth : Nat)
    (anchor integrity : Option String) (parent : Option Nat) :
    ingestNamed (env.trusting t) m depth anchor integrity parent =
      ingestNamed (env.trusting u) m depth anchor integrity parent := by
  induction hn : env.limits.maxDepth - depth using Nat.strong_induction_on
    generalizing m depth anchor integrity parent with
  | _ n ih =>
    rw [ingestNamed,ingestNamed]
    refine bind_congr fun _ => ?_
    refine bind_congr fun located => ?_
    refine bind_congr fun _ => ?_
    refine ingestBytes_trusting h env ?_ (some m) _ _ anchor parent
    funext hd child anchor' integrity' node
    have hlt : depth + 1 ≤ env.limits.maxDepth := hd
    exact ih (env.limits.maxDepth - (depth + 1)) (by omega) child (depth + 1) _ _ _ rfl

theorem resolveRef_trusting (h : AlikeTrust t u) (env : Env) (ref : TargetRef) :
    resolveRef (env.trusting t) ref = resolveRef (env.trusting u) ref := by
  cases ref with
  | murl m =>
    change resolve (env.trusting t) m = resolve (env.trusting u) m
    unfold resolve
    rw [ingestNamed_trusting h]
  | file path =>
    change resolveFile (env.trusting t) path = resolveFile (env.trusting u) path
    unfold resolveFile
    refine bind_congr fun bytes => ?_
    refine congrArg (fun x : ResolveM Unit => x >>= fun _ => get >>= fun run : Run =>
      fromExcept (finish run.st none)) ?_
    refine @ingestBytes_trusting t u h env 0 _ _ ?_ none bytes (.localFile path) none none
    funext _ child anchor integrity node
    exact ingestNamed_trusting h env child 1 anchor integrity (some node)

end Congruence

section Pins

variable {t u : TrustStore} {crates : Crates}

theorem isTrusted_eq (t : TrustStore) (authority keyId : String) :
    t.isTrusted authority keyId =
      match normalizeAuthority authority with
      | .ok normal => t.pins normal keyId
      | .error _ => false := by
  unfold TrustStore.isTrusted
  cases normalizeAuthority authority with
  | error e => rfl
  | ok normal =>
    dsimp only
    unfold TrustStore.pins
    cases t.authorities.lookup normal <;> rfl

theorem alikeTrust_of_pins (h : ∀ authority keyId, t.pins authority keyId = u.pins authority keyId) :
    AlikeTrust t u := by
  intro env murl origin verified
  have htrusted : t.isTrusted = u.isTrusted := by
    funext authority keyId
    simp only [isTrusted_eq,h]
  unfold trustOf Env.trusting
  rw [htrusted]

theorem trustOf_remote (env : Env) (m : Murl) (url : String) (fromCache : Bool)
    (keyId publicKey : String) :
    trustOf (env.trusting t) (some m) (.remote url fromCache) (some ⟨keyId,publicKey⟩) =
      if t.isTrusted m.authority.toString keyId then .signedTrusted keyId
      else .signedUnknownKey keyId := rfl

theorem AlikeTrust.pins (h : AlikeTrust t u) {s : String} {m : Murl} (hm : Murl.parse s = .ok m)
    (keyId : String) : t.pins m.authority.toString keyId = u.pins m.authority.toString keyId := by
  have hstatus := h (siteEnv noCrates []) (some m) (.remote "" false) (some ⟨keyId,""⟩)
  rw [trustOf_remote,trustOf_remote,isTrusted_eq,isTrusted_eq,normalizeAuthority_parsed hm] at hstatus
  have hsame : ∀ a b : Bool, (if a then TrustStatus.signedTrusted keyId else .signedUnknownKey keyId) =
      (if b then .signedTrusted keyId else .signedUnknownKey keyId) → a = b := by
    intro a b
    cases a <;> cases b <;> simp
  exact hsame _ _ hstatus

theorem TrustRequest.normal (request : TrustRequest crates) :
    ∃ s m, Murl.parse s = .ok m ∧ m.authority.toString = request.edit.authority := by
  obtain ⟨call,edit,hcheck⟩ := request
  cases call with
  | add authority publicKeyB64 now =>
    obtain ⟨normal,pk,hnormal,-,-,-,rfl⟩ := check_add.mp hcheck
    obtain ⟨m,hm,rfl⟩ := normalizeAuthority_ok.mp hnormal
    exact ⟨_,m,hm,rfl⟩
  | remove authority keyId =>
    obtain ⟨normal,hnormal,rfl⟩ := check_remove.mp hcheck
    obtain ⟨m,hm,rfl⟩ := normalizeAuthority_ok.mp hnormal
    exact ⟨_,m,hm,rfl⟩

end Pins

section World

structure World (crates : Crates) where
  file : TrustFile
  daemon : Option TrustDoc
  before : List (TrustRequest crates)
  since : List (TrustRequest crates)

inductive WorldStep (crates : Crates) : World crates → World crates → Prop
  | command (w : World crates) (request : TrustRequest crates) (doc : TrustDoc)
      (loaded : w.file.load = .ok doc) :
      WorldStep crates w
        { w with file := .holds (request.edit.apply doc), since := w.since ++ [request] }
  | start (w : World crates) (doc : TrustDoc) (idle : w.daemon = none)
      (loaded : w.file.load = .ok doc) :
      WorldStep crates w
        { w with daemon := some doc, before := w.before ++ w.since, since := [] }
  | stop (w : World crates) : WorldStep crates w { w with daemon := none }
  | activate (w : World crates) : WorldStep crates w w

def worldSystem (crates : Crates) (file : TrustFile) : Transition.System (World crates) :=
  ⟨fun w => w = ⟨file,none,[],[]⟩,WorldStep crates⟩

variable {crates : Crates} {file : TrustFile} {w w' : World crates} {doc : TrustDoc}

def lastEdit (requests : List (TrustRequest crates)) (authority keyId : String) : Option Bool :=
  (trustDocument crates).last requests (authority,keyId)

structure SameTrust (w : World crates) (doc : TrustDoc) : Prop where
  alike : ∃ current, w.file.load = .ok current ∧ AlikeTrust doc.store current.store ∧
    ∀ (env : Env) ref run, resolveRef (env.trusting doc.store) ref run =
      resolveRef (env.trusting current.store) ref run
  revoked : ∀ authority keyId, lastEdit (w.before ++ w.since) authority keyId = some false →
    ∀ (env : Env) (m : Murl) origin publicKey, m.authority.toString = authority →
      trustOf (env.trusting doc.store) (some m) origin (some ⟨keyId,publicKey⟩) ≠
        .signedTrusted keyId

def NetUnchanged (w : World crates) (doc : TrustDoc) : Prop :=
  ∀ authority keyId pinned, lastEdit w.since authority keyId = some pinned →
    doc.store.pins authority keyId = pinned

structure Tracked (w : World crates) : Prop where
  whole : ∀ authority keyId pinned, lastEdit (w.before ++ w.since) authority keyId = some pinned →
    ∃ current, w.file.load = .ok current ∧ current.store.pins authority keyId = pinned
  since : ∀ doc, w.daemon = some doc → ∃ current, w.file.load = .ok current ∧
    ∀ authority keyId, current.store.pins authority keyId =
      (lastEdit w.since authority keyId).getD (doc.store.pins authority keyId)

theorem lastEdit_concat (requests : List (TrustRequest crates)) (request : TrustRequest crates)
    (authority keyId : String) :
    lastEdit (requests ++ [request]) authority keyId =
      if request.edit.pair = (authority,keyId) then some request.edit.pins
      else lastEdit requests authority keyId :=
  (trustDocument crates).last_concat requests request (authority,keyId)

theorem Tracked.step (h : Tracked w) (hstep : WorldStep crates w w') : Tracked w' := by
  cases hstep with
  | command request doc loaded =>
    refine ⟨?_,?_⟩
    · intro authority keyId pinned hlast
      refine ⟨_,rfl,?_⟩
      change lastEdit (w.before ++ (w.since ++ [request])) authority keyId = some pinned at hlast
      rw [← List.append_assoc,lastEdit_concat] at hlast
      rw [request.edit.pins_apply]
      by_cases hpair : request.edit.pair = (authority,keyId)
      · rw [if_pos hpair] at hlast ⊢
        exact Option.some.inj hlast
      · rw [if_neg hpair] at hlast ⊢
        obtain ⟨current,hload,hpins⟩ := h.whole authority keyId pinned hlast
        rw [Except.ok.inj (loaded.symm.trans hload),hpins]
    · intro daemon hdaemon
      obtain ⟨current,hload,hpins⟩ := h.since daemon hdaemon
      obtain rfl := Except.ok.inj (loaded.symm.trans hload)
      refine ⟨_,rfl,?_⟩
      intro authority keyId
      rw [request.edit.pins_apply,lastEdit_concat,hpins]
      split <;> rfl
  | start doc idle loaded =>
    refine ⟨?_,?_⟩
    · intro authority keyId pinned hlast
      change lastEdit (w.before ++ w.since ++ []) authority keyId = some pinned at hlast
      rw [List.append_nil] at hlast
      exact h.whole authority keyId pinned hlast
    · intro daemon hdaemon
      obtain rfl := Option.some.inj hdaemon
      exact ⟨doc,loaded,fun _ _ => rfl⟩
  | stop => exact ⟨h.whole,by rintro doc ⟨⟩⟩
  | activate => exact h

theorem tracked_reachable (h : (worldSystem crates file).Reachable w) : Tracked w := by
  refine Transition.System.invariant Tracked ?_ ?_ h
  · rintro w rfl
    exact ⟨by rintro authority keyId pinned ⟨⟩,by rintro doc ⟨⟩⟩
  · intro w w' _ hw hstep
    exact hw.step hstep

theorem NetUnchanged.pins (h : NetUnchanged w doc) {current : TrustDoc}
    (hpins : ∀ authority keyId, current.store.pins authority keyId =
      (lastEdit w.since authority keyId).getD (doc.store.pins authority keyId))
    (authority keyId : String) :
    doc.store.pins authority keyId = current.store.pins authority keyId := by
  rw [hpins]
  cases hlast : lastEdit w.since authority keyId with
  | none => rfl
  | some pinned => exact h authority keyId pinned hlast

theorem not_trusted {m : Murl} {s keyId : String} {t : TrustStore} (hm : Murl.parse s = .ok m)
    (h : t.pins m.authority.toString keyId = false) (env : Env) {n : Murl} (origin : Origin)
    (publicKey : String) (hn : n.authority.toString = m.authority.toString) :
    trustOf (env.trusting t) (some n) origin (some ⟨keyId,publicKey⟩) ≠ .signedTrusted keyId := by
  cases origin with
  | localStore path => simp [trustOf]
  | localFile path => simp [trustOf]
  | remote url fromCache =>
    rw [trustOf_remote,hn,isTrusted_eq,normalizeAuthority_parsed hm]
    simp [h]

theorem daemon_trust_iff (crates : Crates) (file : TrustFile) (w : World crates) (doc : TrustDoc)
    (h : (worldSystem crates file).Reachable w) (running : w.daemon = some doc) :
    SameTrust w doc ↔ NetUnchanged w doc := by
  have htracked := tracked_reachable h
  obtain ⟨current,hload,hpins⟩ := htracked.since doc running
  constructor
  · rintro ⟨⟨loaded,hloaded,halike,-⟩,-⟩ authority keyId pinned hlast
    obtain rfl := Except.ok.inj (hload.symm.trans hloaded)
    obtain ⟨request,-,hkey⟩ := (trustDocument crates).last_mem hlast
    obtain ⟨s,m,hm,hauthority⟩ := request.normal
    have heq : request.edit.authority = authority := congrArg Prod.fst hkey
    have hsame := halike.pins hm keyId
    rw [hauthority,heq,hpins,hlast] at hsame
    exact hsame
  · intro hnet
    have hsame := hnet.pins hpins
    have halike := alikeTrust_of_pins hsame
    refine ⟨⟨current,hload,halike,?_⟩,?_⟩
    · intro env ref run
      rw [resolveRef_trusting halike]
    · intro authority keyId hlast env n origin publicKey hn
      obtain ⟨request,-,hkey⟩ := (trustDocument crates).last_mem hlast
      obtain ⟨s,m,hm,hauthority⟩ := request.normal
      have heq : request.edit.authority = authority := congrArg Prod.fst hkey
      obtain ⟨current',hload',hfalse⟩ := htracked.whole authority keyId false hlast
      obtain rfl := Except.ok.inj (hload.symm.trans hload')
      rw [← hsame,← heq,← hauthority] at hfalse
      exact not_trusted hm hfalse env origin publicKey (by rw [hn,hauthority,heq])

end World

section Runs

def revokeRequest (keyId : String)
    (h : TrustCall.check noCrates (.remove "a.com" keyId) = .ok (.remove "a.com" keyId)) :
    TrustRequest noCrates :=
  ⟨.remove "a.com" keyId,.remove "a.com" keyId,h⟩

def runningWorld (request : TrustRequest noCrates) : World noCrates :=
  ⟨.holds (request.edit.apply pinnedDoc),some pinnedDoc,[],[request]⟩

theorem runningWorld_reachable (request : TrustRequest noCrates) :
    (worldSystem noCrates (.holds pinnedDoc)).Reachable (runningWorld request) :=
  ⟨_,rfl,.cons (.start _ pinnedDoc rfl rfl) (.single (.command _ request pinnedDoc rfl))⟩

theorem revoked_key_stays_trusted :
    ¬∀ (crates : Crates) (file : TrustFile) (w : World crates) (doc : TrustDoc),
      (worldSystem crates file).Reachable w → w.daemon = some doc → SameTrust w doc := by
  intro h
  have hcheck : TrustCall.check noCrates (.remove "a.com" "k") = .ok (.remove "a.com" "k") := by
    decide +kernel
  let request := revokeRequest "k" hcheck
  have hsame := h noCrates _ (runningWorld request) pinnedDoc (runningWorld_reachable request) rfl
  have hlast : lastEdit ((runningWorld request).before ++ (runningWorld request).since) "a.com" "k" =
      some false := rfl
  refine hsame.revoked "a.com" "k" hlast (siteEnv noCrates []) ⟨.remote "a.com" none,["x"],.latest,none,none⟩
    (.remote "" false) "" (by decide) ?_
  decide +kernel

theorem absent_key_removed_alike : ∃ w : World noCrates, w.since ≠ [] ∧ SameTrust w pinnedDoc := by
  have hcheck : TrustCall.check noCrates (.remove "a.com" "j") = .ok (.remove "a.com" "j") := by
    decide +kernel
  let request := revokeRequest "j" hcheck
  refine ⟨runningWorld request,List.cons_ne_nil _ _,?_⟩
  refine (daemon_trust_iff noCrates _ (runningWorld request) pinnedDoc
    (runningWorld_reachable request) rfl).mpr ?_
  intro authority keyId pinned hlast
  change (if ("a.com","j") = (authority,keyId) then some false else none) = some pinned at hlast
  split at hlast
  · rename_i hpair
    obtain ⟨rfl,rfl⟩ := Prod.mk.inj hpair
    rw [← Option.some.inj hlast]
    decide +kernel
  · cases hlast

end Runs

end MurlSystem

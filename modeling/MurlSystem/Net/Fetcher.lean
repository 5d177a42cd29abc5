import MurlSystem.Core.Target
import MurlSystem.Net.Address
import MurlSystem.Storing.Contained

namespace MurlSystem

structure Agent where
  timeoutSecs : Nat
  redirects : Nat
  httpsOnly : Bool
  resolver : GuardedResolver

-- `read n` is what reading at most `n` bytes of the body gives.
structure AgentResponse where
  status : Nat
  read : Nat → Except String Bytes

inductive CallError
  | status (code : Nat)
  | transport (why : String)
deriving DecidableEq, Repr

abbrev AgentCall : Type := Agent → String → Except CallError AgentResponse

def u32Max : Nat := 4294967295

def ureqRedirects (maxRedirects : Nat) : Nat :=
  match maxRedirects with
  | 0 => 0
  | n => min (n + 1) u32Max

def readCapped (resp : AgentResponse) (cap : Nat) (url : String) : Except Error Bytes := do
  let buf ← (resp.read (cap + 1)).mapError fun e => .fetch s!"reading {url}: {e}"
  if cap < buf.length then throw (.limitExceeded s!"manifest at {url} exceeds {cap} bytes")
  return buf

def beforePort (authority : List Char) : List Char :=
  match Text.rsplitOnce ':' authority with
  | some (host,_) => host
  | none => authority

def urlHost (url : String) : Option (List Char) := do
  let rest ← (url.toList.dropPrefix? "https://".toList).or (url.toList.dropPrefix? "http://".toList)
  return beforePort (authorityOf rest)

def hostIsLoopback (host : List Char) : Bool :=
  host == "localhost".toList || host == "127.0.0.1".toList ||
    ".localhost".toList.isSuffixOf host

namespace HttpsFetcher

def loopback (url : String) : Bool := ((urlHost url).map hostIsLoopback).getD false

def agent (url : String) (limits : Limits) : Agent where
  timeoutSecs := limits.fetchTimeoutSecs
  redirects := ureqRedirects limits.maxRedirects
  httpsOnly := "https://".toList.isPrefixOf url.toList
  resolver := ⟨loopback url⟩

def received (limits : Limits) (url : String) : Except CallError AgentResponse → Except Error Bytes
  | .ok resp =>
    if 200 ≤ resp.status ∧ resp.status ≤ 299 then readCapped resp limits.maxManifestBytes url
    else .error (.fetch s!"HTTP {resp.status} from {url}")
  | .error (.status code) => .error (.fetch s!"HTTP {code} from {url}")
  | .error (.transport e) => .error (.fetch s!"{url}: {e}")

def fetch (call : AgentCall) (url : String) (limits : Limits) : Except Error Bytes :=
  let https := "https://".toList.isPrefixOf url.toList
  if !(https || ("http://".toList.isPrefixOf url.toList && loopback url)) then
    .error (.fetch
      s!"refusing non-HTTPS manifest URL `{url}` (http is allowed for loopback only)")
  else received limits url (call (agent url limits) url)

end HttpsFetcher

section Agreement

variable {s url : String} {m : Murl} {host : String} {port : Option Nat}

theorem parsed_host (h : Murl.parse s = .ok m) (ha : m.authority = .remote host port) :
    Syntax.HostOk host.toList := by
  obtain ⟨parts,hp⟩ := Syntax.parse_ok.mp h
  obtain ⟨text,htext⟩ : ∃ text, text = Text.lowercase parts.authority := ⟨_,rfl⟩
  have hread := hp.reads.authority
  rw [ha,← htext] at hread
  cases hread with
  | host l ok _ => rwa [String.toList_ofList]
  | hostPort l p ok _ _ _ _ => rwa [String.toList_ofList]

theorem decimal_free (n : Nat) {c : Char} (hc : c.isDigit = false) : c ∉ (toString n).toList := by
  intro hmem
  have hdigits : (toString n).toList = Nat.toDigits 10 n := Nat.toList_repr
  rw [hdigits] at hmem
  rw [Nat.isDigit_of_mem_toDigits (by decide) (by decide) hmem] at hc
  cases hc

theorem beforePort_authority (h : ':' ∉ host.toList) :
    beforePort (Authority.remote host port).toString.toList = host.toList := by
  cases port with
  | none => rw [beforePort,Authority.toString,Text.rsplitOnce_none.mpr h]
  | some p =>
    have htext : (Authority.remote host (some p)).toString.toList =
        host.toList ++ ':' :: (toString p).toList := by
      have happ : (Authority.remote host (some p)).toString = host ++ ":" ++ toString p := rfl
      rw [happ,String.toList_append,String.toList_append,List.append_assoc]
      rfl
    rw [beforePort,htext,Text.rsplitOnce_append _ (decimal_free p (by decide))]

theorem authorityOf_slashed {l rest : List Char} (h : ∀ c ∈ l, isAuthorityEnd c = false) :
    authorityOf (l ++ '/' :: rest) = l := by
  rw [authorityOf,List.takeWhile_append_of_pos]
  · simp [isAuthorityEnd]
  · intro c hc
    rw [h c hc]
    rfl

theorem url_split (h : Murl.parse s = .ok m) (ha : m.authority = .remote host port)
    (hurl : wellKnownUrl m = some url) : ∃ rest, url.toList = urlScheme m ++ ("://".toList ++ rest) ∧
      authorityOf rest = (Authority.remote host port).toString.toList := by
  obtain ⟨url',hurl',hlist⟩ := wellKnownUrl_toList ha
  obtain rfl : url' = url := Option.some.inj (hurl'.symm.trans hurl)
  rw [ha] at hlist
  refine ⟨(Authority.remote host port).toString.toList ++ '/' :: (wellKnown.toList.tail ++
    (Syntax.slashed m.name ++ Syntax.marked '@' (Syntax.printedVersion m.version)) ++
      fileSuffix.toList),?_,?_⟩
  · rw [hlist]
    have hslash : wellKnown.toList = '/' :: wellKnown.toList.tail := rfl
    rw [hslash]
    simp only [List.append_assoc,List.cons_append,List.tail_cons]
  · refine authorityOf_slashed fun c hc => ?_
    have hfree : ∀ d : Char, Text.isLetter d = false → Syntax.isAuthorityChar d = false → c ≠ d := by
      rintro d hletter hchar rfl
      rw [← ha] at hc
      exact Syntax.parsed_authority_free h hletter hchar hc
    simp [isAuthorityEnd,hfree '/' (by decide) (by decide),hfree '?' (by decide) (by decide),
      hfree '#' (by decide) (by decide)]

theorem dropPrefix_append {x y : List Char} : (x ++ y).dropPrefix? x = some y :=
  List.dropPrefix?_eq_some_iff.mpr ⟨x,rfl,by simp⟩

theorem url_host (h : Murl.parse s = .ok m) (ha : m.authority = .remote host port)
    (hurl : wellKnownUrl m = some url) : urlHost url = some host.toList := by
  have hcolon : ':' ∉ host.toList := Syntax.hostOk_free (parsed_host h ha) (by decide) (by decide)
  obtain ⟨rest,hlist,hauthority⟩ := url_split h ha hurl
  have hstripped : (url.toList.dropPrefix? "https://".toList).or
      (url.toList.dropPrefix? "http://".toList) = some rest := by
    rw [hlist,urlScheme]
    split
    · have hsecure : ("http".toList ++ ("://".toList ++ rest)).dropPrefix? "https://".toList = none := by
        simp [List.dropPrefix?]
      have hplain : ("http".toList ++ ("://".toList ++ rest)).dropPrefix? "http://".toList = some rest :=
        @dropPrefix_append "http://".toList rest
      rw [hsecure,hplain]
      rfl
    · have hsecure : ("https".toList ++ ("://".toList ++ rest)).dropPrefix? "https://".toList =
          some rest := @dropPrefix_append "https://".toList rest
      rw [hsecure]
      rfl
  rw [urlHost,hstripped]
  change some (beforePort (authorityOf rest)) = _
  rw [hauthority,beforePort_authority hcolon]

theorem loopback_authority (h : Murl.parse s = .ok m) (ha : m.authority = .remote host port)
    (hurl : wellKnownUrl m = some url) : HttpsFetcher.loopback url = m.authority.isLoopback := by
  have hword : ∀ w : String, (host == w) = (host.toList == w.toList) := by
    intro w
    rw [Bool.eq_iff_iff,beq_iff_eq,beq_iff_eq,String.toList_inj]
  rw [HttpsFetcher.loopback,url_host h ha hurl,ha,Authority.isLoopback,hword,hword]
  rfl

theorem url_scheme (h : Murl.parse s = .ok m) (ha : m.authority = .remote host port)
    (hurl : wellKnownUrl m = some url) :
    "https://".toList.isPrefixOf url.toList = !m.authority.isLoopback ∧
    "http://".toList.isPrefixOf url.toList = m.authority.isLoopback := by
  obtain ⟨rest,hlist,-⟩ := url_split h ha hurl
  rw [hlist,urlScheme]
  cases m.authority.isLoopback with
  | true => exact ⟨rfl,rfl⟩
  | false => exact ⟨rfl,rfl⟩

theorem fetch_agrees (h : Murl.parse s = .ok m) (ha : m.authority = .remote host port) :
    ∃ url, wellKnownUrl m = some url ∧ urlHost url = some host.toList ∧
      (∀ (call : AgentCall) (limits : Limits), HttpsFetcher.fetch call url limits =
        HttpsFetcher.received limits url (call (HttpsFetcher.agent url limits) url)) ∧
      ("http://".toList <+: url.toList ↔ m.authority.isLoopback = true) ∧
      ("https://".toList <+: url.toList ↔ m.authority.isLoopback = false) ∧
      ∀ limits, ((HttpsFetcher.agent url limits).resolver.loopback = true ↔
        m.authority.isLoopback = true) ∧
        (HttpsFetcher.agent url limits).httpsOnly = !m.authority.isLoopback := by
  obtain ⟨url,hurl,-⟩ := wellKnownUrl_toList ha
  obtain ⟨hsecure,hplain⟩ := url_scheme h ha hurl
  have hloopback := loopback_authority h ha hurl
  refine ⟨url,hurl,url_host h ha hurl,?_,?_,?_,fun limits => ⟨?_,hsecure⟩⟩
  · intro call limits
    have hgate : (!("https://".toList.isPrefixOf url.toList ||
        ("http://".toList.isPrefixOf url.toList && HttpsFetcher.loopback url))) = false := by
      rw [hsecure,hplain,hloopback]
      cases m.authority.isLoopback <;> rfl
    rw [HttpsFetcher.fetch,hgate]
    rfl
  · rw [← List.isPrefixOf_iff_prefix,hplain]
  · rw [← List.isPrefixOf_iff_prefix,hsecure,Bool.not_eq_true']
  · change HttpsFetcher.loopback url = true ↔ _
    rw [hloopback]

theorem dev_agrees : ∃ url, wellKnownUrl ⟨.remote "dev.localhost" (some 8080),["p"],.latest,none,none⟩ =
    some url ∧ urlHost url = some "dev.localhost".toList ∧ HttpsFetcher.loopback url = true := by
  have hparse : Murl.parse "murl://Dev.localhost:8080/p" =
      .ok ⟨.remote "dev.localhost" (some 8080),["p"],.latest,none,none⟩ := by decide +kernel
  obtain ⟨url,hurl,hhost,-,-,-,hmode⟩ := fetch_agrees hparse rfl
  exact ⟨url,hurl,hhost,(hmode {}).1.mpr (by decide +kernel)⟩

end Agreement

end MurlSystem

import MurlSystem.Resolution.Locate
import MurlSystem.Resolution.Outcome

namespace MurlSystem

open Program

def Env.withStore (env : Env) (store : LocalStore) : Env := { env with localStore := store }

theorem Locality.thisDevice_lt_of {a : Authority} :
    Locality.thisDevice < Locality.of a ↔ a.isLocal = false := by
  change (0 : Nat) < (Locality.of a).rank ↔ _
  unfold Locality.of
  cases a.isLocal <;> cases a.isLoopback <;> simp [Locality.rank]

section Isolation

variable (env : Env) (store : LocalStore)

theorem locate_withStore {m : Murl} (parent : Option Nat) (h : m.authority.isLocal = false) :
    locate (env.withStore store) parent m = locate env parent m := by
  unfold locate
  have hn : ¬m.authority.isLocal = true := by simp [h]
  rw [if_neg hn,if_neg hn]
  rfl

theorem spliceChild_congr {site : Site}
    {recur recur' : Murl → Option String → Option String → Nat → ResolveM Unit} {i : Nat}
    {doc : ResourceDoc} {child : Murl}
    (h : ∀ anchor integrity node,
      recur' child anchor integrity node = recur child anchor integrity node) :
    spliceChild site recur' i doc child = spliceChild site recur i doc child := by
  unfold spliceChild
  simp only [h]

theorem spliceNested_withStore {site : Site}
    {recur recur' : site.depth + 1 ≤ env.limits.maxDepth →
      Murl → Option String → Option String → Nat → ResolveM Unit} {i : Nat} {doc : ResourceDoc}
    (hsource : .thisDevice < site.source)
    (h : ∀ hd child, child.authority.isLocal = false → ∀ anchor integrity node,
      recur' hd child anchor integrity node = recur hd child anchor integrity node) :
    spliceNested (env.withStore store) site recur' i doc =
      spliceNested env site recur i doc := by
  unfold spliceNested
  refine bind_congr fun child => ?_
  by_cases hnear : Locality.of child.authority < site.source
  · rw [if_pos hnear,if_pos hnear]
  · rw [if_neg hnear,if_neg hnear]
    have hremote : child.authority.isLocal = false :=
      Locality.thisDevice_lt_of.mp (lt_of_lt_of_le hsource (not_lt.mp hnear))
    refine bind_congr fun _ => ?_
    by_cases hd : site.depth + 1 ≤ env.limits.maxDepth
    · have hd' : site.depth + 1 ≤ (env.withStore store).limits.maxDepth := hd
      rw [dif_pos hd,dif_pos hd']
      exact spliceChild_congr (h hd child hremote)
    · have hd' : ¬site.depth + 1 ≤ (env.withStore store).limits.maxDepth := hd
      rw [dif_neg hd,dif_neg hd']
      rfl

theorem spliceResource_withStore {site : Site}
    {recur recur' : site.depth + 1 ≤ env.limits.maxDepth →
      Murl → Option String → Option String → Nat → ResolveM Unit}
    (hsource : .thisDevice < site.source)
    (h : ∀ hd child, child.authority.isLocal = false → ∀ anchor integrity node,
      recur' hd child anchor integrity node = recur hd child anchor integrity node)
    (resources : List ResourceDoc) :
    spliceResource (env.withStore store) site recur' resources =
      spliceResource env site recur resources := by
  funext i
  unfold spliceResource
  cases resources[i]? with
  | none => rfl
  | some doc =>
    dsimp only
    refine bind_congr fun kind => ?_
    by_cases hk : kind = .murl
    · rw [if_pos hk,if_pos hk]
      exact spliceNested_withStore env store hsource h
    · rw [if_neg hk,if_neg hk]
      rfl

theorem ingestBytes_withStore {depth : Nat}
    {recur recur' : depth + 1 ≤ env.limits.maxDepth →
      Murl → Option String → Option String → Nat → ResolveM Unit} {m : Murl} {origin : Origin}
    (hm : m.authority.isLocal = false) (hsource : sourceMatches m origin)
    (h : ∀ hd child, child.authority.isLocal = false → ∀ anchor integrity node,
      recur' hd child anchor integrity node = recur hd child anchor integrity node)
    (bytes : Bytes) (anchor : Option String) (parent : Option Nat) :
    ingestBytes (env.withStore store) depth recur' (some m) bytes origin anchor parent =
      ingestBytes env depth recur (some m) bytes origin anchor parent := by
  have hfar : .thisDevice < Locality.ofSource origin (some m) := by
    cases origin with
    | localStore p =>
      have hlocal : m.authority.isLocal = true := hsource
      rw [hm] at hlocal
      cases hlocal
    | localFile p => cases hsource
    | remote url fromCache => exact Locality.thisDevice_lt_of.mpr hm
  unfold ingestBytes
  refine bind_congr fun node => ?_
  refine bind_congr fun run => ?_
  refine bind_congr fun _ => ?_
  refine bind_congr fun order => ?_
  rw [spliceResource_withStore env store hfar h]

theorem ingestNamed_withStore (m : Murl) (hm : m.authority.isLocal = false) (depth : Nat)
    (anchor integrity : Option String) (parent : Option Nat) :
    ingestNamed (env.withStore store) m depth anchor integrity parent =
      ingestNamed env m depth anchor integrity parent := by
  induction hn : env.limits.maxDepth - depth using Nat.strong_induction_on
    generalizing m depth anchor integrity parent with
  | _ n ih =>
    rw [ingestNamed,ingestNamed,locate_withStore env store parent hm]
    refine bind_congr fun _ => ?_
    funext r
    refine bind_congr_ok ?_
    rintro ⟨bytes,origin⟩ r' hgot
    have hsource := (locate_ok hgot).2
    refine congrFun (bind_congr fun _ => ?_) r'
    refine ingestBytes_withStore env store hm hsource ?_ bytes anchor parent
    intro hd child hchild anchor' integrity' node
    exact ih (env.limits.maxDepth - (depth + 1)) (by omega) child hchild (depth + 1) _ _ _ rfl

theorem resolve_withStore (m : Murl) (hm : m.authority.isLocal = false) (cache : Cache) :
    resolve (env.withStore store) m (Run.start cache) = resolve env m (Run.start cache) := by
  unfold resolve
  rw [ingestNamed_withStore env store m hm]

theorem resolve_blind_to_store (mine yours : LocalStore) (m : Murl)
    (hm : m.authority.isLocal = false) (cache : Cache) :
    resolve (env.withStore mine) m (Run.start cache) =
      resolve (env.withStore yours) m (Run.start cache) := by
  rw [resolve_withStore env mine m hm,resolve_withStore env yours m hm]

end Isolation

section Probe

def probePage : Value := manifestValue "Probe" [resourceValue "x" "murl" "murl://local/tax" none]

def probeEnv : Env :=
  siteEnv (siteCrates [probePage] [] [])
    [("https://a.com/.well-known/murl/probe.murl.json",probePage)]

def probeMurl : Murl := ⟨.remote "a.com" none,["probe"],.latest,none,none⟩

def emptyStore : LocalStore := ⟨.posix,"/names",fun _ => .notFound⟩

def taxStore : LocalStore :=
  ⟨.posix,"/names",fun path =>
    if path = "/names/tax.murl.json" then .bytes (published probePage) else .notFound⟩

theorem probe_learns_nothing :
    resolve (probeEnv.withStore emptyStore) probeMurl (Run.start Cache.empty) =
      resolve (probeEnv.withStore taxStore) probeMurl (Run.start Cache.empty) :=
  resolve_blind_to_store probeEnv emptyStore taxStore probeMurl rfl Cache.empty

end Probe

end MurlSystem

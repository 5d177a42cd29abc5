import MurlSystem.Activation.Session
import MurlSystem.Cli.Names
import MurlSystem.Naming.Exact

namespace MurlSystem

def OnBoundary (s : String) (n : Nat) : Prop := (⟨n⟩ : String.Pos.Raw).IsValid s

def Sliceable (s : String) : Prop := s.utf8ByteSize < 5 ∨ OnBoundary s 5

def parseTarget (s : String) : Except Stop TargetRef := do
  let named ← hasMurlScheme s
  if named then
    let m ← (Murl.parse s).mapError fun e => .failed (.parse e)
    return .murl m
  return .file s

section Slices

variable {s : String} {n : Nat} {cs : List Char}

theorem onBoundary_iff :
    OnBoundary s n ↔ ∃ i, (String.ofList (s.toList.take i)).utf8ByteSize = n := by
  rw [OnBoundary,String.Pos.Raw.isValid_iff_exists_take_toList]
  exact exists_congr fun i => eq_comm

theorem prefixBytes_isSome :
    (prefixBytes n cs).isSome = true ↔ ∃ i, (String.ofList (cs.take i)).utf8ByteSize = n := by
  induction cs generalizing n with
  | nil =>
    cases n with
    | zero => simp [prefixBytes]
    | succ n => simp [prefixBytes]
  | cons c cs ih =>
    cases n with
    | zero =>
      have hnone : (String.ofList ((c :: cs).take 0)).utf8ByteSize = 0 := rfl
      simp only [prefixBytes,Option.isSome_some,true_iff]
      exact ⟨0,hnone⟩
    | succ n =>
      have hsize : ∀ i, (String.ofList ((c :: cs).take (i + 1))).utf8ByteSize =
          c.utf8Size + (String.ofList (cs.take i)).utf8ByteSize := by
        intro i
        rw [List.take_succ_cons,String.ofList_cons,String.utf8ByteSize_append]
        simp
      rw [prefixBytes]
      split
      · rename_i hfits
        rw [Option.isSome_map,ih]
        constructor
        · rintro ⟨i,hi⟩
          refine ⟨i + 1,?_⟩
          rw [hsize]
          omega
        · rintro ⟨i,hi⟩
          cases i with
          | zero => simp at hi
          | succ i =>
            rw [hsize] at hi
            exact ⟨i,by omega⟩
      · rename_i hover
        simp only [Option.isSome_none,Bool.false_eq_true,false_iff,not_exists]
        intro i hi
        cases i with
        | zero => simp at hi
        | succ i =>
          rw [hsize] at hi
          omega

theorem sliceTo_eq : sliceTo n cs = prefixBytes n cs := by
  induction cs generalizing n with
  | nil => cases n <;> simp [sliceTo,prefixBytes]
  | cons c cs ih => cases n <;> simp [sliceTo,prefixBytes,ih]

theorem hasMurlScheme_returns (h : Sliceable s) : ∃ named, hasMurlScheme s = .ok named := by
  unfold hasMurlScheme
  split
  · exact ⟨_,rfl⟩
  · rename_i hlong
    have hsome := prefixBytes_isSome.mpr (onBoundary_iff.mp (h.resolve_left hlong))
    obtain ⟨head,hhead⟩ := Option.isSome_iff_exists.mp hsome
    exact ⟨_,by rw [hhead]⟩

theorem hasMurlScheme_panics (h : ¬Sliceable s) : hasMurlScheme s = .error .panicked := by
  rw [Sliceable,not_or,onBoundary_iff] at h
  have hnone : prefixBytes 5 s.toList = none := by
    rw [← Option.not_isSome_iff_eq_none,prefixBytes_isSome]
    exact h.2
  rw [hasMurlScheme,if_neg h.1,hnone]

theorem namesMurl_panics : namesMurl s = none ↔ ¬Sliceable s := by
  rw [namesMurl,Sliceable]
  split
  · rename_i hshort
    simp [hshort]
  · rename_i hlong
    rw [Option.map_eq_none_iff,sliceTo_eq,← Option.not_isSome_iff_eq_none,prefixBytes_isSome,
      onBoundary_iff]
    simp [hlong]

end Slices

section Classifiers

variable {s : String} {inv : Invocation}

theorem parseTarget_returns : parseTarget s ≠ .error .panicked ↔ Sliceable s := by
  constructor
  · intro h
    by_contra hno
    exact h (by rw [parseTarget,hasMurlScheme_panics hno]; rfl)
  · intro h hpanic
    obtain ⟨named,hnamed⟩ := hasMurlScheme_returns h
    rw [parseTarget,hnamed] at hpanic
    cases named with
    | false => cases hpanic
    | true =>
      cases hparse : Murl.parse s with
      | ok m =>
        rw [hparse] at hpanic
        cases hpanic
      | error e =>
        rw [hparse] at hpanic
        cases hpanic

theorem parseNameWith_returns (notLocal : String → String) (carries : String) :
    parseNameWith notLocal carries s ≠ .error .panicked ↔ Sliceable s := by
  constructor
  · intro h
    by_contra hno
    exact h (by rw [parseNameWith,hasMurlScheme_panics hno]; rfl)
  · intro h hpanic
    obtain ⟨named,hnamed⟩ := hasMurlScheme_returns h
    rw [parseNameWith,hnamed] at hpanic
    cases hparse : Murl.parse (if named then s else s!"murl://local/{s}") with
    | error e =>
      change ((Murl.parse (if named then s else s!"murl://local/{s}")).mapError _ >>= _) =
        Except.error Stop.panicked at hpanic
      rw [hparse] at hpanic
      cases hpanic
    | ok m =>
      change ((Murl.parse (if named then s else s!"murl://local/{s}")).mapError _ >>= _) =
        Except.error Stop.panicked at hpanic
      rw [hparse] at hpanic
      cases hlocal : m.authority.isLocal <;> cases hcarries : m.selector.isSome || m.query.isSome <;>
        simp [Except.mapError,bind,Except.bind,hlocal,hcarries,pure,Except.pure,throw,throwThe,
          MonadExceptOf.throw] at hpanic

theorem route_returns : route inv ≠ .panics ↔ inv.mode = .never ∨ Sliceable inv.target := by
  unfold route
  split
  · rename_i hnever
    simp [hnever]
  · rename_i hmode
    cases hnamed : namesMurl inv.target with
    | none => simp [hmode,namesMurl_panics.mp hnamed]
    | some named =>
      have hslice : Sliceable inv.target := by
        by_contra hno
        rw [namesMurl_panics.mpr hno] at hnamed
        cases hnamed
      cases named with
      | false => simp [hslice]
      | true => cases inexpressibleFlag inv <;> simp [hslice]

theorem classifiers_return_iff (s : String) :
    (parseTarget s ≠ .error .panicked ↔ Sliceable s) ∧
      (parseLocalName s ≠ .error .panicked ↔ Sliceable s) ∧
      (localName s ≠ .error .panicked ↔ Sliceable s) ∧
      (∀ mode offline refresh opts,
        route ⟨mode,s,offline,refresh,opts⟩ ≠ .panics ↔ mode = .never ∨ Sliceable s) ∧
      Syntax.Steady s :=
  ⟨parseTarget_returns,parseNameWith_returns _ _,parseNameWith_returns _ _,
    fun _ _ _ _ => route_returns,Syntax.parse_steady s⟩

theorem accented_target_panics :
    parseTarget "murlé" = .error .panicked ∧ parseLocalName "murlé" = .error .panicked ∧
      localName "murlé" = .error .panicked ∧
      route { mode := .auto, target := "murlé" } = .panics := by
  have hcut : hasMurlScheme "murlé" = .error .panicked := by decide +kernel
  have hnone : namesMurl "murlé" = none := by
    rw [namesMurl,sliceTo_eq]
    decide +kernel
  refine ⟨?_,?_,?_,?_⟩
  · rw [parseTarget,hcut]
    rfl
  · rw [parseLocalName,parseNameWith,hcut]
    rfl
  · rw [localName,parseNameWith,hcut]
    rfl
  · simp [route,hnone]

end Classifiers

end MurlSystem

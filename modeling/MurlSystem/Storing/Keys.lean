import MurlSystem.Cli.Directory
import MurlSystem.Foundation.PathUnder

namespace MurlSystem

section Sanitized

variable {seg s text : String} {m : Murl}

theorem storeChar_segChar {b : UInt8} (h : isStoreChar b = true) :
    Syntax.isSegChar (Char.ofNat b.toNat) = true := by
  refine Syntax.unreserved_segChar ?_
  simp only [isStoreChar,isUnreserved,Bool.or_eq_true] at h ⊢
  rcases h with ((h | h) | h) | h
  · exact .inl (.inl (.inl (.inl h)))
  · exact .inl (.inl (.inr h))
  · exact .inl (.inr h)
  · exact .inl (.inl (.inl (.inr h)))

theorem sanitize_injective : Function.Injective sanitizeComponent := by
  intro x y h
  exact Syntax.percentEscape_injective (fun _ hb => storeChar_segChar hb) (congrArg String.toList h)

theorem sanitize_append (s t : String) :
    sanitizeComponent (s ++ t) = sanitizeComponent s ++ sanitizeComponent t := by
  rw [← String.toList_inj]
  simp [sanitizeComponent,percentEscape,List.flatMap_append]

theorem sanitize_unmarked (seg : String) : '@' ∉ (sanitizeComponent seg).toList :=
  fun hmem => (sanitize_chars seg '@' hmem).2.2.2 rfl

theorem parsed_solid (h : Murl.parse text = .ok m) : ∀ seg ∈ m.name, seg ≠ "." ∧ seg ≠ ".." := by
  obtain ⟨p,hp⟩ := Syntax.parse_ok.mp h
  intro seg hseg
  obtain ⟨raw,-,hread⟩ := Fallible.forall₂_mem hp.reads.name.flip seg hseg
  exact hread.solid

theorem sanitize_sole (hne : Text.bytes seg ≠ []) (hsolid : seg ≠ "." ∧ seg ≠ "..") :
    Path.Sole (sanitizeComponent seg).toList where
  nonempty := percentEscape_ne_nil hne
  solid := by
    have hdots : (sanitizeComponent ".").toList = ['.'] ∧ (sanitizeComponent "..").toList = ['.','.'] := by
      decide +kernel
    refine ⟨fun he => hsolid.1 ?_,fun he => hsolid.2 ?_⟩
    · exact sanitize_injective (String.toList_inj.mp (he.trans hdots.1.symm))
    · exact sanitize_injective (String.toList_inj.mp (he.trans hdots.2.symm))
  plain := fun c hc => ⟨(sanitize_chars seg c hc).1,(sanitize_chars seg c hc).2.1,
    (sanitize_chars seg c hc).2.2.1⟩

end Sanitized

section Leaves

variable {s t text : String} {m n : Murl} {v w : VersionTag}

def fileSuffix : String := ".murl.json"

def leafName (last : String) (v : VersionTag) : String :=
  let suffix := match v with
    | .latest => ""
    | .pinned _ => "@" ++ v.toString
  sanitizeComponent last ++ suffix ++ fileSuffix

theorem storeKey_leaf (m : Murl) : m.storeKey id =
    m.name.dropLast.map sanitizeComponent ++ [leafName (m.name.getLastD "") m.version] := by
  rw [Murl.storeKey,List.map_id]
  rfl

theorem leafName_toList (last : String) (v : VersionTag) : (leafName last v).toList =
    (sanitizeComponent last).toList ++ Syntax.marked '@' (Syntax.printedVersion v) ++
      fileSuffix.toList := by
  cases v <;> simp [leafName,Syntax.printedVersion,Syntax.marked]

theorem leafName_inj (h : leafName s v = leafName t w) :
    s = t ∧ Syntax.printedVersion v = Syntax.printedVersion w := by
  have hlist := congrArg String.toList h
  rw [leafName_toList,leafName_toList,List.append_cancel_right_eq] at hlist
  obtain ⟨hname,hversion⟩ := Syntax.marked_inj hlist (sanitize_unmarked s) (sanitize_unmarked t)
  exact ⟨sanitize_injective (String.toList_inj.mp hname),hversion⟩

theorem leafName_directory : leafName s v = sanitizeComponent t ↔
    v = .latest ∧ t = s ++ fileSuffix := by
  have hplain : sanitizeComponent fileSuffix = fileSuffix := by decide +kernel
  constructor
  · intro h
    have hlist := congrArg String.toList h
    rw [leafName_toList] at hlist
    cases v with
    | latest =>
      refine ⟨rfl,sanitize_injective ?_⟩
      rw [sanitize_append,hplain,← String.toList_inj,← hlist]
      simp [Syntax.printedVersion,Syntax.marked]
    | pinned parts =>
      have hmark : '@' ∈ (sanitizeComponent t).toList := by
        rw [← hlist]
        simp [Syntax.printedVersion,Syntax.marked]
      exact absurd hmark (sanitize_unmarked t)
  · rintro ⟨rfl,rfl⟩
    rw [sanitize_append,hplain]
    simp [leafName]

theorem parsed_last (h : Murl.parse text = .ok m) :
    m.name.dropLast ++ [m.name.getLastD ""] = m.name := by
  obtain ⟨p,hp⟩ := Syntax.parse_ok.mp h
  obtain ⟨init,last,hname⟩ := List.eq_nil_or_concat m.name |>.resolve_left
    (Syntax.name_ne_nil hp.rule hp.reads)
  rw [hname]
  simp

theorem leaf_sole (h : Murl.parse text = .ok m) :
    Path.Sole (leafName (m.name.getLastD "") m.version).toList := by
  have hchars : ∀ c ∈ (leafName (m.name.getLastD "") m.version).toList,
      c ≠ '/' ∧ c ≠ '\\' ∧ c ≠ ':' := by
    intro c hc
    rw [leafName_toList] at hc
    rcases List.mem_append.mp hc with hc | hc
    · rcases List.mem_append.mp hc with hc | hc
      · obtain ⟨h1,h2,h3,-⟩ := sanitize_chars _ c hc
        exact ⟨h1,h2,h3⟩
      · cases hv : Syntax.printedVersion m.version with
        | none =>
          rw [hv] at hc
          cases hc
        | some w =>
          rw [hv] at hc
          rcases List.mem_cons.mp hc with rfl | hc
          · decide
          · have hw := parsed_version_chars h w (Option.mem_def.mpr hv) c hc
            refine ⟨?_,?_,?_⟩ <;>
            · rintro rfl
              exact absurd hw (by decide)
    · have hall : fileSuffix.toList.all
          (fun c => c != '/' && c != '\\' && c != ':') = true := by decide +kernel
      have hone := List.all_eq_true.mp hall c hc
      simpa [and_assoc] using hone
  have hlong : 2 < (leafName (m.name.getLastD "") m.version).toList.length := by
    have hsuffix : fileSuffix.toList.length = 10 := rfl
    rw [leafName_toList,List.length_append,hsuffix]
    omega
  refine ⟨?_,⟨?_,?_⟩,hchars⟩ <;>
  · intro he
    rw [he] at hlong
    exact absurd hlong (by decide)

theorem parsed_soles (h : Murl.parse text = .ok m) :
    ∀ comp ∈ m.storeKey id, Path.Sole comp.toList := by
  rw [storeKey_leaf]
  intro comp hcomp
  rcases List.mem_append.mp hcomp with hcomp | hcomp
  · obtain ⟨seg,hseg,rfl⟩ := List.mem_map.mp hcomp
    have hmem := List.mem_of_mem_dropLast hseg
    exact sanitize_sole (parsed_segments h seg hmem) (parsed_solid h seg hmem)
  · rw [List.mem_singleton.mp hcomp]
    exact leaf_sole h

theorem storeKey_length (h : Murl.parse text = .ok m) (fold : String → String) :
    (m.storeKey fold).length = m.name.length := by
  have hlast := congrArg List.length (parsed_last h)
  rw [Murl.storeKey,List.length_map,← hlast]
  simp

end Leaves

end MurlSystem

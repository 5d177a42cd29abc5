import MurlSystem.Storing.Keys

namespace MurlSystem

section Contained

variable {store : LocalStore} {s t : String} {m n : Murl}

def Contained (store : LocalStore) (m : Murl) : Prop :=
  ∃ names : List (List Char), names.length = m.name.length ∧ (∀ x ∈ names, Path.Sole x) ∧
    Path.components store.os (store.manifestPath m).toList =
      Path.components store.os store.root.toList ++
        Path.impliedRoot store.os store.root.toList ++ names.map .normal

theorem manifestPath_components (hwhole : Path.Whole store.os store.root.toList)
    (h : Murl.parse s = .ok m) :
    Path.components store.os (store.manifestPath m).toList =
      Path.components store.os store.root.toList ++
        Path.impliedRoot store.os store.root.toList ++
          ((m.storeKey id).map String.toList).map .normal := by
  rw [manifestPath_key,String.toList_ofList,← Path.foldl_push_whole hwhole,List.foldl_map]
  · simp [Murl.storeKey]
  · intro x hx
    obtain ⟨comp,hcomp,rfl⟩ := List.mem_map.mp hx
    exact parsed_soles h comp hcomp

theorem storeKey_same (hm : Murl.parse s = .ok m) (hn : Murl.parse t = .ok n)
    (hauthority : m.authority = n.authority) (h : m.storeKey id = n.storeKey id) :
    m.name = n.name ∧ m.version = n.version := by
  rw [storeKey_leaf,storeKey_leaf] at h
  obtain ⟨hdirs,hleaf⟩ := List.append_singleton_inj.mp h
  obtain ⟨hlast,hversion⟩ := leafName_inj hleaf
  have hname : m.name = n.name := by
    rw [← parsed_last hm,← parsed_last hn,hlast,sanitize_injective.list_map hdirs]
  have hid : m.identity = n.identity := by
    rw [← String.toList_inj,Syntax.identity_parts,Syntax.identity_parts,hauthority,hname,hversion]
  exact (Syntax.identity_same hm hn hid).2

theorem manifestPath_same (hwhole : Path.Whole store.os store.root.toList)
    (hm : Murl.parse s = .ok m) (hn : Murl.parse t = .ok n)
    (hauthority : m.authority = n.authority)
    (h : Path.components store.os (store.manifestPath m).toList =
      Path.components store.os (store.manifestPath n).toList) :
    m.name = n.name ∧ m.version = n.version := by
  rw [manifestPath_components hwhole hm,manifestPath_components hwhole hn,
    List.append_cancel_left_eq] at h
  have hnormal : Function.Injective Path.Component.normal := fun _ _ he => Path.Component.normal.inj he
  have htext : Function.Injective String.toList := fun _ _ he => String.toList_inj.mp he
  exact storeKey_same hm hn hauthority (htext.list_map (hnormal.list_map h))

end Contained

section Served

variable {s t : String} {m n : Murl} {host : String} {port : Option Nat}

def urlScheme (m : Murl) : List Char :=
  if m.authority.isLoopback then "http".toList else "https".toList

def wellKnown : String := "/.well-known/murl"

theorem wellKnownUrl_toList (h : m.authority = .remote host port) : ∃ url,
    wellKnownUrl m = some url ∧ url.toList = urlScheme m ++ ("://".toList ++
      (m.authority.toString.toList ++ (wellKnown.toList ++ (Syntax.slashed m.name ++
        Syntax.marked '@' (Syntax.printedVersion m.version))))) ++ fileSuffix.toList := by
  rw [wellKnownUrl,h]
  refine ⟨_,rfl,?_⟩
  have hscheme : urlScheme m =
      (if (Authority.remote host port).isLoopback then "http" else "https").toList := by
    rw [urlScheme,h]
    split <;> rfl
  rw [hscheme]
  cases port <;> cases m.version <;>
    simp [Authority.toString,Syntax.slashed_toList,Syntax.slashed,Syntax.printedVersion,
      Syntax.marked,wellKnown,fileSuffix,toString]

theorem wellKnownUrl_congr (hauthority : m.authority = n.authority) (hname : m.name = n.name)
    (hversion : m.version = n.version) : wellKnownUrl m = wellKnownUrl n := by
  rw [wellKnownUrl,wellKnownUrl,hauthority,hname,hversion]

theorem urlScheme_apart {x y : List Char}
    (h : urlScheme m ++ ("://".toList ++ x) = urlScheme n ++ ("://".toList ++ y)) : x = y := by
  unfold urlScheme at h
  split at h <;> split at h <;> simp at h <;> exact h

theorem wellKnownUrl_same (hm : Murl.parse s = .ok m) (hn : Murl.parse t = .ok n)
    (hremote : m.authority ≠ .local) (hremote' : n.authority ≠ .local) :
    wellKnownUrl m = wellKnownUrl n ↔ m.identity = n.identity := by
  have remote : ∀ k : Murl, k.authority ≠ .local → ∃ host port, k.authority = .remote host port := by
    intro k hk
    cases ha : k.authority with
    | «local» => exact absurd ha hk
    | remote host port => exact ⟨host,port,rfl⟩
  constructor
  · intro h
    obtain ⟨host,port,ha⟩ := remote m hremote
    obtain ⟨host',port',ha'⟩ := remote n hremote'
    obtain ⟨url,hurl,hlist⟩ := wellKnownUrl_toList ha
    obtain ⟨url',hurl',hlist'⟩ := wellKnownUrl_toList ha'
    obtain rfl : url = url' := Option.some.inj (hurl.symm.trans (h.trans hurl'))
    have hrest := urlScheme_apart (List.append_cancel_right (hlist.symm.trans hlist'))
    have hslash : ∀ k : Murl, wellKnown.toList ++ (Syntax.slashed k.name ++
        Syntax.marked '@' (Syntax.printedVersion k.version)) = Syntax.marked '/'
          (some ("/.well-known/murl".toList.tail ++ (Syntax.slashed k.name ++
            Syntax.marked '@' (Syntax.printedVersion k.version)))) := fun _ => rfl
    rw [hslash m,hslash n] at hrest
    obtain ⟨hauthority,htail⟩ := Syntax.marked_inj hrest
      (Syntax.parsed_authority_free hm (by decide) (by decide))
      (Syntax.parsed_authority_free hn (by decide) (by decide))
    rw [← String.toList_inj,Syntax.identity_parts,Syntax.identity_parts,hauthority,
      List.append_assoc,List.append_assoc,List.append_cancel_left (Option.some.inj htail)]
  · intro h
    obtain ⟨hauthority,hname,hversion⟩ := Syntax.identity_same hm hn h
    exact wellKnownUrl_congr hauthority hname hversion

end Served

theorem store_paths_contained :
    (∀ store : LocalStore, Path.Whole store.os store.root.toList →
      (∀ s m, Murl.parse s = .ok m → m.authority = .local → Contained store m) ∧
      ∀ s t m n, Murl.parse s = .ok m → Murl.parse t = .ok n → m.authority = .local →
        n.authority = .local →
          Path.components store.os (store.manifestPath m).toList =
            Path.components store.os (store.manifestPath n).toList →
              m.name = n.name ∧ m.version = n.version) ∧
    ∀ s t m n, Murl.parse s = .ok m → Murl.parse t = .ok n → m.authority ≠ .local →
      n.authority ≠ .local → (wellKnownUrl m = wellKnownUrl n ↔ m.identity = n.identity) := by
  refine ⟨fun store hwhole => ⟨?_,?_⟩,
    fun s t m n hm hn hremote hremote' => wellKnownUrl_same hm hn hremote hremote'⟩
  · intro s m hm _
    refine ⟨(m.storeKey id).map String.toList,?_,?_,manifestPath_components hwhole hm⟩
    · rw [List.length_map,storeKey_length hm]
    · intro x hx
      obtain ⟨comp,hcomp,rfl⟩ := List.mem_map.mp hx
      exact parsed_soles hm comp hcomp
  · intro s t m n hm hn hlocal hlocal' h
    exact manifestPath_same hwhole hm hn (hlocal.trans hlocal'.symm) h

section Samples

def teamStore : LocalStore := ⟨.posix,"/data/names",fun _ => .notFound⟩

def teamMurl : Murl := ⟨.local,["team","p.1"],.pinned [1,4],none,none⟩

def siteMurl : Murl := ⟨.remote "a.com" none,["p"],.latest,none,none⟩

theorem team_stored : Contained teamStore teamMurl ∧
    (∃ m n, Murl.parse "murl://local/team/p.1@1.4" = .ok m ∧
      Murl.parse "murl://LOCAL/team/p%2e1@1.4" = .ok n ∧ m.name = n.name ∧ m.version = n.version) ∧
    (wellKnownUrl siteMurl = wellKnownUrl siteMurl ↔ siteMurl.identity = siteMurl.identity) := by
  obtain ⟨hstore,hurl⟩ := store_paths_contained
  obtain ⟨hcontained,hsame⟩ := hstore teamStore (Path.whole_posix _)
  have hplain : Murl.parse "murl://local/team/p.1@1.4" = .ok teamMurl := by decide +kernel
  have hspelled : Murl.parse "murl://LOCAL/team/p%2e1@1.4" = .ok teamMurl := by decide +kernel
  have hsite : Murl.parse "murl://a.com/p" = .ok siteMurl := by decide +kernel
  have hupper : Murl.parse "murl://A.COM/p" = .ok siteMurl := by decide +kernel
  refine ⟨hcontained _ _ hplain rfl,⟨teamMurl,teamMurl,hplain,hspelled,?_⟩,?_⟩
  · exact hsame _ _ _ _ hplain hspelled rfl rfl rfl
  · exact hurl _ _ _ _ hsite hupper (by decide) (by decide)

def barredStore : LocalStore := ⟨.windows,"\\\\names",fun _ => .notFound⟩

theorem barred_root_escaped : ¬∀ (store : LocalStore) (s : String) (m : Murl),
    Murl.parse s = .ok m → m.authority = .local →
      Path.components store.os store.root.toList <+:
        Path.components store.os (store.manifestPath m).toList := by
  intro h
  have hparse : Murl.parse "murl://local/team/p.1@1.4" = .ok teamMurl := by decide +kernel
  have hunder := h barredStore _ _ hparse rfl
  revert hunder
  decide +kernel

end Samples

end MurlSystem

import MurlSystem.Storing.Independent

namespace MurlSystem

section Runs

def NameStore.perform (store : NameStore) (files : Files) : NameStep → Except Error Files
  | .add murl bytes =>
    match store.add murl bytes files with
    | (.ok _,files) => .ok files
    | (.error e,_) => .error e
  | .remove murl =>
    match store.remove murl files with
    | (.ok _,files) => .ok files
    | (.error e,_) => .error e

def NameStore.performAll (store : NameStore) (steps : List NameStep) (files : Files) :
    Except Error Files :=
  steps.foldlM store.perform files

def NameStep.over (held : List Murl) : NameStep → List Murl
  | .add murl _ => held.filter (fun n => n.identity != murl.identity) ++ [murl]
  | .remove murl => held.filter fun n => n.identity != murl.identity

def currentNames (steps : List NameStep) : List Murl := steps.foldl NameStep.over []

def NameStore.top (store : NameStore) : List Path.Component :=
  Path.components store.os store.root.toList ++ Path.impliedRoot store.os store.root.toList

structure NameStore.Empty (store : NameStore) (files : Files) : Prop where
  grounded : FileTree.Grounded files
  directory : FileTree.stored files (Path.components store.os store.root.toList) = none
  bare : ∀ k, store.top <+: k → k ≠ store.top → files k = none

end Runs

section Keys

variable {store : NameStore} {m n : Murl} {files files' : Files} {b : Bytes}

theorem key_under (hwhole : Path.Whole store.os store.root.toList) (hm : LocalName m) :
    store.key m = store.top ++ ((m.storeKey id).map String.toList).map .normal := by
  obtain ⟨s,hs⟩ := hm.parsed
  exact key_eq hwhole hs

theorem key_below (hwhole : Path.Whole store.os store.root.toList) (hm : LocalName m) :
    store.top <+: store.key m ∧ store.key m ≠ store.top := by
  rw [key_under hwhole hm]
  refine ⟨List.prefix_append _ _,fun h => storeKey_ne_nil m id ?_⟩
  simpa using h

theorem key_identity (hwhole : Path.Whole store.os store.root.toList) (hm : LocalName m)
    (hn : LocalName n) : store.key m = store.key n ↔ m.identity = n.identity := by
  obtain ⟨s,hs⟩ := hm.parsed
  obtain ⟨t,ht⟩ := hn.parsed
  have hauthority := hm.local.trans hn.local.symm
  constructor
  · intro h
    obtain ⟨hname,hversion⟩ := @manifestPath_same (store.over fun _ => none) s t m n hwhole hs ht
      hauthority h
    exact Syntax.identity_congr (by rw [hauthority,hname,hversion])
  · intro h
    obtain ⟨-,hname,hversion⟩ := Syntax.identity_same hs ht h
    rw [key_under hwhole hm,key_under hwhole hn,storeKey_leaf,storeKey_leaf,hname,hversion]

theorem perform_add (h : store.perform files (.add m b) = .ok files') :
    FileTree.Opens store.medium.toVolume files (store.key m) ∧
      files' = (FileTree.install store.medium.toVolume (store.key m) b files).2 := by
  rw [NameStore.perform] at h
  cases hadd : store.add m b files with
  | mk result after =>
    rw [hadd] at h
    cases result with
    | error e => cases h
    | ok path =>
      obtain rfl := Except.ok.inj h
      obtain ⟨hok,-⟩ := add_succeeds.mp (congrArg Prod.fst hadd)
      refine ⟨?_,(congrArg Prod.snd hadd).symm.trans add_snd⟩
      by_contra hshut
      exact (FileTree.install_stuck hshut).1 hok

structure Removed (k : List Path.Component) (files files' : Files) : Prop where
  grounded : FileTree.Grounded files'
  gone : ∀ b, files' k ≠ some (.file b)
  less : files' k ≠ none → files' k = files k
  other : ∀ q ≠ k, files' q = files q

theorem perform_remove (hg : FileTree.Grounded files)
    (h : store.perform files (.remove m) = .ok files') : Removed (store.key m) files files' := by
  have htree := @FileTree.removeFile_tree _ _ _ store.medium (store.key m) files
  rw [NameStore.perform] at h
  cases hremove : store.remove m files with
  | mk result after =>
    rw [hremove] at h
    cases result with
    | error e => cases h
    | ok existed =>
      obtain rfl := Except.ok.inj h
      have hafter : after = (FileTree.removeFile store.medium (store.key m) files).2 :=
        (congrArg Prod.snd hremove).symm.trans remove_snd
      have hground : FileTree.Grounded after := hafter ▸ FileTree.removeFile_grounded hg
      have hresult := remove_fst.symm.trans (congrArg Prod.fst hremove)
      rw [← hafter] at htree
      rcases htree with rfl | ⟨-,rfl⟩
      · refine ⟨hground,fun b hb => ?_,fun _ => rfl,fun _ _ => rfl⟩
        have hopen := @FileTree.openPath_some _ _ _ _ store.medium.crossing _ hg hb
        rw [FileTree.removeFile,hopen] at hresult hafter
        dsimp only at hresult hafter
        cases hkeeps : store.medium.keeps (store.key m) with
        | some why =>
          rw [hkeeps] at hresult
          cases hresult
        | none =>
          rw [hkeeps] at hafter
          have hgone : after (store.key m) = none :=
            (congrFun hafter (store.key m)).trans (Function.update_self _ _ _)
          rw [hb] at hgone
          cases hgone
      · refine ⟨hground,fun b hb => ?_,fun hne => ?_,fun q hq => Function.update_of_ne hq _ _⟩
        · rw [Function.update_self] at hb
          cases hb
        · exact absurd (Function.update_self (store.key m) _ files) hne

end Keys

section Invariant

structure Current (store : NameStore) (steps : List NameStep) (held : List Murl) (files : Files) :
    Prop where
  grounded : FileTree.Grounded files
  directory : FileTree.stored files (Path.components store.os store.root.toList) = none
  names : ∀ m ∈ held, LocalName m
  apart : (held.map Murl.identity).Nodup
  kept : ∀ m ∈ held, ∃ b, files (store.key m) = some (.file b)
  known : ∀ k b, store.top <+: k → k ≠ store.top → files k = some (.file b) →
    ∃ m ∈ held, store.key m = k
  traced : ∀ k, store.top <+: k → k ≠ store.top → files k ≠ none →
    ∃ step ∈ steps, k <+: store.key step.murl

variable {store : NameStore} {steps : List NameStep} {held : List Murl} {files files' : Files}
  {m n : Murl} {b : Bytes}

theorem Current.start (h : store.Empty files) : Current store [] [] files where
  grounded := h.grounded
  directory := h.directory
  names := by simp
  apart := by simp
  kept := by simp
  known := by
    intro k b htop hne hk
    rw [h.bare k htop hne] at hk
    cases hk
  traced := fun k htop hne hk => absurd (h.bare k htop hne) hk

theorem over_apart (h : (held.map Murl.identity).Nodup) :
    ((held.filter fun n => n.identity != m.identity).map Murl.identity).Nodup ∧
      m.identity ∉ (held.filter fun n => n.identity != m.identity).map Murl.identity := by
  refine ⟨h.sublist (List.filter_sublist.map _),?_⟩
  intro hmem
  obtain ⟨n,hn,he⟩ := List.mem_map.mp hmem
  exact bne_iff_ne.mp (List.mem_filter.mp hn).2 he

theorem mem_others : n ∈ held.filter (fun n => n.identity != m.identity) ↔
    n ∈ held ∧ n.identity ≠ m.identity := by
  rw [List.mem_filter,bne_iff_ne]

theorem stored_none {k : List Path.Component} :
    FileTree.stored files k = none ↔ ∀ b, files k ≠ some (.file b) := by
  unfold FileTree.stored
  split <;> simp_all

theorem root_above (hwhole : Path.Whole store.os store.root.toList) (hm : LocalName m) :
    Path.components store.os store.root.toList ∈ FileTree.ancestors (store.key m) := by
  obtain ⟨htop,hne⟩ := key_below hwhole hm
  have hroot : Path.components store.os store.root.toList <+: store.top := List.prefix_append _ _
  refine FileTree.mem_ancestors.mpr ⟨hroot.trans htop,?_⟩
  intro he
  exact hne (htop.eq_of_length_le (by rw [← he]; exact hroot.length_le)).symm

theorem Current.add (hwhole : Path.Whole store.os store.root.toList)
    (h : Current store steps held files) (hm : LocalName m)
    (hstep : store.perform files (.add m b) = .ok files') :
    Current store (steps ++ [.add m b]) (NameStep.over held (.add m b)) files' := by
  obtain ⟨hopens,rfl⟩ := perform_add hstep
  obtain ⟨-,hwritten,hgrown,hsame,hdirs⟩ := FileTree.install_opens (b := b) hopens
  obtain ⟨hapart,hfresh⟩ := @over_apart held m h.apart
  have hother : ∀ n ∈ held, n.identity ≠ m.identity → store.key n ≠ store.key m :=
    fun n hn hne he => hne ((key_identity hwhole (h.names n hn) hm).mp he)
  refine ⟨FileTree.install_grounded h.grounded,?_,?_,?_,?_,?_,?_⟩
  · rw [stored_none,hdirs _ (root_above hwhole hm)]
    simp
  · rw [NameStep.over,List.forall_mem_append]
    exact ⟨fun n hn => h.names n (mem_others.mp hn).1,List.forall_mem_singleton.mpr hm⟩
  · rw [NameStep.over,List.map_append,List.nodup_append]
    refine ⟨hapart,List.nodup_singleton _,?_⟩
    rintro s hs t ht rfl
    rw [List.map_singleton,List.mem_singleton] at ht
    exact hfresh (ht ▸ hs)
  · rw [NameStep.over,List.forall_mem_append]
    refine ⟨?_,List.forall_mem_singleton.mpr ⟨_,hwritten⟩⟩
    intro n hn
    obtain ⟨hn,hne⟩ := mem_others.mp hn
    obtain ⟨c,hc⟩ := h.kept n hn
    rcases hgrown _ (hother n hn hne) with hstays | ⟨hnone,-⟩
    · exact ⟨c,hstays.trans hc⟩
    · rw [hc] at hnone
      cases hnone
  · intro k c htop hne hk
    by_cases hkey : k = store.key m
    · exact ⟨m,List.mem_append_right _ (List.mem_singleton_self m),hkey.symm⟩
    · rcases hgrown k hkey with hstays | ⟨-,hdir⟩
      · obtain ⟨n,hn,rfl⟩ := h.known k c htop hne (hstays.symm.trans hk)
        refine ⟨n,List.mem_append_left _ (mem_others.mpr ⟨hn,fun he => ?_⟩),rfl⟩
        exact hkey ((key_identity hwhole (h.names n hn) hm).mpr he)
      · rw [hdir] at hk
        cases hk
  · intro k htop hne hk
    by_cases hold : files k = none
    · refine ⟨_,List.mem_append_right _ (List.mem_singleton_self _),?_⟩
      change k <+: store.key m
      by_cases hkey : k = store.key m
      · rw [hkey]
      · by_cases hanc : k ∈ FileTree.ancestors (store.key m)
        · exact (FileTree.mem_ancestors.mp hanc).1
        · exact absurd ((hsame k hkey hanc).trans hold) hk
    · obtain ⟨step,hmem,hunder⟩ := h.traced k htop hne hold
      exact ⟨step,List.mem_append_left _ hmem,hunder⟩

theorem Current.remove (hwhole : Path.Whole store.os store.root.toList)
    (h : Current store steps held files) (hm : LocalName m)
    (hstep : store.perform files (.remove m) = .ok files') :
    Current store (steps ++ [.remove m]) (NameStep.over held (.remove m)) files' := by
  have hremoved := perform_remove h.grounded hstep
  obtain ⟨hapart,-⟩ := @over_apart held m h.apart
  have hroot : Path.components store.os store.root.toList ≠ store.key m := by
    intro he
    exact FileTree.not_mem_ancestors (he ▸ root_above hwhole hm)
  refine ⟨hremoved.grounded,?_,fun n hn => h.names n (mem_others.mp hn).1,hapart,?_,?_,?_⟩
  · rw [stored_none,hremoved.other _ hroot]
    exact stored_none.mp h.directory
  · intro n hn
    obtain ⟨hn,hne⟩ := mem_others.mp hn
    rw [hremoved.other _ fun he => hne ((key_identity hwhole (h.names n hn) hm).mp he)]
    exact h.kept n hn
  · intro k b htop hne hk
    have hkey : k ≠ store.key m := by
      rintro rfl
      exact hremoved.gone b hk
    rw [hremoved.other k hkey] at hk
    obtain ⟨n,hn,rfl⟩ := h.known k b htop hne hk
    exact ⟨n,mem_others.mpr ⟨hn,fun he => hkey ((key_identity hwhole (h.names n hn) hm).mpr he)⟩,rfl⟩
  · intro k htop hne hk
    have hfiles : files k ≠ none := by
      by_cases hkey : k = store.key m
      · subst hkey
        rw [← hremoved.less hk]
        exact hk
      · rwa [← hremoved.other k hkey]
    obtain ⟨step,hmem,hunder⟩ := h.traced k htop hne hfiles
    exact ⟨step,List.mem_append_left _ hmem,hunder⟩

theorem Current.run (hwhole : Path.Whole store.os store.root.toList) (more : List NameStep)
    (h : Current store steps held files) (hmore : ∀ step ∈ more, LocalName step.murl)
    (hrun : store.performAll more files = .ok files') :
    Current store (steps ++ more) (more.foldl NameStep.over held) files' := by
  induction more generalizing steps held files with
  | nil =>
    obtain rfl := Except.ok.inj hrun
    rwa [List.append_nil]
  | cons step rest ih =>
    obtain ⟨hstep,hrest⟩ := List.forall_mem_cons.mp hmore
    rw [NameStore.performAll,List.foldlM_cons,Fallible.bind_ok] at hrun
    obtain ⟨mid,hmid,hrun⟩ := hrun
    have hnext : Current store (steps ++ [step]) (NameStep.over held step) mid := by
      cases step with
      | add m b => exact h.add hwhole hstep hmid
      | remove m => exact h.remove hwhole hstep hmid
    have hall := ih hnext hrest hrun
    rwa [List.append_assoc] at hall

end Invariant

end MurlSystem

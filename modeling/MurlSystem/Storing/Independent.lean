import MurlSystem.Foundation.FileAccess
import MurlSystem.Storing.Contained

namespace MurlSystem

abbrev Files : Type := FileTree.Tree Path.Component Bytes

abbrev Medium : Type := FileTree.Medium Path.Component Bytes

structure NameStore where
  os : Path.Platform
  root : String
  medium : Medium

section Operations

def NameStore.over (store : NameStore) (files : Files) : LocalStore where
  os := store.os
  root := store.root
  files path :=
    match FileTree.readFile store.medium (Path.components store.os path.toList) files with
    | .ok b => .bytes b
    | .error .notFound => .notFound
    | .error (.other why) => .failed why

def NameStore.path (store : NameStore) (murl : Murl) : String :=
  (store.over fun _ => none).manifestPath murl

def NameStore.key (store : NameStore) (murl : Murl) : List Path.Component :=
  Path.components store.os (store.path murl).toList

def NameStore.load (store : NameStore) (murl : Murl) (files : Files) :
    Except Error (Bytes × String) :=
  (store.over files).load murl

def NameStore.add (store : NameStore) (murl : Murl) (bytes : Bytes) (files : Files) :
    Except Error String × Files :=
  match FileTree.install store.medium.toVolume (store.key murl) bytes files with
  | (.ok _,files) => (.ok (store.path murl),files)
  | (.error why,files) => (.error (.io why),files)

def NameStore.remove (store : NameStore) (murl : Murl) (files : Files) :
    Except Error Bool × Files :=
  match FileTree.removeFile store.medium (store.key murl) files with
  | (.ok _,files) => (.ok true,files)
  | (.error .notFound,files) => (.ok false,files)
  | (.error (.other why),files) => (.error (.io why),files)

inductive NameStep where
  | add (murl : Murl) (bytes : Bytes)
  | remove (murl : Murl)

def NameStep.murl : NameStep → Murl
  | .add murl _ => murl
  | .remove murl => murl

def NameStore.step (store : NameStore) (files : Files) : NameStep → Files
  | .add murl bytes => (store.add murl bytes files).2
  | .remove murl => (store.remove murl files).2

def NameStore.run (store : NameStore) (steps : List NameStep) (files : Files) : Files :=
  steps.foldl store.step files

end Operations

section Undisturbed

variable {store : NameStore} {files files' : Files} {m n : Murl} {bytes : Bytes}

structure Undisturbed (store : NameStore) (n : Murl) (files files' : Files) : Prop where
  read : store.load n files' = store.load n files
  added : ∀ b path, (store.add n b files).1 = .ok path → (store.add n b files').1 = .ok path
  removed : (store.remove n files').1 = (store.remove n files).1

def Independent (store : NameStore) (m n : Murl) : Prop :=
  ∀ files, FileTree.Grounded files → ∀ step : NameStep, step.murl = m →
    Undisturbed store n files (store.step files step)

structure LocalName (m : Murl) : Prop where
  parsed : ∃ s, Murl.parse s = .ok m
  «local» : m.authority = .local

theorem add_fst : (store.add m bytes files).1 =
    match (FileTree.install store.medium.toVolume (store.key m) bytes files).1 with
    | .ok _ => .ok (store.path m)
    | .error why => .error (.io why) := by
  unfold NameStore.add
  split <;> simp [*]

theorem add_snd : (store.add m bytes files).2 =
    (FileTree.install store.medium.toVolume (store.key m) bytes files).2 := by
  unfold NameStore.add
  split <;> simp [*]

theorem remove_snd : (store.remove m files).2 =
    (FileTree.removeFile store.medium (store.key m) files).2 := by
  unfold NameStore.remove
  split <;> simp [*]

theorem add_succeeds {path : String} : (store.add m bytes files).1 = .ok path ↔
    (FileTree.install store.medium.toVolume (store.key m) bytes files).1 = .ok () ∧
      store.path m = path := by
  rw [add_fst]
  split <;> simp [*]

theorem over_path : (store.over files).manifestPath m = store.path m := rfl

theorem over_files : (store.over files).files (store.path m) =
    match FileTree.readFile store.medium (store.key m) files with
    | .ok b => .bytes b
    | .error .notFound => .notFound
    | .error (.other why) => .failed why := rfl

theorem remove_fst : (store.remove m files).1 =
    match (FileTree.removeFile store.medium (store.key m) files).1 with
    | .ok _ => .ok true
    | .error .notFound => .ok false
    | .error (.other why) => .error (.io why) := by
  unfold NameStore.remove
  split <;> simp [*]

theorem undisturbed (h : FileTree.Grounded files) (h' : FileTree.Grounded files')
    (hu : FileTree.Untouched files files' (store.key n)) : Undisturbed store n files files' where
  read := by
    rw [NameStore.load,NameStore.load,LocalStore.load,LocalStore.load]
    simp only [over_path,over_files,hu.readFile h h']
  added := by
    intro b path hadd
    rw [add_succeeds] at hadd ⊢
    exact ⟨hu.install hadd.1,hadd.2⟩
  removed := by
    rw [remove_fst,remove_fst,hu.removeFile h h']

theorem step_grounded (h : FileTree.Grounded files) (step : NameStep) :
    FileTree.Grounded (store.step files step) := by
  cases step with
  | add m b =>
    rw [NameStore.step,add_snd]
    exact FileTree.install_grounded h
  | remove m =>
    rw [NameStore.step,remove_snd]
    exact FileTree.removeFile_grounded h

theorem step_untouched {step : NameStep} (hdown : ¬store.key step.murl <+: store.key n)
    (hup : ¬store.key n <+: store.key step.murl) :
    FileTree.Untouched files (store.step files step) (store.key n) := by
  cases step with
  | add m b =>
    rw [NameStore.step,add_snd]
    exact FileTree.install_untouched hdown hup
  | remove m =>
    rw [NameStore.step,remove_snd]
    exact FileTree.removeFile_untouched hdown

theorem run_undisturbed {steps : List NameStep} (h : FileTree.Grounded files)
    (hsteps : ∀ step ∈ steps, ¬store.key step.murl <+: store.key n ∧
      ¬store.key n <+: store.key step.murl) : Undisturbed store n files (store.run steps files) := by
  have hrun : ∀ (steps : List NameStep) (mid : Files), FileTree.Grounded mid →
      FileTree.Untouched files mid (store.key n) → (∀ step ∈ steps,
        ¬store.key step.murl <+: store.key n ∧ ¬store.key n <+: store.key step.murl) →
      FileTree.Grounded (store.run steps mid) ∧
        FileTree.Untouched files (store.run steps mid) (store.key n) := by
    intro steps
    induction steps with
    | nil => exact fun mid hmid hu _ => ⟨hmid,hu⟩
    | cons step rest ih =>
      intro mid hmid hu hall
      obtain ⟨hdown,hup⟩ := hall step (by simp)
      exact ih _ (step_grounded hmid step) (hu.trans (step_untouched hdown hup))
        fun s hs => hall s (by simp [hs])
  obtain ⟨hground,hu⟩ := hrun steps files h ⟨rfl,fun x _ => .refl files x⟩ hsteps
  exact undisturbed h hground hu

end Undisturbed

section Below

variable {store : NameStore} {s t : String} {m n : Murl}

def Below (m n : Murl) : Prop :=
  m.version = .latest ∧ ∃ dirs last rest, rest ≠ [] ∧ m.name = dirs ++ [last] ∧
    n.name = dirs ++ (last ++ fileSuffix) :: rest

def Separate (m n : Murl) : Prop := ¬Below m n ∧ ¬Below n m

theorem key_eq (hwhole : Path.Whole store.os store.root.toList) (h : Murl.parse s = .ok m) :
    store.key m = Path.components store.os store.root.toList ++
      Path.impliedRoot store.os store.root.toList ++
        ((m.storeKey id).map String.toList).map .normal :=
  @manifestPath_components (store.over fun _ => none) s m hwhole h

theorem storeKey_below (hm : Murl.parse s = .ok m) (hn : Murl.parse t = .ok n) :
    m.storeKey id <+: n.storeKey id ∧ m.storeKey id ≠ n.storeKey id ↔ Below m n := by
  have hlast := parsed_last hm
  have hlast' := parsed_last hn
  rw [storeKey_leaf n,List.prefix_concat_iff,← storeKey_leaf n]
  constructor
  · rintro ⟨hsame | hunder,hne⟩
    · exact absurd hsame hne
    · rw [storeKey_leaf] at hunder
      obtain ⟨tail,htail⟩ := hunder
      rw [List.append_assoc,List.singleton_append,eq_comm,List.map_eq_append_iff] at htail
      obtain ⟨dirs,rest,hsplit,hdirs,hrest⟩ := htail
      obtain ⟨seg,rest,rfl,hseg,-⟩ := List.map_eq_cons_iff.mp hrest
      obtain ⟨hversion,hname⟩ := leafName_directory.mp hseg.symm
      rw [sanitize_injective.list_map hdirs] at hsplit
      refine ⟨hversion,m.name.dropLast,m.name.getLastD "",rest ++ [n.name.getLastD ""],by simp,
        hlast.symm,?_⟩
      refine hlast'.symm.trans ?_
      rw [hsplit,hname,List.append_assoc,List.cons_append]
  · rintro ⟨hversion,dirs,last,rest,hrest,hname,hname'⟩
    obtain ⟨init,final,rfl⟩ := List.eq_nil_or_concat rest |>.resolve_left hrest
    have hdirs : n.name.dropLast = dirs ++ (last ++ fileSuffix) :: init := by
      rw [hname',List.concat_eq_append,← List.cons_append,← List.append_assoc,
        List.dropLast_concat]
    have hunder : m.storeKey id <+: n.name.dropLast.map sanitizeComponent := by
      rw [storeKey_leaf,hdirs,hname,List.dropLast_concat]
      have hleaf : leafName last m.version = sanitizeComponent (last ++ fileSuffix) :=
        leafName_directory.mpr ⟨hversion,rfl⟩
      simp [hleaf]
    refine ⟨.inr hunder,?_⟩
    intro hsame
    have hlen := hunder.length_le
    rw [hsame,storeKey_leaf,List.length_append,List.length_singleton] at hlen
    omega

theorem ancestor_below (hwhole : Path.Whole store.os store.root.toList)
    (hm : Murl.parse s = .ok m) (hn : Murl.parse t = .ok n) :
    store.key m ∈ FileTree.ancestors (store.key n) ↔ Below m n := by
  have hnormal : Function.Injective Path.Component.normal := fun _ _ he => Path.Component.normal.inj he
  have htext : Function.Injective String.toList := fun _ _ he => String.toList_inj.mp he
  rw [FileTree.mem_ancestors,key_eq hwhole hm,key_eq hwhole hn,List.prefix_append_right_inj,
    ne_eq,List.append_right_inj,List.prefix_map_iff_of_injective hnormal,
    List.prefix_map_iff_of_injective htext,hnormal.list_map.eq_iff,htext.list_map.eq_iff]
  exact storeKey_below hm hn

def bareRoot (store : NameStore) : Files := fun k =>
  if k <+: Path.components store.os store.root.toList ++
    Path.impliedRoot store.os store.root.toList then some .dir else none

theorem bareRoot_grounded : FileTree.Grounded (bareRoot store) := by
  intro k hk q hq
  unfold bareRoot at hk ⊢
  split at hk
  · rename_i hunder
    rw [if_pos ((FileTree.mem_ancestors.mp hq).1.trans hunder)]
  · exact absurd rfl hk

def openMedium : Medium where
  refuses := fun _ => none
  cut := fun _ _ => none
  keeps := fun _ => none
  crossing := .other "Not a directory (os error 20)"

theorem bareRoot_opens (hwhole : Path.Whole store.os store.root.toList)
    (hm : Murl.parse s = .ok m) (hopen : ∀ q, store.medium.refuses q = none) :
    FileTree.Opens store.medium.toVolume (bareRoot store) (store.key m) where
  above := by
    intro q _
    unfold FileTree.MayBeDir bareRoot
    split
    · exact .inl rfl
    · exact .inr ⟨rfl,hopen q⟩
  free := by
    have hlen : (m.storeKey id).length ≠ 0 := by
      rw [storeKey_leaf]
      simp
    rw [bareRoot,if_neg]
    · simp
    · intro hunder
      have hle := hunder.length_le
      rw [key_eq hwhole hm] at hle
      simp only [List.length_append,List.length_map] at hle
      omega
  allowed := hopen _

theorem below_dependent {os : Path.Platform} {root : String} (hwhole : Path.Whole os root.toList)
    (hm : Murl.parse s = .ok m) (hn : Murl.parse t = .ok n) (h : Below m n) :
    ¬Independent ⟨os,root,openMedium⟩ m n := by
  intro hind
  let store : NameStore := ⟨os,root,openMedium⟩
  have hanc : store.key m ∈ FileTree.ancestors (store.key n) := (ancestor_below hwhole hm hn).mpr h
  have hopen : ∀ {u k}, Murl.parse u = .ok k →
      FileTree.Opens store.medium.toVolume (bareRoot store) (store.key k) :=
    fun hk => @bareRoot_opens store _ _ hwhole hk fun _ => rfl
  have hadd : (store.add n [] (bareRoot store)).1 = .ok (store.path n) :=
    add_succeeds.mpr ⟨(FileTree.install_opens (hopen hn)).1.mpr rfl,rfl⟩
  have hafter := (hind (bareRoot store) bareRoot_grounded (.add m []) rfl).added [] _ hadd
  have hfile : (store.step (bareRoot store) (.add m [])) (store.key m) = some (.file []) := by
    rw [NameStore.step,add_snd]
    exact (FileTree.install_opens (hopen hm)).2.1
  have hopened : FileTree.Opens store.medium.toVolume (store.step (bareRoot store) (.add m []))
      (store.key n) := by
    by_contra hshut
    exact (FileTree.install_stuck hshut).1 (add_succeeds.mp hafter).1
  rcases hopened.above _ hanc with hdir | ⟨hnone,-⟩
  · rw [hfile] at hdir
    cases hdir
  · rw [hfile] at hnone
    cases hnone

end Below

section Apart

variable {store : NameStore} {files : Files} {m n : Murl}

def NameStore.on (store : NameStore) (medium : Medium) : NameStore := { store with medium := medium }

def NameStore.Above (store : NameStore) (m n : Murl) : Prop :=
  store.key m ∈ FileTree.ancestors (store.key n)

structure Neighbour (n m : Murl) : Prop where
  name : LocalName m
  other : m.name ≠ n.name ∨ m.version ≠ n.version
  separate : Separate m n

theorem above_iff (hwhole : Path.Whole store.os store.root.toList) (hm : LocalName m)
    (hn : LocalName n) : ¬store.Above m n ∧ ¬store.Above n m ↔ Separate m n := by
  obtain ⟨s,hs⟩ := hm.parsed
  obtain ⟨t,ht⟩ := hn.parsed
  exact and_congr (not_congr (ancestor_below hwhole hs ht))
    (not_congr (ancestor_below hwhole ht hs))

theorem neighbour_apart (hwhole : Path.Whole store.os store.root.toList) (hn : LocalName n)
    (h : Neighbour n m) : ¬store.key m <+: store.key n ∧ ¬store.key n <+: store.key m := by
  obtain ⟨s,hs⟩ := h.name.parsed
  obtain ⟨t,ht⟩ := hn.parsed
  have hne : store.key m ≠ store.key n := by
    intro hsame
    obtain ⟨hname,hversion⟩ := @manifestPath_same (store.over fun _ => none) s t m n hwhole hs ht
      (h.name.local.trans hn.local.symm) hsame
    exact h.other.elim (fun ho => ho hname) fun ho => ho hversion
  obtain ⟨hdown,hup⟩ := (above_iff hwhole h.name hn).mpr h.separate
  unfold NameStore.Above at hdown hup
  rw [FileTree.mem_ancestors,not_and_not_right] at hdown hup
  exact ⟨fun hp => hne (hdown hp),fun hp => hne (hup hp).symm⟩

theorem neighbour_independent (hwhole : Path.Whole store.os store.root.toList) (hn : LocalName n)
    (h : Neighbour n m) : Independent store m n := by
  obtain ⟨hdown,hup⟩ := neighbour_apart hwhole hn h
  rintro files hfiles step rfl
  exact undisturbed hfiles (step_grounded hfiles step) (step_untouched hdown hup)

end Apart

theorem names_independent_iff {store : NameStore} {m n : Murl}
    (hwhole : Path.Whole store.os store.root.toList) (hm : LocalName m) (hn : LocalName n)
    (hother : m.name ≠ n.name ∨ m.version ≠ n.version) :
    (¬store.Above m n ∧ ¬store.Above n m ↔ Separate m n) ∧
      ((∀ medium, Independent (store.on medium) m n ∧ Independent (store.on medium) n m) ↔
        Separate m n) ∧
      ∀ steps files, FileTree.Grounded files → (∀ step ∈ steps, Neighbour n step.murl) →
        Undisturbed store n files (store.run steps files) := by
  refine ⟨above_iff hwhole hm hn,⟨?_,?_⟩,?_⟩
  · intro h
    obtain ⟨s,hs⟩ := hm.parsed
    obtain ⟨t,ht⟩ := hn.parsed
    obtain ⟨hmn,hnm⟩ := h openMedium
    exact ⟨fun hbelow => below_dependent hwhole hs ht hbelow hmn,
      fun hbelow => below_dependent hwhole ht hs hbelow hnm⟩
  · intro h medium
    have hback : n.name ≠ m.name ∨ n.version ≠ m.version := hother.imp Ne.symm Ne.symm
    exact ⟨@neighbour_independent (store.on medium) m n hwhole hn ⟨hm,hother,h⟩,
      @neighbour_independent (store.on medium) n m hwhole hm ⟨hn,hback,h.symm⟩⟩
  · intro steps files hfiles hsteps
    exact run_undisturbed hfiles fun step hstep => neighbour_apart hwhole hn (hsteps step hstep)

section Samples

def namesStore : NameStore := ⟨.posix,"/data/names",openMedium⟩

def planMurl : Murl := ⟨.local,["plan"],.latest,none,none⟩

def underMurl : Murl := ⟨.local,["plan.murl.json","draft"],.latest,none,none⟩

theorem team_separate : Separate teamMurl planMurl := by
  constructor
  · rintro ⟨hversion,-⟩
    cases hversion
  · rintro ⟨-,dirs,last,rest,hrest,hname,hname'⟩
    cases dirs with
    | nil =>
      obtain ⟨rfl,-⟩ := List.cons.inj hname
      obtain ⟨hteam,-⟩ := List.cons.inj hname'
      revert hteam
      decide +kernel
    | cons d dirs => simp [planMurl] at hname

theorem plan_independent : Separate teamMurl planMurl ∧
    ¬namesStore.Above teamMurl planMurl ∧ ¬namesStore.Above planMurl teamMurl ∧
      Independent namesStore teamMurl planMurl ∧
      Undisturbed namesStore planMurl (bareRoot namesStore)
        (namesStore.run [.add teamMurl [1],.remove teamMurl] (bareRoot namesStore)) := by
  have hteam : LocalName teamMurl := ⟨⟨"murl://local/team/p.1@1.4",by decide +kernel⟩,rfl⟩
  have hplan : LocalName planMurl := ⟨⟨"murl://local/plan",by decide +kernel⟩,rfl⟩
  have hother : teamMurl.name ≠ planMurl.name ∨ teamMurl.version ≠ planMurl.version :=
    .inl (by decide)
  obtain ⟨hpaths,hsteps,hruns⟩ :=
    @names_independent_iff namesStore _ _ (Path.whole_posix _) hteam hplan hother
  obtain ⟨hup,hdown⟩ := hpaths.mpr team_separate
  refine ⟨team_separate,hup,hdown,(hsteps.mpr team_separate openMedium).1,?_⟩
  refine hruns _ _ bareRoot_grounded ?_
  intro step hstep
  have hmurl : step.murl = teamMurl := by
    rcases List.mem_pair.mp hstep with rfl | rfl <;> rfl
  rw [hmurl]
  exact ⟨hteam,hother,team_separate⟩

theorem nested_name_blocked :
    (¬∀ (store : NameStore) (m n : Murl), LocalName m → LocalName n →
      m.name ≠ n.name ∨ m.version ≠ n.version → ¬store.Above m n) ∧
    ¬∀ (store : NameStore) (m n : Murl), LocalName m → LocalName n →
      m.name ≠ n.name ∨ m.version ≠ n.version → Independent store m n := by
  have hparse : Murl.parse "murl://local/plan" = .ok planMurl := by decide +kernel
  have hparse' : Murl.parse "murl://local/plan.murl.json/draft" = .ok underMurl := by decide +kernel
  have hother : planMurl.name ≠ underMurl.name ∨ planMurl.version ≠ underMurl.version :=
    .inl (by decide)
  have hbelow : Below planMurl underMurl :=
    ⟨rfl,[],"plan",["draft"],by decide,rfl,by decide +kernel⟩
  have hwhole := Path.whole_posix namesStore.root.toList
  constructor
  · intro h
    refine h namesStore _ _ ⟨⟨_,hparse⟩,rfl⟩ ⟨⟨_,hparse'⟩,rfl⟩ hother ?_
    exact (ancestor_below hwhole hparse hparse').mpr hbelow
  · intro h
    have hind := h namesStore _ _ ⟨⟨_,hparse⟩,rfl⟩ ⟨⟨_,hparse'⟩,rfl⟩ hother
    exact below_dependent hwhole hparse hparse' hbelow hind

end Samples

end MurlSystem

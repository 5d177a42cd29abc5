import MurlSystem.Cli.Import

namespace MurlSystem

open Program

structure Acceptable (crates : Crates) (limits : Limits) (m : Murl) (bytes : Bytes) : Prop where
  passes : ∃ manifest, Manifest.fromSlice crates bytes limits = .ok manifest ∧
    (manifest.validate crates).errors = [] ∧
    (∃ v, verifyManifest crates manifest.raw = .ok v) ∧
    ∀ origin, bindIdentity (some m) origin manifest.doc = .ok ()

section Examine

variable {env : Env} {m : Murl} {bytes : Bytes}

theorem examine_accepts (h : Acceptable env.crates env.limits m bytes) (origin : Origin)
    (depth : Nat) (r : Run) :
    wp (examine env (some m) bytes origin depth) (fun _ _ => True) (fun _ _ => False) r := by
  obtain ⟨manifest,hparsed,hvalid,⟨v,hverified⟩,hbound⟩ := h
  have hpasses : Examined env (some m) bytes origin manifest v :=
    ⟨hparsed,hvalid,hverified,hbound origin⟩
  refine wp_examine ?_ ?_
  · intro _ _ _ _
    trivial
  · intro e ws n hnone
    exact hnone manifest v hpasses

theorem Path.admitted {a : Config} {r : Run} {fs : List Frame} (h : Path env a ⟨r,fs⟩)
    (ha : a.run.st.nodes ≠ []) : r.st.nodes ≠ [] := by
  obtain ⟨rest,hrest⟩ := h.nodes_prefix
  rw [← hrest]
  exact List.append_ne_nil_of_left_ne_nil ha rest

def Run.Admits (r : Run) : Prop := r.st.nodes ≠ []

theorem ingestBytes_admits (h : Acceptable env.crates env.limits m bytes) (req : Request)
    (named : req.murl = some m) (origin : Origin)
    {recur : req.depth + 1 ≤ env.limits.maxDepth →
      Murl → Option String → Option String → Nat → ResolveM Unit}
    (hrec : ∀ hd node, Sim env (req.site origin node) (recur hd)) (r : Run) :
    wp (ingestBytes env req.depth recur req.murl bytes origin req.anchor req.parent)
      (fun _ => Run.Admits) (fun _ => Run.Admits) r := by
  unfold ingestBytes
  rw [wp_bind]
  have hpasses := examine_accepts h origin req.depth r
  rw [← named] at hpasses
  refine wp_mono (wp_and hpasses (examine_spec env req bytes origin r)) ?_ (fun _ _ he => he.1.elim)
  rintro node r₁ ⟨-,-,hnode⟩
  obtain ⟨order,horder⟩ := validate_order hnode.valid
  rw [wp_bind,wp_get,wp_bind,wp_modify,wp_bind,wp_fromExcept,horder]
  have hpushed : (r₁.pushNode node ⟨req.parent,req.murl.map Murl.unselected⟩).Admits := by
    simp [Run.Admits,Run.pushNode]
  refine ⟨?_,fun e he => by cases he⟩
  rintro order' hsame
  obtain rfl : order = order' := by simpa [Except.mapError] using hsame
  have hstart : Path env
      ⟨r₁.pushNode node ⟨req.parent,req.murl.map Murl.unselected⟩,
        [.walk (req.site origin r₁.st.nodes.length) node.manifest.doc.resources order]⟩
      ⟨r₁.pushNode node ⟨req.parent,req.murl.map Murl.unselected⟩,
        [.walk (req.site origin r₁.st.nodes.length) node.manifest.doc.resources order]⟩ := .refl _
  refine wp_mono (spliceAll_steps (fun hd => hrec hd _) ?_ hstart) ?_ ?_
  · intro j hj
    exact (executionOrder_mem horder j).mp hj
  · intro _ r₂ h₂
    exact h₂.admitted hpushed
  · rintro _ r₂ ⟨fs,h₂,-⟩
    exact h₂.admitted hpushed

theorem resolve_admits {target : Murl} {path : String} (cache : Cache)
    (atHome : target.authority.isLocal = true) (room : 1 ≤ env.limits.maxNestedManifests)
    (loaded : env.localStore.load target = .ok (bytes,path))
    (h : Acceptable env.crates env.limits target bytes) :
    wp (resolve env target) (fun _ => Run.Admits) (fun _ => Run.Admits) (Run.start cache) := by
  unfold resolve
  rw [wp_bind,wp_modify,wp_bind,ingestNamed,wp_bind]
  unfold countManifest
  rw [wp_bind,wp_modify,wp_bind,wp_get,wp_ite]
  refine ⟨?_,?_⟩
  · intro hfull
    have hcount : ((Run.start cache).pushStack target.identity).count.st.manifests = 1 := rfl
    omega
  · intro _
    unfold locate loadLocal
    rw [wp_pure,wp_bind,if_pos atHome,wp_bind,wp_modify,wp_bind,wp_fromExcept,loaded]
    refine ⟨?_,fun e he => by cases he⟩
    rintro _ ⟨⟩
    rw [wp_pure,wp_bind,wp_fromExcept]
    refine ⟨?_,fun e he => by cases he⟩
    intro _ _
    refine wp_mono (ingestBytes_admits h (Request.root target) rfl (.localStore path) ?_ _) ?_
      (fun _ _ he => he)
    · intro _ node a fs r doc child hseek
      exact ingestNamed_steps child 1 _ _ _ hseek
    · intro _ r hr
      rw [wp_bind,wp_modify,wp_bind,wp_get,wp_fromExcept]
      exact ⟨fun _ _ => hr,fun _ _ => hr⟩

end Examine

section Commands

variable {app : App} {store store' : Store} {items : List (Murl × Bytes)} {names : List Murl}

def App.over (app : App) (files : String → Except String Bytes) : App := { app with files := files }

inductive Command (app : App) (store : Store) : List (Murl × Bytes) → Store → Prop
  | add (files : String → Except String Bytes) (vol : Volume) (name file : String) (m : Murl)
      (bytes : Bytes) (store' : Store)
      (checked : checkAdd (app.over files) name file = .ok (m,bytes))
      (ran : nameAdd (app.over files) vol name file store = (.ok m,store')) :
      Command app store [(m,bytes)] store'
  | imports (files : String → Except String Bytes) (vol : Volume) (file : String) (bytes : Bytes)
      (bundle : Bundle) (asName : Option String) (force : Bool) (plan : List (Murl × Bytes))
      (installed : List String) (store' : Store) (read : files file = .ok bytes)
      (accepted : Bundle.fromSlice app.crates app.limits bytes = .ok bundle)
      (planned : planEntries (app.over files) bundle asName 0 [] bundle.entries = .ok plan)
      (ran : importFile (app.over files) vol file asName force store = (.ok installed,store')) :
      Command app store plan store'

inductive Installs (app : App) (good : List Murl → List (Murl × Bytes) → Prop) :
    List Murl → Store → Prop
  | fresh : Installs app good [] emptyNames
  | next (names : List Murl) (items : List (Murl × Bytes)) (store store' : Store)
      (before : Installs app good names store) (command : Command app store items store')
      (allowed : good names items) : Installs app good (items.map Prod.fst ++ names) store'

structure Genuine (app : App) (m : Murl) (bytes : Bytes) : Prop where
  signed : ∀ manifest, Manifest.fromSlice app.crates bytes app.limits = .ok manifest →
    ∃ v, verifyManifest app.crates manifest.raw = .ok v
  pinned : ∀ manifest declared d, Manifest.fromSlice app.crates bytes app.limits = .ok manifest →
    manifest.doc.id = some declared → Murl.parse declared = .ok d →
      versionConflicts d.version m.version = false

def Anonymous (app : App) (bytes : Bytes) : Prop :=
  ∀ manifest, Manifest.fromSlice app.crates bytes app.limits = .ok manifest →
    manifest.doc.id = none

structure Prudent (app : App) (names : List Murl) (items : List (Murl × Bytes)) : Prop where
  genuine : ∀ item ∈ items, Genuine app item.1 item.2
  apart : ∀ item ∈ items, ∀ m ∈ items.map Prod.fst ++ names,
    m.storeKey app.fold = item.1.storeKey app.fold → m = item.1 ∨ Anonymous app item.2

structure Passable (app : App) (item : Murl × Bytes) : Prop where
  atHome : item.1.authority = .local
  parsed : ∃ manifest, Manifest.fromSlice app.crates item.2 app.limits = .ok manifest ∧
    (manifest.validate app.crates).errors = [] ∧
    ∀ declared, manifest.doc.id = some declared →
      ∃ d, Murl.parse declared = .ok d ∧ d.authority = item.1.authority ∧ d.name = item.1.name

theorem isLocal_eq {a : Authority} (h : a.isLocal = true) : a = .local := by
  cases a with
  | «local» => rfl
  | remote host port => cases h

theorem parseNameWith_local {notLocal : String → String} {carries name : String} {m : Murl}
    (h : parseNameWith notLocal carries name = .ok m) : m.authority = .local := by
  simp only [parseNameWith,Fallible.bind_ok,Fallible.mapError_ok,Fallible.ite_ok,Fallible.throw_ok,
    false_and,exists_false,and_false,false_or,Fallible.pure_ok,Bool.not_eq_true',
    Bool.not_eq_false] at h
  obtain ⟨_,_,_,_,hlocal,_,rfl⟩ := h
  exact isLocal_eq hlocal

theorem homeOf_local {bundle : Bundle} {asName : Option String} {i : Nat} {e : BundleEntry}
    {m : Murl} (h : homeOf bundle asName i e = .ok m) : m.authority = .local := by
  unfold homeOf at h
  split at h
  · exact parseNameWith_local h
  · simp only [Fallible.bind_ok,Fallible.pure_ok] at h
    obtain ⟨_,_,rfl⟩ := h
    rfl
  · cases h

theorem checkAdd_passable {files : String → Except String Bytes} {name file : String} {m : Murl}
    {bytes : Bytes} (h : checkAdd (app.over files) name file = .ok (m,bytes)) :
    Passable app (m,bytes) := by
  simp only [checkAdd,Fallible.bind_ok,Fallible.mapError_ok,Fallible.ite_ok,Fallible.throw_ok,
    false_and,exists_false,and_false,false_or,Fallible.pure_ok,Bool.not_eq_true',
    Bool.not_eq_false,List.isEmpty_iff,Prod.mk.injEq] at h
  obtain ⟨m,hm,bytes,-,manifest,hparsed,hvalid,⟨⟩,hbound,rfl,rfl⟩ := h
  refine ⟨parseNameWith_local hm,manifest,hparsed,hvalid,?_⟩
  intro declared hid
  simp only [checkDeclared,hid,Fallible.bind_ok,Fallible.mapError_ok,Fallible.ite_ok,
    Fallible.throw_ok,and_false,false_or] at hbound
  obtain ⟨d,hd,hmatch,-⟩ := hbound
  simp only [Bool.or_eq_true,Bool.not_eq_true',Bool.and_eq_false_iff,beq_eq_false_iff_ne,ne_eq,
    not_or,not_not] at hmatch
  exact ⟨d,hd,hmatch.1⟩

theorem planEntries_passable {files : String → Except String Bytes} {bundle : Bundle}
    {asName : Option String} {i : Nat} {claimed : List (String × String)} {es : List BundleEntry}
    {plan : List (Murl × Bytes)}
    (hes : ∀ e ∈ es, ∃ raw manifest, Carried app.crates app.limits e raw manifest)
    (h : planEntries (app.over files) bundle asName i claimed es = .ok plan) :
    ∀ item ∈ plan, Passable app item := by
  induction es generalizing i claimed plan with
  | nil =>
    cases h
    nofun
  | cons e rest ih =>
    simp only [planEntries,Fallible.bind_ok,Fallible.mapError_ok,Fallible.pure_ok,decode_ok] at h
    obtain ⟨home,hhome,bytes,⟨hbytes,-⟩,manifest,hparsed,⟨⟩,hbound,-,-,plan,hplan,rfl⟩ := h
    obtain ⟨⟨raw,manifest',hcarried⟩,hrest⟩ := List.forall_mem_cons.mp hes
    refine List.forall_mem_cons.mpr ⟨?_,ih hrest hplan⟩
    obtain rfl : raw = bytes := Except.ok.inj (hcarried.decoded.symm.trans hbytes)
    obtain rfl : manifest' = manifest := Except.ok.inj (hcarried.parsed.symm.trans hparsed)
    refine ⟨homeOf_local hhome,manifest',hparsed,hcarried.valid,?_⟩
    intro declared hid
    simp only [checkHome,hid,Fallible.bind_ok,Fallible.mapError_ok,Fallible.ite_ok,
      Fallible.throw_ok,and_false,false_or,Bool.not_eq_true',Bool.not_eq_false,
      Bool.and_eq_true,beq_iff_eq] at hbound
    obtain ⟨d,hd,hmatch,-⟩ := hbound
    exact ⟨d,hd,hmatch⟩

theorem Command.passable (h : Command app store items store') : ∀ item ∈ items, Passable app item := by
  cases h with
  | add files vol name file m bytes store' checked ran =>
    exact List.forall_mem_singleton.mpr (checkAdd_passable checked)
  | imports files vol file bytes bundle asName force plan installed store' read accepted planned ran =>
    exact planEntries_passable (fromSlice_iff.mp accepted).2.2.entries planned

theorem installAll_single {vol : Volume} {k : List String} {b : Bytes}
    (h : FileTree.install vol k b store = (.ok (),store')) :
    FileTree.installAll vol [(k,b)] store = (.ok (),store') := by
  rw [FileTree.installAll,h]
  rfl

theorem nameAdd_placed {vol : Volume} {name file : String} {m : Murl} {bytes : Bytes}
    (checked : checkAdd app name file = .ok (m,bytes))
    (ran : nameAdd app vol name file store = (.ok m,store')) :
    FileTree.installAll vol (placements app [(m,bytes)]) store = (.ok (),store') := by
  refine installAll_single ?_
  unfold nameAdd App.add at ran
  rw [checked] at ran
  dsimp only at ran
  cases hout : FileTree.install vol (m.storeKey app.fold) bytes store with
  | mk res out =>
    rw [hout] at ran
    cases res with
    | error why => cases ran
    | ok u =>
      cases ran
      rfl

theorem importFile_placed {vol : Volume} {file : String} {bytes : Bytes} {bundle : Bundle}
    {asName : Option String} {force : Bool} {plan : List (Murl × Bytes)} {installed : List String}
    (read : app.files file = .ok bytes)
    (accepted : Bundle.fromSlice app.crates app.limits bytes = .ok bundle)
    (planned : planEntries app bundle asName 0 [] bundle.entries = .ok plan)
    (ran : importFile app vol file asName force store = (.ok installed,store')) :
    FileTree.installAll vol (placements app plan) store = (.ok (),store') := by
  rw [importFile_accepted read accepted] at ran
  cases hocc : (if force then .ok () else plan.forM (checkVacant app store) : Except Stop Unit) with
  | error stop =>
    rw [importBundle_occupied planned hocc] at ran
    cases ran
  | ok u =>
    rw [importBundle_placed planned (vacant_ok.mp hocc)] at ran
    cases hout : FileTree.installAll vol (placements app plan) store with
    | mk res out =>
      rw [hout] at ran
      cases res with
      | error why => cases ran
      | ok u =>
        cases ran
        rfl

theorem Command.placed (h : Command app store items store') :
    ∃ vol, FileTree.installAll vol (placements app items) store = (.ok (),store') := by
  cases h with
  | add files vol name file m bytes store' checked ran =>
    have hplaced := nameAdd_placed checked ran
    exact ⟨vol,hplaced⟩
  | imports files vol file bytes bundle asName force plan installed store' read accepted planned ran =>
    have read : (app.over files).files file = .ok bytes := read
    have hplaced := importFile_placed read accepted planned ran
    exact ⟨vol,hplaced⟩

theorem Command.held (h : Command app store items store') (m : Murl) : app.held store' m =
    (FileTree.last (placements app items) (m.storeKey app.fold)).or (app.held store m) := by
  obtain ⟨vol,hplaced⟩ := h.placed
  exact FileTree.installAll_stored hplaced (m.storeKey app.fold)

theorem Passable.acceptable {item : Murl × Bytes} (h : Passable app item)
    (hgenuine : Genuine app item.1 item.2) :
    Acceptable app.crates app.limits item.1 item.2 := by
  obtain ⟨-,manifest,hparsed,hvalid,hbound⟩ := h
  refine ⟨manifest,hparsed,hvalid,hgenuine.signed manifest hparsed,?_⟩
  intro origin
  unfold bindIdentity
  cases hid : manifest.doc.id with
  | none => rfl
  | some declared =>
    obtain ⟨d,hd,hauth,hname⟩ := hbound declared hid
    have hfree := hgenuine.pinned manifest declared d hparsed hid hd
    simp [hd,hauth,hname,hfree]

theorem Passable.anonymous {item : Murl × Bytes} (h : Passable app item)
    (hgenuine : Genuine app item.1 item.2) (hanon : Anonymous app item.2) (m : Murl) :
    Acceptable app.crates app.limits m item.2 := by
  obtain ⟨-,manifest,hparsed,hvalid,-⟩ := h
  refine ⟨manifest,hparsed,hvalid,hgenuine.signed manifest hparsed,?_⟩
  intro origin
  unfold bindIdentity
  rw [hanon manifest hparsed]

end Commands

section Reachable

variable {app : App} {store : Store} {names : List Murl}

structure Mounted (app : App) (store : Store) (env : Env) : Prop where
  crates : env.crates = app.crates
  limits : env.limits = app.limits
  serves : ∀ m b, app.held store m = some b →
    env.localStore.files (env.localStore.manifestPath m) = .bytes b

structure SameName (m target : Murl) : Prop where
  authority : target.authority = m.authority
  name : target.name = m.name
  version : target.version = m.version

structure Opened (env : Env) (target : Murl) : Prop where
  examined : ∃ bytes path, env.localStore.load target = .ok (bytes,path) ∧
    ∀ r, ∃ node r', examine env (some target) bytes (.localStore path) 0 r = .ok node r'
  admitted : 1 ≤ env.limits.maxNestedManifests → ∀ cache,
    (final (resolve env target) (Run.start cache)).Admits

def Stocked (app : App) (names : List Murl) (store : Store) : Prop :=
  ∀ m ∈ names, m.authority = .local ∧
    ∃ bytes, app.held store m = some bytes ∧ Acceptable app.crates app.limits m bytes

theorem Stocked.next {items : List (Murl × Bytes)} {store' : Store} (h : Stocked app names store)
    (command : Command app store items store') (prudent : Prudent app names items) :
    Stocked app (items.map Prod.fst ++ names) store' := by
  intro m hm
  have hpassable := command.passable
  have hmine : m.authority = .local := by
    rcases List.mem_append.mp hm with hm | hm
    · obtain ⟨item,hitem,rfl⟩ := List.mem_map.mp hm
      exact (hpassable item hitem).atHome
    · exact (h m hm).1
  refine ⟨hmine,?_⟩
  cases hlast : FileTree.last (placements app items) (m.storeKey app.fold) with
  | some b =>
    obtain ⟨item,hitem,he⟩ := List.mem_map.mp (FileTree.last_mem hlast)
    obtain ⟨hkey,rfl⟩ := Prod.mk.inj he
    refine ⟨item.2,by rw [command.held,hlast,Option.some_or],?_⟩
    have hgenuine := prudent.genuine item hitem
    rcases prudent.apart item hitem m hm hkey.symm with rfl | hanon
    · exact (hpassable item hitem).acceptable hgenuine
    · exact (hpassable item hitem).anonymous hgenuine hanon m
  | none =>
    have hold : m ∈ names := by
      rcases List.mem_append.mp hm with hm | hm
      · obtain ⟨item,hitem,rfl⟩ := List.mem_map.mp hm
        exact absurd rfl (FileTree.last_none.mp hlast _ (List.mem_map_of_mem hitem))
      · exact hm
    obtain ⟨-,bytes,hheld,haccept⟩ := h m hold
    refine ⟨bytes,?_,haccept⟩
    rw [command.held,hlast,Option.none_or,hheld]

theorem Installs.stocked (h : Installs app (Prudent app) names store) : Stocked app names store := by
  induction h with
  | fresh => nofun
  | next names items store store' before command prudent ih => exact ih.next command prudent

theorem SameName.key {m target : Murl} (h : SameName m target) (fold : String → String) :
    target.storeKey fold = m.storeKey fold := by
  simp only [Murl.storeKey,h.name,h.version]

theorem SameName.acceptable {m target : Murl} {crates : Crates} {limits : Limits} {bytes : Bytes}
    (h : SameName m target) (ha : Acceptable crates limits m bytes) :
    Acceptable crates limits target bytes := by
  obtain ⟨manifest,hparsed,hvalid,hverified,hbound⟩ := ha
  refine ⟨manifest,hparsed,hvalid,hverified,?_⟩
  intro origin
  have hsame := hbound origin
  unfold bindIdentity at hsame ⊢
  cases hid : manifest.doc.id with
  | none => rfl
  | some declared =>
    rw [hid] at hsame
    dsimp only at hsame ⊢
    cases hd : Murl.parse declared with
    | error e =>
      rw [hd] at hsame
      cases hsame
    | ok d =>
      rw [hd] at hsame
      dsimp only at hsame ⊢
      rw [h.authority,h.name,h.version]
      split at hsame
      · cases hsame
      · rename_i hfree
        rw [if_neg hfree]

theorem Mounted.opened {env : Env} (h : Mounted app store env) {target : Murl} {bytes : Bytes}
    (atHome : target.authority.isLocal = true) (held : app.held store target = some bytes)
    (ha : Acceptable app.crates app.limits target bytes) : Opened env target := by
  have hload : env.localStore.load target =
      .ok (bytes,env.localStore.manifestPath target) := by
    simp only [LocalStore.load,h.serves target bytes held]
  have ha : Acceptable env.crates env.limits target bytes := by
    rw [h.crates,h.limits]
    exact ha
  refine ⟨⟨bytes,_,hload,?_⟩,?_⟩
  · intro r
    have hpass := examine_accepts ha (.localStore (env.localStore.manifestPath target)) 0 r
    unfold wp at hpass
    cases hrun : examine env (some target) bytes
        (.localStore (env.localStore.manifestPath target)) 0 r with
    | ok node r' => exact ⟨node,r',rfl⟩
    | error e r' =>
      rw [hrun] at hpass
      exact hpass.elim
  · intro room cache
    exact wp_final (resolve_admits cache atHome room hload ha)

theorem installed_names_open (app : App) (names : List Murl) (store : Store)
    (run : Installs app (Prudent app) names store) (env : Env) (mounted : Mounted app store env)
    (m : Murl) (installed : m ∈ names) (target : Murl) (same : SameName m target) :
    Opened env target := by
  obtain ⟨hlocal,bytes,hheld,haccept⟩ := run.stocked m installed
  refine mounted.opened ?_ ?_ (same.acceptable haccept)
  · rw [same.authority,hlocal]
    rfl
  · rw [App.held,same.key]
    exact hheld

end Reachable

section Sole

def soleApp : App := ⟨bundlingCrates,{},id,fun _ => .error "No such file or directory (os error 2)"⟩

def soleHome : Murl := ⟨.local,["p"],.latest,none,none⟩

def solePath : String := "/names/p.murl.json"

def soleEnv (bytes : Bytes) : Env :=
  { siteEnv bundlingCrates [] with
    localStore := ⟨.posix,"/names",fun path => if path = solePath then .bytes bytes else .notFound⟩ }

def soleStore (bytes : Bytes) : Store :=
  (FileTree.install openVolume ["p.murl.json"] bytes emptyNames).2

theorem manifestPath_key (store : LocalStore) (m : Murl) : store.manifestPath m =
    String.ofList ((m.storeKey id).foldl (fun path comp => Path.push store.os path comp.toList)
      store.root.toList) := by
  unfold LocalStore.manifestPath Murl.storeKey
  rw [List.map_id_fun]
  rfl

theorem sole_install (bytes : Bytes) :
    FileTree.install openVolume ["p.murl.json"] bytes emptyNames = (.ok (),soleStore bytes) := rfl

theorem soleStore_held {bytes b : Bytes} {m : Murl}
    (h : soleApp.held (soleStore bytes) m = some b) :
    m.storeKey id = ["p.murl.json"] ∧ b = bytes := by
  have hstored := FileTree.installAll_stored (installAll_single (sole_install bytes)) (m.storeKey id)
  have hlast := FileTree.last_snoc (k := ["p.murl.json"]) (b := bytes) [] (m.storeKey id)
  rw [List.nil_append] at hlast
  rw [hlast] at hstored
  by_cases hkey : m.storeKey id = ["p.murl.json"]
  · rw [if_pos hkey,Option.some_or] at hstored
    exact ⟨hkey,Option.some.inj (h.symm.trans hstored)⟩
  · rw [if_neg hkey] at hstored
    cases h.symm.trans hstored

theorem sole_mounted (bytes : Bytes) : Mounted soleApp (soleStore bytes) (soleEnv bytes) := by
  refine ⟨rfl,rfl,?_⟩
  intro m b h
  obtain ⟨hkey,rfl⟩ := soleStore_held h
  have hjoin : String.ofList (["p.murl.json"].foldl
      (fun path comp => Path.push .posix path comp.toList) "/names".toList) = solePath := by
    decide +kernel
  have hpath : (soleEnv b).localStore.manifestPath m = solePath := by
    rw [manifestPath_key,hkey]
    exact hjoin
  rw [hpath]
  change (if solePath = solePath then FileRead.bytes b else .notFound) = .bytes b
  exact if_pos rfl

theorem sole_added {bytes : Bytes} {manifest : Manifest}
    (hparsed : Manifest.fromSlice bundlingCrates bytes {} = .ok manifest)
    (hvalid : (manifest.validate bundlingCrates).errors = []) (hanon : manifest.doc.id = none) :
    Command soleApp emptyNames [(soleHome,bytes)] (soleStore bytes) := by
  have hname : parseLocalName "p" = .ok soleHome := by decide +kernel
  have hcheck : checkAdd (soleApp.over fun _ => .ok bytes) "p" "p.json" = .ok (soleHome,bytes) := by
    simp only [checkAdd,Fallible.bind_ok,Fallible.mapError_ok,Fallible.ite_ok,Fallible.throw_ok,
      false_and,exists_false,and_false,false_or,Fallible.pure_ok,Bool.not_eq_true',Bool.not_eq_false,
      List.isEmpty_iff]
    exact ⟨soleHome,hname,bytes,rfl,manifest,hparsed,hvalid,(),by rw [checkDeclared,hanon],rfl⟩
  have hkey : soleHome.storeKey id = ["p.murl.json"] := by decide +kernel
  refine .add (fun _ => .ok bytes) openVolume "p" "p.json" soleHome bytes (soleStore bytes) hcheck ?_
  unfold nameAdd App.add
  rw [hcheck]
  dsimp only [soleApp,App.over]
  rw [hkey,sole_install]

def nullSigned : Value :=
  .object [("murlVersion",.string "0.1"),("name",.string "a"),
    ("resources",.array [resourceValue "a" "https" "https://a" none]),("signature",.null)]

theorem nullSigned_token : Serde.Token Serde.maxNesting nullSigned :=
  .object 126 _ (List.forall_mem_cons.mpr ⟨.string 126 _,List.forall_mem_cons.mpr ⟨.string 126 _,
    List.forall_mem_cons.mpr ⟨.array 125 _ (List.forall_mem_singleton.mpr
      (.object 124 _ (List.forall_mem_cons.mpr ⟨.string 124 _,List.forall_mem_cons.mpr
        ⟨.string 124 _,List.forall_mem_singleton.mpr (.string 124 _)⟩⟩))),
      List.forall_mem_singleton.mpr (.null 126)⟩⟩⟩)

theorem nullSigned_parsed : Manifest.fromSlice bundlingCrates (published nullSigned) {} =
    .ok ⟨nullSigned,slim.doc⟩ := by
  have htext : canonicalJsonBytes nullSigned = .ok (published nullSigned) :=
    published_written nofun
  have hread := (bundlingCrates_serde _ _).mpr (Serde.readTokens_written nullSigned_token htext)
  have hstrict : fromSliceStrict bundlingCrates (published nullSigned) = .ok nullSigned := by
    rw [fromSliceStrict,hread]
    rfl
  exact Manifest.fromSlice_iff.mpr ⟨by decide +kernel,hstrict,rfl,rfl⟩

theorem null_signature_installs : ∃ store,
    Installs soleApp (fun _ _ => True) [soleHome] store ∧
      Mounted soleApp store (soleEnv (published nullSigned)) ∧
      ¬Opened (soleEnv (published nullSigned)) soleHome := by
  have hadd := sole_added nullSigned_parsed (by decide +kernel) rfl
  refine ⟨_,.next [] _ emptyNames _ .fresh hadd trivial,sole_mounted _,?_⟩
  rintro ⟨⟨bytes,path,hload,hexamined⟩,-⟩
  obtain ⟨node,r',hnode⟩ := hexamined (Run.start Cache.empty)
  have hspec := examine_spec (soleEnv (published nullSigned)) (Request.root soleHome) bytes
    (.localStore path) (Run.start Cache.empty)
  obtain ⟨-,hadmitted⟩ := wp_ok hspec hnode
  have hbytes : bytes = published nullSigned := by
    have hheld : soleApp.held (soleStore (published nullSigned)) soleHome =
        some (published nullSigned) := rfl
    have hserved := (sole_mounted (published nullSigned)).serves soleHome _ hheld
    simp only [LocalStore.load,hserved,Except.ok.injEq,Prod.mk.injEq] at hload
    exact hload.1.symm
  have hsame : node.manifest = ⟨nullSigned,slim.doc⟩ := by
    have hparsed := hadmitted.parsed
    rw [hbytes] at hparsed
    exact Except.ok.inj (hparsed.symm.trans nullSigned_parsed)
  obtain ⟨v,hv,-⟩ := hadmitted.trust
  rw [hsame] at hv
  cases hv

theorem slim_opens : Opened (soleEnv (published slimManifest)) soleHome := by
  have hcarried := slimEntry_carried (show 93 ≤ ({} : Limits).maxManifestBytes by decide) none "a"
  have hadd := sole_added hcarried.parsed hcarried.valid rfl
  have honly {manifest : Manifest}
      (h : Manifest.fromSlice soleApp.crates (published slimManifest) soleApp.limits = .ok manifest) :
      manifest = slim := Except.ok.inj (h.symm.trans hcarried.parsed)
  have hgenuine : Genuine soleApp soleHome (published slimManifest) := by
    refine ⟨?_,?_⟩
    · intro manifest h
      rw [honly h]
      exact ⟨none,rfl⟩
    · intro manifest declared d h hid
      rw [honly h] at hid
      cases hid
  have hprudent : Prudent soleApp [] [(soleHome,published slimManifest)] := by
    refine ⟨List.forall_mem_singleton.mpr hgenuine,List.forall_mem_singleton.mpr ?_⟩
    intro m hm _
    exact .inl (List.mem_singleton.mp hm)
  exact installed_names_open soleApp [soleHome] _ (.next [] _ emptyNames _ .fresh hadd hprudent)
    (soleEnv (published slimManifest)) (sole_mounted _) soleHome (List.mem_singleton.mpr rfl) soleHome
    ⟨rfl,rfl,rfl⟩

end Sole

end MurlSystem

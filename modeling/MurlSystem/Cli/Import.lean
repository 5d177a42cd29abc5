import MurlSystem.Bundling.RoundTrip
import MurlSystem.Cli.Names

namespace MurlSystem

section Import

variable {app : App} {vol : Volume} {bundle : Bundle} {asName : Option String} {force : Bool}
  {store : Store}

structure Home (app : App) (bundle : Bundle) (asName : Option String) (i : Nat) (e : BundleEntry)
    (item : Murl × Bytes) : Prop where
  home : homeOf bundle asName i e = .ok item.1
  decoded : e.decode app.crates app.limits = .ok item.2

structure AllOrNothing (app : App) (bundle : Bundle) (asName : Option String) (force : Bool)
    (store : Store) (out : Except Stop (List String) × Store) : Prop where
  nothing : ∀ stop store', out = (.error stop,store') → ∀ m, app.held store' m = app.held store m
  all : ∀ installed store', out = (.ok installed,store') →
    ∀ i e, bundle.entries[i]? = some e →
      ∃ item, Home app bundle asName i e item ∧ app.held store' item.1 = some item.2
  kept : ∀ installed store', out = (.ok installed,store') → force = false →
    ∀ m b, app.held store m = some b → app.held store' m = some b

def Named (app : App) (q : List String) : Prop := ∃ m : Murl, m.storeKey app.fold = q

def Spareable (app : App) (vol : Volume) (bundle : Bundle) (asName : Option String) (force : Bool)
    (store : Store) : Prop :=
  ∀ plan, planEntries app bundle asName 0 [] bundle.entries = .ok plan →
    (force = false → ∀ item ∈ plan, store (item.1.storeKey app.fold) = none) →
      FileTree.Spared vol store (placements app plan)

theorem planEntries_homes {i : Nat} {claimed : List (String × String)} {es : List BundleEntry}
    {plan : List (Murl × Bytes)} (h : planEntries app bundle asName i claimed es = .ok plan) :
    plan.length = es.length ∧
      ∀ j e, es[j]? = some e → ∃ item, plan[j]? = some item ∧ Home app bundle asName (i + j) e item := by
  induction es generalizing i claimed plan with
  | nil =>
    cases h
    exact ⟨rfl,by simp⟩
  | cons e rest ih =>
    simp only [planEntries,Fallible.bind_ok,Fallible.mapError_ok,Fallible.pure_ok] at h
    obtain ⟨home,hhome,bytes,hbytes,-,-,-,-,-,-,plan,hplan,rfl⟩ := h
    obtain ⟨hlen,hrest⟩ := ih hplan
    refine ⟨by simp [hlen],?_⟩
    intro j e' he
    cases j with
    | zero =>
      obtain rfl : e = e' := by simpa using he
      exact ⟨(home,bytes),rfl,hhome,hbytes⟩
    | succ j =>
      obtain ⟨item,hitem,hh⟩ := hrest j e' (by simpa using he)
      rw [show i + 1 + j = i + (j + 1) by omega] at hh
      exact ⟨item,by simpa using hitem,hh⟩

theorem Home.unique {i : Nat} {e : BundleEntry} {item item' : Murl × Bytes}
    (h : Home app bundle asName i e item) (h' : Home app bundle asName i e item') :
    item = item' :=
  Prod.ext (Except.ok.inj (h.home.symm.trans h'.home))
    (Except.ok.inj (h.decoded.symm.trans h'.decoded))

theorem homes_installed {plan : List (Murl × Bytes)} {store' : Store}
    (h : planEntries app bundle asName 0 [] bundle.entries = .ok plan) :
    (∀ i e, bundle.entries[i]? = some e →
      ∃ item, Home app bundle asName i e item ∧ app.held store' item.1 = some item.2) ↔
    ∀ w ∈ placements app plan, FileTree.stored store' w.1 = some w.2 := by
  obtain ⟨hlen,hhomes⟩ := planEntries_homes h
  constructor
  · intro hall w hw
    obtain ⟨item,hitem,rfl⟩ := List.mem_map.mp hw
    obtain ⟨j,hj,rfl⟩ := List.mem_iff_getElem.mp hitem
    have hj' : j < bundle.entries.length := by omega
    have he : bundle.entries[j]? = some bundle.entries[j] := List.getElem?_eq_getElem hj'
    obtain ⟨item,hhere,hheld⟩ := hall j _ he
    obtain ⟨item',hitem',hhome⟩ := hhomes j _ he
    rw [Nat.zero_add] at hhome
    obtain rfl := hhere.unique hhome
    rw [List.getElem?_eq_getElem hj] at hitem'
    obtain rfl := Option.some.inj hitem'
    exact hheld
  · intro hall i e he
    obtain ⟨item,hitem,hhome⟩ := hhomes i e he
    rw [Nat.zero_add] at hhome
    exact ⟨item,hhome,hall _ (List.mem_map.mpr ⟨item,List.mem_of_getElem? hitem,rfl⟩)⟩

theorem vacant_ok {plan : List (Murl × Bytes)} :
    (if force then .ok () else plan.forM (checkVacant app store) : Except Stop Unit) = .ok () ↔
      (force = false → ∀ item ∈ plan, store (item.1.storeKey app.fold) = none) := by
  have hvacant (item : Murl × Bytes) : checkVacant app store item = .ok () ↔
      store (item.1.storeKey app.fold) = none := by
    unfold checkVacant FileTree.exist
    cases store (item.1.storeKey app.fold) <;> simp
  cases force with
  | true => simp
  | false => simp only [Bool.false_eq_true,if_false,forall_const,Fallible.forM_ok,hvacant]

theorem importFile_accepted {file : String} {bytes : Bytes} (read : app.files file = .ok bytes)
    (accepted : Bundle.fromSlice app.crates app.limits bytes = .ok bundle) :
    importFile app vol file asName force store = importBundle app vol bundle asName force store := by
  simp only [importFile,read,accepted]

theorem AllOrNothing.untouched (stop : Stop) :
    AllOrNothing app bundle asName force store (.error stop,store) := by
  refine ⟨?_,nofun,nofun⟩
  intro stop' store' he m
  cases he
  rfl

theorem importBundle_stopped {stop : Stop}
    (h : planEntries app bundle asName 0 [] bundle.entries = .error stop) :
    importBundle app vol bundle asName force store = (.error stop,store) := by
  simp only [importBundle,h]

theorem importBundle_occupied {plan : List (Murl × Bytes)} {stop : Stop}
    (h : planEntries app bundle asName 0 [] bundle.entries = .ok plan)
    (hocc : (if force then .ok () else plan.forM (checkVacant app store) : Except Stop Unit) =
      .error stop) : importBundle app vol bundle asName force store = (.error stop,store) := by
  simp only [importBundle,h,hocc]

theorem importBundle_placed {plan : List (Murl × Bytes)}
    (h : planEntries app bundle asName 0 [] bundle.entries = .ok plan)
    (hvac : force = false → ∀ item ∈ plan, store (item.1.storeKey app.fold) = none) :
    importBundle app vol bundle asName force store =
      match FileTree.installAll vol (placements app plan) store with
      | (.ok _,store) => (.ok (plan.map fun item => item.1.identity),store)
      | (.error why,store) => (.error (.failed (.io why)),store) := by
  unfold importBundle
  rw [h]
  dsimp only
  rewrite [vacant_ok.mpr hvac]
  rfl

theorem placed_iff {plan : List (Murl × Bytes)}
    (h : planEntries app bundle asName 0 [] bundle.entries = .ok plan)
    (hvac : force = false → ∀ item ∈ plan, store (item.1.storeKey app.fold) = none) :
    AllOrNothing app bundle asName force store
        (importBundle app vol bundle asName force store) ↔
      FileTree.Spared vol store (placements app plan) := by
  have hnames : ∀ w ∈ placements app plan, Named app w.1 := by
    intro w hw
    obtain ⟨item,-,rfl⟩ := List.mem_map.mp hw
    exact ⟨item.1,rfl⟩
  rw [importBundle_placed h hvac,← FileTree.spared_iff hnames]
  cases hout : FileTree.installAll vol (placements app plan) store with
  | mk res store' =>
    cases res with
    | error why =>
      constructor
      · intro hatomic
        refine ⟨?_,nofun⟩
        rintro why' store'' he q ⟨m,rfl⟩
        cases he
        exact hatomic.nothing _ store' rfl m
      · rintro ⟨hsame,-⟩
        refine ⟨?_,nofun,nofun⟩
        intro stop store'' he m
        cases he
        exact hsame why store' rfl _ ⟨m,rfl⟩
    | ok u =>
      constructor
      · intro hatomic
        refine ⟨nofun,?_⟩
        intro store'' he
        cases he
        exact (homes_installed h).mp (hatomic.all _ store' rfl)
      · rintro ⟨-,hall⟩
        refine ⟨nofun,?_,?_⟩
        · intro installed store'' he
          cases he
          exact (homes_installed h).mpr (hall store' rfl)
        · intro installed store'' he hforce m b hheld
          cases he
          have hstored := FileTree.installAll_stored hout (m.storeKey app.fold)
          have hlast : FileTree.last (placements app plan) (m.storeKey app.fold) = none := by
            refine FileTree.last_none.mpr fun w hw hkey => ?_
            obtain ⟨item,hitem,rfl⟩ := List.mem_map.mp hw
            have hnone : store (m.storeKey app.fold) = none := hkey ▸ hvac hforce item hitem
            rw [App.held,FileTree.stored,hnone] at hheld
            cases hheld
          rw [hlast,Option.none_or] at hstored
          exact hstored.trans hheld

theorem import_all_or_nothing (app : App) (vol : Volume) (file : String) (bytes : Bytes)
    (bundle : Bundle) (asName : Option String) (force : Bool) (store : Store)
    (read : app.files file = .ok bytes)
    (accepted : Bundle.fromSlice app.crates app.limits bytes = .ok bundle) :
    AllOrNothing app bundle asName force store (importFile app vol file asName force store) ↔
      Spareable app vol bundle asName force store := by
  rw [importFile_accepted read accepted]
  cases hplan : planEntries app bundle asName 0 [] bundle.entries with
  | error stop =>
    rw [importBundle_stopped hplan]
    refine iff_of_true (.untouched stop) ?_
    intro plan he
    rw [hplan] at he
    cases he
  | ok plan =>
    cases hocc : (if force then .ok () else plan.forM (checkVacant app store) :
        Except Stop Unit) with
    | error stop =>
      rw [importBundle_occupied hplan hocc]
      refine iff_of_true (.untouched stop) ?_
      intro plan' he hvac
      rw [hplan] at he
      cases he
      rw [vacant_ok.mpr hvac] at hocc
      cases hocc
    | ok u =>
      have hvac := vacant_ok.mp hocc
      rw [placed_iff hplan hvac]
      constructor
      · intro hspared plan' he _
        rw [hplan] at he
        cases he
        exact hspared
      · intro hspare
        exact hspare plan hplan hvac

end Import

section Collision

def openVolume : Volume := ⟨fun _ => none,fun _ _ => none⟩

def emptyNames : Store := fun _ => none

def fileEntry : BundleEntry := slimEntry (some "murl://a.com/x") "a"

def underEntry : BundleEntry := slimEntry (some "murl://a.com/x.murl.json/y") "a"

def collidingBundle : Bundle :=
  ⟨MurlSystem.bundleVersion,some "murl://a.com/x",[fileEntry,underEntry]⟩

def collidingApp : App :=
  ⟨bundlingCrates,{},id,fun _ => .ok collidingBundle.toJsonBytes⟩

def fileHome : Murl := ⟨.local,["x"],.latest,none,none⟩

def underHome : Murl := ⟨.local,["x.murl.json","y"],.latest,none,none⟩

theorem collidingBundle_fits :
    collidingBundle.printedSize ≤ bundleCap collidingApp.limits := by
  have hversion : textSize MurlSystem.bundleVersion = 5 := rfl
  have hfile : textSize "murl://a.com/x" = 16 := rfl
  have hunder : textSize "murl://a.com/x.murl.json/y" = 28 := rfl
  have hname : textSize "a" = 3 := rfl
  have hcap : 656 ≤ bundleCap collidingApp.limits := by decide
  have hprinted : collidingBundle.printedSize = 55 + textSize MurlSystem.bundleVersion +
      textSize "murl://a.com/x" + (fileEntry.printedSize + underEntry.printedSize) :=
    pair_printed rfl rfl rfl
  rw [hprinted,fileEntry,underEntry,slimEntry_named,slimEntry_named,hversion,hfile,hunder,hname]
  exact hcap

theorem collidingBundle_accepted :
    Bundle.fromSlice collidingApp.crates collidingApp.limits collidingBundle.toJsonBytes =
      .ok collidingBundle := by
  refine (fromSlice_printed bundlingCrates_serde (by simp [collidingBundle])).mpr
    ⟨collidingBundle_fits,?_⟩
  · refine ⟨rfl,by simp [collidingBundle],by decide,?_,?_,?_,?_⟩
    · intro e he
      have hroom : 93 ≤ ({} : Limits).maxManifestBytes := by decide
      simp only [collidingBundle,List.mem_cons,List.not_mem_nil,or_false] at he
      rcases he with rfl | rfl
      · exact ⟨_,_,slimEntry_carried hroom _ _⟩
      · exact ⟨_,_,slimEntry_carried hroom _ _⟩
    · have hids : collidingBundle.entries.filterMap BundleEntry.identity =
          ["murl://a.com/x","murl://a.com/x.murl.json/y"] := rfl
      rw [hids,List.forall_mem_cons,List.forall_mem_singleton]
      exact ⟨⟨⟨.remote "a.com" none,["x"],.latest,none,none⟩,by decide +kernel,by decide +kernel⟩,
        ⟨⟨.remote "a.com" none,["x.murl.json","y"],.latest,none,none⟩,by decide +kernel,
          by decide +kernel⟩⟩
    · decide +kernel
    · intro root hroot
      cases hroot
      exact List.mem_cons_self

theorem collidingBundle_plan : planEntries collidingApp collidingBundle none 0 []
    collidingBundle.entries =
      .ok [(fileHome,published slimManifest),(underHome,published slimManifest)] := by
  have hroom : 93 ≤ ({} : Limits).maxManifestBytes := by decide
  have hfile : Carried collidingApp.crates collidingApp.limits fileEntry (published slimManifest)
      slim := slimEntry_carried hroom _ _
  have hunder : Carried collidingApp.crates collidingApp.limits underEntry
      (published slimManifest) slim := slimEntry_carried hroom _ _
  have hhome : homeOf collidingBundle none 0 fileEntry = .ok fileHome := by decide +kernel
  have hhome' : homeOf collidingBundle none 1 underEntry = .ok underHome := by decide +kernel
  have hdecode : fileEntry.decode collidingApp.crates collidingApp.limits =
      .ok (published slimManifest) := decode_ok.mpr ⟨hfile.decoded,hfile.small⟩
  have hdecode' : underEntry.decode collidingApp.crates collidingApp.limits =
      .ok (published slimManifest) := decode_ok.mpr ⟨hunder.decoded,hunder.small⟩
  have hanon (e : BundleEntry) (home : Murl) : checkHome e home slim.doc = .ok () := rfl
  have hclaim : checkClaimed [(fileHome.identity,fileEntry.identity.getD fileEntry.name)] underEntry
      underHome = .ok () := by decide +kernel
  have hentries : collidingBundle.entries = [fileEntry,underEntry] := rfl
  simp only [hentries,planEntries,Fallible.bind_ok,Fallible.mapError_ok,Fallible.pure_ok]
  exact ⟨fileHome,hhome,_,hdecode,slim,hfile.parsed,(),hanon _ _,(),rfl,_,
    ⟨underHome,hhome',_,hdecode',slim,hunder.parsed,(),hanon _ _,(),hclaim,_,rfl,rfl⟩,rfl⟩

theorem import_keeps_half :
    Bundle.fromSlice collidingApp.crates collidingApp.limits collidingBundle.toJsonBytes =
        .ok collidingBundle ∧
      ∃ stop store', importFile collidingApp openVolume "b.json" none false emptyNames =
          (.error stop,store') ∧
        collidingApp.held emptyNames fileHome = none ∧
        collidingApp.held store' fileHome = some (published slimManifest) := by
  refine ⟨collidingBundle_accepted,?_⟩
  have hfile : fileHome.storeKey collidingApp.fold = ["x.murl.json"] := by decide +kernel
  have hunder : underHome.storeKey collidingApp.fold = ["x.murl.json","y.murl.json"] := by
    decide +kernel
  rw [importFile_accepted rfl collidingBundle_accepted,
    importBundle_placed collidingBundle_plan (fun _ _ _ => rfl)]
  simp only [placements,List.map_cons,List.map_nil,hfile,hunder,App.held]
  exact ⟨_,_,rfl,rfl,rfl⟩

def loneApp : App := ⟨bundlingCrates,slimLimits,id,fun _ => .ok (slimBundle "a").toJsonBytes⟩

theorem spared_alone (store : Store) (k : List String) (b : Bytes) :
    FileTree.Spared openVolume store [(k,b)] := by
  have halone {pre post : List (List String × Bytes)} {w : List String × Bytes}
      (he : [(k,b)] = pre ++ w :: post) : pre = [] := by
    cases pre with
    | nil => rfl
    | cons x pre => simp at he
  refine ⟨?_,nofun,?_⟩
  · intro pre k' b' post he _ _
    rw [halone he]
    exact nofun
  · intro _ w hw
    rw [List.mem_singleton.mp hw]
    exact (FileTree.last_snoc [] k).trans (if_pos rfl)

theorem import_alone : AllOrNothing loneApp (slimBundle "a") (some "mine") false emptyNames
    (importFile loneApp openVolume "b.json" (some "mine") false emptyNames) := by
  have haccepted : Bundle.fromSlice loneApp.crates loneApp.limits (slimBundle "a").toJsonBytes =
      .ok (slimBundle "a") := by
    refine (fromSlice_printed bundlingCrates_serde (by simp [slimBundle])).mpr
      ⟨?_,slimBundle_checked "a"⟩
    rw [slimBundle_pretty]
    decide
  refine (import_all_or_nothing loneApp openVolume "b.json" _ (slimBundle "a") (some "mine") false
    emptyNames rfl haccepted).mpr ?_
  intro plan hplan _
  obtain ⟨hlen,-⟩ := planEntries_homes hplan
  obtain ⟨item,rfl⟩ := List.length_eq_one_iff.mp hlen
  exact spared_alone emptyNames _ _

end Collision

end MurlSystem

import MurlSystem.Cli.Directory
import MurlSystem.Resolution.Replay

namespace MurlSystem

open Program

def AllLocal (res : Resolution) : Prop := ∀ node ∈ res.nodes, ∃ path, node.origin = .localStore path

def movedLeeway : Leeway :=
  ⟨fun origin origin' => ∀ path, origin = .localStore path → ∃ path', origin' = .localStore path',
    False,fun _ => True⟩

structure Rebuilds (app : App) (env : Env) (res : Resolution) (b : Bundle) (store : Store) :
    Prop where
  root : ∃ root target, b.root = some root ∧ Murl.parse root = .ok target ∧
    ∀ names, Backs app.fold store names → ∀ remote cache clock before, ∃ res' r',
      resolve (env.sited names remote cache clock) target (Run.start before) = .ok res' r' ∧
        SameResolution movedLeeway res res'

section Homes

variable {app : App} {fold : String → String} {store : Store} {env : Env} {names : LocalStore}
  {m : Murl} {b : Bytes} {node : ResolvedNode}

theorem storeKey_congr {n : Murl} (hname : n.name = m.name)
    (hversion : Syntax.printedVersion n.version = Syntax.printedVersion m.version)
    (fold : String → String) : n.storeKey fold = m.storeKey fold := by
  unfold Murl.storeKey
  rw [hname]
  cases hn : n.version with
  | latest =>
    cases hm : m.version with
    | latest => rfl
    | pinned v => simp [hn,hm,Syntax.printedVersion] at hversion
  | pinned u =>
    cases hm : m.version with
    | latest => simp [hn,hm,Syntax.printedVersion] at hversion
    | pinned v =>
      have htext : VersionTag.toString (.pinned u) = VersionTag.toString (.pinned v) := by
        simpa [hn,hm,Syntax.printedVersion,String.toList_inj] using hversion
      dsimp only
      rw [htext]

theorem Backs.reads (h : Backs fold store names) (atHome : m.authority = .local)
    (hcanon : Canonical m.identity) : names.files (names.manifestPath m) = .bytes b ↔
      FileTree.stored store (m.storeKey fold) = some b := by
  obtain ⟨p,hp,hsame⟩ := hcanon
  obtain ⟨-,hname,hversion⟩ := Syntax.identity_unique hp atHome hsame
  have hpath : names.manifestPath p = names.manifestPath m := by
    rw [manifestPath_key,manifestPath_key,storeKey_congr hname hversion]
  rw [← hpath,← storeKey_congr hname hversion fold]
  exact h m.identity p b hp

theorem Backs.load (h : Backs fold store names) (atHome : m.authority = .local)
    (hcanon : Canonical m.identity) : (∃ path, names.load m = .ok (b,path)) ↔
      FileTree.stored store (m.storeKey fold) = some b := by
  rw [← h.reads atHome hcanon]
  unfold LocalStore.load
  dsimp only
  cases names.files (names.manifestPath m) <;> simp

structure Homed (fold : String → String) (store : Store) (m : Murl) (node : ResolvedNode) :
    Prop where
  authority : m.authority = .local
  identity : node.identity = some m.identity
  canonical : Canonical m.identity
  stored : FileTree.stored store (m.storeKey fold) = some node.rawBytes
  bound : ∀ declared, node.manifest.doc.id = some declared → Bound m declared

theorem Gauntlet.homed {murl : Option Murl} (h : Gauntlet env murl node) {path : String}
    (horigin : node.origin = .localStore path) (backs : Backs fold store env.localStore)
    (hcanon : ∀ s, node.identity = some s → Canonical s) :
    ∃ m, Homed fold store m node := by
  obtain ⟨hid,hsupplied,-,-,-,-,-,-,-,hbound⟩ := h
  generalize hread : node.rawBytes = bytes at hsupplied
  rw [horigin] at hsupplied
  cases hsupplied with
  | store m path bytes atHome loaded =>
    have atHome := isLocal_eq atHome
    refine ⟨m,atHome,hid,hcanon _ hid,?_,fun declared hd => hbound m declared rfl hd⟩
    rw [hread]
    exact (backs.load atHome (hcanon _ hid)).mp ⟨path,loaded⟩

def entryOf (crates : Crates) (node : ResolvedNode) : BundleEntry :=
  ⟨node.identity,node.manifest.doc.name,makeIntegrity crates node.rawBytes,
    crates.base64Encode node.rawBytes⟩

structure Settled (node : ResolvedNode) (item : Murl × Bytes) : Prop where
  bytes : item.2 = node.rawBytes
  identity : node.identity = some item.1.identity
  key : ∀ m : Murl, m.authority = .local → node.identity = some m.identity →
    ∀ fold, item.1.storeKey fold = m.storeKey fold

theorem homeOf_entry {bundle : Bundle} {i : Nat} {e : BundleEntry} {s : String} {p : Murl}
    (hid : e.identity = some s) (hp : Murl.parse s = .ok p) :
    homeOf bundle none i e = .ok ⟨.local,p.name,p.version,none,none⟩ := by
  unfold homeOf
  rw [hid]
  cases isRootEntry bundle i e <;> simp only [hp] <;> rfl

theorem Homed.planned (h : Homed fold store m node) (bundle : Bundle) (i : Nat) (e : BundleEntry) (hid : e.identity = node.identity) :
    ∃ home, homeOf bundle none i e = .ok home ∧ checkHome e home node.manifest.doc = .ok () ∧
      Settled node (home,node.rawBytes) := by
  obtain ⟨p,hp,hsame⟩ := h.canonical
  obtain ⟨hlocal,hname,hversion⟩ := Syntax.identity_unique hp h.authority hsame
  refine ⟨⟨.local,p.name,p.version,none,none⟩,homeOf_entry (hid.trans h.identity) hp,?_,rfl,?_,?_⟩
  · unfold checkHome
    cases hdeclared : node.manifest.doc.id with
    | none => rfl
    | some declared =>
      obtain ⟨d,hd,hauth,hdname,-⟩ := (h.bound declared hdeclared).parsed
      rw [h.authority] at hauth
      rw [← hname] at hdname
      simp [hd,hauth,hdname,Except.mapError,bind,Except.bind,pure,Except.pure]
  · rw [h.identity,← hsame]
    exact congrArg some (Syntax.identity_congr (by rw [hlocal]))
  · intro n hn hnode fold
    have hother := hsame.trans (Option.some.inj (h.identity.symm.trans hnode))
    obtain ⟨-,hname',hversion'⟩ := Syntax.identity_unique hp hn hother
    exact storeKey_congr hname' hversion' fold

structure Ready (app : App) (fold : String → String) (store : Store) (node : ResolvedNode) :
    Prop where
  homed : ∃ m, Homed fold store m node
  carried : Carried app.crates app.limits (entryOf app.crates node) node.rawBytes node.manifest

theorem planEntries_settled (bundle : Bundle) {nodes : List ResolvedNode}
    (hready : ∀ node ∈ nodes, Ready app fold store node)
    (hdistinct : (nodes.filterMap ResolvedNode.identity).Nodup) (i : Nat)
    (claimed : List (String × String))
    (hfree : ∀ s ∈ nodes.filterMap ResolvedNode.identity, claimed.lookup s = none) :
    ∃ plan, planEntries app bundle none i claimed (nodes.map (entryOf app.crates)) = .ok plan ∧
      List.Forall₂ Settled nodes plan := by
  induction nodes generalizing i claimed with
  | nil => exact ⟨[],rfl,.nil⟩
  | cons node rest ih =>
    obtain ⟨⟨⟨m,hhomed⟩,hcarried⟩,hrest⟩ := List.forall_mem_cons.mp hready
    obtain ⟨home,hhome,hcheck,hsettled⟩ :=
      hhomed.planned bundle i (entryOf app.crates node) rfl
    rw [List.filterMap_cons,hsettled.identity] at hdistinct hfree
    obtain ⟨hnew,hdistinct⟩ := List.nodup_cons.mp hdistinct
    obtain ⟨hhere,hfree⟩ := List.forall_mem_cons.mp hfree
    have hclaimed : checkClaimed claimed (entryOf app.crates node) home = .ok () := by
      simp only [checkClaimed,hhere]
    obtain ⟨plan,hplan,hall⟩ := ih hrest hdistinct (i + 1)
      ((home.identity,(entryOf app.crates node).identity.getD (entryOf app.crates node).name) ::
        claimed) (by
      intro s hs
      have hne : s ≠ home.identity := fun he => hnew (he ▸ hs)
      rw [List.lookup_cons,beq_false_of_ne hne]
      exact hfree s hs)
    refine ⟨(home,node.rawBytes) :: plan,?_,.cons hsettled hall⟩
    simp only [List.map_cons,planEntries,Fallible.bind_ok,Fallible.mapError_ok,Fallible.pure_ok]
    exact ⟨home,hhome,node.rawBytes,decode_ok.mpr ⟨hcarried.decoded,hcarried.small⟩,node.manifest,
      hcarried.parsed,(),hcheck,(),hclaimed,plan,hplan,rfl⟩

theorem stored_file {t : Store} {k : List String} :
    FileTree.stored t k = some b ↔ t k = some (.file b) := by
  unfold FileTree.stored
  split
  · rename_i hk
    rw [hk]
    simp
  · rename_i hk
    constructor
    · nofun
    · intro h
      exact absurd h (hk b)

theorem storeKey_map (m : Murl) (fold coarser : String → String) :
    (m.storeKey fold).map coarser = m.storeKey (coarser ∘ fold) := List.map_map

def Stands (fold : String → String) (store : Store) (nodes : List ResolvedNode) : Prop :=
  ∀ node ∈ nodes, ∀ m : Murl, m.authority = .local → node.identity = some m.identity →
    FileTree.stored store (m.storeKey fold) = some node.rawBytes

theorem import_settled {vol : Volume} {bundle : Bundle} {nodes : List ResolvedNode} {dest : Store}
    {coarser : String → String} (force : Bool) (rooted : FileTree.Rooted store)
    (empty : FileTree.Empty dest) (takes : vol.Takes (FileTree.through coarser store))
    (hentries : bundle.entries = nodes.map (entryOf app.crates))
    (hready : ∀ node ∈ nodes, Ready app (coarser ∘ app.fold) store node)
    (hdistinct : (nodes.filterMap ResolvedNode.identity).Nodup) :
    ∃ installed dest', importBundle app vol bundle none force dest = (.ok installed,dest') ∧
      Stands app.fold dest' nodes := by
  obtain ⟨plan,hplan,hall⟩ := planEntries_settled bundle hready hdistinct 0 [] (fun _ _ => rfl)
  rw [← hentries] at hplan
  have hfiles : ∀ w ∈ placements app plan,
      w.1 ≠ [] ∧ FileTree.through coarser store w.1 = some (.file w.2) := by
    intro w hw
    obtain ⟨item,hitem,rfl⟩ := List.mem_map.mp hw
    obtain ⟨node,hnode,hsettled⟩ := Fallible.forall₂_mem hall.flip item hitem
    obtain ⟨m,hhomed⟩ := (hready node hnode).homed
    have hstored := hhomed.stored
    rw [← hsettled.key m hhomed.authority hhomed.identity,← hsettled.bytes,← storeKey_map] at hstored
    exact ⟨storeKey_ne_nil item.1 app.fold,stored_file.mp hstored⟩
  obtain ⟨dest',hout,hstored⟩ := FileTree.installAll_copies empty (rooted.through coarser) takes hfiles
  refine ⟨plan.map fun item => item.1.identity,dest',?_,?_⟩
  · have hvacant : force = false → ∀ item ∈ plan, dest (item.1.storeKey app.fold) = none :=
      fun _ item _ => empty.below _ (storeKey_ne_nil item.1 app.fold)
    rw [importBundle_placed hplan hvacant,hout]
  · intro node hnode m hm hid
    obtain ⟨item,hitem,hsettled⟩ := Fallible.forall₂_mem hall node hnode
    rw [← hsettled.key m hm hid,← hsettled.bytes]
    exact hstored _ (List.mem_map_of_mem hitem)

end Homes

theorem Installs.rooted {app : App} {good : List Murl → List (Murl × Bytes) → Prop}
    {names : List Murl} {store : Store} (h : Installs app good names store) :
    FileTree.Rooted store := by
  induction h with
  | fresh => exact FileTree.rooted_empty
  | next names items store store' before command allowed ih =>
    obtain ⟨vol,hout⟩ := command.placed
    have hrooted : FileTree.Rooted (FileTree.installAll vol (placements app items) store).2 :=
      FileTree.installAll_rooted ih
    rwa [hout] at hrooted

section Moved

variable {app : App} {fold : String → String} {store : Store} {env : Env} {names : LocalStore}
  {remote : Option (List String → String → Except Error Bytes)}
  {cache : Option (Nat → Option PutFault)} {clock : Nat → Nat} {m m' : Murl} {b : Bundle}
  {res : Resolution} {r : Run}

theorem resolve_root {before : Cache} (h : resolve env m (Run.start before) = .ok res r) :
    res.nodes.head?.bind ResolvedNode.identity = some m.identity := by
  unfold resolve at h
  obtain ⟨_,s₁,hpush,h⟩ := bind_eq_ok.mp h
  cases hpush
  obtain ⟨_,s₂,hread,h⟩ := bind_eq_ok.mp h
  obtain ⟨_,s₃,hpop,h⟩ := bind_eq_ok.mp h
  cases hpop
  obtain ⟨_,s₄,hget,h⟩ := bind_eq_ok.mp h
  cases hget
  obtain ⟨hfinish,-⟩ := fromExcept_eq_ok.mp h
  obtain ⟨hnodes,-,-⟩ := finish_ok hfinish
  obtain ⟨node,⟨rest,hrest⟩,hid⟩ := ingestNamed_pushes hread
  have hhead : res.nodes = node :: rest := hnodes.trans hrest.symm
  rw [hhead]
  exact hid

theorem fromResolution_ok {crates : Crates} (h : Bundle.fromResolution crates res = .ok b) :
    b.bundleVersion = MurlSystem.bundleVersion ∧
      b.root = res.nodes.head?.bind ResolvedNode.identity ∧
      b.entries = res.nodes.map (entryOf crates) := by
  unfold Bundle.fromResolution at h
  split at h
  · cases h
  · cases h
    exact ⟨rfl,rfl,rfl⟩

theorem bundled_canonical (bundled : Bundle.fromResolution app.crates res = .ok b)
    (checked : Checked app.crates app.limits b) :
    ∀ node ∈ res.nodes, ∀ s, node.identity = some s → Canonical s := by
  intro node hnode s hid
  refine checked.identities s ?_
  rw [(fromResolution_ok bundled).2.2]
  exact List.mem_filterMap.mpr ⟨_,List.mem_map_of_mem hnode,hid⟩

theorem found_moved {z : List ResolvedNode}
    (hlocal : ∀ node ∈ z, ∃ path, node.origin = .localStore path)
    (hcanon : ∀ node ∈ z, ∀ s, node.identity = some s → Canonical s)
    (hstands : Stands fold store z) (backs : Backs fold store names)
    (hbare : Syntax.bare m' = Syntax.bare m) (parent : Option Nat) :
    Found movedLeeway env (env.sited names remote cache clock) z parent m m' := by
  rintro s t s' bytes origin h hgot ⟨node,hnode,hid,horigin,rfl⟩
  obtain ⟨path,hpath⟩ := hlocal node hnode
  obtain rfl := horigin.symm.trans hpath
  have atHome : m.authority.isLocal = true := (locate_ok hgot).2
  have hhome := isLocal_eq atHome
  have hload : names.load (Syntax.bare m') = names.load (Syntax.bare m) :=
    congrArg names.load hbare
  have hauth : (Syntax.bare m').authority = (Syntax.bare m).authority :=
    congrArg Murl.authority hbare
  have atHome' : m'.authority.isLocal = true := by
    rw [show m'.authority = m.authority from hauth]
    exact atHome
  obtain ⟨path',hthere⟩ := (backs.load hhome (hcanon node hnode _ hid)).mpr
    (hstands node hnode m hhome hid)
  obtain ⟨_,-,-,rfl⟩ := (locate_home atHome).mp hgot
  refine ⟨.localStore path',t.access ⟨parent,m'.unselected,.load⟩,
    (locate_home atHome').mpr ⟨path',hload.trans hthere,rfl,rfl⟩,?_,⟨rfl,rfl,fun _ => rfl⟩,
    fun _ _ => ⟨_,rfl⟩⟩
  exact ⟨h.nodes,h.resources,h.stack,h.visited,h.dedup,h.manifests,h.cache⟩

theorem resolved_ready (base64 : ∀ b, app.crates.base64Decode (app.crates.base64Encode b) = .ok b)
    (sameCrates : env.crates = app.crates) (sameLimits : env.limits = app.limits)
    (backs : Backs fold store env.localStore) {before : Cache}
    (resolved : resolve env m (Run.start before) = .ok res r) (atHome : AllLocal res)
    (bundled : Bundle.fromResolution app.crates res = .ok b)
    (checked : Checked app.crates app.limits b) : ∀ node ∈ res.nodes, Ready app fold store node := by
  have hrun : resolveRef env (.murl m) (Run.start before) = .ok res r := resolved
  obtain ⟨hfinished,hfinish⟩ := resolveRef_ok hrun
  obtain ⟨hnodes,-,-⟩ := finish_ok hfinish
  intro node hnode
  have hscreened := hfinished.screened.flip
  rw [← hnodes] at hscreened
  obtain ⟨call,-,hgauntlet⟩ := Fallible.forall₂_mem hscreened node hnode
  obtain ⟨path,horigin⟩ := atHome node hnode
  obtain ⟨m,hhomed⟩ := hgauntlet.homed horigin backs (bundled_canonical bundled checked node hnode)
  exact ⟨⟨m,hhomed⟩,node_carried base64 hgauntlet sameCrates sameLimits⟩

theorem resolved_accepted {f64 : List Char → Option String}
    (serde : Serde.Tokenises app.crates f64)
    (base64 : ∀ b, app.crates.base64Decode (app.crates.base64Encode b) = .ok b)
    (sameCrates : env.crates = app.crates) (sameLimits : env.limits = app.limits) {text : String}
    (parsed : Murl.parse text = .ok m) {before : Cache}
    (resolved : resolve env m (Run.start before) = .ok res r)
    (bundled : Bundle.fromResolution app.crates res = .ok b) :
    Bundle.fromSlice app.crates app.limits b.toJsonBytes = .ok b ↔
      b.printedSize ≤ bundleCap app.limits := by
  have hrun : resolveRef env (.murl m) (Run.start before) = .ok res r := resolved
  have hroot : ∀ root, b.root = some root → Canonical root := by
    intro root hroot
    rw [(fromResolution_ok bundled).2.1,resolve_root resolved] at hroot
    obtain rfl := Option.some.inj hroot
    exact parsed_canonical parsed
  have hchecked := resolved_checked base64 sameCrates sameLimits hrun bundled hroot
  rw [fromSlice_printed serde hchecked.carries]
  exact and_iff_left hchecked

theorem export_import_preserves (app : App) (f64 : List Char → Option String)
    (serde : Serde.Tokenises app.crates f64)
    (base64 : ∀ b, app.crates.base64Decode (app.crates.base64Encode b) = .ok b)
    (coarser : String → String) (store : Store) (rooted : FileTree.Rooted store) (env : Env)
    (sameCrates : env.crates = app.crates) (sameLimits : env.limits = app.limits)
    (backs : Backs (coarser ∘ app.fold) store env.localStore) (text : String) (m : Murl)
    (parsed : Murl.parse text = .ok m) (whole : m.selector = none) (before : Cache)
    (res : Resolution) (r : Run) (resolved : resolve env m (Run.start before) = .ok res r)
    (atHome : AllLocal res) (b b' : Bundle)
    (bundled : Bundle.fromResolution app.crates res = .ok b)
    (accepted : Bundle.fromSlice app.crates app.limits b.toJsonBytes = .ok b') (vol : Volume)
    (takes : vol.Takes (FileTree.through coarser store)) (dest : Store)
    (empty : FileTree.Empty dest) (file : String)
    (written : app.files file = .ok b.toJsonBytes) (force : Bool) :
    ∃ installed dest', importFile app vol file none force dest = (.ok installed,dest') ∧
      Rebuilds app env res b' dest' := by
  obtain rfl := fromSlice_same serde accepted
  have hchecked := (fromSlice_iff.mp accepted).2.2
  have hready := resolved_ready base64 sameCrates sameLimits backs resolved atHome bundled hchecked
  have hrun : resolveRef env (.murl m) (Run.start before) = .ok res r := resolved
  obtain ⟨hfinished,hfinish⟩ := resolveRef_ok hrun
  have hnodes : res.nodes = r.st.nodes := (finish_ok hfinish).1
  obtain ⟨-,hroot,hentries⟩ := fromResolution_ok bundled
  obtain ⟨installed,dest',himport,hstored⟩ := import_settled force rooted empty takes hentries
    hready (hfinished.bounded hfinish).identities
  refine ⟨installed,dest',?_,⟨m.identity,Syntax.bare m,hroot.trans (resolve_root resolved),
    Syntax.parse_identity parsed,?_⟩⟩
  · rw [importFile_accepted written accepted]
    exact himport
  · intro names backs' remote cache clock after
    rw [hnodes] at hstored
    have hcanon := bundled_canonical bundled hchecked
    rw [hnodes] at hcanon
    have hlocal : ∀ node ∈ r.st.nodes, ∃ path, node.origin = .localStore path := by
      rw [← hnodes]
      exact atHome
    have htime : SameTime movedLeeway env clock := nofun
    have hloc : Relocates movedLeeway env (env.sited names remote cache clock) r.st.nodes :=
      fun parent m => found_moved hlocal hcanon hstored backs' rfl parent
    have hid : (Syntax.bare m).identity = m.identity := rfl
    have hselector : (Syntax.bare m).selector = m.selector := whole.symm
    refine resolve_again hid hselector ?_ trivial resolved
    intro s t hst
    have hbare : Syntax.bare (Syntax.bare m) = Syntax.bare m := rfl
    exact follows_named hbare (found_moved hlocal hcanon hstored backs' hbare none)
      (fun _ child anchor pin node s t hst =>
        follows_ingestNamed hloc htime hst child 1 anchor pin (some node)) htime hst none none

end Moved

section Pair

def hubPage : Value := manifestValue "Q" [resourceValue "p" "murl" "murl://local/p" none]

def hubDigest : Bytes :=
  [67,150,115,152,145,117,58,228,33,142,39,131,194,149,42,184,208,
    160,217,175,162,25,108,16,207,119,135,204,220,104,37,194]

def pairCrates : Crates := Serde.tokenising Serde.shown
  { bundlingCrates with
    sha256 := fun b => if b == published hubPage then hubDigest else bundlingCrates.sha256 b }

theorem pairCrates_serde : Serde.Tokenises pairCrates Serde.shown :=
  Serde.tokenising_tokenises _ _

theorem pairCrates_base64 (b : Bytes) : pairCrates.base64Decode (pairCrates.base64Encode b) = .ok b :=
  bundlingCrates_base64 b

def pairStore : Store :=
  (FileTree.installAll openVolume [(["p.murl.json"],published slimManifest),
    (["q.murl.json"],published hubPage)] emptyNames).2

def pairEnv : Env :=
  { siteEnv pairCrates [] with localStore := directory "/names" id pairStore }

def hub : Murl := ⟨.local,["q"],.latest,none,none⟩

def exportOf (env : Env) (m : Murl) : Bytes :=
  match resolve env m (Run.start Cache.empty) with
  | .error _ _ => []
  | .ok res _ =>
    match Bundle.fromResolution env.crates res with
    | .error _ => []
    | .ok b => b.toJsonBytes

theorem exportOf_eq {env : Env} {m : Murl} {res : Resolution} {r : Run} {b : Bundle}
    (resolved : resolve env m (Run.start Cache.empty) = .ok res r)
    (bundled : Bundle.fromResolution env.crates res = .ok b) : exportOf env m = b.toJsonBytes := by
  unfold exportOf
  rw [resolved]
  dsimp only
  rw [bundled]

def pairApp : App := ⟨pairCrates,{},id,fun _ => .ok (exportOf pairEnv hub)⟩

def rendered (node : ResolvedNode) : Option String × String × Bytes × Bool :=
  (node.identity,node.manifest.doc.name,node.rawBytes,
    match node.origin with
    | .localStore _ => true
    | _ => false)

def hubNodes : List (Option String × String × Bytes × Bool) :=
  [(some "murl://local/q","Q",published hubPage,true),
   (some "murl://local/p","a",published slimManifest,true)]

theorem hub_resolves : succeeds (do
    let res ← resolve pairEnv hub
    if res.nodes.map rendered = hubNodes then pure () else throw (.io "")) (Run.start Cache.empty) =
      true := by
  simp only [pairEnv,pairCrates,pairStore,bundlingCrates,hubNodes,siteEnv,published_compact]
  decide +kernel

theorem rendered_home {nodes : List ResolvedNode} (h : nodes.map rendered = hubNodes) :
    ∀ node ∈ nodes, ∃ path, node.origin = .localStore path := by
  intro node hnode
  have hmem : rendered node ∈ hubNodes := h ▸ List.mem_map_of_mem hnode
  have hstore : ∀ shown ∈ hubNodes, shown.2.2.2 = true := by
    simp [hubNodes]
  have hlocal := hstore _ hmem
  unfold rendered at hlocal
  cases horigin : node.origin with
  | localStore path => exact ⟨path,rfl⟩
  | localFile path => simp [horigin] at hlocal
  | remote url fromCache => simp [horigin] at hlocal

theorem pairCrates_encode (b : Bytes) :
    pairCrates.base64Encode b = String.ofList (Base64.encode b) := rfl

theorem pairCrates_hash (b : Bytes) : pairCrates.sha256 b =
    if b == published hubPage then hubDigest else bundlingCrates.sha256 b := rfl

theorem hubPage_length : (published hubPage).length = 97 := by
  rw [published_compact]
  decide +kernel

theorem size_hub : textSize (makeIntegrity pairCrates (published hubPage)) = 53 ∧
    textSize (pairCrates.base64Encode (published hubPage)) = 134 := by
  have hdigest : pairCrates.sha256 (published hubPage) = hubDigest := by
    rw [pairCrates_hash,if_pos (beq_self_eq_true _)]
  constructor
  · exact size_makeIntegrity pairCrates_encode (by rw [hdigest]; rfl)
  · rw [pairCrates_encode,textSize_base64,hubPage_length]

theorem size_leaf : textSize (makeIntegrity pairCrates (published slimManifest)) = 53 ∧
    textSize (pairCrates.base64Encode (published slimManifest)) = 126 := by
  have hother : published slimManifest ≠ published hubPage := by
    intro h
    have hlength := congrArg List.length h
    rw [slimManifest_length,hubPage_length] at hlength
    cases hlength
  have hdigest : pairCrates.sha256 (published slimManifest) = slimDigest := by
    rw [pairCrates_hash,if_neg (by simpa using hother),slimManifest_digest]
  constructor
  · exact size_makeIntegrity pairCrates_encode (by rw [hdigest]; rfl)
  · rw [pairCrates_encode,textSize_base64,slimManifest_length]

theorem hub_fits {res : Resolution} {b : Bundle} (h : res.nodes.map rendered = hubNodes)
    (hb : Bundle.fromResolution pairCrates res = .ok b) : b.printedSize ≤ bundleCap pairApp.limits := by
  obtain ⟨hversion,hroot,hentries⟩ := fromResolution_ok hb
  have hcarried : b.entries =
      [⟨some "murl://local/q","Q",makeIntegrity pairCrates (published hubPage),
        pairCrates.base64Encode (published hubPage)⟩,
       ⟨some "murl://local/p","a",makeIntegrity pairCrates (published slimManifest),
        pairCrates.base64Encode (published slimManifest)⟩] := by
    have hshown : res.nodes.map (entryOf pairCrates) = hubNodes.map fun shown => ⟨shown.1,
        shown.2.1,makeIntegrity pairCrates shown.2.2.1,pairCrates.base64Encode shown.2.2.1⟩ := by
      rw [← h,List.map_map]
      rfl
    exact hentries.trans hshown
  have hnamed : b.root = some "murl://local/q" := by
    have hhead := congrArg (fun l => l.head?.bind fun shown => shown.1) h
    rw [hroot]
    rw [List.head?_map,Option.bind_map] at hhead
    exact hhead
  have hplain : textSize MurlSystem.bundleVersion = 5 ∧ textSize "murl://local/q" = 16 ∧
      textSize "murl://local/p" = 16 ∧ textSize "Q" = 3 ∧ textSize "a" = 3 := by decide
  obtain ⟨hv,hq,hp,hQ,ha⟩ := hplain
  have hcap : 652 ≤ bundleCap pairApp.limits := by decide
  rw [pair_printed hversion hnamed hcarried,entry_printed,entry_printed,size_hub.1,size_hub.2,
    size_leaf.1,size_leaf.2,hv,hq,hp,hQ,ha]
  exact hcap

theorem pair_moves : ∃ res r b installed dest',
    resolve pairEnv hub (Run.start Cache.empty) = .ok res r ∧
      Bundle.fromResolution pairCrates res = .ok b ∧
      importFile pairApp openVolume "q.json" none false emptyNames = (.ok installed,dest') ∧
      Rebuilds pairApp pairEnv res b dest' := by
  obtain ⟨_,_,hok⟩ := succeeds_ok hub_resolves
  obtain ⟨res,r,hresolved,hshown⟩ := bind_eq_ok.mp hok
  split at hshown
  · rename_i hnodes
    have hparsed : Murl.parse "murl://local/q" = .ok hub := by decide +kernel
    have hfew : ¬maxBundleEntries < res.nodes.length := by
      have hlen := congrArg List.length hnodes
      rw [List.length_map] at hlen
      rw [hlen]
      decide
    obtain ⟨b,hb⟩ : ∃ b, Bundle.fromResolution pairCrates res = .ok b := by
      unfold Bundle.fromResolution
      rw [if_neg hfew]
      exact ⟨_,rfl⟩
    have hfits : Bundle.fromSlice pairApp.crates pairApp.limits b.toJsonBytes = .ok b ↔
        b.printedSize ≤ bundleCap pairApp.limits :=
      resolved_accepted pairCrates_serde pairCrates_base64 rfl rfl hparsed hresolved hb
    have hread := hfits.mpr (hub_fits hnodes hb)
    have hwritten : exportOf pairEnv hub = b.toJsonBytes := exportOf_eq hresolved hb
    have hrooted : FileTree.Rooted pairStore := FileTree.installAll_rooted FileTree.rooted_empty
    have hbacks : Backs id pairStore pairEnv.localStore :=
      directory_backs ⟨"/name".toList,'s',rfl,by decide⟩
    obtain ⟨installed,dest',himport,hrebuilds⟩ := export_import_preserves pairApp Serde.shown
      pairCrates_serde pairCrates_base64 id pairStore hrooted pairEnv rfl rfl hbacks "murl://local/q"
      hub hparsed rfl Cache.empty res r hresolved (rendered_home hnodes) b b hb hread openVolume
      ⟨fun _ _ => rfl,fun _ _ _ => rfl⟩ emptyNames ⟨fun _ _ => rfl,nofun⟩ "q.json"
      (congrArg Except.ok hwritten) false
    exact ⟨res,r,b,installed,dest',hresolved,hb,himport,hrebuilds⟩
  · cases hshown

end Pair

end MurlSystem

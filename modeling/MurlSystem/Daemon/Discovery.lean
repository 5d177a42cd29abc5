import MurlSystem.Cli.HandlerStore
import MurlSystem.Core.Fetch
import MurlSystem.Core.Policy
import MurlSystem.Foundation.Path
import MurlSystem.Trusting.Saved

namespace MurlSystem

section Config

def readU32 (v : Value) : Except String Nat := do
  let n ← readU64 v
  if n < 2 ^ 32 then return n
  else throw s!"invalid value: integer `{n}`, expected u32"

def limitsMembers : List String :=
  ["maxDepth","maxTotalResources","maxNestedManifests","maxManifestBytes","fetchTimeoutSecs",
    "cacheTtlSecs","dispatchStaggerMs","maxRedirects"]

def Limits.fromValue (v : Value) : Except String Limits := do
  let fallback : Limits := {}
  uniqueFields limitsMembers v
  let field ← structFields limitsMembers v
  let maxDepth ← defaultedField field readU32 fallback.maxDepth "maxDepth"
  let maxTotalResources ← defaultedField field readU64 fallback.maxTotalResources "maxTotalResources"
  let maxNestedManifests ←
    defaultedField field readU64 fallback.maxNestedManifests "maxNestedManifests"
  let maxManifestBytes ← defaultedField field readU64 fallback.maxManifestBytes "maxManifestBytes"
  let fetchTimeoutSecs ← defaultedField field readU64 fallback.fetchTimeoutSecs "fetchTimeoutSecs"
  let cacheTtlSecs ← defaultedField field readU64 fallback.cacheTtlSecs "cacheTtlSecs"
  let dispatchStaggerMs ← defaultedField field readU64 fallback.dispatchStaggerMs "dispatchStaggerMs"
  let maxRedirects ← defaultedField field readU32 fallback.maxRedirects "maxRedirects"
  return ⟨maxDepth,maxTotalResources,maxNestedManifests,maxManifestBytes,fetchTimeoutSecs,
    cacheTtlSecs,dispatchStaggerMs,maxRedirects⟩

def consentMode (name : String) : Except String ConsentMode :=
  match name with
  | "allow" => .ok .allow
  | "prompt" => .ok .prompt
  | "deny" => .ok .deny
  | _ => .error s!"unknown variant `{name}`, expected one of `allow`, `prompt`, `deny`"

-- A unit variant reads as its name, or as an object with its name and `null`.
def ConsentMode.fromValue : Value → Except String ConsentMode
  | .string name => consentMode name
  | .object [(name,.null)] => consentMode name
  | _ => .error "invalid type, expected a variant"

def policyMembers : List String :=
  ["safe","sensitive","dangerous","dangerousRequiresTrust","remoteFilesystemRefs"]

def Policy.fromValue (v : Value) : Except String Policy := do
  let fallback : Policy := {}
  uniqueFields policyMembers v
  let field ← structFields policyMembers v
  let safe ← defaultedField field ConsentMode.fromValue fallback.safe "safe"
  let sensitive ← defaultedField field ConsentMode.fromValue fallback.sensitive "sensitive"
  let dangerous ← defaultedField field ConsentMode.fromValue fallback.dangerous "dangerous"
  let dangerousRequiresTrust ←
    defaultedField field readBool fallback.dangerousRequiresTrust "dangerousRequiresTrust"
  let remoteFilesystemRefs ←
    defaultedField field ConsentMode.fromValue fallback.remoteFilesystemRefs "remoteFilesystemRefs"
  return ⟨safe,sensitive,dangerous,dangerousRequiresTrust,remoteFilesystemRefs⟩

structure UserConfig where
  limits : Option Limits := none
  policy : Option Policy := none

def UserConfig.fromValue (v : Value) : Except String UserConfig := do
  uniqueFields ["limits","policy"] v
  let field ← structFields ["limits","policy"] v
  let limits ← defaultedField field (readOption Limits.fromValue) none "limits"
  let policy ← defaultedField field (readOption Policy.fromValue) none "policy"
  return ⟨limits,policy⟩

def UserConfig.fromSlice (crates : Crates) (b : Bytes) : Except String UserConfig := do
  let v ← crates.serdeJson b
  UserConfig.fromValue v

variable (crates : Crates)

def UserConfig.load (path : String) : FileRead → Except Error UserConfig :=
  loadFile (UserConfig.fromSlice crates) {} fun e => .manifest s!"malformed {path}: {e}"

end Config

section Dirs

inductive Os where
  | windows
  | macos
  | unix (name : String)

def Os.name : Os → String
  | .windows => "windows"
  | .macos => "macos"
  | .unix name => name

def Os.platform : Os → Path.Platform
  | .windows => .windows
  | .macos | .unix _ => .posix

abbrev Vars := String → Option String

structure DirRule where
  label : String
  explicit : String
  xdg : String
  homeSuffix : String
  macSuffix : String
  windowsVar : String
  windowsParts : List String

def configRule : DirRule :=
  ⟨"config","MURL_CONFIG_DIR","XDG_CONFIG_HOME",".config/murl","Library/Application Support/murl",
    "APPDATA",["murl"]⟩

def dataRule : DirRule :=
  ⟨"data","MURL_DATA_DIR","XDG_DATA_HOME",".local/share/murl",
    "Library/Application Support/murl/data","LOCALAPPDATA",["murl","data"]⟩

def cacheRule : DirRule :=
  ⟨"cache","MURL_CACHE_DIR","XDG_CACHE_HOME",".cache/murl","Library/Caches/murl","LOCALAPPDATA",
    ["murl","cache"]⟩

variable (os : Os) (env : Vars)

def joinPath (base : List Char) (p : String) : List Char := Path.push os.platform base p.toList

def homeDir : Option (List Char) :=
  match os with
  | .windows => (env "USERPROFILE").map String.toList
  | .macos | .unix _ => (env "HOME").map String.toList

def envDir (name : String) : Option (List Char) :=
  ((env name).filter fun v => !v.isEmpty).map String.toList

def platformDir (rule : DirRule) (home : Option (List Char)) : Option (List Char) :=
  match os with
  | .windows => (envDir env rule.windowsVar).map fun p => rule.windowsParts.foldl (joinPath os) p
  | .macos => home.map fun h => joinPath os h rule.macSuffix
  | .unix _ =>
    ((envDir env rule.xdg).map fun p => joinPath os p "murl").or
      (home.map fun h => joinPath os h rule.homeSuffix)

def platformConfig : Option (List Char) → Option (List Char) := platformDir os env configRule

def platformData : Option (List Char) → Option (List Char) := platformDir os env dataRule

def platformCache : Option (List Char) → Option (List Char) := platformDir os env cacheRule

structure Dirs where
  config : List Char
  data : List Char
  cache : List Char
deriving DecidableEq

def determined (dir : Option (List Char)) (why : String) : Except Error (List Char) :=
  match dir with
  | some dir => .ok dir
  | none => .error (.io why)

def AppPaths.discover : Except Error Dirs := do
  let home := homeDir os env
  let config ← determined ((envDir env "MURL_CONFIG_DIR").or (platformConfig os env home))
    "cannot determine a config directory; set MURL_CONFIG_DIR"
  let data ← determined ((envDir env "MURL_DATA_DIR").or (platformData os env home))
    "cannot determine a data directory; set MURL_DATA_DIR"
  let cache ← determined ((envDir env "MURL_CACHE_DIR").or (platformCache os env home))
    "cannot determine a cache directory; set MURL_CACHE_DIR"
  return ⟨config,data,cache⟩

def pickDir (explicit xdg homeSuffix : String) (home : Option (List Char)) : Option (List Char) :=
  ((envDir env explicit).or ((envDir env xdg).map fun p => joinPath os p "murl")).or
    (home.map fun h => joinPath os h homeSuffix)

def pick (explicit xdg homeSuffix : String) (home : Option (List Char)) (label : String) :
    Except Error (List Char) :=
  determined (pickDir os env explicit xdg homeSuffix home)
    s!"cannot determine a {label} directory; set MURL_{label.toUpper}_DIR"

def DaemonPaths.discover : Except Error Dirs := do
  let home := homeDir os env
  let config ← pick os env "MURL_CONFIG_DIR" "XDG_CONFIG_HOME" ".config/murl" home "config"
  let data ← pick os env "MURL_DATA_DIR" "XDG_DATA_HOME" ".local/share/murl" home "data"
  let cache ← pick os env "MURL_CACHE_DIR" "XDG_CACHE_HOME" ".cache/murl" home "cache"
  return ⟨config,data,cache⟩

def Dirs.names (dirs : Dirs) : List Char := joinPath os dirs.data "names"

def Dirs.trustFile (dirs : Dirs) : List Char := joinPath os dirs.config "trust.json"

def Dirs.configFile (dirs : Dirs) : List Char := joinPath os dirs.config "config.json"

def Dirs.handlersFile (dirs : Dirs) : List Char := joinPath os dirs.config "handlers.json"

def Dirs.manifests (dirs : Dirs) : List Char := joinPath os dirs.cache "manifests"

end Dirs

section Startup

structure Startup where
  dirs : Dirs
  names : List Char
  manifests : List Char
  limits : Limits
  policy : Policy
  opener : OpenerConfig
  trust : TrustDoc

variable (crates : Crates) (os : Os) (env : Vars) (files : List Char → FileRead)

def loadConfig (dirs : Dirs) : Except Error UserConfig :=
  UserConfig.load crates (String.ofList (dirs.configFile os)) (files (dirs.configFile os))

def loadHandlers (dirs : Dirs) : Except Error HandlersFile :=
  HandlersFile.load crates (String.ofList (dirs.handlersFile os)) (files (dirs.handlersFile os))

def loadTrust (dirs : Dirs) : Except Error TrustDoc :=
  (TrustFile.ofRead crates (String.ofList (dirs.trustFile os)) (files (dirs.trustFile os))).load

def worldOf (dirs : Dirs) (config : UserConfig) (handlers : HandlersFile) (trust : TrustDoc) :
    Startup :=
  ⟨dirs,dirs.names os,dirs.manifests os,config.limits.getD {},config.policy.getD {},
    handlers.toOpener os.name (homeDir os env),trust⟩

def App.init : Except Error Startup := do
  let dirs ← AppPaths.discover os env
  let config ← loadConfig crates os files dirs
  let handlers ← loadHandlers crates os files dirs
  let trust ← loadTrust crates os files dirs
  return worldOf os env dirs config handlers trust

def serve : Except Error Startup := do
  let dirs ← DaemonPaths.discover os env
  let trust ← loadTrust crates os files dirs
  let config ← loadConfig crates os files dirs
  let handlers ← loadHandlers crates os files dirs
  return worldOf os env dirs config handlers trust

def dirRules : List DirRule := [configRule,dataRule,cacheRule]

def cliDir (rule : DirRule) : Option (List Char) :=
  (envDir env rule.explicit).or (platformDir os env rule (homeDir os env))

def daemonDir (rule : DirRule) : Option (List Char) :=
  pickDir os env rule.explicit rule.xdg rule.homeSuffix (homeDir os env)

def Aligned : Prop := ∀ rule ∈ dirRules,cliDir os env rule = daemonDir os env rule

def MacSettled (rule : DirRule) : Prop :=
  (envDir env rule.explicit).isSome ∨
  (envDir env rule.xdg = none ∧ env "HOME" = none) ∨
  ∃ x h,envDir env rule.xdg = some x ∧ env "HOME" = some h ∧
    joinPath .macos x "murl" = joinPath .macos h.toList rule.macSuffix

def Reads (dirs : Dirs) (start : Startup) : Prop :=
  ∃ config handlers trust,loadConfig crates os files dirs = .ok config ∧
    loadHandlers crates os files dirs = .ok handlers ∧
    loadTrust crates os files dirs = .ok trust ∧
    start = worldOf os env dirs config handlers trust

theorem discover_ok {a b c : Option (List Char)} {x y z : String} {dirs : Dirs} :
    (do
      let config ← determined a x
      let data ← determined b y
      let cache ← determined c z
      return (⟨config,data,cache⟩ : Dirs) : Except Error Dirs) = .ok dirs ↔
    a = some dirs.config ∧ b = some dirs.data ∧ c = some dirs.cache := by
  cases dirs with
  | mk config data cache =>
    cases a <;> cases b <;> cases c <;>
      simp [determined,bind,Except.bind,pure,Except.pure]

theorem app_discover {dirs : Dirs} :
    AppPaths.discover os env = .ok dirs ↔ cliDir os env configRule = some dirs.config ∧
      cliDir os env dataRule = some dirs.data ∧ cliDir os env cacheRule = some dirs.cache :=
  discover_ok

theorem daemon_discover {dirs : Dirs} :
    DaemonPaths.discover os env = .ok dirs ↔ daemonDir os env configRule = some dirs.config ∧
      daemonDir os env dataRule = some dirs.data ∧ daemonDir os env cacheRule = some dirs.cache :=
  discover_ok

theorem init_ok {start : Startup} :
    App.init crates os env files = .ok start ↔
      ∃ dirs,AppPaths.discover os env = .ok dirs ∧ Reads crates os env files dirs start := by
  rw [App.init]
  cases AppPaths.discover os env with
  | error e => simp [bind,Except.bind]
  | ok dirs =>
    cases hc : loadConfig crates os files dirs with
    | error e => simp [Reads,hc,bind,Except.bind]
    | ok config =>
      cases hh : loadHandlers crates os files dirs with
      | error e => simp [Reads,hc,hh,bind,Except.bind]
      | ok handlers =>
        cases ht : loadTrust crates os files dirs <;>
          simp [Reads,hc,hh,ht,bind,Except.bind,pure,Except.pure,eq_comm]

theorem serve_ok {start : Startup} :
    serve crates os env files = .ok start ↔
      ∃ dirs,DaemonPaths.discover os env = .ok dirs ∧ Reads crates os env files dirs start := by
  rw [serve]
  cases DaemonPaths.discover os env with
  | error e => simp [bind,Except.bind]
  | ok dirs =>
    cases ht : loadTrust crates os files dirs with
    | error e => simp [Reads,ht,bind,Except.bind]
    | ok trust =>
      cases hc : loadConfig crates os files dirs with
      | error e => simp [Reads,ht,hc,bind,Except.bind]
      | ok config =>
        cases hh : loadHandlers crates os files dirs <;>
          simp [Reads,hc,hh,ht,bind,Except.bind,pure,Except.pure,eq_comm]

theorem Reads.unique {dirs dirs' : Dirs} {start start' : Startup}
    (h : Reads crates os env files dirs start) (h' : Reads crates os env files dirs' start')
    (hconfig : dirs.config = dirs'.config) :
    start.limits = start'.limits ∧ start.policy = start'.policy ∧ start.opener = start'.opener ∧
      start.trust = start'.trust := by
  obtain ⟨config,handlers,trust,hc,hh,ht,rfl⟩ := h
  obtain ⟨config',handlers',trust',hc',hh',ht',rfl⟩ := h'
  simp only [loadConfig,loadHandlers,loadTrust,Dirs.configFile,Dirs.handlersFile,Dirs.trustFile,
    hconfig] at hc hh ht hc' hh' ht'
  obtain rfl := Except.ok.inj (hc.symm.trans hc')
  obtain rfl := Except.ok.inj (hh.symm.trans hh')
  obtain rfl := Except.ok.inj (ht.symm.trans ht')
  exact ⟨rfl,rfl,rfl,rfl⟩

theorem Reads.dirs_eq {dirs : Dirs} {start : Startup} (h : Reads crates os env files dirs start) :
    start.dirs = dirs ∧ start.names = dirs.names os ∧ start.manifests = dirs.manifests os := by
  obtain ⟨config,handlers,trust,-,-,-,rfl⟩ := h
  exact ⟨rfl,rfl,rfl⟩

theorem Aligned.discover (h : Aligned os env) :
    AppPaths.discover os env = .ok dirs ↔ DaemonPaths.discover os env = .ok dirs := by
  rw [app_discover,daemon_discover,h configRule (by simp [dirRules]),
    h dataRule (by simp [dirRules]),h cacheRule (by simp [dirRules])]

theorem aligned_of_discover {dirs : Dirs} (h : AppPaths.discover os env = .ok dirs)
    (h' : DaemonPaths.discover os env = .ok dirs) : Aligned os env := by
  obtain ⟨hconfig,hdata,hcache⟩ := (app_discover os env).mp h
  obtain ⟨hconfig',hdata',hcache'⟩ := (daemon_discover os env).mp h'
  intro rule hrule
  simp only [dirRules,List.mem_cons,List.not_mem_nil,or_false] at hrule
  obtain rfl | rfl | rfl := hrule
  · exact hconfig.trans hconfig'.symm
  · exact hdata.trans hdata'.symm
  · exact hcache.trans hcache'.symm

theorem push_relative (base : List Char) {p : List Char} (hp : Path.hasRoot .posix p = false) :
    Path.push .posix base p = Path.push .posix base [] ++ p := by
  have hempty : Path.hasRoot .posix [] = false := rfl
  simp [Path.push,Path.isAbsolute,hp,hempty,Path.prefixOf,Path.isVerbatim]

theorem joinPath_inj (hos : os.platform = .posix) {base : List Char} {p q : String}
    (hp : Path.hasRoot .posix p.toList = false) (hq : Path.hasRoot .posix q.toList = false) :
    joinPath os base p = joinPath os base q ↔ p = q := by
  rw [joinPath,joinPath,hos,push_relative base hp,push_relative base hq,
    List.append_cancel_left_eq,String.toList_inj]

theorem joinPath_last (hos : os.platform = .posix) {base : List Char} {p : String}
    (hp : Path.hasRoot .posix p.toList = false) (hne : p.toList ≠ []) :
    (joinPath os base p).getLast? = p.toList.getLast? := by
  rw [joinPath,hos,push_relative base hp,List.getLast?_append_of_ne_nil _ hne]

structure DirRule.Plain (rule : DirRule) : Prop where
  home : Path.hasRoot .posix rule.homeSuffix.toList = false
  mac : Path.hasRoot .posix rule.macSuffix.toList = false
  apart : rule.homeSuffix ≠ rule.macSuffix

theorem dirRules_plain {rule : DirRule} (hrule : rule ∈ dirRules) : rule.Plain := by
  simp only [dirRules,List.mem_cons,List.not_mem_nil,or_false] at hrule
  obtain rfl | rfl | rfl := hrule
  · exact ⟨by decide,by decide,by decide⟩
  · exact ⟨by decide,by decide,by decide⟩
  · exact ⟨by decide,by decide,by decide⟩

theorem unix_dir (name : String) (rule : DirRule) :
    cliDir (.unix name) env rule = daemonDir (.unix name) env rule := by
  rw [cliDir,daemonDir,pickDir,platformDir,Option.or_assoc]

theorem mac_dir {rule : DirRule} (hplain : rule.Plain) :
    cliDir .macos env rule = daemonDir .macos env rule ↔ MacSettled env rule := by
  rw [cliDir,daemonDir,pickDir,MacSettled]
  cases hexplicit : envDir env rule.explicit with
  | some p => simp
  | none =>
    cases hxdg : envDir env rule.xdg with
    | none =>
      cases hhome : env "HOME" with
      | none => simp [homeDir,platformDir,hhome]
      | some h =>
        have hapart : joinPath .macos h.toList rule.macSuffix ≠
            joinPath .macos h.toList rule.homeSuffix := by
          rw [Ne,joinPath_inj .macos rfl hplain.mac hplain.home]
          exact hplain.apart.symm
        simp [homeDir,platformDir,hhome,hapart]
    | some x =>
      cases hhome : env "HOME" with
      | none => simp [homeDir,platformDir,hhome]
      | some h => simp [homeDir,platformDir,hhome,eq_comm]

theorem joinPath_closed (hos : os.platform = .posix) {base : List Char}
    (hbase : Path.Closed base) : joinPath os base "names" = base ++ '/' :: "names".toList := by
  rw [joinPath,hos]
  exact Path.push_posix hbase (by decide)

theorem closed_of_last {base : List Char} {c : Char} (h : base.getLast? = some c) (hc : c ≠ '/') :
    Path.Closed base := by
  obtain ⟨ys,rfl⟩ := List.getLast?_eq_some_iff.mp h
  exact ⟨ys,c,rfl,hc⟩

theorem mac_data {p q : List Char} (hunset : envDir env "MURL_DATA_DIR" = none)
    (hcli : cliDir .macos env dataRule = some p) (hdaemon : daemonDir .macos env dataRule = some q) :
    p.getLast? = some 'a' ∧ q.getLast? = some 'l' := by
  simp only [cliDir,daemonDir,pickDir,platformDir,dataRule,hunset,Option.none_or,homeDir,
    Option.map_eq_some_iff,Option.or_eq_some_iff] at hcli hdaemon
  constructor
  · obtain ⟨home,-,rfl⟩ := hcli
    exact (joinPath_last .macos rfl (by decide) (by decide)).trans (by decide)
  · obtain ⟨x,-,rfl⟩ | ⟨-,home,-,rfl⟩ := hdaemon
    · exact (joinPath_last .macos rfl (by decide) (by decide)).trans (by decide)
    · exact (joinPath_last .macos rfl (by decide) (by decide)).trans (by decide)

theorem mac_names {p q : List Char} (hunset : envDir env "MURL_DATA_DIR" = none)
    (hcli : cliDir .macos env dataRule = some p) (hdaemon : daemonDir .macos env dataRule = some q) :
    joinPath .macos p "names" ≠ joinPath .macos q "names" := by
  obtain ⟨hp,hq⟩ := mac_data env hunset hcli hdaemon
  intro heq
  rw [joinPath_closed .macos rfl (closed_of_last hp (by decide)),
    joinPath_closed .macos rfl (closed_of_last hq (by decide)),List.append_cancel_right_eq] at heq
  rw [heq,hq] at hp
  exact absurd hp (by decide)

theorem same_world :
    (Aligned os env → ∀ start,
      App.init crates os env files = .ok start ↔ serve crates os env files = .ok start) ∧
    (∀ start start',App.init crates os env files = .ok start →
      serve crates os env files = .ok start' →
        (start = start' ↔ Aligned os env) ∧
        (cliDir os env configRule = daemonDir os env configRule →
          start.limits = start'.limits ∧ start.policy = start'.policy ∧
            start.opener = start'.opener ∧ start.trust = start'.trust) ∧
        (os = .macos → envDir env "MURL_DATA_DIR" = none → start.names ≠ start'.names)) ∧
    (∀ name,os = .unix name → Aligned os env) ∧
    (os = .macos → (Aligned os env ↔ ∀ rule ∈ dirRules,MacSettled env rule)) := by
  refine ⟨?_,?_,?_,?_⟩
  · intro haligned start
    rw [init_ok,serve_ok]
    exact exists_congr fun dirs => and_congr_left' (haligned.discover os env)
  · intro start start' hinit hserve
    obtain ⟨dirs,hdirs,hreads⟩ := (init_ok crates os env files).mp hinit
    obtain ⟨dirs',hdirs',hreads'⟩ := (serve_ok crates os env files).mp hserve
    obtain ⟨hd,hnames,-⟩ := hreads.dirs_eq
    obtain ⟨hd',hnames',-⟩ := hreads'.dirs_eq
    obtain ⟨hconfig,hdata,hcache⟩ := (app_discover os env).mp hdirs
    obtain ⟨hconfig',hdata',hcache'⟩ := (daemon_discover os env).mp hdirs'
    refine ⟨⟨?_,?_⟩,?_,?_⟩
    · rintro rfl
      obtain rfl : dirs = dirs' := hd.symm.trans hd'
      exact aligned_of_discover os env hdirs hdirs'
    · intro haligned
      obtain rfl := Except.ok.inj (((haligned.discover os env).mp hdirs).symm.trans hdirs')
      obtain ⟨config,handlers,trust,hc,hh,ht,rfl⟩ := hreads
      obtain ⟨config',handlers',trust',hc',hh',ht',rfl⟩ := hreads'
      obtain rfl := Except.ok.inj (hc.symm.trans hc')
      obtain rfl := Except.ok.inj (hh.symm.trans hh')
      obtain rfl := Except.ok.inj (ht.symm.trans ht')
      rfl
    · intro halike
      rw [hconfig,hconfig'] at halike
      exact hreads.unique crates os env files hreads' (Option.some.inj halike)
    · rintro rfl hunset
      rw [hnames,hnames']
      exact mac_names env hunset hdata hdata'
  · rintro name rfl rule -
    exact unix_dir env name rule
  · rintro rfl
    exact forall₂_congr fun rule hrule => mac_dir env (dirRules_plain hrule)

def adaLogin : Vars := fun name => if name = "HOME" then some "/Users/ada" else none

def nothingThere : List Char → FileRead := fun _ => .notFound

theorem ada_worlds_apart : ∃ start start',
    App.init plainCrates .macos adaLogin nothingThere = .ok start ∧
      serve plainCrates .macos adaLogin nothingThere = .ok start' ∧
      start.names ≠ start'.names ∧ ¬Aligned .macos adaLogin := by
  have hinit : ∃ start, App.init plainCrates .macos adaLogin nothingThere = .ok start := ⟨_,rfl⟩
  have hserve : ∃ start, serve plainCrates .macos adaLogin nothingThere = .ok start := ⟨_,rfl⟩
  obtain ⟨start,hinit⟩ := hinit
  obtain ⟨start',hserve⟩ := hserve
  obtain ⟨-,hboth,-,-⟩ := same_world plainCrates .macos adaLogin nothingThere
  obtain ⟨hsame,-,hnames⟩ := hboth start start' hinit hserve
  have hapart := hnames rfl rfl
  refine ⟨start,start',hinit,hserve,hapart,?_⟩
  intro haligned
  rw [hsame.mpr haligned] at hapart
  exact hapart rfl

end Startup

end MurlSystem

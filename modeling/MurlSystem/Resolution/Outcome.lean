import MurlSystem.Canonical.Spelled
import MurlSystem.Resolution.Simulation

namespace MurlSystem

open Program

def Run.withStack (r : Run) (stack : List String) : Run :=
  { r with st := { r.st with stack := stack } }

def Reaches (env : Env) (cache : Cache) (ref : TargetRef) (r : Run) : Prop :=
  ∃ fs, (walkSystem env cache ref).Reachable ⟨r,fs⟩

inductive Stopped (env : Env) (cache : Cache) (ref : TargetRef) : Run → Prop
  | unread : Stopped env cache ref (Run.start cache)
  | reached (r : Run) (stack : List String) (h : Reaches env cache ref r) :
      Stopped env cache ref (r.withStack stack)

inductive Finished (env : Env) (cache : Cache) (ref : TargetRef) : Run → Prop
  | all (r : Run) (stack : List String) (site : Site) (rs : List ResourceDoc)
      (h : (walkSystem env cache ref).Reachable ⟨r,[.walk site rs []]⟩) :
      Finished env cache ref (r.withStack stack)

inductive OnWay (env : Env) (cache : Cache) (ref : TargetRef) (c : Config) : Run → Prop
  | all (r : Run) (stack : List String) (site : Site) (rs : List ResourceDoc)
      (h : (walkSystem env cache ref).Reachable c)
      (rest : Path env c ⟨r,[.walk site rs []]⟩) : OnWay env cache ref c (r.withStack stack)

def TargetRef.selector : TargetRef → Option (List SelectorItem)
  | .murl m => m.selector
  | .file _ => none

section Outcome

variable {env : Env} {cache : Cache} {ref : TargetRef}

theorem Path.reachable {a b : Config} (h : Start env cache ref a) (hp : Path env a b) :
    (walkSystem env cache ref).Reachable b := ⟨a,h,hp⟩

theorem Leads.stopped {a : Config} {r : Run} (h : Start env cache ref a)
    (hl : Leads env a r) : Stopped env cache ref r := by
  obtain ⟨fs,hp⟩ := hl
  exact .reached r r.st.stack ⟨fs,hp.reachable h⟩

theorem resolve_spec (env : Env) (cache : Cache) (m : Murl) :
    wp (resolve env m)
      (fun res r' => Finished env cache (.murl m) r' ∧ finish r'.st m.selector = .ok res)
      (fun _ r' => Stopped env cache (.murl m) r') (Run.start cache) := by
  have hstart : Start env cache (.murl m) ⟨(Run.start cache).pushStack m.identity,
    [.seek (Request.root m)]⟩ := .named m
  unfold resolve
  rw [wp_bind,wp_modify,wp_bind]
  have hseek : Path env ⟨(Run.start cache).pushStack m.identity,[.seek (Request.root m)]⟩
      ⟨(Run.start cache).pushStack m.identity,[.seek (Request.root m)]⟩ := .refl _
  refine wp_mono (ingestNamed_steps m 0 none none none hseek) ?_ ?_
  · rintro _ r ⟨inner,rs,-,hp⟩
    rw [wp_bind,wp_modify,wp_bind,wp_get,wp_fromExcept]
    have hreach := hp.reachable hstart
    refine ⟨?_,?_⟩
    · intro res hres
      exact ⟨.all r r.st.stack.dropLast inner rs hreach,hres⟩
    · intro e _
      exact .reached r r.st.stack.dropLast ⟨_,hreach⟩
  · intro _ r hl
    exact hl.leads.stopped hstart

theorem resolveFile_spec (env : Env) (cache : Cache) (path : String) :
    wp (resolveFile env path)
      (fun res r' => Finished env cache (.file path) r' ∧ finish r'.st none = .ok res)
      (fun _ r' => Stopped env cache (.file path) r') (Run.start cache) := by
  unfold resolveFile
  rw [wp_bind,wp_fromExcept]
  refine ⟨?_,fun _ _ => .unread⟩
  intro bytes hbytes
  have hread : env.files path = .ok bytes := by
    cases hf : env.files path with
    | error e => simp [hf,Except.mapError] at hbytes
    | ok b => simpa [hf,Except.mapError] using hbytes
  have hstart : Start env cache (.file path)
      ⟨Run.start cache,[.found Request.file bytes (.localFile path)]⟩ :=
    .file path bytes hread
  rw [wp_bind]
  have hfound : Path env ⟨Run.start cache,[.found Request.file bytes (.localFile path)]⟩
      ⟨Run.start cache,[.found Request.file bytes (.localFile path)]⟩ := .refl _
  refine wp_mono (ingestBytes_steps Request.file ?_ rfl hfound) ?_ ?_
  · intro _ node a fs r doc child hseek
    exact ingestNamed_steps child 1 _ _ _ hseek
  · rintro _ r ⟨inner,rs,-,hp⟩
    rw [wp_bind,wp_get,wp_fromExcept]
    have hreach := hp.reachable hstart
    refine ⟨?_,?_⟩
    · intro res hres
      exact ⟨.all r r.st.stack inner rs hreach,hres⟩
    · intro e _
      exact .reached r r.st.stack ⟨_,hreach⟩
  · intro _ r hl
    exact hl.leads.stopped hstart

theorem resolveRef_spec (env : Env) (cache : Cache) (ref : TargetRef) :
    wp (resolveRef env ref)
      (fun res r' => Finished env cache ref r' ∧ finish r'.st ref.selector = .ok res)
      (fun _ r' => Stopped env cache ref r') (Run.start cache) := by
  cases ref with
  | murl m => exact resolve_spec env cache m
  | file path => exact resolveFile_spec env cache path

theorem Finished.stopped {r : Run} (h : Finished env cache ref r) : Stopped env cache ref r := by
  cases h with
  | all r stack site rs h => exact .reached r stack ⟨_,h⟩

theorem resolveRef_final (env : Env) (cache : Cache) (ref : TargetRef) :
    Stopped env cache ref (final (resolveRef env ref) (Run.start cache)) :=
  wp_final (wp_mono (resolveRef_spec env cache ref) (fun _ _ h => h.1.stopped) (fun _ _ h => h))

theorem resolveRef_ok {res : Resolution} {r : Run}
    (h : resolveRef env ref (Run.start cache) = .ok res r) :
    Finished env cache ref r ∧ finish r.st ref.selector = .ok res := by
  have hres := wp_ok (resolveRef_spec env cache ref) h
  exact hres

theorem finish_ok {st : State} {selector : Option (List SelectorItem)} {res : Resolution}
    (h : finish st selector = .ok res) :
    res.nodes = st.nodes ∧ res.warnings = st.warnings ∧ res.resources.Sublist st.resources := by
  cases selector with
  | none =>
    obtain rfl : _ = res := by simpa [finish] using h
    exact ⟨rfl,rfl,List.Sublist.refl _⟩
  | some items =>
    unfold finish at h
    dsimp only at h
    cases hc : forM items (checkSelector st) with
    | error e =>
      rw [hc] at h
      cases h
    | ok u =>
      rw [hc] at h
      obtain rfl : _ = res := by simpa [bind,Except.bind,pure,Except.pure] using h
      exact ⟨rfl,rfl,List.filter_sublist⟩

end Outcome

section Site

def resourceValue (id kind target : String) (pin : Option String) : Value :=
  .object ([("id",.string id)] ++ (pin.toList.map fun p => ("integrity",.string p)) ++
    [("kind",.string kind),("target",.string target)])

def manifestValue (name : String) (resources : List Value) : Value :=
  .object [("murlVersion",.string "0.1"),("name",.string name),("resources",.array resources)]

def published (v : Value) : Bytes := (canonicalJsonBytes v).toOption.getD []

theorem published_compact : published = compactBytes := funext canonicalJsonBytes_compact

def siteCrates (docs : List Value) (digests : List (Bytes × Bytes))
    (decoded : List (String × Bytes)) : Crates where
  serdeJson b :=
    match docs.find? fun v => published v == b with
    | some v => .ok v
    | none => .error "expected value at line 1 column 1"
  parseF64 _ := none
  sha256 b := (digests.lookup b).getD []
  base64Encode _ := ""
  base64Decode s :=
    match decoded.lookup s with
    | some b => .ok b
    | none => .error "Invalid padding"
  verifyingKey _ := .error "Cannot decompress Edwards point"
  ed25519Verify _ _ _ := false

def siteEnv (crates : Crates) (pages : List (String × Value)) : Env where
  crates := crates
  localStore := ⟨.posix,"/home/u/.local/share/murl/names",fun _ => .notFound⟩
  remote := some fun _ url =>
    match pages.lookup url with
    | some v => .ok (published v)
    | none => .error (.fetch "404 Not Found")
  cache := none
  trustStore := ⟨[]⟩
  limits := {}
  clock _ := 1000000
  files _ := .error "No such file or directory (os error 2)"

end Site

end MurlSystem

import Mathlib.Algebra.GroupWithZero.Nat
import Mathlib.Algebra.Order.BigOperators.Group.List
import Mathlib.Data.String.Basic
import MurlSystem.Foundation.Traverse
import MurlSystem.Storing.Current

namespace MurlSystem

section Listing

structure DirEntry where
  name : String
  isDir : Bool

def dirEntry (files : Files) (k : List Path.Component) (c : Path.Component) : Option DirEntry :=
  match c,files (k ++ [c]) with
  | .normal name,some node => some ⟨String.ofList name,node.isDir⟩
  | _,_ => none

-- Each directory gives its entries in the order in which `names` has them.
def NameStore.readDir (store : NameStore) (names : List Path.Component → List Path.Component)
    (files : Files) (dir : String) : Except String (List DirEntry) :=
  match files (Path.components store.os dir.toList) with
  | some .dir =>
    let k := Path.components store.os dir.toList ++ Path.impliedRoot store.os dir.toList
    .ok ((names k).filterMap (dirEntry files k))
  | some (.file _) => .error "Not a directory (os error 20)"
  | none => .error "No such file or directory (os error 2)"

def stripSuffix (suffix s : String) : Option String :=
  (s.toList.dropSuffix? suffix.toList).map String.ofList

def localRoot : String := "murl://local"

def reported (components : List String) (name : String) : Option String :=
  match stripSuffix fileSuffix name with
  | none => none
  | some stem =>
    let identity := components.foldl (fun s c => s ++ "/" ++ c) localRoot ++ "/" ++ stem
    match Murl.parse identity with
    | .ok _ => some identity
    | .error _ => none

def walk (os : Path.Platform) (readDir : String → Except String (List DirEntry)) :
    Nat → String → List String → List String → Except Error (List String)
  | 0,_,_,_ => .error (.io "too many levels of directories")
  | depth + 1,dir,components,out => do
    let entries ← (readDir dir).mapError Error.io
    entries.foldlM (fun out entry =>
      if entry.isDir then
        walk os readDir depth (String.ofList (Path.push os dir.toList entry.name.toList))
          (components ++ [entry.name]) out
      else .ok (out ++ (reported components entry.name).toList)) out

def NameStore.list (store : NameStore) (names : List Path.Component → List Path.Component)
    (depth : Nat) (files : Files) : Except Error (List String) := do
  let out ← if FileTree.exist files (Path.components store.os store.root.toList) then
      walk store.os (store.readDir names files) depth store.root [] []
    else .ok []
  return out.mergeSort fun a b => decide (a ≤ b)

end Listing

section Paths

variable {store : NameStore} {comps : List String}

def NameStore.dirPath (store : NameStore) (comps : List String) : String :=
  String.ofList ((comps.map String.toList).foldl (Path.push store.os) store.root.toList)

def NameStore.under (store : NameStore) (comps : List String) : List Path.Component :=
  store.top ++ (comps.map String.toList).map .normal

theorem dirPath_nil : store.dirPath [] = store.root := String.ofList_toList

theorem dirPath_concat (comps : List String) (name : String) : store.dirPath (comps ++ [name]) =
    String.ofList (Path.push store.os (store.dirPath comps).toList name.toList) := by
  rw [NameStore.dirPath,NameStore.dirPath,String.toList_ofList,List.map_append,List.foldl_append]
  rfl

theorem under_concat (comps : List String) (name : String) :
    store.under (comps ++ [name]) = store.under comps ++ [.normal name.toList] := by
  simp [NameStore.under]

theorem dirPath_components (hwhole : Path.Whole store.os store.root.toList) (hne : comps ≠ [])
    (h : ∀ c ∈ comps, Path.Sole c.toList) :
    Path.components store.os (store.dirPath comps).toList = store.under comps := by
  rw [NameStore.dirPath,String.toList_ofList,Path.foldl_push_whole hwhole (by simpa using hne)]
  · rfl
  · intro name hname
    obtain ⟨c,hc,rfl⟩ := List.mem_map.mp hname
    exact h c hc

theorem dirPath_under (hwhole : Path.Whole store.os store.root.toList)
    (h : ∀ c ∈ comps, Path.Sole c.toList) :
    Path.components store.os (store.dirPath comps).toList ++
      Path.impliedRoot store.os (store.dirPath comps).toList = store.under comps := by
  rcases List.eq_nil_or_concat comps with rfl | ⟨init,last,rfl⟩
  · rw [dirPath_nil]
    exact (List.append_nil _).symm
  · rw [List.concat_eq_append] at h ⊢
    have hcomps := @dirPath_components store (init ++ [last]) hwhole (by simp) h
    rw [Path.impliedRoot,hcomps,under_concat,Path.normal_ends,ite_self,List.append_nil]

end Paths

section Walk

variable {store : NameStore} {files : Files} {comps : List String} {depth : Nat}

def nameOf : Path.Component → String
  | .normal name => String.ofList name
  | _ => ""

def spelled (comps : List String) : Option String := reported comps.dropLast (comps.getLastD "")

def NameStore.Sound (store : NameStore) (files : Files) : Prop :=
  ∀ k c, store.top <+: k → files (k ++ [c]) ≠ none → ∃ name : String,
    c = .normal name.toList ∧ Path.Sole name.toList

theorem nameOf_normal (name : String) : nameOf (.normal name.toList) = name := String.ofList_toList

theorem dirEntry_normal {k : List Path.Component} {name : String} {node : FileTree.Node Bytes}
    (h : files (k ++ [.normal name.toList]) = some node) :
    dirEntry files k (.normal name.toList) = some ⟨name,node.isDir⟩ := by
  unfold dirEntry
  rw [h]
  dsimp only
  rw [String.ofList_toList]

def visit (os : Path.Platform) (readDir : String → Except String (List DirEntry)) (depth : Nat)
    (dir : String) (components out : List String) (entry : DirEntry) : Except Error (List String) :=
  if entry.isDir then
    walk os readDir depth (String.ofList (Path.push os dir.toList entry.name.toList))
      (components ++ [entry.name]) out
  else .ok (out ++ (reported components entry.name).toList)

theorem visit_files {names : List Path.Component → List Path.Component}
    {readDir : String → Except String (List DirEntry)} {k : List Path.Component} {dir : String}
    (hdirs : ∀ name : String, files (k ++ [.normal name.toList]) = some .dir → ∀ out,
      visit store.os readDir depth dir comps out ⟨name,true⟩ =
        .ok (out ++ (FileTree.filesBelow names files depth (k ++ [.normal name.toList])).filterMap
          fun x => spelled ((comps ++ [name]) ++ x.map nameOf))) (cs : List Path.Component) :
    ∀ out, (∀ c ∈ cs, files (k ++ [c]) ≠ none ∧ ∃ name : String, c = .normal name.toList) →
      (cs.filterMap (dirEntry files k)).foldlM (visit store.os readDir depth dir comps) out =
        .ok (out ++ (cs.flatMap fun c => FileTree.branch c
          (FileTree.filesBelow names files depth (k ++ [c])) (files (k ++ [c]))).filterMap
            fun x => spelled (comps ++ x.map nameOf)) := by
  induction cs with
  | nil =>
    intro out _
    exact congrArg Except.ok (List.append_nil out).symm
  | cons c rest ih =>
    intro out hcs
    obtain ⟨⟨hhere,name,rfl⟩,hrest⟩ := List.forall_mem_cons.mp hcs
    obtain ⟨node,hnode⟩ := Option.ne_none_iff_exists'.mp hhere
    rw [List.filterMap_cons_some (dirEntry_normal hnode),List.foldlM_cons,List.flatMap_cons,
      List.filterMap_append,hnode]
    cases node with
    | dir =>
      have hone := hdirs name hnode out
      change visit store.os readDir depth dir comps out ⟨name,true⟩ >>= _ = _
      rw [hone]
      refine (ih _ hrest).trans ?_
      rw [FileTree.branch,List.filterMap_map,List.append_assoc]
      have hmoved : (fun x => spelled ((comps ++ [name]) ++ x.map nameOf)) =
          (fun x => spelled (comps ++ x.map nameOf)) ∘ (Path.Component.normal name.toList :: ·) := by
        funext x
        simp [nameOf_normal]
      rw [hmoved]
    | file b =>
      refine (ih _ hrest).trans ?_
      have hone : spelled (comps ++ [Path.Component.normal name.toList].map nameOf) =
          reported comps name := by
        simp [spelled,nameOf_normal]
      rw [FileTree.branch,List.filterMap_cons,hone,List.append_assoc]
      cases reported comps name <;> rfl

theorem walk_level {out : List String} (hwhole : Path.Whole store.os store.root.toList)
    (l : FileTree.Listing files store.top) (hsound : store.Sound files)
    (hsoles : ∀ c ∈ comps, Path.Sole c.toList)
    (hdir : files (Path.components store.os (store.dirPath comps).toList) = some .dir)
    (hdirs : ∀ name : String, files (store.under comps ++ [.normal name.toList]) = some .dir → ∀ out,
      visit store.os (store.readDir l.names files) depth (store.dirPath comps) comps out ⟨name,true⟩ =
        .ok (out ++ (FileTree.filesBelow l.names files depth
          (store.under comps ++ [.normal name.toList])).filterMap
            fun x => spelled ((comps ++ [name]) ++ x.map nameOf))) :
    walk store.os (store.readDir l.names files) (depth + 1) (store.dirPath comps) comps out =
      .ok (out ++ (FileTree.filesBelow l.names files (depth + 1) (store.under comps)).filterMap
        fun x => spelled (comps ++ x.map nameOf)) := by
  have htop : store.top <+: store.under comps := List.prefix_append _ _
  have hread : store.readDir l.names files (store.dirPath comps) =
      .ok ((l.names (store.under comps)).filterMap (dirEntry files (store.under comps))) := by
    rw [NameStore.readDir,hdir]
    dsimp only
    rw [dirPath_under hwhole hsoles]
  rw [walk,hread,FileTree.filesBelow]
  refine visit_files hdirs _ out ?_
  intro c hc
  have hhere := (l.complete _ htop c).mp hc
  obtain ⟨name,hname,-⟩ := hsound _ c htop hhere
  exact ⟨hhere,name,hname⟩

theorem walk_files (hwhole : Path.Whole store.os store.root.toList)
    (l : FileTree.Listing files store.top) (hsound : store.Sound files) (depth : Nat) :
    ∀ comps out, (∀ c ∈ comps, Path.Sole c.toList) →
      files (Path.components store.os (store.dirPath comps).toList) = some .dir →
      (∀ x, files (store.under comps ++ x) ≠ none → x.length ≤ depth) →
      walk store.os (store.readDir l.names files) (depth + 1) (store.dirPath comps) comps out =
        .ok (out ++ (FileTree.filesBelow l.names files (depth + 1) (store.under comps)).filterMap
          fun x => spelled (comps ++ x.map nameOf)) := by
  induction depth with
  | zero =>
    intro comps out hsoles hdir hdeep
    refine walk_level hwhole l hsound hsoles hdir fun name hname => ?_
    exact absurd (hdeep [.normal name.toList] (by rw [hname]; simp)) (by simp)
  | succ depth ih =>
    intro comps out hsoles hdir hdeep
    refine walk_level hwhole l hsound hsoles hdir fun name hname out => ?_
    have htop : store.top <+: store.under comps := List.prefix_append _ _
    obtain ⟨name',hname',hsole⟩ := hsound _ _ htop (by rw [hname]; simp)
    have hsoles' : ∀ c ∈ comps ++ [name], Path.Sole c.toList := by
      rw [List.forall_mem_append]
      refine ⟨hsoles,List.forall_mem_singleton.mpr ?_⟩
      rw [Path.Component.normal.inj hname']
      exact hsole
    have hpath := dirPath_components hwhole (by simp) hsoles'
    rw [← under_concat] at hname ⊢
    rw [visit,if_pos rfl,← dirPath_concat]
    refine ih _ out hsoles' (by rw [hpath,hname]) ?_
    intro x hx
    rw [under_concat,List.append_assoc] at hx
    have hlen := hdeep _ hx
    simpa using hlen

end Walk

section Found

variable {store : NameStore} {steps : List NameStep} {held : List Murl} {files : Files} {m : Murl}
  {depth : Nat}

def fileKey (m : Murl) : List Path.Component := ((m.storeKey id).map String.toList).map .normal

theorem fileKey_names (m : Murl) : (fileKey m).map nameOf = m.storeKey id := by
  rw [fileKey,List.map_map,List.map_map]
  refine List.map_id'' (fun name => ?_) _
  exact nameOf_normal name

theorem Current.sound (hwhole : Path.Whole store.os store.root.toList)
    (h : Current store steps held files) (hsteps : ∀ step ∈ steps, LocalName step.murl) :
    store.Sound files := by
  intro k c htop hhere
  have hbelow : k ++ [c] ≠ store.top := by
    intro he
    have hlen := htop.length_le
    rw [← he,List.length_append,List.length_singleton] at hlen
    omega
  obtain ⟨step,hstep,hunder⟩ := h.traced _ (htop.trans (List.prefix_append k [c])) hbelow hhere
  obtain ⟨rest,rfl⟩ := htop
  rw [key_under hwhole (hsteps step hstep),List.append_assoc,List.prefix_append_right_inj] at hunder
  have hmem : c ∈ fileKey step.murl := hunder.subset (by simp)
  obtain ⟨_,htext,rfl⟩ := List.mem_map.mp hmem
  obtain ⟨name,hname,rfl⟩ := List.mem_map.mp htext
  obtain ⟨s,hs⟩ := (hsteps step hstep).parsed
  exact ⟨name,rfl,parsed_soles hs name hname⟩

def deepest (steps : List NameStep) : Nat := (steps.map fun step => (fileKey step.murl).length).sum

theorem Current.shallow (hwhole : Path.Whole store.os store.root.toList)
    (h : Current store steps held files) (hsteps : ∀ step ∈ steps, LocalName step.murl)
    {x : List Path.Component} (hx : files (store.top ++ x) ≠ none) : x.length ≤ deepest steps := by
  by_cases hnil : x = []
  · rw [hnil]
    exact Nat.zero_le _
  · have hbelow : store.top ++ x ≠ store.top := fun he => hnil (List.append_right_eq_self.mp he)
    obtain ⟨step,hstep,hunder⟩ := h.traced _ (List.prefix_append _ x) hbelow hx
    rw [key_under hwhole (hsteps step hstep),List.prefix_append_right_inj] at hunder
    exact hunder.length_le.trans (List.single_le_sum (by simp) _ (List.mem_map.mpr ⟨step,hstep,rfl⟩))

theorem Current.files_perm (hwhole : Path.Whole store.os store.root.toList)
    (h : Current store steps held files) (l : FileTree.Listing files store.top)
    (hdeep : ∀ x, files (store.top ++ x) ≠ none → x.length ≤ depth) :
    (FileTree.filesBelow l.names files depth store.top).Perm (held.map fileKey) := by
  have htop := List.prefix_refl store.top
  have hkey : ∀ m ∈ held, store.key m = store.top ++ fileKey m :=
    fun m hm => key_under hwhole (h.names m hm)
  refine (List.perm_ext_iff_of_nodup (FileTree.filesBelow_nodup l htop) ?_).mpr ?_
  · refine List.Nodup.map_on ?_ h.apart.of_map
    intro m hm n hn he
    have hid := (key_identity hwhole (h.names m hm) (h.names n hn)).mp
      (by rw [hkey m hm,hkey n hn,he])
    exact List.inj_on_of_nodup_map h.apart hm hn hid
  · intro x
    rw [FileTree.mem_filesBelow l h.grounded htop,List.mem_map]
    constructor
    · rintro ⟨hne,-,b,hb⟩
      obtain ⟨m,hm,he⟩ := h.known _ b (List.prefix_append _ x)
        (fun he => hne (List.append_right_eq_self.mp he)) hb
      rw [hkey m hm] at he
      exact ⟨m,hm,List.append_cancel_left he⟩
    · rintro ⟨m,hm,rfl⟩
      obtain ⟨b,hb⟩ := h.kept m hm
      rw [hkey m hm] at hb
      refine ⟨?_,hdeep _ (by rw [hb]; simp),b,hb⟩
      simpa [fileKey] using storeKey_ne_nil m id

theorem mergeSort_sorted (out : List String) :
    (out.mergeSort fun a b => decide (a ≤ b)).Pairwise (· ≤ ·) := by
  refine (List.pairwise_mergeSort (fun a b c => ?_) (fun a b => ?_) out).imp of_decide_eq_true
  · simpa using le_trans
  · simpa using le_total a b

theorem Current.list_eq (hwhole : Path.Whole store.os store.root.toList)
    (h : Current store steps held files) (hsteps : ∀ step ∈ steps, LocalName step.murl)
    (l : FileTree.Listing files store.top) (hdepth : deepest steps < depth) :
    ∃ names, store.list l.names depth files = .ok names ∧ names.Pairwise (· ≤ ·) ∧
      names.Perm (held.filterMap fun m => spelled (m.storeKey id)) := by
  obtain ⟨depth,rfl⟩ := Nat.exists_eq_add_one_of_ne_zero (Nat.ne_zero_of_lt hdepth)
  have hdeep : ∀ x, files (store.top ++ x) ≠ none → x.length ≤ depth :=
    fun x hx => (h.shallow hwhole hsteps hx).trans (Nat.le_of_lt_succ hdepth)
  have hperm := @Current.files_perm _ _ _ _ (depth + 1) hwhole h l
    fun x hx => (hdeep x hx).trans (Nat.le_succ _)
  have hspelled := hperm.filterMap fun x => spelled ([] ++ x.map nameOf)
  have hheld : (held.map fileKey).filterMap (fun x => spelled ([] ++ x.map nameOf)) =
      held.filterMap fun m => spelled (m.storeKey id) := by
    rw [List.filterMap_map]
    refine List.filterMap_congr fun m _ => ?_
    rw [Function.comp_apply,List.nil_append,fileKey_names]
  rw [hheld] at hspelled
  by_cases hroot : files (Path.components store.os store.root.toList) = some .dir
  · have hwalk := walk_files hwhole l (h.sound hwhole hsteps) depth [] [] (by simp)
      (by rw [dirPath_nil,hroot]) (by simpa [NameStore.under] using hdeep)
    rw [dirPath_nil,List.nil_append] at hwalk
    have hunder : store.under [] = store.top := List.append_nil _
    rw [hunder] at hwalk
    refine ⟨_,?_,mergeSort_sorted _,(List.mergeSort_perm _ _).trans hspelled⟩
    rw [NameStore.list,FileTree.exist,hroot,Option.isSome_some,if_pos rfl]
    exact Fallible.bind_ok.mpr ⟨_,hwalk,rfl⟩
  · have hnone : files (Path.components store.os store.root.toList) = none := by
      cases hnode : files (Path.components store.os store.root.toList) with
      | none => rfl
      | some node =>
        cases node with
        | dir => exact absurd hnode hroot
        | file b => exact absurd hnode (stored_none.mp h.directory b)
    have hheld : held = [] := by
      by_contra hne
      obtain ⟨m,hm⟩ := List.exists_mem_of_ne_nil _ hne
      obtain ⟨b,hb⟩ := h.kept m hm
      exact hroot (h.grounded _ (by rw [hb]; simp) _ (root_above hwhole (h.names m hm)))
    rw [hheld,List.filterMap_nil]
    refine ⟨_,?_,mergeSort_sorted [],List.mergeSort_perm [] _⟩
    rw [NameStore.list,FileTree.exist,hnone]
    rfl

end Found

section Spelled

variable {m : Murl}

def Tildeless (m : Murl) : Prop := ∀ seg ∈ m.name, '~' ∉ seg.toList

theorem stripSuffix_append (s suffix : String) : stripSuffix suffix (s ++ suffix) = some s := by
  rw [stripSuffix,String.toList_append,
    List.dropSuffix?_eq_some_iff.mpr ⟨suffix.toList,rfl,beq_self_eq_true _⟩,Option.map_some,
    String.ofList_toList]

theorem foldl_slashes (comps : List String) : ∀ init : String,
    (comps.foldl (fun s c => s ++ "/" ++ c) init).toList =
      init.toList ++ (comps.map fun c => '/' :: c.toList).flatten := by
  induction comps with
  | nil => exact fun init => (List.append_nil _).symm
  | cons c rest ih =>
    intro init
    rw [List.foldl_cons,ih,String.toList_append,String.toList_append,List.map_cons,
      List.flatten_cons,List.append_assoc,List.append_assoc]
    rfl

def listedText (m : Murl) : List Char :=
  localRoot.toList ++ ((m.name.map fun seg => '/' :: (sanitizeComponent seg).toList).flatten ++
    Syntax.marked '@' (Syntax.printedVersion m.version))

theorem reported_iff {components : List String} {stem s : String} :
    reported components (stem ++ fileSuffix) = some s ↔
      s = components.foldl (fun s c => s ++ "/" ++ c) localRoot ++ "/" ++ stem ∧
        ∃ n, Murl.parse s = .ok n := by
  rw [reported,stripSuffix_append]
  dsimp only
  constructor
  · intro h
    split at h
    · next n hn =>
      obtain rfl := Option.some.inj h
      exact ⟨rfl,n,hn⟩
    · cases h
  · rintro ⟨rfl,n,hn⟩
    rw [hn]

theorem spelled_iff {s : String} (hlast : m.name.dropLast ++ [m.name.getLastD ""] = m.name) :
    spelled (m.storeKey id) = some s ↔ s.toList = listedText m ∧ ∃ n, Murl.parse s = .ok n := by
  let stem := String.ofList ((sanitizeComponent (m.name.getLastD "")).toList ++
    Syntax.marked '@' (Syntax.printedVersion m.version))
  have hleaf : leafName (m.name.getLastD "") m.version = stem ++ fileSuffix := by
    rw [← String.toList_inj,leafName_toList,String.toList_append,String.toList_ofList]
  have htext : ((m.name.dropLast.map sanitizeComponent).foldl (fun s c => s ++ "/" ++ c)
      localRoot ++ "/" ++ stem).toList = listedText m := by
    have hname : (m.name.map fun seg => '/' :: (sanitizeComponent seg).toList).flatten =
        (m.name.dropLast.map fun seg => '/' :: (sanitizeComponent seg).toList).flatten ++
          '/' :: (sanitizeComponent (m.name.getLastD "")).toList := by
      conv_lhs => rw [← hlast]
      rw [List.map_append,List.flatten_append,List.map_singleton,List.flatten_singleton]
    have hslash : "/".toList = ['/'] := rfl
    rw [String.toList_append,String.toList_append,foldl_slashes,List.map_map,listedText,hname,
      @String.toList_ofList ((sanitizeComponent (m.name.getLastD "")).toList ++ _),hslash]
    simp only [List.append_assoc,List.cons_append,List.nil_append]
    rfl
  rw [storeKey_leaf,spelled,List.dropLast_concat,List.getLastD_concat,hleaf,reported_iff,
    ← String.toList_inj,htext]

theorem low_byte {seg : String} {b : UInt8} (hb : b ∈ Text.bytes seg) (hlow : b.toNat < 128) :
    Char.ofNat b.toNat ∈ seg.toList := by
  obtain ⟨c,hc,hbc⟩ := List.mem_flatMap.mp hb
  cases hascii : Text.isAscii c with
  | false =>
    have hhigh := Text.encode_wide hascii b hbc
    omega
  | true =>
    rw [Text.encode_ascii hascii] at hbc
    have hlt : c.toNat < 128 := of_decide_eq_true hascii
    have hsame : b.toNat = c.toNat := by
      rw [List.mem_singleton.mp hbc,UInt8.toNat_ofNat']
      omega
    rw [hsame,Char.ofNat_toNat]
    exact hc

theorem sanitize_encode {seg : String} (h : '~' ∉ seg.toList) :
    sanitizeComponent seg = encodeSegment seg := by
  rw [sanitizeComponent,encodeSegment,percentEscape,percentEscape]
  refine congrArg String.ofList (List.flatMap_congr fun b hb => ?_)
  have htilde : (Char.ofNat b.toNat == '~') = false := by
    rw [beq_eq_false_iff_ne]
    intro he
    have hbyte : b.toNat = 126 := by
      rw [← Syntax.byte_of_char (b := b),he]
      rfl
    exact h (he ▸ low_byte hb (by omega))
  have hkeep : isStoreChar b = isUnreserved b := by
    rw [isStoreChar,isUnreserved,htilde,Bool.or_false]
    cases isAlnum (Char.ofNat b.toNat) <;> cases (Char.ofNat b.toNat == '.') <;>
      cases (Char.ofNat b.toNat == '_') <;> cases (Char.ofNat b.toNat == '-') <;> rfl
  rw [hkeep]

theorem sanitize_tildeless (seg : String) : '~' ∉ (sanitizeComponent seg).toList := by
  have hall : ∀ c ∈ (sanitizeComponent seg).toList, c ≠ '~' := by
    refine percentEscape_chars ?_ (by decide) ?_
    · intro b hb he
      rw [isStoreChar,he] at hb
      exact absurd hb (by decide)
    · intro n hn
      have hdigits : ∀ n ∈ List.range 16, hexDigit n ≠ '~' := by decide
      exact hdigits n (List.mem_range.mpr hn)
  exact fun hmem => hall '~' hmem rfl

theorem encode_tilde {seg : String} (h : '~' ∈ seg.toList) : '~' ∈ (encodeSegment seg).toList := by
  have hbyte : 126 ∈ Text.bytes seg :=
    List.mem_flatMap.mpr ⟨'~',h,by rw [Text.encode_ascii (by decide)]; decide⟩
  rw [encodeSegment,percentEscape,String.toList_ofList]
  exact List.mem_flatMap.mpr ⟨126,hbyte,by decide⟩

theorem listedText_identity (hlocal : m.authority = .local) (h : Tildeless m) :
    listedText m = m.identity.toList := by
  have hsegs : (m.name.map fun seg => '/' :: (sanitizeComponent seg).toList) =
      m.name.map fun seg => '/' :: (encodeSegment seg).toList :=
    List.map_congr_left fun seg hseg => by rw [sanitize_encode (h seg hseg)]
  have hroot : localRoot.toList = "murl://".toList ++ Authority.local.toString.toList := by
    decide +kernel
  rw [Syntax.identity_parts,hlocal,listedText,hsegs,hroot,List.append_assoc,List.append_assoc]
  rfl

theorem listedText_tilde {text : String} (h : Murl.parse text = .ok m) : '~' ∉ listedText m := by
  have hroot : '~' ∉ localRoot.toList := by decide +kernel
  refine List.not_mem_append hroot (List.not_mem_append ?_ ?_)
  · intro hmem
    obtain ⟨l,hl,hc⟩ := List.mem_flatten.mp hmem
    obtain ⟨seg,-,rfl⟩ := List.mem_map.mp hl
    rcases List.mem_cons.mp hc with hc | hc
    · exact absurd hc (by decide)
    · exact sanitize_tildeless seg hc
  · cases hv : Syntax.printedVersion m.version with
    | none => simp [Syntax.marked]
    | some w =>
      intro hmem
      rcases List.mem_cons.mp hmem with hc | hc
      · exact absurd hc (by decide)
      · exact absurd (parsed_version_chars h w (Option.mem_def.mpr hv) '~' hc) (by decide)

theorem identity_tilde (h : ¬Tildeless m) : '~' ∈ m.identity.toList := by
  rw [Tildeless] at h
  push Not at h
  obtain ⟨seg,hseg,htilde⟩ := h
  rw [Syntax.identity_parts]
  refine List.mem_append_right _ (List.mem_append_left _ (List.mem_append_right _ ?_))
  exact List.mem_flatten.mpr ⟨_,List.mem_map.mpr ⟨seg,hseg,rfl⟩,
    List.mem_cons_of_mem _ (encode_tilde htilde)⟩

end Spelled

section Exact

def NameStore.Exact (store : NameStore) (files : Files) (held : List Murl) : Prop :=
  ∀ l : FileTree.Listing files store.top, ∃ depth, ∀ levels, depth ≤ levels → ∃ names,
    store.list l.names levels files = .ok names ∧ names.Pairwise (· < ·) ∧
      ∀ s, s ∈ names ↔ ∃ m ∈ held, m.identity = s

variable {store : NameStore} {steps : List NameStep} {held : List Murl} {files : Files} {m : Murl}

theorem Current.exact (hwhole : Path.Whole store.os store.root.toList)
    (h : Current store steps held files) (hsteps : ∀ step ∈ steps, LocalName step.murl)
    (htilde : ∀ m ∈ held, Tildeless m) : store.Exact files held := by
  have hspelled : ∀ m ∈ held, spelled (m.storeKey id) = some m.identity := by
    intro m hm
    obtain ⟨s,hs⟩ := (h.names m hm).parsed
    exact (spelled_iff (parsed_last hs)).mpr
      ⟨(listedText_identity (h.names m hm).local (htilde m hm)).symm,_,Syntax.parse_identity hs⟩
  have hheld : held.filterMap (fun m => spelled (m.storeKey id)) = held.map Murl.identity := by
    rw [List.filterMap_congr hspelled]
    exact congrFun List.filterMap_eq_map' held
  intro l
  refine ⟨deepest steps + 1,fun levels hlevels => ?_⟩
  obtain ⟨names,hlist,hsorted,hperm⟩ := h.list_eq hwhole hsteps l hlevels
  rw [hheld] at hperm
  have hnodup : names.Nodup := hperm.nodup_iff.mpr h.apart
  refine ⟨names,hlist,(hsorted.and hnodup).imp fun hab => lt_of_le_of_ne hab.1 hab.2,fun s => ?_⟩
  rw [hperm.mem_iff,List.mem_map]

theorem Current.tildeless (hwhole : Path.Whole store.os store.root.toList)
    (h : Current store steps held files) (hsteps : ∀ step ∈ steps, LocalName step.murl)
    (hexact : store.Exact files held) : ∀ m ∈ held, Tildeless m := by
  intro m hm
  by_contra htilde
  have hpaths : ∀ k, store.top <+: k → k ≠ store.top → files k ≠ none →
      ∃ q ∈ steps.map fun step => store.key step.murl, k <+: q := by
    intro k htop hne hk
    obtain ⟨step,hstep,hunder⟩ := h.traced k htop hne hk
    exact ⟨_,List.mem_map.mpr ⟨step,hstep,rfl⟩,hunder⟩
  let l := FileTree.Listing.ofPaths _ hpaths
  obtain ⟨depth,hdepth⟩ := hexact l
  obtain ⟨names,hlist,-,hmem⟩ := hdepth (max depth (deepest steps + 1)) (Nat.le_max_left _ _)
  obtain ⟨names',hlist',-,hperm⟩ := h.list_eq hwhole hsteps l (Nat.le_max_right depth _)
  obtain rfl := Except.ok.inj (hlist.symm.trans hlist')
  have hlisted := hperm.mem_iff.mp ((hmem _).mpr ⟨m,hm,rfl⟩)
  obtain ⟨n,hn,hspelled⟩ := List.mem_filterMap.mp hlisted
  obtain ⟨s,hs⟩ := (h.names n hn).parsed
  obtain ⟨htext,-⟩ := (spelled_iff (parsed_last hs)).mp hspelled
  exact listedText_tilde hs (htext ▸ identity_tilde htilde)

end Exact

theorem list_exact_iff {store : NameStore} (hwhole : Path.Whole store.os store.root.toList)
    {steps : List NameStep} {before files : Files} (hbefore : store.Empty before)
    (hsteps : ∀ step ∈ steps, LocalName step.murl)
    (hrun : store.performAll steps before = .ok files) :
    store.Exact files (currentNames steps) ↔ ∀ m ∈ currentNames steps, Tildeless m := by
  have h := (Current.start hbefore).run hwhole steps hsteps hrun
  rw [List.nil_append] at h
  exact ⟨h.tildeless hwhole hsteps,h.exact hwhole hsteps⟩

section Samples

def noFiles : Files := fun _ => none

theorem noFiles_empty (store : NameStore) : store.Empty noFiles :=
  ⟨FileTree.grounded_empty,rfl,fun _ _ _ => rfl⟩

theorem performed {store : NameStore} {steps : List NameStep} {before : Files}
    (h : (store.performAll steps before).isOk = true) :
    ∃ files, store.performAll steps before = .ok files := by
  cases hrun : store.performAll steps before with
  | ok files => exact ⟨files,rfl⟩
  | error e =>
    rw [hrun] at h
    cases h

theorem plan_listed : ∃ files,
    namesStore.performAll [.add teamMurl [1],.add planMurl [2],.remove teamMurl] noFiles = .ok files ∧
      namesStore.Exact files [planMurl] := by
  have hteam : LocalName teamMurl := ⟨⟨"murl://local/team/p.1@1.4",by decide +kernel⟩,rfl⟩
  have hplan : LocalName planMurl := ⟨⟨"murl://local/plan",by decide +kernel⟩,rfl⟩
  have hsteps : ∀ step ∈ [.add teamMurl [1],.add planMurl [2],.remove teamMurl],
      LocalName (NameStep.murl step) :=
    List.forall_mem_cons.mpr ⟨hteam,List.forall_mem_cons.mpr ⟨hplan,List.forall_mem_singleton.mpr hteam⟩⟩
  have hcurrent : currentNames [.add teamMurl [1],.add planMurl [2],.remove teamMurl] = [planMurl] := by
    decide +kernel
  obtain ⟨files,hrun⟩ := @performed namesStore
    [.add teamMurl [1],.add planMurl [2],.remove teamMurl] noFiles (by decide +kernel)
  have hiff := list_exact_iff (Path.whole_posix _) (noFiles_empty namesStore) hsteps hrun
  rw [hcurrent] at hiff
  refine ⟨files,hrun,hiff.mpr (List.forall_mem_singleton.mpr ?_)⟩
  exact List.forall_mem_singleton.mpr (by decide +kernel)

def draftMurl : Murl := ⟨.local,["~draft"],.latest,none,none⟩

theorem tilde_misnamed : ¬∀ (store : NameStore) (steps : List NameStep) (before files : Files),
    Path.Whole store.os store.root.toList → store.Empty before →
      (∀ step ∈ steps, LocalName step.murl) → store.performAll steps before = .ok files →
        store.Exact files (currentNames steps) := by
  intro h
  have hdraft : LocalName draftMurl := ⟨⟨"murl://local/~draft",by decide +kernel⟩,rfl⟩
  have hsteps : ∀ step ∈ [.add draftMurl [1]], LocalName (NameStep.murl step) :=
    List.forall_mem_singleton.mpr hdraft
  have hwhole := Path.whole_posix namesStore.root.toList
  obtain ⟨files,hrun⟩ := @performed namesStore [.add draftMurl [1]] noFiles (by decide +kernel)
  have hexact := h namesStore _ _ files hwhole (noFiles_empty namesStore) hsteps hrun
  have hrunning := (Current.start (noFiles_empty namesStore)).run hwhole _ hsteps hrun
  have htildeless := hrunning.tildeless hwhole (by simpa using hsteps) hexact draftMurl (by decide)
  exact htildeless "~draft" (by decide) (by decide)

end Samples

end MurlSystem

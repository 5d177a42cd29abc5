import MurlSystem.Resolution.Turns

namespace MurlSystem

open Program

def pinHolds (env : Env) (nodes : List ResolvedNode) (doc : ResourceDoc) : Bool :=
  match Kind.parse doc.kind,Murl.parse doc.target,doc.integrity with
  | .ok .murl,.ok child,some pin => nodes.any fun node =>
      node.identity == some child.identity && (checkIntegrity env.crates node.rawBytes pin).isOk
  | _,_,_ => true

def pinsHold (env : Env) (nodes : List ResolvedNode) : Bool :=
  nodes.all fun node => node.manifest.doc.resources.all (pinHolds env nodes)

def Turn.isDiamond (t : Turn) : Bool :=
  match t.fate with
  | .diamond _ => true
  | _ => false

def skippedPinsHold (env : Env) (nodes : List ResolvedNode) (turns : List Turn) : Bool :=
  (turns.filter Turn.isDiamond).all fun t => pinHolds env nodes t.resource

section Pins

variable {env : Env} {cache : Cache} {ref : TargetRef}

theorem pinHolds_leaf {nodes : List ResolvedNode} {doc : ResourceDoc} {kind : Kind}
    (h : Kind.parse doc.kind = .ok kind) (hk : kind ≠ .murl) : pinHolds env nodes doc = true := by
  unfold pinHolds
  rw [h]
  cases kind <;> first | exact absurd rfl hk | rfl

theorem pinHolds_pinned {nodes : List ResolvedNode} {doc : ResourceDoc} {child : Murl}
    (hn : Nested doc child) (h : Pinned env nodes child doc.integrity) :
    pinHolds env nodes doc = true := by
  unfold pinHolds
  rw [hn.kind,hn.parsed]
  cases hpin : doc.integrity with
  | none => rfl
  | some pin =>
    obtain ⟨node,hmem,hid,hcheck⟩ := h
    rw [hpin] at hcheck
    have hok : checkIntegrity env.crates node.rawBytes pin = .ok () := hcheck
    refine List.any_eq_true.mpr ⟨node,hmem,?_⟩
    simp [hid,hok,Except.isOk,Except.toBool]

theorem Turned.pinHolds {r : Run} {site : Site} {rs : List ResourceDoc}
    (h : Turned env ⟨r,[.walk site rs []]⟩)
    (hskip : skippedPinsHold env r.st.nodes r.turns = true) :
    pinsHold env r.st.nodes = true := by
  refine List.all_eq_true.mpr ?_
  intro node hnode
  refine List.all_eq_true.mpr ?_
  intro doc hdoc
  obtain ⟨k,hk⟩ := List.mem_iff_getElem?.mp hnode
  obtain ⟨i,hi⟩ := List.mem_iff_getElem?.mp hdoc
  have hlt : i < node.manifest.doc.resources.length := (List.getElem?_eq_some_iff.mp hi).1
  rcases h.handled k node hk i hlt with ⟨t,ht,hkt,hit⟩ | ⟨s,rs',todo,hf,-,htodo⟩
  · obtain ⟨node',hk',hi'⟩ := h.at_ t ht
    obtain rfl : node = node' := by
      rw [hkt] at hk'
      exact Option.some.inj (hk.symm.trans hk')
    obtain rfl : doc = t.resource := by
      rw [hit] at hi'
      exact Option.some.inj (hi.symm.trans hi')
    have hfate := h.fate t ht
    unfold FateOk at hfate
    cases hf : t.fate with
    | planned =>
      rw [hf] at hfate
      obtain ⟨kind,hparsed,hleaf⟩ := hfate
      exact pinHolds_leaf hparsed hleaf
    | duplicate =>
      rw [hf] at hfate
      obtain ⟨kind,hparsed,hleaf⟩ := hfate
      exact pinHolds_leaf hparsed hleaf
    | diamond child =>
      refine List.all_eq_true.mp hskip t (List.mem_filter.mpr ⟨ht,?_⟩)
      simp [Turn.isDiamond,hf]
    | spliced child =>
      rw [hf] at hfate
      obtain ⟨hnested,hpin⟩ := hfate
      rcases hpin with hpin | ⟨f,hmem,req,hform,-⟩
      · exact pinHolds_pinned hnested hpin
      · obtain rfl := List.mem_singleton.mp hmem
        rcases hform with hform | ⟨_,_,hform⟩ <;> cases hform
  · obtain ⟨-,-,rfl⟩ : s = site ∧ rs' = rs ∧ todo = [] := by simpa using hf
    cases htodo

theorem Turned.skipped {c : Config} (h : Turned env c)
    (hpins : pinsHold env c.run.st.nodes = true) :
    skippedPinsHold env c.run.st.nodes c.run.turns = true := by
  refine List.all_eq_true.mpr ?_
  intro t ht
  obtain ⟨node,hk,hi⟩ := h.at_ t (List.mem_filter.mp ht).1
  have hnode := List.all_eq_true.mp hpins node (List.mem_of_getElem? hk)
  exact List.all_eq_true.mp hnode t.resource (List.mem_of_getElem? hi)

theorem resolveRef_pins (env : Env) (cache : Cache) (ref : TargetRef) :
    wp (resolveRef env ref)
      (fun res r => pinsHold env res.nodes = true ↔
        skippedPinsHold env res.nodes r.turns = true)
      (fun _ _ => True) (Run.start cache) := by
  refine wp_mono (resolveRef_spec env cache ref) ?_ (fun _ _ _ => trivial)
  rintro res r ⟨hfinished,hres⟩
  obtain ⟨hnodes,-,-⟩ := finish_ok hres
  rw [hnodes]
  cases hfinished with
  | all r stack site rs h =>
    have hturned := Turned.reachable h
    exact ⟨hturned.skipped,hturned.pinHolds⟩

end Pins

section Diamond

def leafPage : Value := manifestValue "P" [resourceValue "a" "https" "https://e.com" none]

def pinningPage : Value :=
  manifestValue "Q" [resourceValue "p" "murl" "murl://a.com/p"
    (some "sha256-47DEQpj8HBSa+/TImW+5JCeuQeRkm5NMpJWZG3hSuFU=")]

def diamondPage : Value :=
  manifestValue "R" [resourceValue "x" "murl" "murl://a.com/p" none,
    resourceValue "y" "murl" "murl://a.com/q" none]

def leafDigest : Bytes :=
  [0,209,13,7,96,57,207,111,80,28,102,83,87,59,196,196,26,199,128,83,199,217,161,32,176,28,195,
   222,160,117,220,179]

def emptyDigest : Bytes :=
  [227,176,196,66,152,252,28,20,154,251,244,200,153,111,185,36,39,174,65,228,100,155,147,76,164,
   149,153,27,120,82,184,85]

def diamondEnv : Env :=
  siteEnv
    (siteCrates [leafPage,pinningPage,diamondPage] [(published leafPage,leafDigest)]
      [("47DEQpj8HBSa+/TImW+5JCeuQeRkm5NMpJWZG3hSuFU=",emptyDigest)])
    [("https://a.com/.well-known/murl/p.murl.json",leafPage),
     ("https://a.com/.well-known/murl/q.murl.json",pinningPage),
     ("https://a.com/.well-known/murl/r.murl.json",diamondPage)]

def diamondRef : TargetRef := .murl ⟨.remote "a.com" none,["r"],.latest,none,none⟩

theorem diamond_resolves : finishes (resolveRef diamondEnv diamondRef)
    (fun res _ => !pinsHold diamondEnv res.nodes) (Run.start Cache.empty) = true := by
  simp only [diamondEnv,siteEnv,siteCrates,published_compact]
  decide +kernel

theorem diamond_pin_skipped :
    ¬wp (resolveRef diamondEnv diamondRef) (fun res _ => pinsHold diamondEnv res.nodes = true)
      (fun _ _ => True) (Run.start Cache.empty) := by
  intro h
  obtain ⟨res,r,hok,hbroken⟩ := finishes_ok diamond_resolves
  have hpins := wp_ok h hok
  rw [hpins] at hbroken
  cases hbroken

end Diamond

end MurlSystem

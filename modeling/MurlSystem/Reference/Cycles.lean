import MurlSystem.Foundation.DepthFirst
import MurlSystem.Resolution.Priority

namespace MurlSystem.Reference

inductive Color where
  | white
  | grey
  | black
deriving DecidableEq, Repr

section Search

variable (edges : List (String × List String))

def childrenOf (node : String) : List String := (edges.lookup node).getD []

def colorOf (color : List (String × Color)) (node : String) : Color :=
  (color.lookup node).getD .black

def paint (color : List (String × Color)) (node : String) (c : Color) : List (String × Color) :=
  color.map fun e => if e.1 = node then (e.1,c) else e

def whites (color : List (String × Color)) : Nat := color.countP fun e => e.2 == .white

theorem whites_paint_le (color : List (String × Color)) (node : String) {c : Color}
    (hc : c ≠ .white) : whites (paint color node c) ≤ whites color := by
  unfold whites paint
  rw [List.countP_map]
  refine List.countP_mono_left ?_
  intro e _ he
  simp only [Function.comp_apply] at he
  split at he
  · exact absurd (beq_iff_eq.mp he) hc
  · exact he

theorem whites_paint_lt (color : List (String × Color)) (node : String) {c : Color}
    (hc : c ≠ .white) (h : colorOf color node = .white) :
    whites (paint color node c) < whites color := by
  induction color with
  | nil => cases h
  | cons e rest ih =>
    have hrest := whites_paint_le rest node hc
    have hcw : (c == Color.white) = false := by simpa using hc
    unfold whites paint at hrest ih ⊢
    unfold colorOf at h ih
    rw [List.lookup_cons] at h
    rw [List.map_cons,List.countP_cons,List.countP_cons]
    by_cases hkey : e.1 = node
    · have heq : (node == e.1) = true := beq_iff_eq.mpr hkey.symm
      rw [heq] at h
      have hwhite : e.2 = .white := h
      rw [if_pos hkey]
      simp only [hcw,hwhite]
      simp only [Bool.false_eq_true,if_false,beq_self_eq_true,if_true]
      omega
    · have hne : (node == e.1) = false := beq_eq_false_iff_ne.mpr (Ne.symm hkey)
      rw [hne] at h
      rw [if_neg hkey]
      have hless := ih h
      omega

def explore (color : List (String × Color)) (stack : List (String × List String))
    (path : List String) : Except (List String) (List (String × Color)) :=
  match stack with
  | [] => .ok color
  | (node,children) :: below =>
    match children with
    | [] => explore (paint color node .black) below path.dropLast
    | child :: rest =>
      if colorOf color child = .grey then .error (path.drop (path.idxOf child) ++ [child])
      else if _h : colorOf color child = .white then
        explore (paint color child .grey) ((child,childrenOf edges child) :: (node,rest) :: below)
          (path ++ [child])
      else explore color ((node,rest) :: below) path
termination_by (2 * whites color + stack.length,(stack.head?.map fun f => f.2.length).getD 0)
decreasing_by
  · have hle := whites_paint_le color node (c := .black) (by decide)
    exact Prod.Lex.left _ _ (by simp only [List.length_cons]; omega)
  · have hlt := whites_paint_lt color child (c := .grey) (by decide) _h
    exact Prod.Lex.left _ _ (by simp only [List.length_cons]; omega)
  · refine Prod.Lex.right' _ (by simp) (by simp)

def findFrom (color : List (String × Color)) : List String → Option (List String)
  | [] => none
  | start :: rest =>
    if colorOf color start ≠ .white then findFrom color rest
    else
      match explore edges (paint color start .grey) [(start,childrenOf edges start)] [start] with
      | .error cycle => some cycle
      | .ok color => findFrom color rest

def findCycle : Option (List String) :=
  findFrom edges (edges.map fun e => (e.1,.white)) (edges.map Prod.fst)

end Search

section Walking

open DepthFirst

variable {edges : List (String × List String)} {color : List (String × Color)}
  {stack below : List (String × List String)} {path children rest : List String}
  {node child : String}

def Lists (edges : List (String × List String)) (x y : String) : Prop := y ∈ childrenOf edges x

def blacks (color : List (String × Color)) : Set String := {x | colorOf color x = .black}

def Waiting (edges : List (String × List String)) (color : List (String × Color)) :
    Option String → List (String × List String) → Prop
  | _,[] => True
  | above,(node,children) :: below =>
    (∀ y, Lists edges node y → y ∈ children ∨ y ∈ blacks color ∨ above = some y) ∧
      (∀ y ∈ children, Lists edges node y) ∧ Waiting edges color (some node) below

structure Walking (edges : List (String × List String)) (color : List (String × Color))
    (stack : List (String × List String)) (path : List String) : Prop where
  nodes : path = (stack.map Prod.fst).reverse
  nodup : path.Nodup
  grey : ∀ x, colorOf color x = .grey ↔ x ∈ path
  trail : path.IsChain (Lists edges)
  settled : DepthFirst.Settled (Lists edges) (blacks color)
  waiting : Waiting edges color none stack

theorem lookup_paint (color : List (String × Color)) (node x : String) (c : Color) :
    (paint color node c).lookup x =
      if x = node then (color.lookup x).map fun _ => c else color.lookup x := by
  induction color with
  | nil => simp [paint]
  | cons e rest ih =>
    have hcons : paint (e :: rest) node c =
        (if e.1 = node then (e.1,c) else e) :: paint rest node c := rfl
    have hkey : (if e.1 = node then (e.1,c) else e).1 = e.1 := by split <;> rfl
    rw [hcons,List.lookup_cons,List.lookup_cons,hkey,ih]
    by_cases hx : x = e.1
    · subst hx
      simp only [beq_self_eq_true]
      by_cases hn : e.1 = node
      · simp [hn]
      · simp [hn]
    · have hne : (x == e.1) = false := beq_eq_false_iff_ne.mpr hx
      simp only [hne]

theorem colorOf_paint {c : Color} (h : colorOf color node ≠ .black) (x : String) :
    colorOf (paint color node c) x = if x = node then c else colorOf color x := by
  unfold colorOf at h ⊢
  rw [lookup_paint]
  by_cases hx : x = node
  · subst hx
    rw [if_pos rfl,if_pos rfl]
    cases hl : color.lookup x with
    | none =>
      rw [hl] at h
      exact absurd rfl h
    | some c' => rfl
  · rw [if_neg hx,if_neg hx]

theorem Waiting.mono {color' : List (String × Color)} {above : Option String}
    (h : Waiting edges color above stack) (hsub : blacks color ⊆ blacks color') :
    Waiting edges color' above stack := by
  induction stack generalizing above with
  | nil => trivial
  | cons f below ih =>
    obtain ⟨hlists,hchildren,hbelow⟩ := h
    refine ⟨?_,hchildren,ih hbelow⟩
    intro y hy
    rcases hlists y hy with hrest | hblack | habove
    · exact .inl hrest
    · exact .inr (.inl (hsub hblack))
    · exact .inr (.inr habove)

theorem Walking.path_eq (h : Walking edges color ((node,children) :: below) path) :
    path = (below.map Prod.fst).reverse ++ [node] := by
  rw [h.nodes,List.map_cons,List.reverse_cons]

theorem Walking.node_grey (h : Walking edges color ((node,children) :: below) path) :
    colorOf color node = .grey := by
  refine (h.grey node).mpr ?_
  rw [h.path_eq]
  simp

theorem Walking.pop (h : Walking edges color ((node,[]) :: below) path) :
    Walking edges (paint color node .black) below path.dropLast := by
  have hgrey := h.node_grey
  have hpaint : ∀ x, colorOf (paint color node .black) x =
      if x = node then .black else colorOf color x :=
    colorOf_paint (by rw [hgrey]; decide)
  have hblacks : blacks (paint color node .black) = insert node (blacks color) := by
    ext x
    simp only [blacks,Set.mem_ofPred_eq,Set.mem_insert_iff,hpaint]
    by_cases hx : x = node <;> simp [hx]
  have hdrop : path.dropLast = (below.map Prod.fst).reverse := by
    rw [h.path_eq,List.dropLast_concat]
  have hnodup := h.nodup
  rw [h.path_eq,List.nodup_append] at hnodup
  obtain ⟨hbelow,-,happart⟩ := hnodup
  obtain ⟨hlists,-,hwaiting⟩ := h.waiting
  refine ⟨hdrop,by rw [hdrop]; exact hbelow,?_,h.trail.dropLast,?_,?_⟩
  · intro x
    rw [hpaint,hdrop]
    by_cases hx : x = node
    · subst hx
      rw [if_pos rfl]
      refine ⟨fun hc => (by cases hc),fun hmem => absurd rfl (happart x hmem x (by simp))⟩
    · rw [if_neg hx,h.grey,h.path_eq,List.mem_append,List.mem_singleton]
      exact ⟨fun hm => hm.resolve_right hx,.inl⟩
  · rw [hblacks]
    refine h.settled.insert ?_ ?_
    · intro y hy
      rcases hlists y hy with hrest | hblack | habove
      · cases hrest
      · exact hblack
      · cases habove
    · intro hblack
      have hblack : colorOf color node = .black := hblack
      rw [hgrey] at hblack
      cases hblack
  · cases below with
    | nil => trivial
    | cons f below' =>
      obtain ⟨hlists',hchildren',hbelow'⟩ := hwaiting
      have hsub : blacks color ⊆ blacks (paint color node .black) := by
        rw [hblacks]
        exact Set.subset_insert _ _
      refine ⟨?_,hchildren',hbelow'.mono hsub⟩
      intro y hy
      rcases hlists' y hy with hrest | hblack | habove
      · exact .inl hrest
      · exact .inr (.inl (hsub hblack))
      · obtain rfl := Option.some.inj habove
        exact .inr (.inl (by rw [hblacks]; exact Set.mem_insert _ _))

theorem Walking.push (h : Walking edges color ((node,child :: rest) :: below) path)
    (hwhite : colorOf color child = .white) :
    Walking edges (paint color child .grey)
      ((child,childrenOf edges child) :: (node,rest) :: below) (path ++ [child]) := by
  have hpaint : ∀ x, colorOf (paint color child .grey) x =
      if x = child then .grey else colorOf color x :=
    colorOf_paint (by rw [hwhite]; decide)
  have hblacks : blacks (paint color child .grey) = blacks color := by
    ext x
    simp only [blacks,Set.mem_ofPred_eq,hpaint]
    by_cases hx : x = child <;> simp [hx,hwhite]
  have hfresh : child ∉ path := by
    intro hmem
    rw [(h.grey child).mpr hmem] at hwhite
    cases hwhite
  obtain ⟨hlists,hchildren,hwaiting⟩ := h.waiting
  refine ⟨?_,?_,?_,?_,by rw [hblacks]; exact h.settled,?_⟩
  · rw [h.nodes]
    simp
  · refine List.nodup_append.mpr ⟨h.nodup,by simp,?_⟩
    intro a ha b hb hab
    obtain rfl : b = child := by simpa using hb
    exact hfresh (hab ▸ ha)
  · intro x
    rw [hpaint,List.mem_append,List.mem_singleton]
    by_cases hx : x = child
    · simp [hx]
    · rw [if_neg hx,h.grey]
      exact ⟨.inl,fun hm => hm.resolve_right hx⟩
  · refine List.isChain_append.mpr ⟨h.trail,List.isChain_singleton _,?_⟩
    intro x hx y hy
    obtain rfl : child = y := by simpa using hy
    rw [h.path_eq,List.getLast?_concat] at hx
    obtain rfl := Option.some.inj hx
    exact hchildren child List.mem_cons_self
  · have hsub : blacks color ⊆ blacks (paint color child .grey) := hblacks.ge
    refine ⟨fun y hy => .inl hy,fun y hy => hy,?_,?_,hwaiting.mono hsub⟩
    · intro y hy
      rcases hlists y hy with hmem | hblack | habove
      · rcases List.mem_cons.mp hmem with rfl | hrest
        · exact .inr (.inr rfl)
        · exact .inl hrest
      · exact .inr (.inl (hsub hblack))
      · cases habove
    · intro y hy
      exact hchildren y (List.mem_cons_of_mem _ hy)

theorem Walking.skip (h : Walking edges color ((node,child :: rest) :: below) path)
    (hblack : colorOf color child = .black) :
    Walking edges color ((node,rest) :: below) path := by
  obtain ⟨hlists,hchildren,hwaiting⟩ := h.waiting
  refine ⟨h.nodes,h.nodup,h.grey,h.trail,h.settled,?_,?_,hwaiting⟩
  · intro y hy
    rcases hlists y hy with hmem | hdone | habove
    · rcases List.mem_cons.mp hmem with rfl | hrest
      · exact .inr (.inl hblack)
      · exact .inl hrest
    · exact .inr (.inl hdone)
    · cases habove
  · intro y hy
    exact hchildren y (List.mem_cons_of_mem _ hy)

theorem Walking.cycle (h : Walking edges color ((node,child :: rest) :: below) path)
    (hgrey : colorOf color child = .grey) :
    IsCycle (Lists edges) (path.drop (path.idxOf child) ++ [child]) := by
  refine isCycle_of_trail h.trail ?_ ((h.grey child).mp hgrey)
  intro y hy
  rw [h.path_eq,List.getLast?_concat] at hy
  obtain rfl := Option.some.inj hy
  exact h.waiting.2.1 child List.mem_cons_self

theorem explore_spec (h : Walking edges color stack path) :
    (∀ cycle, explore edges color stack path = .error cycle → IsCycle (Lists edges) cycle) ∧
    ∀ color', explore edges color stack path = .ok color' → Walking edges color' [] [] ∧
      ∀ x, colorOf color x ≠ .white → colorOf color' x ≠ .white := by
  induction color, stack, path using explore.induct edges with
  | case1 color path =>
    rw [explore]
    refine ⟨fun cycle hc => (by cases hc),fun color' hc => ?_⟩
    cases hc
    have hpath : path = [] := h.nodes
    subst hpath
    exact ⟨h,fun x hx => hx⟩
  | case2 color path node below ih =>
    rw [explore]
    obtain ⟨herr,hok⟩ := ih h.pop
    refine ⟨herr,fun color' hc => ?_⟩
    obtain ⟨hwalk,hmono⟩ := hok color' hc
    refine ⟨hwalk,fun x hx => hmono x ?_⟩
    rw [colorOf_paint (by rw [h.node_grey]; decide)]
    split
    · decide
    · exact hx
  | case3 color path node below child rest hgrey =>
    rw [explore,if_pos hgrey]
    refine ⟨fun cycle hc => ?_,fun color' hc => (by cases hc)⟩
    cases hc
    exact h.cycle hgrey
  | case4 color path node below child rest hgrey hwhite ih =>
    rw [explore,if_neg hgrey,dif_pos hwhite]
    obtain ⟨herr,hok⟩ := ih (h.push hwhite)
    refine ⟨herr,fun color' hc => ?_⟩
    obtain ⟨hwalk,hmono⟩ := hok color' hc
    refine ⟨hwalk,fun x hx => hmono x ?_⟩
    rw [colorOf_paint (by rw [hwhite]; decide)]
    split
    · decide
    · exact hx
  | case5 color path node below child rest hgrey hwhite ih =>
    rw [explore,if_neg hgrey,dif_neg hwhite]
    refine ih (h.skip ?_)
    cases hc : colorOf color child with
    | white => exact absurd hc hwhite
    | grey => exact absurd hc hgrey
    | black => rfl

end Walking

section Starts

open DepthFirst

variable {edges : List (String × List String)} {color : List (String × Color)} {start : String}

theorem Walking.enter (h : Walking edges color [] []) (hwhite : colorOf color start = .white) :
    Walking edges (paint color start .grey) [(start,childrenOf edges start)] [start] := by
  have hpaint : ∀ x, colorOf (paint color start .grey) x =
      if x = start then .grey else colorOf color x :=
    colorOf_paint (by rw [hwhite]; decide)
  have hblacks : blacks (paint color start .grey) = blacks color := by
    ext x
    simp only [blacks,Set.mem_ofPred_eq,hpaint]
    by_cases hx : x = start <;> simp [hx,hwhite]
  refine ⟨rfl,List.nodup_singleton _,?_,List.isChain_singleton _,by rw [hblacks]; exact h.settled,
    fun y hy => .inl hy,fun y hy => hy,trivial⟩
  intro x
  rw [hpaint,List.mem_singleton]
  by_cases hx : x = start
  · simp [hx]
  · rw [if_neg hx,h.grey]
    simp [hx]

theorem findFrom_spec {starts : List String} (h : Walking edges color [] []) :
    (∀ cycle, findFrom edges color starts = some cycle → IsCycle (Lists edges) cycle) ∧
    (findFrom edges color starts = none → ∃ color', Walking edges color' [] [] ∧
      (∀ x, colorOf color x ≠ .white → colorOf color' x ≠ .white) ∧
      ∀ x ∈ starts, colorOf color' x ≠ .white) := by
  induction starts generalizing color with
  | nil =>
    refine ⟨fun cycle hc => (by cases hc),fun _ => ⟨color,h,fun x hx => hx,?_⟩⟩
    intro x hx
    cases hx
  | cons start rest ih =>
    rw [findFrom]
    by_cases hwhite : colorOf color start = .white
    · rw [if_neg (not_not.mpr hwhite)]
      obtain ⟨herr,hok⟩ := explore_spec (h.enter hwhite)
      cases hrun : explore edges (paint color start .grey) [(start,childrenOf edges start)]
          [start] with
      | error cycle =>
        refine ⟨fun cycle' hc => ?_,fun hc => (by cases hc)⟩
        cases hc
        exact herr _ hrun
      | ok color' =>
        obtain ⟨hwalk,hmono⟩ := hok color' hrun
        have hpaint : ∀ x, colorOf (paint color start .grey) x =
            if x = start then .grey else colorOf color x :=
          colorOf_paint (by rw [hwhite]; decide)
        obtain ⟨hcycle,hnone⟩ := ih hwalk
        refine ⟨hcycle,fun hc => ?_⟩
        obtain ⟨last,hlast,hkept,hstarts⟩ := hnone hc
        refine ⟨last,hlast,fun x hx => hkept x (hmono x ?_),?_⟩
        · rw [hpaint]
          split
          · decide
          · exact hx
        · intro x hx
          rcases List.mem_cons.mp hx with rfl | hx
          · exact hkept x (hmono x (by rw [hpaint,if_pos rfl]; decide))
          · exact hstarts x hx
    · rw [if_pos hwhite]
      obtain ⟨hcycle,hnone⟩ := ih h
      refine ⟨hcycle,fun hc => ?_⟩
      obtain ⟨last,hlast,hkept,hstarts⟩ := hnone hc
      refine ⟨last,hlast,hkept,?_⟩
      intro x hx
      rcases List.mem_cons.mp hx with rfl | hx
      · exact hkept x hwhite
      · exact hstarts x hx

theorem colorOf_initial (x : String) : colorOf (edges.map fun e => (e.1,.white)) x =
    if (edges.lookup x).isSome then .white else .black := by
  unfold colorOf
  induction edges with
  | nil => rfl
  | cons e rest ih =>
    rw [List.map_cons,List.lookup_cons,List.lookup_cons]
    cases x == e.1 with
    | true => rfl
    | false => exact ih

theorem Walking.initial : Walking edges (edges.map fun e => (e.1,.white)) [] [] := by
  have hleaf : ∀ x ∈ blacks (edges.map fun e => (e.1,Color.white)), ∀ y, ¬Lists edges x y := by
    intro x hx y hy
    have hx : colorOf (edges.map fun e => (e.1,Color.white)) x = .black := hx
    rw [colorOf_initial] at hx
    unfold Lists childrenOf at hy
    cases hl : edges.lookup x with
    | none =>
      rw [hl] at hy
      cases hy
    | some children =>
      rw [hl] at hx
      cases hx
  refine ⟨rfl,List.nodup_nil,?_,List.isChain_nil,⟨?_,?_⟩,trivial⟩
  · intro x
    rw [colorOf_initial]
    refine ⟨fun hc => ?_,fun hc => (by cases hc)⟩
    split at hc
    · cases hc
    · cases hc
  · intro x hx y hy
    exact absurd hy (hleaf x hx y)
  · intro x hx hcycle
    obtain ⟨y,hy,-⟩ := Relation.TransGen.head'_iff.mp hcycle
    exact hleaf x hx y hy

theorem findCycle_some {cycle : List String} (h : findCycle edges = some cycle) :
    IsCycle (Lists edges) cycle := (findFrom_spec Walking.initial).1 cycle h

theorem findCycle_none (h : findCycle edges = none) (x : String) :
    ¬Relation.TransGen (Lists edges) x x := by
  obtain ⟨last,hlast,hkept,hstarts⟩ := (findFrom_spec Walking.initial).2 h
  have hnotWhite : colorOf last x ≠ .white := by
    cases hl : edges.lookup x with
    | none => exact hkept x (by rw [colorOf_initial,hl]; decide)
    | some children =>
      refine hstarts x (List.mem_map.mpr ⟨(x,children),?_,rfl⟩)
      obtain ⟨pre,post,rfl,-⟩ := List.lookup_eq_some_iff.mp hl
      simp
  refine hlast.settled.acyclic x ?_
  change colorOf last x = .black
  cases hc : colorOf last x with
  | white => exact absurd hc hnotWhite
  | grey => exact absurd ((hlast.grey x).mp hc) List.not_mem_nil
  | black => rfl

theorem findCycle_iff : (∃ cycle, findCycle edges = some cycle) ↔
    ∃ x, Relation.TransGen (Lists edges) x x := by
  constructor
  · rintro ⟨cycle,h⟩
    exact (findCycle_some h).transGen
  · rintro ⟨x,hx⟩
    cases hf : findCycle edges with
    | some cycle => exact ⟨cycle,rfl⟩
    | none => exact absurd hx (findCycle_none hf x)

end Starts

section Edges

open DepthFirst

structure Declared where
  id : String
  dependsOn : Option (List String)
deriving DecidableEq, Repr

def assign (edges : List (String × List String)) (id : String) (children : List String) :
    List (String × List String) :=
  if edges.any fun e => e.1 == id then
    edges.map fun e => if e.1 = id then (e.1,children) else e
  else edges ++ [(id,children)]

def addEdges (known : List String) (edges : List (String × List String)) (r : Declared) :
    List (String × List String) :=
  match r.dependsOn with
  | none => edges
  | some deps => assign edges r.id (deps.filter fun dep => known.contains dep && dep != r.id)

def dependsOnEdges (resources : List Declared) : List (String × List String) :=
  resources.foldl (addEdges (resources.map Declared.id)) []

def Declared.edge (r : Declared) : Option (String × List String) :=
  r.dependsOn.map fun deps => (r.id,deps)

structure SameGraph (r : Declared) (doc : ResourceDoc) : Prop where
  id : doc.id = r.id
  dependsOn : doc.dependsOn = r.dependsOn.getD []

def Names (docs : List ResourceDoc) (x y : String) : Prop :=
  ∃ doc ∈ docs, doc.id = x ∧ y ∈ doc.dependsOn

structure WellFormed (docs : List ResourceDoc) : Prop where
  unique : (docs.map ResourceDoc.id).Nodup
  known : ∀ doc ∈ docs, ∀ dep ∈ doc.dependsOn, dep ∈ docs.map ResourceDoc.id
  irreflexive : ∀ doc ∈ docs, doc.id ∉ doc.dependsOn

variable {resources : List Declared} {docs : List ResourceDoc} {known : List String}

theorem assign_fresh {edges : List (String × List String)} {id : String} {children : List String}
    (h : id ∉ edges.map Prod.fst) : assign edges id children = edges ++ [(id,children)] := by
  unfold assign
  rw [if_neg]
  intro hany
  obtain ⟨e,he,hid⟩ := List.any_eq_true.mp hany
  exact h (List.mem_map.mpr ⟨e,he,beq_iff_eq.mp hid⟩)

theorem addEdges_fold {edges : List (String × List String)}
    (hunique : (edges.map Prod.fst ++ resources.map Declared.id).Nodup)
    (hclean : ∀ r ∈ resources, ∀ deps, r.dependsOn = some deps →
      ∀ dep ∈ deps, dep ∈ known ∧ dep ≠ r.id) :
    resources.foldl (addEdges known) edges = edges ++ resources.filterMap Declared.edge := by
  induction resources generalizing edges with
  | nil => simp
  | cons r rest ih =>
    rw [List.foldl_cons]
    have hrest : ∀ r' ∈ rest, ∀ deps, r'.dependsOn = some deps →
        ∀ dep ∈ deps, dep ∈ known ∧ dep ≠ r'.id :=
      fun r' hr' => hclean r' (List.mem_cons_of_mem _ hr')
    cases hdeps : r.dependsOn with
    | none =>
      have hadd : addEdges known edges r = edges := by simp only [addEdges,hdeps]
      have hedge : r.edge = none := by simp only [Declared.edge,hdeps,Option.map_none]
      rw [hadd,List.filterMap_cons_none hedge]
      refine ih (hunique.sublist ?_) hrest
      exact (List.Sublist.refl _).append (List.sublist_cons_self _ _)
    | some deps =>
      have hfilter : (deps.filter fun dep => known.contains dep && dep != r.id) = deps := by
        refine List.filter_eq_self.mpr ?_
        intro dep hdep
        obtain ⟨hknown,hne⟩ := hclean r List.mem_cons_self deps hdeps dep hdep
        rw [Bool.and_eq_true]
        exact ⟨List.contains_iff_mem.mpr hknown,bne_iff_ne.mpr hne⟩
      have hfresh : r.id ∉ edges.map Prod.fst := by
        rw [List.map_cons] at hunique
        exact fun hmem => (List.nodup_append.mp hunique).2.2 _ hmem _ List.mem_cons_self rfl
      have hadd : addEdges known edges r = edges ++ [(r.id,deps)] := by
        simp only [addEdges,hdeps]
        rw [hfilter,assign_fresh hfresh]
      have hedge : r.edge = some (r.id,deps) := by
        simp only [Declared.edge,hdeps,Option.map_some]
      rw [hadd,List.filterMap_cons_some hedge,ih ?_ hrest,List.append_assoc]
      · rfl
      · simpa using hunique

theorem lookup_edges (hunique : (resources.map Declared.id).Nodup) {x y : String} :
    y ∈ ((resources.filterMap Declared.edge).lookup x).getD [] ↔
      ∃ r ∈ resources, r.id = x ∧ y ∈ r.dependsOn.getD [] := by
  induction resources with
  | nil => simp
  | cons r rest ih =>
    rw [List.map_cons,List.nodup_cons] at hunique
    obtain ⟨hfresh,hrest⟩ := hunique
    have hih := ih hrest
    have hother : r.id = x → ¬∃ r' ∈ rest, r'.id = x ∧ y ∈ r'.dependsOn.getD [] := by
      rintro rfl ⟨r',hr',hid,-⟩
      exact hfresh (List.mem_map.mpr ⟨r',hr',hid⟩)
    have hsplit : (∃ r' ∈ r :: rest, r'.id = x ∧ y ∈ r'.dependsOn.getD []) ↔
        (r.id = x ∧ y ∈ r.dependsOn.getD []) ∨
          ∃ r' ∈ rest, r'.id = x ∧ y ∈ r'.dependsOn.getD [] := List.exists_mem_cons_iff _ _ _
    rw [hsplit]
    cases hdeps : r.dependsOn with
    | none =>
      have hedge : r.edge = none := by simp only [Declared.edge,hdeps,Option.map_none]
      rw [List.filterMap_cons_none hedge,hih]
      simp
    | some deps =>
      have hedge : r.edge = some (r.id,deps) := by
        simp only [Declared.edge,hdeps,Option.map_some]
      rw [List.filterMap_cons_some hedge,List.lookup_cons]
      by_cases hx : x = r.id
      · have hself : (x == r.id) = true := beq_iff_eq.mpr hx
        rw [hself]
        constructor
        · exact fun hy => .inl ⟨hx.symm,hy⟩
        · rintro (⟨-,hy⟩ | hy)
          · exact hy
          · exact absurd hy (hother hx.symm)
      · have hne : (x == r.id) = false := beq_eq_false_iff_ne.mpr hx
        rw [hne]
        refine hih.trans ⟨.inr,?_⟩
        rintro (⟨hid,-⟩ | hy)
        · exact absurd hid.symm hx
        · exact hy

theorem sameGraph_ids (h : List.Forall₂ SameGraph resources docs) :
    docs.map ResourceDoc.id = resources.map Declared.id := by
  induction h with
  | nil => rfl
  | cons hhead _ ih => rw [List.map_cons,List.map_cons,hhead.id,ih]

theorem sameGraph_names (h : List.Forall₂ SameGraph resources docs) {x y : String} :
    (∃ r ∈ resources, r.id = x ∧ y ∈ r.dependsOn.getD []) ↔ Names docs x y := by
  unfold Names
  induction h with
  | nil => simp
  | cons hhead _ ih =>
    rw [List.exists_mem_cons_iff,List.exists_mem_cons_iff,ih,hhead.id,hhead.dependsOn]

theorem lists_names (h : List.Forall₂ SameGraph resources docs) (hgraph : WellFormed docs) :
    Lists (dependsOnEdges resources) = Names docs := by
  have hids := sameGraph_ids h
  have hunique : (resources.map Declared.id).Nodup := hids ▸ hgraph.unique
  have hclean : ∀ r ∈ resources, ∀ deps, r.dependsOn = some deps →
      ∀ dep ∈ deps, dep ∈ resources.map Declared.id ∧ dep ≠ r.id := by
    intro r hr deps hdeps dep hdep
    obtain ⟨doc,hdoc,hid,hmem⟩ := (sameGraph_names h).mp
      ⟨r,hr,rfl,(by rw [hdeps]; exact hdep : dep ∈ r.dependsOn.getD [])⟩
    refine ⟨hids ▸ hgraph.known doc hdoc dep hmem,?_⟩
    rintro rfl
    exact hgraph.irreflexive doc hdoc (by rw [hid]; exact hmem)
  have hstart : ((([] : List (String × List String)).map Prod.fst) ++
      resources.map Declared.id).Nodup := by simpa using hunique
  have hedges : dependsOnEdges resources = resources.filterMap Declared.edge :=
    addEdges_fold hstart hclean
  funext x y
  refine propext ?_
  unfold Lists childrenOf
  rw [hedges,lookup_edges hunique,sameGraph_names h]

theorem needs_names (hgraph : WellFormed docs) :
    (∃ i, Relation.TransGen (Needs docs) i i) ↔ ∃ x, Relation.TransGen (Names docs) x x := by
  constructor
  · rintro ⟨i,hi⟩
    refine ⟨_,hi.lift (fun k => (docs[k]?.map ResourceDoc.id).getD "") ?_⟩
    rintro a b ⟨-,ra,rb,ha,hb,hmem⟩
    refine ⟨ra,List.mem_of_getElem? ha,?_,?_⟩
    · simp only [ha,Option.map_some,Option.getD_some]
    · simp only [hb,Option.map_some,Option.getD_some]
      exact hmem
  · rintro ⟨x,hx⟩
    refine ⟨_,hx.lift (fun id => (indexOf docs id).getD 0) ?_⟩
    rintro a b ⟨doc,hdoc,rfl,hmem⟩
    obtain ⟨i,hi⟩ := List.getElem?_of_mem hdoc
    obtain ⟨target,htarget,rfl⟩ := List.mem_map.mp (hgraph.known doc hdoc b hmem)
    obtain ⟨j,hj⟩ := List.getElem?_of_mem htarget
    have hindexi : indexOf docs doc.id = some i := (indexOf_iff hgraph.unique).mpr ⟨doc,hi,rfl⟩
    have hindexj : indexOf docs target.id = some j :=
      (indexOf_iff hgraph.unique).mpr ⟨target,hj,rfl⟩
    change Needs docs ((indexOf docs doc.id).getD 0) ((indexOf docs target.id).getD 0)
    rw [hindexi,hindexj,Option.getD_some,Option.getD_some]
    refine ⟨?_,doc,target,hi,hj,hmem⟩
    rintro rfl
    rw [hi] at hj
    obtain rfl := Option.some.inj hj
    exact hgraph.irreflexive doc hdoc hmem

theorem cycle_detectors_agree (resources : List Declared) (docs : List ResourceDoc)
    (same : List.Forall₂ SameGraph resources docs) (graph : WellFormed docs) :
    ((∃ cycle, findCycle (dependsOnEdges resources) = some cycle) ↔
      ∃ e, executionOrder docs = .error e) ∧
    ∀ cycle, findCycle (dependsOnEdges resources) = some cycle → IsCycle (Names docs) cycle := by
  have hedges := lists_names same graph
  constructor
  · rw [findCycle_iff,hedges,executionOrder_error_iff graph.unique,needs_names graph]
  · intro cycle hcycle
    rw [← hedges]
    exact findCycle_some hcycle

def loopTask (id : String) (dependsOn : List String) : ResourceDoc :=
  ⟨id,"https","https://example.com/",none,none,false,0,dependsOn,[],none,none⟩

def loopDocs : List ResourceDoc :=
  [loopTask "a" ["d","b"],loopTask "b" ["c"],loopTask "c" ["b"],loopTask "d" []]

def loopDeclared : List Declared :=
  [⟨"a",some ["d","b"]⟩,⟨"b",some ["c"]⟩,⟨"c",some ["b"]⟩,⟨"d",none⟩]

theorem loop_found : findCycle (dependsOnEdges loopDeclared) = some ["b","c","b"] ∧
    (∃ e, executionOrder loopDocs = .error e) ∧ IsCycle (Names loopDocs) ["b","c","b"] := by
  have hfound : findCycle (dependsOnEdges loopDeclared) = some ["b","c","b"] := by
    have hedges : dependsOnEdges loopDeclared =
        [("a",["d","b"]),("b",["c"]),("c",["b"])] := by decide +kernel
    rw [hedges]
    simp [findCycle,findFrom,explore,colorOf,paint,childrenOf,List.lookup_cons,List.idxOf,
      List.findIdx_cons]
  have hsame : List.Forall₂ SameGraph loopDeclared loopDocs := by
    refine .cons ⟨rfl,rfl⟩ (.cons ⟨rfl,rfl⟩ (.cons ⟨rfl,rfl⟩ (.cons ⟨rfl,rfl⟩ .nil)))
  have hgraph : WellFormed loopDocs := ⟨by decide +kernel,by decide +kernel,by decide +kernel⟩
  obtain ⟨hagree,hcycle⟩ := cycle_detectors_agree loopDeclared loopDocs hsame hgraph
  exact ⟨hfound,hagree.mp ⟨_,hfound⟩,hcycle _ hfound⟩

end Edges

end MurlSystem.Reference

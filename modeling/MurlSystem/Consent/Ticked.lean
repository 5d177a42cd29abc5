import MurlSystem.Consent.Dialog

namespace MurlSystem

open Program

structure Solid (id : List Char) : Prop where
  nonempty : id ≠ []
  spaceless : ∀ c ∈ id, Text.isWhitespace c = false
  unquoted : ∀ c ∈ id, (c == '"') = false
  printable : ∀ c ∈ id, Text.isControl c = false

def OneLine (row : List Char) : Prop := ∀ c ∈ row, c ≠ '\n' ∧ c ≠ '\r'

section Ids

theorem isLowerAlnum_range {c : Char} (h : isLowerAlnum c = true) :
    48 ≤ c.toNat ∧ c.toNat ≤ 122 := by
  simp only [isLowerAlnum,Bool.or_eq_true,Bool.and_eq_true,decide_eq_true_eq] at h
  rcases h with ⟨hlo,hhi⟩ | ⟨hlo,hhi⟩
  · have hlo : 97 ≤ c.toNat := hlo
    have hhi : c.toNat ≤ 122 := hhi
    omega
  · have hlo : 48 ≤ c.toNat := hlo
    have hhi : c.toNat ≤ 57 := hhi
    omega

theorem idChar_range {c : Char} (h : isLowerAlnum c = true ∨ c = '-' ∨ c = '_') :
    45 ≤ c.toNat ∧ c.toNat ≤ 122 := by
  rcases h with h | rfl | rfl
  · have hrange := isLowerAlnum_range h
    omega
  · decide
  · decide

theorem isWhitespace_graphic {c : Char} (h : 45 ≤ c.toNat ∧ c.toNat ≤ 122) :
    Text.isWhitespace c = false := by
  simp only [Text.isWhitespace,Bool.or_eq_false_iff,Bool.and_eq_false_iff,decide_eq_false_iff_not,
    beq_eq_false_iff_ne]
  omega

theorem isControl_graphic {c : Char} (h : 45 ≤ c.toNat ∧ c.toNat ≤ 122) :
    Text.isControl c = false := by
  simp only [Text.isControl,Bool.or_eq_false_iff,Bool.and_eq_false_iff,decide_eq_false_iff_not]
  omega

theorem validId_solid {s : String} (h : isValidResourceId s = true) : Solid s.toList := by
  obtain ⟨hne,hchars⟩ := matchesIdent_chars h
  have hrange : ∀ c ∈ s.toList, 45 ≤ c.toNat ∧ c.toNat ≤ 122 := by
    intro c hc
    refine idChar_range ?_
    rcases hchars c hc with hfirst | hrest
    · exact .inl hfirst
    · simpa [or_assoc] using hrest
  refine ⟨hne,fun c hc => isWhitespace_graphic (hrange c hc),?_,
    fun c hc => isControl_graphic (hrange c hc)⟩
  intro c hc
  rw [beq_eq_false_iff_ne]
  rintro rfl
  have hlow := (hrange _ hc).1
  revert hlow
  decide

theorem oneLine_of_printable {row : List Char} (h : ∀ c ∈ row, Text.isControl c = false) :
    OneLine row := by
  intro c hc
  have hprint := h c hc
  constructor
  · rintro rfl
    revert hprint
    decide
  · rintro rfl
    revert hprint
    decide

theorem Solid.reads {id rest : List Char} (h : Solid id)
    (hrest : ∀ c ∈ rest.head?, Text.isWhitespace c = true) :
    answerId (id ++ rest) = id := by
  have hhead : ∀ {a b : List Char}, Text.HeadOf a b → (∀ c ∈ b.head?, Text.isWhitespace c = true) →
      ∀ c ∈ a.head?, Text.isWhitespace c = true := by
    rintro a b (rfl | ⟨d,x,y,rfl,rfl⟩) hb c hc
    · cases hc
    · exact hb c hc
  obtain ⟨rest₁,htrim,hof⟩ := Text.trim_keeps rest h.nonempty h.spaceless
  obtain ⟨rest₂,hquote,hof'⟩ := Text.trim_keeps rest₁ h.nonempty h.unquoted
  rw [answerId,htrim,hquote]
  exact Text.words_headD h.nonempty h.spaceless (hhead (hof'.trans hof) hrest)

theorem Solid.reads_quoted {id : List Char} (h : Solid id) :
    answerId ('"' :: (id ++ ['"'])) = id := by
  have htrim : Text.trim Text.isWhitespace ('"' :: (id ++ ['"'])) = '"' :: (id ++ ['"']) := by
    have hend : Text.trimEnd Text.isWhitespace (('"' :: id) ++ ['"']) = ('"' :: id) ++ ['"'] :=
      Text.trimEnd_eq_self (by decide)
    have hdrop : ('"' :: (id ++ ['"'])).dropWhile Text.isWhitespace = '"' :: (id ++ ['"']) := by
      rw [List.dropWhile_cons_of_neg (by decide)]
    rw [Text.trim,hdrop]
    simpa using hend
  have hquote : Text.trim (· == '"') ('"' :: (id ++ ['"'])) = id := by
    obtain ⟨c,t,rfl⟩ := List.exists_cons_of_ne_nil h.nonempty
    have hdrop : ('"' :: (c :: t ++ ['"'])).dropWhile (· == '"') = (c :: t) ++ ['"'] := by
      simp [h.unquoted c (by simp)]
    rw [Text.trim,hdrop,Text.trimEnd_append_all _ (by simp),Text.trimEnd_solid h.unquoted]
  rw [answerId,htrim,hquote,Text.words_solid h.nonempty h.spaceless]
  rfl

end Ids

section Rows

def Backend.label : Backend → ConsentItem → String
  | .zenity,item => item.id
  | .kdialog,item => item.id
  | .osascript,item => osascriptCell item

theorem zenityRows_cells (items : List ConsentItem) :
    zenityRows (items.flatMap zenityCells) = items.map ConsentItem.id := by
  induction items with
  | nil => rfl
  | cons item rest ih =>
    rw [List.flatMap_cons,List.map_cons,← ih]
    rfl

theorem kdialogRows_cells (items : List ConsentItem) :
    kdialogRows (items.flatMap kdialogCells) = items.map ConsentItem.id := by
  induction items with
  | nil => rfl
  | cons item rest ih =>
    rw [List.flatMap_cons,List.map_cons,← ih]
    rfl

theorem rows_argv (backend : Backend) (request : ConsentRequest) :
    backend.rows (backend.argv request) = request.items.map backend.label := by
  cases backend with
  | zenity => exact zenityRows_cells request.items
  | kdialog => exact kdialogRows_cells request.items
  | osascript => rfl

theorem osascriptCell_toList (item : ConsentItem) :
    (osascriptCell item).toList = item.id.toList ++ "  ·  ".toList ++ item.tier.toString.toList ++
      "  ·  ".toList ++ (clip item.target).toList := by
  simp [osascriptCell,toString]

theorem clip_printable (s : String) : ∀ c ∈ (clip s).toList, Text.isControl c = false := by
  have hclean : ∀ c ∈ s.toList.filter (fun c => !Text.isControl c), Text.isControl c = false := by
    intro c hc
    simpa using (List.mem_filter.mp hc).2
  intro c hc
  unfold clip at hc
  dsimp only at hc
  split at hc
  · exact hclean c (by simpa using hc)
  · rw [String.toList_ofList] at hc
    rcases List.mem_append.mp hc with hc | hc
    · exact hclean c (List.mem_of_mem_take hc)
    · obtain rfl := List.mem_singleton.mp hc
      decide

theorem printable_of_all {s : List Char} (h : (s.all fun c => !Text.isControl c) = true) :
    ∀ c ∈ s, Text.isControl c = false := by
  intro c hc
  simpa using List.all_eq_true.mp h c hc

theorem tier_printable (t : Tier) : ∀ c ∈ t.toString.toList, Text.isControl c = false :=
  printable_of_all (by cases t <;> decide +kernel)

theorem gap_printable : ∀ c ∈ "  ·  ".toList, Text.isControl c = false :=
  printable_of_all (by decide +kernel)

theorem osascriptCell_printable {item : ConsentItem} (h : Solid item.id.toList) :
    ∀ c ∈ (osascriptCell item).toList, Text.isControl c = false := by
  intro c hc
  rw [osascriptCell_toList,List.mem_append,List.mem_append,List.mem_append,List.mem_append] at hc
  rcases hc with (((hc | hc) | hc) | hc) | hc
  · exact h.printable c hc
  · exact gap_printable c hc
  · exact tier_printable item.tier c hc
  · exact gap_printable c hc
  · exact clip_printable item.target c hc

theorem prints_oneLine {item : ConsentItem} (h : Solid item.id.toList) (backend : Backend)
    (style : Style) : OneLine (backend.prints style (backend.label item)) := by
  have hlabel : ∀ c ∈ (backend.label item).toList, Text.isControl c = false := by
    cases backend with
    | zenity => exact h.printable
    | kdialog => exact h.printable
    | osascript => exact osascriptCell_printable h
  refine oneLine_of_printable ?_
  intro c hc
  unfold Backend.prints at hc
  split at hc
  · simp only [List.mem_cons,List.mem_append,List.not_mem_nil,or_false] at hc
    rcases hc with rfl | hc | rfl
    · decide
    · exact hlabel c hc
    · decide
  · exact hlabel c hc

theorem prints_reads {item : ConsentItem} (h : Solid item.id.toList) (backend : Backend)
    (style : Style) : answerId (backend.prints style (backend.label item)) = item.id.toList := by
  have hplain : answerId item.id.toList = item.id.toList := by
    have hnil : answerId (item.id.toList ++ []) = item.id.toList := h.reads (by simp)
    rwa [List.append_nil] at hnil
  cases backend with
  | zenity => exact hplain
  | kdialog =>
    unfold Backend.prints
    split
    · exact h.reads_quoted
    · exact hplain
  | osascript =>
    have hprints : Backend.osascript.prints style (Backend.osascript.label item) =
        item.id.toList ++ ("  ·  ".toList ++ item.tier.toString.toList ++ "  ·  ".toList ++
          (clip item.target).toList) := by
      simp only [Backend.prints,Backend.label,osascriptCell_toList,List.append_assoc]
      rfl
    rw [hprints]
    refine h.reads ?_
    simp [Text.isWhitespace]

end Rows

section Output

variable {α β : Type} {ticked : Nat → Bool}

theorem tickedFrom_map (f : α → β) (k : Nat) (l : List α) :
    tickedFrom ticked k (l.map f) = (tickedFrom ticked k l).map f := by
  induction l generalizing k with
  | nil => rfl
  | cons x rest ih =>
    rw [List.map_cons,tickedFrom,tickedFrom]
    split <;> simp [ih]

theorem tickedFrom_subset {k : Nat} {l : List α} {x : α} (h : x ∈ tickedFrom ticked k l) :
    x ∈ l := by
  induction l generalizing k with
  | nil => exact h
  | cons y rest ih =>
    rw [tickedFrom] at h
    split at h
    · rcases List.mem_cons.mp h with rfl | h
      · exact List.mem_cons_self
      · exact List.mem_cons_of_mem _ (ih h)
    · exact List.mem_cons_of_mem _ (ih h)

theorem tickedFrom_later {q k : Nat} (h : q < k) (l : List α) :
    tickedFrom (· == q) k l = [] := by
  induction l generalizing k with
  | nil => rfl
  | cons x rest ih =>
    have hne : (k == q) = false := by simp; omega
    simp [tickedFrom,hne,ih (Nat.lt_succ_of_lt h)]

theorem tickedFrom_one {q k : Nat} {l : List α} {x : α} (h : l[q]? = some x) :
    tickedFrom (· == k + q) k l = [x] := by
  induction l generalizing q k with
  | nil => cases h
  | cons y rest ih =>
    cases q with
    | zero =>
      obtain rfl : y = x := by simpa using h
      simp [tickedFrom,tickedFrom_later (Nat.lt_succ_self k)]
    | succ q =>
      have hne : (k == k + (q + 1)) = false := by simp
      have hrest := ih (k := k + 1) (by simpa using h)
      simpa [tickedFrom,hne,Nat.add_assoc,Nat.add_comm 1] using hrest

theorem lineEnd_oneLine {row : List Char} (h : OneLine row) : Text.lineEnd row = row := by
  unfold Text.lineEnd
  cases hd : row.dropSuffix? ['\r'] with
  | none => rfl
  | some stem =>
    obtain ⟨cr,hrow,hcr⟩ := List.dropSuffix?_eq_some_iff.mp hd
    rw [beq_iff_eq] at hcr
    exact absurd rfl (h '\r' (by rw [hrow,hcr]; simp)).2

theorem splitOn_rows {rows : List (List Char)} (h : ∀ row ∈ rows, OneLine row) {l : List Char}
    (hl : l ≠ []) (n : Nat) :
    l ∈ Text.lines (List.intercalate ['\n'] rows ++ List.replicate n '\n') ↔ l ∈ rows := by
  have hpieces : (List.intercalate ['\n'] rows ++ List.replicate n '\n').splitOn '\n' =
      (if rows = [] then [[]] else rows) ++ List.replicate n [] := by
    rw [Text.splitOn_newlines]
    split
    · rename_i hrows
      subst hrows
      rfl
    · rename_i hrows
      rw [List.splitOn_intercalate '\n' (fun row hrow hc => (h row hrow _ hc).1 rfl) hrows]
  have hend : ∀ piece ∈ (List.intercalate ['\n'] rows ++ List.replicate n '\n').splitOn '\n',
      Text.lineEnd piece = piece := by
    rw [hpieces]
    intro piece hp
    refine lineEnd_oneLine ?_
    rcases List.mem_append.mp hp with hp | hp
    · split at hp
      · obtain rfl := List.mem_singleton.mp hp
        simp [OneLine]
      · exact h piece hp
    · obtain rfl := List.eq_of_mem_replicate hp
      simp [OneLine]
  rw [Text.mem_lines hl hend,hpieces,List.mem_append]
  constructor
  · rintro (hm | hm)
    · split at hm
      · exact absurd (List.mem_singleton.mp hm) hl
      · exact hm
    · exact absurd (List.eq_of_mem_replicate hm) hl
  · intro hm
    left
    rw [if_neg (List.ne_nil_of_mem hm)]
    exact hm

theorem mem_output {request : ConsentRequest} (h : ∀ x ∈ request.items, Solid x.id.toList)
    (backend : Backend) (style : Style) {l : List Char} (hl : l ≠ []) :
    l ∈ Text.lines (backend.output style (backend.argv request) ticked).toList ↔
      ∃ x ∈ tickedFrom ticked 0 request.items, backend.prints style (backend.label x) = l := by
  rw [Backend.output,rows_argv,String.toList_ofList,tickedFrom_map,List.map_map,splitOn_rows ?_ hl,
    List.mem_map]
  · rfl
  · intro row hrow
    obtain ⟨x,hx,rfl⟩ := List.mem_map.mp hrow
    exact prints_oneLine (h x (tickedFrom_subset hx)) backend style

end Output

section Lookup

theorem mem_foldl_grantLine {items : List ConsentItem} (lines : List (List Char))
    (granted : List Nat) (i : Nat) :
    i ∈ lines.foldl (grantLine items) granted ↔ i ∈ granted ∨
      ∃ line ∈ lines, ∃ x, lookupId items (answerId line) = some x ∧ x.index = i := by
  induction lines generalizing granted with
  | nil => simp
  | cons line rest ih =>
    rw [List.foldl_cons,ih]
    have hline : i ∈ grantLine items granted line ↔ i ∈ granted ∨
        ∃ x, lookupId items (answerId line) = some x ∧ x.index = i := by
      unfold grantLine
      cases lookupId items (answerId line) with
      | none => simp
      | some x =>
        by_cases hx : x.index ∈ granted
        · simp only [List.contains_iff_mem,hx,if_true,Option.some.injEq,exists_eq_left']
          constructor
          · exact .inl
          · rintro (hi | rfl)
            · exact hi
            · exact hx
        · simp [hx,eq_comm]
    rw [hline]
    simp only [List.mem_cons,exists_eq_or_imp,or_assoc]

def firstNamed (items : List ConsentItem) (id : String) : Option ConsentItem :=
  items.find? fun item => item.id.toList == id.toList

theorem lookupId_solid {items : List ConsentItem} {id : String} (h : Solid id.toList) :
    lookupId items id.toList = firstNamed items id := by
  have hne : id.toList.isEmpty = false := by simpa using h.nonempty
  simp [lookupId,hne,firstNamed]

theorem mem_grantedIndices {request : ConsentRequest}
    (h : ∀ x ∈ request.items, Solid x.id.toList) (backend : Backend) (style : Style)
    (ticked : Nat → Bool) (i : Nat) :
    i ∈ grantedIndices (backend.output style (backend.argv request) ticked) request ↔
      ∃ x ∈ tickedFrom ticked 0 request.items, ∃ y,
        firstNamed request.items x.id = some y ∧ y.index = i := by
  rw [grantedIndices,mem_foldl_grantLine]
  simp only [List.not_mem_nil,false_or]
  constructor
  · rintro ⟨line,hline,y,hy,hi⟩
    have hne : line ≠ [] := by
      rintro rfl
      cases hy
    obtain ⟨x,hx,rfl⟩ := (mem_output h backend style hne).mp hline
    have hsolid := h x (tickedFrom_subset hx)
    rw [prints_reads hsolid,lookupId_solid hsolid] at hy
    exact ⟨x,hx,y,hy,hi⟩
  · rintro ⟨x,hx,y,hy,hi⟩
    have hsolid := h x (tickedFrom_subset hx)
    have hreads := prints_reads hsolid backend style
    have hne : backend.prints style (backend.label x) ≠ [] := by
      intro hnil
      rw [hnil] at hreads
      exact hsolid.nonempty hreads.symm
    refine ⟨_,(mem_output h backend style hne).mpr ⟨x,hx,rfl⟩,y,?_,hi⟩
    rw [hreads,lookupId_solid hsolid,hy]

end Lookup

section Faithful

variable {request : ConsentRequest}

theorem firstNamed_mem {items : List ConsentItem} {id : String} {y : ConsentItem}
    (h : firstNamed items id = some y) : y ∈ items ∧ y.id = id := by
  refine ⟨List.mem_of_find?_eq_some h,?_⟩
  have hp := List.find?_some h
  exact String.toList_inj.mp (by simpa using hp)

theorem firstNamed_isSome {items : List ConsentItem} {x : ConsentItem} (h : x ∈ items) :
    ∃ y, firstNamed items x.id = some y := by
  refine Option.isSome_iff_exists.mp (List.find?_isSome.mpr ⟨x,h,?_⟩)
  simp

theorem grantsTicked_iff_first (h : ∀ x ∈ request.items, Solid x.id.toList)
    (hindex : (request.items.map ConsentItem.index).Nodup) :
    GrantsTicked request ↔ ∀ x ∈ request.items, firstNamed request.items x.id = some x := by
  constructor
  · intro hticked x hx
    obtain ⟨q,hq⟩ := List.mem_iff_getElem?.mp hx
    have hone : tickedFrom (· == q) 0 request.items = [x] := by
      simpa using tickedFrom_one (k := 0) hq
    have hgranted := (hticked .zenity ⟨false,1⟩ (· == q) x.index).mpr (by simp [hone])
    rw [mem_grantedIndices h,hone] at hgranted
    obtain ⟨x',hx',y,hy,hi⟩ := hgranted
    obtain rfl := List.mem_singleton.mp hx'
    have hmem := (firstNamed_mem hy).1
    rw [hy,List.inj_on_of_nodup_map hindex hmem hx hi]
  · intro hfirst backend style ticked i
    rw [mem_grantedIndices h,List.mem_map]
    constructor
    · rintro ⟨x,hx,y,hy,hi⟩
      rw [hfirst x (tickedFrom_subset hx)] at hy
      obtain rfl := Option.some.inj hy
      exact ⟨x,hx,hi⟩
    · rintro ⟨x,hx,hi⟩
      exact ⟨x,hx,x,hfirst x (tickedFrom_subset hx),hi⟩

theorem first_iff_nodup {items : List ConsentItem}
    (hindex : (items.map ConsentItem.index).Nodup) :
    (∀ x ∈ items, firstNamed items x.id = some x) ↔ (items.map ConsentItem.id).Nodup := by
  constructor
  · intro hfirst
    refine (List.Nodup.of_map _ hindex).map_on ?_
    intro x hx y hy hid
    have hxy := hfirst x hx
    rw [hid,hfirst y hy] at hxy
    exact (Option.some.inj hxy).symm
  · intro hnodup x hx
    obtain ⟨y,hy⟩ := firstNamed_isSome hx
    obtain ⟨hmem,hid⟩ := firstNamed_mem hy
    rw [hy,List.inj_on_of_nodup_map hnodup hmem hx hid]

end Faithful

def asked (only : List String) (pr : PlannedResource) : Bool :=
  selectedBy only pr && match pr.decision with
    | some (.prompt _) => true
    | _ => false

def DistinctOffers (plan : Resolution) (only : List String) : Prop :=
  ((plan.resources.filter (asked only)).map fun pr => pr.resource.id).Nodup

section Prepared

variable {env : Env} {policy : Policy} {only : List String}

theorem offer_some {entry : PlannedResource × Nat} {item : ConsentItem}
    (h : offer only entry = some item) :
    asked only entry.1 = true ∧ item.index = entry.2 ∧ item.id = entry.1.resource.id := by
  unfold offer at h
  split at h
  · cases h
  · rename_i hselected
    split at h
    · rename_i reasons hd
      cases h
      exact ⟨by simpa [asked,hd] using hselected,rfl,rfl⟩
    · cases h

theorem offer_none {entry : PlannedResource × Nat} (h : offer only entry = none) :
    asked only entry.1 = false := by
  unfold offer at h
  split at h
  · rename_i hselected
    simp only [Bool.not_eq_true'] at hselected
    simp [asked,hselected]
  · split at h
    · cases h
    · rename_i hno
      unfold asked
      split
      · rename_i reasons hd
        exact absurd hd (hno reasons)
      · simp

theorem offers_index (plan : List (PlannedResource × Nat)) :
    ((plan.filterMap (offer only)).map ConsentItem.index).Sublist (plan.map Prod.snd) := by
  induction plan with
  | nil => exact .slnil
  | cons entry rest ih =>
    cases ho : offer only entry with
    | none =>
      rw [List.filterMap_cons_none ho,List.map_cons]
      exact ih.cons _
    | some item =>
      rw [List.filterMap_cons_some ho,List.map_cons,List.map_cons,(offer_some ho).2.1]
      exact ih.cons_cons _

theorem offers_ids (resources : List PlannedResource) (k : Nat) :
    ((resources.zipIdx k).filterMap (offer only)).map ConsentItem.id =
      (resources.filter (asked only)).map fun pr => pr.resource.id := by
  induction resources generalizing k with
  | nil => rfl
  | cons pr rest ih =>
    rw [List.zipIdx_cons]
    cases ho : offer only (pr,k) with
    | none =>
      rw [List.filterMap_cons_none ho,List.filter_cons_of_neg (by simp [offer_none ho]),ih]
    | some item =>
      obtain ⟨hasked,-,hid⟩ := offer_some ho
      rw [List.filterMap_cons_some ho,List.filter_cons_of_pos hasked,List.map_cons,List.map_cons,
        hid,ih]

theorem validate_ids {crates : Crates} {m : Manifest} (h : (m.validate crates).errors = [])
    {r : ResourceDoc} (hr : r ∈ m.doc.resources) : isValidResourceId r.id = true := by
  obtain ⟨pre,post,hsplit⟩ := List.append_of_mem hr
  exact (validateResource_id (validateEach_errors_nil (validate_each h) hsplit)).1

theorem Produced.ids_solid {res : Resolution} (h : Produced env res) :
    ∀ pr ∈ (res.applyPolicy policy).resources, Solid pr.resource.id.toList := by
  intro pr hpr
  obtain ⟨old,hold,rfl⟩ := List.mem_map.mp hpr
  obtain ⟨node,hnode,hmem⟩ := h.planned old hold
  have hid := validate_ids (h.valid node (List.mem_of_getElem? hnode)) hmem
  have hsame : (PlannedResource.decide policy res.nodes old).resource = old.resource := by
    simp [PlannedResource.decide,hnode]
  rw [hsame]
  exact validId_solid hid

theorem offers_solid {plan : Resolution} (h : ∀ pr ∈ plan.resources, Solid pr.resource.id.toList) :
    ∀ x ∈ plan.resources.zipIdx.filterMap (offer only), Solid x.id.toList := by
  intro x hx
  obtain ⟨⟨pr,k⟩,hentry,ho⟩ := List.mem_filterMap.mp hx
  rw [(offer_some ho).2.2]
  exact h pr (List.fst_mem_of_mem_zipIdx hentry)

theorem prepare_grants_ticked {plan : Resolution} (hroot : plan.nodes ≠ [])
    (h : ∀ pr ∈ plan.resources, Solid pr.resource.id.toList) (only : List String) :
    ∃ request slots, Daemon.prepare plan only = some (request,slots) ∧
      (GrantsTicked request ↔ DistinctOffers plan only) := by
  obtain ⟨root,nodes,hnodes⟩ := List.exists_cons_of_ne_nil hroot
  unfold Daemon.prepare
  rw [hnodes]
  refine ⟨_,_,rfl,?_⟩
  have hindex : ((plan.resources.zipIdx.filterMap (offer only)).map ConsentItem.index).Nodup := by
    refine (offers_index plan.resources.zipIdx).nodup ?_
    rw [List.zipIdx_map_snd]
    exact List.nodup_range'
  rw [grantsTicked_iff_first (offers_solid h) hindex,first_iff_nodup hindex]
  rw [offers_ids,DistinctOffers]

theorem dialog_grants_ticked (env : Env) (cache : Cache) (ref : TargetRef) (policy : Policy)
    (only : List String) :
    wp (resolveRef env ref)
      (fun res _ => ∃ request slots,
        Daemon.prepare (res.applyPolicy policy) only = some (request,slots) ∧
          (GrantsTicked request ↔ DistinctOffers (res.applyPolicy policy) only))
      (fun _ _ => True) (Run.start cache) := by
  refine wp_mono (resolveRef_produced env cache ref) ?_ (fun _ _ h => h)
  intro res _ hproduced
  have hroot : (res.applyPolicy policy).nodes ≠ [] := hproduced.root
  exact prepare_grants_ticked hroot hproduced.ids_solid only

end Prepared

section Reused

def outerPage : Value :=
  manifestValue "Outer" [resourceValue "docs" "https" "https://e.com" none,
    resourceValue "team" "murl" "murl://a.com/inner" none]

def innerPage : Value :=
  manifestValue "Inner" [resourceValue "docs" "https" "https://f.com" none]

def reusedEnv : Env :=
  siteEnv (siteCrates [outerPage,innerPage] [] [])
    [("https://a.com/.well-known/murl/outer.murl.json",outerPage),
     ("https://a.com/.well-known/murl/inner.murl.json",innerPage)]

def outerMurl : Murl := ⟨.remote "a.com" none,["outer"],.latest,none,none⟩

def secondTicked (request : ConsentRequest) : Bool :=
  (grantedIndices (Backend.zenity.output ⟨false,1⟩ (Backend.zenity.argv request) (· == 1))
      request).contains 1 ==
    ((tickedFrom (· == 1) 0 request.items).map ConsentItem.index).contains 1

theorem GrantsTicked.second {request : ConsentRequest} (h : GrantsTicked request) :
    secondTicked request = true := by
  have hsecond := h .zenity ⟨false,1⟩ (· == 1) 1
  rw [secondTicked,beq_iff_eq,Bool.eq_iff_iff,List.contains_iff_mem,List.contains_iff_mem]
  exact hsecond

theorem second_row_grants_first :
    ¬wp (resolveRef reusedEnv (.murl outerMurl))
      (fun res _ => ∀ request slots,
        Daemon.prepare (res.applyPolicy {}) [] = some (request,slots) → GrantsTicked request)
      (fun _ _ => True) (Run.start Cache.empty) := by
  intro h
  have hsecond : wp (resolveRef reusedEnv (.murl outerMurl))
      (fun res _ => (Daemon.prepare (res.applyPolicy {}) []).all
        (fun prepared => secondTicked prepared.1) = true)
      (fun _ _ => True) (Run.start Cache.empty) := by
    refine wp_mono h ?_ (fun _ _ h => h)
    intro res _ hclaim
    cases hp : Daemon.prepare (res.applyPolicy {}) [] with
    | none => rfl
    | some prepared => exact (hclaim prepared.1 prepared.2 hp).second
  have hrun := wp_okHolds.mp hsecond
  revert hrun
  simp only [reusedEnv,siteEnv,siteCrates,published_compact]
  decide +kernel

end Reused

end MurlSystem

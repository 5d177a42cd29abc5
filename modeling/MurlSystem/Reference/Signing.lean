import MurlSystem.Reference.Scan
import MurlSystem.Foundation.Split
import MurlSystem.Core.Trust

namespace MurlSystem.Reference

open Rfc8259

section Escapes

theorem literal_not_surrogate {s : String} {u : Nat} (h : u ∈ literal s) :
    isSurrogate u = false := Serde.points_scalar h

theorem chars_not_surrogate {w : List Char} {u : Nat} (h : u ∈ w.map Char.toNat) :
    isSurrogate u = false := by
  obtain ⟨c,-,rfl⟩ := List.mem_map.mp h
  exact scalar_not_surrogate c

theorem escapePoint_char (c : Char) : escapePoint c.toNat = literal (escapeChar c) := by
  have hcode : ∀ d : Char, c.toNat = d.toNat ↔ c = d := fun d => Char.toNat_inj
  have hquote := hcode '"'
  have hback := hcode '\\'
  have hnewline := hcode '\n'
  have hreturn := hcode '\r'
  have htab := hcode '\t'
  change c.toNat = 0x22 ↔ _ at hquote
  change c.toNat = 0x5c ↔ _ at hback
  change c.toNat = 0x0a ↔ _ at hnewline
  change c.toNat = 0x0d ↔ _ at hreturn
  change c.toNat = 0x09 ↔ _ at htab
  rw [escapePoint,shortEscape,escapeChar]
  simp only [hquote,hback,hnewline,hreturn,htab]
  by_cases h1 : c = '"'
  · simp [h1,literal]
  by_cases h2 : c = '\\'
  · simp [h2,literal]
  by_cases h3 : c.toNat = 0x08
  · simp [h1,h2,h3,literal]
  by_cases h4 : c.toNat = 0x0c
  · simp [h1,h2,h4,literal]
  by_cases h5 : c = '\n'
  · simp [h5,literal]
  by_cases h6 : c = '\r'
  · simp [h6,literal]
  by_cases h7 : c = '\t'
  · simp [h7,literal]
  by_cases h8 : c.toNat < 0x20
  · simp [h1,h2,h3,h4,h5,h6,h7,h8,literal,Char.toString]
  · simp [h1,h2,h3,h4,h5,h6,h7,h8,literal]

theorem flatMap_escape (s : String) :
    (Serde.points s).flatMap escapePoint = (Serde.escaped s).map Char.toNat := by
  rw [Serde.points,Serde.escaped,List.flatMap_map,List.map_flatMap]
  exact congrArg (List.flatMap · s.toList) (funext escapePoint_char)

theorem points_writeString (s : String) : '"'.toNat :: ((Serde.points s).flatMap escapePoint ++
    ['"'.toNat]) = Serde.points (MurlSystem.writeString s) := by
  rw [flatMap_escape,Serde.points,Serde.writeString_toList]
  simp

theorem mem_escapePoint {u v : Nat} (hu : isSurrogate u = true) : u ∈ escapePoint v ↔ u = v := by
  have hnot : ∀ w : List Char, u ∉ w.map Char.toNat := fun w hmem => by
    rw [chars_not_surrogate hmem] at hu
    cases hu
  have hvalid : ∀ x : Nat, x < 0x80 → u ≠ x := by
    rintro x hx rfl
    simp only [isSurrogate,Bool.and_eq_true,decide_eq_true_eq] at hu
    omega
  rw [escapePoint]
  split
  · rename_i w hw
    have hv : v < 0x80 := by
      rw [shortEscape] at hw
      grind
    exact iff_of_false (hnot w) (hvalid v hv)
  · split
    · rename_i hv
      exact iff_of_false (hnot _) (hvalid v (by omega))
    · exact List.mem_singleton

theorem mem_flatMap_escape {u : Nat} {k : List Nat} (hu : isSurrogate u = true) :
    u ∈ k.flatMap escapePoint ↔ u ∈ k := by
  simp [List.mem_flatMap,mem_escapePoint hu]

end Escapes

section Order

theorem pointsLe_total : ∀ a b : List Nat, pointsLe a b = true ∨ pointsLe b a = true
  | [],_ => by simp [pointsLe]
  | _ :: _,[] => by simp [pointsLe]
  | a :: as,b :: bs => by
    by_cases hab : a = b
    · subst hab
      simpa [pointsLe] using pointsLe_total as bs
    · simp only [pointsLe,if_neg hab,if_neg (Ne.symm hab),decide_eq_true_eq]
      omega

theorem pointsLe_antisymm : ∀ {a b : List Nat}, pointsLe a b = true → pointsLe b a = true → a = b
  | [],[],_,_ => rfl
  | [],_ :: _,_,h => by simp [pointsLe] at h
  | _ :: _,[],h,_ => by simp [pointsLe] at h
  | a :: as,b :: bs,h,h' => by
    by_cases hab : a = b
    · subst hab
      simp only [pointsLe,if_true] at h h'
      rw [pointsLe_antisymm h h']
    · simp only [pointsLe,if_neg hab,if_neg (Ne.symm hab),decide_eq_true_eq] at h h'
      omega

theorem pointsLe_trans : ∀ {a b c : List Nat}, pointsLe a b = true → pointsLe b c = true →
    pointsLe a c = true
  | [],_,_,_,_ => by simp [pointsLe]
  | _ :: _,[],_,h,_ => by simp [pointsLe] at h
  | _ :: _,_ :: _,[],_,h => by simp [pointsLe] at h
  | a :: as,b :: bs,c :: cs,h,h' => by
    simp only [pointsLe] at h h' ⊢
    by_cases hab : a = b
    · subst hab
      rw [if_pos rfl] at h
      by_cases hac : a = c
      · rw [if_pos hac] at h' ⊢
        exact pointsLe_trans h h'
      · rwa [if_neg hac] at h' ⊢
    · rw [if_neg hab,decide_eq_true_eq] at h
      by_cases hbc : b = c
      · subst hbc
        rw [if_neg hab]
        exact decide_eq_true h
      · rw [if_neg hbc,decide_eq_true_eq] at h'
        rw [if_neg (by omega),decide_eq_true_eq]
        exact Nat.lt_trans h h'

theorem pointsLe_chars : ∀ {a b : List Char}, a < b →
    pointsLe (a.map Char.toNat) (b.map Char.toNat) = true
  | [],_,_ => by simp [pointsLe]
  | _ :: _,[],h => by simp at h
  | c :: a,d :: b,h => by
    simp only [List.map_cons,pointsLe,Char.toNat_inj]
    rcases List.cons_lt_cons_iff.mp h with hhead | ⟨rfl,htail⟩
    · have hlt : c.toNat < d.toNat := UInt32.lt_iff_toNat_lt.mp hhead
      have hne : c ≠ d := by
        rintro rfl
        exact Nat.lt_irrefl _ hlt
      rw [if_neg hne]
      exact decide_eq_true hlt
    · rw [if_pos rfl]
      exact pointsLe_chars htail

theorem pointsLe_points {a b : String} (h : a < b) :
    pointsLe (Serde.points a) (Serde.points b) = true := pointsLe_chars h

theorem sortedMembers_sorted (js : List (List Nat × Json)) :
    (sortedMembers js).Pairwise fun a b => pointsLe a.1 b.1 = true :=
  have : Std.Total (fun a b : List Nat × Json => pointsLe a.1 b.1 = true) :=
    ⟨fun a b => pointsLe_total a.1 b.1⟩
  have : IsTrans (List Nat × Json) (fun a b => pointsLe a.1 b.1 = true) :=
    ⟨fun _ _ _ => pointsLe_trans⟩
  List.pairwise_insertionSort _ js

theorem sortedMembers_unique {js js' : List (List Nat × Json)} (hnodup : (js.map Prod.fst).Nodup)
    (hperm : js'.Perm js) (hsorted : js'.Pairwise fun a b => pointsLe a.1 b.1 = true) :
    js' = sortedMembers js := by
  have hperm' := hperm.trans (sortedMembers_perm js).symm
  refine hperm'.eq_of_pairwise (fun a b ha hb hab hba => ?_) hsorted (sortedMembers_sorted js)
  exact List.inj_on_of_nodup_map hnodup (hperm.mem_iff.mp ha)
    ((sortedMembers_perm js).mem_iff.mp hb) (pointsLe_antisymm hab hba)

end Order

section Members

variable {n : Nat}

def Alike (n : Nat) (v : Value) (j : Json) : Prop :=
  ∀ text out, writeValue v = .ok text → write n j = .ok out → out = Serde.points text

def AlikeMember (n : Nat) (v : String × Value) (j : List Nat × Json) : Prop :=
  Serde.points v.1 = j.1 ∧ Alike n v.2 j.2

theorem alike_sorted {res vs : List (String × Value)} {js : List (List Nat × Json)}
    (hasc : res.Pairwise fun a b => a.1 < b.1) (hperm : res.Perm vs)
    (hvs : List.Forall₂ (AlikeMember n) vs js) (hnodup : (js.map Prod.fst).Nodup) :
    List.Forall₂ (AlikeMember n) res (sortedMembers js) := by
  obtain ⟨js',hres,hjs⟩ := List.perm_comp_forall₂ hperm hvs
  have hkeys : js'.map Prod.fst = res.map fun v => Serde.points v.1 := by
    clear hjs hperm hasc
    induction hres with
    | nil => rfl
    | cons h _ ih => rw [List.map_cons,List.map_cons,ih,h.1]
  have hsorted : js'.Pairwise fun a b => pointsLe a.1 b.1 = true := by
    have hmap : (js'.map Prod.fst).Pairwise fun a b => pointsLe a b = true := by
      rw [hkeys]
      exact List.pairwise_map.mpr (hasc.imp pointsLe_points)
    exact List.pairwise_map.mp hmap
  rwa [← sortedMembers_unique hnodup hjs hsorted]

theorem forall₂_meet {α β γ δ : Type} {R : α → β → Prop} {P : α → γ → Prop} {Q : β → δ → Prop}
    {S : γ → δ → Prop} {l : List α} {m : List β} {cs : List γ} {ds : List δ}
    (h : List.Forall₂ R l m) (hl : List.Forall₂ P l cs) (hm : List.Forall₂ Q m ds)
    (hS : ∀ a b c d, R a b → P a c → Q b d → S c d) : List.Forall₂ S cs ds := by
  induction h generalizing cs ds with
  | nil =>
    cases hl
    cases hm
    exact .nil
  | cons hab _ ih =>
    cases hl with
    | cons hac hl =>
      cases hm with
      | cons hbd hm => exact .cons (hS _ _ _ _ hab hac hbd) (ih hl hm)

theorem writeItems_ok {items : List Value} {parts : List String} :
    writeItems items = .ok parts ↔
      List.Forall₂ (fun v part => writeValue v = .ok part) items parts := by
  induction items generalizing parts with
  | nil => simp [writeItems,eq_comm]
  | cons v rest ih =>
    simp only [writeItems,Fallible.bind_ok,Fallible.pure_ok,ih,List.forall₂_cons_left_iff]
    constructor
    · rintro ⟨text,hv,parts,h,heq⟩
      exact ⟨text,parts,hv,h,heq.symm⟩
    · rintro ⟨text,parts,hv,h,heq⟩
      exact ⟨text,hv,parts,h,heq.symm⟩

def Field (m : String × Value) (part : String) : Prop :=
  ∃ text, writeValue m.2 = .ok text ∧ part = MurlSystem.writeString m.1 ++ ":" ++ text

theorem writeMembers_ok {members : List (String × Value)} {parts : List String}
    (h : writeMembers members = .ok parts) : List.Forall₂ Field members parts := by
  induction members generalizing parts with
  | nil =>
    obtain rfl : [] = parts := by simpa [writeMembers] using h
    exact .nil
  | cons m rest ih =>
    obtain ⟨k,v⟩ := m
    simp only [writeMembers,Fallible.bind_ok,Fallible.pure_ok] at h
    obtain ⟨text,hv,parts',hrest,rfl⟩ := h
    exact .cons ⟨text,hv,rfl⟩ (ih hrest)

theorem intercalate_points (parts : List String) :
    [','.toNat].intercalate (parts.map Serde.points) =
      Serde.points (",".intercalate parts) := by
  rw [Serde.points,Serde.toList_comma]
  induction parts with
  | nil => rfl
  | cons p rest ih =>
    cases rest with
    | nil => simp [Serde.points]
    | cons q rest =>
      simp only [List.map_cons,List.intercalate_cons_cons,List.map_append] at ih ⊢
      rw [ih]
      rfl

theorem forall₂_map_eq {parts : List String} {outs : List (List Nat)}
    (h : List.Forall₂ (fun part out => out = Serde.points part) parts outs) :
    outs = parts.map Serde.points := by
  induction h with
  | nil => rfl
  | cons h _ ih => rw [List.map_cons,h,ih]

theorem alike_list {items : List Value} {js : List Json} (h : List.Forall₂ (Alike n) items js) :
    Alike (n + 1) (.array items) (.list js) := by
  intro text out htext hout
  simp only [writeValue,Fallible.bind_ok,Fallible.pure_ok,writeItems_ok] at htext
  obtain ⟨parts,hparts,rfl⟩ := htext
  obtain ⟨outs,houts,rfl⟩ := write_list.mp hout
  have heq := forall₂_map_eq (forall₂_meet h hparts (Fallible.mapM_ok.mp houts)
    fun v j part out halike hpart hout => halike part out hpart hout)
  rw [heq,intercalate_points]
  simp [Serde.points]

theorem alike_dict {res vs : List (String × Value)} {js : List (List Nat × Json)}
    (hasc : res.Pairwise fun a b => a.1 < b.1) (hperm : res.Perm vs)
    (hvs : List.Forall₂ (AlikeMember n) vs js) (hnodup : (js.map Prod.fst).Nodup) :
    Alike (n + 1) (.object res) (.dict js) := by
  intro text out htext hout
  simp only [writeValue,Fallible.bind_ok,Fallible.pure_ok] at htext
  obtain ⟨parts,hparts,rfl⟩ := htext
  obtain ⟨outs,houts,rfl⟩ := write_dict.mp hout
  have hsorted := alike_sorted hasc hperm hvs hnodup
  have heq := forall₂_map_eq (forall₂_meet hsorted (writeMembers_ok hparts)
    (Fallible.mapM_ok.mp houts) fun v j part out halike hpart hout => by
      obtain ⟨text,htext,rfl⟩ := hpart
      obtain ⟨-,w,hw,rfl⟩ := writeMember_ok.mp hout
      rw [← halike.1,points_writeString,halike.2 text w htext hw]
      simp [Serde.points])
  rw [heq,intercalate_points]
  simp [Serde.points]

end Members

section Alike

variable {f64 : List Char → Option String} {py : Interpreter}

theorem alike_number {w : List Char} {m : Number} {j : Json} {n : Nat}
    (h : Serde.number f64 w = some m) (hj : parseNumber py w = .ok j) :
    Alike n (.number m) j := by
  intro text out htext hout
  obtain ⟨i,rfl,-,-,rfl⟩ := Serde.writeValue_number.mp htext
  obtain ⟨-,hi⟩ := Serde.number_int_whole h
  rcases parseNumber_ok hj with ⟨i',hi',rfl⟩ | ⟨hnone,-⟩
  · obtain rfl : i = i' := Option.some.inj (hi.symm.trans hi')
    cases n with
    | zero => simp [write] at hout
    | succ n =>
      rw [write] at hout
      split at hout
      · exact (Except.ok.inj hout).symm
      · cases hout
  · rw [hi] at hnone
    cases hnone

mutual

theorem read_alike : ∀ {raw : Raw} {t v : Value} {j : Json} {n : Nat},
    (∀ s ∈ strings raw, Serde.Sized s) → Serde.tree f64 raw = some t → noDup t = .ok v →
      scan py raw = .ok j → Alike n v j
  | raw,t,v,j,0,_,_,_,_ => by
    intro text out _ hout
    simp [write] at hout
  | .null,t,v,j,n + 1,_,ht,hv,hj => by
    obtain rfl := Option.some.inj ht
    obtain rfl : Value.null = v := by simpa [noDup] using hv
    obtain rfl := Except.ok.inj hj
    intro text out htext hout
    obtain rfl := Except.ok.inj htext
    exact (Except.ok.inj hout).symm
  | .bool b,t,v,j,n + 1,_,ht,hv,hj => by
    obtain rfl := Option.some.inj ht
    obtain rfl : Value.bool b = v := by simpa [noDup] using hv
    obtain rfl := Except.ok.inj hj
    intro text out htext hout
    cases b <;> (obtain rfl := Except.ok.inj htext; exact (Except.ok.inj hout).symm)
  | .number w,t,v,j,n + 1,_,ht,hv,hj => by
    obtain ⟨m,hm,rfl⟩ := Option.map_eq_some_iff.mp ht
    obtain rfl : Value.number m = v := by simpa [noDup] using hv
    exact alike_number hm hj
  | .string k,t,v,j,n + 1,hs,ht,hv,hj => by
    obtain ⟨s,hk,rfl⟩ := Option.map_eq_some_iff.mp ht
    obtain rfl : Value.string s = v := by simpa [noDup] using hv
    obtain rfl := Except.ok.inj hj
    obtain rfl := Serde.points_of_scalar hk (hs k (by simp [strings]))
    intro text out htext hout
    obtain rfl := Except.ok.inj htext
    obtain ⟨-,rfl⟩ := writeString_ok.mp hout
    exact points_writeString s
  | .array items,t,v,j,n + 1,hs,ht,hv,hj => by
    obtain ⟨vs,hvs,rfl⟩ := Option.map_eq_some_iff.mp ht
    simp only [noDup,Fallible.bind_ok,Fallible.pure_ok] at hv
    obtain ⟨out,hout,rfl⟩ := hv
    simp only [scan,Fallible.bind_ok,Fallible.pure_ok] at hj
    obtain ⟨js,hjs,rfl⟩ := hj
    exact alike_list (items_alike hs hvs hout hjs)
  | .object members,t,v,j,n + 1,hs,ht,hv,hj => by
    obtain ⟨ms,hms,rfl⟩ := Option.map_eq_some_iff.mp ht
    simp only [noDup,Fallible.bind_ok,Fallible.pure_ok] at hv
    obtain ⟨res,hres,rfl⟩ := hv
    obtain ⟨js,hjs,hnodup,rfl⟩ := scan_object.mp hj
    obtain ⟨vs,hvs,hperm⟩ := Serde.noDupMap_perm hres
    rw [← scanMembers_keys hjs] at hnodup
    exact alike_dict (Serde.noDupMap_ascending .nil hres) hperm
      (members_alike hs hms hvs hjs) hnodup

theorem items_alike : ∀ {items : List Raw} {ts vs : List Value} {js : List Json} {n : Nat},
    (∀ s ∈ itemStrings items, Serde.Sized s) → Serde.treeItems f64 items = some ts →
      noDupSeq ts = .ok vs → scanItems py items = .ok js → List.Forall₂ (Alike n) vs js
  | [],ts,vs,js,n,_,ht,hv,hj => by
    obtain rfl := Option.some.inj ht
    obtain rfl : [] = vs := by simpa [noDupSeq] using hv
    obtain rfl : [] = js := by simpa [scanItems] using hj
    exact .nil
  | raw :: rest,ts,vs,js,n,hs,hts,hvs,hjs => by
    obtain ⟨t,ts',ht,hts',rfl⟩ := Serde.treeItems_cons hts
    obtain ⟨v,hv,vs',hvs',rfl⟩ := Serde.noDupSeq_cons.mp hvs
    obtain ⟨j,hj,js',hjs',rfl⟩ := scanItems_cons.mp hjs
    rw [itemStrings,List.forall_mem_append] at hs
    exact .cons (read_alike hs.1 ht hv hj) (items_alike hs.2 hts' hvs' hjs')

theorem members_alike : ∀ {members : List (List Nat × Raw)} {ts vs : List (String × Value)}
    {js : List (List Nat × Json)} {n : Nat}, (∀ s ∈ memberStrings members, Serde.Sized s) →
      Serde.treeMembers f64 members = some ts →
        List.Forall₂ (fun m v => m.1 = v.1 ∧ noDup m.2 = .ok v.2) ts vs →
          scanMembers py members = .ok js → List.Forall₂ (AlikeMember n) vs js
  | [],ts,vs,js,n,_,ht,hv,hj => by
    obtain rfl := Option.some.inj ht
    cases hv
    obtain rfl : [] = js := by simpa [scanMembers] using hj
    exact .nil
  | (k,raw) :: rest,ts,vs,js,n,hs,hts,hvs,hjs => by
    obtain ⟨s,t,ts',hk,ht,hts',rfl⟩ := Serde.treeMembers_cons hts
    obtain ⟨⟨s',v⟩,vs',⟨rfl,hv⟩,hvs',rfl⟩ := List.forall₂_cons_left_iff.mp hvs
    obtain ⟨j,hj,js',hjs',rfl⟩ := scanMembers_cons.mp hjs
    rw [memberStrings,List.forall_mem_cons,List.forall_mem_append] at hs
    exact .cons ⟨Serde.points_of_scalar hk hs.1,read_alike hs.2.1 ht hv hj⟩
      (members_alike hs.2.2 hts' hvs' hjs')

end

end Alike

end MurlSystem.Reference

import MurlSystem.Canonical.Lossless
import MurlSystem.Foundation.Rfc8259Parts
import Mathlib.Data.List.Perm.Basic

namespace MurlSystem.Serde

open Rfc8259

section Strings

theorem scalarString_iff {k : List Nat} :
    (∃ s, scalarString k = some s) ↔ k.any isSurrogate = false := by
  rw [scalarString]
  split
  · rename_i h
    simp [h]
  · rename_i h
    simp [Bool.not_eq_true _ ▸ h]

def Sized (k : List Nat) : Prop := ∀ u ∈ k, u < 0x110000

theorem toNat_ofNat {u : Nat} (hu : u < 0x110000) (h : isSurrogate u = false) :
    (Char.ofNat u).toNat = u := by
  have hvalid : u.isValidChar := by
    simp only [isSurrogate,Bool.and_eq_false_iff,decide_eq_false_iff_not] at h
    simp only [Nat.isValidChar]
    omega
  rw [Char.ofNat,dif_pos hvalid]
  rfl

theorem points_of_scalar {k : List Nat} {s : String} (h : scalarString k = some s)
    (hk : Sized k) : points s = k := by
  have hscalar := scalarString_iff.mp ⟨s,h⟩
  rw [List.any_eq_false] at hscalar
  rw [scalarString] at h
  split at h
  · cases h
  · obtain rfl := Option.some.inj h
    rw [points,String.toList_ofList,List.map_map]
    refine (List.map_congr_left fun u hu => ?_).trans (List.map_id k)
    exact toNat_ofNat (hk u hu) (by simpa using hscalar u hu)

theorem points_injective : Function.Injective points := by
  intro a b h
  have hinj : Function.Injective Char.toNat := fun _ _ => Char.toNat_inj.mp
  exact String.toList_inj.mp (hinj.list_map h)

end Strings

section Tree

variable {f64 : List Char → Option String}

mutual

theorem tree_iff : ∀ raw : Raw, (∃ t, tree f64 raw = some t) ↔
    (∀ s ∈ strings raw, s.any isSurrogate = false) ∧
      ∀ w ∈ texts raw, (number f64 w).isSome = true
  | .null => by simp [tree,strings,texts]
  | .bool b => by simp [tree,strings,texts]
  | .number w => by simp [tree,strings,texts,Option.isSome_iff_exists]
  | .string k => by
    simp only [tree,strings,texts,Option.map_eq_some_iff,List.forall_mem_singleton]
    rw [← scalarString_iff]
    exact ⟨fun ⟨_,s,h,_⟩ => ⟨⟨s,h⟩,by simp⟩,fun ⟨⟨s,h⟩,_⟩ => ⟨_,s,h,rfl⟩⟩
  | .array items => by
    simp only [tree,strings,texts,Option.map_eq_some_iff]
    rw [← treeItems_iff items]
    exact ⟨fun ⟨_,vs,h,_⟩ => ⟨vs,h⟩,fun ⟨vs,h⟩ => ⟨_,vs,h,rfl⟩⟩
  | .object members => by
    simp only [tree,strings,texts,Option.map_eq_some_iff]
    rw [← treeMembers_iff members]
    exact ⟨fun ⟨_,ms,h,_⟩ => ⟨ms,h⟩,fun ⟨ms,h⟩ => ⟨_,ms,h,rfl⟩⟩

theorem treeItems_iff : ∀ items : List Raw, (∃ vs, treeItems f64 items = some vs) ↔
    (∀ s ∈ itemStrings items, s.any isSurrogate = false) ∧
      ∀ w ∈ itemTexts items, (number f64 w).isSome = true
  | [] => by simp [treeItems,itemStrings,itemTexts]
  | raw :: rest => by
    have hraw := tree_iff raw
    have hrest := treeItems_iff rest
    simp only [treeItems,itemStrings,itemTexts,Option.bind_eq_bind,Option.bind_eq_some_iff,
      Option.pure_def,Option.some.injEq,List.forall_mem_append]
    rw [and_and_and_comm,← hraw,← hrest]
    exact ⟨fun ⟨_,v,h,vs,h',_⟩ => ⟨⟨v,h⟩,vs,h'⟩,fun ⟨⟨v,h⟩,vs,h'⟩ => ⟨_,v,h,vs,h',rfl⟩⟩

theorem treeMembers_iff : ∀ members : List (List Nat × Raw),
    (∃ ms, treeMembers f64 members = some ms) ↔
      (∀ s ∈ memberStrings members, s.any isSurrogate = false) ∧
        ∀ w ∈ memberTexts members, (number f64 w).isSome = true
  | [] => by simp [treeMembers,memberStrings,memberTexts]
  | (k,raw) :: rest => by
    have hraw := tree_iff raw
    have hrest := treeMembers_iff rest
    simp only [treeMembers,memberStrings,memberTexts,Option.bind_eq_bind,Option.bind_eq_some_iff,
      Option.pure_def,Option.some.injEq,List.forall_mem_cons,List.forall_mem_append]
    rw [and_assoc,and_and_and_comm,← hraw,← hrest,← scalarString_iff]
    exact ⟨fun ⟨_,s,hs,v,h,ms,h',_⟩ => ⟨⟨s,hs⟩,⟨v,h⟩,ms,h'⟩,
      fun ⟨⟨s,hs⟩,⟨v,h⟩,ms,h'⟩ => ⟨_,s,hs,v,h,ms,h',rfl⟩⟩

end

theorem treeMembers_cons {k : List Nat} {raw : Raw} {rest : List (List Nat × Raw)}
    {ms : List (String × Value)} (h : treeMembers f64 ((k,raw) :: rest) = some ms) :
    ∃ s v ms', scalarString k = some s ∧ tree f64 raw = some v ∧
      treeMembers f64 rest = some ms' ∧ ms = (s,v) :: ms' := by
  simp only [treeMembers,Option.bind_eq_bind,Option.bind_eq_some_iff,Option.pure_def,
    Option.some.injEq] at h
  obtain ⟨s,hs,v,hv,ms',hms,rfl⟩ := h
  exact ⟨s,v,ms',hs,hv,hms,rfl⟩

theorem treeItems_cons {raw : Raw} {rest : List Raw} {vs : List Value}
    (h : treeItems f64 (raw :: rest) = some vs) :
    ∃ v vs', tree f64 raw = some v ∧ treeItems f64 rest = some vs' ∧ vs = v :: vs' := by
  simp only [treeItems,Option.bind_eq_bind,Option.bind_eq_some_iff,Option.pure_def,
    Option.some.injEq] at h
  obtain ⟨v,hv,vs',hvs,rfl⟩ := h
  exact ⟨v,vs',hv,hvs,rfl⟩

mutual

theorem tree_numbers : ∀ {raw : Raw} {t : Value}, tree f64 raw = some t → ∀ n,
    n ∈ numbers t ↔ ∃ w ∈ texts raw, number f64 w = some n
  | .null,t,h,n => by
    obtain rfl := Option.some.inj h
    simp [numbers,texts]
  | .bool b,t,h,n => by
    obtain rfl := Option.some.inj h
    simp [numbers,texts]
  | .number w,t,h,n => by
    obtain ⟨m,hm,rfl⟩ := Option.map_eq_some_iff.mp h
    simp [numbers,texts,hm,eq_comm]
  | .string k,t,h,n => by
    obtain ⟨s,-,rfl⟩ := Option.map_eq_some_iff.mp h
    simp [numbers,texts]
  | .array items,t,h,n => by
    obtain ⟨vs,hvs,rfl⟩ := Option.map_eq_some_iff.mp h
    exact treeItems_numbers hvs n
  | .object members,t,h,n => by
    obtain ⟨ms,hms,rfl⟩ := Option.map_eq_some_iff.mp h
    exact treeMembers_numbers hms n

theorem treeItems_numbers : ∀ {items : List Raw} {vs : List Value},
    treeItems f64 items = some vs → ∀ n,
      n ∈ numbersItems vs ↔ ∃ w ∈ itemTexts items, number f64 w = some n
  | [],vs,h,n => by
    obtain rfl := Option.some.inj h
    simp [numbersItems,itemTexts]
  | raw :: rest,vs,h,n => by
    obtain ⟨v,vs',hv,hvs,rfl⟩ := treeItems_cons h
    simp only [numbersItems,itemTexts,List.mem_append,or_and_right,exists_or]
    exact or_congr (tree_numbers hv n) (treeItems_numbers hvs n)

theorem treeMembers_numbers : ∀ {members : List (List Nat × Raw)} {ms : List (String × Value)},
    treeMembers f64 members = some ms → ∀ n,
      n ∈ numbersMembers ms ↔ ∃ w ∈ memberTexts members, number f64 w = some n
  | [],ms,h,n => by
    obtain rfl := Option.some.inj h
    simp [numbersMembers,memberTexts]
  | (k,raw) :: rest,ms,h,n => by
    obtain ⟨s,v,ms',-,hv,hms,rfl⟩ := treeMembers_cons h
    simp only [numbersMembers,memberTexts,List.mem_append,or_and_right,exists_or]
    exact or_congr (tree_numbers hv n) (treeMembers_numbers hms n)

end

theorem treeMembers_keys {members : List (List Nat × Raw)} {ms : List (String × Value)}
    (h : treeMembers f64 members = some ms) (hk : ∀ m ∈ members, Sized m.1) :
    ms.map (fun m => points m.1) = members.map Prod.fst := by
  induction members generalizing ms with
  | nil =>
    obtain rfl := Option.some.inj h
    rfl
  | cons m rest ih =>
    obtain ⟨k,raw⟩ := m
    obtain ⟨s,v,ms',hs,-,hms,rfl⟩ := treeMembers_cons h
    obtain ⟨hkey,hrest⟩ := List.forall_mem_cons.mp hk
    rw [List.map_cons,List.map_cons,ih hms hrest,points_of_scalar hs hkey]

end Tree

section NoDup

theorem insertMember_perm (k : String) (v : Value) (out : List (String × Value)) :
    (insertMember k v out).Perm (out ++ [(k,v)]) := by
  induction out with
  | nil => rfl
  | cons x rest ih =>
    obtain ⟨k',v'⟩ := x
    rw [insertMember]
    split
    · exact List.perm_append_singleton (k,v) ((k',v') :: rest) |>.symm
    · exact ih.cons _

theorem insertMember_keys (k : String) (v : Value) (out : List (String × Value)) :
    ((insertMember k v out).map Prod.fst).Perm (out.map Prod.fst ++ [k]) := by
  have hmap := (insertMember_perm k v out).map Prod.fst
  rwa [List.map_append] at hmap

theorem insertMember_nodup {k : String} {v : Value} {out : List (String × Value)}
    (hout : (out.map Prod.fst).Nodup) (hk : k ∉ out.map Prod.fst) :
    ((insertMember k v out).map Prod.fst).Nodup := by
  rw [(insertMember_keys k v out).nodup_iff,List.nodup_append]
  refine ⟨hout,by simp,?_⟩
  rintro a ha b hb rfl
  obtain rfl := List.mem_singleton.mp hb
  exact hk ha

theorem insertMember_append {k : String} {v : Value} {out rest : List (String × Value)} :
    ((insertMember k v out).map Prod.fst ++ rest.map Prod.fst).Nodup ↔
      (out.map Prod.fst ++ (k :: rest.map Prod.fst)).Nodup := by
  rw [((insertMember_keys k v out).append_right _).nodup_iff,List.append_assoc]
  rfl

theorem lookup_fresh {k : String} {out : List (String × Value)} :
    ¬(out.lookup k).isSome = true ↔ k ∉ out.map Prod.fst := by
  constructor
  · intro h hmem
    obtain ⟨m,hm,hk⟩ := List.mem_map.mp hmem
    exact lookup_isSome_false h m hm hk
  · intro h
    rw [lookup_none fun m hm hk => h (List.mem_map.mpr ⟨m,hm,hk⟩)]
    simp

theorem noDupMap_cons {out rest res : List (String × Value)} {k : String} {t : Value} :
    noDupMap out ((k,t) :: rest) = .ok res ↔
      ∃ v, noDup t = .ok v ∧ k ∉ out.map Prod.fst ∧ noDupMap (insertMember k v out) rest = .ok res := by
  rw [noDupMap]
  simp only [Fallible.bind_ok,Fallible.ite_ok,Fallible.throw_ok,false_and,exists_false,and_false,
    false_or,lookup_fresh]

theorem noDupMap_perm {out members res : List (String × Value)}
    (h : noDupMap out members = .ok res) :
    ∃ vs, List.Forall₂ (fun m v => m.1 = v.1 ∧ noDup m.2 = .ok v.2) members vs ∧
      res.Perm (out ++ vs) := by
  induction members generalizing out with
  | nil =>
    obtain rfl : out = res := by simpa [noDupMap] using h
    exact ⟨[],.nil,by simp⟩
  | cons m rest ih =>
    obtain ⟨k,t⟩ := m
    obtain ⟨v,hv,-,h⟩ := noDupMap_cons.mp h
    obtain ⟨vs,hvs,hperm⟩ := ih h
    refine ⟨(k,v) :: vs,.cons ⟨rfl,hv⟩ hvs,hperm.trans ?_⟩
    have happ : (insertMember k v out ++ vs).Perm (out ++ [(k,v)] ++ vs) :=
      (insertMember_perm k v out).append_right vs
    simpa using happ

theorem noDupMap_ascending {out members res : List (String × Value)}
    (hasc : out.Pairwise fun a b => a.1 < b.1) (h : noDupMap out members = .ok res) :
    res.Pairwise fun a b => a.1 < b.1 := by
  induction members generalizing out with
  | nil =>
    obtain rfl : out = res := by simpa [noDupMap] using h
    exact hasc
  | cons m rest ih =>
    obtain ⟨k,t⟩ := m
    obtain ⟨v,-,hnew,h⟩ := noDupMap_cons.mp h
    exact ih (insertMember_ascending hasc (lookup_isSome_false (lookup_fresh.mpr hnew))) h

theorem noDupMap_iff {out members : List (String × Value)} (hout : (out.map Prod.fst).Nodup) :
    (∃ res, noDupMap out members = .ok res) ↔
      (∀ m ∈ members, ∃ v, noDup m.2 = .ok v) ∧
        (out.map Prod.fst ++ members.map Prod.fst).Nodup := by
  induction members generalizing out with
  | nil => simp [noDupMap,hout]
  | cons m rest ih =>
    obtain ⟨k,t⟩ := m
    simp only [noDupMap_cons,List.forall_mem_cons]
    constructor
    · rintro ⟨res,v,hv,hnew,h⟩
      obtain ⟨hrest,hall⟩ := (ih (insertMember_nodup hout hnew)).mp ⟨res,h⟩
      exact ⟨⟨⟨v,hv⟩,hrest⟩,insertMember_append.mp hall⟩
    · rintro ⟨⟨⟨v,hv⟩,hrest⟩,hall⟩
      have hall' := (insertMember_append (v := v)).mpr hall
      obtain ⟨res,hres⟩ := (ih hall'.of_append_left).mpr ⟨hrest,hall'⟩
      have hnew : k ∉ out.map Prod.fst := fun hmem =>
        (List.nodup_append.mp hall).2.2 k hmem k (by simp) rfl
      exact ⟨res,v,hv,hnew,hres⟩

theorem noDupSeq_cons {t : Value} {rest out : List Value} :
    noDupSeq (t :: rest) = .ok out ↔
      ∃ v, noDup t = .ok v ∧ ∃ vs, noDupSeq rest = .ok vs ∧ v :: vs = out := by
  rw [noDupSeq]
  simp only [Fallible.bind_ok,Fallible.pure_ok]

theorem numbersMembers_eq (ms : List (String × Value)) :
    numbersMembers ms = ms.flatMap fun m => numbers m.2 := by
  induction ms with
  | nil => rfl
  | cons m rest ih => rw [List.flatMap_cons,← ih]; rfl

mutual

theorem noDup_numbers : ∀ {t v : Value}, noDup t = .ok v → ∀ n, n ∈ numbers v ↔ n ∈ numbers t
  | .null,v,h,n => by
    obtain rfl : Value.null = v := by simpa [noDup] using h
    rfl
  | .bool b,v,h,n => by
    obtain rfl : Value.bool b = v := by simpa [noDup] using h
    rfl
  | .number m,v,h,n => by
    obtain rfl : Value.number m = v := by simpa [noDup] using h
    rfl
  | .string s,v,h,n => by
    obtain rfl : Value.string s = v := by simpa [noDup] using h
    rfl
  | .array items,v,h,n => by
    simp only [noDup,Fallible.bind_ok,Fallible.pure_ok] at h
    obtain ⟨out,hout,rfl⟩ := h
    exact noDupSeq_numbers hout n
  | .object members,v,h,n => by
    simp only [noDup,Fallible.bind_ok,Fallible.pure_ok] at h
    obtain ⟨res,hres,rfl⟩ := h
    obtain ⟨vs,hvs,hperm⟩ := noDupMap_perm hres
    rw [List.nil_append] at hperm
    simp only [numbers,numbersMembers_eq res]
    rw [(hperm.flatMap_right _).mem_iff,← numbersMembers_eq]
    exact noDupMembers_numbers hvs n

theorem noDupSeq_numbers : ∀ {items out : List Value}, noDupSeq items = .ok out → ∀ n,
    n ∈ numbersItems out ↔ n ∈ numbersItems items
  | [],out,h,n => by
    obtain rfl : [] = out := by simpa [noDupSeq] using h
    rfl
  | t :: rest,out,h,n => by
    obtain ⟨v,hv,vs,hvs,rfl⟩ := noDupSeq_cons.mp h
    simp only [numbersItems,List.mem_append]
    exact or_congr (noDup_numbers hv n) (noDupSeq_numbers hvs n)

theorem noDupMembers_numbers : ∀ {members vs : List (String × Value)},
    List.Forall₂ (fun m v => m.1 = v.1 ∧ noDup m.2 = .ok v.2) members vs → ∀ n,
      n ∈ numbersMembers vs ↔ n ∈ numbersMembers members
  | [],vs,h,n => by
    cases h
    rfl
  | (k,t) :: rest,vs,h,n => by
    obtain ⟨⟨k',v⟩,vs',⟨-,hv⟩,hrest,rfl⟩ := List.forall₂_cons_left_iff.mp h
    simp only [numbersMembers,List.mem_append]
    exact or_congr (noDup_numbers hv n) (noDupMembers_numbers hrest n)

end

end NoDup

section Distinct

variable {f64 : List Char → Option String}

theorem treeMembers_nodup {members : List (List Nat × Raw)} {ms : List (String × Value)}
    (h : treeMembers f64 members = some ms) (hk : ∀ m ∈ members, Sized m.1) :
    (ms.map Prod.fst).Nodup ↔ (members.map Prod.fst).Nodup := by
  rw [← treeMembers_keys h hk,← List.nodup_map_iff points_injective,List.map_map]
  rfl

theorem memberStrings_keys {members : List (List Nat × Raw)} {P : List Nat → Prop}
    (h : ∀ s ∈ memberStrings members, P s) : ∀ m ∈ members, P m.1 := by
  intro m hm
  refine h m.1 ?_
  rw [memberStrings_eq,List.mem_flatMap]
  exact ⟨m,hm,by simp⟩

mutual

theorem noDup_iff : ∀ {raw : Raw} {t : Value}, tree f64 raw = some t →
    (∀ s ∈ strings raw, Sized s) → ((∃ v, noDup t = .ok v) ↔ ∀ ks ∈ names raw, ks.Nodup)
  | .null,t,h,_ => by
    obtain rfl := Option.some.inj h
    simp [noDup,names]
  | .bool b,t,h,_ => by
    obtain rfl := Option.some.inj h
    simp [noDup,names]
  | .number w,t,h,_ => by
    obtain ⟨m,-,rfl⟩ := Option.map_eq_some_iff.mp h
    simp [noDup,names]
  | .string k,t,h,_ => by
    obtain ⟨s,-,rfl⟩ := Option.map_eq_some_iff.mp h
    simp [noDup,names]
  | .array items,t,h,hs => by
    obtain ⟨vs,hvs,rfl⟩ := Option.map_eq_some_iff.mp h
    simp only [noDup,names,Fallible.bind_ok,Fallible.pure_ok]
    rw [← noDupSeq_iff hvs hs]
    exact ⟨fun ⟨_,out,h,_⟩ => ⟨out,h⟩,fun ⟨out,h⟩ => ⟨_,out,h,rfl⟩⟩
  | .object members,t,h,hs => by
    obtain ⟨ms,hms,rfl⟩ := Option.map_eq_some_iff.mp h
    have hmap : (∃ res, noDupMap [] ms = .ok res) ↔ _ := noDupMap_iff (by simp)
    rw [List.map_nil,List.nil_append,treeMembers_nodup hms (memberStrings_keys hs),
      noDupMembers_iff hms hs] at hmap
    simp only [noDup,names,Fallible.bind_ok,Fallible.pure_ok,List.forall_mem_cons]
    rw [and_comm,← hmap]
    exact ⟨fun ⟨_,out,h,_⟩ => ⟨out,h⟩,fun ⟨out,h⟩ => ⟨_,out,h,rfl⟩⟩

theorem noDupSeq_iff : ∀ {items : List Raw} {vs : List Value}, treeItems f64 items = some vs →
    (∀ s ∈ itemStrings items, Sized s) →
      ((∃ out, noDupSeq vs = .ok out) ↔ ∀ ks ∈ itemNames items, ks.Nodup)
  | [],vs,h,_ => by
    obtain rfl := Option.some.inj h
    simp [noDupSeq,itemNames]
  | raw :: rest,vs,h,hs => by
    obtain ⟨v,vs',hv,hvs,rfl⟩ := treeItems_cons h
    rw [itemStrings,List.forall_mem_append] at hs
    rw [itemNames,List.forall_mem_append,← noDup_iff hv hs.1,← noDupSeq_iff hvs hs.2]
    simp only [noDupSeq_cons]
    exact ⟨fun ⟨_,x,h,xs,h',_⟩ => ⟨⟨x,h⟩,xs,h'⟩,fun ⟨⟨x,h⟩,xs,h'⟩ => ⟨_,x,h,xs,h',rfl⟩⟩

theorem noDupMembers_iff : ∀ {members : List (List Nat × Raw)} {ms : List (String × Value)},
    treeMembers f64 members = some ms → (∀ s ∈ memberStrings members, Sized s) →
      ((∀ m ∈ ms, ∃ v, noDup m.2 = .ok v) ↔ ∀ ks ∈ memberNames members, ks.Nodup)
  | [],ms,h,_ => by
    obtain rfl := Option.some.inj h
    simp [memberNames]
  | (k,raw) :: rest,ms,h,hs => by
    obtain ⟨s,v,ms',-,hv,hms,rfl⟩ := treeMembers_cons h
    rw [memberStrings,List.forall_mem_cons,List.forall_mem_append] at hs
    rw [memberNames,List.forall_mem_append,← noDup_iff hv hs.2.1,← noDupMembers_iff hms hs.2.2,
      List.forall_mem_cons]

end

end Distinct

section Whole

variable {f64 : List Char → Option String}

def Whole (w : List Char) : Prop :=
  w ≠ "-0".toList ∧ ∃ i, integerOf w = some i ∧ -(2 ^ 63) ≤ i ∧ i < 2 ^ 64

theorem number_whole {w : List Char} (h : Whole w) : ∃ i, integerOf w = some i ∧
    number f64 w = some (.int i) ∧ -(2 ^ 63) ≤ i ∧ i < 2 ^ 64 := by
  obtain ⟨hne,i,hi,hlo,hhi⟩ := h
  refine ⟨i,hi,?_,hlo,hhi⟩
  simp only [number,hi,if_neg hne,if_pos (And.intro hlo hhi)]

theorem number_int_whole {w : List Char} {i : Int} (h : number f64 w = some (.int i)) :
    Whole w ∧ integerOf w = some i := by
  rw [number] at h
  split at h
  · rename_i j hj
    split at h
    · cases h
    · rename_i hne
      split at h
      · rename_i hrange
        cases h
        exact ⟨⟨hne,i,hj,hrange⟩,hj⟩
      · obtain ⟨t,-,ht⟩ := Option.map_eq_some_iff.mp h
        cases ht
  · obtain ⟨t,-,ht⟩ := Option.map_eq_some_iff.mp h
    cases ht

theorem number_integral {w : List Char} {n : Number} (h : number f64 w = some n) :
    (n.asI64.isSome ∨ n.asU64.isSome) ↔ Whole w := by
  constructor
  · intro hn
    obtain ⟨i,rfl⟩ : ∃ i, n = .int i := by
      rcases hn with hn | hn
      · obtain ⟨i,hi⟩ := Option.isSome_iff_exists.mp hn
        exact ⟨i,(asI64_some hi).1⟩
      · obtain ⟨i,hi⟩ := Option.isSome_iff_exists.mp hn
        exact ⟨i,(asU64_some hi).1⟩
    exact (number_int_whole h).1
  · intro hw
    obtain ⟨i,-,hi,hlo,hhi⟩ := number_whole hw
    obtain rfl : Number.int i = n := Option.some.inj (hi.symm.trans h)
    exact writeValue_integral.mp ⟨_,writeValue_number.mpr ⟨i,rfl,hlo,hhi,rfl⟩⟩

theorem fraction_dot {w : List Char} (h : Abnf.Rule.Derives fraction w) : '.' ∈ w := by
  obtain ⟨dot,ds,rfl,hdot,-⟩ := h
  obtain rfl : dot = ['.'] := hdot
  simp

theorem exponent_mark {w : List Char} (h : Abnf.Rule.Derives exponent w) : 'e' ∈ w ∨ 'E' ∈ w := by
  obtain ⟨_,rest,rfl,⟨e,rfl,he⟩,-⟩ := h
  simp only [Bool.or_eq_true,beq_iff_eq] at he
  rcases he with rfl | rfl
  · exact .inl (by simp)
  · exact .inr (by simp)

theorem integer_numeral {w : List Char} (h : Abnf.Rule.Derives integer w) : Numeral.Plain w := by
  rcases integer_derives.mp h with rfl | ⟨c,ds,rfl,hc,hds⟩
  · exact ⟨by simp,by simp,by simp⟩
  · obtain ⟨hdigit,hzero⟩ := lead_digit hc
    exact ⟨List.forall_mem_cons.mpr ⟨hdigit,hds⟩,by simp,fun _ => by simpa using hzero⟩

theorem integerOf_numeral {w : List Char} {i : Int} (hw : Abnf.Rule.Derives numberRule w)
    (h : integerOf w = some i) : ∃ ds, Numeral.Plain ds ∧
      (w = ds ∨ w = '-' :: ds) ∧ i.natAbs = Numeral.value ds := by
  have hnone : ∀ c ∈ w, c ≠ '.' ∧ c ≠ 'e' ∧ c ≠ 'E' := by
    simp only [integerOf] at h
    split at h
    · cases h
    · rename_i hany
      simpa [not_or,and_assoc] using hany
  obtain ⟨u,hwu,int,_,rfl,hint,frac,exp,rfl,hfrac,hexp⟩ := number_cases.mp hw
  have hsub : ∀ c ∈ int ++ (frac ++ exp), c ∈ w := by
    intro c hc
    rcases hwu with rfl | rfl
    · exact hc
    · exact List.mem_cons_of_mem _ hc
  obtain rfl : frac = [] := by
    rcases Abnf.derives_opt.mp hfrac with rfl | hfrac
    · rfl
    · have hdot := hsub '.' (by simp [fraction_dot hfrac])
      exact absurd rfl (hnone '.' hdot).1
  obtain rfl : exp = [] := by
    rcases Abnf.derives_opt.mp hexp with rfl | hexp
    · rfl
    · rcases exponent_mark hexp with he | he
      · exact absurd rfl (hnone 'e' (hsub 'e' (by simp [he]))).2.1
      · exact absurd rfl (hnone 'E' (hsub 'E' (by simp [he]))).2.2
  rw [List.append_nil,List.append_nil] at hwu
  have hplain := integer_numeral hint
  refine ⟨int,hplain,hwu,?_⟩
  simp only [integerOf] at h
  split at h
  · cases h
  · rcases hwu with rfl | rfl
    · split at h
      · have hdigit := hplain.digits '-' (by simp)
        exact absurd hdigit (by decide)
      · obtain rfl := Option.some.inj h
        simp
    · obtain rfl := Option.some.inj h
      simp

theorem numeral_short {ds : List Char} (h : Numeral.Plain ds) (hlt : Numeral.value ds < 10 ^ 20) :
    ds.length ≤ 20 := by
  rw [← Numeral.toDigits_value h]
  exact Numeral.length_le_of_lt (by decide) hlt

end Whole

end MurlSystem.Serde

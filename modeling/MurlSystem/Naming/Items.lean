import MurlSystem.Naming.Stages

namespace MurlSystem.Syntax

open Abnf

section Version

theorem vnum_derives {p : List Char} :
    vnum.Derives p ↔ (∀ c ∈ p, isDigit c = true) ∧ 1 ≤ p.length ∧ p.length ≤ 5 := by
  rw [vnum,Rule.between,derives_run]
  simp

theorem component_ok {s p : List Char} {n : Nat} :
    VersionTag.component s p = .ok n ↔ (vnum.Derives p ∧ NoLeadingZero p) ∧ decimal p = n := by
  have hlen : p ≠ [] ↔ 1 ≤ p.length := List.length_pos_iff.symm
  have hall : p.all isDigit = true ↔ ∀ c ∈ p, isDigit c = true := List.all_eq_true
  rw [VersionTag.component,Fallible.guard_ok,Fallible.guard_ok,vnum_derives]
  simp only [Bool.or_eq_true,List.isEmpty_iff,decide_eq_true_eq,Bool.not_eq_true',not_or,
    Bool.not_eq_false,hall,Bool.and_eq_true,beq_iff_eq,not_and,NoLeadingZero,Except.ok.injEq]
  constructor
  · rintro ⟨⟨⟨hne,hfew⟩,hdigits⟩,hzero,rfl⟩
    exact ⟨⟨⟨hdigits,hlen.mp hne,by omega⟩,hzero⟩,rfl⟩
  · rintro ⟨⟨⟨hdigits,hleast,hmost⟩,hzero⟩,rfl⟩
    exact ⟨⟨⟨hlen.mpr hleast,by omega⟩,hdigits⟩,hzero,rfl⟩

theorem vnum_free {p : List Char} (h : vnum.Derives p) {c : Char} (hc : isDigit c = false) :
    c ∉ p := by
  intro hmem
  rw [(vnum_derives.mp h).1 c hmem] at hc
  cases hc

theorem numbers_free {ps : List (List Char)} (h : ∀ p ∈ ps, vnum.Derives p ∧ NoLeadingZero p)
    {c : Char} (hdot : c ≠ '.') (hc : isDigit c = false) : c ∉ ['.'].intercalate ps := by
  intro hmem
  rcases Text.mem_intercalate hmem with he | ⟨p,hp,hmem⟩
  · exact hdot he
  · exact vnum_free (h p hp).1 hc hmem

theorem forall_map {α β : Type} {f : α → β} {P : α → Prop} {l : List α} {bs : List β} :
    List.Forall₂ (fun a b => P a ∧ f a = b) l bs ↔ (∀ a ∈ l, P a) ∧ bs = l.map f := by
  induction l generalizing bs with
  | nil => simp
  | cons a l ih =>
    simp only [List.forall₂_cons_left_iff,List.map_cons,List.forall_mem_cons]
    constructor
    · rintro ⟨b,rest,⟨ha,rfl⟩,hrest,rfl⟩
      obtain ⟨hl,rfl⟩ := ih.mp hrest
      exact ⟨⟨ha,hl⟩,rfl⟩
    · rintro ⟨⟨ha,hl⟩,rfl⟩
      exact ⟨f a,l.map f,⟨ha,rfl⟩,ih.mpr ⟨hl,rfl⟩,rfl⟩

theorem versionParse_ok {w : List Char} {v : VersionTag} :
    VersionTag.parse w = .ok v ↔ VersionReads .exact (some w) v := by
  have hsplit : ∀ nums, List.Forall₂ (fun p n => VersionTag.component w p = .ok n) (w.splitOn '.') nums ↔
      (∀ p ∈ w.splitOn '.', vnum.Derives p ∧ NoLeadingZero p) ∧ nums = (w.splitOn '.').map decimal := by
    intro nums
    simp only [component_ok]
    exact forall_map
  rw [VersionTag.parse,Fallible.ite_ok,Fallible.guard_ok,Fallible.guard_ok]
  simp only [Fallible.bind_ok,Fallible.pure_ok,Fallible.mapM_ok,hsplit,Except.ok.injEq,
    List.isEmpty_iff,Nat.not_lt]
  constructor
  · rintro (⟨rfl,rfl⟩ | ⟨-,-,hfew,nums,⟨heach,rfl⟩,rfl⟩)
    · exact .latest _ rfl
    · have hjoin : ['.'].intercalate (w.splitOn '.') = w := List.intercalate_splitOn '.'
      have hread : VersionReads .exact (some (['.'].intercalate (w.splitOn '.'))) _ :=
        .pinned _ (List.splitOn_ne_nil '.' w) hfew heach
      rwa [hjoin] at hread
  · intro hread
    cases hread with
    | latest _ rule => exact .inl ⟨rule,rfl⟩
    | pinned ps nonempty few each =>
      have hparts : (['.'].intercalate ps).splitOn '.' = ps :=
        List.splitOn_intercalate '.' (fun p hp => vnum_free (each p hp).1 (by decide)) nonempty
      refine .inr ⟨fun he => ?_,fun he => ?_,?_⟩
      · exact numbers_free each (c := 'l') (by decide) (by decide) (by rw [he]; decide)
      · refine Text.intercalate_ne_nil nonempty (fun p hp => ?_) he
        exact List.ne_nil_of_length_pos (vnum_derives.mp (each p hp).1).2.1
      · rw [hparts]
        exact ⟨few,_,⟨each,rfl⟩,rfl⟩

end Version

section Selector

theorem isDashAlnum_ascii {c : Char} (h : isDashAlnum c = true) : Text.isAscii c = true := by
  simp only [isDashAlnum,isLowerAlnum,Bool.or_eq_true,Bool.and_eq_true,decide_eq_true_eq,
    beq_iff_eq] at h
  rw [Text.isAscii,decide_eq_true_eq]
  rcases h with (h | h) | rfl
  · have hhi : c.toNat ≤ 122 := UInt32.le_iff_toNat_le.mp h.2
    omega
  · have hhi : c.toNat ≤ 57 := UInt32.le_iff_toNat_le.mp h.2
    omega
  · decide

theorem isIdChar_ascii {c : Char} (h : isIdChar c = true) : Text.isAscii c = true := by
  rw [isIdChar,Bool.or_eq_true,beq_iff_eq] at h
  rcases h with h | rfl
  · exact isDashAlnum_ascii h
  · decide

theorem matchesIdent_iff {max : Nat} {first rest : Char → Bool} {s : List Char}
    (hfirst : ∀ c, first c = true → Text.isAscii c = true)
    (hrest : ∀ c, rest c = true → Text.isAscii c = true) :
    matchesIdent max first rest (String.ofList s) = true ↔
      ∃ c cs, s = c :: cs ∧ first c = true ∧ (∀ d ∈ cs, rest d = true) ∧ cs.length + 1 ≤ max := by
  cases s with
  | nil => simp [matchesIdent]
  | cons c cs =>
    have hsize : first c = true → (∀ d ∈ cs, rest d = true) →
        (String.ofList (c :: cs)).utf8ByteSize = cs.length + 1 := by
      intro hc hcs
      rw [Text.size_ascii,String.toList_ofList,List.length_cons]
      rw [String.toList_ofList]
      intro d hd
      rcases List.mem_cons.mp hd with rfl | hd
      · exact hfirst d hc
      · exact hrest d (hcs d hd)
    simp only [matchesIdent,String.toList_ofList,Bool.and_eq_true,decide_eq_true_eq,List.all_eq_true]
    constructor
    · rintro ⟨⟨hmax,hc⟩,hcs⟩
      exact ⟨c,cs,rfl,hc,hcs,by rwa [← hsize hc hcs]⟩
    · rintro ⟨d,ds,heq,hc,hcs,hmax⟩
      obtain ⟨rfl,rfl⟩ := List.cons.inj heq
      exact ⟨⟨by rwa [hsize hc hcs],hc⟩,hcs⟩

theorem ident_derives {most : Nat} {first rest : Char → Bool} {s : List Char} :
    (Rule.cat (.char first) (.between 0 most (.char rest))).Derives s ↔
      ∃ c cs, s = c :: cs ∧ first c = true ∧ (∀ d ∈ cs, rest d = true) ∧ cs.length + 1 ≤ most + 1 := by
  constructor
  · rintro ⟨x,y,rfl,⟨c,rfl,hc⟩,hy⟩
    rw [Rule.between,derives_run] at hy
    exact ⟨c,y,rfl,hc,hy.1,Nat.succ_le_succ (hy.2.2 most rfl)⟩
  · rintro ⟨c,cs,rfl,hc,hcs,hlen⟩
    refine ⟨[c],cs,rfl,⟨c,rfl,hc⟩,?_⟩
    rw [Rule.between,derives_run]
    refine ⟨hcs,Nat.zero_le _,?_⟩
    rintro n ⟨⟩
    exact Nat.le_of_succ_le_succ hlen

theorem resourceId_valid {s : List Char} :
    isValidResourceId (String.ofList s) = true ↔ resourceId.Derives s := by
  have hid : ∀ c, isLowerAlnum c = true → isIdChar c = true := fun c hc => by simp [isIdChar,hc]
  rw [resourceId,ident_derives]
  exact matchesIdent_iff (fun c hc => isIdChar_ascii (hid c hc)) fun c => isIdChar_ascii

theorem role_valid {s : List Char} : isValidRole (String.ofList s) = true ↔ role.Derives s := by
  have hdash : ∀ c, isLowerAlnum c = true → isDashAlnum c = true := fun c hc => by
    simp [isDashAlnum,hc]
  rw [role,ident_derives]
  exact matchesIdent_iff (fun c hc => isDashAlnum_ascii (hdash c hc)) fun c => isDashAlnum_ascii

theorem tag_valid {s : List Char} : isValidTag (String.ofList s) = true ↔ tag.Derives s := by
  rw [tag,Rule.between,derives_run]
  refine (matchesIdent_iff (fun c => isDashAlnum_ascii) fun c => isDashAlnum_ascii).trans ?_
  constructor
  · rintro ⟨c,cs,rfl,hc,hcs,hlen⟩
    refine ⟨List.forall_mem_cons.mpr ⟨hc,hcs⟩,by simp,?_⟩
    rintro n ⟨⟩
    exact hlen
  · rintro ⟨hall,hleast,hmost⟩
    obtain ⟨c,cs,rfl⟩ := List.exists_cons_of_length_pos hleast
    obtain ⟨hc,hcs⟩ := List.forall_mem_cons.mp hall
    exact ⟨c,cs,rfl,hc,hcs,hmost 32 rfl⟩

theorem dropPrefix_iff {p s t : List Char} : s.dropPrefix? p = some t ↔ s = p ++ t := by
  rw [List.dropPrefix?_eq_some_iff]
  constructor
  · rintro ⟨q,rfl,hq⟩
    rw [beq_iff_eq.mp hq]
  · rintro rfl
    exact ⟨p,rfl,beq_self_eq_true p⟩

theorem dropPrefix_none {p s : List Char} {c : Char} (hc : c ∈ p) (hs : c ∉ s) :
    s.dropPrefix? p = none := by
  cases h : s.dropPrefix? p with
  | none => rfl
  | some t =>
    rw [dropPrefix_iff.mp h] at hs
    exact absurd (List.mem_append_left t hc) hs

theorem resourceId_chars {s : List Char} (h : resourceId.Derives s) :
    ∀ c ∈ s, isIdChar c = true := by
  rw [resourceId,ident_derives] at h
  obtain ⟨c,cs,rfl,hc,hcs,-⟩ := h
  refine List.forall_mem_cons.mpr ⟨by simp [isIdChar,hc],hcs⟩

theorem resourceId_free {s : List Char} (h : resourceId.Derives s) {c : Char}
    (hc : isIdChar c = false) : c ∉ s := by
  intro hmem
  rw [resourceId_chars h c hmem] at hc
  cases hc

theorem parseSelectorItem_ok {w : List Char} {item : SelectorItem} :
    parseSelectorItem w = .ok item ↔ ItemReads .exact w item := by
  unfold parseSelectorItem
  constructor
  · intro h
    cases hr : w.dropPrefix? "role=".toList with
    | some s =>
      obtain rfl := dropPrefix_iff.mp hr
      simp only [hr,Fallible.ite_ok,Except.ok.injEq,reduceCtorEq,and_false,or_false] at h
      obtain ⟨hs,rfl⟩ := h
      exact .role _ s rfl (role_valid.mp hs)
    | none =>
      cases ht : w.dropPrefix? "tag=".toList with
      | some s =>
        obtain rfl := dropPrefix_iff.mp ht
        simp only [hr,ht,Fallible.ite_ok,Except.ok.injEq,reduceCtorEq,and_false,or_false] at h
        obtain ⟨hs,rfl⟩ := h
        exact .tag _ s rfl (tag_valid.mp hs)
      | none =>
        simp only [hr,ht,Fallible.ite_ok,Except.ok.injEq,reduceCtorEq,and_false,or_false] at h
        obtain ⟨hs,rfl⟩ := h
        exact .id w (resourceId_valid.mp hs)
  · intro h
    cases h with
    | id _ rule =>
      have hfree : '=' ∉ w := resourceId_free rule (by decide)
      rw [dropPrefix_none (c := '=') (by decide) hfree,dropPrefix_none (c := '=') (by decide) hfree]
      exact if_pos (resourceId_valid.mpr rule)
    | role word s is rule =>
      obtain rfl : word = "role=".toList := is
      rw [dropPrefix_iff.mpr rfl]
      exact if_pos (role_valid.mpr rule)
    | tag word s is rule =>
      obtain rfl : word = "tag=".toList := is
      have hrole : ("tag=".toList ++ s).dropPrefix? "role=".toList = none := rfl
      rw [hrole,dropPrefix_iff.mpr rfl]
      exact if_pos (tag_valid.mpr rule)

theorem item_free {w : List Char} {item : SelectorItem} (h : ItemReads .exact w item) :
    w ≠ [] ∧ ',' ∉ w := by
  cases h with
  | id _ rule =>
    refine ⟨?_,resourceId_free rule (by decide)⟩
    rintro rfl
    rw [resourceId,ident_derives] at rule
    obtain ⟨c,cs,hnil,-⟩ := rule
    cases hnil
  | role word s is rule =>
    obtain rfl : word = "role=".toList := is
    refine ⟨by simp,?_⟩
    rw [role,ident_derives] at rule
    obtain ⟨c,cs,rfl,hc,hcs,-⟩ := rule
    intro hmem
    rcases List.mem_append.mp hmem with hmem | hmem
    · exact absurd hmem (by decide)
    · rcases List.mem_cons.mp hmem with rfl | hmem
      · exact absurd hc (by decide)
      · exact absurd (hcs _ hmem) (by decide)
  | tag word s is rule =>
    obtain rfl : word = "tag=".toList := is
    refine ⟨by simp,?_⟩
    rw [tag,Rule.between,derives_run] at rule
    intro hmem
    rcases List.mem_append.mp hmem with hmem | hmem
    · exact absurd hmem (by decide)
    · exact absurd (rule.1 _ hmem) (by decide)

theorem items_free {ps : List (List Char)} {items : List SelectorItem}
    (h : List.Forall₂ (ItemReads .exact) ps items) : ∀ p ∈ ps, p ≠ [] ∧ ',' ∉ p := by
  intro p hp
  obtain ⟨item,-,hitem⟩ := Fallible.forall₂_mem h p hp
  exact item_free hitem

theorem parseSelector_ok {f : List Char} {items : List SelectorItem} :
    parseSelector f = .ok items ↔ SelectorReads .exact (some f) (some items) := by
  rw [parseSelector,Fallible.guard_ok,Fallible.guard_ok]
  simp only [Fallible.mapM_ok,parseSelectorItem_ok,List.isEmpty_iff,Nat.not_lt]
  constructor
  · rintro ⟨-,hfew,heach⟩
    have hjoin : [','].intercalate (f.splitOn ',') = f := List.intercalate_splitOn ','
    have hread : SelectorReads .exact (some ([','].intercalate (f.splitOn ','))) (some items) :=
      .items _ items (List.splitOn_ne_nil ',' f) hfew heach
    rwa [hjoin] at hread
  · intro hread
    cases hread with
    | items ps _ nonempty few each =>
      have hfree := items_free each
      have hparts : ([','].intercalate ps).splitOn ',' = ps :=
        List.splitOn_intercalate ',' (fun p hp => (hfree p hp).2) nonempty
      rw [hparts]
      exact ⟨Text.intercalate_ne_nil nonempty fun p hp => (hfree p hp).1,few,each⟩

end Selector

end MurlSystem.Syntax

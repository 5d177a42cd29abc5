import MurlSystem.Foundation.Rfc8259

namespace Rfc8259

open Abnf

def Avoids (p : Char → Bool) (rest : List Char) : Prop := ∀ c ∈ rest.head?, p c = false

def isNumberChar (c : Char) : Bool :=
  isDigit c || c == '.' || c == 'e' || c == 'E' || c == '+' || c == '-'

section Numbers

variable {w rest : List Char}

theorem avoids_weaken {p q : Char → Bool} (h : Avoids p rest) (hq : ∀ c, q c = true → p c = true) :
    Avoids q rest := by
  intro c hc
  have hp := h c hc
  by_contra hne
  rw [hq c (by simpa using hne)] at hp
  cases hp

theorem digits_derives : digits.Derives w ↔ (∀ c ∈ w, isDigit c = true) ∧ 1 ≤ w.length := by
  rw [digits,derives_run]
  simp

theorem takeDigits_complete (h : digits.Derives w) (hrest : Avoids isDigit rest) :
    takeDigits (w ++ rest) = some (w,rest) := by
  obtain ⟨hall,hlen⟩ := digits_derives.mp h
  obtain ⟨d,ds,rfl⟩ := List.exists_cons_of_length_pos hlen
  rw [takeDigits,List.takeWhile_append_of_pos hall,List.dropWhile_append_of_pos hall]
  cases rest with
  | nil => simp
  | cons c rest =>
    have hc : isDigit c = false := hrest c rfl
    simp [hc]

theorem takeDigits_sound {s : List Char} (h : takeDigits s = some (w,rest)) :
    s = w ++ rest ∧ digits.Derives w := by
  rw [takeDigits] at h
  have hsplit : s.takeWhile isDigit ++ s.dropWhile isDigit = s := List.takeWhile_append_dropWhile
  have hall : ∀ c ∈ s.takeWhile isDigit, isDigit c = true := 
    List.all_eq_true.mp List.all_takeWhile
  cases htake : s.takeWhile isDigit with
  | nil => simp [htake] at h
  | cons d ds =>
    simp only [htake,Option.some.injEq,Prod.mk.injEq] at h
    obtain ⟨rfl,rfl⟩ := h
    rw [htake] at hsplit hall
    exact ⟨hsplit.symm,digits_derives.mpr ⟨hall,by simp⟩⟩

theorem integer_derives : integer.Derives w ↔
    w = ['0'] ∨ ∃ c ds, w = c :: ds ∧ ('1' ≤ c && c ≤ '9') = true ∧ ∀ d ∈ ds, isDigit d = true := by
  constructor
  · rintro (h | ⟨x,ds,rfl,⟨c,rfl,hc⟩,hds⟩)
    · exact .inl h
    · rw [derives_run] at hds
      exact .inr ⟨c,ds,rfl,hc,hds.1⟩
  · rintro (h | ⟨c,ds,rfl,hc,hds⟩)
    · exact .inl h
    · exact .inr ⟨[c],ds,rfl,⟨c,rfl,hc⟩,derives_run.mpr ⟨hds,by simp,by simp⟩⟩

theorem lead_digit {c : Char} (h : ('1' ≤ c && c ≤ '9') = true) : isDigit c = true ∧ c ≠ '0' := by
  simp only [Bool.and_eq_true,decide_eq_true_eq] at h
  have hlo : 49 ≤ c.toNat := UInt32.le_iff_toNat_le.mp h.1
  constructor
  · have hge : '0' ≤ c := UInt32.le_iff_toNat_le.mpr (by
      change 48 ≤ c.toNat
      omega)
    simp [isDigit,hge,h.2]
  · rintro rfl
    exact absurd hlo (by decide)

theorem takeInteger_other {c : Char} {s : List Char} (h : c ≠ '0') :
    takeInteger (c :: s) = takeDigits (c :: s) := by
  rw [takeInteger]
  simpa using h

theorem takeInteger_complete (h : integer.Derives w) (hrest : Avoids isDigit rest) :
    takeInteger (w ++ rest) = some (w,rest) := by
  rcases integer_derives.mp h with rfl | ⟨c,ds,rfl,hc,hds⟩
  · rfl
  · obtain ⟨hdigit,hzero⟩ := lead_digit hc
    have hall : digits.Derives (c :: ds) :=
      digits_derives.mpr ⟨List.forall_mem_cons.mpr ⟨hdigit,hds⟩,by simp⟩
    rw [List.cons_append,takeInteger_other hzero]
    exact takeDigits_complete hall hrest

theorem takeFraction_other {s : List Char} (h : Avoids (· == '.') s) :
    takeFraction s = some ([],s) := by
  cases s with
  | nil => rfl
  | cons c s =>
    have hc : c ≠ '.' := by simpa using h c rfl
    rw [takeFraction]
    simpa using hc

theorem takeFraction_complete (h : fraction.opt.Derives w)
    (hrest : Avoids (fun c => isDigit c || c == '.') rest) :
    takeFraction (w ++ rest) = some (w,rest) := by
  rcases derives_opt.mp h with rfl | ⟨dot,ds,rfl,hdot,hds⟩
  · exact takeFraction_other (avoids_weaken hrest (by simp))
  · obtain rfl : dot = ['.'] := hdot
    have hdigits := takeDigits_complete hds (avoids_weaken hrest (by simp +contextual))
    change (takeDigits (ds ++ rest)).map _ = _
    rw [hdigits]
    rfl

theorem takeExponent_complete (h : exponent.opt.Derives w)
    (hrest : Avoids (fun c => isDigit c || (c == 'e' || c == 'E')) rest) :
    takeExponent (w ++ rest) = some (w,rest) := by
  rcases derives_opt.mp h with rfl | ⟨_,_,rfl,⟨e,rfl,he⟩,sign,ds,rfl,hsign,hds⟩
  · cases rest with
    | nil => rfl
    | cons c rest =>
      have hc := hrest c rfl
      simp only [Bool.or_eq_false_iff] at hc
      simp [takeExponent,hc]
  · have hdigits := takeDigits_complete hds (avoids_weaken hrest (by simp +contextual))
    obtain ⟨hall,hlen⟩ := digits_derives.mp hds
    rcases derives_opt.mp hsign with rfl | ⟨d,rfl,hd⟩
    · obtain ⟨d,ds,rfl⟩ := List.exists_cons_of_length_pos hlen
      have hd := hall d (by simp)
      have hnot : (d == '+' || d == '-') = false := by
        by_contra hne
        simp only [Bool.not_eq_false,Bool.or_eq_true,beq_iff_eq] at hne
        rcases hne with rfl | rfl <;> exact absurd hd (by decide)
      simp only [List.cons_append,List.nil_append] at hdigits ⊢
      simp [takeExponent,he,hnot,hdigits]
    · simp [takeExponent,he,hd,hdigits]

theorem takeUnsigned_complete
    (h : (Rule.cat integer (.cat (.opt fraction) (.opt exponent))).Derives w)
    (hrest : Avoids isNumberChar rest) : takeUnsigned (w ++ rest) = some (w,rest) := by
  obtain ⟨int,_,rfl,hint,frac,exp,rfl,hfrac,hexp⟩ := h
  have hexp' : Avoids (fun c => isDigit c || c == '.') (exp ++ rest) := by
    rcases derives_opt.mp hexp with rfl | ⟨_,tail,rfl,⟨e,rfl,he⟩,-⟩
    · exact avoids_weaken hrest (by simp +contextual [isNumberChar])
    · rintro c ⟨⟩
      simp only [Bool.or_eq_true,beq_iff_eq] at he
      rcases he with rfl | rfl <;> decide
  have hfrac' : Avoids isDigit (frac ++ (exp ++ rest)) := by
    rcases derives_opt.mp hfrac with rfl | ⟨dot,ds,rfl,hdot,-⟩
    · exact avoids_weaken hexp' (by simp +contextual)
    · obtain rfl : dot = ['.'] := hdot
      rintro c ⟨⟩
      decide
  have h1 := takeInteger_complete hint hfrac'
  have h2 := takeFraction_complete hfrac hexp'
  have hrest' : Avoids (fun c => isDigit c || (c == 'e' || c == 'E')) rest := by
    refine avoids_weaken hrest fun c hc => ?_
    simp only [Bool.or_eq_true] at hc
    rcases hc with hc | hc | hc <;> simp [isNumberChar,hc]
  have h3 := takeExponent_complete hexp hrest'
  simp [takeUnsigned,h1,h2,h3]

theorem takeNumber_other {c : Char} {s : List Char} (h : c ≠ '-') :
    takeNumber (c :: s) = takeUnsigned (c :: s) := by
  rw [takeNumber]
  simpa using h

theorem number_cases : numberRule.Derives w ↔
    ∃ u, (w = u ∨ w = '-' :: u) ∧
      (Rule.cat integer (.cat (.opt fraction) (.opt exponent))).Derives u := by
  constructor
  · rintro ⟨sign,u,rfl,hsign,hu⟩
    rcases derives_opt.mp hsign with rfl | hsign
    · exact ⟨u,.inl rfl,hu⟩
    · obtain rfl : sign = ['-'] := hsign
      exact ⟨u,.inr rfl,hu⟩
  · rintro ⟨u,rfl | rfl,hu⟩
    · exact ⟨[],w,rfl,derives_opt.mpr (.inl rfl),hu⟩
    · exact ⟨['-'],u,rfl,derives_opt.mpr (.inr rfl),hu⟩

theorem unsigned_head {u : List Char}
    (h : (Rule.cat integer (.cat (.opt fraction) (.opt exponent))).Derives u) :
    ∃ c t, u = c :: t ∧ isDigit c = true := by
  obtain ⟨int,tail,rfl,hint,-⟩ := h
  rcases integer_derives.mp hint with rfl | ⟨c,ds,rfl,hc,-⟩
  · exact ⟨'0',tail,rfl,by decide⟩
  · exact ⟨c,ds ++ tail,rfl,(lead_digit hc).1⟩

theorem takeNumber_complete (h : numberRule.Derives w) (hrest : Avoids isNumberChar rest) :
    takeNumber (w ++ rest) = some (w,rest) := by
  obtain ⟨u,hw,hu⟩ := number_cases.mp h
  have htake := takeUnsigned_complete hu hrest
  rcases hw with rfl | rfl
  · obtain ⟨c,t,rfl,hc⟩ := unsigned_head hu
    have hne : c ≠ '-' := by
      rintro rfl
      exact absurd hc (by decide)
    rw [List.cons_append,takeNumber_other hne]
    exact htake
  · change (takeUnsigned (u ++ rest)).map _ = _
    rw [htake]
    rfl

theorem takeInteger_sound {s : List Char} (h : takeInteger s = some (w,rest)) :
    s = w ++ rest ∧ integer.Derives w := by
  cases s with
  | nil => simp [takeInteger,takeDigits] at h
  | cons c s =>
    by_cases hzero : c = '0'
    · subst hzero
      obtain ⟨rfl,rfl⟩ : ['0'] = w ∧ s = rest := by simpa [takeInteger] using h
      exact ⟨rfl,integer_derives.mpr (.inl rfl)⟩
    · rw [takeInteger_other hzero] at h
      obtain ⟨heq,hw⟩ := takeDigits_sound h
      obtain ⟨hall,hlen⟩ := digits_derives.mp hw
      obtain ⟨d,ds,rfl⟩ := List.exists_cons_of_length_pos hlen
      obtain ⟨rfl,rfl⟩ := List.cons.inj heq
      obtain ⟨hd,hds⟩ := List.forall_mem_cons.mp hall
      refine ⟨rfl,integer_derives.mpr (.inr ⟨c,ds,rfl,?_,hds⟩)⟩
      simp only [isDigit,Bool.and_eq_true,decide_eq_true_eq] at hd ⊢
      have hlo : 48 ≤ c.toNat := UInt32.le_iff_toNat_le.mp hd.1
      have hne : c.toNat ≠ 48 := fun h48 => hzero (Char.toNat_inj.mp h48)
      refine ⟨UInt32.le_iff_toNat_le.mpr ?_,hd.2⟩
      change 49 ≤ c.toNat
      omega

theorem takeFraction_sound {s : List Char} (h : takeFraction s = some (w,rest)) :
    s = w ++ rest ∧ fraction.opt.Derives w := by
  by_cases hdot : ∃ t, s = '.' :: t
  · obtain ⟨t,rfl⟩ := hdot
    unfold takeFraction at h
    obtain ⟨⟨ds,r⟩,ht,heq⟩ := Option.map_eq_some_iff.mp h
    obtain ⟨rfl,rfl⟩ := Prod.mk.inj heq
    obtain ⟨rfl,hds⟩ := takeDigits_sound ht
    exact ⟨rfl,derives_opt.mpr (.inr ⟨['.'],ds,rfl,rfl,hds⟩)⟩
  · have hother : takeFraction s = some ([],s) := by
      apply takeFraction_other
      cases s with
      | nil => rintro c ⟨⟩
      | cons c t =>
        rintro d ⟨⟩
        simpa using fun hc => hdot ⟨t,by rw [hc]⟩
    rw [hother] at h
    obtain ⟨rfl,rfl⟩ := Prod.mk.inj (Option.some.inj h)
    exact ⟨rfl,derives_opt.mpr (.inl rfl)⟩

theorem takeExponent_sound {s : List Char} (h : takeExponent s = some (w,rest)) :
    s = w ++ rest ∧ exponent.opt.Derives w := by
  cases s with
  | nil =>
    obtain ⟨rfl,rfl⟩ : [] = w ∧ [] = rest := by simpa [takeExponent] using h
    exact ⟨rfl,derives_opt.mpr (.inl rfl)⟩
  | cons e t =>
    by_cases he : (e == 'e' || e == 'E') = true
    · cases t with
      | nil => simp [takeExponent,he] at h
      | cons d t =>
        by_cases hd : (d == '+' || d == '-') = true
        · simp only [takeExponent,he,hd,if_true,Option.map_eq_some_iff,Prod.mk.injEq,
            Prod.exists] at h
          obtain ⟨ds,r,ht,rfl,rfl⟩ := h
          obtain ⟨rfl,hds⟩ := takeDigits_sound ht
          exact ⟨rfl,derives_opt.mpr (.inr ⟨[e],d :: ds,rfl,⟨e,rfl,he⟩,[d],ds,rfl,
            derives_opt.mpr (.inr ⟨d,rfl,hd⟩),hds⟩)⟩
        · simp only [takeExponent,he,hd,if_true,Option.map_eq_some_iff,Prod.mk.injEq,
            Prod.exists,Bool.false_eq_true,if_false] at h
          obtain ⟨ds,r,ht,rfl,rfl⟩ := h
          obtain ⟨heq,hds⟩ := takeDigits_sound ht
          rw [heq]
          exact ⟨rfl,derives_opt.mpr (.inr ⟨[e],ds,rfl,⟨e,rfl,he⟩,[],ds,rfl,
            derives_opt.mpr (.inl rfl),hds⟩)⟩
    · obtain ⟨rfl,rfl⟩ : [] = w ∧ e :: t = rest := by simpa [takeExponent,he] using h
      exact ⟨rfl,derives_opt.mpr (.inl rfl)⟩

theorem takeUnsigned_sound {s : List Char} (h : takeUnsigned s = some (w,rest)) :
    s = w ++ rest ∧ (Rule.cat integer (.cat (.opt fraction) (.opt exponent))).Derives w := by
  simp only [takeUnsigned,Option.bind_eq_bind,Option.bind_eq_some_iff,Prod.exists,
    Option.pure_def,Option.some.injEq,Prod.mk.injEq] at h
  obtain ⟨int,s1,h1,frac,s2,h2,exp,s3,h3,rfl,rfl⟩ := h
  obtain ⟨rfl,hint⟩ := takeInteger_sound h1
  obtain ⟨rfl,hfrac⟩ := takeFraction_sound h2
  obtain ⟨rfl,hexp⟩ := takeExponent_sound h3
  exact ⟨by simp,int,_,rfl,hint,frac,exp,rfl,hfrac,hexp⟩

theorem takeNumber_sound {s : List Char} (h : takeNumber s = some (w,rest)) :
    s = w ++ rest ∧ numberRule.Derives w := by
  by_cases hminus : ∃ t, s = '-' :: t
  · obtain ⟨t,rfl⟩ := hminus
    unfold takeNumber at h
    obtain ⟨⟨u,r⟩,ht,heq⟩ := Option.map_eq_some_iff.mp h
    obtain ⟨rfl,rfl⟩ := Prod.mk.inj heq
    obtain ⟨rfl,hu⟩ := takeUnsigned_sound ht
    exact ⟨rfl,number_cases.mpr ⟨u,.inr rfl,hu⟩⟩
  · have hother : takeNumber s = takeUnsigned s := by
      cases s with
      | nil => rfl
      | cons c t => exact takeNumber_other fun hc => hminus ⟨t,by rw [hc]⟩
    rw [hother] at h
    obtain ⟨rfl,hu⟩ := takeUnsigned_sound h
    exact ⟨rfl,number_cases.mpr ⟨w,.inl rfl,hu⟩⟩

end Numbers

section Strings

variable {w rest : List Char} {us : List Nat}

theorem takeUnits_complete (h : Chars w us) : takeUnits (w ++ '"' :: rest) = some (us,rest) := by
  induction h with
  | nil => rfl
  | plain c w us visible quote back _ ih =>
    rw [List.cons_append,takeUnits.eq_5 _ _ quote (by simp [back]) (by simp [back]),ih]
    have hlow : ¬(c.toNat < 0x20 || c == '\\') = true := by
      simp [back]
      omega
    rw [if_neg hlow]
    rfl
  | short e u w us is _ ih =>
    have he : e ≠ 'u' := by
      rintro rfl
      have hnone : shortEscape 'u' = none := by decide
      rw [hnone] at is
      cases is
    rw [List.cons_append,List.cons_append,takeUnits.eq_4 _ _ (by simp [he]),ih,is]
    rfl
  | unicode a b c d u w us is _ ih =>
    simp only [List.cons_append]
    rw [takeUnits,ih,is]
    rfl

theorem takeUnits_sound {s : List Char} (h : takeUnits s = some (us,rest)) :
    ∃ w, s = w ++ '"' :: rest ∧ Chars w us := by
  induction s using takeUnits.induct generalizing us with
  | case1 => cases h
  | case2 r =>
    obtain ⟨rfl,rfl⟩ : [] = us ∧ r = rest := by simpa [takeUnits] using h
    exact ⟨[],rfl,.nil⟩
  | case3 a b c d r ih =>
    simp only [takeUnits,Option.bind_eq_bind,Option.bind_eq_some_iff,Prod.exists,Option.pure_def,
      Option.some.injEq,Prod.mk.injEq] at h
    obtain ⟨u,hu,vs,r',hr,rfl,rfl⟩ := h
    obtain ⟨w,rfl,hw⟩ := ih hr
    exact ⟨_,rfl,.unicode a b c d u w vs hu hw⟩
  | case4 e r hne ih =>
    simp only [takeUnits.eq_4 _ _ hne,Option.bind_eq_bind,Option.bind_eq_some_iff,Prod.exists,
      Option.pure_def,Option.some.injEq,Prod.mk.injEq] at h
    obtain ⟨u,hu,vs,r',hr,rfl,rfl⟩ := h
    obtain ⟨w,rfl,hw⟩ := ih hr
    exact ⟨_,rfl,.short e u w vs hu hw⟩
  | case5 c r hquote hesc hback hlow =>
    rw [takeUnits.eq_5 _ _ hquote hesc hback,if_pos hlow] at h
    cases h
  | case6 c r hquote hesc hback hlow ih =>
    rw [takeUnits.eq_5 _ _ hquote hesc hback,if_neg hlow] at h
    simp only [Option.bind_eq_bind,Option.bind_eq_some_iff,Prod.exists,Option.pure_def,
      Option.some.injEq,Prod.mk.injEq] at h
    obtain ⟨vs,r',hr,rfl,rfl⟩ := h
    obtain ⟨w,rfl,hw⟩ := ih hr
    simp only [Bool.or_eq_true,decide_eq_true_eq,beq_iff_eq,not_or,Nat.not_lt] at hlow
    exact ⟨_,rfl,.plain c w vs hlow.1 hquote hlow.2 hw⟩

theorem takeString_complete (h : Chars w us) (rest : List Char) :
    takeString (w ++ '"' :: rest) = some (combine us,rest) := by
  rw [takeString,takeUnits_complete h]
  rfl

theorem takeString_sound {s : List Char} {k : List Nat} (h : takeString s = some (k,rest)) :
    ∃ w us, s = w ++ '"' :: rest ∧ Chars w us ∧ k = combine us := by
  obtain ⟨⟨us,r⟩,ht,heq⟩ := Option.map_eq_some_iff.mp h
  obtain ⟨rfl,rfl⟩ := Prod.mk.inj heq
  obtain ⟨w,hw,hchars⟩ := takeUnits_sound ht
  exact ⟨w,us,hw,hchars,rfl⟩

end Strings

end Rfc8259

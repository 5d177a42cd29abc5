import MurlSystem.Foundation.Rfc8259Lexemes

namespace Rfc8259

open Abnf

section Blanks

variable {a s rest w : List Char} {c : Char}

theorem skip_spec (s : List Char) : ∃ a, s = a ++ skip s ∧ Blank a :=
  ⟨s.takeWhile isBlank,List.takeWhile_append_dropWhile.symm,List.all_eq_true.mp List.all_takeWhile⟩

theorem skip_blank (h : Blank a) (hs : Avoids isBlank s) : skip (a ++ s) = s := by
  rw [skip,List.dropWhile_append_of_pos h]
  cases s with
  | nil => rfl
  | cons c s =>
    have hc : isBlank c = false := hs c rfl
    simp [hc]

theorem skip_cons (h : Blank a) (hc : isBlank c = false) : skip (a ++ c :: s) = c :: s :=
  skip_blank h (by rintro d ⟨⟩; exact hc)

theorem skip_nil (h : Blank a) : skip a = [] := by
  have hs := skip_blank (s := []) h (by rintro d ⟨⟩)
  rwa [List.append_nil] at hs

theorem blank_of_skip (h : skip s = []) : Blank s := by
  obtain ⟨a,hs,ha⟩ := skip_spec s
  rw [h,List.append_nil] at hs
  rwa [hs]

theorem blank_not_number (h : isBlank c = true) : isNumberChar c = false := by
  simp only [isBlank,Bool.or_eq_true,beq_iff_eq] at h
  rcases h with ((rfl | rfl) | rfl) | rfl <;> decide

theorem avoids_after (h : Blank a) (hc : isNumberChar c = false) :
    Avoids isNumberChar (a ++ c :: s) := by
  cases a with
  | nil =>
    rintro d ⟨⟩
    exact hc
  | cons b a =>
    rintro d ⟨⟩
    exact blank_not_number (h b (by simp))

theorem avoids_blank (h : Blank a) : Avoids isNumberChar a := by
  cases a with
  | nil => rintro d ⟨⟩
  | cons b a =>
    rintro d ⟨⟩
    exact blank_not_number (h b (by simp))

end Blanks

section Heads

theorem writes_head {v : Raw} {w : List Char} (h : Writes v w) :
    ∃ c t, w = c :: t ∧ isBlank c = false ∧ c ≠ ']' ∧ c ≠ '}' := by
  cases h with
  | null => exact ⟨'n',_,rfl,by decide,by decide,by decide⟩
  | true => exact ⟨'t',_,rfl,by decide,by decide,by decide⟩
  | false => exact ⟨'f',_,rfl,by decide,by decide,by decide⟩
  | number _ rule =>
    obtain ⟨u,rfl | rfl,hu⟩ := number_cases.mp rule
    · obtain ⟨c,t,rfl,hc⟩ := unsigned_head hu
      have hne : ∀ d, isDigit d = false → c ≠ d := by
        rintro d hd rfl
        rw [hc] at hd
        cases hd
      refine ⟨c,t,rfl,?_,hne ']' (by decide),hne '}' (by decide)⟩
      simp [isBlank,hne ' ' (by decide),hne '\t' (by decide),hne '\n' (by decide),
        hne '\r' (by decide)]
    · exact ⟨'-',u,rfl,by decide,by decide,by decide⟩
  | string => exact ⟨'"',_,rfl,by decide,by decide,by decide⟩
  | emptyArray => exact ⟨'[',_,rfl,by decide,by decide,by decide⟩
  | array => exact ⟨'[',_,rfl,by decide,by decide,by decide⟩
  | emptyObject => exact ⟨'{',_,rfl,by decide,by decide,by decide⟩
  | object => exact ⟨'{',_,rfl,by decide,by decide,by decide⟩

theorem writes_avoids {v : Raw} {w rest : List Char} (h : Writes v w) :
    Avoids isBlank (w ++ rest) := by
  obtain ⟨c,t,rfl,hc,-⟩ := writes_head h
  rintro d ⟨⟩
  exact hc

theorem value_number (n : Nat) {w rest : List Char} (h : numberRule.Derives w) :
    value (n + 1) (w ++ rest) = (takeNumber (w ++ rest)).map fun (w,rest) => (.number w,rest) := by
  have hhead : ∃ c t, w = c :: t ∧ (isDigit c = true ∨ c = '-') := by
    obtain ⟨u,rfl | rfl,hu⟩ := number_cases.mp h
    · obtain ⟨c,t,rfl,hc⟩ := unsigned_head hu
      exact ⟨c,t,rfl,.inl hc⟩
    · exact ⟨'-',u,rfl,.inr rfl⟩
  obtain ⟨c,t,rfl,hc⟩ := hhead
  have hne : ∀ d, isDigit d = false → d ≠ '-' → c ≠ d := by
    rintro d hd hminus rfl
    rcases hc with hc | hc
    · rw [hc] at hd
      cases hd
    · exact hminus hc
  rw [List.cons_append,value.eq_8]
  · simp [hne 'n' (by decide) (by decide)]
  · simp [hne 't' (by decide) (by decide)]
  · simp [hne 'f' (by decide) (by decide)]
  · simp [hne '"' (by decide) (by decide)]
  · simp [hne '[' (by decide) (by decide)]
  · simp [hne '{' (by decide) (by decide)]

theorem value_array (n : Nat) (s : List Char) {c : Char} {t : List Char} (hs : skip s = c :: t)
    (hc : c ≠ ']') :
    value (n + 1) ('[' :: s) = (items n (c :: t)).map fun (vs,rest) => (.array vs,rest) := by
  rw [value.eq_6,hs]
  split
  · rename_i heq
    exact absurd (List.cons.inj heq).1 hc
  · rfl

theorem value_object (n : Nat) (s : List Char) {c : Char} {t : List Char} (hs : skip s = c :: t)
    (hc : c ≠ '}') :
    value (n + 1) ('{' :: s) = (members n (c :: t)).map fun (ms,rest) => (.object ms,rest) := by
  rw [value.eq_7,hs]
  split
  · rename_i heq
    exact absurd (List.cons.inj heq).1 hc
  · rfl

end Heads

section Complete

theorem items_head {vs : List Raw} {w : List Char} (h : Items vs w) (rest : List Char) :
    ∃ c t, skip (w ++ rest) = c :: t ∧ c ≠ ']' := by
  cases h with
  | one v a w b before value after =>
    obtain ⟨c,t,rfl,hc,hne,-⟩ := writes_head value
    refine ⟨c,t ++ (b ++ rest),?_,hne⟩
    rw [List.append_assoc]
    simp only [List.cons_append,List.append_assoc]
    exact skip_cons before hc
  | more v vs a w b r before value after next =>
    obtain ⟨c,t,rfl,hc,hne,-⟩ := writes_head value
    refine ⟨c,t ++ (b ++ ',' :: (r ++ rest)),?_,hne⟩
    simp only [List.cons_append,List.append_assoc]
    exact skip_cons before hc

theorem members_head {ms : List (List Nat × Raw)} {w : List Char} (h : Members ms w)
    (rest : List Char) : ∃ t, skip (w ++ rest) = '"' :: t := by
  cases h with
  | one us v a k b c w d lead =>
    simp only [List.cons_append,List.append_assoc]
    exact ⟨_,skip_cons lead (by decide)⟩
  | more us v ms a k b c w d r lead =>
    simp only [List.cons_append,List.append_assoc]
    exact ⟨_,skip_cons lead (by decide)⟩

structure Complete (n : Nat) : Prop where
  value : ∀ {v w}, Writes v w → ∀ rest, Avoids isNumberChar rest → 2 * w.length ≤ n →
    value n (w ++ rest) = some (v,rest)
  items : ∀ {vs w}, Items vs w → ∀ rest, 2 * w.length + 1 ≤ n →
    items n (skip (w ++ ']' :: rest)) = some (vs,rest)
  members : ∀ {ms w}, Members ms w → ∀ rest, 2 * w.length + 1 ≤ n →
    members n (skip (w ++ '}' :: rest)) = some (ms,rest)

theorem value_complete_step {n : Nat} (ih : Complete n) {v : Raw} {w : List Char} (h : Writes v w)
    (rest : List Char) (hrest : Avoids isNumberChar rest) (hn : 2 * w.length ≤ n + 1) :
    value (n + 1) (w ++ rest) = some (v,rest) := by
  cases h with
  | null => rfl
  | true => rfl
  | false => rfl
  | number _ rule => rw [value_number n rule,takeNumber_complete rule hrest]; rfl
  | string w us chars =>
    simp only [List.cons_append,List.append_assoc,List.nil_append]
    rw [value.eq_5,takeString_complete chars rest]
    rfl
  | emptyArray blank ok =>
    simp only [List.cons_append,List.append_assoc,List.nil_append]
    rw [value.eq_6,skip_cons ok (by decide)]
    rfl
  | array vs w each =>
    simp only [List.cons_append,List.append_assoc,List.nil_append]
    obtain ⟨c,t,hs,hc⟩ := items_head each (']' :: rest)
    simp only [List.length_cons,List.length_append,List.length_nil] at hn
    have hitems := ih.items each rest (by omega)
    rw [value_array n _ hs hc,← hs,hitems]
    rfl
  | emptyObject blank ok =>
    simp only [List.cons_append,List.append_assoc,List.nil_append]
    rw [value.eq_7,skip_cons ok (by decide)]
    rfl
  | object ms w each =>
    simp only [List.cons_append,List.append_assoc,List.nil_append]
    obtain ⟨t,hs⟩ := members_head each ('}' :: rest)
    simp only [List.length_cons,List.length_append,List.length_nil] at hn
    have hmembers := ih.members each rest (by omega)
    rw [value_object n _ hs (by decide),← hs,hmembers]
    rfl

theorem items_complete_step {n : Nat} (ih : Complete n) {vs : List Raw} {w : List Char}
    (h : Items vs w) (rest : List Char) (hn : 2 * w.length + 1 ≤ n + 1) :
    items (n + 1) (skip (w ++ ']' :: rest)) = some (vs,rest) := by
  cases h with
  | one v a w b before value after =>
    simp only [List.length_append] at hn
    have hskip : skip (a ++ (w ++ b) ++ ']' :: rest) = w ++ (b ++ ']' :: rest) := by
      simp only [List.append_assoc]
      exact skip_blank before (writes_avoids value)
    have hvalue := ih.value value (b ++ ']' :: rest) (avoids_after after (by decide)) (by omega)
    have hclose : skip (b ++ ']' :: rest) = ']' :: rest := skip_cons after (by decide)
    rw [hskip,Rfc8259.items,hvalue]
    simp [hclose]
  | more v vs a w b r before value after next =>
    simp only [List.length_append,List.length_cons] at hn
    have hskip : skip (a ++ (w ++ (b ++ ',' :: r)) ++ ']' :: rest) =
        w ++ (b ++ ',' :: (r ++ ']' :: rest)) := by
      simp only [List.append_assoc,List.cons_append]
      exact skip_blank before (writes_avoids value)
    have hvalue := ih.value value (b ++ ',' :: (r ++ ']' :: rest)) (avoids_after after (by decide))
      (by omega)
    have hcomma : skip (b ++ ',' :: (r ++ ']' :: rest)) = ',' :: (r ++ ']' :: rest) :=
      skip_cons after (by decide)
    have hitems := ih.items next rest (by omega)
    rw [hskip,Rfc8259.items,hvalue]
    simp [hcomma,hitems]

theorem members_complete_step {n : Nat} (ih : Complete n) {ms : List (List Nat × Raw)}
    {w : List Char} (h : Members ms w) (rest : List Char) (hn : 2 * w.length + 1 ≤ n + 1) :
    members (n + 1) (skip (w ++ '}' :: rest)) = some (ms,rest) := by
  cases h with
  | one us v a k b c w d lead key colon before value after =>
    simp only [List.length_append,List.length_cons] at hn
    have hskip : skip (a ++ '"' :: (k ++ '"' :: (b ++ ':' :: (c ++ (w ++ d)))) ++ '}' :: rest) =
        '"' :: (k ++ '"' :: (b ++ ':' :: (c ++ (w ++ (d ++ '}' :: rest))))) := by
      simp only [List.append_assoc,List.cons_append]
      exact skip_cons lead (by decide)
    have hkey := takeString_complete key (b ++ ':' :: (c ++ (w ++ (d ++ '}' :: rest))))
    have hcolon : skip (b ++ ':' :: (c ++ (w ++ (d ++ '}' :: rest)))) =
        ':' :: (c ++ (w ++ (d ++ '}' :: rest))) := skip_cons colon (by decide)
    have hbefore : skip (c ++ (w ++ (d ++ '}' :: rest))) = w ++ (d ++ '}' :: rest) :=
      skip_blank before (writes_avoids value)
    have hvalue := ih.value value (d ++ '}' :: rest) (avoids_after after (by decide)) (by omega)
    have hclose : skip (d ++ '}' :: rest) = '}' :: rest := skip_cons after (by decide)
    rw [hskip,Rfc8259.members]
    simp [hkey,hcolon,hbefore,hvalue,hclose]
  | more us v ms a k b c w d r lead key colon before value after next =>
    simp only [List.length_append,List.length_cons] at hn
    have hskip : skip (a ++ '"' :: (k ++ '"' :: (b ++ ':' :: (c ++ (w ++ (d ++ ',' :: r))))) ++
        '}' :: rest) =
        '"' :: (k ++ '"' :: (b ++ ':' :: (c ++ (w ++ (d ++ ',' :: (r ++ '}' :: rest)))))) := by
      simp only [List.append_assoc,List.cons_append]
      exact skip_cons lead (by decide)
    have hkey := takeString_complete key
      (b ++ ':' :: (c ++ (w ++ (d ++ ',' :: (r ++ '}' :: rest)))))
    have hcolon : skip (b ++ ':' :: (c ++ (w ++ (d ++ ',' :: (r ++ '}' :: rest))))) =
        ':' :: (c ++ (w ++ (d ++ ',' :: (r ++ '}' :: rest)))) := skip_cons colon (by decide)
    have hbefore : skip (c ++ (w ++ (d ++ ',' :: (r ++ '}' :: rest)))) =
        w ++ (d ++ ',' :: (r ++ '}' :: rest)) := skip_blank before (writes_avoids value)
    have hvalue := ih.value value (d ++ ',' :: (r ++ '}' :: rest)) (avoids_after after (by decide))
      (by omega)
    have hcomma : skip (d ++ ',' :: (r ++ '}' :: rest)) = ',' :: (r ++ '}' :: rest) :=
      skip_cons after (by decide)
    have hmembers := ih.members next rest (by omega)
    rw [hskip,Rfc8259.members]
    simp [hkey,hcolon,hbefore,hvalue,hcomma,hmembers]

theorem complete (n : Nat) : Complete n := by
  induction n with
  | zero =>
    refine ⟨fun h rest _ hn => ?_,fun _ _ hn => absurd hn (by omega),fun _ _ hn =>
      absurd hn (by omega)⟩
    obtain ⟨c,t,rfl,-⟩ := writes_head h
    simp at hn
  | succ n ih =>
    exact ⟨fun h rest hrest hn => value_complete_step ih h rest hrest hn,
      fun h rest hn => items_complete_step ih h rest hn,
      fun h rest hn => members_complete_step ih h rest hn⟩

theorem read_complete {s : List Char} {v : Raw} (h : Text s v) : read s = some v := by
  obtain ⟨a,w,b,rfl,ha,hw,hb⟩ := h
  have hskip : skip (a ++ (w ++ b)) = w ++ b := skip_blank ha (writes_avoids hw)
  have hvalue := (complete (2 * (a ++ (w ++ b)).length + 2)).value hw b (avoids_blank hb) (by
    simp only [List.length_append]
    omega)
  rw [read,hskip,hvalue]
  simp [skip_nil hb]

end Complete

section Sound

structure Sound (n : Nat) : Prop where
  value : ∀ {s v rest}, value n s = some (v,rest) → ∃ w, s = w ++ rest ∧ Writes v w
  items : ∀ {s vs rest}, items n s = some (vs,rest) → ∃ w, s = w ++ ']' :: rest ∧ Items vs w
  members : ∀ {s ms rest}, members n s = some (ms,rest) → ∃ w, s = w ++ '}' :: rest ∧ Members ms w

theorem items_lead {vs : List Raw} {w a : List Char} (ha : Blank a) (h : Items vs w) :
    Items vs (a ++ w) := by
  have happ : ∀ x, Blank x → Blank (a ++ x) := fun x hx =>
    List.forall_mem_append.mpr ⟨ha,hx⟩
  cases h with
  | one v x w b before value after =>
    rw [← List.append_assoc]
    exact .one v (a ++ x) w b (happ x before) value after
  | more v vs x w b r before value after next =>
    rw [← List.append_assoc]
    exact .more v vs (a ++ x) w b r (happ x before) value after next

theorem members_lead {ms : List (List Nat × Raw)} {w a : List Char} (ha : Blank a)
    (h : Members ms w) : Members ms (a ++ w) := by
  have happ : ∀ x, Blank x → Blank (a ++ x) := fun x hx =>
    List.forall_mem_append.mpr ⟨ha,hx⟩
  cases h with
  | one us v x k b c w d lead key colon before value after =>
    rw [← List.append_assoc]
    exact .one us v (a ++ x) k b c w d (happ x lead) key colon before value after
  | more us v ms x k b c w d r lead key colon before value after next =>
    rw [← List.append_assoc]
    exact .more us v ms (a ++ x) k b c w d r (happ x lead) key colon before value after next

theorem value_sound_step {n : Nat} (ih : Sound n) {s rest : List Char} {v : Raw}
    (h : value (n + 1) s = some (v,rest)) : ∃ w, s = w ++ rest ∧ Writes v w := by
  unfold value at h
  split at h
  · obtain ⟨rfl,rfl⟩ := Prod.mk.inj (Option.some.inj h)
    exact ⟨_,rfl,.null⟩
  · obtain ⟨rfl,rfl⟩ := Prod.mk.inj (Option.some.inj h)
    exact ⟨_,rfl,.true⟩
  · obtain ⟨rfl,rfl⟩ := Prod.mk.inj (Option.some.inj h)
    exact ⟨_,rfl,.false⟩
  · obtain ⟨⟨k,r⟩,hk,heq⟩ := Option.map_eq_some_iff.mp h
    obtain ⟨rfl,rfl⟩ := Prod.mk.inj heq
    obtain ⟨w,us,rfl,hchars,rfl⟩ := takeString_sound hk
    exact ⟨'"' :: (w ++ ['"']),by simp,.string w us hchars⟩
  · rename_i t
    obtain ⟨a,ht,ha⟩ := skip_spec t
    split at h
    · rename_i heq
      obtain ⟨rfl,rfl⟩ := Prod.mk.inj (Option.some.inj h)
      rw [heq] at ht
      exact ⟨'[' :: (a ++ [']']),by simp [ht],.emptyArray a ha⟩
    · obtain ⟨⟨vs,r⟩,hvs,heq⟩ := Option.map_eq_some_iff.mp h
      obtain ⟨rfl,rfl⟩ := Prod.mk.inj heq
      obtain ⟨w,hw,hitems⟩ := ih.items hvs
      rw [hw] at ht
      exact ⟨'[' :: (a ++ w ++ [']']),by simp [ht],.array vs (a ++ w) (items_lead ha hitems)⟩
  · rename_i t
    obtain ⟨a,ht,ha⟩ := skip_spec t
    split at h
    · rename_i heq
      obtain ⟨rfl,rfl⟩ := Prod.mk.inj (Option.some.inj h)
      rw [heq] at ht
      exact ⟨'{' :: (a ++ ['}']),by simp [ht],.emptyObject a ha⟩
    · obtain ⟨⟨ms,r⟩,hms,heq⟩ := Option.map_eq_some_iff.mp h
      obtain ⟨rfl,rfl⟩ := Prod.mk.inj heq
      obtain ⟨w,hw,hmembers⟩ := ih.members hms
      rw [hw] at ht
      exact ⟨'{' :: (a ++ w ++ ['}']),by simp [ht],.object ms (a ++ w) (members_lead ha hmembers)⟩
  · obtain ⟨⟨w,r⟩,hw,heq⟩ := Option.map_eq_some_iff.mp h
    obtain ⟨rfl,rfl⟩ := Prod.mk.inj heq
    obtain ⟨rfl,hrule⟩ := takeNumber_sound hw
    exact ⟨w,rfl,.number w hrule⟩

theorem items_sound_step {n : Nat} (ih : Sound n) {s rest : List Char} {vs : List Raw}
    (h : items (n + 1) s = some (vs,rest)) : ∃ w, s = w ++ ']' :: rest ∧ Items vs w := by
  rw [Rfc8259.items] at h
  simp only [Option.bind_eq_bind,Option.bind_eq_some_iff,Prod.exists] at h
  obtain ⟨v,r,hv,h⟩ := h
  obtain ⟨w,rfl,hw⟩ := ih.value hv
  obtain ⟨b,hr,hb⟩ := skip_spec r
  split at h
  · rename_i heq
    obtain ⟨rfl,rfl⟩ := Prod.mk.inj (Option.some.inj h)
    rw [heq] at hr
    exact ⟨[] ++ (w ++ b),by simp [hr],.one v [] w b (by simp [Blank]) hw hb⟩
  · rename_i t heq
    simp only [Option.bind_eq_some_iff,Prod.exists,Option.pure_def,Option.some.injEq,
      Prod.mk.injEq] at h
    obtain ⟨vs,r',hvs,rfl,rfl⟩ := h
    obtain ⟨w',hw',hitems⟩ := ih.items hvs
    obtain ⟨c,ht,hc⟩ := skip_spec t
    rw [heq,ht,hw'] at hr
    exact ⟨[] ++ (w ++ (b ++ ',' :: (c ++ w'))),by simp [hr],
      .more v vs [] w b (c ++ w') (by simp [Blank]) hw hb (items_lead hc hitems)⟩
  · cases h

theorem members_sound_step {n : Nat} (ih : Sound n) {s rest : List Char}
    {ms : List (List Nat × Raw)} (h : members (n + 1) s = some (ms,rest)) :
    ∃ w, s = w ++ '}' :: rest ∧ Members ms w := by
  unfold Rfc8259.members at h
  split at h
  · rename_i t
    simp only [Option.bind_eq_bind,Option.bind_eq_some_iff,Prod.exists] at h
    obtain ⟨k,r,hk,h⟩ := h
    obtain ⟨kw,us,rfl,hchars,rfl⟩ := takeString_sound hk
    obtain ⟨b,hr,hb⟩ := skip_spec r
    split at h
    · rename_i t heq
      simp only [Option.bind_eq_some_iff,Prod.exists] at h
      obtain ⟨v,r2,hv,h⟩ := h
      obtain ⟨w,hw,hwrites⟩ := ih.value hv
      obtain ⟨c,ht,hc⟩ := skip_spec t
      obtain ⟨d,hr2,hd⟩ := skip_spec r2
      rw [heq,ht,hw] at hr
      split at h
      · rename_i heq2
        obtain ⟨rfl,rfl⟩ := Prod.mk.inj (Option.some.inj h)
        rw [hr2,heq2] at hr
        exact ⟨[] ++ '"' :: (kw ++ '"' :: (b ++ ':' :: (c ++ (w ++ d)))),by simp [hr],
          .one us v [] kw b c w d (by simp [Blank]) hchars hb hc hwrites hd⟩
      · rename_i t2 heq2
        simp only [Option.bind_eq_some_iff,Prod.exists,Option.pure_def,Option.some.injEq,
          Prod.mk.injEq] at h
        obtain ⟨ms,r',hms,rfl,rfl⟩ := h
        obtain ⟨w',hw',hmembers⟩ := ih.members hms
        obtain ⟨e,ht2,he⟩ := skip_spec t2
        rw [hr2,heq2,ht2,hw'] at hr
        exact ⟨[] ++ '"' :: (kw ++ '"' :: (b ++ ':' :: (c ++ (w ++ (d ++ ',' :: (e ++ w')))))),
          by simp [hr],.more us v ms [] kw b c w d (e ++ w') (by simp [Blank]) hchars hb hc hwrites
            hd (members_lead he hmembers)⟩
      · cases h
    · cases h
  · cases h

theorem sound (n : Nat) : Sound n := by
  induction n with
  | zero =>
    exact ⟨fun h => by simp [value] at h,fun h => by simp [items] at h,
      fun h => by simp [members] at h⟩
  | succ n ih =>
    exact ⟨value_sound_step ih,items_sound_step ih,members_sound_step ih⟩

theorem read_sound {s : List Char} {v : Raw} (h : read s = some v) : Text s v := by
  simp only [read,Option.bind_eq_bind,Option.bind_eq_some_iff,Prod.exists] at h
  obtain ⟨v',rest,hv,h⟩ := h
  split at h
  · rename_i hrest
    obtain rfl := Option.some.inj h
    obtain ⟨a,hs,ha⟩ := skip_spec s
    obtain ⟨w,hw,hwrites⟩ := (sound _).value hv
    rw [hw] at hs
    exact ⟨a,w,rest,hs,ha,hwrites,blank_of_skip hrest⟩
  · cases h

end Sound

end Rfc8259

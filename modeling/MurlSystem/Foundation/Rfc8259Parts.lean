import MurlSystem.Foundation.Rfc8259

namespace Rfc8259

section Parts

mutual

def strings : Raw → List (List Nat)
  | .string points => [points]
  | .array items => itemStrings items
  | .object members => memberStrings members
  | _ => []

def itemStrings : List Raw → List (List Nat)
  | [] => []
  | v :: rest => strings v ++ itemStrings rest

def memberStrings : List (List Nat × Raw) → List (List Nat)
  | [] => []
  | (k,v) :: rest => k :: (strings v ++ memberStrings rest)

end

mutual

def texts : Raw → List (List Char)
  | .number w => [w]
  | .array items => itemTexts items
  | .object members => memberTexts members
  | _ => []

def itemTexts : List Raw → List (List Char)
  | [] => []
  | v :: rest => texts v ++ itemTexts rest

def memberTexts : List (List Nat × Raw) → List (List Char)
  | [] => []
  | (_,v) :: rest => texts v ++ memberTexts rest

end

mutual

def names : Raw → List (List (List Nat))
  | .array items => itemNames items
  | .object members => members.map Prod.fst :: memberNames members
  | _ => []

def itemNames : List Raw → List (List (List Nat))
  | [] => []
  | v :: rest => names v ++ itemNames rest

def memberNames : List (List Nat × Raw) → List (List (List Nat))
  | [] => []
  | (_,v) :: rest => names v ++ memberNames rest

end

end Parts

section Filter

variable {ms : List (List Nat × Raw)} {p : List Nat × Raw → Bool}

theorem memberStrings_eq (ms : List (List Nat × Raw)) :
    memberStrings ms = ms.flatMap fun m => m.1 :: strings m.2 := by
  induction ms with
  | nil => rfl
  | cons m rest ih => rw [List.flatMap_cons,← ih]; rfl

theorem memberStrings_filter {s : List Nat} (h : s ∈ memberStrings (ms.filter p)) :
    s ∈ memberStrings ms := by
  rw [memberStrings_eq,List.mem_flatMap] at h ⊢
  obtain ⟨m,hm,hs⟩ := h
  exact ⟨m,List.mem_of_mem_filter hm,hs⟩

end Filter

section Bounds

theorem hexValue_lt {c : Char} {u : Nat} (h : hexValue c = some u) : u < 16 := by
  rw [hexValue] at h
  split at h
  · rename_i hc
    simp only [Bool.and_eq_true,decide_eq_true_eq] at hc
    have hhi : c.toNat ≤ 57 := UInt32.le_iff_toNat_le.mp hc.2
    obtain rfl := Option.some.inj h
    omega
  split at h
  · rename_i hc
    simp only [Bool.and_eq_true,decide_eq_true_eq] at hc
    have hhi : c.toNat ≤ 102 := UInt32.le_iff_toNat_le.mp hc.2
    obtain rfl := Option.some.inj h
    omega
  split at h
  · rename_i hc
    simp only [Bool.and_eq_true,decide_eq_true_eq] at hc
    have hhi : c.toNat ≤ 70 := UInt32.le_iff_toNat_le.mp hc.2
    obtain rfl := Option.some.inj h
    omega
  · cases h

theorem hex4_lt {a b c d : Char} {u : Nat} (h : hex4 a b c d = some u) : u < 0x10000 := by
  simp only [hex4,Option.bind_eq_bind,Option.bind_eq_some_iff,Option.pure_def,
    Option.some.injEq] at h
  obtain ⟨x,hx,y,hy,z,hz,t,ht,rfl⟩ := h
  have hx := hexValue_lt hx
  have hy := hexValue_lt hy
  have hz := hexValue_lt hz
  have ht := hexValue_lt ht
  omega

theorem shortEscape_lt {c : Char} {u : Nat} (h : shortEscape c = some u) : u < 0x80 := by
  rw [shortEscape] at h
  split at h
  · rename_i hc
    simp only [Bool.or_eq_true,beq_iff_eq] at hc
    obtain rfl := Option.some.inj h
    rcases hc with (rfl | rfl) | rfl <;> decide
  · grind

theorem char_lt (c : Char) : c.toNat < 0x110000 := by
  rcases c.valid with h | ⟨-,h⟩
  · exact Nat.lt_trans h (by decide)
  · exact h

theorem chars_lt {w : List Char} {us : List Nat} (h : Chars w us) : ∀ u ∈ us, u < 0x110000 := by
  induction h with
  | nil => simp
  | plain c w us _ _ _ _ ih => exact List.forall_mem_cons.mpr ⟨char_lt c,ih⟩
  | short e u w us is _ ih =>
    exact List.forall_mem_cons.mpr ⟨Nat.lt_trans (shortEscape_lt is) (by decide),ih⟩
  | unicode a b c d u w us is _ ih =>
    exact List.forall_mem_cons.mpr ⟨Nat.lt_trans (hex4_lt is) (by decide),ih⟩

theorem combine_lt : ∀ {us : List Nat}, (∀ u ∈ us, u < 0x110000) →
    ∀ u ∈ combine us, u < 0x110000
  | [],_ => by simp [combine]
  | [u],h => by simpa [combine] using h
  | u :: v :: rest,h => by
    obtain ⟨hu,hv⟩ := List.forall_mem_cons.mp h
    obtain ⟨-,hrest⟩ := List.forall_mem_cons.mp hv
    rw [combine]
    split
    · rename_i hpair
      simp only [isHigh,isLow,Bool.and_eq_true,decide_eq_true_eq] at hpair
      exact List.forall_mem_cons.mpr ⟨by omega,combine_lt hrest⟩
    · exact List.forall_mem_cons.mpr ⟨hu,combine_lt hv⟩

mutual

theorem writes_lt : ∀ {v : Raw} {w : List Char}, Writes v w → ∀ s ∈ strings v, ∀ u ∈ s,
    u < 0x110000
  | _,_,.null => by simp [strings]
  | _,_,.true => by simp [strings]
  | _,_,.false => by simp [strings]
  | _,_,.number w _ => by simp [strings]
  | _,_,.string w us chars => by
    simpa [strings] using combine_lt (chars_lt chars)
  | _,_,.emptyArray _ _ => by simp [strings,itemStrings]
  | _,_,.array vs w each => items_lt each
  | _,_,.emptyObject _ _ => by simp [strings,memberStrings]
  | _,_,.object ms w each => members_lt each

theorem items_lt : ∀ {vs : List Raw} {w : List Char}, Items vs w → ∀ s ∈ itemStrings vs,
    ∀ u ∈ s, u < 0x110000
  | _,_,.one v a w b _ value _ => by
    simpa [itemStrings] using writes_lt value
  | _,_,.more v vs a w b rest _ value _ next => by
    rw [itemStrings,List.forall_mem_append]
    exact ⟨writes_lt value,items_lt next⟩

theorem members_lt : ∀ {ms : List (List Nat × Raw)} {w : List Char}, Members ms w →
    ∀ s ∈ memberStrings ms, ∀ u ∈ s, u < 0x110000
  | _,_,.one us v a k b c w d _ key _ _ value _ => by
    rw [memberStrings,memberStrings,List.append_nil,List.forall_mem_cons]
    exact ⟨combine_lt (chars_lt key),writes_lt value⟩
  | _,_,.more us v ms a k b c w d rest _ key _ _ value _ next => by
    rw [memberStrings,List.forall_mem_cons,List.forall_mem_append]
    exact ⟨combine_lt (chars_lt key),writes_lt value,members_lt next⟩

end

mutual

theorem writes_texts : ∀ {v : Raw} {w : List Char}, Writes v w →
    ∀ t ∈ texts v, numberRule.Derives t
  | _,_,.null => by simp [texts]
  | _,_,.true => by simp [texts]
  | _,_,.false => by simp [texts]
  | _,_,.number w rule => by simpa [texts] using rule
  | _,_,.string w us _ => by simp [texts]
  | _,_,.emptyArray _ _ => by simp [texts,itemTexts]
  | _,_,.array vs w each => items_texts each
  | _,_,.emptyObject _ _ => by simp [texts,memberTexts]
  | _,_,.object ms w each => members_texts each

theorem items_texts : ∀ {vs : List Raw} {w : List Char}, Items vs w →
    ∀ t ∈ itemTexts vs, numberRule.Derives t
  | _,_,.one v a w b _ value _ => by
    simpa [itemTexts] using writes_texts value
  | _,_,.more v vs a w b rest _ value _ next => by
    rw [itemTexts,List.forall_mem_append]
    exact ⟨writes_texts value,items_texts next⟩

theorem members_texts : ∀ {ms : List (List Nat × Raw)} {w : List Char}, Members ms w →
    ∀ t ∈ memberTexts ms, numberRule.Derives t
  | _,_,.one us v a k b c w d _ _ _ _ value _ => by
    simpa [memberTexts] using writes_texts value
  | _,_,.more us v ms a k b c w d rest _ _ _ _ value _ next => by
    rw [memberTexts,List.forall_mem_append]
    exact ⟨writes_texts value,members_texts next⟩

end

end Bounds

end Rfc8259

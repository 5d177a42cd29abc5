import MurlSystem.Foundation.Text

namespace Text

section Join

variable {α : Type} {c d : α} {p : List α} {ps : List (List α)}

theorem mem_intercalate (h : d ∈ [c].intercalate ps) : d = c ∨ ∃ p ∈ ps, d ∈ p := by
  induction ps with
  | nil => simp at h
  | cons p ps ih =>
    cases ps with
    | nil => exact .inr ⟨p,by simp,by simpa using h⟩
    | cons q qs =>
      rw [List.intercalate_cons_cons] at h
      simp only [List.mem_append,List.mem_singleton] at h
      rcases h with (h | h) | h
      · exact .inr ⟨p,by simp,h⟩
      · exact .inl h
      · rcases ih h with h | ⟨r,hr,h⟩
        · exact .inl h
        · exact .inr ⟨r,by simp [hr],h⟩

theorem mem_intercalate_of_mem (hp : p ∈ ps) (h : d ∈ p) : d ∈ [c].intercalate ps := by
  induction ps with
  | nil => cases hp
  | cons q qs ih =>
    cases qs with
    | nil =>
      obtain rfl := List.mem_singleton.mp hp
      simpa using h
    | cons r rs =>
      rw [List.intercalate_cons_cons]
      rcases List.mem_cons.mp hp with rfl | hp
      · simp [h]
      · simp [ih hp]

end Join

section Split

variable {c d : Char} {p s : List Char} {ps : List (List Char)}

theorem intercalate_ne_nil (hne : ps ≠ []) (h : ∀ p ∈ ps, p ≠ []) : [c].intercalate ps ≠ [] := by
  obtain ⟨p,rest,rfl⟩ := List.exists_cons_of_ne_nil hne
  obtain ⟨d,q,rfl⟩ := List.exists_cons_of_ne_nil (h p (by simp))
  have hd : d ∈ [c].intercalate ((d :: q) :: rest) :=
    mem_intercalate_of_mem (p := d :: q) (by simp) (by simp)
  exact List.ne_nil_of_mem hd

theorem sep_not_mem_splitOn (h : p ∈ s.splitOn c) : c ∉ p := by
  induction s generalizing p with
  | nil =>
    obtain rfl : p = [] := by simpa using h
    simp
  | cons x xs ih =>
    rw [List.splitOn_cons_eq_if_modifyHead] at h
    split at h
    · rcases List.mem_cons.mp h with rfl | h
      · simp
      · exact ih h
    · rename_i hx
      have hx : x ≠ c := by simpa using hx
      obtain ⟨q,qs,hq⟩ := List.exists_cons_of_ne_nil (List.splitOn_ne_nil c xs)
      rw [hq,List.modifyHead_cons] at h
      rcases List.mem_cons.mp h with rfl | h
      · simp [Ne.symm hx,ih (p := q) (by simp [hq])]
      · exact ih (by simp [hq,h])

theorem mem_of_mem_splitOn (hp : p ∈ s.splitOn c) (h : d ∈ p) : d ∈ s := by
  have hmem := mem_intercalate_of_mem (c := c) hp h
  rwa [List.intercalate_splitOn] at hmem

end Split

section Case

variable {c d : Char} {s t a b : List Char}

def isUpper (c : Char) : Bool := 'A' ≤ c && c ≤ 'Z'

theorem toLower_of_not_upper (h : isUpper c = false) : c.toLower = c := by
  delta Char.toLower
  split
  · rename_i hc
    have hup : isUpper c = true := by
      simp only [isUpper,Bool.and_eq_true,decide_eq_true_eq]
      exact hc
    rw [h] at hup
    cases hup
  · rfl

theorem toLower_upper (h : isUpper c = true) : c.toLower.toNat = c.toNat + 32 := by
  simp only [isUpper,Bool.and_eq_true,decide_eq_true_eq] at h
  have hc : c.val ≥ 'A'.val ∧ c.val ≤ 'Z'.val := h
  have hlo : 65 ≤ c.val.toNat := UInt32.le_iff_toNat_le.mp hc.1
  have hhi : c.val.toNat ≤ 90 := UInt32.le_iff_toNat_le.mp hc.2
  delta Char.toLower
  rw [dif_pos hc]
  change (c.val + 32).toNat = c.val.toNat + 32
  rw [UInt32.toNat_add]
  change (c.val.toNat + 32) % 2 ^ 32 = _
  omega

def isLetter (c : Char) : Bool := ('a' ≤ c && c ≤ 'z') || isUpper c

theorem not_upper_of_not_letter (h : isLetter c = false) : isUpper c = false := by
  simp only [isLetter,Bool.or_eq_false_iff] at h
  exact h.2

theorem toLower_letter (h : isUpper c = true) : isLetter c.toLower = true := by
  have hn := toLower_upper h
  simp only [isUpper,Bool.and_eq_true,decide_eq_true_eq] at h
  have hlo : 65 ≤ c.toNat := UInt32.le_iff_toNat_le.mp h.1
  have hhi : c.toNat ≤ 90 := UInt32.le_iff_toNat_le.mp h.2
  have ha : 'a' ≤ c.toLower := UInt32.le_iff_toNat_le.mpr (by
    change 97 ≤ c.toLower.toNat
    omega)
  have hz : c.toLower ≤ 'z' := UInt32.le_iff_toNat_le.mpr (by
    change c.toLower.toNat ≤ 122
    omega)
  simp [isLetter,ha,hz]

theorem toLower_not_upper (c : Char) : isUpper c.toLower = false := by
  by_cases h : isUpper c = true
  · have hn := toLower_upper h
    simp only [isUpper,Bool.and_eq_true,decide_eq_true_eq] at h
    have hlo : 65 ≤ c.toNat := UInt32.le_iff_toNat_le.mp h.1
    by_contra hup
    simp only [Bool.not_eq_false,isUpper,Bool.and_eq_true,decide_eq_true_eq] at hup
    have hhi : c.toLower.toNat ≤ 90 := UInt32.le_iff_toNat_le.mp hup.2
    omega
  · have hn : isUpper c = false := by simpa using h
    rw [toLower_of_not_upper hn,hn]

theorem toLower_eq_iff (h : isLetter d = false) : c.toLower = d ↔ c = d := by
  constructor
  · rintro rfl
    by_cases hc : isUpper c = true
    · rw [toLower_letter hc] at h
      cases h
    · rw [toLower_of_not_upper (by simpa using hc)]
  · rintro rfl
    exact toLower_of_not_upper (not_upper_of_not_letter h)

theorem length_lowercase : (lowercase s).length = s.length := List.length_map _

theorem mem_lowercase (h : isLetter d = false) : d ∈ lowercase s ↔ d ∈ s := by
  rw [lowercase,List.mem_map]
  constructor
  · rintro ⟨c,hc,hd⟩
    rwa [← (toLower_eq_iff h).mp hd]
  · intro hd
    exact ⟨d,hd,(toLower_eq_iff h).mpr rfl⟩

theorem lowercase_eq_self (h : ∀ c ∈ s, isUpper c = false) : lowercase s = s := by
  have hid : s.map Char.toLower = s.map id :=
    List.map_congr_left fun c hc => toLower_of_not_upper (h c hc)
  rw [lowercase,hid,List.map_id]

theorem lowercase_lowercase : lowercase (lowercase s) = lowercase s := by
  apply lowercase_eq_self
  intro c hc
  obtain ⟨d,-,rfl⟩ := List.mem_map.mp hc
  exact toLower_not_upper d

theorem lowercase_eq_plain (h : ∀ c ∈ t, isLetter c = false) : lowercase s = t ↔ s = t := by
  constructor
  · rintro rfl
    refine (lowercase_eq_self fun c hc => ?_).symm
    by_contra hup
    have hl := toLower_letter (by simpa using hup)
    rw [h _ (List.mem_map_of_mem hc)] at hl
    cases hl
  · rintro rfl
    exact lowercase_eq_self fun c hc => not_upper_of_not_letter (h c hc)

theorem lowercase_eq_append_cons (h : isLetter d = false) :
    lowercase s = a ++ d :: b ↔ ∃ a' b', s = a' ++ d :: b' ∧ lowercase a' = a ∧ lowercase b' = b := by
  constructor
  · intro hs
    obtain ⟨a',t,rfl,rfl,ht⟩ := List.map_eq_append_iff.mp hs
    obtain ⟨e,b',rfl,he,rfl⟩ := List.map_eq_cons_iff.mp ht
    obtain rfl := (toLower_eq_iff h).mp he
    exact ⟨a',b',rfl,rfl,rfl⟩
  · rintro ⟨a',b',rfl,rfl,rfl⟩
    rw [lowercase_append]
    congr 1
    exact congrArg (· :: lowercase b') ((toLower_eq_iff h).mpr rfl)

end Case

end Text

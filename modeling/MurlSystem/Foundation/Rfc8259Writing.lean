import MurlSystem.Foundation.Rfc8259Lexemes
import MurlSystem.Foundation.Numeral
import Mathlib.Data.List.Forall2

namespace Rfc8259

open Abnf

section Strings

theorem scalar_not_surrogate (c : Char) : isSurrogate c.toNat = false := by
  have hc : c.toNat.isValidChar := c.valid
  simp only [isSurrogate,Bool.and_eq_false_iff,decide_eq_false_iff_not,Nat.not_le,Nat.not_lt]
  rcases hc with hc | hc <;> omega

theorem combine_scalars {us : List Nat} (h : ∀ u ∈ us, isSurrogate u = false) :
    combine us = us := by
  induction us with
  | nil => rfl
  | cons u rest ih =>
    obtain ⟨hu,hrest⟩ := List.forall_mem_cons.mp h
    cases rest with
    | nil => rfl
    | cons v rest =>
      have hhigh : isHigh u = false := by
        simp only [isSurrogate,isHigh,Bool.and_eq_false_iff,decide_eq_false_iff_not] at hu ⊢
        omega
      rw [combine,hhigh,ih hrest]
      rfl

theorem chars_flatMap {escape : Char → List Char}
    (h : ∀ c w us, Chars w us → Chars (escape c ++ w) (c.toNat :: us)) (cs : List Char) :
    Chars (cs.flatMap escape) (cs.map Char.toNat) := by
  induction cs with
  | nil => exact .nil
  | cons c cs ih =>
    rw [List.flatMap_cons]
    exact h c _ _ ih

theorem writes_string {escape : Char → List Char}
    (h : ∀ c w us, Chars w us → Chars (escape c ++ w) (c.toNat :: us)) (cs : List Char) :
    Writes (.string (cs.map Char.toNat)) ('"' :: (cs.flatMap escape ++ ['"'])) := by
  have hscalar : combine (cs.map Char.toNat) = cs.map Char.toNat := by
    apply combine_scalars
    intro u hu
    obtain ⟨c,-,rfl⟩ := List.mem_map.mp hu
    exact scalar_not_surrogate c
  have hwrites := Writes.string _ _ (chars_flatMap h cs)
  rwa [hscalar] at hwrites

end Strings

section Numbers

theorem integer_plain {w : List Char} (h : Numeral.Plain w) : integer.Derives w := by
  obtain ⟨hdigits,hsome,hlead⟩ := h
  obtain ⟨c,ds,rfl⟩ := List.exists_cons_of_ne_nil hsome
  obtain ⟨hc,hds⟩ := List.forall_mem_cons.mp hdigits
  obtain ⟨hlo,hhi⟩ := Numeral.digit_bounds hc
  by_cases hzero : c = '0'
  · subst hzero
    cases ds with
    | nil => exact integer_derives.mpr (.inl rfl)
    | cons d ds => exact absurd rfl (hlead (by simp))
  · have hne : c.toNat ≠ 48 := fun h48 => hzero (Char.toNat_inj.mp h48)
    have hge : '1' ≤ c := UInt32.le_iff_toNat_le.mpr (by
      change 49 ≤ c.toNat
      omega)
    have hle : c ≤ '9' := UInt32.le_iff_toNat_le.mpr hhi
    exact integer_derives.mpr (.inr ⟨c,ds,rfl,by simp [hge,hle],hds⟩)

theorem unsigned_integer {w : List Char} (h : integer.Derives w) :
    (Rule.cat integer (.cat (.opt fraction) (.opt exponent))).Derives w :=
  ⟨w,[],(List.append_nil w).symm,h,[],[],rfl,derives_opt.mpr (.inl rfl),derives_opt.mpr (.inl rfl)⟩

theorem toString_int (i : Int) : (toString i).toList =
    if i < 0 then '-' :: Nat.toDigits 10 i.natAbs else Nat.toDigits 10 i.natAbs := by
  cases i with
  | ofNat n =>
    rw [if_neg (by simp)]
    exact Nat.toList_repr
  | negSucc n =>
    rw [if_pos (Int.negSucc_lt_zero n)]
    change ("-" ++ Nat.repr (n + 1)).toList = _
    rw [String.toList_append,Nat.toList_repr]
    rfl

theorem number_int (i : Int) : numberRule.Derives (toString i).toList := by
  have hunsigned := unsigned_integer (integer_plain (Numeral.plain_toDigits i.natAbs))
  rw [toString_int,number_cases]
  split
  · exact ⟨_,.inr rfl,hunsigned⟩
  · exact ⟨_,.inl rfl,hunsigned⟩

end Numbers

section Containers

variable {lead gap trail : List Char}

theorem blank_nil : Blank [] := by simp [Blank]

theorem items_intercalate (hlead : Blank lead) (htrail : Blank trail) {vs : List Raw}
    {ws : List (List Char)} (h : List.Forall₂ Writes vs ws) (hne : vs ≠ []) :
    Items vs ([','].intercalate (ws.map (lead ++ ·)) ++ trail) := by
  induction h with
  | nil => exact absurd rfl hne
  | @cons v w vs ws hw hrest ih =>
    cases hrest with
    | nil =>
      have hone := Items.one v lead w trail hlead hw htrail
      simpa using hone
    | @cons v' w' vs ws hw' hrest =>
      have hmore := Items.more v _ lead w [] _ hlead hw blank_nil (ih (by simp))
      simpa [List.intercalate_cons_cons] using hmore

theorem writes_array (hlead : Blank lead) (htrail : Blank trail) {vs : List Raw}
    {ws : List (List Char)} (h : List.Forall₂ Writes vs ws) :
    Writes (.array vs) ('[' :: ([','].intercalate (ws.map (lead ++ ·)) ++ trail ++ [']'])) := by
  cases h with
  | nil => simpa using Writes.emptyArray trail htrail
  | cons hw hrest =>
    exact .array _ _ (items_intercalate hlead htrail (.cons hw hrest) (by simp))

def MemberText (gap : List Char) (m : List Nat × Raw) (t : List Char) : Prop :=
  ∃ us k w, m.1 = combine us ∧ Chars k us ∧ Writes m.2 w ∧ t = '"' :: (k ++ '"' :: ':' :: (gap ++ w))

theorem members_intercalate (hlead : Blank lead) (hgap : Blank gap) (htrail : Blank trail)
    {ms : List (List Nat × Raw)} {ts : List (List Char)} (h : List.Forall₂ (MemberText gap) ms ts)
    (hne : ms ≠ []) : Members ms ([','].intercalate (ts.map (lead ++ ·)) ++ trail) := by
  induction h with
  | nil => exact absurd rfl hne
  | @cons m t ms ts ht hrest ih =>
    obtain ⟨p,v⟩ := m
    obtain ⟨us,k,w,rfl,hk,hw,rfl⟩ := ht
    cases hrest with
    | nil =>
      have hone := Members.one us v lead k [] gap w trail hlead hk blank_nil hgap hw htrail
      simpa using hone
    | @cons m' t' ms ts ht' hrest =>
      have hmore := Members.more us v _ lead k [] gap w [] _ hlead hk blank_nil hgap hw
        blank_nil (ih (by simp))
      simpa [List.intercalate_cons_cons] using hmore

theorem writes_object (hlead : Blank lead) (hgap : Blank gap) (htrail : Blank trail)
    {ms : List (List Nat × Raw)} {ts : List (List Char)} (h : List.Forall₂ (MemberText gap) ms ts) :
    Writes (.object ms) ('{' :: ([','].intercalate (ts.map (lead ++ ·)) ++ trail ++ ['}'])) := by
  cases h with
  | nil => simpa using Writes.emptyObject trail htrail
  | cons ht hrest =>
    exact .object _ _ (members_intercalate hlead hgap htrail (.cons ht hrest) (by simp))

end Containers

end Rfc8259

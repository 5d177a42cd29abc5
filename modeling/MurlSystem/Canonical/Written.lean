import MurlSystem.Canonical.Kept
import MurlSystem.Foundation.Rfc8259Writing

namespace MurlSystem.Serde

open Rfc8259

section Strings

theorem hex4_control : ∀ n < 0x20,
    hex4 '0' '0' (Nat.digitChar (n / 16)) (Nat.digitChar (n % 16)) = some n := by decide

theorem escapeChar_chars (c : Char) (w : List Char) (us : List Nat) (h : Chars w us) :
    Chars ((escapeChar c).toList ++ w) (c.toNat :: us) := by
  rw [escapeChar]
  split
  · rename_i hc
    subst hc
    exact .short '"' _ w us rfl h
  split
  · rename_i hc
    subst hc
    exact .short '\\' _ w us rfl h
  split
  · rename_i hc
    rw [hc]
    exact .short 'b' 8 w us rfl h
  split
  · rename_i hc
    rw [hc]
    exact .short 'f' 12 w us rfl h
  split
  · rename_i hc
    subst hc
    exact .short 'n' _ w us rfl h
  split
  · rename_i hc
    subst hc
    exact .short 'r' _ w us rfl h
  split
  · rename_i hc
    subst hc
    exact .short 't' _ w us rfl h
  split
  · rename_i hc
    have hunicode := Chars.unicode '0' '0' _ _ _ w us (hex4_control _ hc) h
    simpa [Char.toString] using hunicode
  · rename_i hquote hback _ _ _ _ _ hlow
    have hplain := Chars.plain c w us (Nat.not_lt.mp hlow) hquote hback h
    simpa using hplain

theorem foldl_escape (cs : List Char) (out : String) :
    (cs.foldl (fun out c => out ++ escapeChar c) out).toList =
      out.toList ++ cs.flatMap fun c => (escapeChar c).toList := by
  induction cs generalizing out with
  | nil => simp
  | cons c cs ih =>
    rw [List.foldl_cons,ih,String.toList_append,List.flatMap_cons,List.append_assoc]

def escaped (s : String) : List Char := s.toList.flatMap fun c => (escapeChar c).toList

theorem writeString_toList (s : String) : (writeString s).toList = '"' :: (escaped s ++ ['"']) := by
  rw [writeString,String.toList_append,String.toList_append,foldl_escape]
  rfl

def points (s : String) : List Nat := s.toList.map Char.toNat

theorem escaped_chars (s : String) : Chars (escaped s) (points s) :=
  chars_flatMap escapeChar_chars s.toList

theorem points_scalar {s : String} {u : Nat} (h : u ∈ points s) : isSurrogate u = false := by
  obtain ⟨c,-,rfl⟩ := List.mem_map.mp h
  exact scalar_not_surrogate c

theorem combine_points (s : String) : combine (points s) = points s :=
  combine_scalars fun _ hu => points_scalar hu

theorem scalarString_points (s : String) : scalarString (points s) = some s := by
  have hscalar : (points s).any isSurrogate = false := by
    rw [List.any_eq_false]
    intro u hu
    simp [points_scalar hu]
  have hchars : (points s).map Char.ofNat = s.toList := by
    rw [points,List.map_map]
    exact (List.map_congr_left fun c _ => Char.ofNat_toNat c).trans (List.map_id _)
  rw [scalarString,hscalar,hchars]
  simp

end Strings

section Integers

variable {f64 : List Char → Option String}

theorem digits_plain (n : Nat) :
    ((Nat.toDigits 10 n).any fun c => c == '.' || c == 'e' || c == 'E') = false := by
  rw [List.any_eq_false]
  intro c hc hne
  have hdigit := (Numeral.plain_toDigits n).digits c hc
  simp only [Bool.or_eq_true,beq_iff_eq] at hne
  rcases hne with (rfl | rfl) | rfl <;> exact absurd hdigit (by decide)

theorem digits_unsigned (n : Nat) (ds : List Char) : Nat.toDigits 10 n ≠ '-' :: ds := by
  intro h
  have hdigit := (Numeral.plain_toDigits n).digits '-' (by simp [h])
  exact absurd hdigit (by decide)

theorem integerOf_toString (i : Int) : integerOf (toString i).toList = some i := by
  rw [toString_int]
  split
  · rename_i hneg
    have hplain : (('-' :: Nat.toDigits 10 i.natAbs).any
        fun c => c == '.' || c == 'e' || c == 'E') = false := by
      rw [List.any_cons,digits_plain]
      rfl
    simp only [integerOf,hplain,Numeral.value_toDigits]
    simp only [Bool.false_eq_true,if_false,Option.some.injEq]
    omega
  · rename_i hpos
    simp only [integerOf,digits_plain]
    simp only [Bool.false_eq_true,if_false]
    split
    · rename_i ds hds
      exact absurd hds (digits_unsigned _ ds)
    · rw [Numeral.value_toDigits,Option.some.injEq]
      omega

theorem toString_not_negative_zero (i : Int) : (toString i).toList ≠ "-0".toList := by
  intro h
  have hzero := integerOf_toString i
  rw [h] at hzero
  obtain rfl : 0 = i := Option.some.inj hzero
  exact absurd h (by decide)

theorem number_toString {i : Int} (least : -(2 ^ 63) ≤ i) (most : i < 2 ^ 64) :
    number f64 (toString i).toList = some (.int i) := by
  simp only [number,integerOf_toString,if_neg (toString_not_negative_zero i),
    if_pos (And.intro least most)]

end Integers

end MurlSystem.Serde

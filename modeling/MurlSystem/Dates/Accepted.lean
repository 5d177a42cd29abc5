import MurlSystem.Dates.Stamp
import MurlSystem.Cli.Names
import MurlSystem.Foundation.Fallible
import MurlSystem.Foundation.Utf8

namespace MurlSystem

open Gregorian Numeral

section Fields

variable {s : String} {b : Bytes} {l : List Char} {lo hi : Nat} {v : Int}

def asciiBytes (l : List Char) : Bytes := l.map fun c => UInt8.ofNat c.toNat

def fieldAt (b : Bytes) (lo hi : Nat) : Bytes := (b.drop lo).take (hi - lo)

theorem byte_digit {c : UInt8} (h : (48 ≤ c && c ≤ 57) = true) :
    (Char.ofNat c.toNat).isDigit = true ∧ (Char.ofNat c.toNat).toNat = c.toNat := by
  simp only [Bool.and_eq_true,decide_eq_true_eq,UInt8.le_iff_toNat_le] at h
  have hlo : 48 ≤ c.toNat := h.1
  have hhi : c.toNat ≤ 57 := h.2
  have hvalid : c.toNat.isValidChar := .inl (by omega)
  have hchar : (Char.ofNat c.toNat).toNat = c.toNat := by
    rw [Char.ofNat,dif_pos hvalid]
    rfl
  exact ⟨isDigit_of_bounds (by omega) (by omega),hchar⟩

theorem digit_byte {c : Char} (h : c.isDigit = true) :
    (48 ≤ UInt8.ofNat c.toNat && UInt8.ofNat c.toNat ≤ 57) = true ∧
      (UInt8.ofNat c.toNat).toNat = c.toNat := by
  obtain ⟨hlo,hhi⟩ := digit_bounds h
  have hbyte : (UInt8.ofNat c.toNat).toNat = c.toNat := by
    rw [UInt8.toNat_ofNat']
    omega
  simp only [Bool.and_eq_true,decide_eq_true_eq,UInt8.le_iff_toNat_le,hbyte]
  exact ⟨⟨hlo,hhi⟩,trivial⟩

theorem exists_digits (h : b.all (fun c => 48 ≤ c && c ≤ 57) = true) :
    ∃ l : List Char, (∀ c ∈ l, c.isDigit = true) ∧ b = asciiBytes l := by
  rw [List.all_eq_true] at h
  refine ⟨b.map fun c => Char.ofNat c.toNat,?_,?_⟩
  · intro c hc
    obtain ⟨a,ha,rfl⟩ := List.mem_map.mp hc
    exact (byte_digit (h a ha)).1
  · have hbyte : ∀ a ∈ b, UInt8.ofNat (Char.ofNat a.toNat).toNat = a := by
      intro a ha
      rw [(byte_digit (h a ha)).2,UInt8.ofNat_toNat]
    rw [asciiBytes,List.map_map]
    exact ((List.map_congr_left hbyte).trans (List.map_id b)).symm

theorem fold_digits (h : ∀ c ∈ l, c.isDigit = true) :
    (asciiBytes l).foldl (fun (n : Int) c => 10 * n + (c.toNat - 48 : Nat)) 0 = value l := by
  induction l using List.reverseRecOn with
  | nil => rfl
  | append_singleton l c ih =>
    have hbyte := (digit_byte (h c (by simp))).2
    rw [asciiBytes,List.map_append,List.foldl_append,← asciiBytes,ih fun d hd => h d (by simp [hd]),
      value_concat]
    simp only [List.map_cons,List.map_nil,List.foldl_cons,List.foldl_nil,hbyte]
    push_cast
    rfl

theorem numField_ok : numField s b lo hi = .ok v ↔
    ∃ n : Nat, n < 10 ^ (fieldAt b lo hi).length ∧ v = (n : Int) ∧
      fieldAt b lo hi = asciiBytes (padded (fieldAt b lo hi).length n) := by
  rw [numField,← fieldAt]
  constructor
  · intro h
    split at h
    · next hall =>
      obtain ⟨l,hl,hb⟩ := exists_digits hall
      have hlen : (asciiBytes l).length = l.length := List.length_map _
      rw [hb,fold_digits hl] at h
      rw [hb,hlen]
      exact ⟨value l,value_lt hl,(Except.ok.inj h).symm,by rw [padded_value hl]⟩
    · cases h
  · rintro ⟨n,hn,rfl,hb⟩
    have hdigits := isDigit_padded (fieldAt b lo hi).length n
    have hall : (fieldAt b lo hi).all (fun c => 48 ≤ c && c ≤ 57) = true := by
      rw [hb,List.all_eq_true]
      intro a ha
      obtain ⟨c,hc,rfl⟩ := List.mem_map.mp ha
      exact (digit_byte (hdigits c hc)).1
    rw [if_pos hall,hb,fold_digits hdigits,value_padded hn]

theorem drop_cut {c : UInt8} (h : b[hi]? = some c) (hle : lo ≤ hi) :
    b.drop lo = fieldAt b lo hi ++ c :: b.drop (hi + 1) := by
  obtain ⟨hlt,hc⟩ := List.getElem?_eq_some_iff.mp h
  have hrest : b.drop hi = c :: b.drop (hi + 1) := by rw [List.drop_eq_getElem_cons hlt,hc]
  have hdrop : (b.drop lo).drop (hi - lo) = b.drop hi := by
    rw [List.drop_drop,Nat.add_sub_cancel' hle]
  rw [← hrest,← hdrop,fieldAt,List.take_append_drop]

theorem length_fieldAt (h : hi ≤ b.length) : (fieldAt b lo hi).length = hi - lo := by
  rw [fieldAt,List.length_take,List.length_drop]
  omega

theorem timestampShape_iff : timestampShape b = true ↔
    b.length = 20 ∧ b[4]? = some 45 ∧ b[7]? = some 45 ∧ b[10]? = some 84 ∧ b[13]? = some 58 ∧
      b[16]? = some 58 ∧ b[19]? = some 90 := by
  simp only [timestampShape,Bool.and_eq_true,beq_iff_eq,and_assoc]

theorem timestampShape_cut (h : timestampShape b = true) : b = fieldAt b 0 4 ++ 45 ::
    (fieldAt b 5 7 ++ 45 :: (fieldAt b 8 10 ++ 84 :: (fieldAt b 11 13 ++ 58 ::
      (fieldAt b 14 16 ++ 58 :: (fieldAt b 17 19 ++ [90]))))) := by
  obtain ⟨hlen,h4,h7,h10,h13,h16,h19⟩ := timestampShape_iff.mp h
  have hend : b.drop 20 = [] := List.drop_eq_nil_of_le hlen.le
  rw [← hend,← drop_cut h19 (by decide),← drop_cut h16 (by decide),← drop_cut h13 (by decide),
    ← drop_cut h10 (by decide),← drop_cut h7 (by decide),← drop_cut h4 (by decide),List.drop_zero]

end Fields

section Accepted

variable {s : String} {t : Nat}

theorem parseRfc3339Utc_ok : parseRfc3339Utc s = .ok t ↔ timestampShape (Text.bytes s) = true ∧
    ∃ year month day hour minute second : Int,
      (numField s (Text.bytes s) 0 4 = .ok year ∧ numField s (Text.bytes s) 5 7 = .ok month ∧
        numField s (Text.bytes s) 8 10 = .ok day ∧ numField s (Text.bytes s) 11 13 = .ok hour ∧
        numField s (Text.bytes s) 14 16 = .ok minute ∧
        numField s (Text.bytes s) 17 19 = .ok second) ∧
      ¬(year < 1970 ∨ 9999 < year) ∧ ¬(month < 1 ∨ 12 < month) ∧
      ¬(day < 1 ∨ daysInMonth year month < day) ∧ ¬(23 < hour ∨ 59 < minute ∨ 59 < second) ∧
      (daysFromCivil year month day * 86400 + hour * 3600 + minute * 60 + second).toNat = t := by
  simp only [parseRfc3339Utc,Fallible.ite_ok,Fallible.bind_ok,Fallible.pure_ok,Fallible.throw_ok,
    Bool.not_eq_true',Bool.not_eq_false,false_and,exists_false,and_false,false_or]
  constructor
  · rintro ⟨hshape,year,hyear,month,hmonth,day,hday,hour,hhour,minute,hminute,second,hsecond,h⟩
    exact ⟨hshape,year,month,day,hour,minute,second,⟨hyear,hmonth,hday,hhour,hminute,hsecond⟩,h⟩
  · rintro ⟨hshape,year,month,day,hour,minute,second,⟨hyear,hmonth,hday,hhour,hminute,hsecond⟩,h⟩
    exact ⟨hshape,year,hyear,month,hmonth,day,hday,hour,hhour,minute,hminute,second,hsecond,h⟩

theorem asciiBytes_text (x : Stamp) : Text.bytes x.text = asciiBytes x.chars := by
  refine Text.bytes_ascii fun c hc => ?_
  have hdigit : ∀ {k n}, c ∈ padded k n → Text.isAscii c = true := by
    intro k n hc
    have hhi := (digit_bounds (isDigit_padded k n c hc)).2
    rw [Text.isAscii,decide_eq_true_eq]
    omega
  simp only [Stamp.chars,List.mem_append,List.mem_cons,List.not_mem_nil,or_false] at hc
  obtain hc | rfl | hc | rfl | hc | rfl | hc | rfl | hc | rfl | hc | rfl := hc
  all_goals first | exact hdigit hc | decide

theorem parseRfc3339Utc_stamp (h : parseRfc3339Utc s = .ok t) :
    ∃ x : Stamp, x.Real ∧ s = x.text ∧ x.Epoch t := by
  obtain ⟨hshape,year,month,day,hour,minute,second,⟨hyear,hmonth,hday,hhour,hminute,hsecond⟩,
    hyears,hmonths,hdays,htimes,rfl⟩ := parseRfc3339Utc_ok.mp h
  have hlen := (timestampShape_iff.mp hshape).1
  obtain ⟨y,hy,rfl,hbyte⟩ := numField_ok.mp hyear
  obtain ⟨m,hm,rfl,hbmonth⟩ := numField_ok.mp hmonth
  obtain ⟨d,hd,rfl,hbday⟩ := numField_ok.mp hday
  obtain ⟨hr,hh,rfl,hbhour⟩ := numField_ok.mp hhour
  obtain ⟨mn,hmn,rfl,hbminute⟩ := numField_ok.mp hminute
  obtain ⟨sc,hs,rfl,hbsecond⟩ := numField_ok.mp hsecond
  rw [length_fieldAt (by omega)] at hbyte hbmonth hbday hbhour hbminute hbsecond
  rw [daysInMonth_eq (by omega) (by omega)] at hdays
  have hrangey : 1970 ≤ y ∧ y ≤ 9999 := by omega
  have hrangem : 1 ≤ m ∧ m ≤ 12 := by omega
  have hranged : 1 ≤ d ∧ d ≤ daysIn y m := by omega
  have hranget : hr ≤ 23 ∧ mn ≤ 59 ∧ sc ≤ 59 := by omega
  have hreal : Stamp.Real ⟨⟨y,m,d⟩,hr,mn,sc⟩ :=
    ⟨⟨hrangem,hranged⟩,hrangey,hranget.1,hranget.2.1,hranget.2.2⟩
  refine ⟨⟨⟨y,m,d⟩,hr,mn,sc⟩,hreal,Text.bytes_injective ?_,(epoch_iff hreal).mpr rfl⟩
  rw [timestampShape_cut hshape,hbyte,hbmonth,hbday,hbhour,hbminute,hbsecond,asciiBytes_text]
  simp [Stamp.chars,asciiBytes]

theorem numField_text {x : Stamp} {lo hi k n : Nat} (hk : (fieldAt (asciiBytes x.chars) lo hi) =
    asciiBytes (padded k n)) (hn : n < 10 ^ k) :
    numField x.text (Text.bytes x.text) lo hi = .ok (n : Int) := by
  have hlen : (asciiBytes (padded k n)).length = k := by
    rw [asciiBytes,List.length_map,length_padded]
  rw [numField_ok,asciiBytes_text,hk,hlen]
  exact ⟨n,hn,rfl,rfl⟩

theorem stamp_parseRfc3339Utc {x : Stamp} (hx : x.Real) (ht : x.Epoch t) :
    parseRfc3339Utc x.text = .ok t := by
  obtain ⟨hy,hm,hd,hh,hmn,hs⟩ := hx.bounds
  have hepoch := (epoch_iff hx).mp ht
  obtain ⟨⟨hmonth,hday⟩,hyear,hhour,hminute,hsecond⟩ := hx
  have hshape : timestampShape (Text.bytes x.text) = true := by
    rw [asciiBytes_text]
    rfl
  rw [parseRfc3339Utc_ok]
  refine ⟨hshape,x.date.year,x.date.month,x.date.day,x.hour,x.minute,x.second,
    ⟨numField_text rfl hy,numField_text rfl hm,numField_text rfl hd,numField_text rfl hh,
      numField_text rfl hmn,numField_text rfl hs⟩,by omega,by omega,?_,by omega,hepoch.symm⟩
  rw [daysInMonth_eq hmonth.1 hmonth.2]
  omega

end Accepted

end MurlSystem

import MurlSystem.Dates.Accepted
import MurlSystem.Cli.Classified

namespace MurlSystem

-- `&s[lo..hi]`, which gives nothing where an end of the range is inside a character.
def slice (s : String) (lo hi : Nat) : Option (List Char) :=
  (prefixBytes lo s.toList).bind fun skipped => prefixBytes (hi - lo) (s.toList.drop skipped.length)

def numSlice (s : String) (lo hi : Nat) : ExceptT String Option Int :=
  (slice s lo hi).map fun part =>
    let b := Text.bytes (String.ofList part)
    numField s b 0 b.length

def parseSliced (s : String) : ExceptT String Option Nat := do
  if !timestampShape (Text.bytes s) then
    throw s!"`{s}` is not a strict UTC timestamp (expected YYYY-MM-DDTHH:MM:SSZ)"
  let year ← numSlice s 0 4
  let month ← numSlice s 5 7
  let day ← numSlice s 8 10
  let hour ← numSlice s 11 13
  let minute ← numSlice s 14 16
  let second ← numSlice s 17 19
  if year < 1970 ∨ 9999 < year then throw s!"year {year} out of range 1970..=9999"
  if month < 1 ∨ 12 < month then throw s!"month {month} out of range"
  if day < 1 ∨ daysInMonth year month < day then
    throw s!"day {day} out of range for {year}-{pad2 month}"
  if 23 < hour ∨ 59 < minute ∨ 59 < second then
    throw s!"time {pad2 hour}:{pad2 minute}:{pad2 second} out of range"
  return (daysFromCivil year month day * 86400 + hour * 3600 + minute * 60 + second).toNat

section Slices

variable {s : String} {l pre post : List Char} {i lo hi : Nat} {b : UInt8}

def sizeOfChars (l : List Char) : Nat := (l.flatMap String.utf8EncodeChar).length

theorem sizeOfChars_append (l m : List Char) :
    sizeOfChars (l ++ m) = sizeOfChars l + sizeOfChars m := by
  rw [sizeOfChars,List.flatMap_append,List.length_append]
  rfl

theorem sizeOfChars_cons (c : Char) (l : List Char) :
    sizeOfChars (c :: l) = c.utf8Size + sizeOfChars l := by
  rw [sizeOfChars,List.flatMap_cons,List.length_append,String.length_utf8EncodeChar]
  rfl

theorem sizeOfChars_eq_zero : sizeOfChars l = 0 ↔ l = [] := by
  cases l with
  | nil => simp [sizeOfChars]
  | cons c l =>
    have hc := c.utf8Size_pos
    rw [sizeOfChars_cons]
    simp
    omega

theorem prefixBytes_append (pre post : List Char) :
    prefixBytes (sizeOfChars pre) (pre ++ post) = some pre := by
  induction pre with
  | nil =>
    rw [sizeOfChars_eq_zero.mpr rfl]
    cases post <;> rfl
  | cons c pre ih =>
    have hc := c.utf8Size_pos
    obtain ⟨n,hn⟩ : ∃ n, sizeOfChars (c :: pre) = n + 1 := by
      refine ⟨_,(Nat.succ_pred_eq_of_pos ?_).symm⟩
      rw [sizeOfChars_cons]
      omega
    have hrest : n + 1 - c.utf8Size = sizeOfChars pre := by
      rw [← hn,sizeOfChars_cons]
      omega
    have hfits : c.utf8Size ≤ n + 1 := by
      rw [← hn,sizeOfChars_cons]
      omega
    rw [hn,List.cons_append,prefixBytes,if_pos hfits,hrest,ih]
    rfl

theorem ascii_splits (h : (l.flatMap String.utf8EncodeChar)[i]? = some b) (hb : b.toNat < 128) :
    ∃ pre c post, l = pre ++ c :: post ∧ sizeOfChars pre = i ∧ String.utf8EncodeChar c = [b] := by
  induction l generalizing i with
  | nil => simp at h
  | cons c l ih =>
    rw [List.flatMap_cons] at h
    by_cases hi : i < (String.utf8EncodeChar c).length
    · rw [List.getElem?_append_left hi] at h
      have hascii : Text.isAscii c = true := by
        by_contra hwide
        have hbyte := Text.encode_wide (Bool.eq_false_iff.mpr hwide) b (List.mem_of_getElem? h)
        omega
      have hone := Text.encode_ascii hascii
      rw [hone] at h hi
      obtain rfl : i = 0 := by simpa using hi
      refine ⟨[],c,l,rfl,rfl,?_⟩
      rw [hone]
      simpa using h
    · rw [List.getElem?_append_right (not_lt.mp hi)] at h
      obtain ⟨pre,d,post,rfl,hpre,hd⟩ := ih h
      refine ⟨c :: pre,d,post,rfl,?_,hd⟩
      rw [sizeOfChars_cons,hpre,← String.length_utf8EncodeChar]
      omega

def CutAt (s : String) (i : Nat) : Prop := ∃ pre post, s.toList = pre ++ post ∧ sizeOfChars pre = i

theorem cutAt_ascii (h : (Text.bytes s)[i]? = some b) (hb : b.toNat < 128) :
    CutAt s i ∧ CutAt s (i + 1) := by
  obtain ⟨pre,c,post,hl,hpre,hc⟩ := ascii_splits h hb
  have hsize : sizeOfChars (pre ++ [c]) = i + 1 := by
    rw [sizeOfChars_append,hpre,sizeOfChars,List.flatMap_singleton,hc]
    rfl
  exact ⟨⟨pre,c :: post,hl,hpre⟩,pre ++ [c],post,by rw [hl,List.append_assoc]; rfl,hsize⟩

theorem slice_eq (hlo : CutAt s lo) (hhi : CutAt s hi) (hle : lo ≤ hi) :
    ∃ part, slice s lo hi = some part ∧
      Text.bytes (String.ofList part) = fieldAt (Text.bytes s) lo hi := by
  obtain ⟨pre,post,hl,hpre⟩ := hlo
  obtain ⟨pre',post',hl',hpre'⟩ := hhi
  obtain ⟨part,rfl⟩ : ∃ part, pre' = pre ++ part := by
    rcases List.append_eq_append_iff.mp (hl'.symm.trans hl) with ⟨a,rfl,-⟩ | ⟨a,rfl,-⟩
    · rw [sizeOfChars_append] at hpre
      have ha : a = [] := sizeOfChars_eq_zero.mp (by omega)
      exact ⟨[],by simp [ha]⟩
    · exact ⟨a,rfl⟩
  have hpart : sizeOfChars part = hi - lo := by
    rw [sizeOfChars_append] at hpre'
    omega
  refine ⟨part,?_,?_⟩
  · rw [List.append_assoc] at hl'
    rw [slice,hl',← hpre,prefixBytes_append,Option.bind_some,List.drop_left,hpre,← hpart,
      prefixBytes_append]
  · have hb : Text.bytes s = pre.flatMap String.utf8EncodeChar ++
        (part.flatMap String.utf8EncodeChar ++ post'.flatMap String.utf8EncodeChar) := by
      rw [Text.bytes,hl',List.flatMap_append,List.flatMap_append,List.append_assoc]
    rw [fieldAt,hb,List.drop_left' hpre,List.take_left' hpart,Text.bytes,
      @String.toList_ofList part]

theorem numSlice_eq (hlo : CutAt s lo) (hhi : CutAt s hi) (hle : lo ≤ hi) :
    numSlice s lo hi = some (numField s (Text.bytes s) lo hi) := by
  obtain ⟨part,hpart,hbytes⟩ := slice_eq hlo hhi hle
  have hwhole : (fieldAt (Text.bytes s) lo hi).drop 0 = fieldAt (Text.bytes s) lo hi := rfl
  rw [numSlice,hpart,Option.map_some]
  dsimp only
  rw [hbytes,numField,numField,← fieldAt,← fieldAt,fieldAt,hwhole,Nat.sub_zero,List.take_length]

end Slices

section Panics

variable {α β : Type}

def returns (x : Except String α) : ExceptT String Option α := some x

theorem returns_bind (x : Except String α) (f : α → Except String β) :
    returns (x >>= f) = returns x >>= fun a => returns (f a) := by
  cases x <;> rfl

theorem returns_ite {c : Prop} [Decidable c] (x y : Except String α) :
    returns (if c then x else y) = if c then returns x else returns y := by
  split <;> rfl

theorem returns_throw (e : String) : returns (throw e : Except String α) = throw e := rfl

theorem returns_pure (a : α) : returns (pure a : Except String α) = pure a := rfl

theorem parseSliced_eq (s : String) : parseSliced s = returns (parseRfc3339Utc s) := by
  by_cases h : timestampShape (Text.bytes s) = true
  · have hshape := timestampShape_iff.mp h
    obtain ⟨-,h4,h7,h10,h13,h16,h19⟩ := hshape
    obtain ⟨h4,h5⟩ := cutAt_ascii h4 (by decide)
    obtain ⟨h7,h8⟩ := cutAt_ascii h7 (by decide)
    obtain ⟨h10,h11⟩ := cutAt_ascii h10 (by decide)
    obtain ⟨h13,h14⟩ := cutAt_ascii h13 (by decide)
    obtain ⟨h16,h17⟩ := cutAt_ascii h16 (by decide)
    have h19 := (cutAt_ascii h19 (by decide)).1
    have h0 : CutAt s 0 := ⟨[],s.toList,rfl,rfl⟩
    simp only [parseSliced,parseRfc3339Utc,returns_bind,returns_ite,returns_throw,returns_pure]
    rw [numSlice_eq h0 h4 (by decide),numSlice_eq h5 h7 (by decide),numSlice_eq h8 h10 (by decide),
      numSlice_eq h11 h13 (by decide),numSlice_eq h14 h16 (by decide),
      numSlice_eq h17 h19 (by decide)]
    rfl
  · simp only [parseSliced,parseRfc3339Utc,Bool.eq_false_iff.mpr h,Bool.not_false,if_true]
    rfl

end Panics

end MurlSystem

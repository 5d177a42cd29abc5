import MurlSystem.Dates.Sliced
import MurlSystem.Core.Manifest

namespace MurlSystem

open Gregorian Numeral

namespace Reference

-- `\d` and `int` of the interpreter: the digit that a character stands for, in any script.
abbrev Decimal := Char → Option Nat

def group (decimal : Decimal) (cs : List Char) : Option Nat :=
  cs.foldlM (fun n c => (decimal c).map (10 * n + ·)) 0

def matchTimestamp (decimal : Decimal) (cs : List Char) : Option Stamp := do
  guard (cs.length = 20 ∧ cs[4]? = some '-' ∧ cs[7]? = some '-' ∧ cs[10]? = some 'T' ∧
    cs[13]? = some ':' ∧ cs[16]? = some ':' ∧ cs[19]? = some 'Z')
  let year ← group decimal (cs.take 4)
  let month ← group decimal ((cs.drop 5).take 2)
  let day ← group decimal ((cs.drop 8).take 2)
  let hour ← group decimal ((cs.drop 11).take 2)
  let minute ← group decimal ((cs.drop 14).take 2)
  let second ← group decimal ((cs.drop 17).take 2)
  return ⟨⟨year,month,day⟩,hour,minute,second⟩

def isDatetime (x : Stamp) : Bool :=
  1 ≤ x.date.year && x.date.year ≤ 9999 && 1 ≤ x.date.month && x.date.month ≤ 12 &&
  1 ≤ x.date.day && x.date.day ≤ daysIn x.date.year x.date.month &&
  x.hour ≤ 23 && x.minute ≤ 59 && x.second ≤ 59

def validateTimestamp (decimal : Decimal) (member : String) : Value → Except String String
  | .string value =>
    match matchTimestamp decimal value.toList with
    | none => .error s!"manifest: '{member}' must be a strict UTC timestamp YYYY-MM-DDTHH:MM:SSZ"
    | some x => if isDatetime x then .ok value else .error s!"manifest: '{member}' is not a real instant"
  | _ => .error s!"manifest: '{member}' must be a string"

def reported : Option (Except String String) → List String
  | some (.error e) => [e]
  | _ => []

def windowMessage : String := "manifest: 'notBefore' must be strictly before 'expires'"

def validateValidityWindow (decimal : Decimal) (doc : List (String × Value)) : List String :=
  let notBefore := (doc.lookup "notBefore").map (validateTimestamp decimal "notBefore")
  let expires := (doc.lookup "expires").map (validateTimestamp decimal "expires")
  reported notBefore ++ reported expires ++
  match notBefore,expires with
  | some (.ok nb),some (.ok exp) => if nb < exp then [] else [windowMessage]
  | _,_ => []

end Reference

section Read

open Reference

variable {decimal : Decimal} {l : List Char} {x : Stamp} {s s' : String} {t t' : Nat}

def ReadsAscii (decimal : Decimal) : Prop :=
  ∀ c, c.isDigit = true → decimal c = some (c.toNat - 48)

theorem group_digits (hdecimal : ReadsAscii decimal) (hl : ∀ c ∈ l, c.isDigit = true) :
    group decimal l = some (value l) := by
  induction l using List.reverseRecOn with
  | nil => rfl
  | append_singleton l c ih =>
    have hinit := ih fun d hd => hl d (by simp [hd])
    rw [group] at hinit
    rw [group,List.foldlM_append,hinit,value_concat]
    simp [hdecimal c (hl c (by simp))]

theorem group_padded (hdecimal : ReadsAscii decimal) {k n : Nat} (hn : n < 10 ^ k) :
    group decimal (padded k n) = some n := by
  rw [group_digits hdecimal (isDigit_padded k n),value_padded hn]

theorem matchTimestamp_text (hdecimal : ReadsAscii decimal) (hx : x.Real) :
    matchTimestamp decimal x.chars = some x := by
  obtain ⟨hy,hm,hd,hh,hmn,hs⟩ := hx.bounds
  have hguard : x.chars.length = 20 ∧ x.chars[4]? = some '-' ∧ x.chars[7]? = some '-' ∧
      x.chars[10]? = some 'T' ∧ x.chars[13]? = some ':' ∧ x.chars[16]? = some ':' ∧
      x.chars[19]? = some 'Z' := ⟨rfl,rfl,rfl,rfl,rfl,rfl,rfl⟩
  have hyear : x.chars.take 4 = padded 4 x.date.year := rfl
  have hmonth : (x.chars.drop 5).take 2 = padded 2 x.date.month := rfl
  have hday : (x.chars.drop 8).take 2 = padded 2 x.date.day := rfl
  have hhour : (x.chars.drop 11).take 2 = padded 2 x.hour := rfl
  have hminute : (x.chars.drop 14).take 2 = padded 2 x.minute := rfl
  have hsecond : (x.chars.drop 17).take 2 = padded 2 x.second := rfl
  rw [matchTimestamp,guard,if_pos hguard,hyear,hmonth,hday,hhour,hminute,hsecond,
    group_padded hdecimal hy,group_padded hdecimal hm,group_padded hdecimal hd,
    group_padded hdecimal hh,group_padded hdecimal hmn,group_padded hdecimal hs]
  rfl

theorem isDatetime_real (hx : x.Real) : isDatetime x = true := by
  obtain ⟨⟨hmonth,hday⟩,hyear,hhour,hminute,hsecond⟩ := hx
  simp only [isDatetime,Bool.and_eq_true,decide_eq_true_eq]
  omega

theorem validateTimestamp_accepted (hdecimal : ReadsAscii decimal) (member : String)
    (h : parseRfc3339Utc s = .ok t) : validateTimestamp decimal member (.string s) = .ok s := by
  obtain ⟨x,hx,rfl,-⟩ := parseRfc3339Utc_stamp h
  have hmatch : matchTimestamp decimal x.text.toList = some x := by
    rw [Stamp.text,@String.toList_ofList x.chars,matchTimestamp_text hdecimal hx]
  rw [validateTimestamp,hmatch]
  exact if_pos (isDatetime_real hx)

theorem parseRfc3339Utc_iff : parseRfc3339Utc s = .ok t ↔
    ∃ x : Stamp, x.Real ∧ s = x.text ∧ x.Epoch t := by
  constructor
  · exact parseRfc3339Utc_stamp
  · rintro ⟨x,hx,rfl,ht⟩
    exact stamp_parseRfc3339Utc hx ht

theorem parseRfc3339Utc_lt (h : parseRfc3339Utc s = .ok t) (h' : parseRfc3339Utc s' = .ok t') :
    s < s' ↔ t < t' := by
  obtain ⟨x,hx,rfl,ht⟩ := parseRfc3339Utc_stamp h
  obtain ⟨y,hy,rfl,ht'⟩ := parseRfc3339Utc_stamp h'
  exact epoch_lt_iff hx hy ht ht'

def AcceptedStamp (stamp : Option String) : Prop :=
  ∀ s, stamp = some s → ∃ t, parseRfc3339Utc s = .ok t

def SameWindow (decimal : Decimal) (doc : List (String × Value)) (notBefore expires : Option String) :
    Prop :=
  (validateWindow notBefore expires = .empty ∧ validateValidityWindow decimal doc = []) ∨
    (validateWindow notBefore expires =
        .error "/notBefore" "must be strictly before /expires" ∧
      validateValidityWindow decimal doc = [windowMessage])

theorem sameWindow (hdecimal : ReadsAscii decimal) {doc : List (String × Value)}
    {notBefore expires : Option String} (hnb : AcceptedStamp notBefore) (hexp : AcceptedStamp expires)
    (hdocnb : doc.lookup "notBefore" = notBefore.map .string)
    (hdocexp : doc.lookup "expires" = expires.map .string) :
    SameWindow decimal doc notBefore expires := by
  unfold SameWindow validateValidityWindow
  rw [hdocnb,hdocexp]
  cases notBefore with
  | none =>
    cases expires with
    | none => exact .inl ⟨rfl,rfl⟩
    | some exp =>
      obtain ⟨u,hu⟩ := hexp exp rfl
      have hpy := validateTimestamp_accepted hdecimal "expires" hu
      simp only [Option.map_none,Option.map_some,hpy]
      exact .inl ⟨rfl,rfl⟩
  | some nb =>
    obtain ⟨t,ht⟩ := hnb nb rfl
    have hpynb := validateTimestamp_accepted hdecimal "notBefore" ht
    cases expires with
    | none =>
      simp only [Option.map_none,Option.map_some,hpynb]
      exact .inl ⟨by rw [validateWindow,Option.map_some,ht]; rfl,rfl⟩
    | some exp =>
      obtain ⟨u,hu⟩ := hexp exp rfl
      have hpyexp := validateTimestamp_accepted hdecimal "expires" hu
      have horder := parseRfc3339Utc_lt ht hu
      simp only [Option.map_some,hpynb,hpyexp,validateWindow,ht,hu,ValidationReport.when]
      by_cases hlt : t < u
      · rw [if_pos (horder.mpr hlt)]
        exact .inl ⟨if_neg (by simpa using hlt),rfl⟩
      · rw [if_neg (mt horder.mp hlt)]
        exact .inr ⟨if_pos (by simpa using hlt),rfl⟩

theorem timestamps_exact (hdecimal : ReadsAscii decimal) :
    (∀ s t, parseRfc3339Utc s = .ok t ↔ ∃ x : Stamp, x.Real ∧ s = x.text ∧ x.Epoch t) ∧
    (∀ s, parseSliced s = returns (parseRfc3339Utc s)) ∧
    (∀ s s' t t', parseRfc3339Utc s = .ok t → parseRfc3339Utc s' = .ok t' → (s < s' ↔ t < t')) ∧
    ∀ doc notBefore expires, AcceptedStamp notBefore → AcceptedStamp expires →
      doc.lookup "notBefore" = notBefore.map .string →
      doc.lookup "expires" = expires.map .string → SameWindow decimal doc notBefore expires :=
  ⟨fun _ _ => parseRfc3339Utc_iff,parseSliced_eq,fun _ _ _ _ => parseRfc3339Utc_lt,
    fun _ _ _ => sameWindow hdecimal⟩

def asciiDecimal : Decimal := fun c => if c.isDigit then some (c.toNat - 48) else none

theorem timestamps_exact_window : ReadsAscii asciiDecimal ∧
    SameWindow asciiDecimal
      [("notBefore",.string "1999-12-31T23:59:59Z"),("expires",.string "2000-01-01T00:00:00Z")]
      (some "1999-12-31T23:59:59Z") (some "2000-01-01T00:00:00Z") := by
  have hascii : ReadsAscii asciiDecimal := fun c hc => if_pos hc
  have hnb : AcceptedStamp (some "1999-12-31T23:59:59Z") := by
    rintro s hs
    obtain rfl := Option.some.inj hs
    exact ⟨946684799,by decide +kernel⟩
  have hexp : AcceptedStamp (some "2000-01-01T00:00:00Z") := by
    rintro s hs
    obtain rfl := Option.some.inj hs
    exact ⟨946684800,by decide +kernel⟩
  exact ⟨hascii,(timestamps_exact hascii).2.2.2 _ _ _ hnb hexp rfl rfl⟩

end Read

end MurlSystem

import MurlSystem.Canonical.Written

namespace MurlSystem

def charSpelling (c : Char) : List Char :=
  if 0x20 ≤ c.toNat ∧ c.toNat ≠ 34 ∧ c.toNat ≠ 92 then [c] else (escapeChar c).toList

def textSpelling (s : String) : List Char := '"' :: (s.toList.flatMap charSpelling ++ ['"'])

mutual

def spelling : Value → Except String (List Char)
  | .null => (writeValue .null).map String.toList
  | .bool b => (writeValue (.bool b)).map String.toList
  | .number n => (writeValue (.number n)).map String.toList
  | .string s => .ok (textSpelling s)
  | .array items => do
    let parts ← itemSpellings items
    return '[' :: ([','].intercalate parts ++ [']'])
  | .object members => do
    let parts ← memberSpellings members
    return '\x7b' :: ([','].intercalate parts ++ ['\x7d'])

def itemSpellings : List Value → Except String (List (List Char))
  | [] => .ok []
  | v :: rest => do
    let v ← spelling v
    let rest ← itemSpellings rest
    return v :: rest

def memberSpellings : List (String × Value) → Except String (List (List Char))
  | [] => .ok []
  | (k,v) :: rest => do
    let v ← spelling v
    let rest ← memberSpellings rest
    return (textSpelling k ++ ':' :: v) :: rest

end

theorem charSpelling_eq (c : Char) : charSpelling c = (escapeChar c).toList := by
  unfold charSpelling
  split
  · next h =>
    obtain ⟨hlow,hquote,hback⟩ := h
    have hc : ∀ x : Char, x.toNat < 0x20 ∨ x.toNat = 34 ∨ x.toNat = 92 → c ≠ x := by
      rintro x hx rfl
      omega
    have hc' : ∀ n, n < 0x20 → c.toNat ≠ n := by omega
    rw [escapeChar,if_neg (hc '"' (by decide)),if_neg (hc '\\' (by decide)),
      if_neg (hc' 8 (by decide)),if_neg (hc' 12 (by decide)),if_neg (hc '\n' (by decide)),
      if_neg (hc '\r' (by decide)),if_neg (hc '\t' (by decide)),if_neg (not_lt.mpr hlow)]
    simp
  · rfl

theorem textSpelling_eq (s : String) : textSpelling s = (writeString s).toList := by
  rw [textSpelling,Serde.writeString_toList,Serde.escaped,funext charSpelling_eq]

theorem joined_spelling (parts : List String) :
    [','].intercalate (parts.map String.toList) = (",".intercalate parts).toList := by
  rw [String.toList_intercalate]
  rfl

mutual

theorem spelling_eq : ∀ v : Value, spelling v = (writeValue v).map String.toList
  | .null => rfl
  | .bool _ => rfl
  | .number _ => rfl
  | .string s => congrArg Except.ok (textSpelling_eq s)
  | .array items => by
    rw [spelling,writeValue,itemSpellings_eq items]
    cases writeItems items with
    | error e => rfl
    | ok parts =>
      change Except.ok _ = Except.ok _
      rw [String.toList_append,String.toList_append,← joined_spelling]
      rfl
  | .object members => by
    rw [spelling,writeValue,memberSpellings_eq members]
    cases writeMembers members with
    | error e => rfl
    | ok parts =>
      change Except.ok _ = Except.ok _
      rw [String.toList_append,String.toList_append,← joined_spelling]
      rfl

theorem itemSpellings_eq : ∀ items : List Value,
    itemSpellings items = (writeItems items).map (List.map String.toList)
  | [] => rfl
  | v :: rest => by
    rw [itemSpellings,writeItems,spelling_eq v,itemSpellings_eq rest]
    cases writeValue v with
    | error e => rfl
    | ok text => cases writeItems rest <;> rfl

theorem memberSpellings_eq : ∀ members : List (String × Value),
    memberSpellings members = (writeMembers members).map (List.map String.toList)
  | [] => rfl
  | (k,v) :: rest => by
    rw [memberSpellings,writeMembers,spelling_eq v,memberSpellings_eq rest,textSpelling_eq]
    cases writeValue v with
    | error e => rfl
    | ok text =>
      cases writeMembers rest with
      | error e => rfl
      | ok parts =>
        change Except.ok _ = Except.ok _
        rw [List.map_cons,String.toList_append,String.toList_append,List.append_assoc]
        rfl

end

def compactBytes (v : Value) : List UInt8 :=
  ((spelling v).toOption.getD []).flatMap String.utf8EncodeChar

theorem canonicalJsonBytes_compact (v : Value) :
    (canonicalJsonBytes v).toOption.getD [] = compactBytes v := by
  rw [canonicalJsonBytes,compactBytes,spelling_eq]
  cases writeValue v <;> rfl

end MurlSystem

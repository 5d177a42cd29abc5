import MurlSystem.Canonical.Lossless
import MurlSystem.Foundation.Split

namespace MurlSystem

section CompactFormatter

mutual

def compact : Value → String
  | .null => "null"
  | .bool true => "true"
  | .bool false => "false"
  | .number n => n.toString
  | .string s => writeString s
  | .array items => "[" ++ ",".intercalate (compactItems items) ++ "]"
  | .object members => "\x7b" ++ ",".intercalate (compactMembers members) ++ "\x7d"

def compactItems : List Value → List String
  | [] => []
  | v :: rest => compact v :: compactItems rest

def compactMembers : List (String × Value) → List String
  | [] => []
  | (k,v) :: rest => (writeString k ++ ":" ++ compact v) :: compactMembers rest

end

end CompactFormatter

namespace Serde

structure Printable (v : Value) : Prop where
  token : Token maxNesting v
  integral : Integral v

section Canonical

mutual

theorem compact_canonical : ∀ {v : Value} {text : String}, writeValue v = .ok text → compact v = text
  | .null,text,h => Except.ok.inj h
  | .bool true,text,h => Except.ok.inj h
  | .bool false,text,h => Except.ok.inj h
  | .number n,text,h => by
    obtain ⟨i,rfl,-,-,rfl⟩ := writeValue_number.mp h
    rfl
  | .string s,text,h => Except.ok.inj h
  | .array items,text,h => by
    simp only [writeValue,Fallible.bind_ok,Fallible.pure_ok] at h
    obtain ⟨parts,hparts,rfl⟩ := h
    rw [compact,compactItems_canonical hparts]
  | .object members,text,h => by
    simp only [writeValue,Fallible.bind_ok,Fallible.pure_ok] at h
    obtain ⟨parts,hparts,rfl⟩ := h
    rw [compact,compactMembers_canonical hparts]

theorem compactItems_canonical : ∀ {items : List Value} {parts : List String},
    writeItems items = .ok parts → compactItems items = parts
  | [],parts,h => Except.ok.inj h
  | v :: rest,parts,h => by
    simp only [writeItems,Fallible.bind_ok,Fallible.pure_ok] at h
    obtain ⟨text,hv,parts',hrest,rfl⟩ := h
    rw [compactItems,compact_canonical hv,compactItems_canonical hrest]

theorem compactMembers_canonical : ∀ {members : List (String × Value)} {parts : List String},
    writeMembers members = .ok parts → compactMembers members = parts
  | [],parts,h => Except.ok.inj h
  | (k,v) :: rest,parts,h => by
    simp only [writeMembers,Fallible.bind_ok,Fallible.pure_ok] at h
    obtain ⟨text,hv,parts',hrest,rfl⟩ := h
    rw [compactMembers,compact_canonical hv,compactMembers_canonical hrest]

end

variable {f64 : List Char → Option String} {v : Value}

theorem Integral.written (h : Integral v) : writeValue v = .ok (compact v) := by
  obtain ⟨text,htext⟩ := (writeValue_iff v).mpr h
  rw [htext,compact_canonical htext]

theorem Printable.tokens (h : Printable v) : readTokens f64 (Text.bytes (compact v)) = some v :=
  readTokens_written h.token (Fallible.map_ok.mpr ⟨_,h.integral.written,rfl⟩)

end Canonical

section Unbroken

def Unbroken (text : String) : Prop := ∀ c ∈ text.toList, 0x20 ≤ c.toNat

instance (text : String) : Decidable (Unbroken text) :=
  List.decidableBAll (fun c : Char => 0x20 ≤ c.toNat) text.toList

theorem Unbroken.append {a b : String} (ha : Unbroken a) (hb : Unbroken b) : Unbroken (a ++ b) := by
  intro c hc
  rw [String.toList_append] at hc
  exact (List.mem_append.mp hc).elim (ha c) (hb c)

theorem Unbroken.intercalate {parts : List String} (h : ∀ part ∈ parts, Unbroken part) :
    Unbroken (",".intercalate parts) := by
  intro c hc
  rw [toList_comma] at hc
  rcases Text.mem_intercalate hc with rfl | ⟨p,hp,hcp⟩
  · decide
  · obtain ⟨part,hpart,rfl⟩ := List.mem_map.mp hp
    exact h part hpart c hcp

theorem digitChar_plain : ∀ n < 16, 0x20 ≤ (Nat.digitChar n).toNat := by decide

theorem escapeChar_unbroken (c : Char) : Unbroken (escapeChar c) := by
  have hshort : ∀ s ∈ ["\\\"","\\\\","\\b","\\f","\\n","\\r","\\t"], Unbroken s := by decide
  rw [escapeChar]
  split
  · exact hshort _ (by simp)
  split
  · exact hshort _ (by simp)
  split
  · exact hshort _ (by simp)
  split
  · exact hshort _ (by simp)
  split
  · exact hshort _ (by simp)
  split
  · exact hshort _ (by simp)
  split
  · exact hshort _ (by simp)
  split
  · rename_i hc
    have hlead : Unbroken "\\u00" := by decide
    have hdigit : ∀ n < 16, Unbroken (Nat.digitChar n).toString := by
      intro n hn d hd
      have hone : d = Nat.digitChar n := by simpa using hd
      rw [hone]
      exact digitChar_plain n hn
    exact (hlead.append (hdigit _ (by omega))).append (hdigit _ (by omega))
  · rename_i hlow
    intro d hd
    have hone : d = c := by simpa using hd
    rw [hone]
    exact Nat.le_of_not_lt hlow

theorem writeString_unbroken (s : String) : Unbroken (writeString s) := by
  intro c hc
  rw [writeString_toList,escaped] at hc
  rcases List.mem_cons.mp hc with rfl | hc
  · decide
  · rcases List.mem_append.mp hc with hc | hc
    · obtain ⟨d,-,hd⟩ := List.mem_flatMap.mp hc
      exact escapeChar_unbroken d c hd
    · rw [List.mem_singleton.mp hc]
      decide

theorem toString_unbroken (i : Int) : Unbroken (toString i) := by
  have hdigits : ∀ d ∈ Nat.toDigits 10 i.natAbs, 0x20 ≤ d.toNat := by
    intro d hd
    have hbounds := Numeral.digit_bounds ((Numeral.plain_toDigits i.natAbs).digits d hd)
    omega
  intro c hc
  rw [Rfc8259.toString_int] at hc
  split at hc
  · rcases List.mem_cons.mp hc with rfl | hc
    · decide
    · exact hdigits c hc
  · exact hdigits c hc

theorem unbroken_bracketed {a b : String} {parts : List String} (ha : Unbroken a) (hb : Unbroken b)
    (h : ∀ part ∈ parts, Unbroken part) : Unbroken (a ++ ",".intercalate parts ++ b) :=
  (ha.append (Unbroken.intercalate h)).append hb

mutual

theorem compact_unbroken : ∀ {v : Value}, Integral v → Unbroken (compact v)
  | .null,_ => by decide
  | .bool true,_ => by decide
  | .bool false,_ => by decide
  | .number n,h => by
    obtain ⟨i,rfl⟩ := integer_of_some (h n (by simp [numbers]))
    exact toString_unbroken i
  | .string s,_ => writeString_unbroken s
  | .array items,h =>
    unbroken_bracketed (by decide) (by decide) (compactItems_unbroken h)
  | .object members,h =>
    unbroken_bracketed (by decide) (by decide) (compactMembers_unbroken h)

theorem compactItems_unbroken : ∀ {items : List Value},
    (∀ n ∈ numbersItems items, n.asI64.isSome ∨ n.asU64.isSome) →
      ∀ part ∈ compactItems items, Unbroken part
  | [],_ => List.forall_mem_nil _
  | v :: rest,h => by
    rw [numbersItems,List.forall_mem_append] at h
    exact List.forall_mem_cons.mpr ⟨compact_unbroken h.1,compactItems_unbroken h.2⟩

theorem compactMembers_unbroken : ∀ {members : List (String × Value)},
    (∀ n ∈ numbersMembers members, n.asI64.isSome ∨ n.asU64.isSome) →
      ∀ part ∈ compactMembers members, Unbroken part
  | [],_ => List.forall_mem_nil _
  | (k,v) :: rest,h => by
    rw [numbersMembers,List.forall_mem_append] at h
    have hcolon : Unbroken ":" := by decide
    exact List.forall_mem_cons.mpr ⟨((writeString_unbroken k).append hcolon).append (compact_unbroken h.1),
      compactMembers_unbroken h.2⟩

end

end Unbroken

end Serde

end MurlSystem

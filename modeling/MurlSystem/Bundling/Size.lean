import Mathlib.Algebra.BigOperators.Group.List.Defs
import Mathlib.Algebra.GroupWithZero.Nat
import MurlSystem.Bundling.Printed
import MurlSystem.Foundation.Base64

namespace MurlSystem

section Sizes

def charSize (c : Char) : Nat :=
  if c = '"' ∨ c = '\\' ∨ c.toNat = 0x08 ∨ c.toNat = 0x0c ∨ c = '\n' ∨ c = '\r' ∨ c = '\t' then 2
  else if c.toNat < 0x20 then 6
  else c.utf8Size

def textSize (s : String) : Nat := (s.toList.map charSize).sum + 2

def optionalSize (overhead : Nat) (o : Option String) : Nat :=
  match o with
  | some s => overhead + textSize s
  | none => 0

def BundleEntry.printedSize (e : BundleEntry) : Nat :=
  66 + optionalSize 20 e.identity + textSize e.name + textSize e.integrity + textSize e.bytes

def Bundle.printedSize (b : Bundle) : Nat :=
  43 + textSize b.bundleVersion + optionalSize 12 b.root +
    (b.entries.map BundleEntry.printedSize).sum

theorem size_toString (c : Char) : c.toString.utf8ByteSize = c.utf8Size :=
  String.utf8ByteSize_singleton

theorem size_digit : ∀ n < 16, (Nat.digitChar n).utf8Size = 1 := by decide

theorem size_escapeChar (c : Char) : (escapeChar c).utf8ByteSize = charSize c := by
  rw [escapeChar,charSize]
  by_cases h1 : c = '"'
  · rw [if_pos h1,if_pos (.inl h1)]
    rfl
  by_cases h2 : c = '\\'
  · rw [if_neg h1,if_pos h2,if_pos (.inr (.inl h2))]
    rfl
  by_cases h3 : c.toNat = 0x08
  · rw [if_neg h1,if_neg h2,if_pos h3,if_pos (.inr (.inr (.inl h3)))]
    rfl
  by_cases h4 : c.toNat = 0x0c
  · rw [if_neg h1,if_neg h2,if_neg h3,if_pos h4,if_pos (by simp [h4])]
    rfl
  by_cases h5 : c = '\n'
  · rw [if_neg h1,if_neg h2,if_neg h3,if_neg h4,if_pos h5,if_pos (by simp [h5])]
    rfl
  by_cases h6 : c = '\r'
  · rw [if_neg h1,if_neg h2,if_neg h3,if_neg h4,if_neg h5,if_pos h6,if_pos (by simp [h6])]
    rfl
  by_cases h7 : c = '\t'
  · rw [if_neg h1,if_neg h2,if_neg h3,if_neg h4,if_neg h5,if_neg h6,if_pos h7,if_pos (by simp [h7])]
    rfl
  have hlong : ¬(c = '"' ∨ c = '\\' ∨ c.toNat = 0x08 ∨ c.toNat = 0x0c ∨ c = '\n' ∨ c = '\r' ∨
      c = '\t') := by
    simp [h1,h2,h3,h4,h5,h6,h7]
  rw [if_neg h1,if_neg h2,if_neg h3,if_neg h4,if_neg h5,if_neg h6,if_neg h7,if_neg hlong]
  split
  · rename_i hlow
    have hmark : "\\u00".utf8ByteSize = 4 := rfl
    rw [String.utf8ByteSize_append,String.utf8ByteSize_append,size_toString,size_toString,hmark,
      size_digit _ (by omega),size_digit _ (by omega)]
  · exact size_toString c

theorem size_foldl (cs : List Char) (out : String) :
    (cs.foldl (fun out c => out ++ escapeChar c) out).utf8ByteSize =
      out.utf8ByteSize + (cs.map charSize).sum := by
  induction cs generalizing out with
  | nil => simp
  | cons c cs ih =>
    rw [List.foldl_cons,ih,String.utf8ByteSize_append,size_escapeChar,List.map_cons,List.sum_cons,
      Nat.add_assoc]

theorem size_writeString (s : String) : (writeString s).utf8ByteSize = textSize s := by
  have hquote : "\"".utf8ByteSize = 1 := rfl
  rw [writeString,String.utf8ByteSize_append,String.utf8ByteSize_append,size_foldl,hquote,textSize]
  have hempty : "".utf8ByteSize = 0 := rfl
  omega

theorem size_plain (n : Nat) : textSize (String.ofList (List.replicate n 'x')) = n + 2 := by
  have hchar : charSize 'x' = 1 := by decide
  rw [textSize,String.toList_ofList,List.map_replicate,hchar,List.sum_replicate_nat,Nat.mul_one]

theorem charSize_sextet : ∀ n < 64, charSize (Base64.sextet n) = 1 := by decide

theorem textSize_base64 (b : Bytes) :
    textSize (String.ofList (Base64.encode b)) = (b.length + 2) / 3 * 4 + 2 := by
  have hone : ∀ c ∈ Base64.encode b, charSize c = 1 := by
    intro c hc
    rcases Base64.encode_chars hc with rfl | ⟨n,hn,rfl⟩
    · rfl
    · exact charSize_sextet n hn
  rw [textSize,String.toList_ofList,List.map_congr_left hone,List.map_const',List.sum_replicate,
    Base64.length_encode]
  simp

theorem size_makeIntegrity {crates : Crates} {b : Bytes}
    (base64 : ∀ b, crates.base64Encode b = String.ofList (Base64.encode b))
    (hash : (crates.sha256 b).length = 32) : textSize (makeIntegrity crates b) = 53 := by
  have hlist : (makeIntegrity crates b).toList =
      "sha256-".toList ++ (crates.base64Encode (crates.sha256 b)).toList := by
    simp [makeIntegrity,toString]
  have hlead : ("sha256-".toList.map charSize).sum = 7 := rfl
  have hpayload := textSize_base64 (crates.sha256 b)
  rw [← base64,hash,textSize] at hpayload
  rw [textSize,hlist,List.map_append,List.sum_append,hlead]
  omega

theorem size_intercalate (parts : List String) : (",".intercalate parts).utf8ByteSize =
    (parts.map String.utf8ByteSize).sum + (parts.length - 1) := by
  induction parts with
  | nil => rfl
  | cons p rest ih =>
    cases rest with
    | nil => simp
    | cons q rest =>
      have hcomma : ",".utf8ByteSize = 1 := rfl
      rw [String.intercalate_cons_cons,String.utf8ByteSize_append,String.utf8ByteSize_append,ih,
        hcomma]
      simp
      omega

theorem size_spaces (n : Nat) : (String.ofList (List.replicate n ' ')).utf8ByteSize = n := by
  have hascii : ∀ c ∈ (String.ofList (List.replicate n ' ')).toList, Text.isAscii c = true := by
    intro c hc
    rw [String.toList_ofList] at hc
    obtain rfl := (List.mem_replicate.mp hc).2
    decide
  rw [Text.size_ascii hascii,String.toList_ofList,List.length_replicate]

theorem size_indentation (depth : Nat) : (indentation depth).utf8ByteSize = 2 * depth + 1 := by
  have hline : "\n".utf8ByteSize = 1 := rfl
  rw [indentation,String.utf8ByteSize_append,size_spaces,hline,Nat.add_comm]

theorem size_lead (depth : Nat) (parts : List String) :
    ((parts.map fun part => indentation depth ++ part).map String.utf8ByteSize).sum =
      (parts.map String.utf8ByteSize).sum + parts.length * (2 * depth + 1) := by
  induction parts with
  | nil => simp
  | cons p rest ih =>
    simp only [List.map_cons,List.sum_cons,ih,String.utf8ByteSize_append,size_indentation,
      List.length_cons,Nat.add_mul]
    omega

theorem size_prettySeq (a b : String) (depth : Nat) {parts : List String} (hne : parts ≠ []) :
    (prettySeq a b depth parts).utf8ByteSize = a.utf8ByteSize + b.utf8ByteSize +
      (parts.map String.utf8ByteSize).sum + parts.length * (2 * depth + 4) + 2 * depth := by
  have hsome : parts.isEmpty = false := by simpa using hne
  have hpos := List.length_pos_of_ne_nil hne
  simp only [prettySeq,String.utf8ByteSize_append,size_intercalate,size_lead,List.length_map,hsome,
    Bool.false_eq_true,if_false,size_indentation,Nat.mul_add]
  omega

theorem size_member (k : String) (v : String) : (writeString k ++ ": " ++ v).utf8ByteSize =
    textSize k + v.utf8ByteSize + 2 := by
  have hcolon : ": ".utf8ByteSize = 2 := rfl
  rw [String.utf8ByteSize_append,String.utf8ByteSize_append,size_writeString,hcolon]
  omega

theorem size_entry (e : BundleEntry) : (pretty 2 e.toValue).utf8ByteSize + 6 = e.printedSize := by
  obtain ⟨identity,name,integrity,bytes⟩ := e
  have hopen : "\x7b".utf8ByteSize = 1 := rfl
  have hclose : "\x7d".utf8ByteSize = 1 := rfl
  have hidentity : textSize "identity" = 10 := rfl
  have hname : textSize "name" = 6 := rfl
  have hintegrity : textSize "integrity" = 11 := rfl
  have hbytes : textSize "bytes" = 7 := rfl
  cases identity with
  | none =>
    simp only [BundleEntry.toValue,optionalMember,List.nil_append,pretty,prettyMembers]
    rw [size_prettySeq _ _ _ (by simp)]
    simp only [List.map_cons,List.map_nil,List.sum_cons,List.sum_nil,size_member,size_writeString,
      List.length_cons,List.length_nil,hopen,hclose,hname,hintegrity,hbytes,
      BundleEntry.printedSize,optionalSize]
    omega
  | some identity =>
    simp only [BundleEntry.toValue,optionalMember,List.cons_append,List.nil_append,pretty,
      prettyMembers]
    rw [size_prettySeq _ _ _ (by simp)]
    simp only [List.map_cons,List.map_nil,List.sum_cons,List.sum_nil,size_member,size_writeString,
      List.length_cons,List.length_nil,hopen,hclose,hidentity,hname,hintegrity,hbytes,
      BundleEntry.printedSize,optionalSize]
    omega

theorem size_entries (es : List BundleEntry) :
    ((prettyItems 2 (es.map BundleEntry.toValue)).map String.utf8ByteSize).sum + es.length * 6 =
      (es.map BundleEntry.printedSize).sum := by
  induction es with
  | nil => rfl
  | cons e rest ih =>
    simp only [List.map_cons,prettyItems,List.sum_cons,List.length_cons,← ih,← size_entry e]
    omega

theorem length_prettyItems (depth : Nat) (vs : List Value) :
    (prettyItems depth vs).length = vs.length := by
  induction vs with
  | nil => rfl
  | cons v rest ih => rw [prettyItems,List.length_cons,List.length_cons,ih]

theorem size_bundle {b : Bundle} (hne : b.entries ≠ []) :
    b.toJsonBytes.length = b.printedSize := by
  obtain ⟨version,root,entries⟩ := b
  have hopen : "\x7b".utf8ByteSize = 1 := rfl
  have hclose : "\x7d".utf8ByteSize = 1 := rfl
  have hbracket : "[".utf8ByteSize = 1 := rfl
  have hbracket' : "]".utf8ByteSize = 1 := rfl
  have hline : "\n".utf8ByteSize = 1 := rfl
  have hversion : textSize "bundleVersion" = 15 := rfl
  have hroot : textSize "root" = 6 := rfl
  have hentries : textSize "entries" = 9 := rfl
  have hparts : prettyItems 2 (entries.map BundleEntry.toValue) ≠ [] := by
    obtain ⟨e,rest,rfl⟩ := List.exists_cons_of_ne_nil hne
    simp [prettyItems]
  have hsum := size_entries entries
  have harray := size_prettySeq "[" "]" 1 hparts
  rw [length_prettyItems,List.length_map] at harray
  rw [Bundle.toJsonBytes,Text.length_bytes,String.utf8ByteSize_append]
  cases root with
  | none =>
    simp only [Bundle.toValue,optionalMember,List.nil_append,pretty,prettyMembers]
    rw [size_prettySeq _ _ _ (by simp)]
    simp only [List.map_cons,List.map_nil,List.sum_cons,List.sum_nil,size_member,size_writeString,
      List.length_cons,List.length_nil,harray,hopen,hclose,hbracket,hbracket',hline,hversion,
      hentries,Bundle.printedSize,optionalSize]
    omega
  | some root =>
    simp only [Bundle.toValue,optionalMember,List.cons_append,List.nil_append,pretty,prettyMembers]
    rw [size_prettySeq _ _ _ (by simp)]
    simp only [List.map_cons,List.map_nil,List.sum_cons,List.sum_nil,size_member,size_writeString,
      List.length_cons,List.length_nil,harray,hopen,hclose,hbracket,hbracket',hline,hversion,hroot,
      hentries,Bundle.printedSize,optionalSize]
    omega

def framedSize (depth count total : Nat) : Nat :=
  if count = 0 then 2 else 2 + total + count * (2 * depth + 4) + 2 * depth

mutual

def shownSize (depth : Nat) : Value → Nat
  | .null => 4
  | .bool true => 4
  | .bool false => 5
  | .number n => n.toString.utf8ByteSize
  | .string s => textSize s
  | .array items => framedSize depth items.length (itemsSize (depth + 1) items)
  | .object members => framedSize depth members.length (membersSize (depth + 1) members)

def itemsSize (depth : Nat) : List Value → Nat
  | [] => 0
  | v :: rest => shownSize depth v + itemsSize depth rest

def membersSize (depth : Nat) : List (String × Value) → Nat
  | [] => 0
  | (k,v) :: rest => textSize k + shownSize depth v + 2 + membersSize depth rest

end

theorem length_prettyMembers (depth : Nat) (ms : List (String × Value)) :
    (prettyMembers depth ms).length = ms.length := by
  induction ms with
  | nil => rfl
  | cons m rest ih => rw [prettyMembers,List.length_cons,List.length_cons,ih]

theorem size_framed {a b : String} (ha : a.utf8ByteSize = 1) (hb : b.utf8ByteSize = 1) (depth : Nat)
    (parts : List String) : (prettySeq a b depth parts).utf8ByteSize =
      framedSize depth parts.length (parts.map String.utf8ByteSize).sum := by
  by_cases hparts : parts = []
  · subst hparts
    have hempty : "".utf8ByteSize = 0 := rfl
    simp [prettySeq,framedSize,ha,hb,String.utf8ByteSize_append]
  · have hcount : parts.length ≠ 0 := fun h => hparts (List.length_eq_zero_iff.mp h)
    rw [size_prettySeq _ _ _ hparts,framedSize,if_neg hcount,ha,hb]

mutual

theorem size_pretty : ∀ (v : Value) (depth : Nat),
    (pretty depth v).utf8ByteSize = shownSize depth v
  | .null,_ => rfl
  | .bool true,_ => rfl
  | .bool false,_ => rfl
  | .number _,_ => rfl
  | .string s,_ => size_writeString s
  | .array items,depth => by
    rw [pretty,size_framed rfl rfl,length_prettyItems,size_prettyItems items,shownSize]
  | .object members,depth => by
    rw [pretty,size_framed rfl rfl,length_prettyMembers,size_prettyMembers members,shownSize]

theorem size_prettyItems : ∀ (vs : List Value) (depth : Nat),
    ((prettyItems depth vs).map String.utf8ByteSize).sum = itemsSize depth vs
  | [],_ => rfl
  | v :: rest,depth => by
    rw [prettyItems,List.map_cons,List.sum_cons,size_pretty v,size_prettyItems rest,itemsSize]

theorem size_prettyMembers : ∀ (ms : List (String × Value)) (depth : Nat),
    ((prettyMembers depth ms).map String.utf8ByteSize).sum = membersSize depth ms
  | [],_ => rfl
  | (k,v) :: rest,depth => by
    rw [prettyMembers,List.map_cons,List.sum_cons,size_member,size_pretty v,
      size_prettyMembers rest,membersSize]

end

theorem membersSize_eq (depth : Nat) (ms : List (String × Value)) : membersSize depth ms =
    (ms.map fun m => textSize m.1 + shownSize depth m.2 + 2).sum := by
  induction ms with
  | nil => rfl
  | cons m rest ih => rw [membersSize,ih,List.map_cons,List.sum_cons]

theorem entry_printed (identity name integrity payload : String) :
    BundleEntry.printedSize ⟨some identity,name,integrity,payload⟩ =
      86 + textSize identity + textSize name + textSize integrity + textSize payload := by
  simp only [BundleEntry.printedSize,optionalSize]
  omega

theorem pair_printed {b : Bundle} {version root : String} {e e' : BundleEntry}
    (hversion : b.bundleVersion = version) (hroot : b.root = some root)
    (hentries : b.entries = [e,e']) :
    b.printedSize = 55 + textSize version + textSize root + (e.printedSize + e'.printedSize) := by
  rw [Bundle.printedSize,hversion,hroot,hentries,optionalSize]
  simp only [List.map_cons,List.map_nil,List.sum_cons,List.sum_nil]
  omega

end Sizes

end MurlSystem

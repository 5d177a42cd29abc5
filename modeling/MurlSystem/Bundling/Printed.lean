import MurlSystem.Core.Bundle
import MurlSystem.Canonical.Lossless

namespace MurlSystem

open Rfc8259

section Pretty

theorem indentation_toList (depth : Nat) :
    (indentation depth).toList = '\n' :: List.replicate (2 * depth) ' ' := by
  simp [indentation]

theorem indentation_blank (depth : Nat) : Rfc8259.Blank (indentation depth).toList := by
  rw [indentation_toList]
  refine List.forall_mem_cons.mpr ⟨by decide,fun c hc => ?_⟩
  obtain rfl := (List.mem_replicate.mp hc).2
  decide

def trailing (depth : Nat) (parts : List String) : String :=
  if parts.isEmpty then "" else indentation depth

theorem trailing_blank (depth : Nat) (parts : List String) :
    Rfc8259.Blank (trailing depth parts).toList := by
  rw [trailing]
  split
  · exact blank_nil
  · exact indentation_blank depth

theorem prettySeq_toList (a b : String) (depth : Nat) (parts : List String) :
    (prettySeq a b depth parts).toList = a.toList ++ ([','].intercalate
      ((parts.map String.toList).map ((indentation (depth + 1)).toList ++ ·)) ++
        (trailing depth parts).toList ++ b.toList) := by
  have hcomma : ",".toList = [','] := rfl
  simp [prettySeq,trailing,String.toList_intercalate,hcomma,Function.comp_def]

theorem prettySeq_array {vs : List Raw} {parts : List String} (depth : Nat)
    (h : List.Forall₂ (fun v part => Writes v part.toList) vs parts) :
    Writes (.array vs) (prettySeq "[" "]" depth parts).toList := by
  have hws : List.Forall₂ Writes vs (parts.map String.toList) := by
    rwa [List.forall₂_map_right_iff]
  rw [prettySeq_toList]
  exact writes_array (indentation_blank _) (trailing_blank depth parts) hws

theorem blank_space : Rfc8259.Blank [' '] := by
  intro c hc
  obtain rfl := List.mem_singleton.mp hc
  decide

theorem prettySeq_object {ms : List (List Nat × Raw)} {parts : List String} (depth : Nat)
    (h : List.Forall₂ (fun m part => MemberText [' '] m part.toList) ms parts) :
    Writes (.object ms) (prettySeq "\x7b" "\x7d" depth parts).toList := by
  have hws : List.Forall₂ (MemberText [' ']) ms (parts.map String.toList) := by
    rwa [List.forall₂_map_right_iff]
  rw [prettySeq_toList]
  exact writes_object (indentation_blank _) blank_space (trailing_blank depth parts) hws

theorem pretty_member (k : String) {v : Raw} {text : String} (h : Writes v text.toList) :
    MemberText [' '] (Serde.points k,v) (writeString k ++ ": " ++ text).toList := by
  refine ⟨Serde.points k,Serde.escaped k,text.toList,(Serde.combine_points k).symm,
    Serde.escaped_chars k,h,?_⟩
  rw [String.toList_append,String.toList_append,Serde.writeString_toList]
  simp

def Plain (n : Number) : Prop := ∃ i, n = .int i

mutual

theorem pretty_writes : ∀ (v : Value) (depth : Nat), (∀ n ∈ Serde.numbers v, Plain n) →
    Writes (Serde.written v) (pretty depth v).toList
  | .null,depth,_ => by
    rw [pretty]
    exact .null
  | .bool true,depth,_ => by
    rw [pretty]
    exact .true
  | .bool false,depth,_ => by
    rw [pretty]
    exact .false
  | .number n,depth,h => by
    obtain ⟨i,rfl⟩ := h n (by simp [Serde.numbers])
    exact .number _ (number_int i)
  | .string s,depth,_ => Serde.writeString_writes s
  | .array items,depth,h => prettySeq_array depth (prettyItems_writes items _ h)
  | .object members,depth,h => prettySeq_object depth (prettyMembers_writes members _ h)

theorem prettyItems_writes : ∀ (items : List Value) (depth : Nat),
    (∀ n ∈ Serde.numbersItems items, Plain n) →
      List.Forall₂ (fun v part => Writes v part.toList) (Serde.writtenItems items)
        (prettyItems depth items)
  | [],depth,_ => .nil
  | v :: rest,depth,h => by
    rw [Serde.numbersItems,List.forall_mem_append] at h
    exact .cons (pretty_writes v depth h.1) (prettyItems_writes rest depth h.2)

theorem prettyMembers_writes : ∀ (members : List (String × Value)) (depth : Nat),
    (∀ n ∈ Serde.numbersMembers members, Plain n) →
      List.Forall₂ (fun m part => MemberText [' '] m part.toList) (Serde.writtenMembers members)
        (prettyMembers depth members)
  | [],depth,_ => .nil
  | (k,v) :: rest,depth,h => by
    rw [Serde.numbersMembers,List.forall_mem_append] at h
    exact .cons (pretty_member k (pretty_writes v depth h.1)) (prettyMembers_writes rest depth h.2)

end

theorem pretty_document {v : Value} {tail : String} (h : ∀ n ∈ Serde.numbers v, Plain n)
    (htail : Rfc8259.Blank tail.toList) :
    Serde.document (Text.bytes (pretty 0 v ++ tail)) = some (Serde.written v) := by
  have hread : read (pretty 0 v ++ tail).toList = some (Serde.written v) := by
    apply read_complete
    exact ⟨[],(pretty 0 v).toList,tail.toList,by simp,blank_nil,pretty_writes v 0 h,htail⟩
  rw [Serde.document,Text.fromUTF8_eq_some.mpr rfl]
  exact hread

theorem integral_plain {v : Value} (h : Serde.Integral v) : ∀ n ∈ Serde.numbers v, Plain n :=
  fun n hn => Serde.integer_of_some (h n hn)

theorem newline_blank : Rfc8259.Blank "\n".toList := by
  intro c hc
  obtain rfl := List.mem_singleton.mp hc
  decide

theorem pretty_tokens {f64 : List Char → Option String} {v : Value} {tail : String}
    (htail : Rfc8259.Blank tail.toList) (htoken : Serde.Token Serde.maxNesting v)
    (hint : Serde.Integral v) :
    Serde.readTokens f64 (Text.bytes (pretty 0 v ++ tail)) = some v := by
  have hdepth : ¬Serde.maxNesting < Serde.depth (Serde.written v) :=
    Nat.not_lt.mpr (Serde.depth_written htoken)
  rw [Serde.readTokens,pretty_document (integral_plain hint) htail]
  simp only [Option.bind_eq_bind,Option.bind_some,if_neg hdepth]
  exact Serde.tree_written htoken hint

end Pretty

section Values

variable {f64 : List Char → Option String}

theorem entry_token (e : BundleEntry) (d : Nat) : Serde.Token (d + 1) e.toValue := by
  refine .object d _ fun m hm => ?_
  rcases List.mem_append.mp hm with hm | hm
  · cases hid : e.identity with
    | none => simp [optionalMember,hid] at hm
    | some identity =>
      obtain rfl : m = ("identity",.string identity) := by simpa [optionalMember,hid] using hm
      exact .string d identity
  · simp only [List.mem_cons,List.not_mem_nil,or_false] at hm
    rcases hm with rfl | rfl | rfl
    · exact .string d _
    · exact .string d _
    · exact .string d _

theorem bundle_token (b : Bundle) : Serde.Token Serde.maxNesting b.toValue := by
  refine .object 126 _ fun m hm => ?_
  rcases List.mem_cons.mp hm with rfl | hm
  · exact .string _ _
  rcases List.mem_append.mp hm with hm | hm
  · cases hroot : b.root with
    | none => simp [optionalMember,hroot] at hm
    | some root =>
      obtain rfl : m = ("root",.string root) := by simpa [optionalMember,hroot] using hm
      exact .string _ root
  · obtain rfl := List.mem_singleton.mp hm
    refine .array 125 _ fun v hv => ?_
    obtain ⟨e,-,rfl⟩ := List.mem_map.mp hv
    exact entry_token e 124

theorem entry_numbers (e : BundleEntry) : Serde.numbers e.toValue = [] := by
  cases hid : e.identity <;>
    simp [BundleEntry.toValue,optionalMember,hid,Serde.numbers,Serde.numbersMembers]

theorem entries_numbers (es : List BundleEntry) :
    Serde.numbersItems (es.map BundleEntry.toValue) = [] := by
  induction es with
  | nil => rfl
  | cons e rest ih => rw [List.map_cons,Serde.numbersItems,entry_numbers,ih]; rfl

theorem bundle_numbers (b : Bundle) : Serde.numbers b.toValue = [] := by
  cases hroot : b.root <;>
    simp [Bundle.toValue,optionalMember,hroot,Serde.numbers,Serde.numbersMembers,entries_numbers]

theorem bundle_tokens (b : Bundle) : Serde.readTokens f64 b.toJsonBytes = some b.toValue :=
  pretty_tokens newline_blank (bundle_token b) (by simp [Serde.Integral,bundle_numbers])

def BundleEntry.sorted (e : BundleEntry) : Value :=
  .object (("bytes",.string e.bytes) :: (optionalMember "identity" e.identity ++
    [("integrity",.string e.integrity),("name",.string e.name)]))

def Bundle.sorted (b : Bundle) : Value :=
  .object (("bundleVersion",.string b.bundleVersion) ::
    ("entries",.array (b.entries.map BundleEntry.sorted)) :: optionalMember "root" b.root)

theorem entry_noDup (e : BundleEntry) : noDup e.toValue = .ok e.sorted := by
  obtain ⟨identity,name,integrity,bytes⟩ := e
  cases identity with
  | none => rfl
  | some identity => rfl

theorem entries_noDup (es : List BundleEntry) :
    noDupSeq (es.map BundleEntry.toValue) = .ok (es.map BundleEntry.sorted) := by
  induction es with
  | nil => rfl
  | cons e rest ih =>
    rw [List.map_cons,noDupSeq,entry_noDup,ih]
    rfl

theorem bundle_noDup (b : Bundle) : noDup b.toValue = .ok b.sorted := by
  obtain ⟨version,root,entries⟩ := b
  have hentries : noDup (.array (entries.map BundleEntry.toValue)) =
      .ok (.array (entries.map BundleEntry.sorted)) := by
    rw [noDup,entries_noDup]
    rfl
  cases root with
  | none =>
    change (noDupMap [] [("bundleVersion",.string version),
      ("entries",.array (entries.map BundleEntry.toValue))]).bind _ = _
    simp only [noDupMap,hentries]
    rfl
  | some root =>
    change (noDupMap [] [("bundleVersion",.string version),("root",.string root),
      ("entries",.array (entries.map BundleEntry.toValue))]).bind _ = _
    simp only [noDupMap,hentries]
    rfl

theorem entry_fromValue (e : BundleEntry) : BundleEntry.fromValue e.sorted = .ok e := by
  obtain ⟨identity,name,integrity,bytes⟩ := e
  cases identity with
  | none => rfl
  | some identity => rfl

theorem entries_fromValue (es : List BundleEntry) :
    (es.map BundleEntry.sorted).mapM BundleEntry.fromValue = .ok es := by
  rw [Fallible.mapM_ok,List.forall₂_map_left_iff]
  exact List.forall₂_same.mpr fun e _ => entry_fromValue e

theorem bundle_fromValue (b : Bundle) : Bundle.fromValue b.sorted = .ok b := by
  obtain ⟨version,root,entries⟩ := b
  have hread : readSeq BundleEntry.fromValue (.array (entries.map BundleEntry.sorted)) =
    .ok entries := entries_fromValue entries
  simp only [Bundle.fromValue,Fallible.bind_ok,Fallible.pure_ok]
  cases root with
  | none => exact ⟨_,rfl,version,rfl,none,rfl,entries,hread,rfl⟩
  | some root => exact ⟨_,rfl,version,rfl,some root,rfl,entries,hread,rfl⟩

end Values

end MurlSystem

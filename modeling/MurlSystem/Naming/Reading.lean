import Mathlib.Data.List.Forall2
import MurlSystem.Naming.Rules

namespace MurlSystem.Syntax

open Abnf

inductive Decodes : List Char → List UInt8 → Prop
  | done : Decodes [] []
  | plain (c : Char) (rest : List Char) (bytes : List UInt8) (ok : isSegChar c = true)
      (next : Decodes rest bytes) : Decodes (c :: rest) (UInt8.ofNat c.toNat :: bytes)
  | escaped (hi lo : Char) (h l : Nat) (rest : List Char) (bytes : List UInt8)
      (high : hexVal hi = some h) (low : hexVal lo = some l) (next : Decodes rest bytes) :
      Decodes ('%' :: hi :: lo :: rest) (UInt8.ofNat (16 * h + l) :: bytes)

structure LabelOk (l : List Char) : Prop where
  rule : label.Derives l
  first : l.head? ≠ some '-'
  last : l.getLast? ≠ some '-'

def HostOk (h : List Char) : Prop := ∀ l ∈ h.splitOn '.', LabelOk l

inductive AuthorityReads : List Char → Authority → Prop
  | reserved : AuthorityReads localAuthority.toList .local
  | host (h : List Char) (ok : HostOk h) (free : h ≠ localAuthority.toList) :
      AuthorityReads h (.remote (String.ofList h) none)
  | hostPort (h p : List Char) (ok : HostOk h) (free : h ≠ localAuthority.toList)
      (digits : port.Derives p) (least : 1 ≤ decimal p) (most : decimal p ≤ 65535) :
      AuthorityReads (h ++ ':' :: p) (.remote (String.ofList h) (some (decimal p)))

structure SegmentReads (control : Char → Bool) (raw : List Char) (seg : String) : Prop where
  some : raw ≠ []
  decoded : Decodes raw (Text.bytes seg)
  size : seg.utf8ByteSize ≤ maxSegmentBytes
  clean : ∀ c ∈ seg.toList, control c = false ∧ c ≠ '/' ∧ c ≠ '\\'
  solid : seg ≠ "." ∧ seg ≠ ".."

def NoLeadingZero (p : List Char) : Prop := 1 < p.length → p.head? ≠ some '0'

inductive VersionReads (quoted : List Char → Rule) : Option (List Char) → VersionTag → Prop
  | absent : VersionReads quoted none .latest
  | latest (v : List Char) (rule : (quoted "latest".toList).Derives v) :
      VersionReads quoted (some v) .latest
  | pinned (ps : List (List Char)) (nonempty : ps ≠ []) (few : ps.length ≤ 3)
      (each : ∀ p ∈ ps, vnum.Derives p ∧ NoLeadingZero p) :
      VersionReads quoted (some (['.'].intercalate ps)) (.pinned (ps.map decimal))

inductive ItemReads (quoted : List Char → Rule) : List Char → SelectorItem → Prop
  | id (s : List Char) (rule : resourceId.Derives s) : ItemReads quoted s (.id (String.ofList s))
  | role (word s : List Char) (is : (quoted "role=".toList).Derives word) (rule : role.Derives s) :
      ItemReads quoted (word ++ s) (.role (String.ofList s))
  | tag (word s : List Char) (is : (quoted "tag=".toList).Derives word) (rule : tag.Derives s) :
      ItemReads quoted (word ++ s) (.tag (String.ofList s))

inductive SelectorReads (quoted : List Char → Rule) :
    Option (List Char) → Option (List SelectorItem) → Prop
  | absent : SelectorReads quoted none none
  | items (ps : List (List Char)) (items : List SelectorItem) (nonempty : ps ≠ [])
      (few : ps.length ≤ maxSelectorItems) (each : List.Forall₂ (ItemReads quoted) ps items) :
      SelectorReads quoted (some ([','].intercalate ps)) (some items)

structure Parts.Reads (quoted : List Char → Rule) (control : Char → Bool) (p : Parts) (m : Murl) :
    Prop where
  authority : AuthorityReads (Text.lowercase p.authority) m.authority
  few : p.segments.length ≤ maxSegments
  name : List.Forall₂ (SegmentReads control) p.segments m.name
  version : VersionReads quoted p.version m.version
  query : m.query = p.query.map String.ofList
  selector : SelectorReads quoted p.selector m.selector

def hostLength : Authority → Nat
  | .local => localAuthority.length
  | .remote h _ => h.length

structure Accepts (quoted : List Char → Rule) (s : String) (p : Parts) (m : Murl) : Prop where
  text : p.text = s.toList
  rule : p.WellFormed quoted
  reads : p.Reads quoted Text.isControl m
  size : s.utf8ByteSize ≤ maxMurlLen
  canonical : m.toString.utf8ByteSize ≤ maxMurlLen
  host : hostLength m.authority ≤ maxAuthorityLen

def Accepted (quoted : List Char → Rule) (s : String) (m : Murl) : Prop :=
  ∃ p, Accepts quoted s p m

end MurlSystem.Syntax

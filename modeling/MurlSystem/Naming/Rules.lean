import MurlSystem.Core.Name
import MurlSystem.Foundation.Abnf
import MurlSystem.Foundation.Utf8

namespace MurlSystem.Syntax

open Abnf

def isDashAlnum (c : Char) : Bool := isLowerAlnum c || c == '-'

def isIdChar (c : Char) : Bool := isLowerAlnum c || c == '-' || c == '_'

def isPrintable (c : Char) : Bool := 0x21 ≤ c.toNat && c.toNat ≤ 0x7e

def isSegChar (c : Char) : Bool := isPrintable c && !(['/','?','#','@','%'].contains c)

def isQueryChar (c : Char) : Bool := isPrintable c && c != '#'

section Rules

variable (quoted : List Char → Rule)

def label : Rule := .between 1 63 (.char isDashAlnum)

def host : Rule := label.separated '.' none

def port : Rule := .between 1 5 (.char isDigit)

def authority : Rule :=
  .alt (.exact localAuthority.toList) (.cat host (.opt (.cat (.exact [':']) port)))

def hexDig : Rule := .char fun c => (hexVal c).isSome

def pctEncoded : Rule := .cat (.exact ['%']) (.cat hexDig hexDig)

def segment : Rule := .rep 1 none (.alt (.char isSegChar) pctEncoded)

def name : Rule := segment.separated '/' none

def vnum : Rule := .between 1 5 (.char isDigit)

def version : Rule := .alt (quoted "latest".toList) (vnum.separated '.' (some 2))

def role : Rule := .cat (.char isLowerAlnum) (.between 0 31 (.char isDashAlnum))

def tag : Rule := .between 1 32 (.char isDashAlnum)

def resourceId : Rule := .cat (.char isLowerAlnum) (.between 0 63 (.char isIdChar))

def selItem : Rule :=
  .alt resourceId (.alt (.cat (quoted "role=".toList) role) (.cat (quoted "tag=".toList) tag))

def selector : Rule := (selItem quoted).separated ',' (some 7)

def query : Rule := .between 0 512 (.char isQueryChar)

def murl : Rule :=
  .cat (.text "murl://".toList) <| .cat (.folded authority) <| .cat (.exact ['/']) <| .cat name <|
    .cat (.opt (.cat (.exact ['@']) (version quoted))) <|
    .cat (.opt (.cat (.exact ['?']) query)) (.opt (.cat (.exact ['#']) (selector quoted)))

end Rules

structure Parts where
  scheme : List Char
  authority : List Char
  segments : List (List Char)
  version : Option (List Char)
  query : Option (List Char)
  selector : Option (List Char)

def marked (c : Char) : Option (List Char) → List Char
  | none => []
  | some s => c :: s

def Parts.path (p : Parts) : List Char := ['/'].intercalate p.segments ++ marked '@' p.version

def Parts.text (p : Parts) : List Char :=
  p.scheme ++ (p.authority ++ '/' :: p.path ++ marked '?' p.query ++ marked '#' p.selector)

structure Parts.WellFormed (quoted : List Char → Rule) (p : Parts) : Prop where
  scheme : Text.lowercase p.scheme = "murl://".toList
  authority : Syntax.authority.Derives (Text.lowercase p.authority)
  nonempty : p.segments ≠ []
  segments : ∀ s ∈ p.segments, segment.Derives s
  version : ∀ v ∈ p.version, (Syntax.version quoted).Derives v
  query : ∀ q ∈ p.query, Syntax.query.Derives q
  selector : ∀ f ∈ p.selector, (Syntax.selector quoted).Derives f

theorem derives_marked {c : Char} {r : Rule} {w : List Char} :
    (Rule.opt (.cat (.exact [c]) r)).Derives w ↔
      ∃ o : Option (List Char), w = marked c o ∧ ∀ s ∈ o, r.Derives s := by
  rw [derives_opt]
  constructor
  · rintro (rfl | ⟨x,y,rfl,hx,hy⟩)
    · exact ⟨none,rfl,by simp⟩
    · have hx : x = [c] := hx
      exact ⟨some y,by rw [hx]; rfl,by simpa using hy⟩
  · rintro ⟨o,rfl,ho⟩
    cases o with
    | none => exact .inl rfl
    | some s => exact .inr ⟨[c],s,rfl,rfl,ho s rfl⟩

theorem murl_derives (quoted : List Char → Rule) (w : List Char) :
    (murl quoted).Derives w ↔ ∃ p : Parts, p.text = w ∧ p.WellFormed quoted := by
  constructor
  · rintro ⟨scheme,_,rfl,hscheme,auth,_,rfl,hauth,slash,_,rfl,hslash,path,_,rfl,hname,ver,_,rfl,hver,
      query,sel,rfl,hquery,hsel⟩
    obtain ⟨segments,rfl,hne,-,hsegments⟩ := derives_separated.mp hname
    obtain ⟨v,rfl,hv⟩ := derives_marked.mp hver
    obtain ⟨q,rfl,hq⟩ := derives_marked.mp hquery
    obtain ⟨f,rfl,hf⟩ := derives_marked.mp hsel
    have hslash : slash = ['/'] := hslash
    refine ⟨⟨scheme,auth,segments,v,q,f⟩,?_,hscheme,hauth,hne,hsegments,hv,hq,hf⟩
    simp [Parts.text,Parts.path,hslash]
  · rintro ⟨p,rfl,hp⟩
    have hpath : name.Derives (['/'].intercalate p.segments) :=
      derives_separated.mpr ⟨p.segments,rfl,hp.nonempty,by simp,hp.segments⟩
    refine ⟨p.scheme,_,rfl,hp.scheme,p.authority,'/' :: (p.path ++ (marked '?' p.query ++
      marked '#' p.selector)),by simp,hp.authority,['/'],_,rfl,rfl,['/'].intercalate p.segments,
      marked '@' p.version ++ (marked '?' p.query ++ marked '#' p.selector),by simp [Parts.path],
      hpath,_,_,rfl,?_,_,_,rfl,?_,?_⟩
    · exact derives_marked.mpr ⟨p.version,rfl,hp.version⟩
    · exact derives_marked.mpr ⟨p.query,rfl,hp.query⟩
    · exact derives_marked.mpr ⟨p.selector,rfl,hp.selector⟩

end MurlSystem.Syntax

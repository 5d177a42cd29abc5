import MurlSystem.Foundation.Abnf

namespace Rfc8259

open Abnf

inductive Raw where
  | null
  | bool (b : Bool)
  | number (text : List Char)
  | string (points : List Nat)
  | array (items : List Raw)
  | object (members : List (List Nat × Raw))

section Lexemes

def isBlank (c : Char) : Bool := c == ' ' || c == '\t' || c == '\n' || c == '\r'

def skip (s : List Char) : List Char := s.dropWhile isBlank

def isDigit (c : Char) : Bool := '0' ≤ c && c ≤ '9'

def digits : Rule := .rep 1 none (.char isDigit)

def integer : Rule :=
  .alt (.exact ['0']) (.cat (.char fun c => '1' ≤ c && c ≤ '9') (.rep 0 none (.char isDigit)))

def fraction : Rule := .cat (.exact ['.']) digits

def exponent : Rule :=
  .cat (.char fun c => c == 'e' || c == 'E')
    (.cat (.opt (.char fun c => c == '+' || c == '-')) digits)

def numberRule : Rule :=
  .cat (.opt (.exact ['-'])) (.cat integer (.cat (.opt fraction) (.opt exponent)))

def takeDigits (s : List Char) : Option (List Char × List Char) :=
  match s.takeWhile isDigit with
  | [] => none
  | ds => some (ds,s.dropWhile isDigit)

def takeInteger : List Char → Option (List Char × List Char)
  | '0' :: rest => some (['0'],rest)
  | s => takeDigits s

def takeFraction : List Char → Option (List Char × List Char)
  | '.' :: rest => (takeDigits rest).map fun (ds,rest) => ('.' :: ds,rest)
  | s => some ([],s)

def takeExponent : List Char → Option (List Char × List Char)
  | [] => some ([],[])
  | c :: rest =>
    if c == 'e' || c == 'E' then
      match rest with
      | [] => none
      | d :: rest' =>
        if d == '+' || d == '-' then (takeDigits rest').map fun (ds,rest) => (c :: d :: ds,rest)
        else (takeDigits rest).map fun (ds,rest) => (c :: ds,rest)
    else some ([],c :: rest)

def takeUnsigned (s : List Char) : Option (List Char × List Char) := do
  let (int,s) ← takeInteger s
  let (frac,s) ← takeFraction s
  let (exp,s) ← takeExponent s
  return (int ++ (frac ++ exp),s)

def takeNumber : List Char → Option (List Char × List Char)
  | '-' :: rest => (takeUnsigned rest).map fun (w,rest) => ('-' :: w,rest)
  | s => takeUnsigned s

def hexValue (c : Char) : Option Nat :=
  if '0' ≤ c && c ≤ '9' then some (c.toNat - 48)
  else if 'a' ≤ c && c ≤ 'f' then some (c.toNat - 87)
  else if 'A' ≤ c && c ≤ 'F' then some (c.toNat - 55)
  else none

def hex4 (a b c d : Char) : Option Nat := do
  let a ← hexValue a
  let b ← hexValue b
  let c ← hexValue c
  let d ← hexValue d
  return 4096 * a + 256 * b + 16 * c + d

def shortEscape (c : Char) : Option Nat :=
  if c == '"' || c == '\\' || c == '/' then some c.toNat
  else if c == 'b' then some 8
  else if c == 'f' then some 12
  else if c == 'n' then some 10
  else if c == 'r' then some 13
  else if c == 't' then some 9
  else none

inductive Chars : List Char → List Nat → Prop
  | nil : Chars [] []
  | plain (c : Char) (w : List Char) (us : List Nat) (visible : 0x20 ≤ c.toNat) (quote : c ≠ '"')
      (back : c ≠ '\\') (next : Chars w us) : Chars (c :: w) (c.toNat :: us)
  | short (e : Char) (u : Nat) (w : List Char) (us : List Nat) (is : shortEscape e = some u)
      (next : Chars w us) : Chars ('\\' :: e :: w) (u :: us)
  | unicode (a b c d : Char) (u : Nat) (w : List Char) (us : List Nat) (is : hex4 a b c d = some u)
      (next : Chars w us) : Chars ('\\' :: 'u' :: a :: b :: c :: d :: w) (u :: us)

def takeUnits : List Char → Option (List Nat × List Char)
  | [] => none
  | '"' :: rest => some ([],rest)
  | '\\' :: 'u' :: a :: b :: c :: d :: rest => do
    let u ← hex4 a b c d
    let (us,rest) ← takeUnits rest
    return (u :: us,rest)
  | '\\' :: e :: rest => do
    let u ← shortEscape e
    let (us,rest) ← takeUnits rest
    return (u :: us,rest)
  | c :: rest =>
    if c.toNat < 0x20 || c == '\\' then none
    else do
      let (us,rest) ← takeUnits rest
      return (c.toNat :: us,rest)

def isHigh (u : Nat) : Bool := 0xd800 ≤ u && u < 0xdc00

def isLow (u : Nat) : Bool := 0xdc00 ≤ u && u < 0xe000

def isSurrogate (u : Nat) : Bool := 0xd800 ≤ u && u < 0xe000

def combine : List Nat → List Nat
  | [] => []
  | [u] => [u]
  | u :: v :: rest =>
    if isHigh u && isLow v then (0x10000 + (u - 0xd800) * 0x400 + (v - 0xdc00)) :: combine rest
    else u :: combine (v :: rest)

def takeString (s : List Char) : Option (List Nat × List Char) :=
  (takeUnits s).map fun (us,rest) => (combine us,rest)

end Lexemes

section Grammar

def Blank (s : List Char) : Prop := ∀ c ∈ s, isBlank c = true

mutual

inductive Writes : Raw → List Char → Prop
  | null : Writes .null ['n','u','l','l']
  | true : Writes (.bool true) ['t','r','u','e']
  | false : Writes (.bool false) ['f','a','l','s','e']
  | number (w : List Char) (rule : numberRule.Derives w) : Writes (.number w) w
  | string (w : List Char) (us : List Nat) (chars : Chars w us) :
      Writes (.string (combine us)) ('"' :: (w ++ ['"']))
  | emptyArray (blank : List Char) (ok : Blank blank) : Writes (.array []) ('[' :: (blank ++ [']']))
  | array (items : List Raw) (w : List Char) (each : Items items w) :
      Writes (.array items) ('[' :: (w ++ [']']))
  | emptyObject (blank : List Char) (ok : Blank blank) :
      Writes (.object []) ('{' :: (blank ++ ['}']))
  | object (members : List (List Nat × Raw)) (w : List Char) (each : Members members w) :
      Writes (.object members) ('{' :: (w ++ ['}']))

inductive Items : List Raw → List Char → Prop
  | one (v : Raw) (a w b : List Char) (before : Blank a) (value : Writes v w) (after : Blank b) :
      Items [v] (a ++ (w ++ b))
  | more (v : Raw) (vs : List Raw) (a w b rest : List Char) (before : Blank a) (value : Writes v w)
      (after : Blank b) (next : Items vs rest) : Items (v :: vs) (a ++ (w ++ (b ++ ',' :: rest)))

inductive Members : List (List Nat × Raw) → List Char → Prop
  | one (us : List Nat) (v : Raw) (a k b c w d : List Char) (lead : Blank a) (key : Chars k us)
      (colon : Blank b) (before : Blank c) (value : Writes v w) (after : Blank d) :
      Members [(combine us,v)] (a ++ '"' :: (k ++ '"' :: (b ++ ':' :: (c ++ (w ++ d)))))
  | more (us : List Nat) (v : Raw) (ms : List (List Nat × Raw)) (a k b c w d rest : List Char)
      (lead : Blank a) (key : Chars k us) (colon : Blank b) (before : Blank c) (value : Writes v w)
      (after : Blank d) (next : Members ms rest) :
      Members ((combine us,v) :: ms)
        (a ++ '"' :: (k ++ '"' :: (b ++ ':' :: (c ++ (w ++ (d ++ ',' :: rest))))))

end

def Text (s : List Char) (v : Raw) : Prop :=
  ∃ a w b, s = a ++ (w ++ b) ∧ Blank a ∧ Writes v w ∧ Blank b

end Grammar

section Reader

mutual

def value : Nat → List Char → Option (Raw × List Char)
  | 0,_ => none
  | n + 1,s =>
    match s with
    | 'n' :: 'u' :: 'l' :: 'l' :: rest => some (.null,rest)
    | 't' :: 'r' :: 'u' :: 'e' :: rest => some (.bool true,rest)
    | 'f' :: 'a' :: 'l' :: 's' :: 'e' :: rest => some (.bool false,rest)
    | '"' :: rest => (takeString rest).map fun (us,rest) => (.string us,rest)
    | '[' :: rest =>
      match skip rest with
      | ']' :: rest => some (.array [],rest)
      | rest => (items n rest).map fun (vs,rest) => (.array vs,rest)
    | '{' :: rest =>
      match skip rest with
      | '}' :: rest => some (.object [],rest)
      | rest => (members n rest).map fun (ms,rest) => (.object ms,rest)
    | s => (takeNumber s).map fun (w,rest) => (.number w,rest)

def items : Nat → List Char → Option (List Raw × List Char)
  | 0,_ => none
  | n + 1,s => do
    let (v,rest) ← value n s
    match skip rest with
    | ']' :: rest => return ([v],rest)
    | ',' :: rest =>
      let (vs,rest) ← items n (skip rest)
      return (v :: vs,rest)
    | _ => none

def members : Nat → List Char → Option (List (List Nat × Raw) × List Char)
  | 0,_ => none
  | n + 1,s => do
    let '"' :: s := s | none
    let (k,rest) ← takeString s
    let ':' :: rest := skip rest | none
    let (v,rest) ← value n (skip rest)
    match skip rest with
    | '}' :: rest => return ([(k,v)],rest)
    | ',' :: rest =>
      let (ms,rest) ← members n (skip rest)
      return ((k,v) :: ms,rest)
    | _ => none

end

def read (s : List Char) : Option Raw := do
  let (v,rest) ← value (2 * s.length + 2) (skip s)
  if skip rest = [] then return v else none

end Reader

end Rfc8259

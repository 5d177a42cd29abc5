import Mathlib.Data.List.Sort
import MurlSystem.Canonical.Written
import MurlSystem.Foundation.Rfc8259Parts

namespace MurlSystem.Reference

open Rfc8259

-- What `json.loads` builds: a string is a sequence of code points and may hold a lone surrogate.
inductive Json where
  | none
  | bool (b : Bool)
  | int (i : Int)
  | nonInteger (text : List Char)
  | str (points : List Nat)
  | list (items : List Json)
  | dict (members : List (List Nat × Json))

inductive ManifestError where
  | tooLarge
  | utf8
  | malformed
  | recursion
  | digits
  | duplicate
  | notObject
deriving DecidableEq, Repr

inductive CanonicalError where
  | range
  | nonInteger
  | recursion
  | encode
  | notObject
deriving DecidableEq, Repr

-- The interpreter's own limits: the nesting its scanner reads, the calls `_write` may nest, and
-- the digits `int` converts.
structure Interpreter where
  scanDepth : Nat
  frames : Nat
  maxStrDigits : Option Nat
  scans : Serde.maxNesting ≤ scanDepth
  writes : Serde.maxNesting + 2 ≤ frames
  converts : ∀ n ∈ maxStrDigits, 640 ≤ n

def intMin : Int := -(2 ^ 63)
def intMax : Int := 2 ^ 64 - 1

section Parse

variable (py : Interpreter)

def digitCount : List Char → Nat
  | '-' :: ds => ds.length
  | ds => ds.length

def parseInt (w : List Char) (i : Int) : Except ManifestError Json :=
  match py.maxStrDigits with
  | some n => if n < digitCount w then .error .digits else .ok (.int i)
  | none => .ok (.int i)

def parseNumber (w : List Char) : Except ManifestError Json :=
  match Serde.integerOf w with
  | some i => parseInt py w i
  | none => .ok (.nonInteger w)

def rejectDuplicates (seen : List (List Nat)) : List (List Nat × Json) → Except ManifestError Unit
  | [] => .ok ()
  | (key,_) :: rest => if key ∈ seen then .error .duplicate else rejectDuplicates (key :: seen) rest

mutual

def scan : Raw → Except ManifestError Json
  | .null => .ok .none
  | .bool b => .ok (.bool b)
  | .number w => parseNumber py w
  | .string points => .ok (.str points)
  | .array items => do
    let items ← scanItems items
    return .list items
  | .object members => do
    let members ← scanMembers members
    rejectDuplicates [] members
    return .dict members

def scanItems : List Raw → Except ManifestError (List Json)
  | [] => .ok []
  | v :: rest => do
    let v ← scan v
    let rest ← scanItems rest
    return v :: rest

def scanMembers : List (List Nat × Raw) → Except ManifestError (List (List Nat × Json))
  | [] => .ok []
  | (k,v) :: rest => do
    let v ← scan v
    let rest ← scanMembers rest
    return (k,v) :: rest

end

def parseManifest (maxBytes : Nat) (data : Bytes) :
    Except ManifestError (List (List Nat × Json)) :=
  if maxBytes < data.length then .error .tooLarge
  else
    match String.fromUTF8? ⟨data.toArray⟩ with
    | none => .error .utf8
    | some text =>
      match read text.toList with
      | none => .error .malformed
      | some raw =>
        if py.scanDepth < Serde.depth raw then .error .recursion
        else
          match scan py raw with
          | .error e => .error e
          | .ok (.dict members) => .ok members
          | .ok _ => .error .notObject

end Parse

section Canonical

def shortEscape (u : Nat) : Option (List Char) :=
  if u = 0x22 then some ['\\','"'] else if u = 0x5c then some ['\\','\\']
  else if u = 0x08 then some ['\\','b'] else if u = 0x0c then some ['\\','f']
  else if u = 0x0a then some ['\\','n'] else if u = 0x0d then some ['\\','r']
  else if u = 0x09 then some ['\\','t'] else none

def escapePoint (u : Nat) : List Nat :=
  match shortEscape u with
  | some w => w.map Char.toNat
  | none =>
    if u < 0x20 then
      ['\\','u','0','0',Nat.digitChar (u / 16),Nat.digitChar (u % 16)].map Char.toNat
    else [u]

def writeString (frames : Nat) (points : List Nat) : Except CanonicalError (List Nat) :=
  if frames = 0 then .error .recursion
  else .ok ('"'.toNat :: (points.flatMap escapePoint ++ ['"'.toNat]))

def literal (s : String) : List Nat := s.toList.map Char.toNat

def pointsLe : List Nat → List Nat → Bool
  | [],_ => true
  | _ :: _,[] => false
  | a :: as,b :: bs => if a = b then pointsLe as bs else decide (a < b)

def sortedMembers (members : List (List Nat × Json)) : List (List Nat × Json) :=
  members.insertionSort fun a b => pointsLe a.1 b.1 = true

def writeMember (frames : Nat) (write : Json → Except CanonicalError (List Nat))
    (m : List Nat × Json) : Except CanonicalError (List Nat) := do
  let k ← writeString frames m.1
  let v ← write m.2
  return k ++ ':'.toNat :: v

def write : Nat → Json → Except CanonicalError (List Nat)
  | 0,_ => .error .recursion
  | frames + 1,value =>
    match value with
    | .none => .ok (literal "null")
    | .bool true => .ok (literal "true")
    | .bool false => .ok (literal "false")
    | .int i => if intMin ≤ i ∧ i ≤ intMax then .ok (literal (toString i)) else .error .range
    | .nonInteger _ => .error .nonInteger
    | .str points => writeString frames points
    | .list items => do
      let parts ← items.mapM (write frames)
      return '['.toNat :: ([','.toNat].intercalate parts ++ [']'.toNat])
    | .dict members => do
      let parts ← (sortedMembers members).mapM (writeMember frames (write frames))
      return '{'.toNat :: ([','.toNat].intercalate parts ++ ['}'.toNat])

def encode (points : List Nat) : Except CanonicalError Bytes :=
  if points.any isSurrogate then .error .encode
  else .ok (Text.bytes (String.ofList (points.map Char.ofNat)))

def canonicalBytes (py : Interpreter) (value : Json) : Except CanonicalError Bytes := do
  let points ← write py.frames value
  encode points

def signingBytes (py : Interpreter) (document : List (List Nat × Json)) :
    Except CanonicalError Bytes :=
  canonicalBytes py (.dict (document.filter fun m => m.1 != literal "signature"))

end Canonical

end MurlSystem.Reference

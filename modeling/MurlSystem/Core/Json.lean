import MurlSystem.Foundation.Text
import Mathlib.Algebra.Group.Nat.Defs
import Mathlib.Algebra.Group.Int.Defs
import Mathlib.Data.Rat.Defs

namespace MurlSystem

abbrev Bytes := List UInt8

inductive Number where
  | int (i : Int)
  | float (text : String)
deriving DecidableEq, Repr

def Number.asI64 : Number → Option Int
  | .int i => if -(2 ^ 63) ≤ i ∧ i < 2 ^ 63 then some i else none
  | .float _ => none

def Number.asU64 : Number → Option Int
  | .int i => if 0 ≤ i ∧ i < 2 ^ 64 then some i else none
  | .float _ => none

def Number.toString : Number → String
  | .int i => s!"{i}"
  | .float text => text

inductive Value where
  | null
  | bool (b : Bool)
  | number (n : Number)
  | string (s : String)
  | array (items : List Value)
  | object (members : List (String × Value))
deriving Repr

def Value.asObject : Value → Option (List (String × Value))
  | .object m => some m
  | _ => none

def Value.asArray : Value → Option (List Value)
  | .array xs => some xs
  | _ => none

def Value.asStr : Value → Option String
  | .string s => some s
  | _ => none

def Value.isObject (v : Value) : Bool := v.asObject.isSome

inductive F64 where
  | finite (q : Rat) (text : String)
  | special (text : String)
deriving DecidableEq, Repr

structure Crates where
  serdeJson : Bytes → Except String Value
  parseF64 : String → Option F64
  sha256 : Bytes → Bytes
  base64Encode : Bytes → String
  base64Decode : String → Except String Bytes
  verifyingKey : Bytes → Except String Unit
  ed25519Verify : Bytes → Bytes → Bytes → Bool

def insertMember (k : String) (v : Value) : List (String × Value) → List (String × Value)
  | [] => [(k,v)]
  | (k',v') :: rest => if k < k' then (k,v) :: (k',v') :: rest else (k',v') :: insertMember k v rest

mutual

def noDup : Value → Except String Value
  | .array items => do
    let out ← noDupSeq items
    return .array out
  | .object members => do
    let out ← noDupMap [] members
    return .object out
  | v => .ok v

def noDupSeq : List Value → Except String (List Value)
  | [] => .ok []
  | v :: rest => do
    let v ← noDup v
    let rest ← noDupSeq rest
    return v :: rest

def noDupMap (out : List (String × Value)) :
    List (String × Value) → Except String (List (String × Value))
  | [] => .ok out
  | (key,value) :: rest => do
    let value ← noDup value
    if (out.lookup key).isSome then throw s!"duplicate object member `{key}`"
    noDupMap (insertMember key value out) rest

end

def fromSliceStrict (crates : Crates) (b : Bytes) : Except String Value := do
  let tokens ← crates.serdeJson b
  noDup tokens

def escapeChar (c : Char) : String :=
  if c = '"' then "\\\"" else if c = '\\' then "\\\\"
  else if c.toNat = 0x08 then "\\b" else if c.toNat = 0x0c then "\\f"
  else if c = '\n' then "\\n" else if c = '\r' then "\\r" else if c = '\t' then "\\t"
  else if c.toNat < 0x20 then
    "\\u00" ++ (Nat.digitChar (c.toNat / 16)).toString ++ (Nat.digitChar (c.toNat % 16)).toString
  else c.toString

def writeString (s : String) : String :=
  "\"" ++ s.toList.foldl (fun out c => out ++ escapeChar c) "" ++ "\""

mutual

def writeValue : Value → Except String String
  | .null => .ok "null"
  | .bool true => .ok "true"
  | .bool false => .ok "false"
  | .number n =>
    match n.asI64,n.asU64 with
    | some i,_ => .ok s!"{i}"
    | none,some u => .ok s!"{u}"
    | none,none => .error s!"canonical form forbids non-integer numbers (found {n.toString})"
  | .string s => .ok (writeString s)
  | .array items => do
    let parts ← writeItems items
    return "[" ++ ",".intercalate parts ++ "]"
  | .object members => do
    let parts ← writeMembers members
    return "\x7b" ++ ",".intercalate parts ++ "\x7d"

def writeItems : List Value → Except String (List String)
  | [] => .ok []
  | v :: rest => do
    let v ← writeValue v
    let rest ← writeItems rest
    return v :: rest

def writeMembers : List (String × Value) → Except String (List String)
  | [] => .ok []
  | (k,v) :: rest => do
    let v ← writeValue v
    let rest ← writeMembers rest
    return (writeString k ++ ":" ++ v) :: rest

end

def canonicalJsonBytes (v : Value) : Except String Bytes :=
  (writeValue v).map Text.bytes

end MurlSystem

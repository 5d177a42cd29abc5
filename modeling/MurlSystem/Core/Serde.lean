import MurlSystem.Core.Json
import MurlSystem.Foundation.Numeral
import MurlSystem.Foundation.Rfc8259

namespace MurlSystem.Serde

open Rfc8259

-- The nesting `serde_json` reads before it reports its recursion limit.
def maxNesting : Nat := 127

def scalarString (points : List Nat) : Option String :=
  if points.any isSurrogate then none else some (String.ofList (points.map Char.ofNat))

def integerOf (w : List Char) : Option Int :=
  if w.any fun c => c == '.' || c == 'e' || c == 'E' then none
  else
    match w with
    | '-' :: ds => some (-(Numeral.value ds : Int))
    | ds => some (Numeral.value ds)

section Tree

-- How a number that is no 64-bit integer is shown, unless it is out of range.
variable (f64 : List Char → Option String)

def number (w : List Char) : Option Number :=
  match integerOf w with
  | some i =>
    if w = "-0".toList then some (.float "-0.0")
    else if -(2 ^ 63) ≤ i ∧ i < 2 ^ 64 then some (.int i)
    else (f64 w).map .float
  | none => (f64 w).map .float

mutual

def tree : Raw → Option Value
  | .null => some .null
  | .bool b => some (.bool b)
  | .number w => (number f64 w).map .number
  | .string points => (scalarString points).map .string
  | .array items => (treeItems items).map .array
  | .object members => (treeMembers members).map .object

def treeItems : List Raw → Option (List Value)
  | [] => some []
  | v :: rest => do
    let v ← tree v
    let rest ← treeItems rest
    return v :: rest

def treeMembers : List (List Nat × Raw) → Option (List (String × Value))
  | [] => some []
  | (k,v) :: rest => do
    let k ← scalarString k
    let v ← tree v
    let rest ← treeMembers rest
    return (k,v) :: rest

end

end Tree

mutual

def depth : Raw → Nat
  | .array items => depthItems items + 1
  | .object members => depthMembers members + 1
  | _ => 0

def depthItems : List Raw → Nat
  | [] => 0
  | v :: rest => max (depth v) (depthItems rest)

def depthMembers : List (List Nat × Raw) → Nat
  | [] => 0
  | (_,v) :: rest => max (depth v) (depthMembers rest)

end

def document (b : Bytes) : Option Raw := do
  let text ← String.fromUTF8? ⟨b.toArray⟩
  read text.toList

def readTokens (f64 : List Char → Option String) (b : Bytes) : Option Value := do
  let raw ← document b
  if maxNesting < depth raw then none else tree f64 raw

end MurlSystem.Serde

import MurlSystem.Consent.Decide
import MurlSystem.Resolution.Produced

namespace MurlSystem

open Program

inductive Backend where
  | zenity
  | kdialog
  | osascript
deriving DecidableEq, Repr

section Arguments

def maxDisplay : Nat := 96

def clip (s : String) : String :=
  let cleaned := s.toList.filter fun c => !Text.isControl c
  if cleaned.length ≤ maxDisplay then String.ofList cleaned
  else String.ofList (cleaned.take (maxDisplay - 1) ++ ['…'])

def header (request : ConsentRequest) : String :=
  let opening := s!"{clip request.name} wants to open:"
  let named := match request.identity with
    | some identity => "\n" ++ clip identity
    | none => ""
  let source := s!"\nfrom {clip request.origin} · trust: {request.trust}"
  let refused :=
    if request.denied.isEmpty then ""
    else s!"\n\n{request.denied.length} resource(s) were refused by policy and cannot be approved here."
  opening ++ named ++ source ++ refused

def zenityOptions (request : ConsentRequest) : List String :=
  ["--list","--checklist","--title=mURL",s!"--text={header request}","--column=Open",
   "--column=Resource","--column=Risk","--column=Target","--print-column=2","--separator=\n",
   "--width=760","--height=460"]

def zenityCells (item : ConsentItem) : List String :=
  ["FALSE",item.id,item.tier.toString,clip item.target]

def zenityArgv (request : ConsentRequest) : List String :=
  zenityOptions request ++ request.items.flatMap zenityCells

def kdialogOptions (request : ConsentRequest) : List String :=
  ["--title","mURL","--separate-output","--checklist",header request]

def kdialogCells (item : ConsentItem) : List String :=
  [item.id,s!"{item.id} — {item.tier.toString} — {clip item.target}","off"]

def kdialogArgv (request : ConsentRequest) : List String :=
  kdialogOptions request ++ request.items.flatMap kdialogCells

def osascriptSource : String :=
  "on run argv\n    set prompt to item 1 of argv\n    set choices to \x7b\x7d\n    repeat with i from 2 to count of argv\n        set end of choices to item i of argv\n    end repeat\n    if (count of choices) is 0 then return \"\"\n    set picked to choose from list choices with prompt prompt with title \"mURL\" with multiple selections allowed\n    if picked is false then return \"\"\n    set out to \"\"\n    repeat with p in picked\n        set out to out & (p as text) & linefeed\n    end repeat\n    return out\nend run"

def osascriptOptions (request : ConsentRequest) : List String :=
  ["-e",osascriptSource,header request]

def osascriptCell (item : ConsentItem) : String :=
  s!"{item.id}  ·  {item.tier.toString}  ·  {clip item.target}"

def osascriptArgv (request : ConsentRequest) : List String :=
  osascriptOptions request ++ request.items.map osascriptCell

def Backend.argv (backend : Backend) (request : ConsentRequest) : List String :=
  match backend with
  | .zenity => zenityArgv request
  | .kdialog => kdialogArgv request
  | .osascript => osascriptArgv request

end Arguments

section Answers

def answerId (line : List Char) : List Char :=
  (Text.words (Text.trim (· == '"') (Text.trim Text.isWhitespace line))).headD []

def lookupId (items : List ConsentItem) (id : List Char) : Option ConsentItem :=
  if id.isEmpty then none else items.find? fun item => item.id.toList == id

def grantLine (items : List ConsentItem) (granted : List Nat) (line : List Char) : List Nat :=
  match lookupId items (answerId line) with
  | some item => if granted.contains item.index then granted else granted ++ [item.index]
  | none => granted

def grantedIndices (stdout : String) (request : ConsentRequest) : List Nat :=
  (Text.lines stdout.toList).foldl (grantLine request.items) []

end Answers

-- What the helper programs do is not in the source: each prints, for every row left ticked and in
-- row order, the column it was told to print. kdialog may quote it, and the last line may be
-- followed by any number of newlines.
section Programs

variable {α β : Type}

def tickedFrom (ticked : Nat → Bool) : Nat → List α → List α
  | _,[] => []
  | k,x :: xs =>
    if ticked k then x :: tickedFrom ticked (k + 1) xs else tickedFrom ticked (k + 1) xs

def zenityRows : List String → List String
  | _ :: id :: _ :: _ :: rest => id :: zenityRows rest
  | _ => []

def kdialogRows : List String → List String
  | tag :: _ :: _ :: rest => tag :: kdialogRows rest
  | _ => []

def Backend.rows (backend : Backend) (argv : List String) : List String :=
  match backend with
  | .zenity => zenityRows (argv.drop 12)
  | .kdialog => kdialogRows (argv.drop 5)
  | .osascript => argv.drop 3

structure Style where
  quoted : Bool
  newlines : Nat

def Backend.prints (backend : Backend) (style : Style) (row : String) : List Char :=
  if backend = .kdialog ∧ style.quoted = true then '"' :: (row.toList ++ ['"']) else row.toList

def Backend.output (backend : Backend) (style : Style) (argv : List String)
    (ticked : Nat → Bool) : String :=
  String.ofList (List.intercalate ['\n']
      ((tickedFrom ticked 0 (backend.rows argv)).map (backend.prints style)) ++
    List.replicate style.newlines '\n')

end Programs

def GrantsTicked (request : ConsentRequest) : Prop :=
  ∀ (backend : Backend) (style : Style) (ticked : Nat → Bool) (i : Nat),
    i ∈ grantedIndices (backend.output style (backend.argv request) ticked) request ↔
      i ∈ (tickedFrom ticked 0 request.items).map ConsentItem.index

end MurlSystem

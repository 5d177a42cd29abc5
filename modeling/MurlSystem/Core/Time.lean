import MurlSystem.Core.Json

namespace MurlSystem

def isLeap (year : Int) : Bool :=
  (year % 4 == 0 && year % 100 != 0) || year % 400 == 0

def daysInMonth (year month : Int) : Int :=
  if month ∈ [1,3,5,7,8,10,12] then 31
  else if month ∈ [4,6,9,11] then 30
  else if month = 2 then if isLeap year then 29 else 28
  else 0

def daysFromCivil (y m d : Int) : Int :=
  let y := if m ≤ 2 then y - 1 else y
  let era := (if 0 ≤ y then y else y - 399).tdiv 400
  let yoe := y - era * 400
  let doy := (153 * (if 2 < m then m - 3 else m + 9) + 2).tdiv 5 + d - 1
  let doe := yoe * 365 + yoe.tdiv 4 - yoe.tdiv 100 + doy
  era * 146097 + doe - 719468

def pad2 (n : Int) : String := if n < 10 then s!"0{n}" else s!"{n}"

def numField (s : String) (b : Bytes) (lo hi : Nat) : Except String Int :=
  let part := (b.drop lo).take (hi - lo)
  if part.all (fun c => 48 ≤ c && c ≤ 57) then
    .ok (part.foldl (fun (n : Int) c => 10 * n + (c.toNat - 48 : Nat)) 0)
  else .error s!"`{s}` contains a non-digit in a numeric field"

def timestampShape (b : Bytes) : Bool :=
  b.length == 20 && b[4]? == some 45 && b[7]? == some 45 && b[10]? == some 84 &&
  b[13]? == some 58 && b[16]? == some 58 && b[19]? == some 90

def parseRfc3339Utc (s : String) : Except String Nat := do
  let b := Text.bytes s
  if !timestampShape b then
    throw s!"`{s}` is not a strict UTC timestamp (expected YYYY-MM-DDTHH:MM:SSZ)"
  let year ← numField s b 0 4
  let month ← numField s b 5 7
  let day ← numField s b 8 10
  let hour ← numField s b 11 13
  let minute ← numField s b 14 16
  let second ← numField s b 17 19
  if year < 1970 ∨ 9999 < year then throw s!"year {year} out of range 1970..=9999"
  if month < 1 ∨ 12 < month then throw s!"month {month} out of range"
  if day < 1 ∨ daysInMonth year month < day then
    throw s!"day {day} out of range for {year}-{pad2 month}"
  if 23 < hour ∨ 59 < minute ∨ 59 < second then
    throw s!"time {pad2 hour}:{pad2 minute}:{pad2 second} out of range"
  return (daysFromCivil year month day * 86400 + hour * 3600 + minute * 60 + second).toNat

example : parseRfc3339Utc "2000-01-01T00:00:00Z" = .ok 946684800 := by decide +kernel

end MurlSystem

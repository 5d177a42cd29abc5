import MurlSystem.Caching.Torn

namespace MurlSystem.Protocol

def protocolVersion : Nat := 1

def maxLineBytes : Nat := 8 * 1024

inductive Request
  | ping (protocol : Nat)
  | resolve (protocol : Nat) (murl : String)
  | activate (protocol : Nat) (murl : String) (only : List String)
  | status (protocol : Nat)
deriving DecidableEq, Repr

def Request.protocol : Request → Nat
  | .ping protocol => protocol
  | .resolve protocol _ => protocol
  | .activate protocol _ _ => protocol
  | .status protocol => protocol

inductive Response
  | pong (protocol : Nat) (version : String)
  | plan (resolution : Value)
  | consent (granted denied : List String)
  | outcome (report : Value)
  | status (version : String) (uptimeSecs activations : Nat) (socket : String)
  | error (stage message : String)

section Deserialize

def readU32 : Value → Except String Nat
  | .number n =>
    match n.asU64 with
    | some u => if u < 4294967296 then .ok u.toNat else .error "invalid value, expected u32"
    | none => .error "invalid value, expected u32"
  | _ => .error "invalid type, expected u32"

-- An internally tagged enum: the tag is a member, or the first element, of what holds the fields.
def tagged (tag : String) : Value → Except String (String × Value)
  | .object members =>
    match members.lookup tag with
    | some (.string name) => .ok (name,.object (members.filter fun m => m.1 != tag))
    | some _ => .error "invalid type, expected variant identifier"
    | none => .error s!"missing field `{tag}`"
  | .array (.string name :: fields) => .ok (name,.array fields)
  | .array (_ :: _) => .error "invalid type, expected variant identifier"
  | .array [] => .error s!"missing field `{tag}`"
  | _ => .error "invalid type, expected internally tagged enum Request"

def denyUnknownFields (names : List String) : Value → Except String Unit
  | .object members =>
    match members.find? fun m => !names.contains m.1 with
    | some (k,_) => .error s!"unknown field `{k}`"
    | none => .ok ()
  | _ => .ok ()

def variantFields (names : List String) (fields : Value) :
    Except String (String → Option Value) := do
  denyUnknownFields names fields
  structFields names fields

def Request.fromValue (v : Value) : Except String Request := do
  let (name,fields) ← tagged "type" v
  if name = "ping" then
    let field ← variantFields ["protocol"] fields
    return .ping (← requiredField field readU32 "protocol")
  else if name = "resolve" then
    let field ← variantFields ["protocol","murl"] fields
    let protocol ← requiredField field readU32 "protocol"
    let murl ← requiredField field readString "murl"
    return .resolve protocol murl
  else if name = "activate" then
    let field ← variantFields ["protocol","murl","only"] fields
    let protocol ← requiredField field readU32 "protocol"
    let murl ← requiredField field readString "murl"
    let only ← defaultedField field (readSeq readString) [] "only"
    return .activate protocol murl only
  else if name = "status" then
    let field ← variantFields ["protocol"] fields
    return .status (← requiredField field readU32 "protocol")
  else .error s!"unknown variant `{name}`"

end Deserialize

def parseRequest (crates : Crates) (line : String) : Except Response Request := do
  if maxLineBytes < line.utf8ByteSize then
    throw (.error "protocol" s!"request exceeds {maxLineBytes} bytes")
  let value ← (fromSliceStrict crates (Text.bytes line)).mapError
    fun e => .error "protocol" s!"malformed request: {e}"
  let request ← (Request.fromValue value).mapError
    fun e => .error "protocol" s!"unsupported request: {e}"
  if request.protocol != protocolVersion then
    throw (.error "protocol" (s!"protocol version {request.protocol} is not supported " ++
      s!"(this daemon speaks {protocolVersion})"))
  return request

theorem parseRequest_ok {crates : Crates} {line : String} {request : Request} :
    parseRequest crates line = .ok request ↔ line.utf8ByteSize ≤ maxLineBytes ∧
      ∃ value, fromSliceStrict crates (Text.bytes line) = .ok value ∧
        Request.fromValue value = .ok request ∧ request.protocol = protocolVersion := by
  simp only [parseRequest,Fallible.bind_ok,Fallible.mapError_ok,Fallible.pure_ok,
    Fallible.ite_ok,Fallible.throw_ok,false_and,exists_false,and_false,false_or,bne_iff_ne,
    not_not,not_lt]
  constructor
  · rintro ⟨hsize,value,hvalue,_,hreq,hversion,rfl⟩
    exact ⟨hsize,value,hvalue,hreq,hversion⟩
  · rintro ⟨hsize,value,hvalue,hreq,hversion⟩
    exact ⟨hsize,value,hvalue,request,hreq,hversion,rfl⟩

end MurlSystem.Protocol

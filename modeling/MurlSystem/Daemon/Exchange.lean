import MurlSystem.Canonical.Compact
import MurlSystem.Canonical.Strict
import MurlSystem.Daemon.Server
import MurlSystem.Resolution.RootBudget

namespace MurlSystem.Protocol

section Serialize

def Request.toValue : Request → Value
  | .ping protocol => .object [("type",.string "ping"),("protocol",.number (.int protocol))]
  | .resolve protocol murl =>
    .object [("type",.string "resolve"),("protocol",.number (.int protocol)),("murl",.string murl)]
  | .activate protocol murl only =>
    .object [("type",.string "activate"),("protocol",.number (.int protocol)),
      ("murl",.string murl),("only",Value.strings only)]
  | .status protocol => .object [("type",.string "status"),("protocol",.number (.int protocol))]

def Response.toValue : Response → Value
  | .pong protocol version =>
    .object [("type",.string "pong"),("protocol",.number (.int protocol)),
      ("version",.string version)]
  | .plan resolution => .object [("type",.string "plan"),("resolution",resolution)]
  | .consent granted denied =>
    .object [("type",.string "consent"),("granted",Value.strings granted),
      ("denied",Value.strings denied)]
  | .outcome report => .object [("type",.string "outcome"),("report",report)]
  | .status version uptimeSecs activations socket =>
    .object [("type",.string "status"),("version",.string version),
      ("uptime_secs",.number (.int uptimeSecs)),("activations",.number (.int activations)),
      ("socket",.string socket)]
  | .error stage message =>
    .object [("type",.string "error"),("stage",.string stage),("message",.string message)]

def Response.toLine (response : Response) : String := compact response.toValue ++ "\n"

end Serialize

section Deserialize

def readU64 : Value → Except String Nat
  | .number n =>
    match n.asU64 with
    | some u => .ok u.toNat
    | none => .error "invalid value, expected u64"
  | _ => .error "invalid type, expected u64"

-- Unlike a map, the buffered members of a tagged enum may repeat a name; for its fields that is
-- an error, and what is no field of it is passed over.
def singleFields (names : List String) : Value → Except String Unit
  | .object members =>
    match names.find? fun name => decide (1 < members.countP fun m => m.1 == name) with
    | some name => .error s!"duplicate field `{name}`"
    | none => .ok ()
  | _ => .ok ()

def contentFields (names : List String) (fields : Value) :
    Except String (String → Option Value) := do
  singleFields names fields
  structFields names fields

def readValue (v : Value) : Except String Value := .ok (plainValue v)

def Response.fromTokens (tokens : Value) : Except String Response := do
  singleFields ["type"] tokens
  let (name,fields) ← tagged "type" tokens
  if name = "pong" then
    let field ← contentFields ["protocol","version"] fields
    let protocol ← requiredField field readU32 "protocol"
    let version ← requiredField field readString "version"
    return .pong protocol version
  else if name = "plan" then
    let field ← contentFields ["resolution"] fields
    return .plan (← requiredField field readValue "resolution")
  else if name = "consent" then
    let field ← contentFields ["granted","denied"] fields
    let granted ← requiredField field (readSeq readString) "granted"
    let denied ← requiredField field (readSeq readString) "denied"
    return .consent granted denied
  else if name = "outcome" then
    let field ← contentFields ["report"] fields
    return .outcome (← requiredField field readValue "report")
  else if name = "status" then
    let field ← contentFields ["version","uptime_secs","activations","socket"] fields
    let version ← requiredField field readString "version"
    let uptimeSecs ← requiredField field readU64 "uptime_secs"
    let activations ← requiredField field readU64 "activations"
    let socket ← requiredField field readString "socket"
    return .status version uptimeSecs activations socket
  else if name = "error" then
    let field ← contentFields ["stage","message"] fields
    let stage ← requiredField field readString "stage"
    let message ← requiredField field readString "message"
    return .error stage message
  else .error s!"unknown variant `{name}`"

def Response.fromStr (crates : Crates) (line : String) : Except String Response := do
  let tokens ← crates.serdeJson (Text.bytes line)
  Response.fromTokens tokens

end Deserialize

section Client

inductive Unavailable
  | noSocket
  | untrusted (why : String)
  | io (why : String)
  | protocol (why : String)
deriving DecidableEq, Repr

def Unavailable.toString : Unavailable → String
  | .noSocket => "no daemon socket"
  | .untrusted why => s!"socket not trusted: {why}"
  | .io why => s!"i/o: {why}"
  | .protocol why => s!"protocol: {why}"

structure Reply where
  bytes : Bytes
  failure : Option String

def Reply.lines (reply : Reply) : List Bytes :=
  match reply.failure with
  | none => Lines.cut newline reply.bytes
  | some _ => (Lines.cut newline reply.bytes).filter fun line => decide (Lines.Ended newline line)

-- What stands at the socket's path: whether anything does, whether it may be trusted, what stops
-- the connection or the sending of some bytes, and what comes back for them.
structure Endpoint where
  path : String
  present : Bool
  trusted : Bool
  connect : Option String
  send : Bytes → Option String
  reply : Bytes → Reply

def unlined (text : String) : String :=
  match text.toList.dropSuffix? ['\n'] with
  | some body => String.ofList (Text.lineEnd body)
  | none => text

def isBlank (line : String) : Bool := (Text.trim Text.isWhitespace line.toList).isEmpty

def readResponses (crates : Crates) (failure : Option String) :
    List Bytes → Except Unavailable (List Response)
  | [] =>
    match failure with
    | some why => .error (.io why)
    | none => .ok []
  | piece :: rest => do
    let some text := fromUtf8 piece | throw (.io "stream did not contain valid UTF-8")
    if isBlank (unlined text) then readResponses crates failure rest
    else
      let response ← (Response.fromStr crates (unlined text)).mapError
        fun e => .protocol s!"bad response: {e}"
      let responses ← readResponses crates failure rest
      return response :: responses

def request (crates : Crates) (daemon : Endpoint) (request : Request) :
    Except Unavailable (List Response) := do
  if !daemon.present then throw .noSocket
  if !daemon.trusted then throw (.untrusted s!"{daemon.path} is not a user-private socket")
  match daemon.connect with
  | some why => throw (.io why)
  | none => pure ()
  let line := compact request.toValue
  if maxLineBytes < line.utf8ByteSize then throw (.protocol "request too large")
  match daemon.send (Text.bytes (line ++ "\n")) with
  | some why => throw (.io why)
  | none => pure ()
  let reply := daemon.reply (Text.bytes (line ++ "\n"))
  let responses ← readResponses crates reply.failure reply.lines
  if responses.isEmpty then throw (.protocol "daemon closed without replying")
  return responses

def Response.isPong : Response → Bool
  | .pong protocol _ => protocol == protocolVersion
  | _ => false

def probe (crates : Crates) (daemon : Endpoint) : Bool :=
  match request crates daemon (.ping protocolVersion) with
  | .ok responses => responses.any Response.isPong
  | .error _ => false

end Client

section Lines

variable {text : String}

theorem newline_free (h : Serde.Unbroken text) : newline ∉ Text.bytes text := by
  intro hmem
  obtain ⟨c,hc,hb⟩ := List.mem_flatMap.mp hmem
  cases hascii : Text.isAscii c with
  | false =>
    have hwide := Text.encode_wide hascii newline hb
    exact absurd hwide (by decide)
  | true =>
    rw [Text.encode_ascii hascii,List.mem_singleton] at hb
    have hplain := h c hc
    have hsmall : c.toNat < 128 := by simpa [Text.isAscii] using hascii
    have hnat := congrArg UInt8.toNat hb
    rw [UInt8.toNat_ofNat',Nat.mod_eq_of_lt (by omega)] at hnat
    have hten : newline.toNat = 10 := rfl
    omega

theorem line_bytes (text : String) : Text.bytes (text ++ "\n") = Text.bytes text ++ [newline] := by
  rw [Text.bytes_append]
  rfl

theorem fromUtf8_bytes (text : String) : fromUtf8 (Text.bytes text) = some text :=
  Syntax.fromUtf8_eq_some.mpr rfl

theorem trimmed_line (h : Serde.Unbroken text) : trimmed (text ++ "\n") = text := by
  have hsolid : ∀ c ∈ text.toList, (c == '\r' || c == '\n') = false := by
    intro c hc
    have hplain := h c hc
    rw [Bool.or_eq_false_iff,beq_eq_false_iff_ne,beq_eq_false_iff_ne]
    refine ⟨?_,?_⟩
    · rintro rfl
      exact absurd hplain (by decide)
    · rintro rfl
      exact absurd hplain (by decide)
  rw [trimmed,String.toList_append,Text.trimEnd_append_all _ (by simp),Text.trimEnd_solid hsolid,
    String.ofList_toList]

theorem lineEnd_plain (h : Serde.Unbroken text) : Text.lineEnd text.toList = text.toList := by
  unfold Text.lineEnd
  cases hdrop : text.toList.dropSuffix? ['\r'] with
  | none => rfl
  | some body =>
    obtain ⟨tail,hsplit,htail⟩ := List.dropSuffix?_eq_some_iff.mp hdrop
    obtain rfl := eq_of_beq htail
    have hplain := h '\r' (by rw [hsplit]; simp)
    exact absurd hplain (by decide)

theorem unlined_line (h : Serde.Unbroken text) : unlined (text ++ "\n") = text := by
  have hdrop : (text ++ "\n").toList.dropSuffix? ['\n'] = some text.toList :=
    List.dropSuffix?_eq_some_iff.mpr ⟨['\n'],String.toList_append,by simp⟩
  rw [unlined,hdrop]
  dsimp only
  rw [lineEnd_plain h,String.ofList_toList]

end Lines

section RoundTrip

open Serde

variable {crates : Crates} {f64 : List Char → Option String}

theorem strings_token (d : Nat) (texts : List String) : Token (d + 1) (Value.strings texts) := by
  refine .array d _ fun v hv => ?_
  obtain ⟨text,-,rfl⟩ := List.mem_map.mp hv
  exact .string d text

theorem strings_numbers (texts : List String) : numbers (Value.strings texts) = [] := by
  rw [Value.strings,numbers]
  induction texts with
  | nil => rfl
  | cons text rest ih =>
    rw [List.map_cons,numbersItems,ih]
    rfl

theorem strings_noDup (texts : List String) : noDup (Value.strings texts) = .ok (Value.strings texts) := by
  have hseq : noDupSeq (texts.map Value.string) = .ok (texts.map .string) := by
    induction texts with
    | nil => rfl
    | cons text rest ih =>
      rw [List.map_cons,noDupSeq,ih]
      rfl
  rw [Value.strings,noDup,hseq]
  rfl

theorem strings_read (texts : List String) : readSeq readString (Value.strings texts) = .ok texts := by
  rw [Value.strings,readSeq,Fallible.mapM_ok,List.forall₂_map_left_iff]
  exact List.forall₂_same.mpr fun _ _ => rfl

theorem protocol_token (d : Nat) : Token d (.number (.int protocolVersion)) :=
  .int d _ (by decide) (by decide)

def Request.sorted : Request → Value
  | .ping protocol => .object [("protocol",.number (.int protocol)),("type",.string "ping")]
  | .resolve protocol murl =>
    .object [("murl",.string murl),("protocol",.number (.int protocol)),("type",.string "resolve")]
  | .activate protocol murl only =>
    .object [("murl",.string murl),("only",Value.strings only),
      ("protocol",.number (.int protocol)),("type",.string "activate")]
  | .status protocol => .object [("protocol",.number (.int protocol)),("type",.string "status")]

theorem request_noDup (r : Request) : noDup r.toValue = .ok r.sorted := by
  cases r with
  | ping protocol => rfl
  | resolve protocol murl => rfl
  | activate protocol murl only =>
    rw [Request.toValue,noDup]
    simp only [noDupMap,strings_noDup]
    rfl
  | status protocol => rfl

theorem request_fromValue (r : Request) (h : r.protocol = protocolVersion) :
    Request.fromValue r.sorted = .ok r := by
  cases r with
  | ping protocol =>
    obtain rfl : protocol = 1 := h
    rfl
  | resolve protocol murl =>
    obtain rfl : protocol = 1 := h
    rfl
  | activate protocol murl only =>
    obtain rfl : protocol = 1 := h
    have hread : Request.fromValue (Request.activate 1 murl only).sorted =
        (readSeq readString (Value.strings only)).bind fun only => .ok (.activate 1 murl only) := rfl
    rw [hread,strings_read]
    rfl
  | status protocol =>
    obtain rfl : protocol = 1 := h
    rfl

theorem request_token (r : Request) (h : r.protocol = protocolVersion) :
    Token maxNesting r.toValue := by
  have hprotocol : ∀ d, Token d (.number (.int r.protocol)) := by
    rw [h]
    exact protocol_token
  cases r with
  | ping protocol =>
    exact .object 126 _ (List.forall_mem_cons.mpr ⟨.string _ _,
      List.forall_mem_singleton.mpr (hprotocol _)⟩)
  | resolve protocol murl =>
    exact .object 126 _ (List.forall_mem_cons.mpr ⟨.string _ _,List.forall_mem_cons.mpr
      ⟨hprotocol _,List.forall_mem_singleton.mpr (.string _ _)⟩⟩)
  | activate protocol murl only =>
    exact .object 126 _ (List.forall_mem_cons.mpr ⟨.string _ _,List.forall_mem_cons.mpr
      ⟨hprotocol _,List.forall_mem_cons.mpr ⟨.string _ _,
        List.forall_mem_singleton.mpr (strings_token 125 only)⟩⟩⟩)
  | status protocol =>
    exact .object 126 _ (List.forall_mem_cons.mpr ⟨.string _ _,
      List.forall_mem_singleton.mpr (hprotocol _)⟩)

theorem request_numbers (r : Request) : numbers r.toValue = [.int r.protocol] := by
  cases r with
  | ping protocol => rfl
  | resolve protocol murl => rfl
  | activate protocol murl only =>
    have hstrings := strings_numbers only
    simp only [Request.toValue,numbers,numbersMembers,hstrings]
    rfl
  | status protocol => rfl

theorem request_printable (r : Request) (h : r.protocol = protocolVersion) :
    Printable r.toValue := by
  refine ⟨request_token r h,?_⟩
  rw [Integral,request_numbers,h]
  exact List.forall_mem_singleton.mpr (.inl (by decide))

theorem parseRequest_compact (serde : Tokenises crates f64) {r : Request}
    (h : r.protocol = protocolVersion) (fits : (compact r.toValue).utf8ByteSize ≤ maxLineBytes) :
    parseRequest crates (compact r.toValue) = .ok r := by
  refine parseRequest_ok.mpr ⟨fits,r.sorted,?_,request_fromValue r h,h⟩
  have htokens := (serde _ _).mpr (request_printable r h).tokens
  rw [fromSliceStrict,htokens]
  exact request_noDup r

def Response.Exact : Response → Prop
  | .pong protocol _ => protocol < 4294967296
  | .plan v | .outcome v => Serde.Kept 126 v ∧ Integral v
  | .status _ uptimeSecs activations _ => uptimeSecs < 2 ^ 64 ∧ activations < 2 ^ 64
  | .consent _ _ | .error _ _ => True

theorem asU64_nat {n : Nat} (h : n < 2 ^ 64) : (Number.int n).asU64 = some (n : Int) := by
  rw [Number.asU64,if_pos ⟨by omega,by omega⟩]

theorem readU64_nat {n : Nat} (h : n < 2 ^ 64) : readU64 (.number (.int n)) = .ok n := by
  rw [readU64,asU64_nat h]
  rfl

theorem readU32_nat {n : Nat} (h : n < 4294967296) : readU32 (.number (.int n)) = .ok n := by
  have hlt : (n : Int) < 4294967296 := by exact_mod_cast h
  rw [readU32,asU64_nat (by omega)]
  dsimp only
  rw [if_pos hlt]
  rfl

theorem nat_token {n : Nat} (d : Nat) (h : n < 2 ^ 64) : Token d (.number (.int n)) :=
  .int d _ (by omega) (by exact_mod_cast h)

theorem nat_integral {n : Nat} (h : n < 2 ^ 64) : (Number.int n).asI64.isSome ∨ (Number.int n).asU64.isSome :=
  .inr (by rw [asU64_nat h]; rfl)

theorem kept_plain {d : Nat} {v : Value} (h : Serde.Kept d v) : plainValue v = v :=
  (noDup_plain.mp (noDup_self h)).2.symm

theorem response_token {r : Response} (h : r.Exact) : Token maxNesting r.toValue := by
  cases r with
  | pong protocol version =>
    have hsize : protocol < 4294967296 := h
    exact .object 126 _ (List.forall_mem_cons.mpr ⟨.string _ _,List.forall_mem_cons.mpr
      ⟨nat_token _ (by omega),List.forall_mem_singleton.mpr (.string _ _)⟩⟩)
  | plan v =>
    exact .object 126 _ (List.forall_mem_cons.mpr ⟨.string _ _,
      List.forall_mem_singleton.mpr (kept_token h.1)⟩)
  | consent granted denied =>
    exact .object 126 _ (List.forall_mem_cons.mpr ⟨.string _ _,List.forall_mem_cons.mpr
      ⟨strings_token 125 granted,List.forall_mem_singleton.mpr (strings_token 125 denied)⟩⟩)
  | outcome v =>
    exact .object 126 _ (List.forall_mem_cons.mpr ⟨.string _ _,
      List.forall_mem_singleton.mpr (kept_token h.1)⟩)
  | status version uptimeSecs activations socket =>
    exact .object 126 _ (List.forall_mem_cons.mpr ⟨.string _ _,List.forall_mem_cons.mpr
      ⟨.string _ _,List.forall_mem_cons.mpr ⟨nat_token _ h.1,List.forall_mem_cons.mpr
        ⟨nat_token _ h.2,List.forall_mem_singleton.mpr (.string _ _)⟩⟩⟩⟩)
  | error stage message =>
    exact .object 126 _ (List.forall_mem_cons.mpr ⟨.string _ _,List.forall_mem_cons.mpr
      ⟨.string _ _,List.forall_mem_singleton.mpr (.string _ _)⟩⟩)

theorem response_integral {r : Response} (h : r.Exact) : Integral r.toValue := by
  cases r with
  | pong protocol version =>
    have hsize : protocol < 4294967296 := h
    exact List.forall_mem_singleton.mpr (nat_integral (by omega))
  | plan v =>
    intro n hn
    exact h.2 n (by simpa [Response.toValue,numbers,numbersMembers] using hn)
  | consent granted denied =>
    simp [Integral,Response.toValue,numbers,numbersMembers,strings_numbers]
  | outcome v =>
    intro n hn
    exact h.2 n (by simpa [Response.toValue,numbers,numbersMembers] using hn)
  | status version uptimeSecs activations socket =>
    exact List.forall_mem_cons.mpr ⟨nat_integral h.1,List.forall_mem_singleton.mpr (nat_integral h.2)⟩
  | error stage message => exact List.forall_mem_nil _

theorem response_fromTokens {r : Response} (h : r.Exact) : Response.fromTokens r.toValue = .ok r := by
  cases r with
  | pong protocol version =>
    have hread : ∀ w, Response.fromTokens (.object [("type",.string "pong"),("protocol",w),
        ("version",.string version)]) =
      (readU32 w).bind fun protocol => .ok (.pong protocol version) := fun _ => rfl
    rw [Response.toValue,hread,readU32_nat h]
    rfl
  | plan v =>
    have hread : Response.fromTokens (Response.plan v).toValue = .ok (.plan (plainValue v)) := rfl
    rw [hread,kept_plain h.1]
  | consent granted denied =>
    have hread : Response.fromTokens (Response.consent granted denied).toValue =
      (readSeq readString (Value.strings granted)).bind fun granted =>
        (readSeq readString (Value.strings denied)).bind fun denied => .ok (.consent granted denied) := rfl
    rw [hread,strings_read,strings_read]
    rfl
  | outcome v =>
    have hread : Response.fromTokens (Response.outcome v).toValue = .ok (.outcome (plainValue v)) := rfl
    rw [hread,kept_plain h.1]
  | status version uptimeSecs activations socket =>
    have hread : ∀ w w', Response.fromTokens (.object [("type",.string "status"),
        ("version",.string version),("uptime_secs",w),("activations",w'),("socket",.string socket)]) =
      (readU64 w).bind fun uptimeSecs => (readU64 w').bind fun activations =>
        .ok (.status version uptimeSecs activations socket) := fun _ _ => rfl
    rw [Response.toValue,hread,readU64_nat h.1,readU64_nat h.2]
    rfl
  | error stage message => rfl

theorem fromStr_compact (serde : Tokenises crates f64) {r : Response} (h : r.Exact) :
    Response.fromStr crates (compact r.toValue) = .ok r := by
  have htokens := (serde _ _).mpr (Printable.tokens ⟨response_token h,response_integral h⟩)
  rw [Response.fromStr,htokens]
  exact response_fromTokens h

end RoundTrip

section Reports

open Serde

structure Reportable (d : Nat) (v : Value) : Prop where
  kept : Serde.Kept d v
  integral : Integral v

theorem Reportable.string (d : Nat) (s : String) : Reportable d (.string s) :=
  ⟨.string d s,List.forall_mem_nil _⟩

theorem Reportable.bool (d : Nat) (b : Bool) : Reportable d (.bool b) := ⟨.bool d b,List.forall_mem_nil _⟩

theorem Reportable.nat {n : Nat} (d : Nat) (h : n < 2 ^ 64) : Reportable d (.number (.int n)) :=
  ⟨.int d _ (by omega) (by omega),List.forall_mem_singleton.mpr (nat_integral h)⟩

theorem Reportable.optional {α : Type} {f : α → Value} (d : Nat) (o : Option α) (h : ∀ a, Reportable d (f a)) :
    Reportable d (Value.optional f o) := by
  cases o with
  | none => exact ⟨.null d,List.forall_mem_nil _⟩
  | some a => exact h a

theorem items_integral {items : List Value} (h : ∀ v ∈ items, Integral v) :
    Integral (.array items) := by
  rw [Integral,numbers]
  induction items with
  | nil => exact List.forall_mem_nil _
  | cons v rest ih =>
    obtain ⟨hv,hrest⟩ := List.forall_mem_cons.mp h
    rw [numbersItems]
    exact List.forall_mem_append.mpr ⟨hv,ih hrest⟩

theorem members_integral {members : List (String × Value)} (h : ∀ m ∈ members, Integral m.2) :
    Integral (.object members) := by
  rw [Integral,numbers]
  induction members with
  | nil => exact List.forall_mem_nil _
  | cons m rest ih =>
    obtain ⟨hm,hrest⟩ := List.forall_mem_cons.mp h
    obtain ⟨k,v⟩ := m
    rw [numbersMembers]
    exact List.forall_mem_append.mpr ⟨hm,ih hrest⟩

theorem Reportable.array {d : Nat} {items : List Value} (h : ∀ v ∈ items, Reportable d v) :
    Reportable (d + 1) (.array items) :=
  ⟨.array d items fun v hv => (h v hv).kept,items_integral fun v hv => (h v hv).integral⟩

theorem Reportable.object {d : Nat} {members : List (String × Value)} (names : List String)
    (hnames : members.map Prod.fst = names) (hsorted : names.Pairwise fun a b => a < b)
    (h : ∀ m ∈ members, Reportable d m.2) : Reportable (d + 1) (.object members) := by
  subst hnames
  exact ⟨.object d members (fun m hm => (h m hm).kept) (List.pairwise_map.mp hsorted),
    members_integral fun m hm => (h m hm).integral⟩

theorem Reportable.strings (d : Nat) (texts : List String) : Reportable (d + 1) (Value.strings texts) := by
  refine Reportable.array fun v hv => ?_
  obtain ⟨text,-,rfl⟩ := List.mem_map.mp hv
  exact .string d text

theorem trust_report (d : Nat) (trust : TrustStatus) : Reportable (d + 1) trust.toValue := by
  have hkeyed : ∀ keyId status, Reportable (d + 1)
      (.object [("key_id",.string keyId),("status",.string status)]) := by
    intro keyId status
    exact .object ["key_id","status"] rfl (by decide) (List.forall_mem_cons.mpr
      ⟨.string d _,List.forall_mem_singleton.mpr (.string d _)⟩)
  have hplain : ∀ status, Reportable (d + 1) (.object [("status",.string status)]) := by
    intro status
    exact .object ["status"] rfl (by decide) (List.forall_mem_singleton.mpr (.string d _))
  cases trust with
  | «local» => exact hplain _
  | unsignedRemote => exact hplain _
  | signedUnknownKey keyId => exact hkeyed keyId _
  | signedTrusted keyId => exact hkeyed keyId _

theorem decision_report (d : Nat) (decision : Decision) : Reportable (d + 2) decision.toValue := by
  cases decision with
  | allow =>
    exact .object ["decision"] rfl (by decide) (List.forall_mem_singleton.mpr (.string _ _))
  | prompt reasons =>
    exact .object ["decision","reasons"] rfl (by decide) (List.forall_mem_cons.mpr
      ⟨.string _ _,List.forall_mem_singleton.mpr (.strings d reasons)⟩)
  | deny reason =>
    exact .object ["decision","reasons"] rfl (by decide) (List.forall_mem_cons.mpr
      ⟨.string _ _,List.forall_mem_singleton.mpr (.string _ _)⟩)

theorem node_report (d : Nat) {node : ResolvedNode} (h : node.depth < 2 ^ 64) :
    Reportable (d + 2) node.toJson := by
  refine .object ["depth","expired","identity","name","notYetValid","origin","remote","trust"] rfl
    (by decide +kernel) ?_
  simp only [List.forall_mem_cons]
  exact ⟨.nat _ h,.bool _ _,.optional _ _ (.string _),.string _ _,.bool _ _,.string _ _,.bool _ _,
    trust_report d _,List.forall_mem_nil _⟩

theorem resource_report (d : Nat) {pr : PlannedResource} (h : pr.node < 2 ^ 64) :
    Reportable (d + 3) pr.toJson := by
  refine .object ["decision","id","kind","label","node","required","role","rootAnchor","target",
    "tier"] rfl (by decide +kernel) ?_
  simp only [List.forall_mem_cons]
  exact ⟨.optional _ _ (decision_report d),.string _ _,.string _ _,.string _ _,.nat _ h,.bool _ _,
    .optional _ _ (.string _),.string _ _,.string _ _,.string _ _,List.forall_mem_nil _⟩

theorem resolution_report {res : Resolution} (hnodes : ∀ node ∈ res.nodes, node.depth < 2 ^ 64)
    (hresources : ∀ pr ∈ res.resources, pr.node < 2 ^ 64) : Reportable 126 res.toJson := by
  refine .object ["nodes","resources","selector","warnings"] rfl (by decide +kernel) ?_
  simp only [List.forall_mem_cons]
  refine ⟨.array ?_,.array ?_,.optional _ _ (.string _),.strings _ _,List.forall_mem_nil _⟩
  · intro v hv
    obtain ⟨node,hnode,rfl⟩ := List.mem_map.mp hv
    exact node_report 122 (hnodes node hnode)
  · intro v hv
    obtain ⟨pr,hpr,rfl⟩ := List.mem_map.mp hv
    exact resource_report 121 (hresources pr hpr)

theorem outcome_report (d : Nat) (outcome : ResourceOutcome) : Reportable (d + 1) outcome.toJson := by
  cases hdetail : outcome.detail with
  | none =>
    rw [ResourceOutcome.toJson,hdetail]
    refine .object ["id","kind","label","status","tier"] rfl (by decide +kernel) ?_
    simp only [Option.toList_none,List.map_nil,List.nil_append,List.forall_mem_cons]
    exact ⟨.string _ _,.string _ _,.string _ _,.string _ _,.string _ _,List.forall_mem_nil _⟩
  | some detail =>
    rw [ResourceOutcome.toJson,hdetail]
    refine .object ["detail","id","kind","label","status","tier"] rfl (by decide +kernel) ?_
    simp only [Option.toList_some,List.map_cons,List.map_nil,List.singleton_append,List.forall_mem_cons]
    exact ⟨.string _ _,.string _ _,.string _ _,.string _ _,.string _ _,.string _ _,
      List.forall_mem_nil _⟩

theorem execution_report (report : ExecutionReport) : Reportable 126 report.toJson := by
  refine .object ["aggregate","outcomes"] rfl (by decide +kernel) ?_
  simp only [List.forall_mem_cons]
  refine ⟨.string _ _,.array ?_,List.forall_mem_nil _⟩
  intro v hv
  obtain ⟨outcome,-,rfl⟩ := List.mem_map.mp hv
  exact outcome_report 123 outcome

end Reports

section Told

open Program

def Context.Sized (ctx : Context) : Prop :=
  ∀ deeds, (ctx.resolver deeds).limits.maxDepth < 2 ^ 32 ∧
    (ctx.resolver deeds).limits.maxNestedManifests < 2 ^ 64

variable {ctx : Context} {env : Env} {cache : Cache} {m : Murl} {res : Resolution}
  {run : MurlSystem.Run} {server : Server}

theorem plan_exact (hdepth : env.limits.maxDepth < 2 ^ 32)
    (hmanifests : env.limits.maxNestedManifests < 2 ^ 64)
    (h : resolve env m (Run.start cache) = .ok res run) (policy : Policy) :
    (Response.plan (res.applyPolicy policy).toJson).Exact := by
  obtain ⟨hfinished,hfinish⟩ := wp_ok (resolveRef_spec env cache (.murl m)) h
  have hbounded := hfinished.bounded hfinish
  have hproduced := hfinished.produced hfinish
  have hwithin := resolve_within env cache m h
  have hreport : Reportable 126 (res.applyPolicy policy).toJson := by
    refine resolution_report ?_ ?_
    · intro node hnode
      have hle := hbounded.depth node hnode
      omega
    · intro pr hpr
      obtain ⟨old,hold,rfl⟩ := List.mem_map.mp hpr
      obtain ⟨node,hnode,-⟩ := hproduced.planned old hold
      have hlt := (List.getElem?_eq_some_iff.mp hnode).1
      have hkept : (old.decide policy res.nodes).node = old.node := by
        rw [PlannedResource.decide,hnode]
      omega
  exact ⟨hreport.kept,hreport.integral⟩

theorem resolvePlan_exact (hsized : ctx.Sized) (murl : String) :
    ∀ r ∈ (resolvePlan ctx server murl).1, r.Exact := by
  unfold resolvePlan
  cases Murl.parse murl with
  | error e => exact List.forall_mem_singleton.mpr trivial
  | ok m =>
    dsimp only
    cases hres : resolve _ m _ with
    | error e run => exact List.forall_mem_singleton.mpr trivial
    | ok res run =>
      exact List.forall_mem_singleton.mpr (plan_exact (hsized _).1 (hsized _).2 hres ctx.policy)

theorem dispatch_exact (plan : Resolution) (approvals : List Approval) :
    ∀ r ∈ (dispatch ctx server plan approvals).1, r.Exact := by
  unfold dispatch
  cases execute _ _ _ _ _ _ _ with
  | ok report events =>
    exact List.forall_mem_singleton.mpr ⟨(execution_report report).kept,(execution_report report).integral⟩
  | error e events => exact List.forall_mem_singleton.mpr trivial

theorem obtainConsent_exact (plan : Resolution) (only : List String) :
    ∀ r ∈ (obtainConsent ctx server plan only).1, r.Exact := by
  unfold obtainConsent
  cases Daemon.prepare plan only with
  | none => exact List.forall_mem_nil _
  | some prepared => exact List.forall_mem_cons.mpr ⟨trivial,dispatch_exact plan _⟩

theorem activate_exact (hsized : ctx.Sized) (murl : String) (only : List String) :
    ∀ r ∈ (activate ctx server murl only).1, r.Exact := by
  unfold activate
  cases Murl.parse murl with
  | error e => exact List.forall_mem_singleton.mpr trivial
  | ok m =>
    dsimp only
    cases hres : resolve _ m _ with
    | error e run => exact List.forall_mem_singleton.mpr trivial
    | ok res run =>
      exact List.forall_mem_cons.mpr ⟨plan_exact (hsized _).1 (hsized _).2 hres ctx.policy,
        obtainConsent_exact _ only⟩

theorem handleRequest_exact (hsized : ctx.Sized) (now : UInt64) (server : Server)
    (request : Request) : ∀ r ∈ (handleRequest ctx now server request).1, r.Exact := by
  cases request with
  | ping protocol => exact List.forall_mem_singleton.mpr (by decide : protocolVersion < 4294967296)
  | status protocol =>
    have hnow := now.toNat_lt
    have huptime : now.toNat - ctx.startedAt.toNat < 2 ^ 64 := by omega
    exact List.forall_mem_singleton.mpr ⟨huptime,server.activations.toNat_lt⟩
  | resolve protocol murl => exact resolvePlan_exact hsized murl
  | activate protocol murl only => exact activate_exact hsized murl only

theorem handleRequest_some (now : UInt64) (server : Server) (request : Request) :
    (handleRequest ctx now server request).1 ≠ [] := by
  cases request with
  | ping protocol => exact List.cons_ne_nil _ _
  | status protocol => exact List.cons_ne_nil _ _
  | resolve protocol murl =>
    change (resolvePlan ctx _ murl).1 ≠ []
    unfold resolvePlan
    cases Murl.parse murl with
    | error e => exact List.cons_ne_nil _ _
    | ok m =>
      dsimp only
      cases resolve _ m _ with
      | error e run => exact List.cons_ne_nil _ _
      | ok res run => exact List.cons_ne_nil _ _
  | activate protocol murl only =>
    change (activate ctx _ murl only).1 ≠ []
    unfold activate
    cases Murl.parse murl with
    | error e => exact List.cons_ne_nil _ _
    | ok m =>
      dsimp only
      cases resolve _ m _ with
      | error e run => exact List.cons_ne_nil _ _
      | ok res run => exact List.cons_ne_nil _ _

end Told

section Exchange

open Serde

variable {crates : Crates} {f64 : List Char → Option String} {σ : Type}
  {handle : σ → Request → List Response × σ} {peer : Outgoing}

def sentBytes (r : Request) : Bytes := Text.bytes (compact r.toValue ++ "\n")

def toldBytes (responses : List Response) : Bytes :=
  responses.flatMap fun response => Text.bytes response.toLine

theorem line_cut {text : String} (h : Unbroken text) (rest : Bytes) :
    Lines.cut newline (Text.bytes (text ++ "\n") ++ rest) =
      Text.bytes (text ++ "\n") :: Lines.cut newline rest := by
  rw [line_bytes,List.append_assoc,List.singleton_append,Lines.cut_ended (newline_free h)]

theorem response_unbroken {r : Response} (h : r.Exact) : Unbroken (compact r.toValue) :=
  compact_unbroken (response_integral h)

theorem told_cut {responses : List Response} (h : ∀ r ∈ responses, r.Exact) :
    Lines.cut newline (toldBytes responses) = responses.map fun r => Text.bytes r.toLine := by
  induction responses with
  | nil => rfl
  | cons r rest ih =>
    obtain ⟨hr,hrest⟩ := List.forall_mem_cons.mp h
    rw [toldBytes,List.flatMap_cons,Response.toLine,line_cut (response_unbroken hr)]
    exact congrArg _ (ih hrest)

theorem isBlank_brace {text : String} {body : List Char} (h : text.toList = '{' :: body) :
    isBlank text = false := by
  have hsome : Text.trimEnd Text.isWhitespace ('{' :: body) ≠ [] := by
    intro hnil
    have hspace := Text.trimEnd_eq_nil.mp hnil '{' List.mem_cons_self
    exact absurd hspace (by decide)
  rw [isBlank,h,Text.trim,List.dropWhile_cons_of_neg (by decide)]
  exact List.isEmpty_eq_false_iff.mpr hsome

theorem response_brace (r : Response) : ∃ body, (compact r.toValue).toList = '{' :: body := by
  have hobject : ∃ members, r.toValue = .object members := by
    cases r <;> exact ⟨_,rfl⟩
  obtain ⟨members,hmembers⟩ := hobject
  rw [hmembers,compact,String.append_assoc,String.toList_append]
  exact ⟨_,rfl⟩

theorem readResponses_told (serde : Tokenises crates f64) {responses : List Response}
    (h : ∀ r ∈ responses, r.Exact) :
    readResponses crates none (responses.map fun r => Text.bytes r.toLine) = .ok responses := by
  induction responses with
  | nil => rfl
  | cons r rest ih =>
    obtain ⟨hr,hrest⟩ := List.forall_mem_cons.mp h
    have hread := fromUtf8_bytes r.toLine
    have hline : unlined r.toLine = compact r.toValue := unlined_line (response_unbroken hr)
    obtain ⟨body,hbody⟩ := response_brace r
    have hblank : isBlank (compact r.toValue) = false := isBlank_brace hbody
    rw [List.map_cons,readResponses,hread]
    dsimp only
    rw [hline,hblank,fromStr_compact serde hr,ih hrest]
    rfl

theorem sentBytes_length {r : Request} (fits : (compact r.toValue).utf8ByteSize ≤ maxLineBytes) :
    (sentBytes r).length ≤ maxLineBytes + 1 := by
  rw [sentBytes,line_bytes,List.length_append,Text.length_bytes,List.length_singleton]
  omega

theorem request_unbroken {r : Request} (h : r.protocol = protocolVersion) :
    Unbroken (compact r.toValue) :=
  compact_unbroken (request_printable r h).integral

theorem request_some {r : Request} : (compact r.toValue).isEmpty = false := by
  have hobject : ∃ members, r.toValue = .object members := by
    cases r <;> exact ⟨_,rfl⟩
  obtain ⟨members,hmembers⟩ := hobject
  rw [hmembers,compact,String.append_assoc,String.isEmpty_eq_false_iff]
  intro hnil
  have hlist := congrArg String.toList hnil
  rw [String.toList_append] at hlist
  cases hlist

theorem serveConnection_single (serde : Tokenises crates f64) (hpeer : peer.Open) {r : Request}
    (h : r.protocol = protocolVersion) (fits : (compact r.toValue).utf8ByteSize ≤ maxLineBytes)
    {incoming : Incoming} (hbytes : incoming.bytes = sentBytes r) (hends : incoming.failure = none)
    (state : σ) :
    (serveConnection crates handle peer incoming maxRequests state).2 =
      ⟨(handle state r).2,[⟨0,sentBytes r,r⟩],(handle state r).1⟩ := by
  have hcut : Lines.cut newline (sentBytes r) = [sentBytes r] := by
    have hline := line_cut (request_unbroken h) []
    rwa [List.append_nil] at hline
  have hlength := sentBytes_length fits
  have hreads : ∃ ending, incoming.reads (byteBudget maxRequests) = ([sentBytes r],ending) := by
    rw [Incoming.reads]
    split
    · rename_i hbudget
      rw [hbytes] at hbudget
      have hroom : maxLineBytes + 1 < byteBudget maxRequests := by decide
      omega
    · rw [hends]
      refine ⟨.ok (),?_⟩
      rw [Incoming.lines,hends]
      dsimp only
      rw [hbytes,hcut]
  obtain ⟨ending,hreads⟩ := hreads
  have htrimmed : trimmed (compact r.toValue ++ "\n") = compact r.toValue :=
    trimmed_line (request_unbroken h)
  rw [serveConnection,hreads]
  dsimp only
  rw [serveLines,if_neg (by decide),sentBytes,fromUtf8_bytes]
  dsimp only
  rw [htrimmed,request_some]
  have hserve : serveLine crates handle peer 0 (sentBytes r) (compact r.toValue) ⟨state,[],[]⟩ =
      (.ok (),⟨(handle state r).2,[⟨0,sentBytes r,r⟩],(handle state r).1⟩) := by
    rw [serveLine,parseRequest_compact serde h fits]
    dsimp only
    rw [sendAll_open hpeer]
    rfl
  rw [sentBytes] at hserve
  rw [if_neg Bool.false_ne_true,hserve]
  dsimp only
  rw [serveLines]
  split <;> rfl

def daemonAt (crates : Crates) (ctx : Context) (now : UInt64) (server : Server) (path : String) :
    Endpoint where
  path := path
  present := true
  trusted := true
  connect := none
  send _ := none
  reply sent :=
    if h : sent.length < 2 ^ 64 then
      ⟨toldBytes (serveConnection crates (handleRequest ctx now) ⟨fun _ => none,fun _ => none⟩
        ⟨sent,h,none⟩ maxRequests server).2.written,none⟩
    else ⟨[],some "stream too long"⟩

structure Exchanged (crates : Crates) (ctx : Context) (now : UInt64) (server : Server)
    (path : String) (r : Request) : Prop where
  handled : ∀ incoming peer, incoming.bytes = sentBytes r → incoming.failure = none → peer.Open →
    (serveConnection crates (handleRequest ctx now) peer incoming maxRequests server).2 =
      ⟨(handleRequest ctx now server r).2,[⟨0,sentBytes r,r⟩],(handleRequest ctx now server r).1⟩
  told : request crates (daemonAt crates ctx now server path) r =
    .ok (handleRequest ctx now server r).1
  probed : probe crates (daemonAt crates ctx now server path) = true

variable {ctx : Context} {now : UInt64} {server : Server}

theorem daemonAt_reply (serde : Tokenises crates f64) {r : Request}
    (h : r.protocol = protocolVersion) (fits : (compact r.toValue).utf8ByteSize ≤ maxLineBytes)
    (path : String) : (daemonAt crates ctx now server path).reply (sentBytes r) =
      ⟨toldBytes (handleRequest ctx now server r).1,none⟩ := by
  have hlength := sentBytes_length fits
  have hcounted : (sentBytes r).length < 2 ^ 64 := by
    have hmax : maxLineBytes + 1 < 2 ^ 64 := by decide
    omega
  have hopen : Outgoing.Open ⟨fun _ => none,fun _ => none⟩ := ⟨fun _ => rfl,fun _ => rfl⟩
  have hsingle := @serveConnection_single crates f64 Server (handleRequest ctx now) _ serde hopen r h fits
    ⟨sentBytes r,hcounted,none⟩ rfl rfl server
  dsimp only [daemonAt]
  rw [dif_pos hcounted,hsingle]

theorem request_told (serde : Tokenises crates f64) (sized : ctx.Sized) {r : Request}
    (h : r.protocol = protocolVersion) (fits : (compact r.toValue).utf8ByteSize ≤ maxLineBytes)
    (path : String) : request crates (daemonAt crates ctx now server path) r =
      .ok (handleRequest ctx now server r).1 := by
  have hexact := handleRequest_exact sized now server r
  have hread := readResponses_told serde hexact
  have hsome : (handleRequest ctx now server r).1.isEmpty = false :=
    List.isEmpty_eq_false_iff.mpr (handleRequest_some now server r)
  have hreply := @daemonAt_reply crates f64 ctx now server serde r h fits path
  have hlines : (Reply.mk (toldBytes (handleRequest ctx now server r).1) none).lines =
      (handleRequest ctx now server r).1.map fun r => Text.bytes r.toLine := told_cut hexact
  have hfits : ¬maxLineBytes < (compact r.toValue).utf8ByteSize := Nat.not_lt.mpr fits
  have hreplied : request crates (daemonAt crates ctx now server path) r =
      if maxLineBytes < (compact r.toValue).utf8ByteSize then .error (.protocol "request too large")
      else (readResponses crates ((daemonAt crates ctx now server path).reply (sentBytes r)).failure
        ((daemonAt crates ctx now server path).reply (sentBytes r)).lines).bind fun responses =>
          if responses.isEmpty then .error (.protocol "daemon closed without replying")
          else .ok responses := rfl
  rw [hreplied,if_neg hfits,hreply,hlines,hread]
  change (if (handleRequest ctx now server r).1.isEmpty = true then _ else _) = _
  rw [hsome]
  rfl

theorem probe_daemonAt (serde : Tokenises crates f64) (sized : ctx.Sized) (path : String) :
    probe crates (daemonAt crates ctx now server path) = true := by
  have hping := @request_told crates f64 ctx now server serde sized (.ping protocolVersion) rfl
    (by decide +kernel) path
  rw [probe,hping]
  rfl

theorem exchange_lossless (crates : Crates) (f64 : List Char → Option String)
    (serde : Tokenises crates f64) (ctx : Context) (sized : ctx.Sized) (now : UInt64)
    (server : Server) (path : String) (r : Request) (version : r.protocol = protocolVersion)
    (fits : (compact r.toValue).utf8ByteSize ≤ maxLineBytes) :
    Exchanged crates ctx now server path r where
  handled incoming peer hbytes hends hpeer :=
    @serveConnection_single crates f64 Server (handleRequest ctx now) peer serde hpeer r version fits
      incoming hbytes hends server
  told := request_told serde sized version fits path
  probed := probe_daemonAt serde sized path

end Exchange

section Activation

def docsContext : Context where
  resolver _ := shellEnv
  policy := {}
  os := .posix
  opener := sampleDesktop.opener
  launcher _ := sampleDesktop.launcher
  consent _ _ := []
  limits := {}
  startedAt := 0
  socket := "/run/user/1000/murl/murl.sock"
  version := "0.3.0"

theorem docsContext_sized : docsContext.Sized := by
  intro deeds
  change 3 < 2 ^ 32 ∧ 8 < 2 ^ 64
  decide

theorem shell_exchanged : Exchanged (Serde.tokenising Serde.shown Serde.bareCrates) docsContext 0
    ⟨Cache.empty,0,[]⟩ "murl.sock" (.activate 1 "murl://a.com/shell" ["docs"]) :=
  exchange_lossless _ Serde.shown (Serde.tokenising_tokenises _ _) docsContext
    docsContext_sized 0 ⟨Cache.empty,0,[]⟩ "murl.sock"
    (.activate 1 "murl://a.com/shell" ["docs"]) rfl (by decide +kernel)

end Activation

end MurlSystem.Protocol

import MurlSystem.Daemon.Protocol
import MurlSystem.Foundation.Lines

namespace MurlSystem.Protocol

def newline : UInt8 := 10

-- What a peer sends: its bytes, which a u64 counts, and how reading fails after them, if the stream
-- does not end there.
structure Incoming where
  bytes : Bytes
  counted : bytes.length < 2 ^ 64
  failure : Option String

-- What stops a response, after those that were sent, and what stops a flush.
structure Outgoing where
  write : List Response → Option String
  flush : List Response → Option String

structure Handled where
  index : Nat
  line : Bytes
  request : Request

structure Session (σ : Type) where
  state : σ
  handled : List Handled
  written : List Response

def byteBudget (maxRequests : Nat) : Nat := min ((maxLineBytes + 1) * maxRequests) (2 ^ 64 - 1)

def Incoming.lines (stream : Incoming) : List Bytes :=
  match stream.failure with
  | none => Lines.cut newline stream.bytes
  | some _ => (Lines.cut newline stream.bytes).filter fun line => decide (Lines.Ended newline line)

def Incoming.reads (stream : Incoming) (budget : Nat) : List Bytes × Except String Unit :=
  if budget ≤ stream.bytes.length then (Lines.cut newline (stream.bytes.take budget),.ok ())
  else
    match stream.failure with
    | none => (stream.lines,.ok ())
    | some e => (stream.lines,.error e)

def trimmed (line : String) : String :=
  String.ofList (Text.trimEnd (fun c => c == '\r' || c == '\n') line.toList)

section Serve

variable {σ : Type} (crates : Crates) (handle : σ → Request → List Response × σ) (peer : Outgoing)

def sendAll : List Response → List Response → Except String Unit × List Response
  | written,[] =>
    match peer.flush written with
    | some e => (.error e,written)
    | none => (.ok (),written)
  | written,response :: rest =>
    match peer.write written with
    | some e => (.error e,written)
    | none => sendAll (written ++ [response]) rest

def serveLine (index : Nat) (line : Bytes) (text : String) (session : Session σ) :
    Except String Unit × Session σ :=
  match parseRequest crates text with
  | .ok request =>
    let (responses,state) := handle session.state request
    let (sent,written) := sendAll peer session.written responses
    (sent,⟨state,session.handled ++ [⟨index,line,request⟩],written⟩)
  | .error refusal =>
    let (sent,written) := sendAll peer session.written [refusal]
    (sent,{ session with written := written })

def serveLines (maxRequests : Nat) (ending : Except String Unit) :
    List Bytes → Nat → Nat → Session σ → Except String Unit × Session σ
  | [],_,served,session => if maxRequests ≤ served then (.ok (),session) else (ending,session)
  | line :: rest,index,served,session =>
    if maxRequests ≤ served then (.ok (),session)
    else
      match fromUtf8 line with
      | none => (.error "stream did not contain valid UTF-8",session)
      | some text =>
        if (trimmed text).isEmpty then serveLines maxRequests ending rest (index + 1) served session
        else
          match serveLine crates handle peer index line (trimmed text) session with
          | (.ok (),session) => serveLines maxRequests ending rest (index + 1) (served + 1) session
          | (.error e,session) => (.error e,session)

def serveConnection (stream : Incoming) (maxRequests : Nat) (state : σ) :
    Except String Unit × Session σ :=
  let (lines,ending) := stream.reads (byteBudget maxRequests)
  serveLines crates handle peer maxRequests ending lines 0 0 ⟨state,[],[]⟩

end Serve

def spoken (line : Bytes) : Option String :=
  ((fromUtf8 line).map trimmed).filter fun text => !text.isEmpty

def requestOf (crates : Crates) (line : Bytes) : Option Request :=
  (spoken line).bind fun text => (parseRequest crates text).toOption

section Steps

variable {σ : Type} {crates : Crates} {handle : σ → Request → List Response × σ} {peer : Outgoing}
  {maxRequests index served : Nat} {ending : Except String Unit} {lines : List Bytes}
  {session : Session σ} {line : Bytes} {text : String}

theorem serveLine_handled (index : Nat) (line : Bytes) (text : String) (session : Session σ) :
    (serveLine crates handle peer index line text session).2.handled = session.handled ++
      ((parseRequest crates text).toOption.toList.map fun request => ⟨index,line,request⟩) := by
  unfold serveLine
  cases parseRequest crates text with
  | ok request => rfl
  | error refusal => exact (List.append_nil _).symm

structure Logged (crates : Crates) (maxRequests index served : Nat) (lines : List Bytes)
    (e : Handled) : Prop where
  place : ∃ j, e.index = index + j ∧ lines[j]? = some e.line ∧
    (∀ l ∈ lines.take j, (fromUtf8 l).isSome) ∧
    served + (lines.take j).countP (fun l => (spoken l).isSome) < maxRequests
  request : requestOf crates e.line = some e.request

theorem Logged.cons {served' : Nat} {rest : List Bytes} {e : Handled}
    (h : Logged crates maxRequests (index + 1) served' rest e) (hread : (fromUtf8 line).isSome = true)
    (hserved : served + [line].countP (fun l => (spoken l).isSome) = served') :
    Logged crates maxRequests index served (line :: rest) e := by
  obtain ⟨j,hindex,hline,hvalid,hfew⟩ := h.place
  refine ⟨⟨j + 1,by omega,hline,?_,?_⟩,h.request⟩
  · rw [List.take_succ_cons]
    exact List.forall_mem_cons.mpr ⟨hread,hvalid⟩
  · rw [List.take_succ_cons,List.countP_cons]
    rw [List.countP_cons,List.countP_nil] at hserved
    omega

theorem spoken_some (hread : fromUtf8 line = some text) (hblank : (trimmed text).isEmpty = false) :
    spoken line = some (trimmed text) := by
  rw [spoken,hread,Option.map_some,Option.filter_some,hblank]
  rfl

theorem spoken_blank (hread : fromUtf8 line = some text) (hblank : (trimmed text).isEmpty = true) :
    spoken line = none := by
  rw [spoken,hread,Option.map_some,Option.filter_some,hblank]
  rfl

theorem requestOf_some {request : Request} (h : requestOf crates line = some request) :
    ∃ text, spoken line = some text ∧ text.utf8ByteSize ≤ maxLineBytes ∧ parseRequest crates text = .ok request := by
  obtain ⟨text,htext,hparse⟩ := Option.bind_eq_some_iff.mp h
  have hok : parseRequest crates text = .ok request := by
    cases hp : parseRequest crates text with
    | error refusal => rw [hp] at hparse; cases hparse
    | ok r => rw [hp] at hparse; exact congrArg Except.ok (Option.some.inj hparse)
  exact ⟨text,htext,(parseRequest_ok.mp hok).1,hok⟩

structure Run (crates : Crates) (maxRequests index served : Nat) (lines : List Bytes)
    (new : List Handled) : Prop where
  increasing : (new.map Handled.index).Pairwise (· < ·)
  later : ∀ e ∈ new, index ≤ e.index
  few : served + new.length ≤ max served maxRequests
  logged : ∀ e ∈ new, Logged crates maxRequests index served lines e

theorem Run.nil : Run crates maxRequests index served lines [] :=
  ⟨List.Pairwise.nil,by simp,Nat.le_max_left _ _,by simp⟩

theorem Run.skip {rest : List Bytes} {new : List Handled}
    (h : Run crates maxRequests (index + 1) served rest new) (hread : fromUtf8 line = some text)
    (hblank : (trimmed text).isEmpty = true) :
    Run crates maxRequests index served (line :: rest) new where
  increasing := h.increasing
  later e he := Nat.le_of_succ_le (h.later e he)
  few := h.few
  logged e he := (h.logged e he).cons (by rw [hread]; rfl) (by simp [spoken_blank hread hblank])

theorem Run.answer {rest : List Bytes} {new : List Handled}
    (h : Run crates maxRequests (index + 1) (served + 1) rest new) (hroom : served < maxRequests)
    (hread : fromUtf8 line = some text) (hblank : (trimmed text).isEmpty = false) :
    Run crates maxRequests index served (line :: rest)
      ((parseRequest crates (trimmed text)).toOption.toList.map
        (fun request => ⟨index,line,request⟩) ++ new) := by
  have hspoken := spoken_some hread hblank
  have htail : ∀ e ∈ new, Logged crates maxRequests index served (line :: rest) e :=
    fun e he => (h.logged e he).cons (by rw [hread]; rfl) (by simp [hspoken])
  cases hparse : parseRequest crates (trimmed text) with
  | error refusal =>
    have hfew := h.few
    exact ⟨h.increasing,fun e he => Nat.le_of_succ_le (h.later e he),by
      change served + new.length ≤ _
      omega,htail⟩
  | ok request =>
    have hfew := h.few
    have hhead : Logged crates maxRequests index served (line :: rest) ⟨index,line,request⟩ := by
      refine ⟨⟨0,rfl,rfl,by simp,by simpa using hroom⟩,?_⟩
      rw [requestOf,hspoken,Option.bind_some,hparse]
      rfl
    refine ⟨List.pairwise_cons.mpr ⟨?_,h.increasing⟩,
      List.forall_mem_cons.mpr ⟨Nat.le_refl index,fun e he => Nat.le_of_succ_le (h.later e he)⟩,?_,
      List.forall_mem_cons.mpr ⟨hhead,htail⟩⟩
    · intro i hi
      obtain ⟨e,he,rfl⟩ := List.mem_map.mp hi
      exact h.later e he
    · change served + (new.length + 1) ≤ _
      omega

theorem serveLines_run (lines : List Bytes) : ∀ (index served : Nat) (session : Session σ), ∃ new,
    (serveLines crates handle peer maxRequests ending lines index served session).2.handled =
        session.handled ++ new ∧ Run crates maxRequests index served lines new := by
  induction lines with
  | nil =>
    intro index served session
    refine ⟨[],?_,.nil⟩
    rw [serveLines]
    split <;> simp
  | cons line rest ih =>
    intro index served session
    rw [serveLines]
    split
    · exact ⟨[],by simp,.nil⟩
    · next hroom =>
      cases hread : fromUtf8 line with
      | none => exact ⟨[],by simp,.nil⟩
      | some text =>
        dsimp only
        split
        · next hblank =>
          obtain ⟨new,hnew,hrun⟩ := ih (index + 1) served session
          exact ⟨new,hnew,hrun.skip hread hblank⟩
        · next hblank =>
          have hblank := Bool.eq_false_iff.mpr hblank
          have hroom := Nat.not_le.mp hroom
          have hhandled := @serveLine_handled σ crates handle peer index line (trimmed text) session
          cases hserve : serveLine crates handle peer index line (trimmed text) session with
          | mk result session' =>
            rw [hserve] at hhandled
            cases result with
            | error e => exact ⟨_,hhandled,by simpa using Run.answer .nil hroom hread hblank⟩
            | ok _ =>
              obtain ⟨new,hnew,hrun⟩ := ih (index + 1) (served + 1) session'
              refine ⟨_,?_,hrun.answer hroom hread hblank⟩
              dsimp only
              rw [hnew,hhandled,List.append_assoc]

end Steps

section Answers

variable {σ : Type} {crates : Crates} {handle : σ → Request → List Response × σ} {peer : Outgoing}
  {maxRequests : Nat} {ending : Except String Unit}

def respond (crates : Crates) (handle : σ → Request → List Response × σ) (state : σ) (text : String) :
    List Response × σ :=
  match parseRequest crates text with
  | .ok request => handle state request
  | .error refusal => ([refusal],state)

def answersTo (crates : Crates) (handle : σ → Request → List Response × σ) :
    σ → List String → List Response
  | _,[] => []
  | state,text :: rest =>
    (respond crates handle state text).1 ++
      answersTo crates handle (respond crates handle state text).2 rest

def Outgoing.Open (peer : Outgoing) : Prop := (∀ sent, peer.write sent = none) ∧ ∀ sent, peer.flush sent = none

theorem sendAll_open (hpeer : peer.Open) (rs : List Response) : ∀ written,
    sendAll peer written rs = (.ok (),written ++ rs) := by
  induction rs with
  | nil =>
    intro written
    rw [sendAll,hpeer.2,List.append_nil]
  | cons r rest ih =>
    intro written
    rw [sendAll,hpeer.1]
    dsimp only
    rw [ih,List.append_assoc]
    rfl

theorem serveLine_open (hpeer : peer.Open) (index : Nat) (line : Bytes) (text : String)
    (session : Session σ) : ∃ session', serveLine crates handle peer index line text session =
        (.ok (),session') ∧ session'.state = (respond crates handle session.state text).2 ∧
      session'.written = session.written ++ (respond crates handle session.state text).1 := by
  unfold serveLine respond
  cases parseRequest crates text with
  | ok request =>
    dsimp only
    rw [sendAll_open hpeer]
    exact ⟨_,rfl,rfl,rfl⟩
  | error refusal =>
    dsimp only
    rw [sendAll_open hpeer]
    exact ⟨_,rfl,rfl,rfl⟩

theorem serveLines_answers (hpeer : peer.Open) (lines : List Bytes) :
    ∀ (index served : Nat) (session : Session σ), (∀ l ∈ lines, (fromUtf8 l).isSome = true) →
      served + (lines.filterMap spoken).length ≤ maxRequests →
      (serveLines crates handle peer maxRequests ending lines index served session).2.written =
        session.written ++ answersTo crates handle session.state (lines.filterMap spoken) := by
  induction lines with
  | nil =>
    intro index served session _ _
    rw [serveLines]
    split <;> simp [answersTo]
  | cons line rest ih =>
    intro index served session hvalid hfew
    obtain ⟨hline,hrest⟩ := List.forall_mem_cons.mp hvalid
    obtain ⟨text,hread⟩ := Option.isSome_iff_exists.mp hline
    rw [serveLines]
    split
    · next hfull =>
      have hnone : ((line :: rest).filterMap spoken) = [] := List.length_eq_zero_iff.mp (by omega)
      rw [hnone]
      simp [answersTo]
    · rw [hread]
      dsimp only
      split
      · next hblank =>
        rw [List.filterMap_cons_none (spoken_blank hread hblank)] at hfew ⊢
        exact ih (index + 1) served session hrest hfew
      · next hblank =>
        have hspoken := spoken_some hread (Bool.eq_false_iff.mpr hblank)
        rw [List.filterMap_cons_some hspoken] at hfew ⊢
        rw [List.length_cons] at hfew
        obtain ⟨session',hserve,hstate,hwritten⟩ :=
          @serveLine_open σ crates handle peer hpeer index line (trimmed text) session
        rw [hserve]
        dsimp only
        rw [ih (index + 1) (served + 1) session' hrest (by omega),hwritten,hstate,answersTo,
          List.append_assoc]

theorem handled_mono (lines : List Bytes) (index served : Nat) (session : Session σ) {e : Handled}
    (h : e ∈ session.handled) : e ∈
      (serveLines crates handle peer maxRequests ending lines index served session).2.handled := by
  obtain ⟨new,hnew,-⟩ := @serveLines_run σ crates handle peer maxRequests ending lines index served session
  rw [hnew]
  exact List.mem_append_left new h

theorem serveLines_reached (hpeer : peer.Open) (before : List Bytes) {piece : Bytes} {after : List Bytes}
    {request : Request} (hrequest : requestOf crates piece = some request) :
    ∀ (index served : Nat) (session : Session σ), (∀ l ∈ before, (fromUtf8 l).isSome = true) →
      served + (before.filterMap spoken).length < maxRequests →
      ⟨index + before.length,piece,request⟩ ∈ (serveLines crates handle peer maxRequests ending
        (before ++ piece :: after) index served session).2.handled := by
  induction before with
  | nil =>
    intro index served session _ hfew
    obtain ⟨said,hsaid,-,hok⟩ := requestOf_some hrequest
    obtain ⟨hmapped,hsome⟩ := Option.filter_eq_some_iff.mp hsaid
    obtain ⟨text,hread,rfl⟩ := Option.map_eq_some_iff.mp hmapped
    have hblank : (trimmed text).isEmpty = false := by simpa using hsome
    have hroom : ¬maxRequests ≤ served := by
      rw [List.filterMap_nil,List.length_nil] at hfew
      omega
    rw [List.nil_append,serveLines,if_neg hroom,hread]
    dsimp only
    rw [hblank]
    obtain ⟨session',hserve,-,-⟩ :=
      @serveLine_open σ crates handle peer hpeer index piece (trimmed text) session
    have hhandled := @serveLine_handled σ crates handle peer index piece (trimmed text) session
    rw [hserve,hok] at hhandled
    rw [hserve]
    refine handled_mono after (index + 1) (served + 1) session' ?_
    change session'.handled = _ at hhandled
    rw [hhandled]
    exact List.mem_append_right _ (List.mem_singleton_self _)
  | cons line before ih =>
    intro index served session hvalid hfew
    obtain ⟨hline,hrest⟩ := List.forall_mem_cons.mp hvalid
    obtain ⟨text,hread⟩ := Option.isSome_iff_exists.mp hline
    have hplace : index + (line :: before).length = index + 1 + before.length := by
      rw [List.length_cons]
      omega
    rw [List.cons_append,serveLines,hplace]
    split
    · omega
    · rw [hread]
      dsimp only
      split
      · next hblank =>
        rw [List.filterMap_cons_none (spoken_blank hread hblank)] at hfew
        exact ih (index + 1) served session hrest hfew
      · next hblank =>
        have hspoken := spoken_some hread (Bool.eq_false_iff.mpr hblank)
        rw [List.filterMap_cons_some hspoken,List.length_cons] at hfew
        obtain ⟨session',hserve,-,-⟩ :=
          @serveLine_open σ crates handle peer hpeer index line (trimmed text) session
        rw [hserve]
        exact ih (index + 1) (served + 1) session' hrest (by omega)

end Answers

end MurlSystem.Protocol

import Mathlib.Algebra.Order.BigOperators.Group.List
import Mathlib.Algebra.Order.Ring.Nat
import MurlSystem.Canonical.Lossless
import MurlSystem.Daemon.Connection
import MurlSystem.Naming.Stages

namespace MurlSystem.Protocol

def Incoming.Whole (stream : Incoming) : Prop := stream.lines = Lines.cut newline stream.bytes

structure Genuine (crates : Crates) (stream : Incoming) (e : Handled) : Prop where
  line : stream.lines[e.index]? = some e.line
  request : ∃ text, spoken e.line = some text ∧ text.utf8ByteSize ≤ maxLineBytes ∧
    parseRequest crates text = .ok e.request

structure Framed (crates : Crates) (stream : Incoming) (maxRequests : Nat) : Prop where
  genuine : ∀ {σ : Type} (handle : σ → Request → List Response × σ) (peer : Outgoing) (state : σ),
    ∀ e ∈ (serveConnection crates handle peer stream maxRequests state).2.handled,
      Genuine crates stream e
  ordered : ∀ {σ : Type} (handle : σ → Request → List Response × σ) (peer : Outgoing) (state : σ),
    ((serveConnection crates handle peer stream maxRequests state).2.handled.map
      Handled.index).Pairwise (· < ·)
  few : ∀ {σ : Type} (handle : σ → Request → List Response × σ) (peer : Outgoing) (state : σ),
    (serveConnection crates handle peer stream maxRequests state).2.handled.length ≤ maxRequests
  answered : stream.Whole → stream.lines.length ≤ maxRequests →
    (∀ line ∈ stream.lines, (fromUtf8 line).isSome ∧ line.length ≤ maxLineBytes + 1) →
    ∀ {σ : Type} (handle : σ → Request → List Response × σ) (peer : Outgoing) (state : σ), peer.Open →
      (serveConnection crates handle peer stream maxRequests state).2.written =
        answersTo crates handle state (stream.lines.filterMap spoken)

def Uncut (crates : Crates) (stream : Incoming) (maxRequests : Nat) : Prop :=
  ∀ before piece,
    Lines.cut newline (stream.bytes.take (byteBudget maxRequests)) = before ++ [piece] →
    ¬Lines.Ended newline piece →
    byteBudget maxRequests < stream.bytes.length ∨
      byteBudget maxRequests = stream.bytes.length ∧ stream.failure.isSome →
    (∀ line ∈ before, (fromUtf8 line).isSome) → (before.filterMap spoken).length < maxRequests →
    requestOf crates piece = none

section Streams

variable {stream : Incoming} {line piece : Bytes} {before : List Bytes} {budget i : Nat}

theorem lines_unfailed (h : ¬stream.failure.isSome) : stream.lines = Lines.cut newline stream.bytes := by
  rw [Incoming.lines,Option.not_isSome_iff_eq_none.mp h]

theorem lines_failed (h : stream.failure.isSome) : stream.lines =
    (Lines.cut newline stream.bytes).filter fun line => decide (Lines.Ended newline line) := by
  obtain ⟨e,he⟩ := Option.isSome_iff_exists.mp h
  rw [Incoming.lines,he]

theorem reads_cut (h : budget ≤ stream.bytes.length) :
    stream.reads budget = (Lines.cut newline (stream.bytes.take budget),.ok ()) := by
  rw [Incoming.reads,if_pos h]

theorem reads_lines (h : ¬budget ≤ stream.bytes.length) : (stream.reads budget).1 = stream.lines := by
  rw [Incoming.reads,if_neg h]
  cases stream.failure <;> rfl

theorem ended_line (h : (Lines.cut newline (stream.bytes.take budget))[i]? = some line)
    (hline : Lines.Ended newline line) : stream.lines[i]? = some line := by
  have hall := Lines.ended_stays h hline (stream.bytes.drop budget)
  rw [List.take_append_drop] at hall
  by_cases hfailed : stream.failure.isSome
  · rw [lines_failed hfailed]
    exact Lines.ended_place hall hline
  · rw [lines_unfailed hfailed]
    exact hall

theorem cut_line (hcut : Lines.cut newline (stream.bytes.take budget) = before ++ [piece])
    (hpiece : ¬Lines.Ended newline piece)
    (hmore : budget < stream.bytes.length ∨ budget = stream.bytes.length ∧ stream.failure.isSome) :
    stream.lines[before.length]? ≠ some piece := by
  intro hline
  by_cases hfailed : stream.failure.isSome
  · rw [lines_failed hfailed] at hline
    exact hpiece (of_decide_eq_true (List.mem_filter.mp (List.mem_of_getElem? hline)).2)
  · have hlong : budget < stream.bytes.length := hmore.resolve_right fun h => hfailed h.2
    have hrest : stream.bytes.drop budget ≠ [] := fun h => by
      have := List.drop_eq_nil_iff.mp h
      omega
    obtain ⟨x,lines,hx,hall⟩ := Lines.cut_unended hcut hpiece hrest
    rw [List.take_append_drop] at hall
    rw [lines_unfailed hfailed,hall,List.getElem?_append_right (Nat.le_refl _),Nat.sub_self] at hline
    exact hx (List.append_right_eq_self.mp (Option.some.inj hline))

theorem cut_length (bytes : Bytes) {size : Nat}
    (h : ∀ line ∈ Lines.cut newline bytes, line.length ≤ size) :
    bytes.length ≤ size * (Lines.cut newline bytes).length := by
  have hsum := List.sum_le_card_nsmul ((Lines.cut newline bytes).map List.length) size (by
    intro n hn
    obtain ⟨line,hline,rfl⟩ := List.mem_map.mp hn
    exact h line hline)
  have hflat := congrArg List.length (@Lines.cut_flatten _ _ newline bytes)
  rw [List.length_flatten] at hflat
  rw [hflat,List.length_map,nsmul_eq_mul,Nat.mul_comm] at hsum
  exact hsum

theorem reads_whole {maxRequests : Nat} (hwhole : stream.Whole)
    (hfew : stream.lines.length ≤ maxRequests)
    (hshort : ∀ line ∈ stream.lines, line.length ≤ maxLineBytes + 1) :
    (stream.reads (byteBudget maxRequests)).1 = stream.lines := by
  by_cases hbudget : byteBudget maxRequests ≤ stream.bytes.length
  · have hcounted := stream.counted
    have hlength := cut_length stream.bytes (by rwa [← hwhole])
    rw [← hwhole] at hlength
    have hmul := Nat.mul_le_mul_left (maxLineBytes + 1) hfew
    have hle : stream.bytes.length ≤ byteBudget maxRequests := Nat.le_min.mpr ⟨by omega,by omega⟩
    rw [reads_cut hbudget,List.take_of_length_le hle,hwhole]
  · exact reads_lines hbudget

end Streams

section Framing

variable {crates : Crates} {stream : Incoming} {maxRequests : Nat} {lines : List Bytes} {e : Handled}

theorem serveConnection_run {σ : Type} (handle : σ → Request → List Response × σ) (peer : Outgoing)
    (state : σ) : Run crates maxRequests 0 0 (stream.reads (byteBudget maxRequests)).1
      (serveConnection crates handle peer stream maxRequests state).2.handled := by
  obtain ⟨new,hnew,hrun⟩ := @serveLines_run σ crates handle peer maxRequests
    (stream.reads (byteBudget maxRequests)).2 (stream.reads (byteBudget maxRequests)).1 0 0 ⟨state,[],[]⟩
  have hhandled : (serveConnection crates handle peer stream maxRequests state).2.handled = new := hnew
  rwa [hhandled]

theorem logged_genuine (huncut : Uncut crates stream maxRequests)
    (h : Logged crates maxRequests 0 0 (stream.reads (byteBudget maxRequests)).1 e) :
    Genuine crates stream e := by
  refine ⟨?_,requestOf_some h.request⟩
  obtain ⟨j,hindex,hline,hvalid,hfew⟩ := h.place
  rw [Nat.zero_add] at hindex hfew
  rw [hindex]
  by_cases hbudget : byteBudget maxRequests ≤ stream.bytes.length
  · rw [reads_cut hbudget] at hline hvalid hfew
    by_cases hended : Lines.Ended newline e.line
    · exact ended_line hline hended
    · obtain ⟨hcut,-⟩ := Lines.open_last hline hended
      rw [← List.length_filterMap_eq_countP] at hfew
      by_cases hmore : byteBudget maxRequests < stream.bytes.length ∨
          byteBudget maxRequests = stream.bytes.length ∧ stream.failure.isSome
      · have hnone := huncut _ _ hcut hended hmore hvalid hfew
        rw [h.request] at hnone
        cases hnone
      · obtain ⟨hshort,hopen⟩ := not_or.mp hmore
        have hwhole : byteBudget maxRequests = stream.bytes.length := by omega
        rw [lines_unfailed fun hfailed => hopen ⟨hwhole,hfailed⟩]
        rwa [hwhole,List.take_length] at hline
  · rwa [reads_lines hbudget] at hline

theorem serveConnection_answers (hwhole : stream.Whole) (hfew : stream.lines.length ≤ maxRequests)
    (hlines : ∀ line ∈ stream.lines, (fromUtf8 line).isSome ∧ line.length ≤ maxLineBytes + 1)
    {σ : Type} (handle : σ → Request → List Response × σ) {peer : Outgoing} (state : σ)
    (hpeer : peer.Open) : (serveConnection crates handle peer stream maxRequests state).2.written =
      answersTo crates handle state (stream.lines.filterMap spoken) := by
  have hreads := reads_whole hwhole hfew fun line hline => (hlines line hline).2
  have hspoken := Nat.le_trans (List.length_filterMap_le spoken stream.lines) hfew
  have hanswers := @serveLines_answers σ crates handle peer maxRequests
    (stream.reads (byteBudget maxRequests)).2 hpeer stream.lines 0 0 ⟨state,[],[]⟩
    (fun line hline => (hlines line hline).1) (by omega)
  rw [← hreads] at hanswers
  rw [← hreads]
  exact hanswers

theorem piece_handled {before : List Bytes} {piece : Bytes} {request : Request}
    (hcut : Lines.cut newline (stream.bytes.take (byteBudget maxRequests)) = before ++ [piece])
    (hbudget : byteBudget maxRequests ≤ stream.bytes.length)
    (hvalid : ∀ line ∈ before, (fromUtf8 line).isSome)
    (hfew : (before.filterMap spoken).length < maxRequests)
    (hrequest : requestOf crates piece = some request) :
    ⟨before.length,piece,request⟩ ∈ (serveConnection crates (fun (u : Unit) _ => ([],u))
      ⟨fun _ => none,fun _ => none⟩ stream maxRequests ()).2.handled := by
  have hopen : Outgoing.Open ⟨fun _ => none,fun _ => none⟩ := ⟨fun _ => rfl,fun _ => rfl⟩
  have hreached := @serveLines_reached Unit crates (fun u _ => ([],u)) _ maxRequests (.ok ()) hopen
    before piece [] request hrequest 0 0 ⟨(),[],[]⟩ hvalid (by omega)
  rw [← hcut,Nat.zero_add] at hreached
  rw [serveConnection,reads_cut hbudget]
  exact hreached

end Framing

theorem framed_iff_uncut (crates : Crates) (stream : Incoming) (maxRequests : Nat) :
    Framed crates stream maxRequests ↔ Uncut crates stream maxRequests := by
  constructor
  · intro h before piece hcut hpiece hmore hvalid hfew
    cases hrequest : requestOf crates piece with
    | none => rfl
    | some request =>
      have hbudget : byteBudget maxRequests ≤ stream.bytes.length := by omega
      have hhandled := piece_handled hcut hbudget hvalid hfew hrequest
      exact absurd (h.genuine _ _ () _ hhandled).line (cut_line hcut hpiece hmore)
  · intro h
    refine ⟨?_,?_,?_,?_⟩
    · exact fun handle peer state e he =>
        logged_genuine h ((serveConnection_run handle peer state).logged e he)
    · exact fun handle peer state => (serveConnection_run handle peer state).increasing
    · intro σ handle peer state
      have hfew := (@serveConnection_run crates stream maxRequests σ handle peer state).few
      omega
    · exact fun hwhole hfew hlines _ handle _ state hpeer =>
        serveConnection_answers hwhole hfew hlines handle state hpeer

section Flood

def pingText : String := "\x7b\"type\":\"ping\",\"protocol\":1\x7d"

def flood : Bytes := List.replicate 8165 newline ++ (Text.bytes pingText ++ [120,newline])

def flooding : Incoming := ⟨flood,by rw [flood,List.length_append,List.length_replicate]; decide +kernel,none⟩

def pinged : Crates := Serde.tokenising Serde.shown Serde.bareCrates

def pingTokens : Value := .object [("type",.string "ping"),("protocol",.number (.int 1))]

theorem pingTokens_token : Serde.Token Serde.maxNesting pingTokens :=
  .object 126 _ (List.forall_mem_cons.mpr ⟨.string 126 _,
    List.forall_mem_singleton.mpr (.int 126 _ (by decide) (by decide))⟩)

theorem pingTokens_text : canonicalJsonBytes pingTokens = .ok (Text.bytes pingText) := by
  refine Fallible.map_ok.mpr ⟨_,?_,rfl⟩
  decide +kernel

theorem ping_value : fromSliceStrict pinged (Text.bytes pingText) =
    .ok (.object [("protocol",.number (.int 1)),("type",.string "ping")]) := by
  have serde := Serde.tokenising_tokenises Serde.shown Serde.bareCrates
  rw [fromSliceStrict,pinged,
    (serde _ pingTokens).mpr (Serde.readTokens_written pingTokens_token pingTokens_text)]
  rfl

theorem blank_lines (n : Nat) (r : Bytes) :
    Lines.cut newline (List.replicate n newline ++ r) =
      List.replicate n [newline] ++ Lines.cut newline r := by
  induction n with
  | zero => rfl
  | succ n ih => rw [List.replicate_succ,List.cons_append,Lines.cut_cons_stop,ih]; rfl

theorem blank_read : fromUtf8 [newline] = some "\n" := Syntax.fromUtf8_eq_some.mpr (by decide +kernel)

theorem blank_spoken : spoken [newline] = none := spoken_blank blank_read (by decide +kernel)

theorem ping_request : requestOf pinged (Text.bytes pingText) = some (.ping 1) := by
  have hread : fromUtf8 (Text.bytes pingText) = some pingText := Syntax.fromUtf8_eq_some.mpr rfl
  have htrimmed : trimmed pingText = pingText := by decide +kernel
  have hparse : parseRequest pinged pingText = .ok (.ping 1) :=
    parseRequest_ok.mpr ⟨by decide +kernel,
      .object [("protocol",.number (.int 1)),("type",.string "ping")],ping_value,rfl,rfl⟩
  have hspoken := spoken_some hread (by rw [htrimmed]; decide +kernel)
  rw [requestOf,hspoken,Option.bind_some,htrimmed,hparse]
  rfl

theorem flood_taken : Lines.cut newline (flooding.bytes.take (byteBudget 1)) =
    List.replicate 8165 [newline] ++ [Text.bytes pingText] := by
  have hbudget : byteBudget 1 = (List.replicate 8165 newline).length + (Text.bytes pingText).length := by
    rw [List.length_replicate]
    decide +kernel
  have hopen : Lines.cut newline (Text.bytes pingText) = [Text.bytes pingText] := by decide +kernel
  change Lines.cut newline (flood.take _) = _
  rw [flood,hbudget,List.take_length_add_append,List.take_left,blank_lines,hopen]

theorem truncated_ping_handled : ¬Framed pinged flooding 1 := by
  intro h
  have hlength : byteBudget 1 < flooding.bytes.length := by
    change _ < flood.length
    rw [flood,List.length_append,List.length_replicate]
    decide +kernel
  have hblank : ∀ line ∈ List.replicate 8165 [newline], line = [newline] :=
    fun line hline => List.eq_of_mem_replicate hline
  have hvalid : ∀ line ∈ List.replicate 8165 [newline], (fromUtf8 line).isSome := by
    intro line hline
    rw [hblank line hline,blank_read]
    rfl
  have hfew : ((List.replicate 8165 [newline]).filterMap spoken).length < 1 := by
    rw [List.filterMap_eq_nil_iff.mpr fun line hline => by rw [hblank line hline,blank_spoken]]
    decide
  have hhandled := piece_handled flood_taken (Nat.le_of_lt hlength) hvalid hfew ping_request
  exact cut_line flood_taken (by decide +kernel) (.inl hlength) (h.genuine _ _ () _ hhandled).line

end Flood

end MurlSystem.Protocol

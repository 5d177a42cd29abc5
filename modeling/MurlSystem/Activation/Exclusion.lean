import MurlSystem.Activation.Session

namespace MurlSystem

def Wire.whole (w : Wire) : Bool := decide (2 ≤ w.rank)

def Daemon.spent : Daemon → Bool
  | .replying _ | .closed => true
  | _ => false

def Daemon.active : Daemon → Bool
  | .resolving _ | .asking _ _ | .executing _ _ => true
  | _ => false

def Client.fellBack : Client → Bool
  | .returned .fallBack | .opened => true
  | _ => false

def Session.mayDispatch (s : Session) : Bool :=
  s.wire.whole && !(s.daemon.spent && s.launched.isNone)

def Careful (s t : Session) : Prop :=
  t.client = .returned .fallBack → s.client ≠ .returned .fallBack → s.mayDispatch = false

def AtMostOne (s : Session) : Prop := ¬(s.launched.isSome = true ∧ s.inProcess.isSome = true)

section Moves

variable {setting : Setting} {s t : Session}

structure ClientMove (s t : Session) : Prop where
  daemon : t.daemon = s.daemon
  launched : t.launched = s.launched
  wire : t.wire = s.wire ∨
    s.client = .writing ∧ t.client = .writing ∧ s.wire.rank < t.wire.rank
  fellBack : t.client.fellBack = true → s.client = .returned .fallBack ∨
    t.client = .returned .fallBack ∧ s.client ≠ .returned .fallBack
  inProcess : t.inProcess = s.inProcess ∨ t.client = .opened
  waiting : s.client ≠ .opened

theorem ClientMove.forward (hd : t.daemon = s.daemon) (hl : t.launched = s.launched)
    (hw : t.wire = s.wire) (hi : t.inProcess = s.inProcess) (hs : s.client.fellBack = false)
    (ht : t.client ≠ .opened) : ClientMove s t := by
  have hfall : s.client ≠ .returned .fallBack := by
    intro h
    rw [h] at hs
    cases hs
  refine ⟨hd,hl,.inl hw,?_,.inl hi,?_⟩
  · intro hfell
    refine .inr ⟨?_,hfall⟩
    unfold Client.fellBack at hfell
    split at hfell
    · assumption
    · rename_i hopened
      exact absurd hopened ht
    · cases hfell
  · intro h
    rw [h] at hs
    cases hs

theorem settle_move (outcome : Outcome) (hs : s.client.fellBack = false) :
    ClientMove s (s.settle outcome) :=
  .forward rfl rfl rfl rfl hs nofun

theorem unusable_move (why : String) (hs : s.client.fellBack = false) :
    ClientMove s (s.unusable setting why) :=
  settle_move _ hs

theorem openInProcess_move (cache : Cache) (terminal : Terminal)
    (hs : s.client = .returned .fallBack) :
    ClientMove s (openInProcess setting cache terminal s) := by
  have hopen : s.client ≠ .opened := by
    rw [hs]
    nofun
  unfold openInProcess
  split
  · exact ⟨rfl,rfl,.inl rfl,fun _ => .inl hs,.inl rfl,hopen⟩
  · split
    · exact ⟨rfl,rfl,.inl rfl,fun _ => .inl hs,.inl rfl,hopen⟩
    · split
      · exact ⟨rfl,rfl,.inl rfl,fun _ => .inl hs,.inr rfl,hopen⟩
      · exact ⟨rfl,rfl,.inl rfl,fun _ => .inl hs,.inl rfl,hopen⟩

theorem tryOpen_move (h : clientStep setting s .tryOpen = some t) : ClientMove s t := by
  dsimp only [clientStep] at h
  split at h
  · rename_i hc
    have hs : s.client.fellBack = false := by rw [hc]; rfl
    split at h <;> cases h <;> exact .forward rfl rfl rfl rfl hs nofun
  · cases h

theorem probe_move {usable : Bool} (h : clientStep setting s (.probe usable) = some t) :
    ClientMove s t := by
  dsimp only [clientStep] at h
  split at h
  · rename_i hc
    have hs : s.client.fellBack = false := by rw [hc]; rfl
    split at h <;> cases h
    · exact .forward rfl rfl rfl rfl hs nofun
    · exact unusable_move _ hs
  · cases h

theorem connect_move (h : clientStep setting s .connect = some t) : ClientMove s t := by
  dsimp only [clientStep] at h
  split at h <;> cases h
  rename_i hc
  exact .forward rfl rfl rfl rfl (by rw [hc]; rfl) nofun

theorem connectFails_move {why : String}
    (h : clientStep setting s (.connectFails why) = some t) : ClientMove s t := by
  dsimp only [clientStep] at h
  split at h <;> cases h
  rename_i hc
  exact unusable_move _ (by rw [hc]; rfl)

theorem write_move {wire : Wire} (h : clientStep setting s (.write wire) = some t) :
    ClientMove s t := by
  dsimp only [clientStep] at h
  split at h <;> cases h
  rename_i hc
  refine ⟨rfl,rfl,.inr ⟨hc.1,hc.1,hc.2⟩,?_,.inl rfl,?_⟩
  · intro hfell
    simp [hc.1,Client.fellBack] at hfell
  · simp [hc.1]

theorem writeFails_move {why : String} (h : clientStep setting s (.writeFails why) = some t) :
    ClientMove s t := by
  dsimp only [clientStep] at h
  split at h <;> cases h
  rename_i hc
  exact unusable_move _ (by rw [hc]; rfl)

theorem sent_move {shut : Bool} (h : clientStep setting s (.sent shut) = some t) :
    ClientMove s t := by
  dsimp only [clientStep] at h
  split at h <;> cases h
  rename_i hc
  exact .forward rfl rfl rfl rfl (by rw [hc.1]; rfl) nofun

theorem readLine_move (h : clientStep setting s .readLine = some t) : ClientMove s t := by
  dsimp only [clientStep] at h
  split at h <;> cases h
  rename_i hc _
  exact .forward rfl rfl rfl rfl (by rw [hc]; rfl) nofun

theorem readMalformed_move (h : clientStep setting s .readMalformed = some t) :
    ClientMove s t := by
  dsimp only [clientStep] at h
  split at h <;> cases h
  rename_i hc _
  exact unusable_move _ (by rw [hc]; rfl)

theorem readScrap_move (h : clientStep setting s .readScrap = some t) : ClientMove s t := by
  dsimp only [clientStep] at h
  split at h
  · rename_i hc _
    split at h <;> cases h
    exact unusable_move _ (by rw [hc]; rfl)
  · cases h

theorem readFails_move {why : String} (h : clientStep setting s (.readFails why) = some t) :
    ClientMove s t := by
  dsimp only [clientStep] at h
  split at h <;> cases h
  rename_i hc
  exact unusable_move _ (by rw [hc]; rfl)

theorem readTimesOut_move (h : clientStep setting s .readTimesOut = some t) :
    ClientMove s t := by
  dsimp only [clientStep] at h
  split at h
  · rename_i hc _
    split at h <;> cases h
    exact unusable_move _ (by rw [hc]; rfl)
  · cases h

theorem readEnd_move (h : clientStep setting s .readEnd = some t) : ClientMove s t := by
  dsimp only [clientStep] at h
  split at h
  · rename_i hc _ _
    have hs : s.client.fellBack = false := by rw [hc]; rfl
    split at h
    · cases h
    · split at h <;> cases h
      · exact unusable_move _ hs
      · exact settle_move _ hs
  · cases h

theorem fallBack_move {cache : Cache} {terminal : Terminal}
    (h : clientStep setting s (.openInProcess cache terminal) = some t) : ClientMove s t := by
  dsimp only [clientStep] at h
  split at h <;> cases h
  rename_i hc
  exact openInProcess_move cache terminal hc

theorem clientStep_move {step : ClientStep} (h : clientStep setting s step = some t) :
    ClientMove s t := by
  cases step with
  | tryOpen => exact tryOpen_move h
  | probe usable => exact probe_move h
  | connect => exact connect_move h
  | connectFails why => exact connectFails_move h
  | write wire => exact write_move h
  | writeFails why => exact writeFails_move h
  | sent shut => exact sent_move h
  | readLine => exact readLine_move h
  | readMalformed => exact readMalformed_move h
  | readScrap => exact readScrap_move h
  | readFails why => exact readFails_move h
  | readTimesOut => exact readTimesOut_move h
  | readEnd => exact readEnd_move h
  | openInProcess cache terminal => exact fallBack_move h

structure DaemonMove (s t : Session) : Prop where
  client : t.client = s.client
  wire : t.wire = s.wire
  inProcess : t.inProcess = s.inProcess
  spent : s.daemon.spent = true → t.daemon.spent = true
  active : t.daemon.active = true → s.daemon.active = true ∨ s.wire.whole = true
  launched : t.launched = s.launched ∨ s.daemon.active = true ∧ t.daemon.spent = true

theorem Session.ready_whole (h : s.ready = true) : s.wire.whole = true := by
  simp only [Session.ready,Bool.or_eq_true,Bool.and_eq_true,beq_iff_eq] at h
  rcases h with h | ⟨h,-⟩ <;> rw [h] <;> rfl

theorem DaemonMove.quiet {d : Daemon} {inbox : List Response} {scrap : Bool} {elapsed : Nat}
    (hspent : s.daemon.spent = true → d.spent = true)
    (hactive : d.active = true → s.daemon.active = true ∨ s.wire.whole = true) :
    DaemonMove s { s with daemon := d, inbox := inbox, scrap := scrap, elapsed := elapsed } :=
  ⟨rfl,rfl,rfl,hspent,hactive,.inl rfl⟩

theorem activate_move (m : Murl) (cache : Cache) (hs : s.daemon = .resolving m) :
    DaemonMove s (activate setting m cache s) := by
  have hactive : s.daemon.active = true := by rw [hs]; rfl
  have hspent : s.daemon.spent = true → False := by rw [hs]; nofun
  unfold activate
  split
  · exact .quiet (fun _ => rfl) (fun _ => .inl hactive)
  · split
    · exact .quiet (fun _ => rfl) (fun _ => .inl hactive)
    · exact .quiet (fun h => (hspent h).elim) (fun _ => .inl hactive)

theorem executed_move (plan : Resolution) (approvals : List Approval)
    (hs : s.daemon = .executing plan approvals) :
    DaemonMove s (executed setting plan approvals s) := by
  have hactive : s.daemon.active = true := by rw [hs]; rfl
  unfold executed
  dsimp only
  split
  · exact ⟨rfl,rfl,rfl,fun _ => rfl,nofun,.inr ⟨hactive,rfl⟩⟩
  · exact .quiet (fun _ => rfl) nofun

theorem accept_move (h : daemonStep setting s .accept = some t) : DaemonMove s t := by
  dsimp only [daemonStep] at h
  split at h
  · rename_i hd
    split at h <;> cases h
    exact .quiet (by rw [hd]; nofun) nofun
  · cases h

theorem readRequest_move (h : daemonStep setting s .readRequest = some t) :
    DaemonMove s t := by
  dsimp only [daemonStep] at h
  split at h
  · rename_i hd
    split at h
    · rename_i hready
      split at h <;> cases h
      · exact .quiet (by rw [hd]; nofun) (fun _ => .inr (Session.ready_whole hready))
      · exact .quiet (fun _ => rfl) nofun
    · cases h
  · cases h

theorem readTorn_move (h : daemonStep setting s .readTorn = some t) : DaemonMove s t := by
  dsimp only [daemonStep] at h
  split at h
  · split at h <;> cases h
    exact .quiet (fun _ => rfl) nofun
  · cases h

theorem readNothing_move (h : daemonStep setting s .readNothing = some t) :
    DaemonMove s t := by
  dsimp only [daemonStep] at h
  split at h
  · split at h <;> cases h
    exact .quiet (fun _ => rfl) nofun
  · cases h

theorem requestFails_move (h : daemonStep setting s .readFails = some t) :
    DaemonMove s t := by
  dsimp only [daemonStep] at h
  split at h <;> cases h
  exact .quiet (fun _ => rfl) nofun

theorem resolve_move {cache : Cache} (h : daemonStep setting s (.resolve cache) = some t) :
    DaemonMove s t := by
  dsimp only [daemonStep] at h
  split at h <;> cases h
  rename_i hd
  exact activate_move _ cache hd

theorem answer_move {granted : List Nat}
    (h : daemonStep setting s (.answer granted) = some t) : DaemonMove s t := by
  dsimp only [daemonStep] at h
  split at h
  · rename_i hd
    split at h <;> cases h
    exact .quiet (by rw [hd]; nofun) (fun _ => .inl (by rw [hd]; rfl))
  · cases h

theorem execute_move (h : daemonStep setting s .execute = some t) : DaemonMove s t := by
  dsimp only [daemonStep] at h
  split at h <;> cases h
  rename_i hd
  exact executed_move _ _ hd

theorem executePart_move {count : Nat}
    (h : daemonStep setting s (.executePart count) = some t) : DaemonMove s t := by
  dsimp only [daemonStep] at h
  split at h
  · rename_i hd
    have hactive : s.daemon.active = true := by rw [hd]; rfl
    split at h <;> cases h
    · exact ⟨rfl,rfl,rfl,fun _ => rfl,nofun,.inr ⟨hactive,rfl⟩⟩
    · exact .quiet (fun _ => rfl) nofun
  · cases h

theorem reply_move (h : daemonStep setting s .reply = some t) : DaemonMove s t := by
  dsimp only [daemonStep] at h
  split at h <;> cases h
  exact .quiet (fun _ => rfl) nofun

theorem hangUp_move {mid : Bool} (h : daemonStep setting s (.hangUp mid) = some t) :
    DaemonMove s t := by
  dsimp only [daemonStep] at h
  split at h <;> cases h <;> exact .quiet (fun _ => rfl) nofun

theorem daemonStep_move {step : DaemonStep} (h : daemonStep setting s step = some t) :
    DaemonMove s t := by
  cases step with
  | accept => exact accept_move h
  | readRequest => exact readRequest_move h
  | readTorn => exact readTorn_move h
  | readNothing => exact readNothing_move h
  | readFails => exact requestFails_move h
  | resolve cache => exact resolve_move h
  | answer granted => exact answer_move h
  | execute => exact execute_move h
  | executePart count => exact executePart_move h
  | reply => exact reply_move h
  | hangUp mid => exact hangUp_move h

end Moves

structure Exclusive (s : Session) : Prop where
  begun : s.daemon.active = true → s.wire.whole = true
  launched : s.launched.isSome = true → s.daemon.spent = true ∧ s.wire.whole = true
  fellBack : s.client.fellBack = true →
    s.launched = none ∧ (s.wire.whole = true → s.daemon.spent = true)
  inProcess : s.inProcess.isSome = true → s.client = .opened

section Runs

variable {setting : Setting} {s t : Session}

theorem Exclusive.atMostOne (h : Exclusive s) : AtMostOne s := by
  rintro ⟨hlaunched,hprocess⟩
  have hopened := h.inProcess hprocess
  have hnone := (h.fellBack (by rw [hopened]; rfl)).1
  rw [hnone] at hlaunched
  cases hlaunched

theorem active_not_spent {d : Daemon} (h : d.active = true) : d.spent = false := by
  cases d <;> first | rfl | cases h

theorem Wire.whole_mono {w w' : Wire} (h : w.rank < w'.rank) (hw : w.whole = true) :
    w'.whole = true := by
  simp only [Wire.whole,decide_eq_true_eq] at hw ⊢
  omega

theorem ClientMove.whole (h : ClientMove s t) (hw : s.wire.whole = true) :
    t.wire.whole = true := by
  rcases h.wire with heq | ⟨-,-,hrank⟩
  · rw [heq]
    exact hw
  · exact Wire.whole_mono hrank hw

theorem ClientMove.wire_fixed (h : ClientMove s t) (ht : t.client.fellBack = true) :
    t.wire = s.wire := by
  rcases h.wire with heq | ⟨-,hwriting,-⟩
  · exact heq
  · rw [hwriting] at ht
    cases ht

theorem Exclusive.not_launched (h : Exclusive s) (hd : s.mayDispatch = false) :
    s.launched = none ∧ (s.wire.whole = true → s.daemon.spent = true) := by
  simp only [Session.mayDispatch,Bool.and_eq_false_iff,Bool.not_eq_false',Bool.and_eq_true,
    Option.isNone_iff_eq_none] at hd
  rcases hd with htorn | ⟨hspent,hnone⟩
  · constructor
    · cases hl : s.launched with
      | none => rfl
      | some events =>
        have hwhole := (h.launched (by rw [hl]; rfl)).2
        rw [htorn] at hwhole
        cases hwhole
    · intro hwhole
      rw [htorn] at hwhole
      cases hwhole
  · exact ⟨hnone,fun _ => hspent⟩

theorem Exclusive.clientMove (h : Exclusive s) (hm : ClientMove s t) (hcare : Careful s t) :
    Exclusive t := by
  refine ⟨?_,?_,?_,?_⟩
  · rw [hm.daemon]
    exact fun hactive => hm.whole (h.begun hactive)
  · rw [hm.daemon,hm.launched]
    intro hlaunched
    obtain ⟨hspent,hwhole⟩ := h.launched hlaunched
    exact ⟨hspent,hm.whole hwhole⟩
  · intro hfell
    rw [hm.launched,hm.daemon,hm.wire_fixed hfell]
    rcases hm.fellBack hfell with hold | ⟨hnow,hfirst⟩
    · exact h.fellBack (by rw [hold]; rfl)
    · exact h.not_launched (hcare hnow hfirst)
  · intro hprocess
    rcases hm.inProcess with hsame | hopened
    · rw [hsame] at hprocess
      exact absurd (h.inProcess hprocess) hm.waiting
    · exact hopened

theorem Exclusive.daemonMove (h : Exclusive s) (hm : DaemonMove s t) : Exclusive t := by
  have hwhole : t.daemon.active = true → s.wire.whole = true := by
    intro hactive
    rcases hm.active hactive with hold | hwhole
    · exact h.begun hold
    · exact hwhole
  refine ⟨?_,?_,?_,?_⟩
  · rw [hm.wire]
    exact hwhole
  · rw [hm.wire]
    intro hlaunched
    rcases hm.launched with hsame | ⟨hactive,hspent⟩
    · rw [hsame] at hlaunched
      obtain ⟨hspent,hline⟩ := h.launched hlaunched
      exact ⟨hm.spent hspent,hline⟩
    · exact ⟨hspent,h.begun hactive⟩
  · rw [hm.client,hm.wire]
    intro hfell
    obtain ⟨hnone,hspent⟩ := h.fellBack hfell
    refine ⟨?_,fun hline => hm.spent (hspent hline)⟩
    rcases hm.launched with hsame | ⟨hactive,-⟩
    · rw [hsame,hnone]
    · have hdone := hspent (h.begun hactive)
      rw [active_not_spent hactive] at hdone
      cases hdone
  · rw [hm.client,hm.inProcess]
    exact h.inProcess

theorem Exclusive.step (h : Exclusive s) (hstep : (sessionSystem setting).step s t)
    (hcare : Careful s t) : Exclusive t := by
  obtain ⟨happening,hh⟩ := hstep
  cases happening with
  | client step => exact h.clientMove (clientStep_move hh) hcare
  | daemon step => exact h.daemonMove (daemonStep_move hh)
  | wait seconds =>
    cases hh
    exact ⟨h.begun,h.launched,h.fellBack,h.inProcess⟩
  | lose =>
    cases hh
    exact ⟨h.begun,h.launched,h.fellBack,h.inProcess⟩

theorem careful_at_most_one (setting : Setting) (s : Session)
    (h : ((sessionSystem setting).restrict Careful).Reachable s) : AtMostOne s := by
  refine Exclusive.atMostOne (Transition.System.invariant Exclusive ?_ ?_ h)
  · rintro s₀ rfl
    exact ⟨nofun,nofun,nofun,nofun⟩
  · rintro s t _ hs ⟨hstep,hcare⟩
    exact hs.step hstep hcare

end Runs

section Traces

instance (s t : Session) : Decidable (Careful s t) := by
  unfold Careful
  infer_instance

def Session.carefulStep (setting : Setting) (s : Session) (h : Happening) : Option Session :=
  (s.step setting h).filter fun t => decide (Careful s t)

def bothDispatched (s : Session) : Bool :=
  s.launched.any (fun events => events.any fun e => e.effect.isLaunch) &&
    s.inProcess.any (fun events => events.any fun e => e.effect.isLaunch)

def docsPage : Value :=
  manifestValue "Docs" [resourceValue "docs" "https" "https://e.com" none]

def docsParty : Party where
  env := siteEnv (siteCrates [docsPage] [] [])
    [("https://a.com/.well-known/murl/docs.murl.json",docsPage)]
  policy := {}
  desktop := sampleDesktop

def docsSetting : Setting where
  inv := { mode := .auto, target := "murl://a.com/docs" }
  ref := .murl ⟨.remote "a.com" none,["docs"],.latest,none,none⟩
  cli := docsParty
  daemon := docsParty
  socket := "/run/user/1000/murl/murl.sock"
  window := some dialogTimeout

def slowAnswer : List Happening :=
  [.client .tryOpen,.client (.probe true),.client .connect,.client (.write .line),
   .client (.sent true),.daemon .accept,.daemon .readRequest,.daemon (.resolve Cache.empty),
   .wait readTimeout,.client .readTimesOut,.wait 30,.daemon (.answer [0]),.daemon .execute,
   .client (.openInProcess Cache.empty ⟨true,["a"]⟩)]

theorem bothDispatched_isSome {s : Session} (h : bothDispatched s = true) :
    s.launched.isSome = true ∧ s.inProcess.isSome = true := by
  rw [bothDispatched,Bool.and_eq_true,Option.any_eq_true,Option.any_eq_true] at h
  obtain ⟨⟨events,hlaunched,-⟩,⟨events',hprocess,-⟩⟩ := h
  exact ⟨by rw [hlaunched]; rfl,by rw [hprocess]; rfl⟩

theorem slow_answer_dispatches_twice :
    ¬∀ (setting : Setting) (s : Session), (sessionSystem setting).Reachable s → AtMostOne s := by
  intro h
  have hrun : (Transition.follow (Session.step docsSetting) {} slowAnswer).any
      bothDispatched = true := by
    simp only [docsSetting,docsParty,siteEnv,siteCrates,published_compact]
    decide +kernel
  obtain ⟨t,ht,hboth⟩ := (Option.any_eq_true _ _).mp hrun
  have hpath := Transition.follow_path (S := sessionSystem docsSetting)
    (fun s e t he => ⟨e,he⟩) ht
  exact h docsSetting t ⟨{},rfl,hpath⟩ (bothDispatched_isSome hboth)

def absentDaemon : List Happening :=
  [.client .tryOpen,.client (.probe true),.client (.connectFails "no daemon socket"),
   .client (.openInProcess Cache.empty ⟨true,["a"]⟩)]

theorem absent_daemon_at_most_one :
    ∃ s, ((sessionSystem docsSetting).restrict Careful).Reachable s ∧
      s.inProcess.isSome = true ∧ AtMostOne s := by
  have hrun : (Transition.follow (Session.carefulStep docsSetting) {} absentDaemon).any
      (fun s => s.inProcess.isSome) = true := by
    simp only [docsSetting,docsParty,siteEnv,siteCrates,published_compact]
    decide +kernel
  obtain ⟨s,hs,hprocess⟩ := (Option.any_eq_true _ _).mp hrun
  have hreach : ((sessionSystem docsSetting).restrict Careful).Reachable s := by
    refine ⟨{},rfl,Transition.follow_path ?_ hs⟩
    intro s e t he
    obtain ⟨hstep,hcare⟩ := Option.filter_eq_some_iff.mp he
    exact ⟨⟨e,hstep⟩,of_decide_eq_true hcare⟩
  exact ⟨s,hreach,hprocess,careful_at_most_one docsSetting s hreach⟩

end Traces

end MurlSystem

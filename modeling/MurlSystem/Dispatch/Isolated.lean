import MurlSystem.Dispatch.Aggregate

namespace MurlSystem

open Program

def steady (found : Bool) (answer : Except Error Unit) : Launcher :=
  ⟨fun _ _ _ => answer,fun _ _ => found⟩

def launchStatus : Except Error Unit → Status
  | .ok _ => (.opened,none)
  | .error e => (.failed,some e.toString)

def attempt (os : Path.Platform) (opener : OpenerConfig) (pr : PlannedResource) (found : Bool)
    (answer : Except Error Unit) : Status × List Effect :=
  match dispatchOne os opener (steady found answer) 0 pr [] with
  | .ok status events => (status,events.map Event.effect)
  | .error _ events => ((.failed,none),events.map Event.effect)

def Effect.answered (launcher : Launcher) (events : List Event) (found : Bool)
    (answer : Except Error Unit) : Effect → Prop
  | .pathExists path => launcher.pathExists events path = found
  | .launch argv cwd => launcher.launch events argv cwd = answer
  | .sleepMs _ => True

def Answered (launcher : Launcher) (index : Nat) (found : Bool) (answer : Except Error Unit) :
    List Event → List Effect → Prop
  | _,[] => True
  | events,effect :: rest => effect.answered launcher events found answer ∧
      Answered launcher index found answer (events ++ [⟨index,effect⟩]) rest

structure Launches (p : Launcher → Nat → DispatchM Status) (launcher : Launcher) (index : Nat)
    (events : List Event) (answer : Except Error Unit) (status : Status)
    (effects : List Effect) : Prop where
  run : p launcher index events = .ok status (events ++ effects.map (Event.mk index))
  steady : ∀ found before, p (steady found answer) 0 before =
    .ok status (before ++ effects.map (Event.mk 0))
  answered : ∀ found, Answered launcher index found answer events effects
  once : effects.countP Effect.isLaunch ≤ 1

section One

variable {os : Path.Platform} {opener : OpenerConfig} {launcher : Launcher} {index : Nat}
variable {events : List Event}

theorem launches_return (status : Status) (answer : Except Error Unit) :
    Launches (fun _ _ => pure status) launcher index events answer status [] :=
  ⟨by simp [pure,EStateM.pure],fun _ _ => by simp [pure,EStateM.pure],fun _ => trivial,by simp⟩

theorem launches_launch (argv : List String) (cwd : Option (List Char)) :
    ∃ answer status effects, Launches (fun launcher index => launch launcher index argv cwd)
      launcher index events answer status effects := by
  by_cases hblank : (argv.headD "").toList.all Text.isWhitespace = true
  · have hrun : ∀ launcher index events, launch launcher index argv cwd events =
        .ok (.failed,some "handler is configured with an empty program; refusing to launch")
          (events ++ List.map (Event.mk index) []) := by
      intro launcher index events
      unfold launch
      rw [if_pos hblank]
      simp [pure,EStateM.pure]
    exact ⟨.ok (),_,[],hrun launcher index events,fun _ before => hrun _ 0 before,
      fun _ => trivial,by simp⟩
  · have hrun : ∀ launcher index events, launch launcher index argv cwd events =
        .ok (launchStatus (launcher.launch events argv cwd))
          (events ++ [Effect.launch argv cwd].map (Event.mk index)) := by
      intro launcher index events
      unfold launch
      rw [if_neg hblank]
      refine bind_eq_ok.mpr ⟨events,events,rfl,bind_eq_ok.mpr ⟨(),_,rfl,?_⟩⟩
      cases launcher.launch events argv cwd <;> rfl
    exact ⟨launcher.launch events argv cwd,_,_,hrun launcher index events,
      fun _ before => hrun _ 0 before,fun _ => ⟨rfl,trivial⟩,by simp [Effect.isLaunch]⟩

theorem launches_template (template : Option (List String)) (missing target : String) :
    ∃ answer status effects,
      Launches (fun launcher index => dispatchTemplate launcher index template missing target)
        launcher index events answer status effects := by
  unfold dispatchTemplate
  cases template with
  | none => exact ⟨.ok (),_,_,launches_return _ _⟩
  | some argv => exact launches_launch _ _

structure Attempts (p : Launcher → Nat → DispatchM Status) (launcher : Launcher) (index : Nat)
    (events : List Event) (found : Bool) (answer : Except Error Unit) (status : Status)
    (effects : List Effect) : Prop where
  run : p launcher index events = .ok status (events ++ effects.map (Event.mk index))
  steady : p (steady found answer) 0 [] = .ok status (effects.map (Event.mk 0))
  answered : Answered launcher index found answer events effects
  once : effects.countP Effect.isLaunch ≤ 1

theorem Launches.attempts {p : Launcher → Nat → DispatchM Status} {answer : Except Error Unit}
    {status : Status} {effects : List Effect}
    (h : Launches p launcher index events answer status effects) :
    Attempts p launcher index events true answer status effects :=
  ⟨h.run,by simpa using h.steady true [],h.answered true,h.once⟩

theorem attempts_path {target : String} {openPath : Launcher → Nat → List Char → DispatchM Status}
    (h : ∀ path events, ∃ answer status effects,
      Launches (fun launcher index => openPath launcher index path) launcher index events answer
        status effects) :
    ∃ found answer status effects,
      Attempts (fun launcher index =>
          dispatchPath os opener launcher index target (openPath launcher index))
        launcher index events found answer status effects := by
  unfold dispatchPath
  cases opener.expandPath os target with
  | error e => exact ⟨true,.ok (),_,_,(launches_return _ _).attempts⟩
  | ok path =>
    dsimp only
    cases hfound : launcher.pathExists events path with
    | false =>
      refine ⟨false,.ok (),(.unavailable,some s!"{String.ofList path} does not exist"),
        [.pathExists path],?_,?_,⟨hfound,trivial⟩,by simp [Effect.isLaunch]⟩
      · refine bind_eq_ok.mpr ⟨events,events,rfl,bind_eq_ok.mpr ⟨(),_,rfl,?_⟩⟩
        rw [hfound]
        rfl
      · rfl
    | true =>
      obtain ⟨answer,status,effects,hopen⟩ := h path (events ++ [⟨index,.pathExists path⟩])
      refine ⟨true,answer,status,.pathExists path :: effects,?_,?_,⟨hfound,hopen.answered true⟩,?_⟩
      · refine bind_eq_ok.mpr ⟨events,events,rfl,bind_eq_ok.mpr ⟨(),_,rfl,?_⟩⟩
        rw [hfound]
        simpa using hopen.run
      · refine bind_eq_ok.mpr ⟨[],[],rfl,bind_eq_ok.mpr ⟨(),_,rfl,?_⟩⟩
        change openPath (steady true answer) 0 path [⟨0,.pathExists path⟩] = _
        simpa using hopen.steady true [⟨0,.pathExists path⟩]
      · simpa [Effect.isLaunch] using hopen.once

theorem dispatchOne_attempts (pr : PlannedResource) :
    ∃ found answer status effects,
      Attempts (fun launcher index => dispatchOne os opener launcher index pr)
        launcher index events found answer status effects := by
  have hlaunch : ∀ argv cwd, ∃ found answer status effects,
      Attempts (fun launcher index => launch launcher index argv cwd) launcher index events found
        answer status effects := by
    intro argv cwd
    obtain ⟨answer,status,effects,h⟩ := launches_launch argv cwd
    exact ⟨true,answer,status,effects,h.attempts⟩
  have htemplate : ∀ template missing, ∃ found answer status effects,
      Attempts (fun launcher index => dispatchTemplate launcher index template missing
        pr.resource.target) launcher index events found answer status effects := by
    intro template missing
    obtain ⟨answer,status,effects,h⟩ := launches_template template missing pr.resource.target
    exact ⟨true,answer,status,effects,h.attempts⟩
  unfold dispatchOne
  cases pr.kind with
  | https => exact hlaunch _ _
  | geo => exact hlaunch _ _
  | mailto => exact hlaunch _ _
  | file => exact attempts_path fun path _ => launches_launch _ none
  | dir => exact attempts_path fun path _ => launches_launch _ none
  | terminal =>
    refine attempts_path fun path _ => ?_
    cases opener.terminalArgv with
    | none => exact ⟨.ok (),_,_,launches_return _ _⟩
    | some template => exact launches_launch _ (some path)
  | ssh => exact htemplate _ _
  | remoteDesktop => exact htemplate _ _
  | murl =>
    have hnone : Launches (fun _ _ => pure (.skipped,some "container resource")) launcher index
        events (.ok ()) (.skipped,some "container resource") [] := launches_return _ _
    exact ⟨true,.ok (),_,_,hnone.attempts⟩
  | custom name => exact htemplate _ _

theorem dispatchOne_attempt (os : Path.Platform) (opener : OpenerConfig) (launcher : Launcher)
    (index : Nat) (pr : PlannedResource) (events : List Event) :
    ∃ found answer,
      dispatchOne os opener launcher index pr events =
        .ok (attempt os opener pr found answer).1
          (events ++ (attempt os opener pr found answer).2.map (Event.mk index)) ∧
      Answered launcher index found answer events (attempt os opener pr found answer).2 ∧
      (attempt os opener pr found answer).2.countP Effect.isLaunch ≤ 1 := by
  obtain ⟨found,answer,status,effects,h⟩ : ∃ found answer status effects,
      Attempts (fun launcher index => dispatchOne os opener launcher index pr)
        launcher index events found answer status effects := dispatchOne_attempts pr
  have hattempt : attempt os opener pr found answer = (status,effects) := by
    unfold attempt
    rw [h.steady]
    simp [Function.comp_def]
  exact ⟨found,answer,by rw [hattempt]; exact h.run,by rw [hattempt]; exact h.answered,
    by rw [hattempt]; exact h.once⟩

end One

section Execute

inductive Undertaken (os : Path.Platform) (opener : OpenerConfig) (launcher : Launcher)
    (limits : Limits) (index : Nat) (pr : PlannedResource) (before : List Event) :
    Approval → List Event → Status → Prop
  | denied (reason : String) :
      Undertaken os opener launcher limits index pr before (.denied reason) [] (.denied,some reason)
  | skipped (reason : String) :
      Undertaken os opener launcher limits index pr before (.skipped reason) [] (.skipped,some reason)
  | approved (pause : List Event) (found : Bool) (answer : Except Error Unit)
      (paused : pause = [] ∨ pause = [⟨index,.sleepMs limits.dispatchStaggerMs⟩])
      (answered : Answered launcher index found answer (before ++ pause)
        (attempt os opener pr found answer).2)
      (once : (attempt os opener pr found answer).2.countP Effect.isLaunch ≤ 1) :
      Undertaken os opener launcher limits index pr before .approved
        (pause ++ (attempt os opener pr found answer).2.map (Event.mk index))
        (attempt os opener pr found answer).1

variable (os : Path.Platform) (opener : OpenerConfig) (launcher : Launcher) (limits : Limits)

theorem executeOne_handled (index : Nat) (launchedAny : Bool) (pr : PlannedResource)
    (approval : Approval) (events : List Event) :
    ∃ status trace, executeOne os opener launcher index limits launchedAny pr approval events =
        .ok status (events ++ trace) ∧
      Undertaken os opener launcher limits index pr events approval trace status := by
  cases approval with
  | denied reason => exact ⟨_,[],by rw [List.append_nil]; rfl,.denied reason⟩
  | skipped reason => exact ⟨_,[],by rw [List.append_nil]; rfl,.skipped reason⟩
  | approved =>
    obtain ⟨pause,hpause,hstagger⟩ : ∃ pause : List Event,
        (pause = [] ∨ pause = [⟨index,.sleepMs limits.dispatchStaggerMs⟩]) ∧
        stagger index limits launchedAny events = .ok () (events ++ pause) := by
      unfold stagger
      split
      · exact ⟨_,.inr rfl,rfl⟩
      · exact ⟨[],.inl rfl,by rw [List.append_nil]; rfl⟩
    obtain ⟨found,answer,hrun,hanswered,honce⟩ :=
      dispatchOne_attempt os opener launcher index pr (events ++ pause)
    refine ⟨_,_,?_,.approved pause found answer hpause hanswered honce⟩
    unfold executeOne
    refine bind_eq_ok.mpr ⟨(),_,hstagger,?_⟩
    rw [hrun,List.append_assoc]

structure UndertakenAll (os : Path.Platform) (opener : OpenerConfig) (launcher : Launcher)
    (limits : Limits) (index : Nat) (plan : List (PlannedResource × Approval))
    (before : List Event) (traces : List (List Event)) (outcomes : List ResourceOutcome) :
    Prop where
  traced : traces.length = plan.length
  counted : outcomes.length = plan.length
  each : ∀ (i : Nat) pr approval, plan[i]? = some (pr,approval) → ∃ trace status,
    traces[i]? = some trace ∧ outcomes[i]? = some (outcomeOf pr status) ∧
    Undertaken os opener launcher limits (index + i) pr (before ++ (traces.take i).flatten) approval
      trace status

theorem executeFrom_handled (plan : List (PlannedResource × Approval)) (index : Nat)
    (launchedAny : Bool) (events : List Event) :
    ∃ outcomes traces,
      executeFrom os opener launcher limits index launchedAny plan events =
        .ok outcomes (events ++ traces.flatten) ∧
      UndertakenAll os opener launcher limits index plan events traces outcomes := by
  induction plan generalizing index launchedAny events with
  | nil => exact ⟨[],[],by simp [executeFrom,pure,EStateM.pure],rfl,rfl,by simp⟩
  | cons first rest ih =>
    obtain ⟨pr,approval⟩ := first
    obtain ⟨status,trace,hone,hhandled⟩ :=
      executeOne_handled os opener launcher limits index launchedAny pr approval events
    obtain ⟨outcomes,traces,hrest,hall⟩ := ih (index + 1)
      (launchedAny || (approval == .approved && status.1 == .opened)) (events ++ trace)
    refine ⟨outcomeOf pr status :: outcomes,trace :: traces,?_,by simp [hall.traced],
      by simp [hall.counted],?_⟩
    · unfold executeFrom
      refine bind_eq_ok.mpr ⟨status,_,hone,bind_eq_ok.mpr ⟨outcomes,_,hrest,?_⟩⟩
      rw [List.flatten_cons,← List.append_assoc]
      rfl
    · intro i pr' approval' hi
      cases i with
      | zero =>
        obtain ⟨rfl,rfl⟩ : pr = pr' ∧ approval = approval' := by simpa using hi
        exact ⟨trace,status,rfl,rfl,by simpa using hhandled⟩
      | succ i =>
        obtain ⟨t,s,ht,ho,hh⟩ := hall.each i pr' approval' (by simpa using hi)
        refine ⟨t,s,by simpa using ht,by simpa using ho,?_⟩
        have hindex : index + (i + 1) = index + 1 + i := by omega
        simpa [hindex] using hh

theorem execute_isolates (resolution : Resolution) (approvals : List Approval)
    (events : List Event) :
    ((∃ e after, execute os opener launcher resolution approvals limits events =
        .error e after) ↔ approvals.length ≠ resolution.resources.length) ∧
    (∀ e after, execute os opener launcher resolution approvals limits events = .error e after →
      after = events) ∧
    ∀ report after, execute os opener launcher resolution approvals limits events =
        .ok report after →
      (∃ traces, after = events ++ traces.flatten ∧
        UndertakenAll os opener launcher limits 0 (resolution.resources.zip approvals) events traces
          report.outcomes) ∧
      ∀ rows : List OutcomeRow, rows.Perm (outcomeRows resolution.resources report.outcomes) →
        report.aggregate = aggregateTable rows ∧
        report.aggregate = aggregateTable (rows.filter fun row => row.status ≠ .skipped) := by
  by_cases hlen : approvals.length = resolution.resources.length
  · obtain ⟨outcomes,traces,hrun,hall⟩ := executeFrom_handled os opener launcher limits
      (resolution.resources.zip approvals) 0 false events
    have hexec : execute os opener launcher resolution approvals limits events =
        .ok ⟨outcomes,aggregate resolution outcomes⟩ (events ++ traces.flatten) := by
      unfold execute
      rw [if_neg (by simp [hlen])]
      exact bind_eq_ok.mpr ⟨_,_,hrun,rfl⟩
    rw [hexec]
    refine ⟨⟨?_,fun h => absurd hlen h⟩,fun e after h => (by cases h),?_⟩
    · rintro ⟨e,after,⟨⟩⟩
    rintro report after ⟨⟩
    refine ⟨⟨traces,rfl,hall⟩,?_⟩
    intro rows hperm
    have hcount : outcomes.length = resolution.resources.length := by
      simpa [hlen] using hall.counted
    have hrows : (rows : Multiset OutcomeRow) = outcomeRows resolution.resources outcomes :=
      Multiset.coe_eq_coe.mpr hperm
    have htable : aggregate resolution outcomes = aggregateTable rows := by
      rw [aggregate_table hcount,hrows]
    refine ⟨htable,?_⟩
    rw [htable,← aggregateTable_filter,Multiset.filter_coe]
  · have hexec : ∃ e, execute os opener launcher resolution approvals limits events =
        .error e events := by
      unfold execute
      rw [if_pos (by simpa using hlen)]
      exact ⟨_,rfl⟩
    obtain ⟨e,he⟩ := hexec
    rw [he]
    refine ⟨⟨fun _ => hlen,fun _ => ⟨e,events,rfl⟩⟩,?_,fun report after h => (by cases h)⟩
    rintro e' after ⟨⟩
    rfl

end Execute

end MurlSystem

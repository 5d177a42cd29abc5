import MurlSystem.Dispatch.Execution
import MurlSystem.Foundation.Cut

namespace MurlSystem

open Program

def Launcher.Steady (launcher : Launcher) (present : List Char → Bool) : Prop :=
  ∀ events, launcher.pathExists events = present

def effectsOf (os : Path.Platform) (opener : OpenerConfig) (present : List Char → Bool)
    (pr : PlannedResource) : List Effect :=
  (final (dispatchOne os opener ⟨fun _ _ _ => .ok (),fun _ => present⟩ 0 pr) []).map Event.effect

def Emits (present : List Char → Bool) (p : Launcher → Nat → DispatchM Status)
    (effects : List Effect) : Prop :=
  ∀ launcher : Launcher, launcher.Steady present → ∀ index events,
    ∃ status, p launcher index events = .ok status (events ++ effects.map (Event.mk index))

section Emits

variable {os : Path.Platform} {opener : OpenerConfig} {present : List Char → Bool}

theorem emits_return (status : Status) : Emits present (fun _ _ => pure status) [] := by
  intro launcher _ index events
  exact ⟨status,by rw [List.map_nil,List.append_nil]; rfl⟩

theorem emits_launch (argv : List String) (cwd : Option (List Char)) :
    ∃ effects, Emits present (fun launcher index => launch launcher index argv cwd) effects := by
  by_cases hblank : (argv.headD "").toList.all Text.isWhitespace = true
  · refine ⟨[],fun launcher _ index events => ?_⟩
    change ∃ status, launch launcher index argv cwd events = _
    unfold launch
    rw [if_pos hblank,List.map_nil,List.append_nil]
    exact ⟨_,rfl⟩
  · refine ⟨[.launch argv cwd],fun launcher _ index events => ?_⟩
    change ∃ status, launch launcher index argv cwd events = _
    unfold launch
    rw [if_neg hblank]
    cases hanswer : launcher.launch events argv cwd with
    | ok _ =>
      refine ⟨(.opened,none),bind_eq_ok.mpr ⟨_,_,rfl,bind_eq_ok.mpr ⟨(),_,rfl,?_⟩⟩⟩
      rw [hanswer]
      rfl
    | error e =>
      refine ⟨(.failed,some e.toString),bind_eq_ok.mpr ⟨_,_,rfl,bind_eq_ok.mpr ⟨(),_,rfl,?_⟩⟩⟩
      rw [hanswer]
      rfl

theorem emits_path {target : String} {openPath : Launcher → Nat → List Char → DispatchM Status}
    (h : ∀ path, ∃ effects,
      Emits present (fun launcher index => openPath launcher index path) effects) :
    ∃ effects, Emits present (fun launcher index =>
      dispatchPath os opener launcher index target (openPath launcher index)) effects := by
  unfold dispatchPath
  cases opener.expandPath os target with
  | error e => exact ⟨[],emits_return _⟩
  | ok path =>
    obtain ⟨effects,heffects⟩ := h path
    cases hpresent : present path with
    | true =>
      refine ⟨.pathExists path :: effects,fun launcher hsteady index events => ?_⟩
      obtain ⟨status,hstatus⟩ := heffects launcher hsteady index (events ++ [⟨index,.pathExists path⟩])
      have hrest : openPath launcher index path (events ++ [⟨index,.pathExists path⟩]) =
          .ok status (events ++ (Effect.pathExists path :: effects).map (Event.mk index)) := by
        have hmap : events ++ (Effect.pathExists path :: effects).map (Event.mk index) =
            events ++ [⟨index,.pathExists path⟩] ++ effects.map (Event.mk index) := by simp
        rw [hmap]
        exact hstatus
      refine ⟨status,bind_eq_ok.mpr ⟨_,_,rfl,bind_eq_ok.mpr ⟨(),_,rfl,?_⟩⟩⟩
      rw [if_pos (by rw [hsteady,hpresent])]
      exact hrest
    | false =>
      refine ⟨[.pathExists path],fun launcher hsteady index events => ?_⟩
      refine ⟨(.unavailable,some s!"{String.ofList path} does not exist"),
        bind_eq_ok.mpr ⟨_,_,rfl,bind_eq_ok.mpr ⟨(),_,rfl,?_⟩⟩⟩
      rw [if_neg (by rw [hsteady,hpresent]; decide)]
      rfl

theorem emits_template (template : Option (List String)) (missing target : String) :
    ∃ effects, Emits present
      (fun launcher index => dispatchTemplate launcher index template missing target) effects := by
  cases template with
  | none => exact ⟨[],emits_return _⟩
  | some template => exact emits_launch _ _

theorem emits_one (pr : PlannedResource) : ∃ effects, Emits present
    (fun launcher index => dispatchOne os opener launcher index pr) effects := by
  unfold dispatchOne
  cases pr.kind with
  | https => exact emits_launch _ _
  | geo => exact emits_launch _ _
  | mailto => exact emits_launch _ _
  | file => exact emits_path fun path => emits_launch _ _
  | dir => exact emits_path fun path => emits_launch _ _
  | terminal =>
    refine emits_path fun path => ?_
    cases opener.terminalArgv with
    | none => exact ⟨[],emits_return _⟩
    | some template => exact emits_launch _ _
  | ssh => exact emits_template _ _ _
  | remoteDesktop => exact emits_template _ _ _
  | murl => exact ⟨[],emits_return _⟩
  | custom name => exact emits_template _ _ _

theorem dispatchOne_emits (pr : PlannedResource) :
    Emits present (fun launcher index => dispatchOne os opener launcher index pr)
      (effectsOf os opener present pr) := by
  obtain ⟨effects,heffects⟩ := @emits_one os opener present pr
  have hplain : (⟨fun _ _ _ => .ok (),fun _ => present⟩ : Launcher).Steady present := fun _ => rfl
  obtain ⟨status,hstatus⟩ := heffects _ hplain 0 []
  have hsame : effectsOf os opener present pr = effects := by
    unfold effectsOf
    rw [final_ok hstatus]
    simp [Function.comp_def]
  rw [hsame]
  exact heffects

end Emits

section Execute

variable {os : Path.Platform} {opener : OpenerConfig} {launcher : Launcher}
variable {present : List Char → Bool} {limits : Limits}

structure LaunchedFor (os : Path.Platform) (opener : OpenerConfig) (present : List Char → Bool)
    (index : Nat) (plan : List (PlannedResource × Approval)) (e : Event) : Prop where
  asked : ∃ i pr, plan[i]? = some (pr,.approved) ∧ e.index = index + i ∧
    e.effect ∈ effectsOf os opener present pr

theorem launchedFor_cons {index : Nat} {pr : PlannedResource} {a : Approval}
    {rest : List (PlannedResource × Approval)} {e : Event} :
    LaunchedFor os opener present index ((pr,a) :: rest) e ↔
      (a = .approved ∧ e.index = index ∧ e.effect ∈ effectsOf os opener present pr) ∨
      LaunchedFor os opener present (index + 1) rest e := by
  constructor
  · rintro ⟨i,pr',hi,hindex,heffect⟩
    cases i with
    | zero =>
      obtain ⟨rfl,rfl⟩ : pr = pr' ∧ a = .approved := by simpa using hi
      exact .inl ⟨rfl,hindex,heffect⟩
    | succ i => exact .inr ⟨i,pr',by simpa using hi,by omega,heffect⟩
  · rintro (⟨rfl,hindex,heffect⟩ | ⟨i,pr',hi,hindex,heffect⟩)
    · exact ⟨0,pr,rfl,by omega,heffect⟩
    · exact ⟨i + 1,pr',by simpa using hi,by omega,heffect⟩

theorem executeOne_launches (hsteady : launcher.Steady present) (index : Nat) (launchedAny : Bool)
    (pr : PlannedResource) (a : Approval) (events : List Event) :
    ∃ status after, executeOne os opener launcher index limits launchedAny pr a events =
        .ok status after ∧
      ∀ e : Event, e.effect.isLaunch = true → (e ∈ after ↔ e ∈ events ∨
        (a = .approved ∧ e.index = index ∧ e.effect ∈ effectsOf os opener present pr)) := by
  cases a with
  | denied reason => exact ⟨_,events,rfl,fun e _ => by simp⟩
  | skipped reason => exact ⟨_,events,rfl,fun e _ => by simp⟩
  | approved =>
    obtain ⟨pause,hpause,hstagger⟩ : ∃ pause : List Event,
        (∀ e ∈ pause, e.effect.isLaunch = false) ∧
        stagger index limits launchedAny events = .ok () (events ++ pause) := by
      unfold stagger
      split
      · exact ⟨[⟨index,.sleepMs limits.dispatchStaggerMs⟩],by simp [Effect.isLaunch],rfl⟩
      · exact ⟨[],by simp,by rw [List.append_nil]; rfl⟩
    obtain ⟨status,hrun⟩ := @dispatchOne_emits os opener present pr launcher hsteady index
      (events ++ pause)
    refine ⟨status,_,bind_eq_ok.mpr ⟨(),_,hstagger,hrun⟩,fun e he => ?_⟩
    have hnot : e ∉ pause := by
      intro hmem
      rw [hpause e hmem] at he
      cases he
    have hasked : e ∈ (effectsOf os opener present pr).map (Event.mk index) ↔
        e.index = index ∧ e.effect ∈ effectsOf os opener present pr := by
      constructor
      · intro hmem
        obtain ⟨effect,heffect,rfl⟩ := List.mem_map.mp hmem
        exact ⟨rfl,heffect⟩
      · rintro ⟨rfl,heffect⟩
        exact List.mem_map.mpr ⟨e.effect,heffect,rfl⟩
    rw [List.mem_append,List.mem_append,hasked]
    simp [hnot]

theorem executeFrom_launches (hsteady : launcher.Steady present)
    (plan : List (PlannedResource × Approval)) (index : Nat) (launchedAny : Bool)
    (events : List Event) :
    ∃ outcomes after, executeFrom os opener launcher limits index launchedAny plan events =
        .ok outcomes after ∧
      ∀ e : Event, e.effect.isLaunch = true →
        (e ∈ after ↔ e ∈ events ∨ LaunchedFor os opener present index plan e) := by
  induction plan generalizing index launchedAny events with
  | nil =>
    refine ⟨[],events,rfl,fun e _ => ⟨.inl,?_⟩⟩
    rintro (h | ⟨i,pr,hi,-,-⟩)
    · exact h
    · cases hi
  | cons first rest ih =>
    obtain ⟨pr,a⟩ := first
    obtain ⟨status,middle,hone,hfirst⟩ :=
      @executeOne_launches os opener launcher present limits hsteady index launchedAny pr a events
    obtain ⟨outcomes,after,hrest,hlater⟩ := ih (index + 1)
      (launchedAny || (a == .approved && status.1 == .opened)) middle
    refine ⟨outcomeOf pr status :: outcomes,after,?_,fun e he => ?_⟩
    · unfold executeFrom
      exact bind_eq_ok.mpr ⟨status,_,hone,bind_eq_ok.mpr ⟨outcomes,_,hrest,rfl⟩⟩
    · rw [hlater e he,hfirst e he,launchedFor_cons,or_assoc]

theorem execute_launches (hsteady : launcher.Steady present) (plan : Resolution)
    {approvals : List Approval} (hlen : approvals.length = plan.resources.length) {e : Event}
    (he : e.effect.isLaunch = true) :
    e ∈ final (execute os opener launcher plan approvals limits) [] ↔
      LaunchedFor os opener present 0 (plan.resources.zip approvals) e := by
  obtain ⟨outcomes,after,hrun,hall⟩ := @executeFrom_launches os opener launcher present limits
    hsteady (plan.resources.zip approvals) 0 false []
  have hexec : execute os opener launcher plan approvals limits [] =
      .ok ⟨outcomes,aggregate plan outcomes⟩ after := by
    unfold execute
    rw [if_neg (by simp [hlen])]
    exact bind_eq_ok.mpr ⟨_,_,hrun,rfl⟩
  rw [final,hexec]
  simpa using hall e he

end Execute

end MurlSystem

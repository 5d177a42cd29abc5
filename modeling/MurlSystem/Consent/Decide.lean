import Mathlib.Data.List.Forall2
import MurlSystem.Core.Dispatch

namespace MurlSystem

def selectedBy (only : List String) (pr : PlannedResource) : Bool :=
  only.isEmpty || only.any fun s => s == pr.resource.id || s == pr.rootAnchor

section Cli

structure OpenOptions where
  yes : Bool := false
  allowSensitive : Bool := false
  allowDangerous : Bool := false
  only : List String := []
  skip : List String := []
deriving DecidableEq, Repr

structure Terminal where
  interactive : Bool
  answers : List String
deriving DecidableEq, Repr

def OpenOptions.approves (opts : OpenOptions) : Tier → Bool
  | .safe => opts.yes || opts.allowSensitive || opts.allowDangerous
  | .sensitive => opts.allowSensitive
  | .dangerous => opts.allowDangerous

-- The outer option is the source's expectation that a policy has been applied; the inner one is
-- a slot that is left for the prompt.
def OpenOptions.slot (opts : OpenOptions) (pr : PlannedResource) : Option (Option Approval) :=
  if !selectedBy opts.only pr then some (some (.skipped "not selected (--only)"))
  else if opts.skip.any (fun s => s == pr.resource.id) then
    some (some (.skipped "skipped (--skip)"))
  else
    match pr.decision with
    | none => none
    | some (.deny reason) => some (some (.denied reason))
    | some .allow => some (some .approved)
    | some (.prompt _) => some (if opts.approves pr.tier then some .approved else none)

def fillAll (a : Approval) (slots : List (Option Approval)) : List Approval :=
  slots.map fun slot => slot.getD a

def trimmed (answer : String) : String :=
  String.ofList (Text.trim Text.isWhitespace (Text.lowercase answer.toList))

def declined : Approval := .denied "declined"

def answerOne (answer : String) : Approval :=
  if trimmed answer = "y" ∨ trimmed answer = "yes" then .approved else declined

def fillEach : List (Option Approval) → List String → List Approval
  | [],_ => []
  | some a :: slots,answers => a :: fillEach slots answers
  | none :: slots,answers => answerOne (answers.headD "") :: fillEach slots answers.tail

def promptFor (slots : List (Option Approval)) (answers : List String) : List Approval :=
  match trimmed (answers.headD "") with
  | "a" | "all" => fillAll .approved slots
  | "s" | "select" => fillEach slots answers.tail
  | _ => fillAll declined slots

def needsConsent : String :=
  "requires consent; re-run interactively or pass --yes / --allow-sensitive / --allow-dangerous"

def Cli.decide (res : Resolution) (opts : OpenOptions) (terminal : Terminal) :
    Option (List Approval) := do
  let slots ← res.resources.mapM opts.slot
  if terminal.interactive then return promptFor slots terminal.answers
  else return fillAll (.denied needsConsent) slots

end Cli

section Daemon

structure ConsentItem where
  index : Nat
  id : String
  label : String
  kind : String
  target : String
  tier : Tier
  reasons : List String
deriving DecidableEq, Repr

structure ConsentRequest where
  name : String
  identity : Option String
  origin : String
  trust : String
  items : List ConsentItem
  denied : List (ConsentItem × String)
deriving Repr

def consentItem (index : Nat) (pr : PlannedResource) (reasons : List String) : ConsentItem :=
  ⟨index,pr.resource.id,pr.displayLabel,pr.kind.toString,pr.resource.target,pr.tier,reasons⟩

def consentSlot (only : List String) (pr : PlannedResource) : Option Approval :=
  if !selectedBy only pr then some (.skipped "not selected")
  else
    match pr.decision with
    | some .allow => some .approved
    | some (.deny reason) => some (.denied reason)
    | some (.prompt _) => none
    | none => some (.denied "no policy decision")

def offer (only : List String) (entry : PlannedResource × Nat) : Option ConsentItem :=
  if !selectedBy only entry.1 then none
  else
    match entry.1.decision with
    | some (.prompt reasons) => some (consentItem entry.2 entry.1 reasons)
    | _ => none

def refusal (only : List String) (entry : PlannedResource × Nat) :
    Option (ConsentItem × String) :=
  if !selectedBy only entry.1 then none
  else
    match entry.1.decision with
    | some (.deny reason) => some (consentItem entry.2 entry.1 [],reason)
    | _ => none

def Daemon.prepare (res : Resolution) (only : List String) :
    Option (ConsentRequest × List (Option Approval)) := do
  let root ← res.nodes.head?
  let plan := res.resources.zipIdx
  return (⟨root.manifest.doc.name,root.identity,root.origin.describe,root.trust.toString,
    plan.filterMap (offer only),plan.filterMap (refusal only)⟩,
    res.resources.map (consentSlot only))

def grantSlot (granted : List Nat) (entry : Option Approval × Nat) : Approval :=
  entry.1.getD (if granted.contains entry.2 then .approved else .denied "not granted")

def Daemon.apply (slots : List (Option Approval)) (granted : List Nat) : List Approval :=
  slots.zipIdx.map (grantSlot granted)

end Daemon

section Vetted

def PlannedResource.permitted (pr : PlannedResource) : Bool :=
  match pr.decision with
  | some (.deny _) | none => false
  | some .allow | some (.prompt _) => true

def Vetted (pr : PlannedResource) (slot : Option Approval) : Prop :=
  slot = none ∨ slot = some .approved → pr.permitted = true

def Granted (pr : PlannedResource) (a : Approval) : Prop := a = .approved → pr.permitted = true

def Fills (slot : Option Approval) (a : Approval) : Prop := ∀ b, slot = some b → a = b

theorem Vetted.settled {pr : PlannedResource} {a : Approval} (h : a ≠ .approved) :
    Vetted pr (some a) := by
  rintro (hn | hs)
  · cases hn
  · exact absurd (Option.some.inj hs) h

theorem Vetted.fill {pr : PlannedResource} {slot : Option Approval} {a : Approval}
    (h : Vetted pr slot) (hf : Fills slot a) : Granted pr a := by
  intro ha
  cases slot with
  | none => exact h (.inl rfl)
  | some b => exact h (.inr (by rw [← hf b rfl,ha]))

theorem vetted_fill {resources : List PlannedResource} {slots : List (Option Approval)}
    {approvals : List Approval} (h : List.Forall₂ Vetted resources slots)
    (hf : List.Forall₂ Fills slots approvals) : List.Forall₂ Granted resources approvals := by
  induction h generalizing approvals with
  | nil =>
    cases hf
    exact .nil
  | cons hv _ ih =>
    cases hf with
    | cons hfill hrest => exact .cons (hv.fill hfill) (ih hrest)

theorem fills_map (f : Option Approval → Approval) (slots : List (Option Approval))
    (h : ∀ slot, Fills slot (f slot)) : List.Forall₂ Fills slots (slots.map f) :=
  List.forall₂_map_right_iff.mpr (List.forall₂_same.mpr fun slot _ => h slot)

theorem fills_getD (a : Approval) (slot : Option Approval) : Fills slot (slot.getD a) := by
  rintro b rfl
  rfl

theorem fillAll_fills (a : Approval) (slots : List (Option Approval)) :
    List.Forall₂ Fills slots (fillAll a slots) :=
  fills_map _ slots (fills_getD a)

theorem fillEach_fills (slots : List (Option Approval)) (answers : List String) :
    List.Forall₂ Fills slots (fillEach slots answers) := by
  induction slots generalizing answers with
  | nil => exact .nil
  | cons slot rest ih =>
    cases slot with
    | some a => exact .cons (fills_getD a (some a)) (ih answers)
    | none => exact .cons (fun _ h => by cases h) (ih answers.tail)

theorem promptFor_fills (slots : List (Option Approval)) (answers : List String) :
    List.Forall₂ Fills slots (promptFor slots answers) := by
  unfold promptFor
  split
  · exact fillAll_fills .approved slots
  · exact fillAll_fills .approved slots
  · exact fillEach_fills slots answers.tail
  · exact fillEach_fills slots answers.tail
  · exact fillAll_fills declined slots

theorem apply_fills (slots : List (Option Approval)) (granted : List Nat) :
    List.Forall₂ Fills slots (Daemon.apply slots granted) := by
  rw [Daemon.apply,List.forall₂_map_right_iff]
  refine List.forall₂_iff_get.mpr ⟨by simp,?_⟩
  intro i hi hi'
  have hfill := fills_getD (if granted.contains i then .approved else .denied "not granted")
    (slots.get ⟨i,hi⟩)
  simpa [grantSlot] using hfill

theorem slot_vetted {opts : OpenOptions} {pr : PlannedResource} {slot : Option Approval}
    (h : opts.slot pr = some slot) : Vetted pr slot := by
  unfold OpenOptions.slot at h
  split at h
  · cases h
    exact .settled nofun
  · split at h
    · cases h
      exact .settled nofun
    · cases hd : pr.decision with
      | none => simp [hd] at h
      | some d =>
        rw [hd] at h
        cases d with
        | deny reason =>
          cases h
          exact .settled nofun
        | allow => exact fun _ => by simp [PlannedResource.permitted,hd]
        | prompt reasons => exact fun _ => by simp [PlannedResource.permitted,hd]

theorem consentSlot_vetted (only : List String) (pr : PlannedResource) :
    Vetted pr (consentSlot only pr) := by
  unfold consentSlot
  split
  · exact .settled nofun
  · cases hd : pr.decision with
    | none => exact .settled nofun
    | some d =>
      cases d with
      | deny reason => exact .settled nofun
      | allow => exact fun _ => by simp [PlannedResource.permitted,hd]
      | prompt reasons => exact fun _ => by simp [PlannedResource.permitted,hd]

theorem slot_isSome (opts : OpenOptions) {pr : PlannedResource}
    (h : pr.decision.isSome = true) : ∃ slot, opts.slot pr = some slot := by
  obtain ⟨d,hd⟩ := Option.isSome_iff_exists.mp h
  unfold OpenOptions.slot
  rw [hd]
  split
  · exact ⟨_,rfl⟩
  · split
    · exact ⟨_,rfl⟩
    · cases d <;> exact ⟨_,rfl⟩

theorem slots_vetted (opts : OpenOptions) {resources : List PlannedResource}
    (h : ∀ pr ∈ resources, pr.decision.isSome = true) :
    ∃ slots, resources.mapM opts.slot = some slots ∧ List.Forall₂ Vetted resources slots := by
  induction resources with
  | nil => exact ⟨[],rfl,.nil⟩
  | cons pr rest ih =>
    obtain ⟨slot,hslot⟩ := slot_isSome opts (h pr (by simp))
    obtain ⟨slots,hslots,hvetted⟩ := ih fun x hx => h x (by simp [hx])
    refine ⟨slot :: slots,?_,.cons (slot_vetted hslot) hvetted⟩
    rw [List.mapM_cons,hslot,hslots]
    rfl

theorem decide_granted (opts : OpenOptions) (terminal : Terminal) {res : Resolution}
    (h : ∀ pr ∈ res.resources, pr.decision.isSome = true) :
    ∃ approvals, Cli.decide res opts terminal = some approvals ∧
      List.Forall₂ Granted res.resources approvals := by
  obtain ⟨slots,hslots,hvetted⟩ := slots_vetted opts h
  unfold Cli.decide
  rw [hslots]
  cases terminal.interactive with
  | true => exact ⟨_,rfl,vetted_fill hvetted (promptFor_fills slots terminal.answers)⟩
  | false => exact ⟨_,rfl,vetted_fill hvetted (fillAll_fills _ slots)⟩

theorem prepare_granted (only : List String) (ui : ConsentRequest → List Nat) {res : Resolution}
    (h : res.nodes ≠ []) :
    ∃ request slots, Daemon.prepare res only = some (request,slots) ∧
      List.Forall₂ Granted res.resources (Daemon.apply slots (ui request)) := by
  obtain ⟨root,nodes,hnodes⟩ := List.exists_cons_of_ne_nil h
  unfold Daemon.prepare
  rw [hnodes]
  refine ⟨_,_,rfl,vetted_fill ?_ (apply_fills _ _)⟩
  exact List.forall₂_map_right_iff.mpr
    (List.forall₂_same.mpr fun pr _ => consentSlot_vetted only pr)

end Vetted

end MurlSystem

import MurlSystem.Dispatch.Aggregate
import MurlSystem.Resolution.Spliced

namespace MurlSystem

open Program

def ResourceDoc.sameTarget (doc : ResourceDoc) (pr : PlannedResource) : Bool :=
  (Kind.parse doc.kind).toOption == some pr.kind && doc.target == pr.resource.target

def declaredRequired (res : Resolution) (pr : PlannedResource) : Bool :=
  res.nodes.any fun node => node.manifest.doc.resources.any fun doc =>
    doc.required && doc.sameTarget pr

def plansRequired (res : Resolution) : Bool :=
  res.resources.all fun pr => !declaredRequired res pr || pr.resource.required

def RequiredHeeded (res : Resolution) : Prop :=
  ∀ os opener launcher limits approvals events report after,
    execute os opener launcher res approvals limits events = .ok report after →
    ∀ (i : Nat) pr outcome, res.resources[i]? = some pr → report.outcomes[i]? = some outcome →
      outcome.status.isMissed = true → declaredRequired res pr = true →
      report.aggregate = .failed

section Refused

variable (os : Path.Platform) (opener : OpenerConfig) (launcher : Launcher) (limits : Limits)

def Approval.status : Approval → OutcomeStatus
  | .approved => .opened
  | .denied _ => .denied
  | .skipped _ => .skipped

theorem executeOne_refused (index : Nat) (launchedAny : Bool) (pr : PlannedResource)
    {a : Approval} (events : List Event) (h : a ≠ .approved) :
    ∃ why, executeOne os opener launcher index limits launchedAny pr a events =
      .ok (a.status,why) events := by
  cases a with
  | approved => exact absurd rfl h
  | denied reason => exact ⟨some reason,rfl⟩
  | skipped reason => exact ⟨some reason,rfl⟩

theorem executeFrom_refused {plan : List (PlannedResource × Approval)} (index : Nat)
    (launchedAny : Bool) (events : List Event) (h : ∀ entry ∈ plan, entry.2 ≠ .approved) :
    ∃ outcomes, executeFrom os opener launcher limits index launchedAny plan events =
        .ok outcomes events ∧
      outcomes.map ResourceOutcome.status = plan.map fun entry => entry.2.status := by
  induction plan generalizing index launchedAny with
  | nil => exact ⟨[],rfl,rfl⟩
  | cons first rest ih =>
    obtain ⟨pr,a⟩ := first
    obtain ⟨why,hone⟩ := executeOne_refused os opener launcher limits index launchedAny pr events
      (h (pr,a) (by simp))
    obtain ⟨outcomes,hrest,hstatus⟩ := ih (index + 1)
      (launchedAny || (a == .approved && a.status == .opened))
      (fun entry he => h entry (by simp [he]))
    refine ⟨outcomeOf pr (a.status,why) :: outcomes,?_,by simp [outcomeOf,hstatus]⟩
    unfold executeFrom
    exact bind_eq_ok.mpr ⟨_,events,hone,bind_eq_ok.mpr ⟨_,events,hrest,rfl⟩⟩

end Refused

section Aggregate

variable {res : Resolution} {outcomes : List ResourceOutcome}

theorem aggregate_missed {i : Nat} {pr : PlannedResource} {outcome : ResourceOutcome}
    (hpr : res.resources[i]? = some pr) (hout : outcomes[i]? = some outcome)
    (hmissed : outcome.status.isMissed = true) (hreq : pr.resource.required = true) :
    aggregate res outcomes = .failed := by
  have hstatus : (outcomes.map ResourceOutcome.status)[i]? = some outcome.status := by
    simp [hout]
  have hmem : (pr,outcome.status) ∈ res.resources.zip (outcomes.map ResourceOutcome.status) :=
    List.mem_of_getElem? (List.getElem?_zip_eq_some.mpr ⟨hpr,hstatus⟩)
  unfold aggregate
  refine if_pos (List.any_eq_true.mpr ⟨_,hmem,?_⟩)
  change (pr.resource.required && outcome.status.isMissed) = true
  rw [hreq,hmissed]
  rfl

theorem aggregate_refused (hlen : outcomes.length = res.resources.length)
    (hopen : ∀ o ∈ outcomes, o.status = .denied ∨ o.status = .skipped)
    (hsome : ∃ o ∈ outcomes, o.status = .denied)
    (hspare : ∀ (i : Nat) pr o, res.resources[i]? = some pr → outcomes[i]? = some o →
      o.status = .denied → pr.resource.required = false) :
    aggregate res outcomes = .denied := by
  have hrow : ∀ row ∈ outcomeRows res.resources outcomes,
      (row.status = .denied ∨ row.status = .skipped) ∧ row.missed = false := by
    intro row hrow
    obtain ⟨i,pr,o,hpr,ho,rfl⟩ := mem_outcomeRows.mp hrow
    have hclosed := hopen o (List.mem_of_getElem? ho)
    refine ⟨hclosed,?_⟩
    rcases hclosed with hd | hs
    · simp [OutcomeRow.missed,hspare i pr o hpr ho hd]
    · simp [OutcomeRow.missed,hs,OutcomeStatus.isMissed,OutcomeStatus.isBad]
  obtain ⟨o,ho,hdenied⟩ := hsome
  obtain ⟨i,hi⟩ := List.mem_iff_getElem?.mp ho
  have hlt : i < res.resources.length := hlen ▸ (List.getElem?_eq_some_iff.mp hi).1
  have hmem := mem_outcomeRows.mpr ⟨i,_,o,List.getElem?_eq_getElem hlt,hi,rfl⟩
  rw [aggregate_table hlen]
  unfold aggregateTable
  rw [if_neg,if_neg,if_neg]
  · rintro (⟨row,hr,hm⟩ | ⟨-,row,hr,hb⟩)
    · rw [(hrow row hr).2] at hm
      cases hm
    · rcases (hrow row hr).1 with hd | hd <;> simp [hd,OutcomeStatus.isBad] at hb
  · rintro ⟨⟨row,hr,ho⟩,-⟩
    rcases (hrow row hr).1 with hd | hd <;> simp [hd] at ho
  · intro hall
    have hopened := hall _ hmem (by simp [hdenied])
    simp [hdenied] at hopened

end Aggregate

section Required

variable {res : Resolution}

theorem execute_aggregate {os : Path.Platform} {opener : OpenerConfig} {launcher : Launcher}
    {limits : Limits} {approvals : List Approval} {events after : List Event}
    {report : ExecutionReport}
    (h : execute os opener launcher res approvals limits events = .ok report after) :
    report.aggregate = aggregate res report.outcomes := by
  unfold execute at h
  split at h
  · cases h
  · obtain ⟨outcomes,s,-,hreport⟩ := bind_eq_ok.mp h
    cases hreport
    rfl

def denyOnly (n i : Nat) : List Approval :=
  (List.range n).map fun j => if j = i then .denied "declined" else .skipped "skipped (--skip)"

theorem denyOnly_status {n i j : Nat} {a : Approval} (h : (denyOnly n i)[j]? = some a) :
    a.status = if j = i then .denied else .skipped := by
  obtain ⟨hlt,rfl⟩ := List.getElem?_eq_some_iff.mp h
  by_cases hji : j = i <;> simp [denyOnly,hji,Approval.status]

theorem plansRequired_heeded (h : plansRequired res = true) : RequiredHeeded res := by
  intro os opener launcher limits approvals events report after hrun i pr outcome hpr hout
    hmissed hdeclared
  have hreq := List.all_eq_true.mp h pr (List.mem_of_getElem? hpr)
  rw [hdeclared] at hreq
  rw [execute_aggregate hrun]
  exact aggregate_missed hpr hout hmissed (by simpa using hreq)

theorem heeded_plansRequired (h : RequiredHeeded res) : plansRequired res = true := by
  refine List.all_eq_true.mpr ?_
  intro pr hmem
  obtain ⟨i,hpr⟩ := List.mem_iff_getElem?.mp hmem
  have hlt : i < res.resources.length := (List.getElem?_eq_some_iff.mp hpr).1
  by_contra hnot
  obtain ⟨hdeclared,hspare⟩ : declaredRequired res pr = true ∧ pr.resource.required = false := by
    simpa using hnot
  -- Everything is skipped but the survivor, which the user declines.
  let approvals := denyOnly res.resources.length i
  have hlen : approvals.length = res.resources.length := by simp [approvals,denyOnly]
  have hrefused : ∀ entry ∈ res.resources.zip approvals, entry.2 ≠ .approved := by
    rintro ⟨p,a⟩ he
    obtain ⟨j,-,hj⟩ := List.mem_map.mp (List.of_mem_zip he).2
    rw [← hj]
    split <;> nofun
  let quiet : Launcher := ⟨fun _ _ _ => .ok (),fun _ _ => true⟩
  obtain ⟨outcomes,hrun,hstatus⟩ := executeFrom_refused .posix ⟨[],none,none,none,[],none⟩ quiet {}
    0 false [] hrefused
  have hat : ∀ (j : Nat) o, outcomes[j]? = some o → j < res.resources.length ∧
      o.status = if j = i then .denied else .skipped := by
    intro j o ho
    have hj : (outcomes.map ResourceOutcome.status)[j]? = some o.status := by simp [ho]
    rw [hstatus,List.getElem?_map,Option.map_eq_some_iff] at hj
    obtain ⟨⟨p,a⟩,hentry,ha⟩ := hj
    obtain ⟨hp,happroval⟩ := List.getElem?_zip_eq_some.mp hentry
    exact ⟨(List.getElem?_eq_some_iff.mp hp).1,by rw [← ha]; exact denyOnly_status happroval⟩
  have hcount : outcomes.length = res.resources.length := by
    have hsame := congrArg List.length hstatus
    simpa [hlen] using hsame
  have hexec : execute .posix ⟨[],none,none,none,[],none⟩ quiet res approvals {} [] =
      .ok ⟨outcomes,aggregate res outcomes⟩ [] := by
    unfold execute
    rw [if_neg (by simp [hlen])]
    exact bind_eq_ok.mpr ⟨_,[],hrun,rfl⟩
  obtain ⟨o,ho⟩ : ∃ o, outcomes[i]? = some o :=
    ⟨_,List.getElem?_eq_getElem (hcount ▸ hlt)⟩
  have hdenied : o.status = .denied := by simpa using (hat i o ho).2
  have hagg : aggregate res outcomes = .denied := by
    refine aggregate_refused hcount ?_ ⟨o,List.mem_of_getElem? ho,hdenied⟩ ?_
    · intro x hx
      obtain ⟨j,hj⟩ := List.mem_iff_getElem?.mp hx
      rw [(hat j x hj).2]
      split
      · exact .inl rfl
      · exact .inr rfl
    · intro j p x hp hx hd
      rw [(hat j x hx).2] at hd
      split at hd
      · rename_i hji
        rw [hji,hpr] at hp
        cases hp
        exact hspare
      · cases hd
  have hfailed := h .posix _ quiet {} approvals [] _ [] hexec i pr o hpr ho
    (by rw [hdenied]; rfl) hdeclared
  exact absurd (hagg.symm.trans hfailed) (by decide)

end Required

section Runs

variable {env : Env} {cache : Cache} {ref : TargetRef}

def SuppressedRequired (res : Resolution) (turns : List Turn) : Prop :=
  ∃ t ∈ turns, t.fate = .duplicate ∧ t.resource.required = true ∧
    ∃ pr ∈ res.resources, t.resource.sameTarget pr = true ∧ pr.resource.required = false

theorem sameTarget_iff {doc : ResourceDoc} {pr : PlannedResource} :
    doc.sameTarget pr = true ↔ Kind.parse doc.kind = .ok pr.kind ∧ doc.target = pr.resource.target := by
  unfold ResourceDoc.sameTarget
  cases Kind.parse doc.kind <;> simp [Except.toOption]

theorem declaredRequired_iff {res : Resolution} {pr : PlannedResource} :
    declaredRequired res pr = true ↔ ∃ node ∈ res.nodes, ∃ doc ∈ node.manifest.doc.resources,
      doc.required = true ∧ doc.sameTarget pr = true := by
  simp [declaredRequired]

theorem PlanOk.sole {r : Run} {a b : PlannedResource} (h : PlanOk env r) (ha : a ∈ r.st.resources)
    (hb : b ∈ r.st.resources) (hkind : a.kind = b.kind)
    (htarget : a.resource.target = b.resource.target) : a = b :=
  List.inj_on_of_nodup_map h.keys ha hb (by simp [planKey,hkind,htarget])

theorem Finished.plansRequired {r : Run} {res : Resolution} (h : Finished env cache ref r)
    (hres : finish r.st none = .ok res) :
    plansRequired res = true ↔ ¬SuppressedRequired res r.turns := by
  cases h with
  | all r stack site rs h =>
    have hplan := PlanOk.reachable h
    have hturned := Turned.reachable h
    obtain ⟨hn,hr⟩ : res.nodes = r.st.nodes ∧ res.resources = r.st.resources := by
      obtain rfl : _ = res := by simpa [finish] using hres
      exact ⟨rfl,rfl⟩
    constructor
    · rintro hall ⟨t,ht,-,hreq,pr,hpr,hsame,hspare⟩
      obtain ⟨node,hnode,hat⟩ := hturned.at_ t ht
      have hmem : node ∈ res.nodes := hn ▸ List.mem_of_getElem? hnode
      have hdeclared := declaredRequired_iff.mpr ⟨node,hmem,t.resource,
        List.mem_of_getElem? hat,hreq,hsame⟩
      have hkept := List.all_eq_true.mp hall pr hpr
      rw [hdeclared,hspare] at hkept
      cases hkept
    · intro hnone
      refine List.all_eq_true.mpr ?_
      intro pr hpr
      by_contra hnot
      obtain ⟨hdeclared,hspare⟩ : declaredRequired res pr = true ∧ pr.resource.required = false := by
        simpa using hnot
      obtain ⟨node,hnode,doc,hdoc,hreq,hsame⟩ := declaredRequired_iff.mp hdeclared
      rw [hn] at hnode
      obtain ⟨t,ht,rfl⟩ := hturned.turnOf hnode hdoc
      obtain ⟨hkind,htarget⟩ := sameTarget_iff.mp hsame
      have hplanned : pr ∈ r.st.resources := hr ▸ hpr
      have hleaf : Kind.parse t.resource.kind ≠ .ok .murl := by
        rw [hkind]
        intro heq
        exact (hplan.planned pr hplanned).leaf (Except.ok.inj heq)
      rcases hturned.leaf_fate ht hleaf with hf | hf
      · obtain ⟨own,hown,-,hdoc⟩ := (Matched.reachable h).entry ht hf
        have hparsed := (hplan.planned own hown).kind
        rw [hdoc,hkind] at hparsed
        have htargets : own.resource.target = pr.resource.target := by rw [hdoc,htarget]
        obtain rfl : own = pr := hplan.sole hown hplanned (Except.ok.inj hparsed).symm htargets
        rw [hdoc,hreq] at hspare
        cases hspare
      · exact hnone ⟨t,ht,hf,hreq,pr,hpr,hsame,hspare⟩

theorem resolveRef_required (env : Env) (cache : Cache) (ref : TargetRef)
    (h : ref.selector = none) :
    wp (resolveRef env ref)
      (fun res r => RequiredHeeded res ↔ ¬SuppressedRequired res r.turns)
      (fun _ _ => True) (Run.start cache) := by
  refine wp_mono (resolveRef_spec env cache ref) ?_ (fun _ _ _ => trivial)
  rintro res r ⟨hfinished,hres⟩
  rw [h] at hres
  rw [← hfinished.plansRequired hres]
  exact ⟨heeded_plansRequired,plansRequired_heeded⟩

end Runs

section Merged

def requiredValue (id target : String) : Value :=
  .object [("id",.string id),("kind",.string "https"),("required",.bool true),
    ("target",.string target)]

def mergedPage : Value :=
  manifestValue "Merged" [resourceValue "a" "https" "https://e.com" none,
    requiredValue "b" "https://e.com"]

def mergedEnv : Env :=
  siteEnv (siteCrates [mergedPage] [] [])
    [("https://a.com/.well-known/murl/merged.murl.json",mergedPage)]

def mergedRef : TargetRef := .murl ⟨.remote "a.com" none,["merged"],.latest,none,none⟩

theorem merged_resolves : finishes (resolveRef mergedEnv mergedRef)
    (fun res _ => !plansRequired res) (Run.start Cache.empty) = true := by
  simp only [mergedEnv,siteEnv,siteCrates,published_compact]
  decide +kernel

theorem merged_required_unheeded :
    ¬wp (resolveRef mergedEnv mergedRef) (fun res _ => RequiredHeeded res) (fun _ _ => True)
      (Run.start Cache.empty) := by
  intro h
  obtain ⟨res,r,hok,hno⟩ := finishes_ok merged_resolves
  have hheeded := wp_ok h hok
  rw [heeded_plansRequired hheeded] at hno
  cases hno

theorem merged_heeded_iff : ∃ res r,
    resolveRef mergedEnv mergedRef (Run.start Cache.empty) = .ok res r ∧
      (RequiredHeeded res ↔ ¬SuppressedRequired res r.turns) := by
  obtain ⟨res,r,hok,-⟩ := finishes_ok merged_resolves
  have hiff := wp_ok (resolveRef_required mergedEnv Cache.empty mergedRef rfl) hok
  exact ⟨res,r,hok,hiff⟩

end Merged

end MurlSystem

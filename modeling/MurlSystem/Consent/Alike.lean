import MurlSystem.Consent.Gate
import MurlSystem.Resolution.Selection

namespace MurlSystem

open Program

section Answers

def saysYes (answer : String) : Bool := trimmed answer == "y" || trimmed answer == "yes"

def chosenEach : List Nat → List String → List Nat
  | [],_ => []
  | i :: rest,answers =>
    (if saysYes (answers.headD "") then [i] else []) ++ chosenEach rest answers.tail

def chosen (offered : List Nat) (answers : List String) : List Nat :=
  match trimmed (answers.headD "") with
  | "a" | "all" => offered
  | "s" | "select" => chosenEach offered answers.tail
  | _ => []

def answersFor (offered granted : List Nat) : List String :=
  "s" :: offered.map fun i => if granted.contains i then "y" else "n"

def ConsentRequest.offered (request : ConsentRequest) : List Nat :=
  request.items.map ConsentItem.index

def SelectsExactly (request : ConsentRequest) (answers : List String) (granted : List Nat) : Prop :=
  ∀ i, i ∈ chosen request.offered answers ↔ i ∈ granted

theorem chosenEach_answersFor (offered granted : List Nat) (i : Nat) :
    i ∈ chosenEach offered (answersFor offered granted).tail ↔ i ∈ offered ∧ i ∈ granted := by
  have hy : saysYes "y" = true := by decide +kernel
  have hn : saysYes "n" = false := by decide +kernel
  unfold answersFor
  rw [List.tail_cons]
  induction offered with
  | nil => simp [chosenEach]
  | cons j rest ih =>
    simp only [List.map_cons,chosenEach,List.headD_cons,List.tail_cons,List.mem_append,ih,
      List.mem_cons]
    by_cases hj : j ∈ granted
    · simp only [List.contains_eq_mem,hj,decide_true,if_true,hy,List.mem_singleton]
      constructor
      · rintro (rfl | ⟨hi,hg⟩)
        · exact ⟨.inl rfl,hj⟩
        · exact ⟨.inr hi,hg⟩
      · rintro ⟨rfl | hi,hg⟩
        · exact .inl rfl
        · exact .inr ⟨hi,hg⟩
    · simp only [List.contains_eq_mem,hj,decide_false,Bool.false_eq_true,if_false,hn,
        List.not_mem_nil,false_or]
      constructor
      · rintro ⟨hi,hg⟩
        exact ⟨.inr hi,hg⟩
      · rintro ⟨rfl | hi,hg⟩
        · exact absurd hg hj
        · exact ⟨hi,hg⟩

theorem answersFor_selects {request : ConsentRequest} {granted : List Nat}
    (h : ∀ i ∈ granted, i ∈ request.offered) :
    SelectsExactly request (answersFor request.offered granted) granted := by
  intro i
  have hs : trimmed "s" = "s" := by decide +kernel
  have hchosen : chosen request.offered (answersFor request.offered granted) =
      chosenEach request.offered (answersFor request.offered granted).tail := by
    unfold chosen
    rw [show (answersFor request.offered granted).headD "" = "s" from rfl,hs]
    rfl
  rw [hchosen,chosenEach_answersFor]
  exact ⟨And.right,fun hg => ⟨h i hg,hg⟩⟩

end Answers

section Slots

def openFrom : Nat → List (Option Approval) → List Nat
  | _,[] => []
  | n,none :: rest => n :: openFrom (n + 1) rest
  | n,some _ :: rest => openFrom (n + 1) rest

def fillChosen (granted : List Nat) (index : Nat) (slot : Option Approval) : Approval :=
  slot.getD (if index ∈ granted then .approved else declined)

theorem le_of_mem_openFrom {n i : Nat} {slots : List (Option Approval)}
    (h : i ∈ openFrom n slots) : n ≤ i := by
  induction slots generalizing n with
  | nil => cases h
  | cons slot rest ih =>
    cases slot with
    | some a => exact Nat.le_of_succ_le (ih h)
    | none =>
      rcases List.mem_cons.mp h with rfl | h
      · exact Nat.le_refl _
      · exact Nat.le_of_succ_le (ih h)

theorem mem_openFrom {n i : Nat} {slots : List (Option Approval)} (h : slots[i]? = some none) :
    n + i ∈ openFrom n slots := by
  induction slots generalizing n i with
  | nil => simp at h
  | cons slot rest ih =>
    cases i with
    | zero =>
      obtain rfl : slot = none := by simpa using h
      exact List.mem_cons_self
    | succ i =>
      have hrest := ih (n := n + 1) (by simpa using h)
      rw [Nat.add_right_comm,Nat.add_assoc] at hrest
      cases slot with
      | some a => exact hrest
      | none => exact List.mem_cons_of_mem _ hrest

theorem chosenEach_subset {offered : List Nat} {answers : List String} {i : Nat}
    (h : i ∈ chosenEach offered answers) : i ∈ offered := by
  induction offered generalizing answers with
  | nil => cases h
  | cons j rest ih =>
    rcases List.mem_append.mp h with h | h
    · split at h
      · rw [List.mem_singleton.mp h]
        exact List.mem_cons_self
      · cases h
    · exact List.mem_cons_of_mem _ (ih h)

theorem answerOne_eq (answer : String) :
    answerOne answer = if saysYes answer then .approved else declined := by
  simp [answerOne,saysYes]

theorem fillEach_at (n : Nat) (slots : List (Option Approval)) (answers : List String) (i : Nat) :
    (fillEach slots answers)[i]? =
      slots[i]?.map (fillChosen (chosenEach (openFrom n slots) answers) (n + i)) := by
  induction slots generalizing n answers i with
  | nil => rfl
  | cons slot rest ih =>
    cases slot with
    | some a =>
      cases i with
      | zero => rfl
      | succ i =>
        have hrest := ih (n + 1) answers i
        rw [Nat.add_right_comm,Nat.add_assoc] at hrest
        exact hrest
    | none =>
      cases i with
      | zero =>
        have hnot : n ∉ chosenEach (openFrom (n + 1) rest) answers.tail := fun hmem =>
          Nat.not_succ_le_self n (le_of_mem_openFrom (chosenEach_subset hmem))
        simp only [fillEach,openFrom,chosenEach,fillChosen,List.getElem?_cons_zero,Option.map_some,
          Option.getD_none,Nat.add_zero,answerOne_eq,List.mem_append,hnot,or_false]
        cases saysYes (answers.headD "") <;> simp
      | succ i =>
        have hrest := ih (n + 1) answers.tail i
        rw [Nat.add_right_comm,Nat.add_assoc] at hrest
        simp only [fillEach,openFrom,chosenEach,List.getElem?_cons_succ,hrest]
        refine congrArg (fun f => rest[i]?.map f) ?_
        funext s
        have hmem : n + (i + 1) ∈ (if saysYes (answers.headD "") then [n] else []) ++
              chosenEach (openFrom (n + 1) rest) answers.tail ↔
            n + (i + 1) ∈ chosenEach (openFrom (n + 1) rest) answers.tail := by
          cases saysYes (answers.headD "") <;> simp
        unfold fillChosen
        rw [if_congr hmem rfl rfl]

theorem fillAll_at (a : Approval) (granted : List Nat) (slots : List (Option Approval)) (i : Nat)
    (h : slots[i]? = some none → a = if i ∈ granted then .approved else declined) :
    (fillAll a slots)[i]? = slots[i]?.map (fillChosen granted i) := by
  unfold fillAll
  rw [List.getElem?_map]
  cases hs : slots[i]? with
  | none => rfl
  | some slot =>
    cases slot with
    | some b => rfl
    | none => exact congrArg some (h hs)

theorem promptFor_at (slots : List (Option Approval)) (answers : List String) (i : Nat) :
    (promptFor slots answers)[i]? =
      slots[i]?.map (fillChosen (chosen (openFrom 0 slots) answers) i) := by
  have hall : slots[i]? = some none → Approval.approved =
      if i ∈ openFrom 0 slots then .approved else declined := by
    intro hs
    have hmem := mem_openFrom (n := 0) hs
    rw [Nat.zero_add] at hmem
    rw [if_pos hmem]
  have heach := fillEach_at 0 slots answers.tail i
  rw [Nat.zero_add] at heach
  unfold promptFor chosen
  generalize trimmed (answers.headD "") = reply
  split
  · exact fillAll_at _ _ slots i hall
  · exact fillAll_at _ _ slots i hall
  · exact heach
  · exact heach
  · exact fillAll_at _ _ slots i fun _ => by simp

end Slots

section Verdicts

structure AlikeAt (pr : PlannedResource) (a b : Approval) : Prop where
  approved : a = .approved ↔ b = .approved
  denied : ∀ reason, pr.decision = some (.deny reason) → (a = .denied reason ↔ b = .denied reason)
  skipped : (∃ why, a = .skipped why) ↔ ∃ why, b = .skipped why

def Agree (res : Resolution) (cli daemon : List Approval) : Prop :=
  cli.length = res.resources.length ∧ daemon.length = res.resources.length ∧
  ∀ (i : Nat) pr a b, res.resources[i]? = some pr → cli[i]? = some a → daemon[i]? = some b →
    AlikeAt pr a b

inductive SlotPair (pr : PlannedResource) : Option Approval → Option Approval → Prop
  | asked (reasons : List String) (h : pr.decision = some (.prompt reasons)) : SlotPair pr none none
  | skipped (why why' : String) : SlotPair pr (some (.skipped why)) (some (.skipped why'))
  | allowed (h : pr.decision = some .allow) : SlotPair pr (some .approved) (some .approved)
  | denied (reason : String) : SlotPair pr (some (.denied reason)) (some (.denied reason))

variable {only : List String} {pr : PlannedResource}

theorem slot_pair (only : List String) (n : Nat) (h : pr.decision.isSome = true) :
    ∃ slot, OpenOptions.slot { only := only } pr = some slot ∧
      SlotPair pr slot (consentSlot only pr) ∧
      (offer only (pr,n)).map ConsentItem.index = if slot = none then some n else none := by
  obtain ⟨d,hd⟩ := Option.isSome_iff_exists.mp h
  unfold OpenOptions.slot consentSlot offer
  simp only [hd,List.any_nil,Bool.false_eq_true,if_false]
  cases hsel : selectedBy only pr with
  | false => exact ⟨_,rfl,.skipped _ _,rfl⟩
  | true =>
    cases d with
    | deny reason => exact ⟨_,rfl,.denied reason,rfl⟩
    | allow => exact ⟨_,rfl,.allowed hd,rfl⟩
    | prompt reasons =>
      have hflags : OpenOptions.approves { only := only } pr.tier = false := by
        cases pr.tier <;> rfl
      rw [hflags]
      exact ⟨none,rfl,.asked reasons hd,rfl⟩

theorem SlotPair.alike {slot slot' : Option Approval} {a b : Approval} (h : SlotPair pr slot slot')
    (hg : a = .approved ↔ b = .approved) (ha : a = .approved ∨ a = declined)
    (hb : b = .approved ∨ b = .denied "not granted") : AlikeAt pr (slot.getD a) (slot'.getD b) := by
  cases h with
  | asked reasons hd =>
    refine ⟨hg,?_,?_⟩
    · intro reason hr
      rw [hd] at hr
      cases hr
    · rcases ha with rfl | rfl <;> rcases hb with rfl | rfl <;> simp [declined]
  | skipped why why' => exact ⟨by simp,by simp,by simp⟩
  | allowed hd => exact ⟨Iff.rfl,fun _ _ => Iff.rfl,Iff.rfl⟩
  | denied reason => exact ⟨Iff.rfl,fun _ _ => Iff.rfl,Iff.rfl⟩

theorem slots_pair (only : List String) (n : Nat) {resources : List PlannedResource}
    (h : ∀ pr ∈ resources, pr.decision.isSome = true) :
    ∃ slots, resources.mapM (OpenOptions.slot { only := only }) = some slots ∧
      List.Forall₂ (fun pr slot => SlotPair pr slot (consentSlot only pr)) resources slots ∧
      openFrom n slots = ((resources.zipIdx n).filterMap (offer only)).map ConsentItem.index := by
  induction resources generalizing n with
  | nil => exact ⟨[],rfl,.nil,rfl⟩
  | cons pr rest ih =>
    obtain ⟨slot,hslot,hpair,hoffer⟩ := slot_pair only n (h pr (by simp))
    obtain ⟨slots,hslots,hpairs,hopen⟩ := ih (n + 1) fun x hx => h x (by simp [hx])
    refine ⟨slot :: slots,?_,.cons hpair hpairs,?_⟩
    · rw [List.mapM_cons,hslot,hslots]
      rfl
    · rw [List.zipIdx_cons,List.filterMap_cons]
      cases slot with
      | none =>
        obtain ⟨item,hitem,hindex⟩ : ∃ item, offer only (pr,n) = some item ∧ item.index = n := by
          simpa using hoffer
        rw [hitem]
        simp only [List.map_cons,hindex,openFrom,hopen]
      | some a =>
        have hnone : offer only (pr,n) = none := by simpa using hoffer
        rw [hnone]
        exact hopen

end Verdicts

section Agreement

variable {policy : Policy} {res : Resolution}

theorem apply_at (slots : List (Option Approval)) (granted : List Nat) (i : Nat) :
    (Daemon.apply slots granted)[i]? = slots[i]?.map fun slot => grantSlot granted (slot,i) := by
  unfold Daemon.apply
  rw [List.getElem?_map,List.getElem?_zipIdx]
  cases slots[i]? <;> simp

theorem decide_agrees {only : List String} {request : ConsentRequest}
    {slots : List (Option Approval)} {answers : List String} {granted : List Nat}
    (h : Decided policy res) (hprep : Daemon.prepare res only = some (request,slots))
    (hsel : SelectsExactly request answers granted) :
    ∃ approvals, Cli.decide res { only := only } ⟨true,answers⟩ = some approvals ∧
      Agree res approvals (Daemon.apply slots granted) := by
  obtain ⟨root,nodes,hnodes⟩ := List.exists_cons_of_ne_nil h.root
  obtain ⟨cli,hcli,hpairs,hopen⟩ := slots_pair only 0 h.isSome
  unfold Daemon.prepare at hprep
  rw [hnodes] at hprep
  cases hprep
  refine ⟨promptFor cli answers,?_,?_,?_,?_⟩
  · unfold Cli.decide
    rw [hcli]
    rfl
  · have hlen := (promptFor_fills cli answers).length_eq
    rw [← hlen,← hpairs.length_eq]
  · simp [Daemon.apply]
  · intro i pr a b hpr ha hb
    rw [promptFor_at] at ha
    rw [apply_at,List.getElem?_map,hpr] at hb
    obtain ⟨slot,hslot,rfl⟩ := Option.map_eq_some_iff.mp ha
    cases hb
    have hpair : SlotPair pr slot (consentSlot only pr) := by
      obtain ⟨hi,rfl⟩ := List.getElem?_eq_some_iff.mp hpr
      obtain ⟨hj,rfl⟩ := List.getElem?_eq_some_iff.mp hslot
      exact (List.forall₂_iff_get.mp hpairs).2 i hi hj
    have hiff : i ∈ chosen (openFrom 0 cli) answers ↔ i ∈ granted := by
      rw [hopen]
      exact hsel i
    have hgrant : granted.contains i = decide (i ∈ granted) := by simp
    unfold fillChosen
    rw [if_congr hiff rfl rfl]
    change AlikeAt pr _ ((consentSlot only pr).getD
      (if granted.contains i then .approved else .denied "not granted"))
    rw [hgrant]
    refine hpair.alike ?_ ?_ ?_ <;> by_cases hg : i ∈ granted <;> simp [hg,declined]

theorem apply_narrows {only : List String} {request request₀ : ConsentRequest}
    {slots slots₀ : List (Option Approval)} {granted granted₀ : List Nat}
    (hprep : Daemon.prepare res only = some (request,slots))
    (hprep₀ : Daemon.prepare res [] = some (request₀,slots₀))
    (hmore : ∀ i ∈ granted, i ∈ granted₀) (i : Nat)
    (h : (Daemon.apply slots granted)[i]? = some .approved) :
    (Daemon.apply slots₀ granted₀)[i]? = some .approved := by
  unfold Daemon.prepare at hprep hprep₀
  cases hnodes : res.nodes.head? with
  | none =>
    rw [hnodes] at hprep
    cases hprep
  | some root =>
    rw [hnodes] at hprep hprep₀
    cases hprep
    cases hprep₀
    rw [apply_at,List.getElem?_map] at h ⊢
    cases hpr : res.resources[i]? with
    | none =>
      rw [hpr] at h
      cases h
    | some pr =>
      rw [hpr] at h
      have happroved : grantSlot granted (consentSlot only pr,i) = .approved := by simpa using h
      refine congrArg some ?_
      change grantSlot granted₀ (consentSlot [] pr,i) = .approved
      unfold grantSlot consentSlot at happroved ⊢
      cases hsel : selectedBy only pr with
      | false => simp [hsel] at happroved
      | true =>
        have hall : selectedBy [] pr = true := rfl
        simp only [hsel,hall,Bool.not_true,Bool.false_eq_true,if_false] at happroved ⊢
        cases hd : pr.decision with
        | none => simp [hd] at happroved
        | some d =>
          cases d with
          | allow => rfl
          | deny reason => simp [hd] at happroved
          | prompt reasons =>
            have hg : i ∈ granted := by
              by_contra hnot
              simp [hd,hnot] at happroved
            simp [hmore i hg]

theorem consent_prepared (h : Decided policy res) (only : List String) :
    ∃ request slots, Daemon.prepare res only = some (request,slots) := by
  obtain ⟨root,nodes,hnodes⟩ := List.exists_cons_of_ne_nil h.root
  unfold Daemon.prepare
  rw [hnodes]
  exact ⟨_,_,rfl⟩

structure ConsentAlike (res : Resolution) (only : List String) : Prop where
  agree : ∀ request slots, Daemon.prepare res only = some (request,slots) →
    ∀ answers granted, SelectsExactly request answers granted →
      ∃ approvals, Cli.decide res { only := only } ⟨true,answers⟩ = some approvals ∧
        Agree res approvals (Daemon.apply slots granted)
  expressible : ∀ request slots, Daemon.prepare res only = some (request,slots) →
    ∀ granted, (∀ i ∈ granted, i ∈ request.offered) →
      ∃ answers, SelectsExactly request answers granted
  narrows : ∀ request slots request₀ slots₀, Daemon.prepare res only = some (request,slots) →
    Daemon.prepare res [] = some (request₀,slots₀) →
    ∀ granted granted₀, (∀ i ∈ granted, i ∈ granted₀) →
      ∀ i : Nat, (Daemon.apply slots granted)[i]? = some .approved →
        (Daemon.apply slots₀ granted₀)[i]? = some .approved
  narrowsCli : ∀ request slots request₀ slots₀, Daemon.prepare res only = some (request,slots) →
    Daemon.prepare res [] = some (request₀,slots₀) →
    ∀ answers answers₀, (∀ i ∈ chosen request.offered answers, i ∈ chosen request₀.offered answers₀) →
      ∀ cli cli₀, Cli.decide res { only := only } ⟨true,answers⟩ = some cli →
        Cli.decide res {} ⟨true,answers₀⟩ = some cli₀ →
        ∀ i : Nat, cli[i]? = some .approved → cli₀[i]? = some .approved
  prepared : ∃ request slots, Daemon.prepare res only = some (request,slots)

theorem Agree.approved_iff {cli daemon : List Approval} (h : Agree res cli daemon) (i : Nat) :
    cli[i]? = some .approved ↔ daemon[i]? = some .approved := by
  obtain ⟨hcli,hdaemon,hat⟩ := h
  by_cases hi : i < res.resources.length
  · have hc := List.getElem?_eq_getElem (hcli ▸ hi)
    have hd := List.getElem?_eq_getElem (hdaemon ▸ hi)
    have halike := hat i _ _ _ (List.getElem?_eq_getElem hi) hc hd
    rw [hc,hd,Option.some.injEq,Option.some.injEq]
    exact halike.approved
  · rw [List.getElem?_eq_none (by omega),List.getElem?_eq_none (by omega)]

theorem decide_narrows {only : List String} {request request₀ : ConsentRequest}
    {slots slots₀ : List (Option Approval)} {answers answers₀ : List String}
    {cli cli₀ : List Approval} (h : Decided policy res)
    (hprep : Daemon.prepare res only = some (request,slots))
    (hprep₀ : Daemon.prepare res [] = some (request₀,slots₀))
    (hmore : ∀ i ∈ chosen request.offered answers, i ∈ chosen request₀.offered answers₀)
    (hcli : Cli.decide res { only := only } ⟨true,answers⟩ = some cli)
    (hcli₀ : Cli.decide res {} ⟨true,answers₀⟩ = some cli₀) (i : Nat)
    (hi : cli[i]? = some .approved) : cli₀[i]? = some .approved := by
  have hexact : ∀ (req : ConsentRequest) typed,
      SelectsExactly req typed (chosen req.offered typed) := fun _ _ _ => Iff.rfl
  obtain ⟨a,ha,hagree⟩ := decide_agrees h hprep (hexact request answers)
  obtain ⟨a₀,ha₀,hagree₀⟩ := decide_agrees h hprep₀ (hexact request₀ answers₀)
  obtain rfl := Option.some.inj (ha.symm.trans hcli)
  obtain rfl := Option.some.inj (ha₀.symm.trans hcli₀)
  have hdaemon := (hagree.approved_iff i).mp hi
  exact (hagree₀.approved_iff i).mpr (apply_narrows hprep hprep₀ hmore i hdaemon)

theorem consent_alike (policy : Policy) (res : Resolution) (only : List String)
    (h : Decided policy res) : ConsentAlike res only := by
  refine ⟨?_,?_,?_,?_,?_⟩
  · intro request slots hprep answers granted hsel
    exact decide_agrees h hprep hsel
  · intro request slots _ granted hoffered
    exact ⟨_,answersFor_selects hoffered⟩
  · intro request slots request₀ slots₀ hprep hprep₀ granted granted₀ hmore i
    exact apply_narrows hprep hprep₀ hmore i
  · intro request slots request₀ slots₀ hprep hprep₀ answers answers₀ hmore cli cli₀ hcli hcli₀ i
    exact decide_narrows h hprep hprep₀ hmore hcli hcli₀ i
  · exact consent_prepared h only

theorem twice_alike : ∃ res r,
    resolve twiceEnv twiceMurl (Run.start Cache.empty) = .ok res r ∧
      ConsentAlike (res.applyPolicy {}) ["a"] := by
  have hrun : succeeds (resolve twiceEnv twiceMurl) (Run.start Cache.empty) = true := by
    simp only [twiceEnv,siteEnv,siteCrates,published_compact]
    decide +kernel
  obtain ⟨res,r,hok⟩ := succeeds_ok hrun
  have hproduced := wp_ok (resolveRef_produced twiceEnv Cache.empty (.murl twiceMurl)) hok
  exact ⟨res,r,hok,consent_alike {} (res.applyPolicy {}) ["a"] (hproduced.decided {})⟩

end Agreement

end MurlSystem

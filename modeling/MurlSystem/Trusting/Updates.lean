import MurlSystem.Core.TrustFile
import MurlSystem.Foundation.Registers
import MurlSystem.Resolution.Outcome

namespace MurlSystem

open Registers

section Updates

structure TrustRequest (crates : Crates) where
  call : TrustCall
  edit : TrustEdit
  checked : call.check crates = .ok edit

def trustDocument (crates : Crates) :
    Document TrustFile TrustDoc (TrustRequest crates) (String × String) Bool where
  load file := file.load.toOption
  save := .holds
  read doc pair := doc.store.pins pair.1 pair.2
  apply request := request.edit.apply
  key request := request.edit.pair
  value request := request.edit.pins
  load_save _ := rfl
  read_apply request doc pair := request.edit.pins_apply doc pair.1 pair.2

variable {crates : Crates}

theorem add_ok {doc doc' : TrustDoc} {authority publicKeyB64 keyId : String} {now : Nat} :
    doc.add crates authority publicKeyB64 now = .ok (doc',keyId) ↔
      ∃ request : TrustRequest crates, request.call = .add authority publicKeyB64 now ∧
        doc' = request.edit.apply doc ∧ keyId = request.edit.keyId := by
  unfold TrustDoc.add
  rw [Fallible.bind_ok]
  constructor
  · rintro ⟨edit,hcheck,hpure⟩
    obtain ⟨rfl,rfl⟩ := Prod.mk.inj (Fallible.pure_ok.mp hpure)
    exact ⟨⟨_,edit,hcheck⟩,rfl,rfl,rfl⟩
  · rintro ⟨⟨call,edit,hcheck⟩,rfl,rfl,rfl⟩
    exact ⟨edit,hcheck,rfl⟩

theorem remove_ok {doc doc' : TrustDoc} {authority keyId : String} {removed : Bool} :
    doc.remove crates authority keyId = .ok (doc',removed) ↔
      ∃ request : TrustRequest crates, request.call = .remove authority keyId ∧
        doc' = request.edit.apply doc ∧ removed = doc.store.pins request.edit.authority keyId := by
  unfold TrustDoc.remove
  rw [Fallible.bind_ok]
  constructor
  · rintro ⟨edit,hcheck,hpure⟩
    obtain ⟨rfl,rfl⟩ := Prod.mk.inj (Fallible.pure_ok.mp hpure)
    exact ⟨⟨_,edit,hcheck⟩,rfl,rfl,rfl⟩
  · rintro ⟨⟨call,edit,hcheck⟩,rfl,rfl,rfl⟩
    exact ⟨edit,hcheck,rfl⟩

variable {ι : Type} [DecidableEq ι]

abbrev Processes (crates : Crates) (ι : Type) := Shared TrustFile TrustDoc (TrustRequest crates) ι

def trustSystem (crates : Crates) (ι : Type) [DecidableEq ι] (file : TrustFile) :
    Transition.System (Processes crates ι) :=
  sharedSystem (trustDocument crates) file

def UpdatesKept (s : Processes crates ι) : Prop :=
  ∀ authority keyId pinned, (trustDocument crates).last s.done (authority,keyId) = some pinned →
    ∃ doc, s.file.load = .ok doc ∧ doc.store.pins authority keyId = pinned

def SavesCurrent (s t : Processes crates ι) : Prop :=
  ∀ p doc request current, s.pending p = some request → t.pending p = none →
    s.memory p = some doc → s.file.load = .ok current →
    ∀ authority keyId, request.edit.pair ≠ (authority,keyId) →
      doc.store.pins authority keyId = current.store.pins authority keyId

theorem load_some {file : TrustFile} {doc : TrustDoc} :
    (trustDocument crates).load file = some doc ↔ file.load = .ok doc := by
  change file.load.toOption = some doc ↔ _
  cases file.load <;> simp [Except.toOption]

omit [DecidableEq ι] in
theorem updatesKept_iff {s : Processes crates ι} :
    UpdatesKept s ↔ Reflects (trustDocument crates) s := by
  constructor
  · rintro h ⟨authority,keyId⟩ pinned hlast
    obtain ⟨doc,hload,hpins⟩ := h authority keyId pinned hlast
    exact ⟨doc,load_some.mpr hload,hpins⟩
  · intro h authority keyId pinned hlast
    obtain ⟨doc,hload,hpins⟩ := h (authority,keyId) pinned hlast
    exact ⟨doc,load_some.mp hload,hpins⟩

omit [DecidableEq ι] in
theorem savesCurrent_iff {s t : Processes crates ι} :
    SavesCurrent s t ↔ Fresh (trustDocument crates) s t := by
  constructor
  · rintro h p doc request current hbusy hidle hheld hload ⟨authority,keyId⟩ hpair
    exact h p doc request current hbusy hidle hheld (load_some.mp hload) authority keyId hpair
  · intro h p doc request current hbusy hidle hheld hload authority keyId hpair
    exact h p doc request current hbusy hidle hheld (load_some.mpr hload) (authority,keyId) hpair

theorem trust_updates (crates : Crates) (ι : Type) [DecidableEq ι] (file : TrustFile) :
    (∀ s, ((trustSystem crates ι file).restrict SavesCurrent).Reachable s → UpdatesKept s) ∧
      ∀ s t, (trustSystem crates ι file).Reachable s → UpdatesKept s →
        (trustSystem crates ι file).step s t → (UpdatesKept t ↔ SavesCurrent s t) := by
  have hsteps : SavesCurrent = Fresh (trustDocument crates) (ι := ι) := by
    funext s t
    exact propext savesCurrent_iff
  constructor
  · intro s hs
    rw [hsteps] at hs
    exact updatesKept_iff.mpr (reflects_of_fresh hs)
  · intro s t hs hkept hstep
    rw [updatesKept_iff,savesCurrent_iff]
    exact (updatesKept_iff.mp hkept).step_iff hs hstep

end Updates

section Lost

def pinnedDoc : TrustDoc where
  store := ⟨[("a.com",[⟨"k","",none⟩]),("b.com",[⟨"k","",none⟩])]⟩
  ascending := by unfold Ascending; decide

def noCrates : Crates := siteCrates [] [] []

def removalFrom (authority : String)
    (h : TrustCall.check noCrates (.remove authority "k") = .ok (.remove authority "k")) :
    TrustRequest noCrates :=
  ⟨.remove authority "k",.remove authority "k",h⟩

theorem removal_undone :
    ¬∀ (crates : Crates) (ι : Type) (_ : DecidableEq ι) (file : TrustFile) (s : Processes crates ι),
      (trustSystem crates ι file).Reachable s → (∀ p, s.pending p = none) → UpdatesKept s := by
  intro h
  have ha : TrustCall.check noCrates (.remove "a.com" "k") = .ok (.remove "a.com" "k") := by
    decide +kernel
  have hb : TrustCall.check noCrates (.remove "b.com" "k") = .ok (.remove "b.com" "k") := by
    decide +kernel
  let first := removalFrom "a.com" ha
  let second := removalFrom "b.com" hb
  let start : Processes noCrates Bool := ⟨.holds pinnedDoc,fun _ => none,fun _ => none,[]⟩
  let system := trustSystem noCrates Bool (.holds pinnedDoc)
  have hpath : ∃ s, system.Path start s ∧ (∀ p, s.pending p = none) ∧ s.done = [first,second] ∧
      s.file = .holds (second.edit.apply pinnedDoc) := by
    refine ⟨_,.cons (.load _ false pinnedDoc rfl rfl) <| .cons (.load _ true pinnedDoc rfl rfl) <|
      .cons (.modify _ false pinnedDoc first rfl rfl) <| .cons (.save _ false _ first rfl rfl) <|
      .cons (.modify _ true pinnedDoc second rfl rfl) <| .single (.save _ true _ second rfl rfl),
      ?_,rfl,rfl⟩
    intro p
    cases p <;> rfl
  obtain ⟨s,hs,hidle,hdone,hfile⟩ := hpath
  have hlast : (trustDocument noCrates).last s.done ("a.com","k") = some false := by
    rw [hdone]
    rfl
  obtain ⟨doc,hload,hpins⟩ := h noCrates Bool inferInstance _ s ⟨start,rfl,hs⟩ hidle "a.com" "k"
    false hlast
  rw [hfile] at hload
  obtain rfl := Except.ok.inj hload
  have htrue : ((TrustEdit.remove "b.com" "k").apply pinnedDoc).store.pins "a.com" "k" = true := by
    decide
  exact absurd (htrue.symm.trans hpins) (by decide)

end Lost

end MurlSystem

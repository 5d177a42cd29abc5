import MurlSystem.Core.Manifest
import MurlSystem.Foundation.Fallible

namespace MurlSystem

open ValidationReport

section Checks

theorem check_ok {ε α β : Type} {c : Prop} [Decidable c] {e : ε} {f : α → Except ε β}
    {y : Except ε β} {b : β} :
    (if c then (throw e : Except ε α) >>= f else y) = .ok b ↔ ¬c ∧ y = .ok b := by
  rw [Fallible.ite_ok,Fallible.bind_ok]
  simp

theorem checked_ok {ε : Type} {c : Prop} [Decidable c] {e : ε} :
    (if c then throw e else pure () : Except ε Unit) = .ok () ↔ ¬c := by
  rw [Fallible.ite_ok]
  simp

end Checks

variable {crates : Crates} {kind : Kind} {target : String}

def Passes (crates : Crates) (kind : Kind) (target : String) : Prop :=
  ∃ m : Manifest, (m.validate crates).errors = [] ∧
    ∃ r ∈ m.doc.resources, Kind.parse r.kind = .ok kind ∧ r.target = target

structure TargetOk (crates : Crates) (kind : Kind) (target : String) : Prop where
  present : targetPresent target = true
  graphic : hasControl target = false
  valid : validateTarget crates kind target = .ok ()

theorem validateResource_target {all earlier : List ResourceDoc} {r : ResourceDoc}
    (h : (validateResource crates all earlier r).errors = []) :
    (validateResourceTarget crates (fun field => s!"/resources/{earlier.length}/{field}") earlier
      r).errors = [] := by
  simp only [validateResource,append_errors,List.append_eq_nil_iff] at h
  exact h.1.1.1.1.1.1.2

theorem validateResourceTarget_ok {p : String → String} {earlier : List ResourceDoc}
    {r : ResourceDoc} (hkind : Kind.parse r.kind = .ok kind) :
    (validateResourceTarget crates p earlier r).errors = [] ↔ TargetOk crates kind r.target := by
  have hreach (hp : targetPresent r.target = true) (hg : hasControl r.target = false) :
      reachesTarget r = some kind := by
    simp [reachesTarget,hp,hg,hkind,Except.toOption]
  simp only [validateResourceTarget,append_errors,List.append_eq_nil_iff,when_errors_nil,
    error_errors,List.cons_ne_nil,imp_false,forOption_errors_nil,ofExcept_errors_nil,warn_errors,
    implies_true,and_true]
  constructor
  · rintro ⟨⟨hp,hg⟩,hvalid⟩
    have hp : targetPresent r.target = true := by simpa using hp
    have hg : hasControl r.target = false := by simpa [hp] using hg
    obtain ⟨⟨⟩,hok⟩ := hvalid kind (hreach hp hg)
    exact ⟨hp,hg,hok⟩
  · rintro ⟨hp,hg,hok⟩
    refine ⟨⟨by simp [hp],by simp [hg]⟩,?_⟩
    intro k hk
    rw [hreach hp hg] at hk
    cases hk
    exact ⟨(),hok⟩

theorem Passes.checked (h : Passes crates kind target) : TargetOk crates kind target := by
  obtain ⟨m,hvalid,r,hr,hkind,rfl⟩ := h
  obtain ⟨pre,post,hsplit⟩ := List.append_of_mem hr
  have hres := validateEach_errors_nil (validate_each hvalid) hsplit
  exact (validateResourceTarget_ok hkind).mp (validateResource_target hres)

section Sole

variable {name : String}

def soleResource (name target : String) : ResourceDoc :=
  ⟨"a",name,target,none,none,false,100,[],[],none,none⟩

def soleManifest (name target : String) : Manifest :=
  ⟨.object [("murlVersion",.string "0.2"),("name",.string "m"),("resources",.array
      [.object [("id",.string "a"),("kind",.string name),("target",.string target)]])],
    ⟨"0.2",none,"m",none,none,none,none,[soleResource name target],[],none⟩⟩

theorem soleResource_valid (hkind : Kind.parse name = .ok kind) (h : TargetOk crates kind target) :
    (validateResource crates [soleResource name target] [] (soleResource name target)).errors =
      [] := by
  have hid : isValidResourceId "a" = true := by decide +kernel
  have htarget (p : String → String) : (validateResourceTarget crates p []
      (soleResource name target)).errors = [] := (validateResourceTarget_ok hkind).mpr h
  simp only [soleResource] at htarget
  simp [validateResource,htarget,soleResource,hid,hkind,validateTags,validateDepends,concat]

theorem soleManifest_valid (hkind : Kind.parse name = .ok kind) (h : TargetOk crates kind target) :
    ((soleManifest name target).validate crates).errors = [] := by
  have hname : (validateName "m").errors = [] := by decide +kernel
  have hhead : (validateHeader (soleManifest name target).doc).errors = [] := by
    simp [validateHeader,soleManifest,hname,acceptedMurlVersions,validateWindow]
  have heach : (validateResources crates [soleResource name target]).errors = [] := by
    simp [validateResources,validateEach,soleResource_valid hkind h,maxResourcesPerManifest]
  have horder : executionOrder [soleResource name target] = .ok [0] := rfl
  have hraw : (validateUnknownMembers (soleManifest name target).raw).errors = [] := rfl
  have hnumbers : (walkNumbers "" (soleManifest name target).raw).errors = [] := rfl
  simp only [Manifest.validate,append_errors,hhead,hraw,hnumbers]
  simp [soleManifest,heach,validateOrder,horder,validateRelations,concat]

theorem passes_iff (hkind : Kind.parse name = .ok kind) :
    Passes crates kind target ↔ TargetOk crates kind target :=
  ⟨Passes.checked,fun h => ⟨soleManifest name target,soleManifest_valid hkind h,_,
    List.mem_singleton_self _,hkind,rfl⟩⟩

end Sole

end MurlSystem

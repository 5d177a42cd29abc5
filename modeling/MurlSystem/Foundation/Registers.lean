import Mathlib.Logic.Function.Basic
import MurlSystem.Foundation.Transition

namespace Registers

universe u
variable {F D E K V ι : Type u}

structure Document (F D E K V : Type u) [DecidableEq K] where
  load : F → Option D
  save : D → F
  read : D → K → V
  apply : E → D → D
  key : E → K
  value : E → V
  load_save : ∀ d, load (save d) = some d
  read_apply : ∀ e d k, read (apply e d) k = if key e = k then value e else read d k

variable [DecidableEq K] (doc : Document F D E K V)

section Edits

def Document.last : List E → K → Option V
  | [],_ => none
  | e :: es,k => (Document.last es k).or (if doc.key e = k then some (doc.value e) else none)

theorem Document.last_append (es fs : List E) (k : K) :
    doc.last (es ++ fs) k = (doc.last fs k).or (doc.last es k) := by
  induction es with
  | nil => simp [Document.last]
  | cons e es ih => simp [Document.last,ih,Option.or_assoc]

theorem Document.last_concat (es : List E) (e : E) (k : K) :
    doc.last (es ++ [e]) k = if doc.key e = k then some (doc.value e) else doc.last es k := by
  rw [doc.last_append]
  by_cases h : doc.key e = k <;> simp [Document.last,h]

theorem Document.last_mem {es : List E} {k : K} {v : V} (h : doc.last es k = some v) :
    ∃ e ∈ es, doc.key e = k := by
  induction es with
  | nil => cases h
  | cons e es ih =>
    rw [Document.last,Option.or_eq_some_iff] at h
    rcases h with h | ⟨-,h⟩
    · obtain ⟨e',he',hkey⟩ := ih h
      exact ⟨e',List.mem_cons_of_mem _ he',hkey⟩
    · split at h
      · exact ⟨e,List.mem_cons_self,‹_›⟩
      · cases h

end Edits

section ReadModifyWrite

variable [DecidableEq ι]

structure Shared (F D E ι : Type u) where
  file : F
  memory : ι → Option D
  pending : ι → Option E
  done : List E

inductive Step : Shared F D E ι → Shared F D E ι → Prop
  | load (s : Shared F D E ι) (p : ι) (d : D) (idle : s.pending p = none)
      (loaded : doc.load s.file = some d) :
      Step s { s with memory := Function.update s.memory p (some d) }
  | modify (s : Shared F D E ι) (p : ι) (d : D) (e : E) (idle : s.pending p = none)
      (held : s.memory p = some d) :
      Step s { s with
        memory := Function.update s.memory p (some (doc.apply e d))
        pending := Function.update s.pending p (some e) }
  | save (s : Shared F D E ι) (p : ι) (d : D) (e : E) (busy : s.pending p = some e)
      (held : s.memory p = some d) :
      Step s { s with
        file := doc.save d
        pending := Function.update s.pending p none
        done := s.done ++ [e] }

def sharedSystem (file : F) : Transition.System (Shared F D E ι) :=
  ⟨fun s => s = ⟨file,fun _ => none,fun _ => none,[]⟩,Step doc⟩

def Reflects (s : Shared F D E ι) : Prop :=
  ∀ k v, doc.last s.done k = some v → ∃ d, doc.load s.file = some d ∧ doc.read d k = v

def Fresh (s t : Shared F D E ι) : Prop :=
  ∀ p d e f, s.pending p = some e → t.pending p = none → s.memory p = some d →
    doc.load s.file = some f → ∀ k, doc.key e ≠ k → doc.read d k = doc.read f k

structure Kept (file : F) (s : Shared F D E ι) : Prop where
  readable : ∀ d, doc.load s.file = some d → ∃ f, doc.load file = some f
  held : ∀ p d, s.memory p = some d → ∃ f, doc.load file = some f
  edited : ∀ p e d, s.pending p = some e → s.memory p = some d →
    doc.read d (doc.key e) = doc.value e
  unedited : ∀ f d k, doc.load file = some f → doc.load s.file = some d →
    doc.last s.done k = none → doc.read d k = doc.read f k
  copied : ∀ f p d k, doc.load file = some f → s.memory p = some d → doc.last s.done k = none →
    (∀ e, s.pending p = some e → doc.key e ≠ k) → doc.read d k = doc.read f k

variable {doc} {file : F} {s t : Shared F D E ι}

theorem last_concat_none {es : List E} {e : E} {k : K} (h : doc.last (es ++ [e]) k = none) :
    doc.key e ≠ k ∧ doc.last es k = none := by
  rw [doc.last_concat] at h
  split at h
  · cases h
  · exact ⟨‹_›,h⟩

theorem Kept.load (h : Kept doc file s) {p : ι} {d : D} (idle : s.pending p = none)
    (loaded : doc.load s.file = some d) :
    Kept doc file { s with memory := Function.update s.memory p (some d) } where
  readable := h.readable
  held := by
    intro q d' hq
    rcases eq_or_ne q p with rfl | hne
    · exact h.readable d loaded
    · exact h.held q d' (by simpa [hne] using hq)
  edited := by
    intro q e d' hpending hq
    rcases eq_or_ne q p with rfl | hne
    · simp [idle] at hpending
    · exact h.edited q e d' hpending (by simpa [hne] using hq)
  unedited := h.unedited
  copied := by
    intro f q d' k hf hq hlast hother
    rcases eq_or_ne q p with rfl | hne
    · obtain rfl : d = d' := by simpa using hq
      exact h.unedited f d k hf loaded hlast
    · exact h.copied f q d' k hf (by simpa [hne] using hq) hlast hother

theorem Kept.modify (h : Kept doc file s) {p : ι} {d : D} {e : E} (idle : s.pending p = none)
    (held : s.memory p = some d) :
    Kept doc file { s with
      memory := Function.update s.memory p (some (doc.apply e d))
      pending := Function.update s.pending p (some e) } where
  readable := h.readable
  held := by
    intro q d' hq
    rcases eq_or_ne q p with rfl | hne
    · exact h.held q d held
    · exact h.held q d' (by simpa [hne] using hq)
  edited := by
    intro q e' d' hpending hq
    rcases eq_or_ne q p with rfl | hne
    · obtain rfl : e = e' := by simpa using hpending
      obtain rfl : doc.apply e d = d' := by simpa using hq
      simp [doc.read_apply]
    · exact h.edited q e' d' (by simpa [hne] using hpending) (by simpa [hne] using hq)
  unedited := h.unedited
  copied := by
    intro f q d' k hf hq hlast hother
    rcases eq_or_ne q p with rfl | hne
    · obtain rfl : doc.apply e d = d' := by simpa using hq
      rw [doc.read_apply,if_neg (hother e (by simp))]
      exact h.copied f q d k hf held hlast (by simp [idle])
    · refine h.copied f q d' k hf (by simpa [hne] using hq) hlast ?_
      intro e' he'
      exact hother e' (by simpa [hne] using he')

theorem Kept.save (h : Kept doc file s) {p : ι} {d : D} {e : E} (busy : s.pending p = some e)
    (held : s.memory p = some d) :
    Kept doc file { s with
      file := doc.save d
      pending := Function.update s.pending p none
      done := s.done ++ [e] } where
  readable := fun _ _ => h.held p d held
  held := h.held
  edited := by
    intro q e' d' hpending hq
    rcases eq_or_ne q p with rfl | hne
    · simp at hpending
    · exact h.edited q e' d' (by simpa [hne] using hpending) hq
  unedited := by
    intro f d' k hf hd' hlast
    obtain rfl := Option.some.inj ((doc.load_save d).symm.trans hd')
    obtain ⟨hkey,hlast⟩ := last_concat_none hlast
    refine h.copied f p d k hf held hlast ?_
    intro e' he'
    obtain rfl := Option.some.inj (busy.symm.trans he')
    exact hkey
  copied := by
    intro f q d' k hf hq hlast hother
    obtain ⟨hkey,hlast⟩ := last_concat_none hlast
    refine h.copied f q d' k hf hq hlast ?_
    intro e' he'
    rcases eq_or_ne q p with rfl | hne
    · obtain rfl := Option.some.inj (busy.symm.trans he')
      exact hkey
    · exact hother e' (by simpa [hne] using he')

theorem Kept.step (h : Kept doc file s) (hstep : Step doc s t) : Kept doc file t := by
  cases hstep with
  | load p d idle loaded => exact h.load idle loaded
  | modify p d e idle held => exact h.modify idle held
  | save p d e busy held => exact h.save busy held

omit [DecidableEq ι] in
theorem kept_start (file : F) :
    Kept doc file (⟨file,fun _ => none,fun _ => none,[]⟩ : Shared F D E ι) where
  readable := fun d hd => ⟨d,hd⟩
  held := by
    rintro p d ⟨⟩
  edited := by
    rintro p e d ⟨⟩
  unedited := by
    intro f d k hf hd _
    rw [Option.some.inj (hf.symm.trans hd)]
  copied := by
    rintro f p d k - ⟨⟩

theorem kept_reachable (h : (sharedSystem doc file).Reachable s) : Kept doc file s := by
  refine Transition.System.invariant (Kept doc file) ?_ ?_ h
  · rintro s rfl
    exact kept_start file
  · intro s t _ hs hst
    exact hs.step hst

theorem Reflects.save_iff (hk : Kept doc file s) (h : Reflects doc s) {p : ι} {d : D} {e : E}
    (busy : s.pending p = some e) (held : s.memory p = some d) :
    Reflects doc { s with
        file := doc.save d
        pending := Function.update s.pending p none
        done := s.done ++ [e] } ↔
      ∀ f, doc.load s.file = some f → ∀ k, doc.key e ≠ k → doc.read d k = doc.read f k := by
  constructor
  · intro ht f hf k hkey
    cases hlast : doc.last s.done k with
    | none =>
      obtain ⟨f₀,hf₀⟩ := hk.readable f hf
      rw [hk.unedited f₀ f k hf₀ hf hlast]
      refine hk.copied f₀ p d k hf₀ held hlast ?_
      intro e' he'
      rw [← Option.some.inj (busy.symm.trans he')]
      exact hkey
    | some v =>
      obtain ⟨f',hf',hv⟩ := h k v hlast
      obtain ⟨d',hd',hv'⟩ := ht k v (by rw [doc.last_concat,if_neg hkey,hlast])
      rw [Option.some.inj (hf.symm.trans hf'),hv]
      rw [Option.some.inj ((doc.load_save d).symm.trans hd'),hv']
  · intro hfresh k v hlast
    refine ⟨d,doc.load_save d,?_⟩
    change doc.last (s.done ++ [e]) k = some v at hlast
    rw [doc.last_concat] at hlast
    split at hlast
    · rename_i hkey
      rw [← hkey,hk.edited p e d busy held,Option.some.inj hlast]
    · rename_i hkey
      obtain ⟨f,hf,hv⟩ := h k v hlast
      rw [hfresh f hf k hkey,hv]

theorem Reflects.step_iff (hs : (sharedSystem doc file).Reachable s) (h : Reflects doc s)
    (hstep : Step doc s t) : Reflects doc t ↔ Fresh doc s t := by
  cases hstep with
  | load p d idle loaded =>
    have hfresh : Fresh doc s { s with memory := Function.update s.memory p (some d) } := by
      intro q d' e f hbusy hidle
      exact absurd (hbusy.symm.trans hidle) (by simp)
    exact iff_of_true h hfresh
  | modify p d e idle held =>
    refine iff_of_true h ?_
    intro q d' e' f hbusy hidle
    rcases eq_or_ne q p with rfl | hne
    · exact absurd (idle.symm.trans hbusy) (by simp)
    · exact absurd (hbusy.symm.trans (by simpa [hne] using hidle)) (by simp)
  | save p d e busy held =>
    rw [h.save_iff (kept_reachable hs) busy held]
    constructor
    · intro hfresh q d' e' f hbusy hidle hheld hf
      rcases eq_or_ne q p with rfl | hne
      · obtain rfl := Option.some.inj (busy.symm.trans hbusy)
        obtain rfl := Option.some.inj (held.symm.trans hheld)
        exact hfresh f hf
      · exact absurd (hbusy.symm.trans (by simpa [hne] using hidle)) (by simp)
    · intro hfresh f hf
      exact hfresh p d e f busy (by simp) held hf

omit [DecidableEq ι] in
theorem reflects_start (file : F) :
    Reflects doc (⟨file,fun _ => none,fun _ => none,[]⟩ : Shared F D E ι) := by
  rintro k v ⟨⟩

theorem reflects_of_fresh (h : ((sharedSystem doc file).restrict (Fresh doc)).Reachable s) :
    Reflects doc s := by
  refine Transition.System.invariant (Reflects doc) ?_ ?_ h
  · rintro s rfl
    exact reflects_start file
  · rintro s t hr hs ⟨hstep,hfresh⟩
    exact (hs.step_iff hr.of_restrict hstep).mpr hfresh

end ReadModifyWrite

end Registers

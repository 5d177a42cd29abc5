import Mathlib.Data.Option.Basic

namespace Revalidate

variable {ε β φ : Type}

inductive Answer (ε β φ : Type) where
  | kept (entry : ε)
  | fetched (content : β)
  | stale (entry : ε) (why : Option φ)
  | lost (why : Option φ)

def fallback (why : Option φ) : Option ε → Answer ε β φ
  | some entry => .stale entry why
  | none => .lost why

def renew (held : Option ε) : Option (Except φ β) → Answer ε β φ
  | some (.ok content) => .fetched content
  | some (.error why) => fallback (some why) held
  | none => fallback none held

def look (held : Option ε) (good : ε → Bool) (fetch : Option (Except φ β)) : Answer ε β φ :=
  match held.filter good with
  | some entry => .kept entry
  | none => renew held fetch

variable {held : Option ε} {good : ε → Bool} {fetch : Option (Except φ β)} {entry : ε} {content : β}
  {why : Option φ}

theorem renew_stale : renew held fetch = .stale entry why ↔
    held = some entry ∧ fetch = why.map Except.error := by
  cases fetch with
  | none => cases held <;> cases why <;> simp [renew,fallback]
  | some result =>
    cases result with
    | ok content => cases why <;> simp [renew]
    | error e => cases held <;> cases why <;> simp [renew,fallback]

theorem renew_ne_kept : renew held fetch ≠ .kept entry := by
  cases fetch with
  | none => cases held <;> simp [renew,fallback]
  | some result =>
    cases result with
    | ok content => simp [renew]
    | error e => cases held <;> simp [renew,fallback]

theorem look_good (h : held = some entry) (hgood : good entry = true) :
    look held good fetch = .kept entry := by
  rw [look,h,Option.filter_some,if_pos hgood]

theorem look_renew (h : ∀ entry, held = some entry → good entry = false) :
    look held good fetch = renew held fetch := by
  have hnone : held.filter good = none := by
    rw [Option.filter_eq_none_iff]
    intro entry hentry
    rw [h entry (Option.mem_def.mp hentry)]
    simp
  rw [look,hnone]

theorem look_kept : look held good fetch = .kept entry ↔ held = some entry ∧ good entry = true := by
  constructor
  · intro h
    rw [look] at h
    cases hfilter : held.filter good with
    | some e =>
      rw [hfilter] at h
      cases h
      exact Option.filter_eq_some_iff.mp hfilter
    | none =>
      rw [hfilter] at h
      exact absurd h renew_ne_kept
  · exact fun h => look_good h.1 h.2

theorem look_stale (h : look held good fetch = .stale entry why) :
    held = some entry ∧ good entry = false ∧ fetch = why.map Except.error := by
  rw [look] at h
  cases hfilter : held.filter good with
  | some e =>
    rw [hfilter] at h
    cases h
  | none =>
    rw [hfilter] at h
    obtain ⟨hheld,hfetch⟩ := renew_stale.mp h
    refine ⟨hheld,?_,hfetch⟩
    rw [hheld,Option.filter_some] at hfilter
    split at hfilter
    · cases hfilter
    · next hbad => exact Bool.eq_false_iff.mpr hbad

end Revalidate

import MurlSystem.Dispatch.Opened
import MurlSystem.Foundation.PathPush
import MurlSystem.Targets.Accepted

namespace MurlSystem

section Validated

variable {target : List Char}

structure PathChecked (target : List Char) : Prop where
  local_ : isNetworkPath target = false
  segments : checkHomeSegments target = .ok ()
  body : target = ['~'] ∨ ∃ body, pathBody target = .ok body ∧
    (body.splitOnP isSeparator).any isDotSegment = false

theorem validatePathTarget_checked (h : validatePathTarget target = .ok ()) :
    PathChecked target := by
  unfold validatePathTarget at h
  rw [check_ok,Fallible.seq_ok] at h
  obtain ⟨hnet,hsegments,h⟩ := h
  refine ⟨by simpa using hnet,hsegments,?_⟩
  split at h
  · rename_i hhome
    exact .inl hhome
  · obtain ⟨body,hbody,h⟩ := Fallible.bind_ok.mp h
    rw [checked_ok] at h
    exact .inr ⟨body,hbody,by simpa using h⟩

end Validated

section Expanded

variable {os : Path.Platform} {target : String} {home path : List Char}

theorem pushSegments_head {segments : List (List Char)} (hne : home ≠ [])
    (h : segments.foldlM (pushSegment os target) home = .ok path) :
    path.head? = home.head? := by
  induction segments generalizing home with
  | nil =>
    cases h
    rfl
  | cons segment rest ih =>
    rw [List.foldlM_cons] at h
    obtain ⟨next,hpush,h⟩ := Fallible.bind_ok.mp h
    obtain ⟨hsegment,hplain,rfl⟩ := pushSegment_ok hpush
    have hhead := Path.push_head hne hsegment hplain
    have hnext : Path.push os home segment ≠ [] := by
      intro hnil
      rw [hnil] at hhead
      exact hne (List.head?_eq_none_iff.mp hhead.symm)
    rw [ih hnext h,hhead]

theorem expandPath_home {opener : OpenerConfig} {rest : List Char}
    (ht : target.toList = '~' :: rest) (h : opener.expandPath os target = .ok path) :
    ∃ home, opener.homeDir = some home ∧ (home ≠ [] → path.head? = home.head?) := by
  unfold OpenerConfig.expandPath at h
  split at h
  · split at h
    · cases h
    · rename_i home hhome
      refine ⟨home,hhome,fun hne => ?_⟩
      split at h
      · cases h
        rfl
      · split at h
        · cases h
          rfl
        · exact pushSegments_head hne h
      · cases h
  · rename_i hno
    exact absurd ht (hno rest)

theorem expandPath_plain {opener : OpenerConfig} (ht : ∀ rest, target.toList ≠ '~' :: rest)
    (h : opener.expandPath os target = .ok path) : path = target.toList := by
  unfold OpenerConfig.expandPath at h
  split at h
  · rename_i rest hrest
    exact absurd hrest (ht rest)
  · cases h
    rfl

theorem absolute_head (h : Path.isAbsolute os home = true) :
    ∃ c rest, home = c :: rest ∧ c ≠ '-' := by
  cases os with
  | posix =>
    cases home with
    | nil => cases h
    | cons c rest =>
      refine ⟨c,rest,rfl,?_⟩
      rintro rfl
      cases h
  | windows =>
    have hprefix : (Path.parsePrefix home).isSome = true := by
      have hboth : Path.hasRoot .windows home = true ∧
          (Path.prefixOf .windows home).isSome = true := by
        simpa [Path.isAbsolute] using h
      exact hboth.2
    cases home with
    | nil => cases hprefix
    | cons c rest =>
      refine ⟨c,rest,rfl,?_⟩
      rintro rfl
      have hnone : Path.parsePrefix ('-' :: rest) = none := by
        unfold Path.parsePrefix
        rw [if_neg (by simp [Path.backslashed])]
        split
        · rename_i d tail hd
          cases hd
          rfl
        · rfl
      rw [hnone] at hprefix
      cases hprefix

end Expanded

end MurlSystem

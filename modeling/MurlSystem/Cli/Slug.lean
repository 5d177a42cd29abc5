import Mathlib.Algebra.Order.Ring.Nat
import MurlSystem.Foundation.Split
import MurlSystem.Naming.Rules

namespace MurlSystem

def slugStep : List Char × Bool → Char → List Char × Bool
  | (out,lastDash),c =>
    if isAlnum c then (out ++ [c.toLower],false)
    else if !lastDash then (out ++ ['-'],true)
    else (out,lastDash)

def slugify (name : String) : String :=
  let out := Text.trimEnd (· == '-') (name.toList.foldl slugStep ([],true)).1
  if out.isEmpty then "destination" else String.ofList out

example : slugify "  --Weird__Name!!" = "weird-name" := by decide

section Runs

def alnumRuns (l : List Char) : List (List Char) :=
  (l.splitOnP fun c => !isAlnum c).filter fun run => !run.isEmpty

def slugSize (name : String) : Nat :=
  let runs := alnumRuns name.toList
  (runs.map List.length).sum + (runs.length - 1)

variable {l pre post : List Char} {c : Char} {out : List Char} {dash : Bool}

theorem alnumRuns_solid (h : ∀ c ∈ l, isAlnum c = true) :
    alnumRuns l = if l = [] then [] else [l] := by
  rw [alnumRuns,List.splitOnP_eq_singleton fun c hc => by simp [h c hc]]
  by_cases hl : l = [] <;> simp [hl]

theorem alnumRuns_cut (hc : isAlnum c = false) (pre post : List Char) :
    alnumRuns (pre ++ c :: post) = alnumRuns pre ++ alnumRuns post := by
  have hcut : (fun c => !isAlnum c) c = true := by simp [hc]
  rw [alnumRuns,List.splitOnP_append_cons pre post hcut,List.filter_append]
  rfl

def slugBody : Bool → List Char → List Char
  | _,[] => []
  | dash,c :: rest =>
    if isAlnum c then c.toLower :: slugBody false rest
    else if dash then slugBody true rest
    else '-' :: slugBody true rest

theorem fold_body (l out : List Char) (dash : Bool) :
    (l.foldl slugStep (out,dash)).1 = out ++ slugBody dash l := by
  induction l generalizing out dash with
  | nil => simp [slugBody]
  | cons c l ih =>
    rw [List.foldl_cons,slugStep,slugBody]
    by_cases hc : isAlnum c = true
    · rw [if_pos hc,if_pos hc,ih,List.append_assoc]
      rfl
    · rw [if_neg hc,if_neg hc]
      cases dash with
      | true => exact ih out true
      | false =>
        rw [if_pos (by decide),if_neg (by decide),ih,List.append_assoc]
        rfl

theorem toLower_dash (h : isAlnum c = true) : (c.toLower == '-') = false := by
  have hne : c ≠ '-' := by
    rintro rfl
    cases h
  exact beq_eq_false_iff_ne.mpr (mt (Text.toLower_eq_iff (by decide)).mp hne)

theorem trimEnd_run (h : ∀ c ∈ l, isAlnum c = true) :
    Text.trimEnd (· == '-') (Text.lowercase l) = Text.lowercase l := by
  refine Text.trimEnd_solid fun c hc => ?_
  obtain ⟨d,hd,rfl⟩ := List.mem_map.mp hc
  exact toLower_dash (h d hd)

def joinRuns (runs : List (List Char)) : List Char := ['-'].intercalate (runs.map Text.lowercase)

theorem runs_ne_nil (l : List Char) : ∀ run ∈ alnumRuns l, run ≠ [] := by
  intro run hrun
  simpa using (List.mem_filter.mp hrun).2

theorem joinRuns_eq_nil : joinRuns (alnumRuns l) = [] ↔ alnumRuns l = [] := by
  have hne := runs_ne_nil l
  cases hruns : alnumRuns l with
  | nil => simp [joinRuns]
  | cons run rest =>
    have hrun : run ≠ [] := hne run (by simp [hruns])
    cases rest <;> simp [joinRuns,Text.lowercase,List.intercalate,hrun]

theorem joinRuns_cons {run : List Char} (hruns : alnumRuns l ≠ []) :
    joinRuns (run :: alnumRuns l) = Text.lowercase run ++ '-' :: joinRuns (alnumRuns l) := by
  obtain ⟨r,rest,hr⟩ := List.exists_cons_of_ne_nil hruns
  rw [hr]
  simp [joinRuns,List.intercalate]

theorem trimEnd_after {w : List Char} (hw : ∀ c ∈ w, isAlnum c = true) 
    (htrue : Text.trimEnd (· == '-') (slugBody true l) = joinRuns (alnumRuns l)) :
    Text.trimEnd (· == '-') (Text.lowercase w ++ '-' :: slugBody true l) =
      joinRuns ([w] ++ alnumRuns l) := by
  by_cases hruns : alnumRuns l = []
  · rw [joinRuns_eq_nil.mpr hruns,Text.trimEnd_eq_nil] at htrue
    rw [Text.trimEnd_append_all _ (List.forall_mem_cons.mpr ⟨rfl,htrue⟩),trimEnd_run hw,hruns]
    simp [joinRuns]
  · have hbody : Text.trimEnd (· == '-') (slugBody true l) ≠ [] := by
      rw [htrue]
      exact mt joinRuns_eq_nil.mp hruns
    have hdash : Text.trimEnd (· == '-') ('-' :: slugBody true l) = '-' :: joinRuns (alnumRuns l) := by
      rw [← htrue]
      exact Text.trimEnd_append ['-'] _ hbody
    rw [Text.trimEnd_append _ _ (by rw [hdash]; simp),hdash,List.singleton_append,
      joinRuns_cons hruns]

theorem trimEnd_body (l : List Char) :
    (∀ w, w ≠ [] → (∀ c ∈ w, isAlnum c = true) →
      Text.trimEnd (· == '-') (Text.lowercase w ++ slugBody false l) =
        joinRuns (alnumRuns (w ++ l))) ∧
    Text.trimEnd (· == '-') (slugBody true l) = joinRuns (alnumRuns l) := by
  induction l with
  | nil =>
    refine ⟨fun w hne hw => ?_,rfl⟩
    rw [slugBody,List.append_nil,List.append_nil,trimEnd_run hw,alnumRuns_solid hw,if_neg hne]
    simp [joinRuns]
  | cons c l ih =>
    obtain ⟨hafter,htrue⟩ := ih
    by_cases hc : isAlnum c = true
    · have hone : ∀ d ∈ [c], isAlnum d = true := List.forall_mem_singleton.mpr hc
      refine ⟨fun w hne hw => ?_,?_⟩
      · have hnext := hafter (w ++ [c]) (by simp) fun d hd =>
          (List.mem_append.mp hd).elim (hw d) (hone d)
        rw [slugBody,if_pos hc]
        simpa [Text.lowercase] using hnext
      · rw [slugBody,if_pos hc]
        exact hafter [c] (by simp) hone
    · have hc : isAlnum c = false := Bool.eq_false_iff.mpr hc
      refine ⟨fun w hne hw => ?_,?_⟩
      · rw [slugBody,if_neg (by simp [hc]),if_neg (by decide),alnumRuns_cut hc,alnumRuns_solid hw,
          if_neg hne]
        exact trimEnd_after hw htrue
      · rw [slugBody,if_neg (by simp [hc]),if_pos rfl,htrue]
        exact congrArg joinRuns (alnumRuns_cut hc [] l).symm

theorem slugify_eq (name : String) : slugify name =
    if alnumRuns name.toList = [] then "destination"
    else String.ofList (joinRuns (alnumRuns name.toList)) := by
  rw [slugify,fold_body,List.nil_append,(trimEnd_body name.toList).2]
  simp only [List.isEmpty_iff,joinRuns_eq_nil]

end Runs

section Shape

open Syntax

variable {name : String} {c : Char}

theorem toLower_lowerAlnum (h : isAlnum c = true) : isLowerAlnum c.toLower = true := by
  by_cases hup : Text.isUpper c = true
  · have hletter := Text.toLower_letter hup
    rw [Text.isLetter,Text.toLower_not_upper,Bool.or_false] at hletter
    rw [isLowerAlnum,hletter,Bool.true_or]
  · rw [isAlnum,Bool.or_eq_true] at h
    rw [Text.toLower_of_not_upper (Bool.eq_false_iff.mpr hup)]
    exact h.resolve_right hup

theorem slugBody_chars (l : List Char) (dash : Bool) : ∀ c ∈ slugBody dash l, isDashAlnum c = true := by
  induction l generalizing dash with
  | nil => simp [slugBody]
  | cons c l ih =>
    rw [slugBody]
    split
    · next hc =>
      refine List.forall_mem_cons.mpr ⟨?_,ih false⟩
      rw [isDashAlnum,toLower_lowerAlnum hc,Bool.true_or]
    · split
      · exact ih true
      · exact List.forall_mem_cons.mpr ⟨rfl,ih true⟩

theorem length_slugBody (l : List Char) (dash : Bool) : (slugBody dash l).length ≤ l.length := by
  induction l generalizing dash with
  | nil => exact Nat.le_refl 0
  | cons c l ih =>
    rw [slugBody]
    split
    · exact Nat.succ_le_succ (ih false)
    · split
      · exact Nat.le_succ_of_le (ih true)
      · exact Nat.succ_le_succ (ih true)

theorem length_joinRuns {runs : List (List Char)} :
    (joinRuns runs).length = (runs.map List.length).sum + (runs.length - 1) := by
  induction runs with
  | nil => rfl
  | cons run rest ih =>
    cases rest with
    | nil => simp [joinRuns,Text.lowercase,List.intercalate]
    | cons run' rest =>
      have hcons : joinRuns (run :: run' :: rest) =
          Text.lowercase run ++ '-' :: joinRuns (run' :: rest) := by
        simp [joinRuns,List.intercalate]
      rw [hcons,List.length_append,List.length_cons,ih,Text.length_lowercase]
      simp only [List.map_cons,List.sum_cons,List.length_cons]
      omega

theorem slugify_spec (name : String) : slugify name ≠ "" ∧
    (∀ c ∈ (slugify name).toList, isDashAlnum c = true) ∧
    (slugify name).toList.length ≤ max name.length 11 ∧
    ((slugify name).toList.length ≤ maxSegmentBytes ↔ slugSize name ≤ maxSegmentBytes) := by
  rw [slugify_eq]
  split
  · next hruns =>
    have hchars : ∀ c ∈ "destination".toList, isDashAlnum c = true :=
      List.all_eq_true.mp (by decide)
    have hlength : "destination".toList.length = 11 := rfl
    have hsize : slugSize name = 0 := by
      rw [slugSize,hruns]
      rfl
    rw [hlength,hsize]
    exact ⟨by decide,hchars,Nat.le_max_right _ _,by decide⟩
  · next hruns =>
    obtain ⟨t,hbody,-⟩ := Text.trimEnd_spec (· == '-') (slugBody true name.toList)
    rw [(trimEnd_body name.toList).2] at hbody
    have hlength := length_slugBody name.toList true
    rw [hbody,List.length_append] at hlength
    rw [@String.toList_ofList (joinRuns (alnumRuns name.toList)),length_joinRuns]
    refine ⟨?_,fun c hc => ?_,?_,Iff.rfl⟩
    · intro hempty
      have hlist := congrArg String.toList hempty
      rw [@String.toList_ofList (joinRuns (alnumRuns name.toList))] at hlist
      exact hruns (joinRuns_eq_nil.mp hlist)
    · refine slugBody_chars name.toList true c ?_
      rw [hbody]
      exact List.mem_append_left t hc
    · rw [← length_joinRuns,← String.length_toList]
      omega

end Shape

end MurlSystem

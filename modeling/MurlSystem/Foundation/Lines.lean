import Mathlib.Data.List.Basic

namespace Lines

variable {α : Type} [DecidableEq α] (stop : α)

def cut : List α → List (List α)
  | [] => []
  | a :: rest =>
    if a = stop then [a] :: cut rest
    else
      match cut rest with
      | [] => [[a]]
      | line :: lines => (a :: line) :: lines

def Ended (line : List α) : Prop := line.getLast? = some stop

instance : DecidablePred (Ended stop) := fun line => inferInstanceAs (Decidable (line.getLast? = some stop))

variable {stop} {a : α} {l r line : List α} {lines : List (List α)}

theorem cut_cons_stop (r : List α) : cut stop (stop :: r) = [stop] :: cut stop r := by
  rw [cut,if_pos rfl]

theorem cut_eq_nil : cut stop l = [] ↔ l = [] := by
  cases l with
  | nil => simp [cut]
  | cons a rest =>
    rw [cut]
    split
    · simp
    · cases cut stop rest <;> simp

theorem cut_flatten (l : List α) : (cut stop l).flatten = l := by
  induction l with
  | nil => rfl
  | cons a rest ih =>
    rw [cut]
    split
    · rw [List.flatten_cons,ih]
      rfl
    · cases hcut : cut stop rest with
      | nil =>
        rw [hcut] at ih
        rw [← ih]
        rfl
      | cons line lines =>
        rw [hcut,List.flatten_cons] at ih
        rw [List.flatten_cons,List.cons_append,ih]

theorem cut_ended {body : List α} (hbody : stop ∉ body) (r : List α) :
    cut stop (body ++ stop :: r) = (body ++ [stop]) :: cut stop r := by
  induction body with
  | nil => exact cut_cons_stop r
  | cons a body ih =>
    have ha : a ≠ stop := fun h => hbody (by simp [h])
    have htail := ih fun h => hbody (List.mem_cons_of_mem a h)
    rw [List.cons_append,cut,if_neg ha,htail]
    rfl

theorem cut_open (hne : l ≠ []) (hl : stop ∉ l) : cut stop l = [l] := by
  induction l with
  | nil => exact absurd rfl hne
  | cons a rest ih =>
    have ha : a ≠ stop := fun h => hl (by simp [h])
    rw [cut,if_neg ha]
    by_cases hrest : rest = []
    · rw [hrest]
      rfl
    · rw [ih hrest fun h => hl (List.mem_cons_of_mem a h)]

theorem exists_cut (l : List α) : ∃ (bodies : List (List α)) (rest : List α),
    (∀ body ∈ bodies, stop ∉ body) ∧ stop ∉ rest ∧
      l = (bodies.map fun body => body ++ [stop]).flatten ++ rest := by
  induction l with
  | nil => exact ⟨[],[],by simp,by simp,rfl⟩
  | cons a l ih =>
    obtain ⟨bodies,rest,hbodies,hrest,rfl⟩ := ih
    by_cases ha : a = stop
    · exact ⟨[] :: bodies,rest,List.forall_mem_cons.mpr ⟨by simp,hbodies⟩,hrest,by simp [ha]⟩
    · cases bodies with
      | nil =>
        refine ⟨[],a :: rest,by simp,?_,rfl⟩
        rw [List.mem_cons,not_or]
        exact ⟨Ne.symm ha,hrest⟩
      | cons body bodies =>
        obtain ⟨hbody,hmore⟩ := List.forall_mem_cons.mp hbodies
        refine ⟨(a :: body) :: bodies,rest,List.forall_mem_cons.mpr ⟨?_,hmore⟩,hrest,by simp⟩
        rw [List.mem_cons,not_or]
        exact ⟨Ne.symm ha,hbody⟩

theorem cut_bodies {bodies : List (List α)} (h : ∀ body ∈ bodies, stop ∉ body) (r : List α) :
    cut stop ((bodies.map fun body => body ++ [stop]).flatten ++ r) =
      bodies.map (fun body => body ++ [stop]) ++ cut stop r := by
  induction bodies with
  | nil => rfl
  | cons body bodies ih =>
    obtain ⟨hbody,hmore⟩ := List.forall_mem_cons.mp h
    rw [List.map_cons,List.flatten_cons,List.append_assoc,List.append_assoc,List.singleton_append,
      cut_ended hbody,ih hmore]
    rfl

theorem cut_append (l r : List α) : ∃ before rest,
    cut stop l = before ++ cut stop rest ∧ (∀ line ∈ before, Ended stop line) ∧ stop ∉ rest ∧
      cut stop (l ++ r) = before ++ cut stop (rest ++ r) := by
  obtain ⟨bodies,rest,hbodies,hrest,rfl⟩ := @exists_cut _ _ stop l
  refine ⟨_,rest,cut_bodies hbodies rest,?_,hrest,by rw [List.append_assoc,cut_bodies hbodies]⟩
  intro line hline
  obtain ⟨body,-,rfl⟩ := List.mem_map.mp hline
  exact List.getLast?_concat

theorem cut_ne_nil (l : List α) : ∀ line ∈ cut stop l, line ≠ [] := by
  induction l with
  | nil => simp [cut]
  | cons a rest ih =>
    rw [cut]
    split
    · exact List.forall_mem_cons.mpr ⟨List.cons_ne_nil _ _,ih⟩
    · cases hcut : cut stop rest with
      | nil => exact List.forall_mem_singleton.mpr (List.cons_ne_nil _ _)
      | cons line lines =>
        rw [hcut] at ih
        exact List.forall_mem_cons.mpr ⟨List.cons_ne_nil _ _,(List.forall_mem_cons.mp ih).2⟩

theorem open_append {piece : List α} (hne : piece ≠ []) (hpiece : stop ∉ piece) (hr : r ≠ []) :
    ∃ x lines, x ≠ [] ∧ cut stop (piece ++ r) = (piece ++ x) :: lines := by
  induction piece with
  | nil => exact absurd rfl hne
  | cons a piece ih =>
    have ha : a ≠ stop := fun h => hpiece (by simp [h])
    rw [List.cons_append,cut,if_neg ha]
    by_cases hp : piece = []
    · cases hcut : cut stop r with
      | nil => exact absurd (cut_eq_nil.mp hcut) hr
      | cons line lines =>
        rw [hp,List.nil_append,hcut]
        exact ⟨line,lines,cut_ne_nil r line (by rw [hcut]; exact List.mem_cons_self),rfl⟩
    · obtain ⟨x,lines,hx,hcut⟩ := ih hp fun h => hpiece (List.mem_cons_of_mem a h)
      rw [hcut]
      exact ⟨x,lines,hx,rfl⟩

omit [DecidableEq α] in
theorem not_ended (h : stop ∉ line) : ¬Ended stop line := fun he => h (List.mem_of_getLast? he)

theorem cut_rest {rest : List α} (h : stop ∉ rest) :
    cut stop rest = if rest = [] then [] else [rest] := by
  split
  · next he => rw [he]; rfl
  · next hne => exact cut_open hne h

theorem cut_unended {before : List (List α)} {piece : List α} (h : cut stop l = before ++ [piece])
    (hpiece : ¬Ended stop piece) (hr : r ≠ []) :
    ∃ x lines, x ≠ [] ∧ cut stop (l ++ r) = before ++ (piece ++ x) :: lines := by
  obtain ⟨before',rest,hl,hended,hrest,hlr⟩ := @cut_append _ _ stop l r
  rw [cut_rest hrest] at hl
  split at hl
  · rw [List.append_nil] at hl
    exact absurd (hended piece (by rw [← hl,h]; simp)) hpiece
  · next hne =>
    obtain ⟨rfl,hsame⟩ := List.append_inj' (h.symm.trans hl) rfl
    obtain rfl := (List.cons.inj hsame).1
    obtain ⟨x,lines,hx,hcut⟩ := open_append hne hrest hr
    exact ⟨x,lines,hx,by rw [hlr,hcut]⟩

theorem ended_stays {i : Nat} (h : (cut stop l)[i]? = some line) (hline : Ended stop line)
    (r : List α) : (cut stop (l ++ r))[i]? = some line := by
  obtain ⟨before,rest,hl,-,hrest,hlr⟩ := @cut_append _ _ stop l r
  have hbefore : before[i]? = some line := by
    rw [hl,cut_rest hrest] at h
    by_cases hi : i < before.length
    · rwa [List.getElem?_append_left hi] at h
    · rw [List.getElem?_append_right (Nat.not_lt.mp hi)] at h
      split at h
      · cases h
      · have hmem := List.mem_of_getElem? h
        rw [List.mem_singleton.mp hmem] at hline
        exact absurd hline (not_ended hrest)
  have hi := (List.getElem?_eq_some_iff.mp hbefore).1
  rw [hlr,List.getElem?_append_left hi,hbefore]

theorem open_last {i : Nat} (h : (cut stop l)[i]? = some line) (hline : ¬Ended stop line) :
    cut stop l = (cut stop l).take i ++ [line] ∧ i < (cut stop l).length := by
  have hi := (List.getElem?_eq_some_iff.mp h).1
  obtain ⟨before,rest,hl,hended,hrest,-⟩ := @cut_append _ _ stop l []
  rw [cut_rest hrest] at hl
  split at hl
  · rw [List.append_nil] at hl
    rw [hl] at h
    exact absurd (hended line (List.mem_of_getElem? h)) hline
  · rw [hl] at h hi ⊢
    have hplace : i = before.length := by
      by_cases hbefore : i < before.length
      · rw [List.getElem?_append_left hbefore] at h
        exact absurd (hended line (List.mem_of_getElem? h)) hline
      · rw [List.length_append,List.length_singleton] at hi
        omega
    subst hplace
    rw [List.getElem?_append_right (Nat.le_refl _),Nat.sub_self] at h
    obtain rfl := Option.some.inj h
    refine ⟨?_,hi⟩
    rw [List.take_append_of_le_length (Nat.le_refl _),List.take_length]

theorem ended_place {i : Nat} (h : (cut stop l)[i]? = some line) (hline : Ended stop line) :
    ((cut stop l).filter fun piece => decide (Ended stop piece))[i]? = some line := by
  obtain ⟨before,rest,hl,hended,hrest,-⟩ := @cut_append _ _ stop l []
  have hkept : ∀ piece ∈ before, decide (Ended stop piece) = true :=
    fun piece hp => decide_eq_true (hended piece hp)
  have hleft : ∀ piece ∈ cut stop rest, ¬decide (Ended stop piece) = true := by
    intro piece hp
    rw [cut_rest hrest] at hp
    split at hp
    · cases hp
    · obtain rfl := List.mem_singleton.mp hp
      rw [decide_eq_true_iff]
      exact not_ended hrest
  rw [hl,List.filter_append,List.filter_eq_self.mpr hkept,List.filter_eq_nil_iff.mpr hleft,
    List.append_nil]
  rw [hl] at h
  by_cases hi : i < before.length
  · rwa [List.getElem?_append_left hi] at h
  · rw [List.getElem?_append_right (Nat.not_lt.mp hi)] at h
    exact absurd (decide_eq_true hline) (hleft line (List.mem_of_getElem? h))

end Lines

import Mathlib.Data.List.Basic
import Mathlib.Order.Lattice

namespace OrderedMap

variable {κ ν : Type} [LinearOrder κ]

def insert (k : κ) (v : ν) : List (κ × ν) → List (κ × ν)
  | [] => [(k,v)]
  | (a,w) :: rest =>
    if k = a then (k,v) :: rest
    else if k < a then (k,v) :: (a,w) :: rest
    else (a,w) :: insert k v rest

def ofList (entries : List (κ × ν)) : List (κ × ν) :=
  entries.foldr (fun e m => insert e.1 e.2 m) []

def Ascending (m : List (κ × ν)) : Prop := m.Pairwise fun x y => x.1 < y.1

variable {k : κ} {v : ν} {m : List (κ × ν)}

theorem mem_insert {e : κ × ν} (h : e ∈ insert k v m) : e = (k,v) ∨ e ∈ m := by
  induction m with
  | nil => exact .inl (List.mem_singleton.mp h)
  | cons x rest ih =>
    obtain ⟨a,w⟩ := x
    unfold insert at h
    split at h
    · exact (List.mem_cons.mp h).imp_right (List.mem_cons_of_mem _)
    · split at h
      · exact List.mem_cons.mp h
      · rcases List.mem_cons.mp h with rfl | h
        · exact .inr List.mem_cons_self
        · exact (ih h).imp_right (List.mem_cons_of_mem _)

theorem Ascending.insert (h : Ascending m) : Ascending (insert k v m) := by
  induction m with
  | nil => exact List.pairwise_singleton _ _
  | cons x rest ih =>
    obtain ⟨a,w⟩ := x
    obtain ⟨hall,hrest⟩ := List.pairwise_cons.mp h
    unfold OrderedMap.insert
    split
    · rename_i heq
      subst heq
      exact .cons hall hrest
    · split
      · rename_i hlt
        refine .cons (fun e he => ?_) h
        rcases List.mem_cons.mp he with rfl | he
        · exact hlt
        · exact hlt.trans (hall e he)
      · rename_i hne hnlt
        refine .cons (fun e he => ?_) (ih hrest)
        rcases mem_insert he with rfl | he
        · exact lt_of_le_of_ne (not_lt.mp hnlt) (Ne.symm hne)
        · exact hall e he

theorem lookup_insert (k' : κ) :
    (insert k v m).lookup k' = if k' = k then some v else m.lookup k' := by
  induction m with
  | nil =>
    by_cases hk : k' = k
    · simp [insert,hk]
    · simp [insert,List.lookup_cons,hk,beq_false_of_ne hk]
  | cons x rest ih =>
    obtain ⟨a,w⟩ := x
    unfold insert
    split
    · rename_i heq
      subst heq
      by_cases hk : k' = k
      · simp [hk]
      · simp [List.lookup_cons,hk,beq_false_of_ne hk]
    · split
      · by_cases hk : k' = k
        · simp [hk]
        · simp [List.lookup_cons,hk,beq_false_of_ne hk]
      · rename_i hne _
        by_cases ha : k' = a
        · subst ha
          simp [Ne.symm hne]
        · simp [List.lookup_cons,beq_false_of_ne ha,ih]

theorem ascending_ofList (entries : List (κ × ν)) : Ascending (ofList entries) := by
  induction entries with
  | nil => exact .nil
  | cons e rest ih => exact ih.insert

theorem insert_last (h : ∀ e ∈ m, e.1 < k) : insert k v m = m ++ [(k,v)] := by
  induction m with
  | nil => rfl
  | cons x rest ih =>
    obtain ⟨a,w⟩ := x
    obtain ⟨hless,hrest⟩ := List.forall_mem_cons.mp h
    rw [insert,if_neg hless.ne',if_neg (lt_asymm hless),ih hrest]
    rfl

end OrderedMap

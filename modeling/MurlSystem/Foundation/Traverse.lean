import Mathlib.Data.List.Dedup
import MurlSystem.Foundation.FileAccess

namespace FileTree

variable {ν β : Type}

def Node.isDir : Node β → Bool
  | .dir => true
  | .file _ => false

structure Listing (t : Tree ν β) (top : List ν) where
  names : List ν → List ν
  nodup : ∀ k, top <+: k → (names k).Nodup
  complete : ∀ k, top <+: k → ∀ c, c ∈ names k ↔ t (k ++ [c]) ≠ none

def branch (c : ν) (inside : List (List ν)) : Option (Node β) → List (List ν)
  | some .dir => inside.map (c :: ·)
  | some (.file _) => [[c]]
  | none => []

def filesBelow (names : List ν → List ν) (t : Tree ν β) : Nat → List ν → List (List ν)
  | 0,_ => []
  | depth + 1,k => (names k).flatMap fun c =>
    branch c (filesBelow names t depth (k ++ [c])) (t (k ++ [c]))

section Below

variable {t : Tree ν β} {top k x : List ν} {c : ν} {depth : Nat}

theorem branch_head {inside : List (List ν)} {node : Option (Node β)} (h : x ∈ branch c inside node) :
    x.head? = some c := by
  cases node with
  | none => cases h
  | some node =>
    cases node with
    | dir =>
      obtain ⟨rest,-,rfl⟩ := List.mem_map.mp h
      rfl
    | file b =>
      rw [List.mem_singleton.mp h]
      rfl

theorem branch_nodup {inside : List (List ν)} (h : inside.Nodup) (node : Option (Node β)) :
    (branch c inside node).Nodup := by
  cases node with
  | none => exact List.nodup_nil
  | some node =>
    cases node with
    | dir => exact h.map fun _ _ he => (List.cons.inj he).2
    | file b => exact List.nodup_singleton _

theorem inner_dir {rest : List ν} (hg : Grounded t) (hrest : rest ≠ [])
    (h : t (k ++ [c] ++ rest) ≠ none) : t (k ++ [c]) = some .dir := by
  refine hg _ h _ (mem_ancestors.mpr ⟨List.prefix_append _ _,?_⟩)
  exact fun he => hrest (List.append_right_eq_self.mp he.symm)

theorem mem_filesBelow (l : Listing t top) (hg : Grounded t) (hk : top <+: k) :
    x ∈ filesBelow l.names t depth k ↔
      x ≠ [] ∧ x.length ≤ depth ∧ ∃ b, t (k ++ x) = some (.file b) := by
  induction depth generalizing k x with
  | zero =>
    rw [filesBelow]
    refine ⟨fun h => (List.not_mem_nil h).elim,?_⟩
    rintro ⟨hne,hlen,-⟩
    exact absurd (List.length_eq_zero_iff.mp (Nat.le_zero.mp hlen)) hne
  | succ depth ih =>
    have hstep : ∀ c rest, k ++ c :: rest = k ++ [c] ++ rest := by simp
    rw [filesBelow,List.mem_flatMap]
    constructor
    · rintro ⟨c,hc,hx⟩
      cases hnode : t (k ++ [c]) with
      | none => exact absurd hnode ((l.complete k hk c).mp hc)
      | some node =>
        rw [hnode] at hx
        cases node with
        | file b =>
          obtain rfl := List.mem_singleton.mp hx
          exact ⟨List.cons_ne_nil _ _,by simp,b,hnode⟩
        | dir =>
          obtain ⟨rest,hrest,rfl⟩ := List.mem_map.mp hx
          obtain ⟨-,hlen,b,hb⟩ := (ih (hk.trans (List.prefix_append k [c]))).mp hrest
          exact ⟨List.cons_ne_nil _ _,Nat.succ_le_succ hlen,b,by rw [hstep,hb]⟩
    · rintro ⟨hne,hlen,b,hb⟩
      obtain ⟨c,rest,rfl⟩ := List.exists_cons_of_ne_nil hne
      rw [hstep] at hb
      by_cases hrest : rest = []
      · rw [hrest,List.append_nil] at hb
        refine ⟨c,(l.complete k hk c).mpr (by rw [hb]; simp),?_⟩
        rw [hrest,hb]
        exact List.mem_singleton_self _
      · have hdir := inner_dir hg hrest (by rw [hb]; simp)
        refine ⟨c,(l.complete k hk c).mpr (by rw [hdir]; simp),?_⟩
        rw [hdir]
        exact List.mem_map.mpr ⟨rest,(ih (hk.trans (List.prefix_append k [c]))).mpr
          ⟨hrest,Nat.le_of_succ_le_succ hlen,b,hb⟩,rfl⟩

theorem filesBelow_nodup (l : Listing t top) (hk : top <+: k) :
    (filesBelow l.names t depth k).Nodup := by
  induction depth generalizing k with
  | zero => exact List.nodup_nil
  | succ depth ih =>
    rw [filesBelow,List.nodup_flatMap]
    constructor
    · exact fun c _ => branch_nodup (ih (hk.trans (List.prefix_append k [c]))) _
    · refine (l.nodup k hk).imp ?_
      intro c d hne x hc hd
      exact hne (Option.some.inj ((branch_head hc).symm.trans (branch_head hd)))

def Listing.ofPaths [DecidableEq ν] (paths : List (List ν))
    (h : ∀ k, top <+: k → k ≠ top → t k ≠ none → ∃ q ∈ paths, k <+: q) : Listing t top where
  names k := paths.flatten.dedup.filter fun c => (t (k ++ [c])).isSome
  nodup k _ := (List.nodup_dedup _).filter _
  complete := by
    intro k hk c
    rw [List.mem_filter,List.mem_dedup,Option.isSome_iff_ne_none,and_iff_right_iff_imp]
    intro hc
    have hbelow : k ++ [c] ≠ top := by
      intro he
      have hlen := hk.length_le
      rw [← he,List.length_append,List.length_singleton] at hlen
      omega
    obtain ⟨q,hq,hunder⟩ := h _ (hk.trans (List.prefix_append k [c])) hbelow hc
    exact List.mem_flatten.mpr ⟨q,hq,hunder.subset (by simp)⟩

end Below

end FileTree

import Mathlib.Data.Fintype.Card
import Mathlib.Data.Set.Finite.Basic
import Mathlib.Data.Finset.Card
import Mathlib.Logic.Relation
import Mathlib.Order.WellFounded

namespace Toposort

open Relation

section Order

variable {α β : Type} [LinearOrder β]

structure Ready (needs : α → α → Prop) (pool : Finset α) (out : List α) (x : α) : Prop where
  inside : x ∈ pool
  fresh : x ∉ out
  met : ∀ y, needs x y → y ∈ out

def Least (needs : α → α → Prop) (key : α → β) (pool : Finset α) (out : List α) (x : α) : Prop :=
  Ready needs pool out x ∧ ∀ z, Ready needs pool out z → key x ≤ key z

def Greedy (needs : α → α → Prop) (key : α → β) (pool : Finset α) (out : List α) : Prop :=
  ∀ pre x post, out = pre ++ x :: post → Least needs key pool pre x

variable {needs : α → α → Prop} {key : α → β} {pool : Finset α} {out : List α}

theorem Greedy.nil : Greedy needs key pool [] := by
  intro pre x post h
  simp at h

theorem Greedy.snoc {x : α} (h : Greedy needs key pool out) (hx : Least needs key pool out x) :
    Greedy needs key pool (out ++ [x]) := by
  intro pre y post he
  rcases List.eq_nil_or_concat post with rfl | ⟨post',last,rfl⟩
  · obtain ⟨rfl,hy⟩ := List.append_inj' he rfl
    obtain rfl : x = y := by simpa using hy
    exact hx
  · have hsplit : out ++ [x] = (pre ++ y :: post') ++ [last] := by simp [he]
    obtain ⟨hout,-⟩ := List.append_inj' hsplit rfl
    exact h pre y post' hout

theorem Greedy.of_append {more : List α} (h : Greedy needs key pool (out ++ more)) :
    Greedy needs key pool out := by
  intro pre x post he
  exact h pre x (post ++ more) (by simp [he])

theorem Greedy.inside (h : Greedy needs key pool out) {x : α} (hx : x ∈ out) : x ∈ pool := by
  obtain ⟨pre,post,rfl⟩ := List.append_of_mem hx
  exact (h pre x post rfl).1.inside

theorem Greedy.nodup (h : Greedy needs key pool out) : out.Nodup := by
  induction out using List.reverseRecOn with
  | nil => exact List.nodup_nil
  | append_singleton front x ih =>
    have hx := (h front x [] rfl).1.fresh
    refine List.nodup_append.mpr ⟨ih h.of_append,by simp,?_⟩
    intro a ha b hb hab
    obtain rfl : b = x := by simpa using hb
    exact hx (hab ▸ ha)

theorem Greedy.subset [DecidableEq α] (h : Greedy needs key pool out) : out.toFinset ⊆ pool :=
  fun _ hx => h.inside (List.mem_toFinset.mp hx)

theorem Greedy.missing (h : Greedy needs key pool out) (hlen : out.length < pool.card) :
    ∃ x ∈ pool, x ∉ out := by
  classical
  have hcard : out.toFinset.card < pool.card := by
    rw [List.toFinset_card_of_nodup h.nodup]
    exact hlen
  obtain ⟨x,hx,hout⟩ := Finset.exists_mem_notMem_of_card_lt_card hcard
  exact ⟨x,hx,fun hmem => hout (List.mem_toFinset.mpr hmem)⟩

theorem Greedy.covers (h : Greedy needs key pool out) (hlen : out.length = pool.card) (x : α) :
    x ∈ out ↔ x ∈ pool := by
  classical
  refine ⟨h.inside,fun hx => ?_⟩
  have hcard : pool.card ≤ out.toFinset.card := by
    rw [List.toFinset_card_of_nodup h.nodup,hlen]
  have heq := Finset.eq_of_subset_of_card_le h.subset hcard
  exact List.mem_toFinset.mp (heq ▸ hx)

theorem Greedy.before (h : Greedy needs key pool out) {x y : α} (hd : TransGen needs x y) :
    ∀ pre post, out = pre ++ x :: post → y ∈ pre := by
  induction hd with
  | single hxy => exact fun pre post he => (h pre x post he).1.met _ hxy
  | tail _ hyz ih =>
    intro pre post he
    obtain ⟨pre',mid,rfl⟩ := List.append_of_mem (ih pre post he)
    have hz := (h pre' _ (mid ++ x :: post) (by simpa using he)).1.met _ hyz
    exact List.mem_append_left _ hz

theorem Greedy.irrefl (h : Greedy needs key pool out) {x : α} (hx : x ∈ out) :
    ¬TransGen needs x x := by
  intro hd
  obtain ⟨pre,post,he⟩ := List.append_of_mem hx
  exact (h pre x post he).1.fresh (h.before hd pre post he)

theorem stuck_cycle (hinside : ∀ x ∈ pool, ∀ y, needs x y → y ∈ pool)
    (hmiss : ∃ x ∈ pool, x ∉ out) (hstuck : ∀ x, ¬Ready needs pool out x) :
    ∃ x ∈ pool, TransGen needs x x := by
  classical
  by_contra hacyclic
  push Not at hacyclic
  let left := pool.filter fun x => x ∉ out
  obtain ⟨a,ha,hout⟩ := hmiss
  have hfinite : Finite left := left.finite_toSet.to_subtype
  let below : left → left → Prop := fun y x => TransGen needs x.1 y.1
  have htrans : IsTrans left below := ⟨fun _ _ _ hab hbc => hbc.trans hab⟩
  have hirrefl : Std.Irrefl below :=
    ⟨fun x hx => hacyclic x.1 (Finset.mem_filter.mp x.2).1 hx⟩
  have hwf : WellFounded below := Finite.wellFounded_of_trans_of_irrefl below
  obtain ⟨m,-,hm⟩ := hwf.has_min Set.univ ⟨⟨a,Finset.mem_filter.mpr ⟨ha,hout⟩⟩,trivial⟩
  obtain ⟨hpool,hfresh⟩ := Finset.mem_filter.mp m.2
  refine hstuck m.1 ⟨hpool,hfresh,?_⟩
  intro y hy
  by_contra hnot
  exact hm ⟨y,Finset.mem_filter.mpr ⟨hinside _ hpool y hy,hnot⟩⟩ trivial (.single hy)

end Order

end Toposort

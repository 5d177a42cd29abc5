import Mathlib.Data.Int.ConditionallyCompleteOrder
import Mathlib.Data.List.MinMax
import Mathlib.Data.Prod.Lex
import Mathlib.Order.ConditionallyCompleteLattice.Basic
import MurlSystem.Foundation.Toposort
import MurlSystem.Resolution.Sequence

namespace MurlSystem

def Needs (resources : List ResourceDoc) (a b : Nat) : Prop := a ≠ b ∧ DependsOn resources a b

def priority (resources : List ResourceDoc) (i : Nat) : Lex (Int × Nat) :=
  toLex (orderOf resources i,i)

section Edges

variable {resources : List ResourceDoc}

theorem id_injective (h : (resources.map ResourceDoc.id).Nodup) {i j : Nat} {ri rj : ResourceDoc}
    (hi : resources[i]? = some ri) (hj : resources[j]? = some rj) (heq : ri.id = rj.id) :
    i = j := by
  obtain ⟨hilt,rfl⟩ := List.getElem?_eq_some_iff.mp hi
  obtain ⟨hjlt,rfl⟩ := List.getElem?_eq_some_iff.mp hj
  have hget : (resources.map ResourceDoc.id).get ⟨i,by simpa⟩ =
      (resources.map ResourceDoc.id).get ⟨j,by simpa⟩ := by simpa using heq
  simpa using h.get_inj_iff.mp hget

theorem indexOf_iff (h : (resources.map ResourceDoc.id).Nodup) {id : String} {b : Nat} :
    indexOf resources id = some b ↔ ∃ r, resources[b]? = some r ∧ r.id = id := by
  unfold indexOf
  rw [List.findIdx?_eq_some_iff_getElem]
  constructor
  · rintro ⟨hlt,hb,-⟩
    exact ⟨resources[b],List.getElem?_eq_getElem hlt,by simpa using hb⟩
  · rintro ⟨r,hr,rfl⟩
    obtain ⟨hlt,hget⟩ := List.getElem?_eq_some_iff.mp hr
    refine ⟨hlt,by simp [hget],?_⟩
    intro j hj
    have hjlt := Nat.lt_trans hj hlt
    have hother : resources[j].id ≠ r.id := fun heq =>
      Nat.ne_of_lt hj (id_injective h (List.getElem?_eq_getElem hjlt) hr heq)
    simpa using hother

theorem mem_depsOf_iff (h : (resources.map ResourceDoc.id).Nodup) {a b : Nat} :
    b ∈ depsOf resources a ↔ Needs resources a b := by
  unfold depsOf
  cases ha : resources[a]? with
  | none =>
    refine ⟨fun hb => absurd hb (by simp),?_⟩
    rintro ⟨-,ra,-,hra,-⟩
    rw [ha] at hra
    cases hra
  | some ra =>
    simp only [List.mem_filter,List.mem_filterMap,bne_iff_ne]
    constructor
    · rintro ⟨⟨id,hid,hindex⟩,hne⟩
      obtain ⟨rb,hb,rfl⟩ := (indexOf_iff h).mp hindex
      exact ⟨hne.symm,ra,rb,ha,hb,hid⟩
    · rintro ⟨hne,ra',rb,hra,hb,hid⟩
      rw [ha] at hra
      obtain rfl := Option.some.inj hra
      exact ⟨⟨rb.id,hid,(indexOf_iff h).mpr ⟨rb,hb,rfl⟩⟩,hne.symm⟩

theorem Needs.lt_length {a b : Nat} (h : Needs resources a b) :
    a < resources.length ∧ b < resources.length := by
  obtain ⟨-,ra,rb,ha,hb,-⟩ := h
  exact ⟨(List.getElem?_eq_some_iff.mp ha).1,(List.getElem?_eq_some_iff.mp hb).1⟩

theorem isReady_iff (h : (resources.map ResourceDoc.id).Nodup) {out : List Nat} {i : Nat} :
    i ∈ (List.range resources.length).filter (isReady resources out) ↔
      Toposort.Ready (Needs resources) (Finset.range resources.length) out i := by
  simp only [List.mem_filter,List.mem_range,isReady,Bool.and_eq_true,Bool.not_eq_true',
    List.contains_eq_mem,decide_eq_false_iff_not,List.all_eq_true,decide_eq_true_eq,
    mem_depsOf_iff h]
  constructor
  · rintro ⟨hlt,hfresh,hmet⟩
    exact ⟨Finset.mem_range.mpr hlt,hfresh,hmet⟩
  · rintro ⟨hlt,hfresh,hmet⟩
    exact ⟨Finset.mem_range.mp hlt,hfresh,hmet⟩

end Edges

section Pick

variable {resources : List ResourceDoc}

theorem goesBefore_iff (i p : Nat) :
    goesBefore resources i p = true ↔ priority resources i < priority resources p := by
  simp [goesBefore,priority,Prod.Lex.toLex_lt_toLex]

theorem pickNext_argmin (out : List Nat) : pickNext resources out =
    ((List.range resources.length).filter (isReady resources out)).argmin
      (priority resources) := by
  have hbetter : better resources =
      List.argAux fun b c => priority resources b < priority resources c := by
    funext pick i
    cases pick with
    | none => rfl
    | some p => simp only [better,List.argAux,goesBefore_iff]
  rw [pickNext,hbetter,List.argmin]

theorem pickNext_least (h : (resources.map ResourceDoc.id).Nodup) {out : List Nat} {i : Nat}
    (hi : pickNext resources out = some i) :
    Toposort.Least (Needs resources) (priority resources) (Finset.range resources.length)
      out i := by
  rw [pickNext_argmin] at hi
  refine ⟨(isReady_iff h).mp (List.argmin_mem hi),?_⟩
  intro z hz
  exact List.le_of_mem_argmin ((isReady_iff h).mpr hz) hi

theorem pickNext_stuck (h : (resources.map ResourceDoc.id).Nodup) {out : List Nat}
    (hi : pickNext resources out = none) (x : Nat) :
    ¬Toposort.Ready (Needs resources) (Finset.range resources.length) out x := by
  intro hx
  rw [pickNext_argmin,List.argmin_eq_none] at hi
  have hmem := (isReady_iff h).mpr hx
  rw [hi] at hmem
  cases hmem

end Pick

section Loop

variable {resources : List ResourceDoc}

def GreedyOrder (resources : List ResourceDoc) (out : List Nat) : Prop :=
  Toposort.Greedy (Needs resources) (priority resources) (Finset.range resources.length) out

theorem orderLoop_greedy (h : (resources.map ResourceDoc.id).Nodup) (k : Nat) (out : List Nat)
    (hout : GreedyOrder resources out) (hlen : out.length + k = resources.length) :
    (∀ result, orderLoop resources k out = .ok result →
      GreedyOrder resources result ∧ result.length = resources.length) ∧
    ∀ e, orderLoop resources k out = .error e →
      ∃ i, Relation.TransGen (Needs resources) i i := by
  induction k generalizing out with
  | zero =>
    refine ⟨?_,fun e he => by cases he⟩
    intro result hres
    obtain rfl : out = result := by simpa [orderLoop] using hres
    exact ⟨hout,hlen⟩
  | succ k ih =>
    unfold orderLoop
    cases hp : pickNext resources out with
    | some i => exact ih (out ++ [i]) (hout.snoc (pickNext_least h hp)) (by simp; omega)
    | none =>
      refine ⟨fun result hres => (by cases hres),fun e _ => ?_⟩
      have hmiss := Toposort.Greedy.missing hout (by simp; omega)
      obtain ⟨i,-,hi⟩ := Toposort.stuck_cycle
        (fun x _ y hxy => Finset.mem_range.mpr hxy.lt_length.2) hmiss (pickNext_stuck h hp)
      exact ⟨i,hi⟩

theorem executionOrder_error_iff (hunique : (resources.map ResourceDoc.id).Nodup) :
    (∃ e, executionOrder resources = .error e) ↔
      ∃ i, Relation.TransGen (Needs resources) i i := by
  obtain ⟨hok,herr⟩ := orderLoop_greedy hunique resources.length [] Toposort.Greedy.nil
    (by simp)
  constructor
  · rintro ⟨e,he⟩
    exact herr e he
  · rintro ⟨i,hi⟩
    cases hres : executionOrder resources with
    | error e => exact ⟨e,rfl⟩
    | ok order =>
      obtain ⟨hgreedy,hlen⟩ := hok order hres
      obtain ⟨_,hneeds,-⟩ := Relation.TransGen.head'_iff.mp hi
      have hmem := (Toposort.Greedy.covers hgreedy (by simpa using hlen) i).mpr
        (Finset.mem_range.mpr hneeds.lt_length.1)
      exact absurd hi (Toposort.Greedy.irrefl hgreedy hmem)

theorem executionOrder_correct (resources : List ResourceDoc)
    (hunique : (resources.map ResourceDoc.id).Nodup) :
    ((∃ e, executionOrder resources = .error e) ↔
      ∃ i, Relation.TransGen (Needs resources) i i) ∧
    ∀ order, executionOrder resources = .ok order →
      order.Perm (List.range resources.length) ∧
      ∀ pre i post, order = pre ++ i :: post →
        (∀ j, Needs resources i j → j ∈ pre) ∧
        ∀ k < resources.length, k ∉ pre → (∀ j, Needs resources k j → j ∈ pre) →
          orderOf resources i < orderOf resources k ∨
            orderOf resources i = orderOf resources k ∧ i ≤ k := by
  refine ⟨executionOrder_error_iff hunique,?_⟩
  intro order hres
  obtain ⟨hok,-⟩ := orderLoop_greedy hunique resources.length [] Toposort.Greedy.nil (by simp)
  obtain ⟨hgreedy,hlen⟩ := hok order hres
  constructor
  · refine (List.perm_ext_iff_of_nodup (Toposort.Greedy.nodup hgreedy) List.nodup_range).mpr ?_
    intro i
    rw [Toposort.Greedy.covers hgreedy (by simpa using hlen),Finset.mem_range,List.mem_range]
  · intro pre i post he
    obtain ⟨hready,hleast⟩ := hgreedy pre i post he
    refine ⟨hready.met,?_⟩
    intro k hk hfresh hmet
    have hle := hleast k ⟨Finset.mem_range.mpr hk,hfresh,hmet⟩
    simpa [priority,Prod.Lex.toLex_le_toLex] using hle

end Loop

section Trio

def trioTask (id : String) (order : Int) (dependsOn : List String) : ResourceDoc :=
  ⟨id,"https","https://example.com/",none,none,false,order,dependsOn,[],none,none⟩

def trio : List ResourceDoc :=
  [trioTask "x" 1 ["first"],trioTask "y" 2 ["first"],trioTask "first" 99 []]

theorem trio_ordered : executionOrder trio = .ok [2,0,1] ∧
    ∀ j, Needs trio 1 j → j ∈ [2,0] := by
  have hrun : executionOrder trio = .ok [2,0,1] := by decide +kernel
  obtain ⟨-,hplace⟩ := (executionOrder_correct trio (by decide +kernel)).2 _ hrun
  exact ⟨hrun,(hplace [2,0] 1 [] rfl).1⟩

end Trio

end MurlSystem

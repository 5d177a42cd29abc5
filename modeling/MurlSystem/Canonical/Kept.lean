import MurlSystem.Core.Serde
import MurlSystem.Foundation.Fallible

namespace MurlSystem.Serde

inductive Kept : Nat → Value → Prop
  | null (d : Nat) : Kept d .null
  | bool (d : Nat) (b : Bool) : Kept d (.bool b)
  | int (d : Nat) (i : Int) (least : -(2 ^ 63) ≤ i) (most : i < 2 ^ 64) : Kept d (.number (.int i))
  | float (d : Nat) (text : String) : Kept d (.number (.float text))
  | string (d : Nat) (s : String) : Kept d (.string s)
  | array (d : Nat) (items : List Value) (each : ∀ v ∈ items, Kept d v) : Kept (d + 1) (.array items)
  | object (d : Nat) (members : List (String × Value)) (each : ∀ m ∈ members, Kept d m.2)
      (ascending : members.Pairwise fun a b => a.1 < b.1) : Kept (d + 1) (.object members)

inductive Token : Nat → Value → Prop
  | null (d : Nat) : Token d .null
  | bool (d : Nat) (b : Bool) : Token d (.bool b)
  | int (d : Nat) (i : Int) (least : -(2 ^ 63) ≤ i) (most : i < 2 ^ 64) : Token d (.number (.int i))
  | float (d : Nat) (text : String) : Token d (.number (.float text))
  | string (d : Nat) (s : String) : Token d (.string s)
  | array (d : Nat) (items : List Value) (each : ∀ v ∈ items, Token d v) :
      Token (d + 1) (.array items)
  | object (d : Nat) (members : List (String × Value)) (each : ∀ m ∈ members, Token d m.2) :
      Token (d + 1) (.object members)

theorem kept_token {d : Nat} {v : Value} (h : Kept d v) : Token d v := by
  induction h with
  | null d => exact .null d
  | bool d b => exact .bool d b
  | int d i least most => exact .int d i least most
  | float d text => exact .float d text
  | string d s => exact .string d s
  | array d items _ ih => exact .array d items ih
  | object d members _ _ ih => exact .object d members ih

section Insert

variable {k : String} {v : Value} {out : List (String × Value)}

theorem mem_insertMember {m : String × Value} :
    m ∈ insertMember k v out ↔ m = (k,v) ∨ m ∈ out := by
  induction out with
  | nil => simp [insertMember]
  | cons x rest ih =>
    obtain ⟨k',v'⟩ := x
    rw [insertMember]
    split
    · simp
    · rw [List.mem_cons,ih,List.mem_cons]
      exact or_left_comm

theorem insertMember_ascending (h : out.Pairwise fun a b => a.1 < b.1)
    (hk : ∀ m ∈ out, m.1 ≠ k) : (insertMember k v out).Pairwise fun a b => a.1 < b.1 := by
  induction out with
  | nil => simp [insertMember]
  | cons x rest ih =>
    obtain ⟨k',v'⟩ := x
    obtain ⟨hx,hrest⟩ := List.pairwise_cons.mp h
    obtain ⟨hne,hks⟩ := List.forall_mem_cons.mp hk
    rw [insertMember]
    split
    · rename_i hlt
      refine List.pairwise_cons.mpr ⟨List.forall_mem_cons.mpr ⟨hlt,fun m hm => ?_⟩,h⟩
      exact String.lt_trans hlt (hx m hm)
    · rename_i hge
      have hlt : k' < k := by
        by_contra hle
        exact hne (String.le_antisymm (String.not_lt.mp hge) (String.not_lt.mp hle))
      refine List.pairwise_cons.mpr ⟨fun m hm => ?_,ih hrest hks⟩
      rcases mem_insertMember.mp hm with rfl | hm
      · exact hlt
      · exact hx m hm

theorem insertMember_last (h : ∀ m ∈ out, m.1 < k) : insertMember k v out = out ++ [(k,v)] := by
  induction out with
  | nil => rfl
  | cons x rest ih =>
    obtain ⟨k',v'⟩ := x
    obtain ⟨hx,hrest⟩ := List.forall_mem_cons.mp h
    rw [insertMember,if_neg (String.lt_asymm hx),ih hrest]
    rfl

theorem lookup_none (h : ∀ m ∈ out, m.1 ≠ k) : out.lookup k = none := by
  induction out with
  | nil => rfl
  | cons x rest ih =>
    obtain ⟨k',v'⟩ := x
    obtain ⟨hx,hrest⟩ := List.forall_mem_cons.mp h
    have hne : (k == k') = false := by simpa using Ne.symm hx
    rw [List.lookup_cons,hne]
    exact ih hrest

theorem lookup_isSome_false (h : ¬(out.lookup k).isSome = true) : ∀ m ∈ out, m.1 ≠ k := by
  induction out with
  | nil => simp
  | cons x rest ih =>
    obtain ⟨k',v'⟩ := x
    rw [List.lookup_cons] at h
    by_cases hk : k = k'
    · simp [hk] at h
    · have hne : (k == k') = false := by simpa using hk
      rw [hne] at h
      exact List.forall_mem_cons.mpr ⟨Ne.symm hk,ih h⟩

end Insert

section NoDup

variable {d : Nat}

theorem noDupSeq_kept {items out : List Value}
    (each : ∀ t ∈ items, ∀ v, noDup t = .ok v → Kept d v) (h : noDupSeq items = .ok out) :
    ∀ v ∈ out, Kept d v := by
  induction items generalizing out with
  | nil =>
    obtain rfl : [] = out := by simpa [noDupSeq] using h
    simp
  | cons t rest ih =>
    obtain ⟨ht,hrest⟩ := List.forall_mem_cons.mp each
    rw [noDupSeq] at h
    simp only [Fallible.bind_ok,Fallible.pure_ok] at h
    obtain ⟨v,hv,vs,hvs,rfl⟩ := h
    exact List.forall_mem_cons.mpr ⟨ht v hv,ih hrest hvs⟩

theorem noDupMap_kept {out members res : List (String × Value)}
    (each : ∀ m ∈ members, ∀ v, noDup m.2 = .ok v → Kept d v) (hout : ∀ m ∈ out, Kept d m.2)
    (hasc : out.Pairwise fun a b => a.1 < b.1) (h : noDupMap out members = .ok res) :
    (∀ m ∈ res, Kept d m.2) ∧ res.Pairwise fun a b => a.1 < b.1 := by
  induction members generalizing out with
  | nil =>
    obtain rfl : out = res := by simpa [noDupMap] using h
    exact ⟨hout,hasc⟩
  | cons m rest ih =>
    obtain ⟨k,t⟩ := m
    obtain ⟨ht,hrest⟩ := List.forall_mem_cons.mp each
    rw [noDupMap] at h
    simp only [Fallible.bind_ok,Fallible.ite_ok,Fallible.throw_ok,false_and,exists_false,and_false,
      false_or] at h
    obtain ⟨v,hv,hnew,h⟩ := h
    have hkeys := lookup_isSome_false hnew
    refine ih hrest (fun m hm => ?_) (insertMember_ascending hasc hkeys) h
    rcases mem_insertMember.mp hm with rfl | hm
    · exact ht v hv
    · exact hout m hm

theorem noDup_kept {t v : Value} (ht : Token d t) (h : noDup t = .ok v) : Kept d v := by
  induction ht generalizing v with
  | null =>
    obtain rfl : Value.null = v := by simpa [noDup] using h
    exact .null _
  | bool _ b =>
    obtain rfl : Value.bool b = v := by simpa [noDup] using h
    exact .bool _ b
  | int _ i least most =>
    obtain rfl : Value.number (.int i) = v := by simpa [noDup] using h
    exact .int _ i least most
  | float _ text =>
    obtain rfl : Value.number (.float text) = v := by simpa [noDup] using h
    exact .float _ text
  | string _ s =>
    obtain rfl : Value.string s = v := by simpa [noDup] using h
    exact .string _ s
  | array d items _ ih =>
    rw [noDup] at h
    simp only [Fallible.bind_ok,Fallible.pure_ok] at h
    obtain ⟨out,hout,rfl⟩ := h
    exact .array d out (noDupSeq_kept (fun t ht v hv => ih t ht hv) hout)
  | object d members _ ih =>
    rw [noDup] at h
    simp only [Fallible.bind_ok,Fallible.pure_ok] at h
    obtain ⟨out,hout,rfl⟩ := h
    obtain ⟨hkept,hasc⟩ := noDupMap_kept (fun m hm v hv => ih m hm hv) (by simp) .nil hout
    exact .object d out hkept hasc

theorem noDupSeq_self {items : List Value} (each : ∀ v ∈ items, noDup v = .ok v) :
    noDupSeq items = .ok items := by
  induction items with
  | nil => rfl
  | cons v rest ih =>
    obtain ⟨hv,hrest⟩ := List.forall_mem_cons.mp each
    rw [noDupSeq]
    simp only [Fallible.bind_ok,Fallible.pure_ok]
    exact ⟨v,hv,rest,ih hrest,rfl⟩

theorem noDupMap_self {out members : List (String × Value)}
    (each : ∀ m ∈ members, noDup m.2 = .ok m.2)
    (hasc : (out ++ members).Pairwise fun a b => a.1 < b.1) :
    noDupMap out members = .ok (out ++ members) := by
  induction members generalizing out with
  | nil => simp [noDupMap]
  | cons m rest ih =>
    obtain ⟨k,v⟩ := m
    obtain ⟨hv,hrest⟩ := List.forall_mem_cons.mp each
    have hlt : ∀ m ∈ out, m.1 < k := by
      intro m hm
      exact (List.pairwise_append.mp hasc).2.2 m hm (k,v) (by simp)
    have hnew : out.lookup k = none := lookup_none fun m hm he => by
      have hm := hlt m hm
      rw [he] at hm
      exact String.lt_irrefl k hm
    have hasc' : (out ++ [(k,v)] ++ rest).Pairwise fun a b => a.1 < b.1 := by
      simpa using hasc
    rw [noDupMap]
    simp only [Fallible.bind_ok,Fallible.ite_ok,Fallible.throw_ok,false_and,exists_false,and_false,
      false_or]
    refine ⟨v,hv,by simp [hnew],?_⟩
    rw [insertMember_last hlt,ih hrest hasc']
    simp

theorem noDup_self {v : Value} (h : Kept d v) : noDup v = .ok v := by
  induction h with
  | null => rfl
  | bool => rfl
  | int => rfl
  | float => rfl
  | string => rfl
  | array d items _ ih =>
    rw [noDup]
    simp only [Fallible.bind_ok,Fallible.pure_ok]
    exact ⟨items,noDupSeq_self ih,rfl⟩
  | object d members _ ascending ih =>
    rw [noDup]
    simp only [Fallible.bind_ok,Fallible.pure_ok]
    exact ⟨members,noDupMap_self ih (by simpa using ascending),rfl⟩

end NoDup

end MurlSystem.Serde

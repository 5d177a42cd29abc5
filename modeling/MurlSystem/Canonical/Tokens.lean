import MurlSystem.Canonical.Kept
import MurlSystem.Foundation.Rfc8259Reading

namespace MurlSystem.Serde

open Rfc8259

section Tokens

variable {f64 : List Char → Option String}

theorem number_token {d : Nat} {w : List Char} {n : Number} (h : number f64 w = some n) :
    Token d (.number n) := by
  rw [number] at h
  split at h
  · rename_i i hi
    split at h
    · obtain rfl := Option.some.inj h
      exact .float d _
    · split at h
      · rename_i hrange
        obtain rfl := Option.some.inj h
        exact .int d i hrange.1 hrange.2
      · obtain ⟨t,-,rfl⟩ := Option.map_eq_some_iff.mp h
        exact .float d t
  · obtain ⟨t,-,rfl⟩ := Option.map_eq_some_iff.mp h
    exact .float d t

mutual

theorem tree_token {d : Nat} : ∀ {raw : Raw} {v : Value}, tree f64 raw = some v → depth raw ≤ d →
    Token d v
  | .null,v,h,_ => by
    obtain rfl := Option.some.inj h
    exact .null d
  | .bool b,v,h,_ => by
    obtain rfl := Option.some.inj h
    exact .bool d b
  | .number w,v,h,_ => by
    obtain ⟨n,hn,rfl⟩ := Option.map_eq_some_iff.mp h
    exact number_token hn
  | .string points,v,h,_ => by
    obtain ⟨s,-,rfl⟩ := Option.map_eq_some_iff.mp h
    exact .string d s
  | .array items,v,h,hd => by
    obtain ⟨vs,hvs,rfl⟩ := Option.map_eq_some_iff.mp h
    rw [depth] at hd
    obtain ⟨d,rfl⟩ : ∃ e, d = e + 1 := ⟨d - 1,by omega⟩
    exact .array d vs (treeItems_token hvs (by omega))
  | .object members,v,h,hd => by
    obtain ⟨ms,hms,rfl⟩ := Option.map_eq_some_iff.mp h
    rw [depth] at hd
    obtain ⟨d,rfl⟩ : ∃ e, d = e + 1 := ⟨d - 1,by omega⟩
    exact .object d ms (treeMembers_token hms (by omega))

theorem treeItems_token {d : Nat} : ∀ {items : List Raw} {vs : List Value},
    treeItems f64 items = some vs → depthItems items ≤ d → ∀ v ∈ vs, Token d v
  | [],vs,h,_ => by
    obtain rfl := Option.some.inj h
    simp
  | raw :: rest,vs,h,hd => by
    simp only [treeItems,Option.bind_eq_bind,Option.bind_eq_some_iff,Option.pure_def,
      Option.some.injEq] at h
    obtain ⟨v,hv,vs',hvs,rfl⟩ := h
    rw [depthItems] at hd
    exact List.forall_mem_cons.mpr ⟨tree_token hv (by omega),treeItems_token hvs (by omega)⟩

theorem treeMembers_token {d : Nat} : ∀ {members : List (List Nat × Raw)}
    {ms : List (String × Value)}, treeMembers f64 members = some ms → depthMembers members ≤ d →
      ∀ m ∈ ms, Token d m.2
  | [],ms,h,_ => by
    obtain rfl := Option.some.inj h
    simp
  | (k,raw) :: rest,ms,h,hd => by
    simp only [treeMembers,Option.bind_eq_bind,Option.bind_eq_some_iff,Option.pure_def,
      Option.some.injEq] at h
    obtain ⟨key,-,v,hv,ms',hms,rfl⟩ := h
    rw [depthMembers] at hd
    exact List.forall_mem_cons.mpr ⟨tree_token hv (by omega),treeMembers_token hms (by omega)⟩

end

theorem readTokens_token {b : Bytes} {v : Value} (h : readTokens f64 b = some v) :
    Token maxNesting v := by
  simp only [readTokens,Option.bind_eq_bind,Option.bind_eq_some_iff] at h
  obtain ⟨raw,-,h⟩ := h
  split at h
  · cases h
  · rename_i hdepth
    exact tree_token h (Nat.not_lt.mp hdepth)

end Tokens

end MurlSystem.Serde

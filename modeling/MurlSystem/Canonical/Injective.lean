import MurlSystem.Canonical.Readable

namespace MurlSystem.Serde

open Rfc8259

section Written

theorem integral_number {n : Number} (h : Integral (.number n)) : ∃ i, n = .int i :=
  integer_of_some (h n (List.mem_singleton.mpr rfl))

theorem toString_int_injective {i j : Int} (h : (toString i).toList = (toString j).toList) :
    i = j := by
  have hi := integerOf_toString i
  rw [h,integerOf_toString] at hi
  exact (Option.some.inj hi).symm

mutual

theorem written_injective : ∀ {v w : Value}, Integral v → Integral w → written v = written w →
    v = w
  | .null,w,_,_,h => by cases w <;> simp_all [written]
  | .bool b,w,_,_,h => by cases w <;> simp_all [written]
  | .string s,w,_,_,h => by
    cases w with
    | string t =>
      rw [written,written] at h
      rw [points_injective (Raw.string.inj h)]
    | _ => simp [written] at h
  | .number n,w,hv,hw,h => by
    cases w with
    | number m =>
      obtain ⟨i,rfl⟩ := integral_number hv
      obtain ⟨j,rfl⟩ := integral_number hw
      rw [written,written] at h
      rw [toString_int_injective (Raw.number.inj h)]
    | _ => simp [written] at h
  | .array items,w,hv,hw,h => by
    cases w with
    | array items' =>
      rw [written,written] at h
      rw [writtenItems_injective hv hw (Raw.array.inj h)]
    | _ => simp [written] at h
  | .object members,w,hv,hw,h => by
    cases w with
    | object members' =>
      rw [written,written] at h
      rw [writtenMembers_injective hv hw (Raw.object.inj h)]
    | _ => simp [written] at h

theorem writtenItems_injective : ∀ {vs ws : List Value},
    (∀ n ∈ numbersItems vs, n.asI64.isSome ∨ n.asU64.isSome) →
    (∀ n ∈ numbersItems ws, n.asI64.isSome ∨ n.asU64.isSome) →
      writtenItems vs = writtenItems ws → vs = ws
  | [],ws,_,_,h => by cases ws <;> simp_all [writtenItems]
  | v :: vs,ws,hv,hw,h => by
    cases ws with
    | nil => simp [writtenItems] at h
    | cons w ws =>
      rw [numbersItems,List.forall_mem_append] at hv hw
      rw [writtenItems,writtenItems] at h
      obtain ⟨hhead,htail⟩ := List.cons.inj h
      rw [written_injective hv.1 hw.1 hhead,writtenItems_injective hv.2 hw.2 htail]

theorem writtenMembers_injective : ∀ {ms ns : List (String × Value)},
    (∀ n ∈ numbersMembers ms, n.asI64.isSome ∨ n.asU64.isSome) →
    (∀ n ∈ numbersMembers ns, n.asI64.isSome ∨ n.asU64.isSome) →
      writtenMembers ms = writtenMembers ns → ms = ns
  | [],ns,_,_,h => by cases ns <;> simp_all [writtenMembers]
  | (k,v) :: ms,ns,hv,hw,h => by
    cases ns with
    | nil => simp [writtenMembers] at h
    | cons n ns =>
      obtain ⟨k',w⟩ := n
      rw [numbersMembers,List.forall_mem_append] at hv hw
      rw [writtenMembers,writtenMembers] at h
      obtain ⟨hhead,htail⟩ := List.cons.inj h
      obtain ⟨hkey,hvalue⟩ := Prod.mk.inj hhead
      rw [points_injective hkey,written_injective hv.1 hw.1 hvalue,
        writtenMembers_injective hv.2 hw.2 htail]

end

theorem canonicalJsonBytes_injective {v w : Value} {b : Bytes} (hv : canonicalJsonBytes v = .ok b)
    (hw : canonicalJsonBytes w = .ok b) : v = w := by
  have hintv := (canonicalJsonBytes_iff v).mp ⟨b,hv⟩
  have hintw := (canonicalJsonBytes_iff w).mp ⟨b,hw⟩
  obtain ⟨text,htext,rfl⟩ := Fallible.map_ok.mp hv
  obtain ⟨text',htext',hb⟩ := Fallible.map_ok.mp hw
  have hdoc := document_bytes (written_writes htext')
  rw [hb,document_bytes (written_writes htext)] at hdoc
  exact written_injective hintv hintw (Option.some.inj hdoc)

end Written

section Members

variable {members members' : List (String × Value)} {k : String} {v : Value}

theorem mem_iff_lookup (h : members.Pairwise fun a b => a.1 < b.1) :
    (k,v) ∈ members ↔ members.lookup k = some v := by
  induction members with
  | nil => simp
  | cons m rest ih =>
    obtain ⟨k',v'⟩ := m
    obtain ⟨hless,hrest⟩ := List.pairwise_cons.mp h
    rw [List.mem_cons,List.lookup_cons,ih hrest]
    by_cases hk : k = k'
    · subst hk
      have hnone : rest.lookup k = none :=
        lookup_none fun m hm he => String.lt_irrefl k (he ▸ hless m hm)
      simp [hnone,eq_comm]
    · have hne : (k == k') = false := beq_eq_false_iff_ne.mpr hk
      rw [hne]
      simp [hk]

theorem ascending_nodup (h : members.Pairwise fun a b => a.1 < b.1) : members.Nodup := by
  refine h.imp ?_
  intro a b hlt heq
  subst heq
  exact String.lt_irrefl _ hlt

theorem ascending_ext (h : members.Pairwise fun a b => a.1 < b.1)
    (h' : members'.Pairwise fun a b => a.1 < b.1)
    (hsame : ∀ k, members.lookup k = members'.lookup k) : members = members' := by
  have hperm : members.Perm members' := by
    refine (List.perm_ext_iff_of_nodup (ascending_nodup h) (ascending_nodup h')).mpr ?_
    rintro ⟨k,v⟩
    rw [mem_iff_lookup h,mem_iff_lookup h',hsame]
  refine hperm.eq_of_pairwise ?_ h h'
  intro a b _ _ hab hba
  exact absurd hba (String.lt_asymm hab)

theorem lookup_filter {p : String → Bool} (members : List (String × Value)) (k : String) :
    (members.filter fun m => p m.1).lookup k = if p k then members.lookup k else none := by
  induction members with
  | nil => simp
  | cons m rest ih =>
    obtain ⟨k',v'⟩ := m
    rw [List.filter_cons,List.lookup_cons]
    by_cases hk : k = k'
    · subst hk
      by_cases hp : p k = true
      · simp [hp]
      · simp [hp,ih]
    · have hne : (k == k') = false := beq_eq_false_iff_ne.mpr hk
      rw [hne]
      split
      · rw [List.lookup_cons,hne]
        exact ih
      · exact ih

end Members

end MurlSystem.Serde

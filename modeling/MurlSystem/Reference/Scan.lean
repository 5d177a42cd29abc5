import MurlSystem.Reference.Canonical
import MurlSystem.Canonical.Readable

namespace MurlSystem.Reference

open Rfc8259

section Scan

variable {py : Interpreter}

def Converts (py : Interpreter) (w : List Char) : Prop :=
  (Serde.integerOf w).isSome → ∀ n ∈ py.maxStrDigits, digitCount w ≤ n

theorem parseNumber_iff {w : List Char} : (∃ j, parseNumber py w = .ok j) ↔ Converts py w := by
  rw [parseNumber,Converts]
  cases Serde.integerOf w with
  | none => simp
  | some i =>
    simp only [parseInt]
    cases py.maxStrDigits with
    | none => simp
    | some n =>
      by_cases hn : n < digitCount w
      · simp [hn]
      · simp [hn,Nat.not_lt.mp hn]

theorem parseNumber_ok {w : List Char} {j : Json} (h : parseNumber py w = .ok j) :
    (∃ i, Serde.integerOf w = some i ∧ j = .int i) ∨
      Serde.integerOf w = none ∧ j = .nonInteger w := by
  rw [parseNumber] at h
  split at h
  · rename_i i hi
    rw [parseInt] at h
    split at h
    · split at h
      · cases h
      · exact .inl ⟨i,hi,(Except.ok.inj h).symm⟩
    · exact .inl ⟨i,hi,(Except.ok.inj h).symm⟩
  · rename_i hi
    exact .inr ⟨hi,(Except.ok.inj h).symm⟩

theorem rejectDuplicates_iff {seen : List (List Nat)} {members : List (List Nat × Json)} :
    rejectDuplicates seen members = .ok () ↔
      (members.map Prod.fst).Nodup ∧ ∀ m ∈ members, m.1 ∉ seen := by
  induction members generalizing seen with
  | nil => simp [rejectDuplicates]
  | cons m rest ih =>
    obtain ⟨k,v⟩ := m
    rw [rejectDuplicates,List.map_cons,List.nodup_cons,List.forall_mem_cons]
    by_cases hk : k ∈ seen
    · simp [hk]
    · rw [if_neg hk,ih]
      simp only [List.mem_cons,not_or,List.mem_map,not_exists,not_and]
      constructor
      · rintro ⟨hnodup,hfresh⟩
        exact ⟨⟨fun m hm => (hfresh m hm).1,hnodup⟩,hk,fun m hm => (hfresh m hm).2⟩
      · rintro ⟨⟨hne,hnodup⟩,-,hfresh⟩
        exact ⟨hnodup,fun m hm => ⟨hne m hm,hfresh m hm⟩⟩

theorem scanItems_cons {raw : Raw} {rest : List Raw} {js : List Json} :
    scanItems py (raw :: rest) = .ok js ↔
      ∃ j, scan py raw = .ok j ∧ ∃ js', scanItems py rest = .ok js' ∧ j :: js' = js := by
  simp only [scanItems,Fallible.bind_ok,Fallible.pure_ok]

theorem scanMembers_cons {k : List Nat} {raw : Raw} {rest : List (List Nat × Raw)}
    {js : List (List Nat × Json)} :
    scanMembers py ((k,raw) :: rest) = .ok js ↔
      ∃ j, scan py raw = .ok j ∧ ∃ js', scanMembers py rest = .ok js' ∧ (k,j) :: js' = js := by
  simp only [scanMembers,Fallible.bind_ok,Fallible.pure_ok]

theorem scanMembers_keys {members : List (List Nat × Raw)} {js : List (List Nat × Json)}
    (h : scanMembers py members = .ok js) : js.map Prod.fst = members.map Prod.fst := by
  induction members generalizing js with
  | nil =>
    obtain rfl : [] = js := by simpa [scanMembers] using h
    rfl
  | cons m rest ih =>
    obtain ⟨k,raw⟩ := m
    obtain ⟨j,-,js',hjs,rfl⟩ := scanMembers_cons.mp h
    rw [List.map_cons,List.map_cons,ih hjs]

theorem scan_object {members : List (List Nat × Raw)} {j : Json} :
    scan py (.object members) = .ok j ↔ ∃ js, scanMembers py members = .ok js ∧
      (members.map Prod.fst).Nodup ∧ j = .dict js := by
  rw [scan]
  simp only [Fallible.bind_ok,Fallible.pure_ok]
  constructor
  · rintro ⟨js,hjs,⟨⟩,hdup,rfl⟩
    obtain ⟨hnodup,-⟩ := rejectDuplicates_iff.mp hdup
    rw [scanMembers_keys hjs] at hnodup
    exact ⟨js,hjs,hnodup,rfl⟩
  · rintro ⟨js,hjs,hnodup,rfl⟩
    rw [← scanMembers_keys hjs] at hnodup
    exact ⟨js,hjs,(),rejectDuplicates_iff.mpr ⟨hnodup,by simp⟩,rfl⟩

mutual

theorem scan_iff : ∀ raw : Raw, (∃ j, scan py raw = .ok j) ↔
    (∀ ks ∈ names raw, ks.Nodup) ∧ ∀ w ∈ texts raw, Converts py w
  | .null => by simp [scan,names,texts]
  | .bool b => by simp [scan,names,texts]
  | .number w => by simp [scan,names,texts,parseNumber_iff]
  | .string k => by simp [scan,names,texts]
  | .array items => by
    simp only [scan,names,texts,Fallible.bind_ok,Fallible.pure_ok]
    rw [← scanItems_iff items]
    exact ⟨fun ⟨_,js,h,_⟩ => ⟨js,h⟩,fun ⟨js,h⟩ => ⟨_,js,h,rfl⟩⟩
  | .object members => by
    simp only [scan_object,names,texts,List.forall_mem_cons]
    rw [and_assoc,← scanMembers_iff members]
    exact ⟨fun ⟨_,js,h,hnodup,_⟩ => ⟨hnodup,js,h⟩,fun ⟨hnodup,js,h⟩ => ⟨_,js,h,hnodup,rfl⟩⟩

theorem scanItems_iff : ∀ items : List Raw, (∃ js, scanItems py items = .ok js) ↔
    (∀ ks ∈ itemNames items, ks.Nodup) ∧ ∀ w ∈ itemTexts items, Converts py w
  | [] => by simp [scanItems,itemNames,itemTexts]
  | raw :: rest => by
    rw [itemNames,itemTexts,List.forall_mem_append,List.forall_mem_append,and_and_and_comm,
      ← scan_iff raw,← scanItems_iff rest]
    simp only [scanItems_cons]
    exact ⟨fun ⟨_,x,h,xs,h',_⟩ => ⟨⟨x,h⟩,xs,h'⟩,fun ⟨⟨x,h⟩,xs,h'⟩ => ⟨_,x,h,xs,h',rfl⟩⟩

theorem scanMembers_iff : ∀ members : List (List Nat × Raw),
    (∃ js, scanMembers py members = .ok js) ↔
      (∀ ks ∈ memberNames members, ks.Nodup) ∧ ∀ w ∈ memberTexts members, Converts py w
  | [] => by simp [scanMembers,memberNames,memberTexts]
  | (k,raw) :: rest => by
    rw [memberNames,memberTexts,List.forall_mem_append,List.forall_mem_append,and_and_and_comm,
      ← scan_iff raw,← scanMembers_iff rest]
    simp only [scanMembers_cons]
    exact ⟨fun ⟨_,x,h,xs,h',_⟩ => ⟨⟨x,h⟩,xs,h'⟩,fun ⟨⟨x,h⟩,xs,h'⟩ => ⟨_,x,h,xs,h',rfl⟩⟩

end

theorem scanMembers_filter {members : List (List Nat × Raw)} {js : List (List Nat × Json)}
    (p : List Nat → Bool) (h : scanMembers py members = .ok js) :
    scanMembers py (members.filter fun m => p m.1) = .ok (js.filter fun m => p m.1) := by
  induction members generalizing js with
  | nil =>
    obtain rfl : [] = js := by simpa [scanMembers] using h
    rfl
  | cons m rest ih =>
    obtain ⟨k,raw⟩ := m
    obtain ⟨j,hj,js',hjs,rfl⟩ := scanMembers_cons.mp h
    by_cases hk : p k = true
    · simp only [List.filter_cons,hk,if_true]
      exact scanMembers_cons.mpr ⟨j,hj,_,ih hjs,rfl⟩
    · simp only [List.filter_cons,hk]
      exact ih hjs

end Scan

section Frames

mutual

def frames : Raw → Nat
  | .string _ => 2
  | .array items => itemFrames items + 1
  | .object members => memberFrames members + 1
  | _ => 1

def itemFrames : List Raw → Nat
  | [] => 0
  | v :: rest => max (frames v) (itemFrames rest)

def memberFrames : List (List Nat × Raw) → Nat
  | [] => 0
  | (_,v) :: rest => max (frames v) (memberFrames rest)

end

theorem frames_pos (raw : Raw) : 1 ≤ frames raw := by
  cases raw <;> simp [frames]

mutual

theorem frames_depth : ∀ raw : Raw, frames raw ≤ Serde.depth raw + 2
  | .null => by simp [frames,Serde.depth]
  | .bool b => by simp [frames,Serde.depth]
  | .number w => by simp [frames,Serde.depth]
  | .string k => by simp [frames,Serde.depth]
  | .array items => by
    have h := itemFrames_depth items
    simp only [frames,Serde.depth]
    omega
  | .object members => by
    have h := memberFrames_depth members
    simp only [frames,Serde.depth]
    omega

theorem itemFrames_depth : ∀ items : List Raw, itemFrames items ≤ Serde.depthItems items + 2
  | [] => by simp [itemFrames]
  | raw :: rest => by
    have hraw := frames_depth raw
    have hrest := itemFrames_depth rest
    simp only [itemFrames,Serde.depthItems]
    omega

theorem memberFrames_depth : ∀ members : List (List Nat × Raw),
    memberFrames members ≤ Serde.depthMembers members + 2
  | [] => by simp [memberFrames]
  | (k,raw) :: rest => by
    have hraw := frames_depth raw
    have hrest := memberFrames_depth rest
    simp only [memberFrames,Serde.depthMembers]
    omega

end

end Frames

section Write

variable {py : Interpreter} {n : Nat}

def InRange (w : List Char) : Prop :=
  ∃ i, Serde.integerOf w = some i ∧ intMin ≤ i ∧ i ≤ intMax

theorem sortedMembers_perm (ms : List (List Nat × Json)) : (sortedMembers ms).Perm ms :=
  List.perm_insertionSort _ ms

theorem mapM_exists {ε α β : Type} {f : α → Except ε β} {l : List α} :
    (∃ bs, l.mapM f = .ok bs) ↔ ∀ a ∈ l, ∃ b, f a = .ok b := by
  simp only [Fallible.mapM_ok]
  constructor
  · rintro ⟨bs,h⟩ a ha
    induction h with
    | nil => cases ha
    | cons hab _ ih =>
      rcases List.mem_cons.mp ha with rfl | ha
      · exact ⟨_,hab⟩
      · exact ih ha
  · intro h
    induction l with
    | nil => exact ⟨[],.nil⟩
    | cons a l ih =>
      obtain ⟨⟨b,hb⟩,hrest⟩ := List.forall_mem_cons.mp h
      obtain ⟨bs,hbs⟩ := ih hrest
      exact ⟨b :: bs,.cons hb hbs⟩

theorem write_list {items : List Json} {out : List Nat} :
    write (n + 1) (.list items) = .ok out ↔ ∃ parts, items.mapM (write n) = .ok parts ∧
      '['.toNat :: ([','.toNat].intercalate parts ++ [']'.toNat]) = out := by
  simp only [write,Fallible.bind_ok,Fallible.pure_ok]

theorem write_list_iff {items : List Json} : (∃ out, write (n + 1) (.list items) = .ok out) ↔
    ∀ j ∈ items, ∃ out, write n j = .ok out := by
  rw [← mapM_exists]
  simp only [write_list]
  exact ⟨fun ⟨_,parts,h,_⟩ => ⟨parts,h⟩,fun ⟨parts,h⟩ => ⟨_,parts,h,rfl⟩⟩

theorem write_dict {members : List (List Nat × Json)} {out : List Nat} :
    write (n + 1) (.dict members) = .ok out ↔
      ∃ parts, (sortedMembers members).mapM (writeMember n (write n)) = .ok parts ∧
        '{'.toNat :: ([','.toNat].intercalate parts ++ ['}'.toNat]) = out := by
  simp only [write,Fallible.bind_ok,Fallible.pure_ok]

theorem writeString_ok {k out : List Nat} : writeString n k = .ok out ↔
    1 ≤ n ∧ '"'.toNat :: (k.flatMap escapePoint ++ ['"'.toNat]) = out := by
  rw [writeString]
  by_cases hn : n = 0
  · simp [hn]
  · have hpos : 1 ≤ n := by omega
    simp [hn,hpos]

theorem writeMember_ok {m : List Nat × Json} {out : List Nat} :
    writeMember n (write n) m = .ok out ↔ 1 ≤ n ∧ ∃ v, write n m.2 = .ok v ∧
      '"'.toNat :: (m.1.flatMap escapePoint ++ ['"'.toNat]) ++ ':'.toNat :: v = out := by
  rw [writeMember]
  simp only [Fallible.bind_ok,Fallible.pure_ok,writeString_ok]
  constructor
  · rintro ⟨k,⟨hn,rfl⟩,v,hv,rfl⟩
    exact ⟨hn,v,hv,rfl⟩
  · rintro ⟨hn,v,hv,rfl⟩
    exact ⟨_,⟨hn,rfl⟩,v,hv,rfl⟩

theorem write_pos {j : Json} {out : List Nat} (h : write n j = .ok out) : 1 ≤ n := by
  cases n with
  | zero => simp [write] at h
  | succ n => exact Nat.succ_le_succ (Nat.zero_le n)

theorem write_dict_iff {members : List (List Nat × Json)} :
    (∃ out, write (n + 1) (.dict members) = .ok out) ↔
      ∀ m ∈ members, ∃ out, write n m.2 = .ok out := by
  have hparts : (∃ out, write (n + 1) (.dict members) = .ok out) ↔
      ∃ parts, (sortedMembers members).mapM (writeMember n (write n)) = .ok parts := by
    simp only [write_dict]
    exact ⟨fun ⟨_,parts,h,_⟩ => ⟨parts,h⟩,fun ⟨parts,h⟩ => ⟨_,parts,h,rfl⟩⟩
  rw [hparts,mapM_exists]
  constructor
  · intro h m hm
    obtain ⟨out,hout⟩ := h m ((sortedMembers_perm members).mem_iff.mpr hm)
    obtain ⟨-,v,hv,-⟩ := writeMember_ok.mp hout
    exact ⟨v,hv⟩
  · intro h m hm
    obtain ⟨v,hv⟩ := h m ((sortedMembers_perm members).mem_iff.mp hm)
    exact ⟨_,writeMember_ok.mpr ⟨write_pos hv,v,hv,rfl⟩⟩

mutual

theorem write_iff : ∀ {raw : Raw} {j : Json} {n : Nat}, scan py raw = .ok j →
    ((∃ out, write n j = .ok out) ↔ frames raw ≤ n ∧ ∀ w ∈ texts raw, InRange w)
  | raw,j,0,_ => by
    have hpos := frames_pos raw
    simp only [write,reduceCtorEq,exists_false,false_iff,not_and]
    omega
  | .null,j,n + 1,h => by
    obtain rfl := Except.ok.inj h
    simp [write,frames,texts]
  | .bool b,j,n + 1,h => by
    obtain rfl := Except.ok.inj h
    cases b <;> simp [write,frames,texts]
  | .number w,j,n + 1,h => by
    rcases parseNumber_ok h with ⟨i,hi,rfl⟩ | ⟨hi,rfl⟩
    · simp only [write,frames,texts,List.forall_mem_singleton,InRange,hi]
      by_cases hr : intMin ≤ i ∧ i ≤ intMax <;> simp [hr]
    · simp [write,frames,texts,InRange,hi]
  | .string k,j,n + 1,h => by
    obtain rfl := Except.ok.inj h
    simp [write,frames,texts,writeString_ok]
  | .array items,j,n + 1,h => by
    simp only [scan,Fallible.bind_ok,Fallible.pure_ok] at h
    obtain ⟨js,hjs,rfl⟩ := h
    simp only [frames,texts,Nat.succ_le_succ_iff]
    rw [write_list_iff,writeItems_iff hjs]
  | .object members,j,n + 1,h => by
    obtain ⟨js,hjs,-,rfl⟩ := scan_object.mp h
    simp only [frames,texts,Nat.succ_le_succ_iff]
    rw [write_dict_iff,writeMembers_iff hjs]

theorem writeItems_iff : ∀ {items : List Raw} {js : List Json} {n : Nat},
    scanItems py items = .ok js → ((∀ j ∈ js, ∃ out, write n j = .ok out) ↔
      itemFrames items ≤ n ∧ ∀ w ∈ itemTexts items, InRange w)
  | [],js,n,h => by
    obtain rfl : [] = js := by simpa [scanItems] using h
    simp [itemFrames,itemTexts]
  | raw :: rest,js,n,h => by
    obtain ⟨j,hj,js',hjs,rfl⟩ := scanItems_cons.mp h
    rw [itemFrames,itemTexts,Nat.max_le,List.forall_mem_append,and_and_and_comm,← write_iff hj,
      ← writeItems_iff hjs,List.forall_mem_cons]

theorem writeMembers_iff : ∀ {members : List (List Nat × Raw)} {js : List (List Nat × Json)}
    {n : Nat}, scanMembers py members = .ok js → ((∀ m ∈ js, ∃ out, write n m.2 = .ok out) ↔
      memberFrames members ≤ n ∧ ∀ w ∈ memberTexts members, InRange w)
  | [],js,n,h => by
    obtain rfl : [] = js := by simpa [scanMembers] using h
    simp [memberFrames,memberTexts]
  | (k,raw) :: rest,js,n,h => by
    obtain ⟨j,hj,js',hjs,rfl⟩ := scanMembers_cons.mp h
    rw [memberFrames,memberTexts,Nat.max_le,List.forall_mem_append,and_and_and_comm,← write_iff hj,
      ← writeMembers_iff hjs,List.forall_mem_cons]

end

end Write

end MurlSystem.Reference

import MurlSystem.Canonical.Written
import MurlSystem.Canonical.Tokens
import MurlSystem.Core.Manifest
import MurlSystem.Foundation.Utf8

namespace MurlSystem.Serde

open Rfc8259

section Written

mutual

def written : Value → Raw
  | .null => .null
  | .bool b => .bool b
  | .number n => .number n.toString.toList
  | .string s => .string (points s)
  | .array items => .array (writtenItems items)
  | .object members => .object (writtenMembers members)

def writtenItems : List Value → List Raw
  | [] => []
  | v :: rest => written v :: writtenItems rest

def writtenMembers : List (String × Value) → List (List Nat × Raw)
  | [] => []
  | (k,v) :: rest => (points k,written v) :: writtenMembers rest

end

mutual

def numbers : Value → List Number
  | .number n => [n]
  | .array items => numbersItems items
  | .object members => numbersMembers members
  | _ => []

def numbersItems : List Value → List Number
  | [] => []
  | v :: rest => numbers v ++ numbersItems rest

def numbersMembers : List (String × Value) → List Number
  | [] => []
  | (_,v) :: rest => numbers v ++ numbersMembers rest

end

def Integral (v : Value) : Prop := ∀ n ∈ numbers v, n.asI64.isSome ∨ n.asU64.isSome

end Written

section Integers

variable {n : Number} {i : Int}

theorem asI64_some (h : n.asI64 = some i) : n = .int i ∧ -(2 ^ 63) ≤ i ∧ i < 2 ^ 64 := by
  cases n with
  | float text => cases h
  | int j =>
    rw [Number.asI64] at h
    split at h
    · rename_i hj
      obtain rfl := Option.some.inj h
      exact ⟨rfl,hj.1,by omega⟩
    · cases h

theorem asU64_some (h : n.asU64 = some i) : n = .int i ∧ -(2 ^ 63) ≤ i ∧ i < 2 ^ 64 := by
  cases n with
  | float text => cases h
  | int j =>
    rw [Number.asU64] at h
    split at h
    · rename_i hj
      obtain rfl := Option.some.inj h
      exact ⟨rfl,by omega,hj.2⟩
    · cases h

theorem integer_of_some (h : n.asI64.isSome ∨ n.asU64.isSome) : ∃ i, n = .int i := by
  rcases h with h | h
  · obtain ⟨i,hi⟩ := Option.isSome_iff_exists.mp h
    exact ⟨i,(asI64_some hi).1⟩
  · obtain ⟨i,hi⟩ := Option.isSome_iff_exists.mp h
    exact ⟨i,(asU64_some hi).1⟩

theorem writeValue_number {text : String} : writeValue (.number n) = .ok text ↔
    ∃ i, n = .int i ∧ -(2 ^ 63) ≤ i ∧ i < 2 ^ 64 ∧ text = toString i := by
  rw [writeValue]
  constructor
  · intro h
    split at h
    · rename_i i hi
      obtain ⟨rfl,hlo,hhi⟩ := asI64_some hi
      exact ⟨i,rfl,hlo,hhi,(Except.ok.inj h).symm⟩
    · rename_i u _ hu
      obtain ⟨rfl,hlo,hhi⟩ := asU64_some hu
      exact ⟨u,rfl,hlo,hhi,(Except.ok.inj h).symm⟩
    · cases h
  · rintro ⟨i,rfl,hlo,hhi,rfl⟩
    by_cases hi : i < 2 ^ 63
    · have h64 : (Number.int i).asI64 = some i := if_pos ⟨hlo,hi⟩
      rw [h64]
    · have h64 : (Number.int i).asI64 = none := if_neg (by omega)
      have hu64 : (Number.int i).asU64 = some i := if_pos ⟨by omega,hhi⟩
      rw [h64,hu64]

theorem writeValue_integral : (∃ text, writeValue (.number n) = .ok text) ↔
    n.asI64.isSome ∨ n.asU64.isSome := by
  rw [writeValue]
  cases n.asI64 with
  | some i => simp
  | none =>
    cases n.asU64 with
    | some u => simp
    | none => simp

end Integers

section Writing

theorem toList_comma (parts : List String) :
    (",".intercalate parts).toList = [','].intercalate (parts.map String.toList) :=
  String.toList_intercalate

theorem writes_parts {vs : List Raw} {parts : List String}
    (h : List.Forall₂ (fun v part => Writes v part.toList) vs parts) :
    Writes (.array vs) ("[" ++ ",".intercalate parts ++ "]").toList := by
  have hws : List.Forall₂ Writes vs (parts.map String.toList) := by
    rwa [List.forall₂_map_right_iff]
  have hwrites := writes_array blank_nil blank_nil hws
  rw [List.map_id'' List.nil_append] at hwrites
  simpa [toList_comma] using hwrites

theorem writes_fields {ms : List (List Nat × Raw)} {parts : List String}
    (h : List.Forall₂ (fun m part => MemberText [] m part.toList) ms parts) :
    Writes (.object ms) ("\x7b" ++ ",".intercalate parts ++ "\x7d").toList := by
  have hws : List.Forall₂ (MemberText []) ms (parts.map String.toList) := by
    rwa [List.forall₂_map_right_iff]
  have hwrites := writes_object blank_nil blank_nil blank_nil hws
  rw [List.map_id'' List.nil_append] at hwrites
  simpa [toList_comma] using hwrites

theorem writeString_writes (s : String) : Writes (.string (points s)) (writeString s).toList := by
  rw [writeString_toList]
  exact writes_string escapeChar_chars s.toList

theorem writeString_member (k : String) {v : Raw} {text : String} (h : Writes v text.toList) :
    MemberText [] (points k,v) (writeString k ++ ":" ++ text).toList := by
  refine ⟨points k,escaped k,text.toList,(combine_points k).symm,escaped_chars k,h,?_⟩
  rw [String.toList_append,String.toList_append,writeString_toList]
  simp

mutual

theorem written_writes : ∀ {v : Value} {text : String}, writeValue v = .ok text →
    Writes (written v) text.toList
  | .null,text,h => by
    obtain rfl := Except.ok.inj h
    exact .null
  | .bool true,text,h => by
    obtain rfl := Except.ok.inj h
    exact .true
  | .bool false,text,h => by
    obtain rfl := Except.ok.inj h
    exact .false
  | .number n,text,h => by
    obtain ⟨i,rfl,-,-,rfl⟩ := writeValue_number.mp h
    exact .number _ (number_int i)
  | .string s,text,h => by
    obtain rfl := Except.ok.inj h
    exact writeString_writes s
  | .array items,text,h => by
    simp only [writeValue,Fallible.bind_ok,Fallible.pure_ok] at h
    obtain ⟨parts,hparts,rfl⟩ := h
    exact writes_parts (writtenItems_writes hparts)
  | .object members,text,h => by
    simp only [writeValue,Fallible.bind_ok,Fallible.pure_ok] at h
    obtain ⟨parts,hparts,rfl⟩ := h
    exact writes_fields (writtenMembers_writes hparts)

theorem writtenItems_writes : ∀ {items : List Value} {parts : List String},
    writeItems items = .ok parts →
      List.Forall₂ (fun v part => Writes v part.toList) (writtenItems items) parts
  | [],parts,h => by
    obtain rfl := Except.ok.inj h
    exact .nil
  | v :: rest,parts,h => by
    simp only [writeItems,Fallible.bind_ok,Fallible.pure_ok] at h
    obtain ⟨text,hv,parts',hrest,rfl⟩ := h
    exact .cons (written_writes hv) (writtenItems_writes hrest)

theorem writtenMembers_writes : ∀ {members : List (String × Value)} {parts : List String},
    writeMembers members = .ok parts →
      List.Forall₂ (fun m part => MemberText [] m part.toList) (writtenMembers members) parts
  | [],parts,h => by
    obtain rfl := Except.ok.inj h
    exact .nil
  | (k,v) :: rest,parts,h => by
    simp only [writeMembers,Fallible.bind_ok,Fallible.pure_ok] at h
    obtain ⟨text,hv,parts',hrest,rfl⟩ := h
    exact .cons (writeString_member k (written_writes hv)) (writtenMembers_writes hrest)

end

end Writing

section Integral

mutual

theorem writeValue_iff : ∀ v : Value, (∃ text, writeValue v = .ok text) ↔ Integral v
  | .null => by simp [writeValue,Integral,numbers]
  | .bool true => by simp [writeValue,Integral,numbers]
  | .bool false => by simp [writeValue,Integral,numbers]
  | .number n => by simp [writeValue_integral,Integral,numbers]
  | .string s => by simp [writeValue,Integral,numbers]
  | .array items => by
    have hitems := writeItems_iff items
    simp only [writeValue,Fallible.bind_ok,Fallible.pure_ok,Integral,numbers]
    rw [← hitems]
    exact ⟨fun ⟨_,parts,h,_⟩ => ⟨parts,h⟩,fun ⟨parts,h⟩ => ⟨_,parts,h,rfl⟩⟩
  | .object members => by
    have hmembers := writeMembers_iff members
    simp only [writeValue,Fallible.bind_ok,Fallible.pure_ok,Integral,numbers]
    rw [← hmembers]
    exact ⟨fun ⟨_,parts,h,_⟩ => ⟨parts,h⟩,fun ⟨parts,h⟩ => ⟨_,parts,h,rfl⟩⟩

theorem writeItems_iff : ∀ items : List Value, (∃ parts, writeItems items = .ok parts) ↔
    ∀ n ∈ numbersItems items, n.asI64.isSome ∨ n.asU64.isSome
  | [] => by simp [writeItems,numbersItems]
  | v :: rest => by
    have hv := writeValue_iff v
    have hrest := writeItems_iff rest
    simp only [writeItems,Fallible.bind_ok,Fallible.pure_ok,numbersItems,List.forall_mem_append]
    rw [← hrest]
    change _ ↔ Integral v ∧ _
    rw [← hv]
    exact ⟨fun ⟨_,text,h,parts,h',_⟩ => ⟨⟨text,h⟩,parts,h'⟩,
      fun ⟨⟨text,h⟩,parts,h'⟩ => ⟨_,text,h,parts,h',rfl⟩⟩

theorem writeMembers_iff : ∀ members : List (String × Value),
    (∃ parts, writeMembers members = .ok parts) ↔
      ∀ n ∈ numbersMembers members, n.asI64.isSome ∨ n.asU64.isSome
  | [] => by simp [writeMembers,numbersMembers]
  | (k,v) :: rest => by
    have hv := writeValue_iff v
    have hrest := writeMembers_iff rest
    simp only [writeMembers,Fallible.bind_ok,Fallible.pure_ok,numbersMembers,
      List.forall_mem_append]
    rw [← hrest]
    change _ ↔ Integral v ∧ _
    rw [← hv]
    exact ⟨fun ⟨_,text,h,parts,h',_⟩ => ⟨⟨text,h⟩,parts,h'⟩,
      fun ⟨⟨text,h⟩,parts,h'⟩ => ⟨_,text,h,parts,h',rfl⟩⟩

end

mutual

theorem walkNumbers_iff : ∀ (v : Value) (path : String),
    (walkNumbers path v).errors = [] ↔ Integral v
  | .null,path => by simp [walkNumbers,Integral,numbers]
  | .bool b,path => by simp [walkNumbers,Integral,numbers]
  | .number n,path => by
    simp only [walkNumbers,Integral,numbers,List.forall_mem_singleton,
      ValidationReport.when_errors_nil,ValidationReport.error_errors]
    cases n.asI64 <;> cases n.asU64 <;> simp
  | .string s,path => by simp [walkNumbers,Integral,numbers]
  | .array items,path => by
    simp only [walkNumbers,Integral,numbers]
    exact walkItems_iff items path 0
  | .object members,path => by
    simp only [walkNumbers,Integral,numbers]
    exact walkMembers_iff members path

theorem walkItems_iff : ∀ (items : List Value) (path : String) (i : Nat),
    (walkItems path i items).errors = [] ↔
      ∀ n ∈ numbersItems items, n.asI64.isSome ∨ n.asU64.isSome
  | [],path,i => by simp [walkItems,numbersItems]
  | v :: rest,path,i => by
    simp only [walkItems,numbersItems,ValidationReport.append_errors,List.append_eq_nil_iff,
      List.forall_mem_append]
    exact and_congr (walkNumbers_iff v _) (walkItems_iff rest path (i + 1))

theorem walkMembers_iff : ∀ (members : List (String × Value)) (path : String),
    (walkMembers path members).errors = [] ↔
      ∀ n ∈ numbersMembers members, n.asI64.isSome ∨ n.asU64.isSome
  | [],path => by simp [walkMembers,numbersMembers]
  | (k,v) :: rest,path => by
    simp only [walkMembers,numbersMembers,ValidationReport.append_errors,List.append_eq_nil_iff,
      List.forall_mem_append]
    exact and_congr (walkNumbers_iff v _) (walkMembers_iff rest path)

end

end Integral

section ReadBack

variable {f64 : List Char → Option String} {d : Nat}

theorem integral_items {items : List Value} (h : ∀ n ∈ numbersItems items,
    n.asI64.isSome ∨ n.asU64.isSome) : ∀ v ∈ items, Integral v := by
  induction items with
  | nil => simp
  | cons v rest ih =>
    simp only [numbersItems,List.forall_mem_append] at h
    exact List.forall_mem_cons.mpr ⟨h.1,ih h.2⟩

theorem integral_members {members : List (String × Value)} (h : ∀ n ∈ numbersMembers members,
    n.asI64.isSome ∨ n.asU64.isSome) : ∀ m ∈ members, Integral m.2 := by
  induction members with
  | nil => simp
  | cons m rest ih =>
    obtain ⟨k,v⟩ := m
    simp only [numbersMembers,List.forall_mem_append] at h
    exact List.forall_mem_cons.mpr ⟨h.1,ih h.2⟩

theorem treeItems_written {items : List Value} (h : ∀ v ∈ items, tree f64 (written v) = some v) :
    treeItems f64 (writtenItems items) = some items := by
  induction items with
  | nil => rfl
  | cons v rest ih =>
    obtain ⟨hv,hrest⟩ := List.forall_mem_cons.mp h
    simp [writtenItems,treeItems,hv,ih hrest]

theorem treeMembers_written {members : List (String × Value)}
    (h : ∀ m ∈ members, tree f64 (written m.2) = some m.2) :
    treeMembers f64 (writtenMembers members) = some members := by
  induction members with
  | nil => rfl
  | cons m rest ih =>
    obtain ⟨k,v⟩ := m
    obtain ⟨hv,hrest⟩ := List.forall_mem_cons.mp h
    simp [writtenMembers,treeMembers,hv,ih hrest,scalarString_points]

theorem tree_written {v : Value} (hv : Token d v) (hint : Integral v) :
    tree f64 (written v) = some v := by
  induction hv with
  | null => rfl
  | bool => rfl
  | int _ i least most =>
    simp only [written,tree,Option.map_eq_some_iff]
    exact ⟨.int i,number_toString least most,rfl⟩
  | float _ text =>
    have hnone := hint (.float text) (by simp [numbers])
    simp [Number.asI64,Number.asU64] at hnone
  | string _ s => simp [written,tree,scalarString_points]
  | array d items _ ih =>
    have hitems := integral_items hint
    simp only [written,tree,Option.map_eq_some_iff]
    exact ⟨items,treeItems_written fun v hv => ih v hv (hitems v hv),rfl⟩
  | object d members _ ih =>
    have hmembers := integral_members hint
    simp only [written,tree,Option.map_eq_some_iff]
    exact ⟨members,treeMembers_written fun m hm => ih m hm (hmembers m hm),rfl⟩

theorem depthItems_written {items : List Value} (h : ∀ v ∈ items, depth (written v) ≤ d) :
    depthItems (writtenItems items) ≤ d := by
  induction items with
  | nil => simp [writtenItems,depthItems]
  | cons v rest ih =>
    obtain ⟨hv,hrest⟩ := List.forall_mem_cons.mp h
    exact Nat.max_le.mpr ⟨hv,ih hrest⟩

theorem depthMembers_written {members : List (String × Value)}
    (h : ∀ m ∈ members, depth (written m.2) ≤ d) : depthMembers (writtenMembers members) ≤ d := by
  induction members with
  | nil => simp [writtenMembers,depthMembers]
  | cons m rest ih =>
    obtain ⟨hv,hrest⟩ := List.forall_mem_cons.mp h
    exact Nat.max_le.mpr ⟨hv,ih hrest⟩

theorem depth_written {v : Value} (hv : Token d v) : depth (written v) ≤ d := by
  induction hv with
  | null => simp [written,depth]
  | bool => simp [written,depth]
  | int => simp [written,depth]
  | float => simp [written,depth]
  | string => simp [written,depth]
  | array d items _ ih =>
    rw [written,depth]
    exact Nat.succ_le_succ (depthItems_written ih)
  | object d members _ ih =>
    rw [written,depth]
    exact Nat.succ_le_succ (depthMembers_written ih)

theorem document_bytes {text : String} {raw : Raw} (h : Writes raw text.toList) :
    document (Text.bytes text) = some raw := by
  have hread : read text.toList = some raw :=
    read_complete ⟨[],text.toList,[],by simp,blank_nil,h,blank_nil⟩
  rw [document,Text.fromUTF8_eq_some.mpr rfl]
  exact hread

theorem readTokens_written {v : Value} {b : Bytes} (hv : Token maxNesting v)
    (h : canonicalJsonBytes v = .ok b) : readTokens f64 b = some v := by
  obtain ⟨text,htext,rfl⟩ := Fallible.map_ok.mp h
  have hint := (writeValue_iff v).mp ⟨text,htext⟩
  have hdepth : ¬maxNesting < depth (written v) := Nat.not_lt.mpr (depth_written hv)
  rw [readTokens,document_bytes (written_writes htext)]
  simp [hdepth,tree_written hv hint]

end ReadBack

section Canonical

mutual

def objects : Value → List (List (String × Value))
  | .array items => objectsItems items
  | .object members => members :: objectsMembers members
  | _ => []

def objectsItems : List Value → List (List (String × Value))
  | [] => []
  | v :: rest => objects v ++ objectsItems rest

def objectsMembers : List (String × Value) → List (List (String × Value))
  | [] => []
  | (_,v) :: rest => objects v ++ objectsMembers rest

end

def Ascending (v : Value) : Prop := ∀ ms ∈ objects v, ms.Pairwise fun a b => a.1 < b.1

theorem mem_objectsItems {items : List Value} {ms : List (String × Value)}
    (h : ms ∈ objectsItems items) : ∃ v ∈ items, ms ∈ objects v := by
  induction items with
  | nil => cases h
  | cons v rest ih =>
    rcases List.mem_append.mp h with h | h
    · exact ⟨v,by simp,h⟩
    · obtain ⟨w,hw,hms⟩ := ih h
      exact ⟨w,by simp [hw],hms⟩

theorem mem_objectsMembers {members ms : List (String × Value)} (h : ms ∈ objectsMembers members) :
    ∃ m ∈ members, ms ∈ objects m.2 := by
  induction members with
  | nil => cases h
  | cons m rest ih =>
    obtain ⟨k,v⟩ := m
    rcases List.mem_append.mp h with h | h
    · exact ⟨(k,v),by simp,h⟩
    · obtain ⟨w,hw,hms⟩ := ih h
      exact ⟨w,by simp [hw],hms⟩

theorem kept_ascending {d : Nat} {v : Value} (h : Kept d v) : Ascending v := by
  induction h with
  | null => simp [Ascending,objects]
  | bool => simp [Ascending,objects]
  | int => simp [Ascending,objects]
  | float => simp [Ascending,objects]
  | string => simp [Ascending,objects]
  | array d items _ ih =>
    intro ms hms
    obtain ⟨v,hv,hms⟩ := mem_objectsItems hms
    exact ih v hv ms hms
  | object d members _ ascending ih =>
    intro ms hms
    rcases List.mem_cons.mp hms with rfl | hms
    · exact ascending
    · obtain ⟨m,hm,hms⟩ := mem_objectsMembers hms
      exact ih m hm ms hms

variable {crates : Crates} {f64 : List Char → Option String}

-- What `serde_json` is taken to do: read the document's tokens.
def Tokenises (crates : Crates) (f64 : List Char → Option String) : Prop :=
  ∀ b v, crates.serdeJson b = .ok v ↔ readTokens f64 b = some v

theorem fromSliceStrict_kept (h : Tokenises crates f64) {b : Bytes} {v : Value}
    (hb : fromSliceStrict crates b = .ok v) : Kept maxNesting v := by
  simp only [fromSliceStrict,Fallible.bind_ok] at hb
  obtain ⟨tokens,htokens,hv⟩ := hb
  exact noDup_kept (readTokens_token ((h b tokens).mp htokens)) hv

structure Lossless (crates : Crates) (v : Value) (b : Bytes) : Prop where
  reads : fromSliceStrict crates b = .ok v
  again : ∀ w, fromSliceStrict crates b = .ok w → canonicalJsonBytes w = .ok b
  ascending : ∃ tokens, crates.serdeJson b = .ok tokens ∧ Ascending tokens

theorem kept_lossless (h : Tokenises crates f64) {v : Value} (hv : Kept maxNesting v) {b : Bytes}
    (hb : canonicalJsonBytes v = .ok b) : Lossless crates v b := by
  have htokens : crates.serdeJson b = .ok v := (h b v).mpr (readTokens_written (kept_token hv) hb)
  have hreads : fromSliceStrict crates b = .ok v := by
    simp only [fromSliceStrict,Fallible.bind_ok]
    exact ⟨v,htokens,noDup_self hv⟩
  refine ⟨hreads,fun w hw => ?_,v,htokens,kept_ascending hv⟩
  obtain rfl : v = w := Except.ok.inj (hreads.symm.trans hw)
  exact hb

theorem canonicalJsonBytes_iff (v : Value) : (∃ b, canonicalJsonBytes v = .ok b) ↔ Integral v := by
  rw [← writeValue_iff v]
  simp only [canonicalJsonBytes,Fallible.map_ok]
  constructor
  · rintro ⟨_,text,h,-⟩
    exact ⟨text,h⟩
  · rintro ⟨text,h⟩
    exact ⟨_,text,h,rfl⟩

theorem canonical_lossless (crates : Crates) (f64 : List Char → Option String)
    (serde : Tokenises crates f64) :
    (∀ source v, fromSliceStrict crates source = .ok v →
      (∀ b, canonicalJsonBytes v = .ok b → Lossless crates v b) ∧
      ((∃ b, canonicalJsonBytes v = .ok b) ↔
        ∀ n ∈ numbers v, n.asI64.isSome ∨ n.asU64.isSome) ∧
      ((∃ b, canonicalJsonBytes v = .ok b) ↔ (walkNumbers "" v).errors = [])) ∧
    ∀ source source' v v' b, fromSliceStrict crates source = .ok v →
      fromSliceStrict crates source' = .ok v' → canonicalJsonBytes v = .ok b →
        canonicalJsonBytes v' = .ok b → v = v' := by
  constructor
  · intro source v hv
    have hkept := fromSliceStrict_kept serde hv
    exact ⟨fun b hb => kept_lossless serde hkept hb,canonicalJsonBytes_iff v,
      (canonicalJsonBytes_iff v).trans (walkNumbers_iff v "").symm⟩
  · intro source source' v v' b hv hv' hb hb'
    have hreads := (kept_lossless serde (fromSliceStrict_kept serde hv) hb).reads
    have hreads' := (kept_lossless serde (fromSliceStrict_kept serde hv') hb').reads
    exact Except.ok.inj (hreads.symm.trans hreads')

def tokenising (f64 : List Char → Option String) (crates : Crates) : Crates :=
  { crates with
    serdeJson := fun b =>
      match readTokens f64 b with
      | some v => .ok v
      | none => .error "expected a JSON document" }

theorem tokenising_tokenises (f64 : List Char → Option String) (crates : Crates) :
    Tokenises (tokenising f64 crates) f64 := by
  intro b v
  change (match readTokens f64 b with | some v => Except.ok v | none => .error _) = _ ↔ _
  cases readTokens f64 b <;> simp

def bareCrates : Crates where
  serdeJson _ := .error "EOF while parsing a value"
  parseF64 _ := none
  sha256 _ := []
  base64Encode _ := ""
  base64Decode _ := .error "Invalid padding"
  verifyingKey _ := .error "Cannot decompress Edwards point"
  ed25519Verify _ _ _ := false

def shown (w : List Char) : Option String := some (String.ofList w)

def unsorted : Value :=
  .object [("b",.array [.number (.int (-1)),.number (.int 18446744073709551615)]),("a",.string "é\n")]

theorem unsorted_token : Token maxNesting unsorted :=
  .object 126 _ (List.forall_mem_cons.mpr ⟨.array 125 _ (List.forall_mem_cons.mpr
    ⟨.int 125 _ (by decide) (by decide),List.forall_mem_singleton.mpr
      (.int 125 _ (by decide) (by decide))⟩),List.forall_mem_singleton.mpr (.string 126 _)⟩)

def sorted : Value :=
  .object [("a",.string "é\n"),("b",.array [.number (.int (-1)),.number (.int 18446744073709551615)])]

theorem unsorted_text : canonicalJsonBytes unsorted =
    .ok (Text.bytes "\x7b\"b\":[-1,18446744073709551615],\"a\":\"é\\n\"\x7d") := by
  refine Fallible.map_ok.mpr ⟨_,?_,rfl⟩
  decide +kernel

theorem sorted_text : canonicalJsonBytes sorted =
    .ok (Text.bytes "\x7b\"a\":\"é\\n\",\"b\":[-1,18446744073709551615]\x7d") := by
  refine Fallible.map_ok.mpr ⟨_,?_,rfl⟩
  decide +kernel

theorem canonical_lossless_unsorted : Lossless (tokenising shown bareCrates) sorted
    (Text.bytes "\x7b\"a\":\"é\\n\",\"b\":[-1,18446744073709551615]\x7d") := by
  have serde := tokenising_tokenises shown bareCrates
  have hsource : fromSliceStrict (tokenising shown bareCrates)
      (Text.bytes "\x7b\"b\":[-1,18446744073709551615],\"a\":\"é\\n\"\x7d") = .ok sorted := by
    rw [fromSliceStrict,(serde _ unsorted).mpr (readTokens_written unsorted_token unsorted_text)]
    rfl
  exact ((canonical_lossless (tokenising shown bareCrates) shown serde).1 _ sorted hsource).1 _
    sorted_text

end Canonical

end MurlSystem.Serde

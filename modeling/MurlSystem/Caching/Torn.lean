import MurlSystem.Bundling.Printed
import MurlSystem.Core.Cache

namespace MurlSystem

open Rfc8259

section Prefixes

theorem bytes_prefix {s t : String} {b : Bytes} (h : Text.bytes s ++ b = Text.bytes t) :
    ∃ rest, t.toList = s.toList ++ rest := by
  have hencode : s.toList.utf8Encode ++ ⟨b.toArray⟩ = t.toList.utf8Encode := by
    rw [String.utf8Encode_toList,String.utf8Encode_toList]
    rw [Text.bytes_eq,Text.bytes_eq] at h
    apply ByteArray.ext
    apply Array.toList_inj.mp
    simpa using h
  obtain ⟨rest,hrest⟩ := List.isPrefix_of_utf8Encode_append_eq_utf8Encode _ hencode
  exact ⟨rest,hrest.symm⟩

theorem value_of_object {ms : List (List Nat × Raw)} {w : List Char} (h : Writes (.object ms) w)
    (rest : List Char) {n : Nat} (hn : 2 * w.length ≤ n + 1) :
    value (n + 1) (w ++ rest) = some (.object ms,rest) := by
  cases h with
  | emptyObject blank ok =>
    simp only [List.cons_append,List.append_assoc,List.nil_append]
    rw [value.eq_7,skip_cons ok (by decide)]
    rfl
  | object ms w each =>
    simp only [List.cons_append,List.append_assoc,List.nil_append]
    obtain ⟨t,hs⟩ := members_head each ('}' :: rest)
    simp only [List.length_cons,List.length_append,List.length_nil] at hn
    have hmembers := (complete n).members each rest (by omega)
    rw [value_object n _ hs (by decide),← hs,hmembers]
    rfl

theorem brace_object {v : Raw} {w s rest : List Char} (h : Writes v w)
    (hw : w ++ rest = '{' :: s) : ∃ ms, v = .object ms := by
  cases h with
  | null => cases hw
  | true => cases hw
  | false => cases hw
  | number _ rule =>
    obtain ⟨u,rfl | rfl,hu⟩ := number_cases.mp rule
    · obtain ⟨c,t,rfl,hc⟩ := unsigned_head hu
      obtain ⟨rfl,-⟩ := List.cons.inj hw
      exact absurd hc (by decide)
    · exact absurd (List.cons.inj hw).1 (by decide)
  | string => exact absurd (List.cons.inj hw).1 (by decide)
  | emptyArray => exact absurd (List.cons.inj hw).1 (by decide)
  | array => exact absurd (List.cons.inj hw).1 (by decide)
  | emptyObject => exact ⟨[],rfl⟩
  | object ms => exact ⟨ms,rfl⟩

theorem object_lead {ms : List (List Nat × Raw)} {w : List Char} (h : Writes (.object ms) w) :
    ∃ t, w = '{' :: t := by
  cases h with
  | emptyObject => exact ⟨_,rfl⟩
  | object => exact ⟨_,rfl⟩

theorem object_whole {ms : List (List Nat × Raw)} {v : Raw} {w s rest : List Char}
    (hw : Writes (.object ms) w) (hs : Rfc8259.Text s v) (hcut : w = s ++ rest) : rest = [] := by
  obtain ⟨a,u,b,rfl,ha,hu,-⟩ := hs
  obtain ⟨t,ht⟩ := object_lead hw
  cases a with
  | cons x a =>
    rw [ht] at hcut
    obtain ⟨rfl,-⟩ := List.cons.inj hcut
    exact absurd (ha '{' (by simp)) (by decide)
  | nil =>
    rw [List.nil_append,List.append_assoc] at hcut
    obtain ⟨ms',rfl⟩ := brace_object hu (hcut.symm.trans ht)
    have hlen : u.length ≤ w.length := by
      rw [hcut,List.length_append]
      exact Nat.le_add_right _ _
    have hwhole := value_of_object hw [] (n := 2 * w.length) (by omega)
    have hpart := value_of_object hu (b ++ rest) (n := 2 * w.length) (by omega)
    rw [List.append_nil] at hwhole
    rw [← hcut,hwhole] at hpart
    have hnil : b ++ rest = [] := (Prod.mk.inj (Option.some.inj hpart)).2.symm
    exact (List.append_eq_nil_iff.mp hnil).2

theorem document_text {b : Bytes} {raw : Raw} (h : Serde.document b = some raw) :
    ∃ text, Text.bytes text = b ∧ Rfc8259.Text text.toList raw := by
  simp only [Serde.document,Option.bind_eq_bind,Option.bind_eq_some_iff] at h
  obtain ⟨text,htext,hread⟩ := h
  exact ⟨text,Text.fromUTF8_eq_some.mp htext,read_sound hread⟩

theorem pretty_whole {f64 : List Char → Option String} {members : List (String × Value)}
    (hw : Writes (Serde.written (.object members)) (pretty 0 (.object members)).toList) {n : Nat}
    {v : Value}
    (hread : Serde.readTokens f64 ((Text.bytes (pretty 0 (.object members))).take n) = some v) :
    (Text.bytes (pretty 0 (.object members))).take n = Text.bytes (pretty 0 (.object members)) := by
  simp only [Serde.readTokens,Option.bind_eq_bind,Option.bind_eq_some_iff] at hread
  obtain ⟨raw,hraw,-⟩ := hread
  obtain ⟨text,htext,hdoc⟩ := document_text hraw
  have hsplit : Text.bytes text ++ (Text.bytes (pretty 0 (.object members))).drop n =
      Text.bytes (pretty 0 (.object members)) := by
    rw [htext]
    exact List.take_append_drop n _
  obtain ⟨rest,hrest⟩ := bytes_prefix hsplit
  have hnil : rest = [] := object_whole hw hdoc hrest
  have hwhole : text = pretty 0 (.object members) := by
    apply String.toList_inj.mp
    rw [hrest,hnil,List.append_nil]
  rw [← htext,hwhole]

end Prefixes

section Sidecar

def CacheMeta.toValue (info : CacheMeta) : Value :=
  .object [("identity",.string info.identity),("url",.string info.url),
    ("fetchedAt",.number (.int info.fetchedAt)),("sha256",.string info.sha256)]

def CacheMeta.toBytes (info : CacheMeta) : Bytes := Text.bytes (pretty 0 info.toValue)

def cacheMembers : List String := ["identity","url","fetchedAt","sha256"]

def readU64 : Value → Except String Nat
  | .number n =>
    match n.asU64 with
    | some i => .ok i.toNat
    | none => .error "invalid value, expected u64"
  | _ => .error "invalid type, expected u64"

def uniqueFields (names : List String) (v : Value) : Except String Unit :=
  match v with
  | .object members => names.forM fun name =>
    if 1 < members.countP fun m => m.1 == name then .error s!"duplicate field `{name}`" else .ok ()
  | _ => .ok ()

def CacheMeta.fromValue (v : Value) : Except String CacheMeta := do
  uniqueFields cacheMembers v
  let field ← structFields cacheMembers v
  let identity ← requiredField field readString "identity"
  let url ← requiredField field readString "url"
  let fetchedAt ← requiredField field readU64 "fetchedAt"
  let sha256 ← requiredField field readString "sha256"
  return ⟨identity,url,fetchedAt,sha256⟩

def CacheMeta.fromSlice (crates : Crates) (b : Bytes) : Except String CacheMeta := do
  let v ← crates.serdeJson b
  CacheMeta.fromValue v

variable {crates : Crates} {f64 : List Char → Option String} {info : CacheMeta}

theorem CacheMeta.token (h : info.fetchedAt < 2 ^ 64) : Serde.Token Serde.maxNesting info.toValue := by
  refine .object 126 _ fun m hm => ?_
  simp only [List.mem_cons,List.not_mem_nil,or_false] at hm
  rcases hm with rfl | rfl | rfl | rfl
  · exact .string _ _
  · exact .string _ _
  · exact .int _ _ (by omega) (by omega)
  · exact .string _ _

theorem CacheMeta.numbers (info : CacheMeta) :
    Serde.numbers info.toValue = [.int info.fetchedAt] := by
  simp [CacheMeta.toValue,Serde.numbers,Serde.numbersMembers]

theorem CacheMeta.writes (info : CacheMeta) :
    Writes (Serde.written info.toValue) (pretty 0 info.toValue).toList := by
  refine pretty_writes info.toValue 0 fun n hn => ?_
  rw [CacheMeta.numbers] at hn
  exact ⟨_,List.mem_singleton.mp hn⟩

theorem asU64_int {n : Nat} (h : n < 2 ^ 64) : (Number.int n).asU64 = some (n : Int) := by
  have hlt : (n : Int) < 2 ^ 64 := by exact_mod_cast h
  rw [Number.asU64,if_pos ⟨Int.natCast_nonneg n,hlt⟩]

theorem readU64_shown {n : Number} {i : Int} (h : n.asU64 = some i) :
    readU64 (.number n) = .ok i.toNat := by
  simp only [readU64,h]

def sidecar (identity url : String) (fetchedAt : Number) (sha256 : String) : Value :=
  .object [("identity",.string identity),("url",.string url),("fetchedAt",.number fetchedAt),
    ("sha256",.string sha256)]

theorem fromValue_sidecar (identity url sha256 : String) {n : Number} {i : Int}
    (h : n.asU64 = some i) :
    CacheMeta.fromValue (sidecar identity url n sha256) = .ok ⟨identity,url,i.toNat,sha256⟩ := by
  have hfetched := readU64_shown h
  simp only [CacheMeta.fromValue,Fallible.bind_ok,Fallible.pure_ok]
  exact ⟨_,rfl,_,rfl,identity,rfl,url,rfl,i.toNat,hfetched,sha256,rfl,rfl⟩

theorem CacheMeta.fromValue_toValue (h : info.fetchedAt < 2 ^ 64) :
    CacheMeta.fromValue info.toValue = .ok info :=
  fromValue_sidecar info.identity info.url info.sha256 (asU64_int h)

theorem CacheMeta.integral (h : info.fetchedAt < 2 ^ 64) : Serde.Integral info.toValue := by
  intro n hn
  rw [CacheMeta.numbers] at hn
  obtain rfl := List.mem_singleton.mp hn
  rw [asU64_int h]
  exact .inr rfl

theorem CacheMeta.tokens (h : info.fetchedAt < 2 ^ 64) :
    Serde.readTokens f64 info.toBytes = some info.toValue := by
  have htext : pretty 0 info.toValue ++ "" = pretty 0 info.toValue := String.append_empty
  have hread := @pretty_tokens f64 _ "" blank_nil (CacheMeta.token h) (CacheMeta.integral h)
  rwa [htext] at hread

theorem CacheMeta.reads (serde : Serde.Tokenises crates f64) (h : info.fetchedAt < 2 ^ 64) :
    CacheMeta.fromSlice crates info.toBytes = .ok info := by
  rw [CacheMeta.fromSlice,Fallible.bind_ok]
  exact ⟨info.toValue,(serde _ _).mpr (CacheMeta.tokens h),CacheMeta.fromValue_toValue h⟩

theorem CacheMeta.whole (serde : Serde.Tokenises crates f64) {n : Nat} {info' : CacheMeta}
    (hread : CacheMeta.fromSlice crates (info.toBytes.take n) = .ok info') :
    info.toBytes.take n = info.toBytes := by
  obtain ⟨v,hv,-⟩ := Fallible.bind_ok.mp hread
  exact pretty_whole info.writes ((serde _ _).mp hv)

theorem CacheMeta.cut (serde : Serde.Tokenises crates f64) (h : info.fetchedAt < 2 ^ 64) {n : Nat}
    {info' : CacheMeta} (hread : CacheMeta.fromSlice crates (info.toBytes.take n) = .ok info') :
    info' = info := by
  rw [CacheMeta.whole serde hread,CacheMeta.reads serde h] at hread
  exact (Except.ok.inj hread).symm

end Sidecar

end MurlSystem

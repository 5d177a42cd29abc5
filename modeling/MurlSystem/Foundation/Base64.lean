import Mathlib.Algebra.Group.Nat.Defs
import Mathlib.Data.List.Basic

namespace Base64

def sextet (n : Nat) : Char :=
  if n < 26 then Char.ofNat (n + 65)
  else if n < 52 then Char.ofNat (n + 71)
  else if n < 62 then Char.ofNat (n - 4)
  else if n = 62 then '+'
  else '/'

def value (c : Char) : Option Nat :=
  if 'A' ≤ c && c ≤ 'Z' then some (c.toNat - 65)
  else if 'a' ≤ c && c ≤ 'z' then some (c.toNat - 71)
  else if '0' ≤ c && c ≤ '9' then some (c.toNat + 4)
  else if c == '+' then some 62
  else if c == '/' then some 63
  else none

def encode : List UInt8 → List Char
  | [] => []
  | [a] => [sextet (a.toNat / 4),sextet (a.toNat % 4 * 16),'=','=']
  | [a,b] =>
    [sextet (a.toNat / 4),sextet (a.toNat % 4 * 16 + b.toNat / 16),sextet (b.toNat % 16 * 4),'=']
  | a :: b :: c :: rest =>
    sextet (a.toNat / 4) :: sextet (a.toNat % 4 * 16 + b.toNat / 16) ::
      sextet (b.toNat % 16 * 4 + c.toNat / 64) :: sextet (c.toNat % 64) :: encode rest

def decode : List Char → Option (List UInt8)
  | [] => some []
  | [w,x,'=','='] => do
    let w ← value w
    let x ← value x
    if x % 16 = 0 then return [UInt8.ofNat (w * 4 + x / 16)] else none
  | [w,x,y,'='] => do
    let w ← value w
    let x ← value x
    let y ← value y
    if y % 4 = 0 then return [UInt8.ofNat (w * 4 + x / 16),UInt8.ofNat (x % 16 * 16 + y / 4)]
    else none
  | w :: x :: y :: z :: rest => do
    let w ← value w
    let x ← value x
    let y ← value y
    let z ← value z
    let rest ← decode rest
    return UInt8.ofNat (w * 4 + x / 16) :: UInt8.ofNat (x % 16 * 16 + y / 4) ::
      UInt8.ofNat (y % 4 * 64 + z) :: rest
  | _ => none

theorem value_sextet : ∀ n < 64, value (sextet n) = some n := by decide

theorem sextet_pad : ∀ n < 64, sextet n ≠ '=' := by decide

theorem ofNat_eq {a : UInt8} {n : Nat} (h : n = a.toNat) : UInt8.ofNat n = a := by
  rw [h,UInt8.ofNat_toNat]

theorem decode_encode (b : List UInt8) : decode (encode b) = some b := by
  fun_induction encode b with
  | case1 => rfl
  | case2 a =>
    have ha : a.toNat < 256 := a.toNat_lt_size
    rw [decode,value_sextet _ (by omega),value_sextet _ (by omega)]
    have hzero : a.toNat % 4 * 16 % 16 = 0 := by omega
    simp only [Option.bind_eq_bind,Option.bind_some,hzero,if_true,Option.pure_def]
    rw [ofNat_eq (a := a) (by omega)]
  | case3 a b =>
    have ha : a.toNat < 256 := a.toNat_lt_size
    have hb : b.toNat < 256 := b.toNat_lt_size
    have hpad := sextet_pad (b.toNat % 16 * 4) (by omega)
    rw [decode,value_sextet _ (by omega),value_sextet _ (by omega),value_sextet _ (by omega)]
    · have hzero : b.toNat % 16 * 4 % 4 = 0 := by omega
      simp only [Option.bind_eq_bind,Option.bind_some,hzero,if_true,Option.pure_def]
      rw [ofNat_eq (a := a) (by omega),ofNat_eq (a := b) (by omega)]
    · exact hpad
  | case4 a b c rest ih =>
    have ha : a.toNat < 256 := a.toNat_lt_size
    have hb : b.toNat < 256 := b.toNat_lt_size
    have hc : c.toNat < 256 := c.toNat_lt_size
    have hpad := sextet_pad (c.toNat % 64) (by omega)
    rw [decode,value_sextet _ (by omega),value_sextet _ (by omega),value_sextet _ (by omega),
      value_sextet _ (by omega),ih]
    · simp only [Option.bind_eq_bind,Option.bind_some,Option.pure_def]
      rw [ofNat_eq (a := a) (by omega),ofNat_eq (a := b) (by omega),ofNat_eq (a := c) (by omega)]
    · intro _ hz
      exact absurd hz hpad
    · intro hz
      exact absurd hz hpad

theorem length_encode (b : List UInt8) : (encode b).length = (b.length + 2) / 3 * 4 := by
  fun_induction encode b with
  | case1 => rfl
  | case2 a => simp
  | case3 a b => simp
  | case4 a b c rest ih =>
    simp only [List.length_cons,ih]
    omega

theorem encode_chars {b : List UInt8} {x : Char} (h : x ∈ encode b) :
    x = '=' ∨ ∃ n < 64, x = sextet n := by
  fun_induction encode b with
  | case1 => cases h
  | case2 a =>
    have ha : a.toNat < 256 := a.toNat_lt_size
    simp only [List.mem_cons,List.not_mem_nil,or_false,or_self] at h
    rcases h with rfl | rfl | rfl
    · exact .inr ⟨_,by omega,rfl⟩
    · exact .inr ⟨_,by omega,rfl⟩
    · exact .inl rfl
  | case3 a b =>
    have ha : a.toNat < 256 := a.toNat_lt_size
    have hb : b.toNat < 256 := b.toNat_lt_size
    simp only [List.mem_cons,List.not_mem_nil,or_false] at h
    rcases h with rfl | rfl | rfl | rfl
    · exact .inr ⟨_,by omega,rfl⟩
    · exact .inr ⟨_,by omega,rfl⟩
    · exact .inr ⟨_,by omega,rfl⟩
    · exact .inl rfl
  | case4 a b c rest ih =>
    have ha : a.toNat < 256 := a.toNat_lt_size
    have hb : b.toNat < 256 := b.toNat_lt_size
    have hc : c.toNat < 256 := c.toNat_lt_size
    simp only [List.mem_cons] at h
    rcases h with rfl | rfl | rfl | rfl | h
    · exact .inr ⟨_,by omega,rfl⟩
    · exact .inr ⟨_,by omega,rfl⟩
    · exact .inr ⟨_,by omega,rfl⟩
    · exact .inr ⟨_,by omega,rfl⟩
    · exact ih h

theorem le_iff {c d : Char} : c ≤ d ↔ c.toNat ≤ d.toNat := UInt32.le_iff_toNat_le

theorem sextet_value {c : Char} {n : Nat} (h : value c = some n) : n < 64 ∧ sextet n = c := by
  have hA : 'A'.toNat = 65 := rfl
  have hZ : 'Z'.toNat = 90 := rfl
  have ha : 'a'.toNat = 97 := rfl
  have hz : 'z'.toNat = 122 := rfl
  have h0 : '0'.toNat = 48 := rfl
  have h9 : '9'.toNat = 57 := rfl
  simp only [value,Bool.and_eq_true,decide_eq_true_eq,le_iff,hA,hZ,ha,hz,h0,h9,beq_iff_eq] at h
  unfold sextet
  split at h
  · obtain rfl := Option.some_inj.mp h
    rw [if_pos (by omega),Nat.sub_add_cancel (by omega),Char.ofNat_toNat]
    exact ⟨by omega,rfl⟩
  · split at h
    · obtain rfl := Option.some_inj.mp h
      rw [if_neg (by omega),if_pos (by omega),Nat.sub_add_cancel (by omega),Char.ofNat_toNat]
      exact ⟨by omega,rfl⟩
    · split at h
      · obtain rfl := Option.some_inj.mp h
        rw [if_neg (by omega),if_neg (by omega),if_pos (by omega),Nat.add_sub_cancel,
          Char.ofNat_toNat]
        exact ⟨by omega,rfl⟩
      · split at h
        · obtain rfl := Option.some_inj.mp h
          exact ⟨by omega,by simp [*]⟩
        · split at h
          · obtain rfl := Option.some_inj.mp h
            exact ⟨by omega,by simp [*]⟩
          · cases h

theorem value_iff {c : Char} {n : Nat} : value c = some n ↔ n < 64 ∧ c = sextet n := by
  constructor
  · intro h
    exact ⟨(sextet_value h).1,(sextet_value h).2.symm⟩
  · rintro ⟨hn,rfl⟩
    exact value_sextet n hn

theorem encode_append {b b' : List UInt8} (h : 3 ∣ b.length) :
    encode (b ++ b') = encode b ++ encode b' := by
  fun_induction encode b with
  | case1 => rfl
  | case2 a => simp at h
  | case3 a b => simp at h
  | case4 a b c rest ih =>
    have hrest : 3 ∣ rest.length := (Nat.dvd_add_left ⟨1,rfl⟩).mp h
    simp [encode,ih hrest]

theorem pad_free {b : List UInt8} (h : 3 ∣ b.length) : '=' ∉ encode b := by
  fun_induction encode b with
  | case1 => simp
  | case2 a => simp at h
  | case3 a b => simp at h
  | case4 a b c rest ih =>
    have hrest : 3 ∣ rest.length := (Nat.dvd_add_left ⟨1,rfl⟩).mp h
    have ha : a.toNat < 256 := a.toNat_lt_size
    have hb : b.toNat < 256 := b.toNat_lt_size
    have hc : c.toNat < 256 := c.toNat_lt_size
    simp only [List.mem_cons,not_or]
    exact ⟨(sextet_pad _ (by omega)).symm,(sextet_pad _ (by omega)).symm,
      (sextet_pad _ (by omega)).symm,(sextet_pad _ (by omega)).symm,ih hrest⟩

theorem toNat_ofNat {n : Nat} (h : n < 256) : (UInt8.ofNat n).toNat = n := by
  rw [UInt8.toNat_ofNat']
  exact Nat.mod_eq_of_lt h

theorem sextets_whole {i j k l : Nat} (hi : i < 64) (hj : j < 64) (hk : k < 64) (hl : l < 64)
    (b : List UInt8) : encode (UInt8.ofNat (i * 4 + j / 16) :: UInt8.ofNat (j % 16 * 16 + k / 4) ::
      UInt8.ofNat (k % 4 * 64 + l) :: b) = sextet i :: sextet j :: sextet k :: sextet l :: encode b := by
  rw [encode,toNat_ofNat (by omega),toNat_ofNat (by omega),toNat_ofNat (by omega)]
  have hw : (i * 4 + j / 16) / 4 = i := by omega
  have hx : (i * 4 + j / 16) % 4 * 16 + (j % 16 * 16 + k / 4) / 16 = j := by omega
  have hy : (j % 16 * 16 + k / 4) % 16 * 4 + (k % 4 * 64 + l) / 64 = k := by omega
  have hz : (k % 4 * 64 + l) % 64 = l := by omega
  rw [hw,hx,hy,hz]

theorem exists_quads {n : Nat} {s : List Char} (h : s.length = 4 * n)
    (hv : ∀ c ∈ s, ∃ i < 64, c = sextet i) : ∃ b : List UInt8, b.length = 3 * n ∧ encode b = s := by
  induction n generalizing s with
  | zero => exact ⟨[],rfl,(List.length_eq_zero_iff.mp h).symm⟩
  | succ n ih =>
    obtain _ | ⟨w,_ | ⟨x,_ | ⟨y,_ | ⟨z,s⟩⟩⟩⟩ := s
    · simp at h
    · simp at h
      omega
    · simp at h
      omega
    · simp at h
      omega
    · simp only [List.forall_mem_cons] at hv
      obtain ⟨⟨i,hi,rfl⟩,⟨j,hj,rfl⟩,⟨k,hk,rfl⟩,⟨l,hl,rfl⟩,hv⟩ := hv
      have hs : s.length = 4 * n := by
        simp at h
        omega
      obtain ⟨b,hlen,rfl⟩ := ih hs hv
      have hgrown : b.length + 3 = 3 * (n + 1) := by omega
      exact ⟨UInt8.ofNat (i * 4 + j / 16) :: UInt8.ofNat (j % 16 * 16 + k / 4) ::
        UInt8.ofNat (k % 4 * 64 + l) :: b,hgrown,sextets_whole hi hj hk hl b⟩

theorem encodes_iff {n : Nat} {s : List Char} :
    (∃ b : List UInt8, b.length = 3 * n + 2 ∧ encode b = s) ↔
    ∃ digits last, digits.length = 4 * n + 2 ∧ s = digits ++ [last,'='] ∧
      (∀ c ∈ digits, ∃ i < 64, c = sextet i) ∧ ∃ k < 16, last = sextet (k * 4) := by
  constructor
  · rintro ⟨b,hlen,rfl⟩
    have htake : (b.take (3 * n)).length = 3 * n := by
      rw [List.length_take]
      omega
    have hdrop : (b.drop (3 * n)).length = 2 := by
      rw [List.length_drop]
      omega
    have hdvd : 3 ∣ (b.take (3 * n)).length := ⟨n,htake⟩
    obtain ⟨x,y,hxy⟩ := List.length_eq_two.mp hdrop
    have hx : x.toNat < 256 := x.toNat_lt_size
    have hy : y.toNat < 256 := y.toNat_lt_size
    rw [← List.take_append_drop (3 * n) b,encode_append hdvd,hxy,encode]
    refine ⟨encode (b.take (3 * n)) ++ [sextet (x.toNat / 4),sextet (x.toNat % 4 * 16 + y.toNat / 16)],
      sextet (y.toNat % 16 * 4),?_,by simp,?_,y.toNat % 16,by omega,rfl⟩
    · rw [List.length_append,length_encode,htake,List.length_cons,List.length_singleton]
      omega
    · intro c hc
      rcases List.mem_append.mp hc with hc | hc
      · rcases encode_chars hc with rfl | hi
        · exact absurd hc (pad_free hdvd)
        · exact hi
      · simp only [List.mem_cons,List.not_mem_nil,or_false] at hc
        rcases hc with rfl | rfl
        · exact ⟨_,by omega,rfl⟩
        · exact ⟨_,by omega,rfl⟩
  · rintro ⟨digits,last,hlen,rfl,hv,k,hk,rfl⟩
    have htake : (digits.take (4 * n)).length = 4 * n := by
      rw [List.length_take]
      omega
    have hdrop : (digits.drop (4 * n)).length = 2 := by
      rw [List.length_drop]
      omega
    obtain ⟨b,hb,hencode⟩ := exists_quads htake fun c hc => hv c (List.mem_of_mem_take hc)
    obtain ⟨x,y,hxy⟩ := List.length_eq_two.mp hdrop
    obtain ⟨i,hi,rfl⟩ := hv x (List.mem_of_mem_drop (i := 4 * n) (by simp [hxy]))
    obtain ⟨j,hj,rfl⟩ := hv y (List.mem_of_mem_drop (i := 4 * n) (by simp [hxy]))
    refine ⟨b ++ [UInt8.ofNat (i * 4 + j / 16),UInt8.ofNat (j % 16 * 16 + k)],by simp [hb],?_⟩
    rw [encode_append ⟨n,hb⟩,hencode,encode,toNat_ofNat (by omega),toNat_ofNat (by omega)]
    have hw : (i * 4 + j / 16) / 4 = i := by omega
    have hx : (i * 4 + j / 16) % 4 * 16 + (j % 16 * 16 + k) / 16 = j := by omega
    have hy : (j % 16 * 16 + k) % 16 * 4 = k * 4 := by omega
    rw [hw,hx,hy]
    calc digits.take (4 * n) ++ [sextet i,sextet j,sextet (k * 4),'=']
        = digits.take (4 * n) ++ [sextet i,sextet j] ++ [sextet (k * 4),'='] := by simp
      _ = digits ++ [sextet (k * 4),'='] := by rw [← hxy,List.take_append_drop]

theorem encode_decode {s : List Char} {b : List UInt8} (h : decode s = some b) : encode b = s := by
  fun_induction decode s generalizing b with
  | case1 =>
    obtain rfl := Option.some_inj.mp h
    rfl
  | case2 w x =>
    simp only [Option.bind_eq_bind,Option.bind_eq_some_iff,value_iff] at h
    obtain ⟨i,⟨hi,rfl⟩,j,⟨hj,rfl⟩,h⟩ := h
    split at h
    · obtain rfl := Option.some_inj.mp h
      rw [encode,toNat_ofNat (by omega)]
      have hw : (i * 4 + j / 16) / 4 = i := by omega
      have hx : (i * 4 + j / 16) % 4 * 16 = j := by omega
      rw [hw,hx]
    · cases h
  | case3 w x y hpad =>
    simp only [Option.bind_eq_bind,Option.bind_eq_some_iff,value_iff] at h
    obtain ⟨i,⟨hi,rfl⟩,j,⟨hj,rfl⟩,k,⟨hk,rfl⟩,h⟩ := h
    split at h
    · obtain rfl := Option.some_inj.mp h
      rw [encode,toNat_ofNat (by omega),toNat_ofNat (by omega)]
      have hw : (i * 4 + j / 16) / 4 = i := by omega
      have hx : (i * 4 + j / 16) % 4 * 16 + (j % 16 * 16 + k / 4) / 16 = j := by omega
      have hy : (j % 16 * 16 + k / 4) % 16 * 4 = k := by omega
      rw [hw,hx,hy]
    · cases h
  | case4 w x y z rest _ _ ih =>
    simp only [Option.bind_eq_bind,Option.bind_eq_some_iff,value_iff] at h
    obtain ⟨i,⟨hi,rfl⟩,j,⟨hj,rfl⟩,k,⟨hk,rfl⟩,l,⟨hl,rfl⟩,tail,htail,h⟩ := h
    obtain rfl := Option.some_inj.mp h
    rw [sextets_whole hi hj hk hl,ih htail]
  | case5 => cases h

theorem decode_iff {s : List Char} {b : List UInt8} : decode s = some b ↔ s = encode b := by
  constructor
  · intro h
    exact (encode_decode h).symm
  · rintro rfl
    exact decode_encode b

end Base64

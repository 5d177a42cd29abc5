import MurlSystem.Foundation.Text

namespace Text

theorem bytes_eq (s : String) : bytes s = s.toByteArray.data.toList := by
  rw [bytes,← String.utf8Encode_toList,List.utf8Encode]
  simp

theorem fromUTF8_eq_some {b : List UInt8} {s : String} :
    String.fromUTF8? ⟨b.toArray⟩ = some s ↔ bytes s = b := by
  rw [bytes_eq]
  constructor
  · intro h
    rw [String.fromUTF8?] at h
    split at h
    · obtain rfl := Option.some.inj h
      simp [String.fromUTF8]
    · cases h
  · rintro rfl
    have hs := s.isValidUTF8
    rw [String.fromUTF8?]
    simp only [Array.toArray_toList,String.fromUTF8]
    exact dif_pos hs

theorem length_bytes (s : String) : (bytes s).length = s.utf8ByteSize := by
  rw [bytes_eq]
  rfl

theorem bytes_injective : Function.Injective bytes := by
  intro s t h
  rw [bytes_eq,bytes_eq,Array.toList_inj] at h
  exact String.toByteArray_inj.mp (ByteArray.ext h)

@[simp]
theorem bytes_append (s t : String) : bytes (s ++ t) = bytes s ++ bytes t := by
  simp [bytes]

def isAscii (c : Char) : Bool := c.toNat < 128

theorem encode_ascii {c : Char} (h : isAscii c = true) :
    String.utf8EncodeChar c = [UInt8.ofNat c.toNat] := by
  have h128 : c.toNat < 128 := by simpa [isAscii] using h
  have hle : c.val ≤ 0x7f := by
    rw [UInt32.le_iff_toNat_le]
    change c.toNat ≤ 127
    omega
  have hsize : c.utf8Size = 1 := by
    exact if_pos hle
  rw [String.utf8EncodeChar_eq_singleton hsize]
  rfl

theorem encode_wide {c : Char} (h : isAscii c = false) :
    ∀ b ∈ String.utf8EncodeChar c, 128 ≤ b.toNat := by
  have h128 : 128 ≤ c.toNat := by simpa [isAscii] using h
  have hval : c.val.toNat = c.toNat := rfl
  intro b hb
  unfold String.utf8EncodeChar at hb
  simp only [hval] at hb
  split at hb
  · omega
  · split at hb
    · simp only [List.mem_cons,List.not_mem_nil,or_false] at hb
      rcases hb with rfl | rfl <;> simp <;> omega
    · split at hb
      · simp only [List.mem_cons,List.not_mem_nil,or_false] at hb
        rcases hb with rfl | rfl | rfl <;> simp <;> omega
      · simp only [List.mem_cons,List.not_mem_nil,or_false] at hb
        rcases hb with rfl | rfl | rfl | rfl <;> simp <;> omega

theorem bytes_ascii {l : List Char} (h : ∀ c ∈ l, isAscii c = true) :
    bytes (String.ofList l) = l.map fun c => UInt8.ofNat c.toNat := by
  rw [bytes,String.toList_ofList]
  induction l with
  | nil => rfl
  | cons c l ih =>
    rw [List.flatMap_cons,encode_ascii (h c (by simp)),ih fun d hd => h d (by simp [hd])]
    rfl

theorem size_ascii {s : String} (h : ∀ c ∈ s.toList, isAscii c = true) :
    s.utf8ByteSize = s.toList.length := by
  have hb := bytes_ascii h
  rw [String.ofList_toList] at hb
  rw [← length_bytes,hb,List.length_map]

end Text

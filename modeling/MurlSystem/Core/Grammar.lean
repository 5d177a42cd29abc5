import MurlSystem.Foundation.Text

namespace MurlSystem

def isLowerAlnum (c : Char) : Bool :=
  ('a' ≤ c && c ≤ 'z') || ('0' ≤ c && c ≤ '9')

def isDigit (c : Char) : Bool :=
  '0' ≤ c && c ≤ '9'

def isAlnum (c : Char) : Bool :=
  isLowerAlnum c || ('A' ≤ c && c ≤ 'Z')

def matchesIdent (max : Nat) (first rest : Char → Bool) (s : String) : Bool :=
  match s.toList with
  | [] => false
  | c :: cs => decide (s.utf8ByteSize ≤ max) && first c && cs.all rest

def isValidResourceId (s : String) : Bool :=
  matchesIdent 64 isLowerAlnum (fun c => isLowerAlnum c || c == '-' || c == '_') s

def isValidRole (s : String) : Bool :=
  matchesIdent 32 isLowerAlnum (fun c => isLowerAlnum c || c == '-') s

def isValidTag (s : String) : Bool :=
  matchesIdent 32 (fun c => isLowerAlnum c || c == '-') (fun c => isLowerAlnum c || c == '-') s

theorem matchesIdent_chars {max : Nat} {first rest : Char → Bool} {s : String}
    (h : matchesIdent max first rest s = true) :
    s.toList ≠ [] ∧ ∀ c ∈ s.toList, first c = true ∨ rest c = true := by
  unfold matchesIdent at h
  cases hs : s.toList with
  | nil => simp [hs] at h
  | cons c cs =>
    simp only [hs,Bool.and_eq_true,List.all_eq_true] at h
    refine ⟨by simp,?_⟩
    intro d hd
    rcases List.mem_cons.mp hd with rfl | hd
    · exact .inl h.1.2
    · exact .inr (h.2 d hd)

end MurlSystem

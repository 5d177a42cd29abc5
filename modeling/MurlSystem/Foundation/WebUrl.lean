import Mathlib.Data.List.TakeWhile
import MurlSystem.Foundation.Text

namespace WebUrl

def isSlash (c : Char) : Bool := c == '/' || c == '\\'

def endsAuthority (c : Char) : Bool := isSlash c || c == '?' || c == '#'

def bracketed (inside : Bool) (c : Char) : Bool :=
  if c = '[' then true else if c = ']' then false else inside

def hostText (inside : Bool) : List Char → List Char
  | [] => []
  | c :: cs => if c = ':' ∧ inside = false then [] else c :: hostText (bracketed inside c) cs

structure Reading where
  userinfo : Option (List Char)
  host : List Char
deriving DecidableEq

def readAuthority (authority : List Char) : Reading :=
  match Text.rsplitOnce '@' authority with
  | some (userinfo,rest) => ⟨some userinfo,hostText false rest⟩
  | none => ⟨none,hostText false authority⟩

def authority (rest : List Char) : List Char :=
  (rest.dropWhile isSlash).takeWhile fun c => !endsAuthority c

def read (rest : List Char) : Reading := readAuthority (authority rest)

section Host

variable {inside : Bool} {s t : List Char} {c : Char}

def openAfter (inside : Bool) (s : List Char) : Bool := s.foldl bracketed inside

theorem hostText_free (h : ':' ∉ s) : hostText inside s = s := by
  induction s generalizing inside with
  | nil => rfl
  | cons d s ih =>
    simp only [List.mem_cons,not_or] at h
    rw [hostText,if_neg fun hd => h.1 hd.1.symm,ih h.2]

theorem hostText_colon (h : ':' ∉ s) : hostText inside (s ++ ':' :: t) =
    if openAfter inside s then s ++ ':' :: hostText true t else s := by
  induction s generalizing inside with
  | nil => cases inside <;> simp [hostText,openAfter,bracketed]
  | cons d s ih =>
    simp only [List.mem_cons,not_or] at h
    rw [List.cons_append,hostText,if_neg fun hd => h.1 hd.1.symm,ih h.2]
    change _ = if openAfter (bracketed inside d) s then _ else _
    split <;> rfl

theorem mem_hostText (h : c ∈ hostText inside s) : c ∈ s := by
  induction s generalizing inside with
  | nil => cases h
  | cons d s ih =>
    rw [hostText] at h
    split at h
    · cases h
    · rcases List.mem_cons.mp h with rfl | h
      · exact List.mem_cons_self
      · exact List.mem_cons_of_mem d (ih h)

theorem mem_read_host (h : c ∈ (read s).host) : endsAuthority c = false := by
  have hauth : c ∈ authority s := by
    unfold read readAuthority at h
    split at h
    · rename_i hsplit
      rw [(Text.rsplitOnce_some hsplit).1]
      exact List.mem_append_right _ (List.mem_cons_of_mem _ (mem_hostText h))
    · exact mem_hostText h
  simpa using List.mem_takeWhile_imp hauth

theorem readAuthority_plain (h : '@' ∉ s) : readAuthority s = ⟨none,hostText false s⟩ := by
  rw [readAuthority,Text.rsplitOnce_none.mpr h]

end Host

end WebUrl

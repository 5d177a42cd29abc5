import Mathlib.Data.List.Basic

namespace Text

def bytes (s : String) : List UInt8 :=
  s.toList.flatMap String.utf8EncodeChar

def isControl (c : Char) : Bool :=
  c.toNat < 0x20 || (0x7f ≤ c.toNat && c.toNat ≤ 0x9f)

def isWhitespace (c : Char) : Bool :=
  (0x09 ≤ c.toNat && c.toNat ≤ 0x0d) || c.toNat == 0x20 || c.toNat == 0x85 ||
  c.toNat == 0xa0 || c.toNat == 0x1680 || (0x2000 ≤ c.toNat && c.toNat ≤ 0x200a) ||
  c.toNat == 0x2028 || c.toNat == 0x2029 || c.toNat == 0x202f || c.toNat == 0x205f ||
  c.toNat == 0x3000

def splitOnce (c : Char) : List Char → Option (List Char × List Char)
  | [] => none
  | x :: xs =>
    if x = c then some ([],xs)
    else (splitOnce c xs).map fun (a,b) => (x :: a,b)

def rsplitOnce (c : Char) : List Char → Option (List Char × List Char)
  | [] => none
  | x :: xs =>
    match rsplitOnce c xs with
    | some (a,b) => some (x :: a,b)
    | none => if x = c then some ([],xs) else none

def trimEnd (p : Char → Bool) : List Char → List Char
  | [] => []
  | x :: xs =>
    match trimEnd p xs with
    | [] => if p x then [] else [x]
    | ys => x :: ys

def trim (p : Char → Bool) (s : List Char) : List Char :=
  trimEnd p (s.dropWhile p)

def words (s : List Char) : List (List Char) :=
  (s.splitOnP isWhitespace).filter (fun w => !w.isEmpty)

def lineEnd (s : List Char) : List Char :=
  (s.dropSuffix? ['\r']).getD s

def lines (s : List Char) : List (List Char) :=
  let pieces := s.splitOn '\n'
  pieces.dropLast.map lineEnd ++
    (pieces.getLast?.toList.filter (fun w => !w.isEmpty))

def contains (pattern s : List Char) : Bool := s.tails.any fun rest => pattern.isPrefixOf rest

def replaceFrom (pattern new : List Char) (skip : Nat) : List Char → List Char
  | [] => []
  | c :: cs =>
    match skip with
    | skip + 1 => replaceFrom pattern new skip cs
    | 0 =>
      if pattern.isPrefixOf (c :: cs) then new ++ replaceFrom pattern new (pattern.length - 1) cs
      else c :: replaceFrom pattern new 0 cs

def replace (pattern new s : List Char) : List Char := replaceFrom pattern new 0 s

def lowercase (s : List Char) : List Char :=
  s.map Char.toLower

@[simp]
theorem lowercase_nil : lowercase [] = [] := rfl

@[simp]
theorem lowercase_append (a b : List Char) : lowercase (a ++ b) = lowercase a ++ lowercase b := by
  simp [lowercase]

theorem splitOnce_none {c : Char} {s : List Char} (h : c ∉ s) : splitOnce c s = none := by
  induction s with
  | nil => rfl
  | cons x xs ih =>
    simp only [List.mem_cons,not_or] at h
    have hx : ¬x = c := fun he => h.1 he.symm
    simp [splitOnce,hx,ih h.2]

theorem splitOnce_append {c : Char} {a : List Char} (b : List Char) (h : c ∉ a) :
    splitOnce c (a ++ c :: b) = some (a,b) := by
  induction a with
  | nil => simp [splitOnce]
  | cons x xs ih =>
    simp only [List.mem_cons,not_or] at h
    have hx : ¬x = c := fun he => h.1 he.symm
    simp [splitOnce,hx,ih h.2]

theorem splitOnce_eq_some {c : Char} {s a b : List Char} :
    splitOnce c s = some (a,b) ↔ s = a ++ c :: b ∧ c ∉ a := by
  constructor
  · intro h
    induction s generalizing a b with
    | nil => cases h
    | cons x xs ih =>
      by_cases hx : x = c
      · obtain ⟨rfl,rfl⟩ : [] = a ∧ xs = b := by simpa [splitOnce,hx] using h
        exact ⟨by rw [hx]; rfl,by simp⟩
      · simp only [splitOnce,if_neg hx,Option.map_eq_some_iff,Prod.mk.injEq,Prod.exists] at h
        obtain ⟨a',b',hs,rfl,rfl⟩ := h
        obtain ⟨rfl,hn⟩ := ih hs
        exact ⟨rfl,by simp [Ne.symm hx,hn]⟩
  · rintro ⟨rfl,hn⟩
    exact splitOnce_append b hn

theorem splitOnce_eq_none {c : Char} {s : List Char} : splitOnce c s = none ↔ c ∉ s := by
  constructor
  · intro h hc
    obtain ⟨a,b,rfl,ha⟩ := List.eq_append_cons_of_mem hc
    rw [splitOnce_append b ha] at h
    cases h
  · exact splitOnce_none

theorem rsplitOnce_none {c : Char} {s : List Char} : rsplitOnce c s = none ↔ c ∉ s := by
  induction s with
  | nil => simp [rsplitOnce]
  | cons x xs ih =>
    simp only [rsplitOnce,List.mem_cons,not_or]
    cases h : rsplitOnce c xs with
    | some q =>
      have hm : c ∈ xs := by
        by_contra hn
        rw [ih.mpr hn] at h
        cases h
      simp [hm]
    | none =>
      have hn := ih.mp h
      by_cases hx : x = c
      · simp [hx]
      · simp [hx,hn,Ne.symm hx]

theorem rsplitOnce_append {c : Char} (a : List Char) {b : List Char} (h : c ∉ b) :
    rsplitOnce c (a ++ c :: b) = some (a,b) := by
  induction a with
  | nil => simp [rsplitOnce,rsplitOnce_none.mpr h]
  | cons x xs ih => simp [rsplitOnce,ih]

theorem rsplitOnce_some {c : Char} {s a b : List Char} (h : rsplitOnce c s = some (a,b)) :
    s = a ++ c :: b ∧ c ∉ b := by
  induction s generalizing a b with
  | nil => simp [rsplitOnce] at h
  | cons x xs ih =>
    simp only [rsplitOnce] at h
    cases hr : rsplitOnce c xs with
    | some q =>
      obtain ⟨a',b'⟩ := q
      rw [hr] at h
      obtain ⟨rfl,rfl⟩ : x :: a' = a ∧ b' = b := by simpa using h
      obtain ⟨hs,hn⟩ := ih hr
      exact ⟨by simp [hs],hn⟩
    | none =>
      rw [hr] at h
      by_cases hx : x = c
      · obtain ⟨rfl,rfl⟩ : a = [] ∧ xs = b := by simpa [hx] using h
        exact ⟨by simp [hx],rsplitOnce_none.mp hr⟩
      · simp [hx] at h

theorem trimEnd_eq_nil {p : Char → Bool} {s : List Char} :
    trimEnd p s = [] ↔ ∀ c ∈ s, p c = true := by
  induction s with
  | nil => simp [trimEnd]
  | cons x xs ih =>
    simp only [trimEnd,List.mem_cons,forall_eq_or_imp]
    cases h : trimEnd p xs with
    | nil =>
      have hall := ih.mp h
      by_cases hx : p x <;> simp [hx]
      exact hall
    | cons y ys =>
      have hn : ¬∀ c ∈ xs, p c = true := fun hc => by
        rw [ih.mpr hc] at h
        cases h
      simp [hn]

theorem trimEnd_append {p : Char → Bool} (a b : List Char) (h : trimEnd p b ≠ []) :
    trimEnd p (a ++ b) = a ++ trimEnd p b := by
  induction a with
  | nil => rfl
  | cons x xs ih =>
    simp only [List.cons_append,trimEnd,ih]
    split
    · rename_i hh
      simp at hh
      exact absurd hh.2 h
    · rfl

theorem trimEnd_append_all {p : Char → Bool} (a : List Char) {b : List Char}
    (h : ∀ c ∈ b, p c = true) : trimEnd p (a ++ b) = trimEnd p a := by
  induction a with
  | nil => simpa [trimEnd] using trimEnd_eq_nil.mpr h
  | cons x xs ih => simp only [List.cons_append,trimEnd,ih]

theorem trimEnd_eq_self {p : Char → Bool} {s : List Char} {c : Char} (h : p c = false) :
    trimEnd p (s ++ [c]) = s ++ [c] := by
  have hc : trimEnd p [c] = [c] := by simp [trimEnd,h]
  rw [trimEnd_append s [c] (by simp [hc]),hc]

theorem trimEnd_spec (p : Char → Bool) (s : List Char) :
    ∃ t, s = trimEnd p s ++ t ∧ ∀ c ∈ t, p c = true := by
  induction s with
  | nil => exact ⟨[],rfl,by simp⟩
  | cons x xs ih =>
    obtain ⟨t,ht,hall⟩ := ih
    simp only [trimEnd]
    cases h : trimEnd p xs with
    | nil =>
      rw [h] at ht
      obtain rfl : xs = t := by simpa using ht
      by_cases hx : p x
      · refine ⟨x :: xs,by simp [hx],?_⟩
        intro c hc
        rcases List.mem_cons.mp hc with rfl | hc
        · exact hx
        · exact hall c hc
      · exact ⟨xs,by simp [hx],hall⟩
    | cons y ys =>
      rw [h] at ht
      exact ⟨t,by simpa using ht,hall⟩

theorem cut_last (p : Char → Bool) (s : List Char) :
    (∀ c ∈ s, p c = false) ∨
      ∃ a c b, s = a ++ c :: b ∧ p c = true ∧ ∀ x ∈ b, p x = false := by
  induction s with
  | nil => exact .inl (by simp)
  | cons x xs ih =>
    rcases ih with hno | ⟨a,c,b,rfl,hc,hb⟩
    · cases hx : p x with
      | true => exact .inr ⟨[],x,xs,rfl,hx,hno⟩
      | false => exact .inl (by simpa [hx] using hno)
    · exact .inr ⟨x :: a,c,b,rfl,hc,hb⟩

section Words

theorem words_append {c : Char} (hc : isWhitespace c = true) (x y : List Char) :
    words (x ++ c :: y) = words x ++ words y := by
  simp only [words,List.splitOnP_append_cons x y hc,List.filter_append]

theorem words_solid {w : List Char} (hne : w ≠ []) (h : ∀ c ∈ w, isWhitespace c = false) :
    words w = [w] := by
  rw [words,List.splitOnP_eq_singleton h]
  simp [hne]

theorem trimEnd_solid {p : Char → Bool} {w : List Char} (h : ∀ c ∈ w, p c = false) :
    trimEnd p w = w := by
  rcases List.eq_nil_or_concat w with rfl | ⟨x,c,rfl⟩
  · rfl
  · rw [List.concat_eq_append,trimEnd_eq_self (h c (by simp))]

def HeadOf (a b : List Char) : Prop := a = [] ∨ ∃ c x y, a = c :: x ∧ b = c :: y

theorem trimEnd_headOf (p : Char → Bool) (s : List Char) : HeadOf (trimEnd p s) s := by
  cases s with
  | nil => exact .inl rfl
  | cons c y =>
    cases ht : trimEnd p (c :: y) with
    | nil => exact .inl rfl
    | cons d x =>
      obtain ⟨t,hs,-⟩ := trimEnd_spec p (c :: y)
      rw [ht,List.cons_append] at hs
      obtain ⟨rfl,-⟩ := List.cons.inj hs
      exact .inr ⟨c,x,y,rfl,rfl⟩

theorem trim_keeps {p : Char → Bool} {w : List Char} (rest : List Char) (hne : w ≠ [])
    (h : ∀ c ∈ w, p c = false) : ∃ rest', trim p (w ++ rest) = w ++ rest' ∧ HeadOf rest' rest := by
  have hdrop : (w ++ rest).dropWhile p = w ++ rest := by
    obtain ⟨c,x,rfl⟩ := List.exists_cons_of_ne_nil hne
    simp [h c (by simp)]
  rw [trim,hdrop]
  by_cases hr : trimEnd p rest = []
  · refine ⟨[],?_,.inl rfl⟩
    rw [trimEnd_append_all w (trimEnd_eq_nil.mp hr),trimEnd_solid h,List.append_nil]
  · exact ⟨trimEnd p rest,trimEnd_append w rest hr,trimEnd_headOf p rest⟩

theorem HeadOf.trans {a b c : List Char} (h : HeadOf a b) (h' : HeadOf b c) : HeadOf a c := by
  rcases h with rfl | ⟨d,x,y,rfl,rfl⟩
  · exact .inl rfl
  · rcases h' with h' | ⟨e,x',y',he,rfl⟩
    · cases h'
    · obtain ⟨rfl,-⟩ := List.cons.inj he
      exact .inr ⟨d,x,y',rfl,rfl⟩

theorem words_headD {w rest : List Char} (hne : w ≠ []) (h : ∀ c ∈ w, isWhitespace c = false)
    (hrest : ∀ c ∈ rest.head?, isWhitespace c = true) : (words (w ++ rest)).headD [] = w := by
  cases rest with
  | nil => rw [List.append_nil,words_solid hne h]; rfl
  | cons c t => rw [words_append (hrest c rfl),words_solid hne h]; rfl

end Words

section Lines

theorem mem_lines {s l : List Char} (hl : l ≠ [])
    (hcr : ∀ piece ∈ s.splitOn '\n', lineEnd piece = piece) :
    l ∈ lines s ↔ l ∈ s.splitOn '\n' := by
  obtain ⟨init,last,hs⟩ := List.eq_nil_or_concat (s.splitOn '\n') |>.resolve_left
    (List.splitOn_ne_nil '\n' s)
  rw [List.concat_eq_append] at hs
  have hinit : init.map lineEnd = init := by
    have hid : init.map lineEnd = init.map id :=
      List.map_congr_left fun piece hp => hcr piece (by rw [hs]; simp [hp])
    rwa [List.map_id] at hid
  simp only [lines,hs,List.dropLast_concat,List.getLast?_concat]
  rw [hinit]
  by_cases hlast : last = []
  · simp [hlast,hl]
  · simp [hlast]

theorem splitOn_newlines (s : List Char) (n : Nat) :
    (s ++ List.replicate n '\n').splitOn '\n' = s.splitOn '\n' ++ List.replicate n [] := by
  induction n generalizing s with
  | zero => simp
  | succ n ih =>
    have hnil := ih []
    rw [List.nil_append] at hnil
    rw [List.replicate_succ,List.splitOn_append_cons_self,hnil]
    simp [List.replicate_succ]

end Lines

theorem append_ne {p q s t : String} (n : Nat) (hp : n ≤ p.toList.length)
    (hq : n ≤ q.toList.length) (h : p.toList.take n ≠ q.toList.take n) : p ++ s ≠ q ++ t := by
  intro heq
  have htake := congrArg (fun x => x.toList.take n) heq
  simp only [String.toList_append,List.take_append_of_le_length hp,
    List.take_append_of_le_length hq] at htake
  exact h htake

end Text

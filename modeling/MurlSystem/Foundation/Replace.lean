import MurlSystem.Foundation.Text

namespace Text

variable {pattern new s : List Char} {c : Char} {cs : List Char} {skip : Nat}

theorem contains_cons :
    contains pattern (c :: cs) = (pattern.isPrefixOf (c :: cs) || contains pattern cs) := by
  simp [contains]

theorem replaceFrom_free (h : contains pattern s = false) : replaceFrom pattern new 0 s = s := by
  induction s with
  | nil => rfl
  | cons c cs ih =>
    rw [contains_cons,Bool.or_eq_false_iff] at h
    rw [replaceFrom,h.1,ih h.2]
    rfl

theorem replace_free (h : contains pattern s = false) : replace pattern new s = s :=
  replaceFrom_free h

theorem replaceFrom_skipped (a b : List Char) :
    replaceFrom pattern new a.length (a ++ b) = replaceFrom pattern new 0 b := by
  induction a with
  | nil => rfl
  | cons c a ih => exact ih

theorem replace_self (h : pattern ≠ []) : replace pattern new pattern = new := by
  obtain ⟨c,cs,rfl⟩ := List.exists_cons_of_ne_nil h
  have hskip : replaceFrom (c :: cs) new cs.length (cs ++ []) = replaceFrom (c :: cs) new 0 [] :=
    replaceFrom_skipped cs []
  rw [List.append_nil] at hskip
  have hstarts : (c :: cs).isPrefixOf (c :: cs) = true :=
    List.isPrefixOf_iff_prefix.mpr (List.prefix_refl _)
  rw [replace,replaceFrom,hstarts]
  change new ++ replaceFrom (c :: cs) new cs.length cs = new
  rw [hskip]
  simp [replaceFrom]

theorem contains_nil (h : pattern ≠ []) : contains pattern [] = false := by
  obtain ⟨c,cs,rfl⟩ := List.exists_cons_of_ne_nil h
  rfl

theorem length_replaceFrom (hne : pattern ≠ []) (s : List Char) (skip : Nat) :
    ∃ kept count, (skip = 0 → contains pattern s = true → 0 < count) ∧
      ∀ new, (replaceFrom pattern new skip s).length = kept + count * new.length := by
  induction s generalizing skip with
  | nil =>
    refine ⟨0,0,?_,fun new => by simp [replaceFrom]⟩
    intro _ hc
    rw [contains_nil hne] at hc
    cases hc
  | cons c cs ih =>
    cases skip with
    | succ skip =>
      obtain ⟨kept,count,-,hlen⟩ := ih skip
      exact ⟨kept,count,fun h => (by cases h),hlen⟩
    | zero =>
      cases hp : pattern.isPrefixOf (c :: cs) with
      | true =>
        obtain ⟨kept,count,-,hlen⟩ := ih (pattern.length - 1)
        refine ⟨kept,count + 1,fun _ _ => Nat.succ_pos count,?_⟩
        intro new
        rw [replaceFrom,hp,if_pos rfl,List.length_append,hlen new,Nat.succ_mul]
        omega
      | false =>
        obtain ⟨kept,count,hpos,hlen⟩ := ih 0
        refine ⟨kept + 1,count,?_,?_⟩
        · intro _ hc
          rw [contains_cons,hp,Bool.false_or] at hc
          exact hpos rfl hc
        · intro new
          rw [replaceFrom,hp,if_neg Bool.false_ne_true,List.length_cons,hlen new]
          omega

theorem mem_replaceFrom (hne : pattern ≠ []) (h : contains pattern s = true) (hc : c ∈ new) :
    c ∈ replaceFrom pattern new 0 s := by
  induction s with
  | nil =>
    rw [contains_nil hne] at h
    cases h
  | cons d cs ih =>
    rw [contains_cons] at h
    rw [replaceFrom]
    cases hp : pattern.isPrefixOf (d :: cs) with
    | true =>
      rw [if_pos rfl]
      exact List.mem_append_left _ hc
    | false =>
      rw [hp,Bool.false_or] at h
      rw [if_neg Bool.false_ne_true]
      exact List.mem_cons_of_mem d (ih h)

theorem replace_length_ne (hne : pattern ≠ []) (h : contains pattern s = true)
    {new' : List Char} (hlen : new.length ≠ new'.length) :
    replace pattern new s ≠ replace pattern new' s := by
  obtain ⟨kept,count,hpos,hsize⟩ := length_replaceFrom hne s 0
  intro he
  have hsame := congrArg List.length he
  rw [replace,replace,hsize,hsize] at hsame
  have hcount := hpos rfl h
  exact hlen (Nat.eq_of_mul_eq_mul_left hcount (by omega))

end Text

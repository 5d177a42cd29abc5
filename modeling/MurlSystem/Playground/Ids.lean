import MurlSystem.Foundation.Fallible
import MurlSystem.Foundation.Fresh
import MurlSystem.Foundation.Numeral
import MurlSystem.Naming.Items
import MurlSystem.Playground.Interpret

namespace MurlSystem.Playground

open Syntax

def sanitizeStep (out : List Char) (c : Char) : List Char :=
  if isLowerAlnum c then out ++ [c]
  else if (c == '-' || c == '_' || c == ' ') && !out.isEmpty then out ++ ['-']
  else out

def sanitizeLoop (out : List Char) : List Char → List Char
  | [] => out
  | c :: rest =>
    let out := sanitizeStep out c
    if 64 ≤ out.length then out else sanitizeLoop out rest

def sanitizeId (raw : List Char) : List Char :=
  let trimmed := Text.trim (· == '-') (sanitizeLoop [] (Text.lowercase raw))
  match trimmed.head? with
  | some c => if isLowerAlnum c then trimmed else []
  | none => []

def afterScheme : List Char → List Char → List Char
  | whole,[] => whole
  | whole,c :: rest =>
    if "://".toList.isPrefixOf (c :: rest) then (c :: rest).drop 3 else afterScheme whole rest

def slugFromTarget (target : String) (kind : Kind) : List Char :=
  if kind = .terminal then "terminal".toList
  else
    let stripped := afterScheme target.toList target.toList
    if kind = .https ∨ kind = .ssh ∨ kind = .remoteDesktop ∨ kind = .murl then
      let host := stripped.takeWhile fun c => !isAuthorityEnd c && c != ':'
      sanitizeId (host.takeWhile fun c => c != '.')
    else
      let last := (((Text.trimEnd isSeparator stripped).splitOnP isSeparator).getLast?).getD []
      sanitizeId (last.takeWhile fun c => c != '.')

def baseOf (target : String) (kind : Kind) : String :=
  let base := slugFromTarget target kind
  if base.isEmpty then "resource" else String.ofList base

-- The `while` loop, as many rounds of it as the fuel allows.
def freeCandidate (base : String) (used : List String) : Nat → String → Nat → Option String
  | 0,_,_ => none
  | fuel + 1,candidate,n =>
    if candidate ∈ used then freeCandidate base used fuel s!"{base}-{n}" (n + 1)
    else some candidate

def uniqueId (fuel : Nat) (target : String) (kind : Kind) (used : List String) :
    Option (String × List String) := do
  let base := baseOf target kind
  let candidate ← freeCandidate base used fuel base 2
  return (candidate,used ++ [candidate])

def uniqueIds (fuel : Nat) : List (Kind × String) → List String → Option (List String)
  | [],_ => some []
  | (kind,target) :: rest,used => do
    let (id,used) ← uniqueId fuel target kind used
    let ids ← uniqueIds fuel rest used
    return id :: ids

section Base

variable {l out : List Char} {c : Char}

structure GoodBase (l : List Char) : Prop where
  lead : ∃ c rest, l = c :: rest ∧ isLowerAlnum c = true
  chars : ∀ c ∈ l, isDashAlnum c = true
  size : l.length ≤ 64

theorem sanitizeStep_chars (h : ∀ c ∈ out, isDashAlnum c = true) :
    ∀ d ∈ sanitizeStep out c, isDashAlnum d = true := by
  intro d hd
  unfold sanitizeStep at hd
  split at hd
  · next hc =>
    rcases List.mem_append.mp hd with hd | hd
    · exact h d hd
    · obtain rfl := List.mem_singleton.mp hd
      rw [isDashAlnum,hc,Bool.true_or]
  · split at hd
    · rcases List.mem_append.mp hd with hd | hd
      · exact h d hd
      · obtain rfl := List.mem_singleton.mp hd
        rfl
    · exact h d hd

theorem length_sanitizeStep (out : List Char) (c : Char) :
    (sanitizeStep out c).length ≤ out.length + 1 := by
  unfold sanitizeStep
  split
  · simp
  · split
    · simp
    · exact Nat.le_succ _

theorem sanitizeLoop_spec (hchars : ∀ c ∈ out, isDashAlnum c = true) (hlen : out.length < 64)
    (raw : List Char) : (∀ c ∈ sanitizeLoop out raw, isDashAlnum c = true) ∧
      (sanitizeLoop out raw).length ≤ 64 := by
  induction raw generalizing out with
  | nil => exact ⟨hchars,hlen.le⟩
  | cons c rest ih =>
    have hstep := @sanitizeStep_chars out c hchars
    have hlength := length_sanitizeStep out c
    rw [sanitizeLoop]
    split
    · exact ⟨hstep,by omega⟩
    · next hfew => exact ih hstep (not_le.mp hfew)

theorem trim_sublist (p : Char → Bool) (l : List Char) : (Text.trim p l).Sublist l := by
  obtain ⟨t,ht,-⟩ := Text.trimEnd_spec p (l.dropWhile p)
  have hprefix : (Text.trim p l).Sublist (l.dropWhile p) := by
    conv => rhs; rw [ht]
    exact List.sublist_append_left _ t
  exact hprefix.trans (List.dropWhile_sublist p)

theorem sanitizeId_good (raw : List Char) : sanitizeId raw = [] ∨ GoodBase (sanitizeId raw) := by
  obtain ⟨hchars,hlen⟩ := @sanitizeLoop_spec [] (by simp) (by decide) (Text.lowercase raw)
  have hsub := trim_sublist (· == '-') (sanitizeLoop [] (Text.lowercase raw))
  rw [sanitizeId]
  cases htrim : Text.trim (· == '-') (sanitizeLoop [] (Text.lowercase raw)) with
  | nil => exact .inl rfl
  | cons c rest =>
    simp only [List.head?_cons]
    rw [htrim] at hsub
    split
    · next hc =>
      exact .inr ⟨⟨c,rest,rfl,hc⟩,fun d hd => hchars d (hsub.subset hd),
        hsub.length_le.trans hlen⟩
    · exact .inl rfl

theorem word_good {w : String} (h : w = "terminal" ∨ w = "resource") : GoodBase w.toList := by
  rcases h with rfl | rfl
  · exact ⟨⟨'t',"erminal".toList,rfl,rfl⟩,List.all_eq_true.mp (by decide),by decide⟩
  · exact ⟨⟨'r',"esource".toList,rfl,rfl⟩,List.all_eq_true.mp (by decide),by decide⟩

theorem baseOf_good (target : String) (kind : Kind) : GoodBase (baseOf target kind).toList := by
  have hslug : slugFromTarget target kind = [] ∨ GoodBase (slugFromTarget target kind) := by
    unfold slugFromTarget
    split
    · exact .inr (word_good (.inl rfl))
    · dsimp only
      split
      · exact sanitizeId_good _
      · exact sanitizeId_good _
  unfold baseOf
  rcases hslug with hempty | hgood
  · rw [hempty]
    exact word_good (.inr rfl)
  · obtain ⟨c,rest,hl,-⟩ := hgood.lead
    have hsome : (slugFromTarget target kind).isEmpty = false := by rw [hl]; rfl
    simp only [hsome]
    change GoodBase (String.ofList (slugFromTarget target kind)).toList
    rwa [@String.toList_ofList (slugFromTarget target kind)]

end Base

section Candidates

variable {base id : String} {used : List String} {fuel n k : Nat}

def candidate (base : String) (n : Nat) : String := if n = 0 then base else s!"{base}-{n + 1}"

theorem suffixed_toList (base : String) (n : Nat) :
    (s!"{base}-{n}" : String).toList = base.toList ++ '-' :: Nat.toDigits 10 n := by
  have hdigits : (toString n).toList = Nat.toDigits 10 n := by
    rw [Nat.toString_eq_ofList_toDigits,@String.toList_ofList (Nat.toDigits 10 n)]
  change (base ++ "-" ++ toString n).toList = _
  rw [String.toList_append,String.toList_append,hdigits,List.append_assoc]
  rfl

theorem candidate_toList (base : String) (n : Nat) : (candidate base n).toList =
    base.toList ++ if n = 0 then [] else '-' :: Nat.toDigits 10 (n + 1) := by
  unfold candidate
  split
  · rw [List.append_nil]
  · exact suffixed_toList base (n + 1)

theorem candidate_injective (base : String) : Function.Injective (candidate base) := by
  intro i j h
  have hlist := congrArg String.toList h
  rw [candidate_toList,candidate_toList] at hlist
  have htail := List.append_cancel_left hlist
  split at htail <;> split at htail
  · omega
  · cases htail
  · cases htail
  · have hdigits := congrArg Numeral.value (List.cons.inj htail).2
    rw [Numeral.value_toDigits,Numeral.value_toDigits] at hdigits
    omega

theorem length_toDigits_mono (h : n ≤ k) :
    (Nat.toDigits 10 n).length ≤ (Nat.toDigits 10 k).length := by
  have hk := Numeral.value_lt (Numeral.plain_toDigits k).digits
  rw [Numeral.value_toDigits] at hk
  exact Numeral.length_le_of_lt (List.length_pos_iff.mpr (Numeral.plain_toDigits k).some) (by omega)

theorem length_candidate_mono (h : n ≤ k) :
    (candidate base n).toList.length ≤ (candidate base k).toList.length := by
  have hdigits := @length_toDigits_mono (n + 1) (k + 1) (by omega)
  rw [candidate_toList,candidate_toList,List.length_append,List.length_append]
  split
  · exact Nat.le_add_right _ _
  · rw [if_neg (by omega),List.length_cons,List.length_cons]
    omega

theorem freeCandidate_eq (base : String) (used : List String) (fuel n : Nat) :
    freeCandidate base used fuel (candidate base n) (n + 2) =
      (Fresh.seek (candidate base) used fuel n).map (candidate base) := by
  induction fuel generalizing n with
  | zero => rfl
  | succ fuel ih =>
    rw [freeCandidate,Fresh.seek]
    split
    · exact ih (n + 1)
    · rfl

theorem freeCandidate_first (base : String) (used : List String) :
    ∃ k, (∀ fuel, used.length < fuel →
        freeCandidate base used fuel base 2 = some (candidate base k)) ∧
      candidate base k ∉ used ∧ ∀ i < k, candidate base i ∈ used := by
  obtain ⟨k,hk,hfree,htaken⟩ := @Fresh.seek_total _ _ _ used (candidate_injective base) 0
  refine ⟨k,fun fuel hfuel => ?_,hfree,fun i hi => htaken i (Nat.zero_le i) hi⟩
  have hloop := freeCandidate_eq base used fuel 0
  rw [hk fuel hfuel] at hloop
  exact hloop

def ShortLeft (base : String) (used : List String) : Prop :=
  ∃ n, (candidate base n).toList.length ≤ 64 ∧ candidate base n ∉ used

theorem candidate_valid (hbase : GoodBase base.toList) (n : Nat) :
    isValidResourceId (candidate base n) = true ↔ (candidate base n).toList.length ≤ 64 := by
  obtain ⟨c,rest,hl,hc⟩ := hbase.lead
  have hchars := hbase.chars
  rw [hl] at hchars
  have hlist : (candidate base n).toList =
      c :: (rest ++ if n = 0 then [] else '-' :: Nat.toDigits 10 (n + 1)) := by
    rw [candidate_toList,hl,List.cons_append]
  have hrest : ∀ d ∈ rest ++ (if n = 0 then [] else '-' :: Nat.toDigits 10 (n + 1)),
      (isLowerAlnum d || d == '-' || d == '_') = true := by
    intro d hd
    rcases List.mem_append.mp hd with hd | hd
    · have hdash := hchars d (List.mem_cons_of_mem c hd)
      rw [isDashAlnum] at hdash
      rw [hdash,Bool.true_or]
    · split at hd
      · cases hd
      · rcases List.mem_cons.mp hd with rfl | hd
        · rfl
        · have hdigit : isDigit d = true := (Numeral.plain_toDigits (n + 1)).digits d hd
          rw [isLowerAlnum]
          rw [isDigit] at hdigit
          rw [hdigit,Bool.or_true,Bool.true_or,Bool.true_or]
  have hlower : ∀ d, isLowerAlnum d = true → Text.isAscii d = true :=
    fun d hd => isDashAlnum_ascii (by rw [isDashAlnum,hd,Bool.true_or])
  have hident := @matchesIdent_iff 64 _ isIdChar (candidate base n).toList hlower
    fun d hd => isIdChar_ascii hd
  rw [String.ofList_toList] at hident
  refine hident.trans ?_
  rw [hlist]
  constructor
  · rintro ⟨d,ds,hcons,-,-,hlen⟩
    obtain ⟨rfl,rfl⟩ := List.cons.inj hcons
    exact hlen
  · exact fun hlen => ⟨c,_,rfl,hc,hrest,hlen⟩

theorem first_short (hfree : candidate base k ∉ used) (htaken : ∀ i < k, candidate base i ∈ used) :
    (candidate base k).toList.length ≤ 64 ↔ ShortLeft base used := by
  constructor
  · exact fun h => ⟨k,h,hfree⟩
  · rintro ⟨n,hshort,hn⟩
    have hle : k ≤ n := not_lt.mp fun hlt => hn (htaken n hlt)
    exact (length_candidate_mono hle).trans hshort

end Candidates

section Runs

variable {used ids : List String} {targets : List (Kind × String)} {fuel : Nat}

def Roomy : List (Kind × String) → List String → List String → Prop
  | (kind,target) :: rest,used,id :: ids =>
    ShortLeft (baseOf target kind) used ∧ Roomy rest (used ++ [id]) ids
  | _,_,_ => True

structure Allotted (targets : List (Kind × String)) (used ids : List String) : Prop where
  count : ids.length = targets.length
  distinct : ids.Nodup
  fresh : ∀ id ∈ ids, id ∉ used
  valid : (∀ id ∈ ids, isValidResourceId id = true) ↔ Roomy targets used ids

theorem uniqueIds_allotted (targets : List (Kind × String)) : ∀ used : List String, ∃ ids,
    (∀ fuel, used.length + targets.length ≤ fuel → uniqueIds fuel targets used = some ids) ∧
      Allotted targets used ids := by
  induction targets with
  | nil => exact fun used => ⟨[],fun _ _ => rfl,rfl,List.nodup_nil,by simp,by simp [Roomy]⟩
  | cons t rest ih =>
    obtain ⟨kind,target⟩ := t
    intro used
    obtain ⟨k,hk,hfree,htaken⟩ := freeCandidate_first (baseOf target kind) used
    obtain ⟨ids,hids,hall⟩ := ih (used ++ [candidate (baseOf target kind) k])
    have hvalid := (candidate_valid (baseOf_good target kind) k).trans (first_short hfree htaken)
    refine ⟨candidate (baseOf target kind) k :: ids,fun fuel hfuel => ?_,?_,?_,?_,?_⟩
    · rw [List.length_cons] at hfuel
      have hrest := hids fuel (by
        rw [List.length_append,List.length_singleton]
        omega)
      simp [uniqueIds,uniqueId,hk fuel (by omega),hrest]
    · rw [List.length_cons,List.length_cons,hall.count]
    · exact List.nodup_cons.mpr ⟨fun hmem => hall.fresh _ hmem (by simp),hall.distinct⟩
    · refine List.forall_mem_cons.mpr ⟨hfree,fun id hid hused => ?_⟩
      exact hall.fresh id hid (List.mem_append_left _ hused)
    · rw [List.forall_mem_cons,hvalid,hall.valid,Roomy]

end Runs

theorem unique_ids_valid_iff (targets : List (Kind × String)) :
    ∃ ids, (∀ fuel, targets.length ≤ fuel → uniqueIds fuel targets [] = some ids) ∧
      ids.length = targets.length ∧ ids.Nodup ∧
      ((∀ id ∈ ids, isValidResourceId id = true) ↔ Roomy targets [] ids) := by
  obtain ⟨ids,hids,hall⟩ := uniqueIds_allotted targets []
  exact ⟨ids,fun fuel hfuel => hids fuel (by simpa using hfuel),hall.count,hall.distinct,hall.valid⟩

def pasteCrates : Crates where
  serdeJson _ := .error "expected value at line 1 column 1"
  parseF64 _ := none
  sha256 b := b
  base64Encode _ := ""
  base64Decode _ := .ok []
  verifyingKey _ := .ok ()
  ed25519Verify _ _ _ := false

def wordyHost : String := String.ofList (List.replicate 64 'a')

def wordyUrl : String := "https://" ++ wordyHost

theorem second_id_too_long :
    targetsOf pasteCrates [wordyUrl,wordyUrl] = [(.https,wordyUrl),(.https,wordyUrl)] ∧
    uniqueIds 2 [(.https,wordyUrl),(.https,wordyUrl)] [] = some [wordyHost,wordyHost ++ "-2"] ∧
    isValidResourceId (wordyHost ++ "-2") = false := by
  refine ⟨?_,?_,?_⟩
  all_goals decide +kernel

end MurlSystem.Playground

import MurlSystem.Foundation.PathVerbatim

namespace Path

section Flat

variable {os : Platform} {base b p rest : List Char} {c d : Char}

def Flat (os : Platform) (base : List Char) : Prop :=
  prefixOf os base = none ∨ ∃ n, prefixOf os base = some (.disk,n)

def Barless (os : Platform) (base : List Char) : Prop :=
  os = .windows → prefixOf os base = none → bars.isPrefixOf (backslashed base) = false

def driveOf : List Char → Option (Prefix × Nat)
  | d :: ':' :: _ => if isLetter d then some (.disk,2) else none
  | _ => none

theorem driveOf_cons : driveOf (c :: d :: rest) =
    if d = ':' ∧ isLetter c = true then some (.disk,2) else none := by
  unfold driveOf
  by_cases hd : d = ':' <;> by_cases hc : isLetter c = true <;> simp [hd,hc]

theorem driveOf_short : driveOf [c] = none := rfl

theorem parsePrefix_barless (h : bars.isPrefixOf (backslashed p) = false) :
    parsePrefix p = driveOf p := by
  have hbars : ¬['\\','\\'].isPrefixOf (backslashed p) = true := by
    rw [Bool.not_eq_true]
    exact h
  unfold parsePrefix driveOf
  exact if_neg hbars

theorem backslash_iff : (if c = '/' then '\\' else c) = '\\' ↔ isSep .windows c = true := by
  by_cases hc : c = '/' <;> simp [isSep,hc]

theorem bars_cons : bars.isPrefixOf (backslashed (c :: d :: rest)) =
    (isSep .windows c && isSep .windows d) := by
  rw [Bool.eq_iff_iff,Bool.and_eq_true,← backslash_iff,← backslash_iff,List.isPrefixOf_iff_prefix]
  unfold bars backslashed
  rw [List.map_cons,List.map_cons,List.cons_prefix_cons,List.cons_prefix_cons]
  constructor
  · rintro ⟨hc,hd,-⟩
    exact ⟨hc.symm,hd.symm⟩
  · rintro ⟨hc,hd⟩
    exact ⟨hc.symm,hd.symm,List.nil_prefix⟩

theorem bars_short : bars.isPrefixOf (backslashed [c]) = false := by
  simp [bars,backslashed,List.isPrefixOf]

theorem Flat.verbatim (h : Flat os base) : isVerbatim os base = false := by
  rcases h with h | ⟨n,h⟩ <;> simp [isVerbatim,h,Prefix.isVerbatim]

theorem disk_bare {n : Nat} (h : prefixOf os base = some (.disk,n)) :
    n = 2 ∧ ∃ d rest, base = d :: ':' :: rest ∧ isLetter d = true := by
  cases os with
  | posix => cases h
  | windows => exact parsePrefix_disk h

theorem Flat.joint_cases (h : Flat os base) :
    joint os base = [mainSep os] ∧ base.drop (prefixLen os base) ≠ [] ∨
    joint os base = [] ∧ base.drop (prefixLen os base) = [] ∨
    joint os base = [] ∧
      ∃ x c, base.drop (prefixLen os base) = x ++ [c] ∧ isSep os c = true := by
  by_cases hempty : base.drop (prefixLen os base) = []
  · refine .inr (.inl ⟨?_,hempty⟩)
    rcases h with h | ⟨n,h⟩
    · have hnil : base = [] := by simpa [prefixLen,h] using hempty
      rw [hnil]
      rfl
    · obtain ⟨rfl,d,rest,rfl,-⟩ := disk_bare h
      have hrest : rest = [] := by simpa [prefixLen,h] using hempty
      subst hrest
      simp [joint,h]
  · obtain ⟨x,c,hx⟩ := List.eq_nil_or_concat _ |>.resolve_left hempty
    rw [List.concat_eq_append] at hx
    have hbase : base = (base.take (prefixLen os base) ++ x) ++ [c] := by
      rw [List.append_assoc,← hx,List.take_append_drop]
    have hbare : prefixOf os base ≠ some (.disk,base.length) := by
      intro hb
      have hlen : prefixLen os base = base.length := by simp [prefixLen,hb]
      rw [hlen,List.drop_length] at hempty
      exact hempty rfl
    have hjoint := joint_bare hbare hbase
    cases hc : isSep os c with
    | false =>
      refine .inl ⟨?_,hempty⟩
      rw [hjoint,hc]
      rfl
    | true =>
      refine .inr (.inr ⟨?_,x,c,hx,hc⟩)
      rw [hjoint,hc]
      rfl

theorem not_bars_name (hb : plainName .windows b = true) :
    bars.isPrefixOf (backslashed b) = false := by
  cases b with
  | nil => rfl
  | cons c rest =>
    have hc := plainName_starts hb
    cases rest with
    | nil => exact bars_short
    | cons d rest => rw [bars_cons,hc,Bool.false_and]

theorem none_push (h : parsePrefix base = none) (hbars : bars.isPrefixOf (backslashed base) = false)
    (hb : plainName .windows b = true) :
    bars.isPrefixOf (backslashed (base ++ joint .windows base ++ b)) = false ∧
      parsePrefix (base ++ joint .windows base ++ b) = none := by
  cases base with
  | nil => exact ⟨not_bars_name hb, plainName_prefix hb⟩
  | cons c rest =>
    have hdrive : driveOf (c :: rest) = none := (parsePrefix_barless hbars).symm.trans h
    cases rest with
    | cons d rest =>
      have hsame : bars.isPrefixOf (backslashed (c :: d :: rest ++ joint .windows (c :: d :: rest) ++ b)) =
          false := by
        rw [List.append_assoc,List.cons_append,List.cons_append,bars_cons,← bars_cons]
        exact hbars
      refine ⟨hsame,?_⟩
      rw [parsePrefix_barless hsame,List.append_assoc,List.cons_append,List.cons_append,driveOf_cons,
        ← @driveOf_cons rest]
      exact hdrive
    | nil =>
      have hbare : prefixOf .windows [c] ≠ some (.disk,[c].length) := by
        intro hdisk
        rw [prefixOf,h] at hdisk
        cases hdisk
      have hjoint := joint_bare (x := []) hbare rfl
      cases hc : isSep .windows c with
      | false =>
        rw [hjoint,hc]
        have hsame : bars.isPrefixOf (backslashed (c :: '\\' :: b)) = false := by
          rw [bars_cons,hc,Bool.false_and]
        refine ⟨hsame,(parsePrefix_barless hsame).trans ?_⟩
        rw [driveOf_cons,if_neg (fun hcolon => absurd hcolon.1 (by decide))]
      | true =>
        rw [hjoint,hc]
        cases b with
        | nil => exact ⟨bars_short,h⟩
        | cons d rest =>
          have hsame : bars.isPrefixOf (backslashed (c :: d :: rest)) = false := by
            rw [bars_cons,plainName_starts hb,Bool.and_false]
          refine ⟨hsame,(parsePrefix_barless hsame).trans ?_⟩
          rw [driveOf_cons,if_neg]
          rintro ⟨-,hletter⟩
          rw [isSep_letter hletter] at hc
          cases hc

theorem Flat.push_keeps (h : Flat os base) (hbars : Barless os base)
    (hb : plainName os b = true) :
    prefixOf os (base ++ joint os base ++ b) = prefixOf os base ∧
      Barless os (base ++ joint os base ++ b) := by
  cases os with
  | posix => exact ⟨rfl,fun hos => by cases hos⟩
  | windows =>
    rcases h with hnone | ⟨n,hdisk⟩
    · obtain ⟨hbars',hnone'⟩ := none_push hnone (hbars rfl hnone) hb
      exact ⟨hnone'.trans hnone.symm,fun _ _ => hbars'⟩
    · obtain ⟨rfl,d,rest,rfl,hd⟩ := disk_bare hdisk
      have hsame : prefixOf .windows (d :: ':' :: rest ++ joint .windows (d :: ':' :: rest) ++ b) =
          some (.disk,2) := by
        rw [List.append_assoc]
        exact (PlainPrefix.disk hd).parse
      refine ⟨hsame.trans hdisk.symm,fun _ hnone => ?_⟩
      rw [hsame] at hnone
      cases hnone

theorem Flat.le_length (h : Flat os base) : prefixLen os base ≤ base.length := by
  rcases h with h | ⟨n,h⟩
  · simp [prefixLen,h]
  · obtain ⟨rfl,d,rest,rfl,-⟩ := disk_bare h
    simp [prefixLen,h]

theorem Flat.drop_push (h : Flat os base) : (base ++ joint os base ++ b).drop (prefixLen os base) =
    base.drop (prefixLen os base) ++ joint os base ++ b := by
  rw [List.append_assoc,List.drop_append_of_le_length h.le_length,List.append_assoc]

theorem head_push {y j : List Char} (hj : y ≠ [] ∧ j = [mainSep os] ∨
    j = [] ∧ ∃ x c, y = x ++ [c] ∧ isSep os c = true) :
    (y ++ j ++ b).head? = y.head? ∧
      ((y ++ j ++ b).splitOnP (isSep os)).head? = (y.splitOnP (isSep os)).head? := by
  have hcut (x t : List Char) {c : Char} (hc : isSep os c = true) :
      ((x ++ c :: t).splitOnP (isSep os)).head? = (x.splitOnP (isSep os)).head? := by
    obtain ⟨p,ps,hp⟩ := List.exists_cons_of_ne_nil (List.splitOnP_ne_nil (isSep os) x)
    rw [List.splitOnP_append_cons x t hc,hp]
    rfl
  rcases hj with ⟨hne,rfl⟩ | ⟨rfl,x,c,rfl,hc⟩
  · obtain ⟨c,cs,rfl⟩ := List.exists_cons_of_ne_nil hne
    refine ⟨rfl,?_⟩
    rw [List.append_assoc]
    exact hcut _ _ isSep_mainSep
  · constructor
    · cases x <;> rfl
    · rw [List.append_nil,List.append_assoc,List.singleton_append,hcut x b hc,hcut x [] hc]

def opening (os : Platform) (n : Nat) (rest : List Char) : List Component :=
  if rest.head?.any (isSep os) then [.rootDir]
  else if n = 0 && (rest.splitOnP (isSep os)).head? == some ['.'] then [.curDir] else []

theorem Flat.hasRoot_eq (h : Flat os base) :
    hasRoot os base = (base.drop (prefixLen os base)).head?.any (isSep os) := by
  have hphysical : hasRoot os base = hasPhysicalRoot os base := by
    rcases h with h | ⟨n,h⟩ <;> simp [hasRoot,h,Prefix.isDrive]
  rw [hphysical,Bool.eq_iff_iff,hasPhysicalRoot_iff]
  cases base.drop (prefixLen os base) with
  | nil => simp
  | cons c rest => simp

theorem Flat.components_eq (h : Flat os base) : components os base =
    (if prefixLen os base = 0 then [] else [.pre (base.take (prefixLen os base))]) ++
    opening os (prefixLen os base) (base.drop (prefixLen os base)) ++
    named (isSep os) false (base.drop (prefixLen os base)) := by
  rw [Path.components_eq fun c _ => sepIn_sep h.verbatim c,h.verbatim,sepIn_plain h.verbatim,h.hasRoot_eq,opening]
  cases hroot : (base.drop (prefixLen os base)).head?.any (isSep os) <;> simp

theorem opening_name {n : Nat} (hb : plainName os b = true) : opening os n b = [] := by
  obtain ⟨-,hcur,-⟩ := plainName_components hb
  have hhead : b.head?.any (isSep os) = false := by
    cases b with
    | nil => rfl
    | cons c rest => exact plainName_starts hb
  rw [opening,hhead]
  simp [hcur]

theorem opening_nil {n : Nat} : opening os n [] = [] := by
  simp [opening,List.splitOnP_nil]

theorem Flat.components_push (h : Flat os base) (hbars : Barless os base)
    (hb : plainName os b = true) :
    components os (base ++ joint os base ++ b) = components os base ++ components os b := by
  obtain ⟨hsame,-⟩ := h.push_keeps hbars hb
  have hlen : prefixLen os (base ++ joint os base ++ b) = prefixLen os base :=
    prefixLen_congr hsame
  have hflat : Flat os (base ++ joint os base ++ b) := by
    rw [Flat,hsame]
    exact h
  have htake : (base ++ joint os base ++ b).take (prefixLen os base) =
      base.take (prefixLen os base) := by
    rw [List.append_assoc,List.take_append_of_le_length h.le_length]
  have hrest : opening os (prefixLen os base) (base.drop (prefixLen os base) ++ joint os base ++ b) =
        opening os (prefixLen os base) (base.drop (prefixLen os base)) ∧
      named (isSep os) false (base.drop (prefixLen os base) ++ joint os base ++ b) =
        named (isSep os) false (base.drop (prefixLen os base)) ++ components os b := by
    rw [← named_plain hb]
    have hset : ∀ y j : List Char, (y ≠ [] ∧ j = [mainSep os] ∨
        j = [] ∧ ∃ x c, y = x ++ [c] ∧ isSep os c = true) →
        opening os (prefixLen os base) (y ++ j ++ b) = opening os (prefixLen os base) y ∧
          named (isSep os) false (y ++ j ++ b) =
            named (isSep os) false y ++ named (isSep os) false b := by
      intro y j hj
      obtain ⟨hhead,hpieces⟩ := head_push (b := b) hj
      refine ⟨by rw [opening,opening,hhead,hpieces],named_joined ?_⟩
      exact hj.imp (fun hw => ⟨_,hw.2,isSep_mainSep⟩) id
    rcases h.joint_cases with ⟨hjoint,hne⟩ | ⟨hjoint,hnil⟩ | hend
    · exact hset _ _ (.inl ⟨hne,hjoint⟩)
    · rw [hjoint,hnil,List.append_nil,List.nil_append,opening_name hb,opening_nil,named_nil]
      exact ⟨rfl,rfl⟩
    · exact hset _ _ (.inr hend)
  rw [hflat.components_eq,h.components_eq,hlen,h.drop_push,htake,hrest.1,hrest.2]
  simp

end Flat

section Whole

variable {os : Platform} {base b : List Char} {names : List (List Char)}

def impliedRoot (os : Platform) (base : List Char) : List Component :=
  if isVerbatim os base then rootOf (components os base) else []

structure Whole (os : Platform) (base : List Char) : Prop where
  complete : Complete os base
  barless : Barless os base

theorem whole_posix (base : List Char) : Whole .posix base where
  complete := {
    device := fun _ h => (by cases h)
    named := fun _ h => (by cases h)
    share := fun _ h => (by cases h) }
  barless := fun h => (by cases h)

theorem flat_or_absolute (os : Platform) (base : List Char) :
    Flat os base ∨ isAbsolute os base = true ∧ (prefixOf os base).isSome = true := by
  cases hp : prefixOf os base with
  | none => exact .inl (.inl hp)
  | some q =>
    obtain ⟨k,n⟩ := q
    by_cases hk : k = .disk
    · subst hk
      exact .inl (.inr ⟨n,hp⟩)
    · refine .inr ⟨?_,rfl⟩
      cases os with
      | posix => cases hp
      | windows =>
        have hdrive : k.isDrive = false := by simpa [Prefix.isDrive] using hk
        simp [isAbsolute,hasRoot,hp,hdrive]

theorem push_whole (h : Whole os base) (hne : b ≠ []) (hb : plainName os b = true) :
    components os (push os base b) =
        components os base ++ impliedRoot os base ++ components os b ∧
      Whole os (push os base b) := by
  rcases flat_or_absolute os base with hflat | ⟨habs,hsome⟩
  · rw [push_plain hb hflat.verbatim,impliedRoot,hflat.verbatim]
    obtain ⟨hsame,hbars⟩ := hflat.push_keeps h.barless hb
    refine ⟨by simpa using hflat.components_push h.barless hb,?_,hbars⟩
    have hflat' : Flat os (base ++ joint os base ++ b) := by
      rw [Flat,hsame]
      exact hflat
    have hno : ∀ k n, k ≠ .disk → prefixOf os (base ++ joint os base ++ b) ≠ some (k,n) := by
      intro k n hk hp
      rcases hflat' with hnone | ⟨m,hdisk⟩
      · rw [hnone] at hp
        cases hp
      · rw [hdisk] at hp
        cases hp
        exact hk rfl
    exact ⟨fun n hp => absurd hp (hno _ _ (by decide)),
      fun n hp => absurd hp (hno _ _ (by decide)),fun n hp => absurd hp (hno _ _ (by decide))⟩
  · obtain ⟨hcomp,habs',hcomplete⟩ := push_extends habs h.complete hne hb
    have hroot : rootOf (components os base) = impliedRoot os base := by
      unfold impliedRoot
      split
      · rfl
      · rename_i hverb
        exact rootOf_absolute habs (by simpa using hverb)
    rw [← hroot]
    refine ⟨hcomp,hcomplete,fun hos hnone => ?_⟩
    subst hos
    obtain ⟨k,n,hp⟩ := absolute_prefix habs'
    rw [hnone] at hp
    cases hp

structure Sole (name : List Char) : Prop where
  nonempty : name ≠ []
  solid : name ≠ ['.'] ∧ name ≠ ['.','.']
  plain : ∀ c ∈ name, c ≠ '/' ∧ c ≠ '\\' ∧ c ≠ ':'

theorem Sole.free {name : List Char} (h : Sole name) : ∀ c ∈ name, isSep os c = false := by
  intro c hc
  obtain ⟨hslash,hback,-⟩ := h.plain c hc
  cases os <;> simp [isSep,hslash,hback]

theorem Sole.prefixless {name : List Char} (h : Sole name) : prefixOf os name = none := by
  cases os with
  | posix => rfl
  | windows =>
    obtain ⟨c,rest,rfl⟩ := List.exists_cons_of_ne_nil h.nonempty
    have hc : isSep .windows c = false := h.free c (by simp)
    cases rest with
    | nil => exact (parsePrefix_barless bars_short).trans driveOf_short
    | cons d rest =>
      have hbars : bars.isPrefixOf (backslashed (c :: d :: rest)) = false := by
        rw [bars_cons,hc,Bool.false_and]
      have hcolon : d ≠ ':' := (h.plain d (by simp)).2.2
      rw [prefixOf,parsePrefix_barless hbars,driveOf_cons,if_neg fun hd => hcolon hd.1]

theorem Sole.components {name : List Char} (h : Sole name) :
    components os name = [.normal name] := by
  have hflat : Flat os name := .inl h.prefixless
  have hlen : prefixLen os name = 0 := by simp [prefixLen,h.prefixless]
  obtain ⟨c,rest,hname⟩ := List.exists_cons_of_ne_nil h.nonempty
  have hpieces : name.splitOnP (isSep os) = [name] := List.splitOnP_eq_singleton h.free
  have hhead : name.head?.any (isSep os) = false := by
    rw [hname]
    exact h.free c (by rw [hname]; simp)
  rw [hflat.components_eq,hlen,List.drop_zero,opening,hhead,named,hpieces]
  simp [h.solid,piece,h.nonempty]

theorem Sole.plainName {name : List Char} (h : Sole name) : plainName os name = true := by
  rw [Path.plainName,h.components]
  rfl

theorem normal_ends {cs : List Component} {name : List Char} :
    rootOf (cs ++ [.normal name]) = [] := by
  cases cs with
  | nil => rfl
  | cons c cs => cases cs <;> cases c <;> rfl

theorem foldl_push_whole (h : Whole os base) (hne : names ≠ []) (hnames : ∀ n ∈ names, Sole n) :
    components os (names.foldl (push os) base) =
      components os base ++ impliedRoot os base ++ names.map .normal := by
  induction names generalizing base with
  | nil => exact absurd rfl hne
  | cons n rest ih =>
    have hn := hnames n (by simp)
    obtain ⟨hcomp,hwhole⟩ := push_whole h hn.nonempty hn.plainName
    rw [hn.components] at hcomp
    rw [List.foldl_cons,List.map_cons]
    by_cases hrest : rest = []
    · subst hrest
      exact hcomp
    · have himplied : impliedRoot os (push os base n) = [] := by
        rw [impliedRoot,hcomp,normal_ends,ite_self]
      rw [ih hwhole hrest fun m hm => hnames m (by simp [hm]),hcomp,himplied]
      simp

end Whole

end Path

import MurlSystem.Foundation.Text

namespace Path

inductive Platform where
  | posix
  | windows
deriving DecidableEq, Repr

def isSep : Platform → Char → Bool
  | .posix,c => c == '/'
  | .windows,c => c == '/' || c == '\\'

def mainSep : Platform → Char
  | .posix => '/'
  | .windows => '\\'

inductive Prefix where
  | verbatim
  | verbatimUnc
  | verbatimDisk
  | deviceNs
  | unc
  | disk
deriving DecidableEq, Repr

def Prefix.isVerbatim : Prefix → Bool
  | .verbatim | .verbatimUnc | .verbatimDisk => true
  | _ => false

def Prefix.isDrive (k : Prefix) : Bool := k == .disk

inductive Component where
  | pre (text : List Char)
  | rootDir
  | curDir
  | parentDir
  | normal (name : List Char)
deriving DecidableEq, Repr

def Component.isNormal : Component → Bool
  | .normal _ => true
  | _ => false

def Component.text (os : Platform) : Component → List Char
  | .pre t => t
  | .rootDir => [mainSep os]
  | .curDir => ['.']
  | .parentDir => ['.','.']
  | .normal n => n

def isLetter (c : Char) : Bool := ('a' ≤ c && c ≤ 'z') || ('A' ≤ c && c ≤ 'Z')

def nextComponent (sep : Char → Bool) (p : List Char) : List Char × List Char :=
  (p.takeWhile (fun c => !sep c),(p.dropWhile (fun c => !sep c)).drop 1)

def pairLen (first second : List Char) : Nat :=
  first.length + if second.isEmpty then 0 else 1 + second.length

def backslashed (p : List Char) : List Char := p.map fun c => if c = '/' then '\\' else c

def exactDrive : List Char → Bool
  | d :: ':' :: rest => isLetter d && rest.head?.all (isSep .windows)
  | _ => false

def verbatimName (u : List Char) : Prefix × Nat :=
  if exactDrive u then (.verbatimDisk,2)
  else (.verbatim,(nextComponent (· == '\\') u).1.length)

def parsePrefix (p : List Char) : Option (Prefix × Nat) :=
  let q := backslashed p
  if ['\\','\\'].isPrefixOf q then
    if ['\\','\\','?','\\'].isPrefixOf q && !(p.take 4).contains '/' then
      if ['\\','\\','?','\\','U','N','C','\\'].isPrefixOf q then
        let (server,rest) := nextComponent (· == '\\') (p.drop 8)
        let (share,_) := nextComponent (· == '\\') rest
        some (.verbatimUnc,8 + pairLen server share)
      else
        some ((verbatimName (p.drop 4)).1,4 + (verbatimName (p.drop 4)).2)
    else if ['\\','\\','.','\\'].isPrefixOf q then
      some (.deviceNs,4 + (nextComponent (isSep .windows) (p.drop 4)).1.length)
    else
      let (server,rest) := nextComponent (isSep .windows) (p.drop 2)
      let (share,_) := nextComponent (isSep .windows) rest
      if !server.isEmpty && !share.isEmpty then some (.unc,2 + pairLen server share) else none
  else
    match p with
    | d :: ':' :: _ => if isLetter d then some (.disk,2) else none
    | _ => none

def prefixOf : Platform → List Char → Option (Prefix × Nat)
  | .posix,_ => none
  | .windows,p => parsePrefix p

def isVerbatim (os : Platform) (p : List Char) : Bool :=
  match prefixOf os p with
  | some (k,_) => k.isVerbatim
  | none => false

def sepIn (os : Platform) (p : List Char) (c : Char) : Bool :=
  if isVerbatim os p then c == '\\' else isSep os c

def hasPhysicalRoot (os : Platform) (p : List Char) : Bool :=
  let n := match prefixOf os p with | some (_,n) => n | none => 0
  match p.drop n with
  | c :: _ => isSep os c
  | [] => false

def hasRoot (os : Platform) (p : List Char) : Bool :=
  hasPhysicalRoot os p ||
    match prefixOf os p with
    | some (k,_) => !k.isDrive
    | none => false

def isAbsolute (os : Platform) (p : List Char) : Bool :=
  match os with
  | .posix => hasRoot os p
  | .windows => hasRoot os p && (prefixOf os p).isSome

def piece (verbatim : Bool) (s : List Char) : Option Component :=
  if s = ['.'] then if verbatim then some .curDir else none
  else if s = ['.','.'] then some .parentDir
  else if s = [] then none
  else some (.normal s)

def components (os : Platform) (p : List Char) : List Component :=
  let n := match prefixOf os p with | some (_,n) => n | none => 0
  let verbatim := isVerbatim os p
  let body := if hasPhysicalRoot os p then (p.drop n).drop 1 else p.drop n
  let pieces := body.splitOnP (sepIn os p)
  let root := hasRoot os p && (hasPhysicalRoot os p || !verbatim)
  (if n = 0 then [] else [.pre (p.take n)]) ++
  (if root then [.rootDir]
    else if n = 0 && !hasRoot os p && pieces.head? == some ['.'] then [.curDir] else []) ++
  pieces.filterMap (piece verbatim)

def render (os : Platform) : Bool → List Component → List Char
  | _,[] => []
  | needSep,c :: rest =>
    (if needSep && c != .rootDir then [mainSep os] else []) ++ c.text os ++
    render os (c != .rootDir) rest

def applyComponent (buf : List Component) : Component → List Component
  | .pre t => buf ++ [.pre t]
  | .rootDir => buf.take 1 ++ [.rootDir]
  | .curDir => buf
  | .parentDir =>
    match buf.getLast? with
    | some (.normal _) => buf.dropLast
    | _ => buf
  | .normal n => buf ++ [.normal n]

def push (os : Platform) (base p : List Char) : List Char :=
  let endsInSep := match base.getLast? with | some c => isSep os c | none => true
  let bareDrive := prefixOf os base == some (.disk,base.length)
  let needSep := !endsInSep && !bareDrive
  if isAbsolute os p || (prefixOf os p).isSome then p
  else if isVerbatim os base && !p.isEmpty then
    render os false ((components os p).foldl applyComponent (components os base))
  else if hasRoot os p then
    (match prefixOf os base with | some (_,n) => base.take n | none => []) ++ p
  else base ++ (if needSep then [mainSep os] else []) ++ p

def plainName (os : Platform) (segment : List Char) : Bool :=
  (components os segment).all Component.isNormal

def counts (piece : List Char) : Bool := !piece.isEmpty && piece != ['.']

def finalPiece (os : Platform) (p : List Char) : Option (List Char) :=
  ((p.splitOnP (isSep os)).filter counts).getLast?

example : push .windows "C:\\Users\\u".toList "p\\q".toList = "C:\\Users\\u\\p\\q".toList := by
  decide +kernel

section Final

variable {os : Platform}

theorem finalPiece_append (x y : List Char) {c : Char} (hc : isSep os c = true) :
    finalPiece os (x ++ c :: y) = (finalPiece os y).or (finalPiece os x) := by
  simp only [finalPiece,List.splitOnP_append_cons _ _ hc,List.filter_append,List.getLast?_append]

theorem finalPiece_nil : finalPiece os [] = none := by
  simp [finalPiece,counts]

theorem finalPiece_plain {p : List Char} (hsep : ∀ c ∈ p, isSep os c = false)
    (hp : counts p = true) : finalPiece os p = some p := by
  simp [finalPiece,List.splitOnP_eq_singleton hsep,hp]

theorem finalPiece_plain_none {p : List Char} (hsep : ∀ c ∈ p, isSep os c = false)
    (h : finalPiece os p = none) : p = [] ∨ p = ['.'] := by
  rw [finalPiece,List.splitOnP_eq_singleton hsep] at h
  by_contra hne
  rw [not_or] at hne
  have hp : counts p = true := by simp [counts,hne.1,hne.2]
  simp [hp] at h

theorem finalPiece_trailing (x : List Char) {c : Char} (hc : isSep os c = true) :
    finalPiece os (x ++ [c]) = finalPiece os x := by
  rw [finalPiece_append x [] hc,finalPiece_nil,Option.none_or]

theorem finalPiece_under (x : List Char) {y : List Char} {c : Char} (hc : isSep os c = true)
    (hy : (finalPiece os y).isSome = true) : finalPiece os (x ++ c :: y) = finalPiece os y := by
  obtain ⟨f,hf⟩ := Option.isSome_iff_exists.mp hy
  rw [finalPiece_append x y hc,hf,Option.some_or]

def AtBoundary (os : Platform) (x : List Char) : Prop := ∀ c ∈ x.getLast?, isSep os c = true

def Trailing (os : Platform) (t : List Char) : Prop :=
  t = [] ∨ ∃ c t', t = c :: t' ∧ isSep os c = true ∧ finalPiece os t' = none

theorem finalPiece_intro {x f t : List Char} (hx : AtBoundary os x)
    (hsep : ∀ c ∈ f, isSep os c = false) (hf : counts f = true) (ht : Trailing os t) :
    finalPiece os (x ++ (f ++ t)) = some f := by
  have hft : finalPiece os (f ++ t) = some f := by
    rcases ht with rfl | ⟨c,t',rfl,hc,hnone⟩
    · rw [List.append_nil,finalPiece_plain hsep hf]
    · rw [finalPiece_append f t' hc,hnone,Option.none_or,finalPiece_plain hsep hf]
  rcases List.eq_nil_or_concat x with rfl | ⟨x',c,rfl⟩
  · exact hft
  · have hc : isSep os c = true := hx c (by simp)
    rw [List.concat_eq_append,List.append_assoc,List.singleton_append,finalPiece_under x' hc (by simp [hft]),hft]

theorem finalPiece_elim {p f : List Char} (h : finalPiece os p = some f) :
    ∃ x t, p = x ++ (f ++ t) ∧ AtBoundary os x ∧ Trailing os t ∧
      (∀ c ∈ f, isSep os c = false) ∧ counts f = true := by
  induction hn : p.length using Nat.strongRecOn generalizing p with
  | _ n ih =>
    rcases Text.cut_last (isSep os) p with hsep | ⟨a,s,b,rfl,hs,hb⟩
    · by_cases hp : counts p = true
      · obtain rfl : p = f := by simpa [finalPiece_plain hsep hp] using h
        exact ⟨[],[],by simp,by simp [AtBoundary],.inl rfl,hsep,hp⟩
      · simp [finalPiece,List.splitOnP_eq_singleton hsep,hp] at h
    · rw [finalPiece_append a b hs] at h
      by_cases hcb : counts b = true
      · obtain rfl : b = f := by simpa [finalPiece_plain hb hcb] using h
        exact ⟨a ++ [s],[],by simp,by simpa [AtBoundary] using hs,.inl rfl,hb,hcb⟩
      · have hnone : finalPiece os b = none := by
          simp [finalPiece,List.splitOnP_eq_singleton hb,hcb]
        rw [hnone,Option.none_or] at h
        obtain ⟨x,t,rfl,hx,ht,hf⟩ := ih a.length (by simp at hn; omega) h rfl
        refine ⟨x,t ++ s :: b,by simp,hx,?_,hf⟩
        right
        rcases ht with rfl | ⟨c,t',rfl,hc,ht'⟩
        · exact ⟨s,b,rfl,hs,hnone⟩
        · refine ⟨c,t' ++ s :: b,rfl,hc,?_⟩
          rw [finalPiece_append t' b hs,hnone,ht']
          rfl

end Final

section Push

variable {os : Platform}

theorem verbatimName_verbatim (u : List Char) : (verbatimName u).1.isVerbatim = true := by
  unfold verbatimName
  split <;> rfl

theorem parsePrefix_pos {p : List Char} {k : Prefix} {n : Nat}
    (h : parsePrefix p = some (k,n)) : 2 ≤ n := by
  unfold parsePrefix at h
  grind

theorem parsePrefix_disk {p : List Char} {n : Nat} (h : parsePrefix p = some (.disk,n)) :
    n = 2 ∧ ∃ d rest, p = d :: ':' :: rest ∧ isLetter d = true := by
  have hkind : ∀ u, (verbatimName u).1 ≠ .disk := by
    intro u he
    have hv := verbatimName_verbatim u
    rw [he] at hv
    cases hv
  unfold parsePrefix at h
  grind

theorem prefixOf_pos {p : List Char} {k : Prefix} {n : Nat} (h : prefixOf os p = some (k,n)) :
    2 ≤ n := by
  cases os with
  | posix => cases h
  | windows => exact parsePrefix_pos h

theorem prefixOf_bare {p : List Char} (h : prefixOf os p = some (.disk,p.length)) :
    ∃ d, isLetter d = true ∧ p = [d,':'] := by
  cases os with
  | posix => cases h
  | windows =>
    obtain ⟨hlen,d,rest,rfl,hd⟩ := parsePrefix_disk h
    have hrest : rest = [] := List.length_eq_zero_iff.mp (by simpa using hlen)
    exact ⟨d,hd,by rw [hrest]⟩

theorem components_prefix {p : List Char} {k : Prefix} {n : Nat}
    (h : prefixOf os p = some (k,n)) : ∃ rest, components os p = .pre (p.take n) :: rest := by
  have hn : n ≠ 0 := by
    have hpos := prefixOf_pos h
    omega
  unfold components
  simp only [h,if_neg hn,List.singleton_append]
  exact ⟨_,rfl⟩

theorem isSep_letter {d : Char} (hd : isLetter d = true) : isSep os d = false := by
  have hslash : d ≠ '/' := fun h => by subst h; revert hd; decide
  have hback : d ≠ '\\' := fun h => by subst h; revert hd; decide
  cases os <;> simp [isSep,hslash,hback]

theorem isSep_colon : isSep os ':' = false := by
  cases os <;> rfl

theorem isSep_slash : isSep os '/' = true := by
  cases os <;> rfl

theorem isSep_mainSep : isSep os (mainSep os) = true := by
  cases os <;> rfl

theorem plainName_prefix {b : List Char} (h : plainName os b = true) : prefixOf os b = none := by
  cases hpre : prefixOf os b with
  | none => rfl
  | some q =>
    obtain ⟨rest,hrest⟩ := components_prefix (k := q.1) (n := q.2) hpre
    simp [plainName,hrest,Component.isNormal] at h

theorem plainName_components {b : List Char} (h : plainName os b = true) :
    hasRoot os b = false ∧ (b.splitOnP (isSep os)).head? ≠ some ['.'] ∧
      components os b = (b.splitOnP (isSep os)).filterMap (piece false) := by
  have hpre := plainName_prefix h
  have hverb : isVerbatim os b = false := by simp [isVerbatim,hpre]
  have hsep : sepIn os b = isSep os := by
    funext c
    simp [sepIn,hverb]
  have hphys : hasPhysicalRoot os b = hasRoot os b := by simp [hasRoot,hpre]
  unfold plainName at h
  have hroot : hasRoot os b = false := by
    cases hr : hasRoot os b with
    | false => rfl
    | true => simp [components,hpre,hphys,hr,Component.isNormal] at h
  have hcomp : components os b = (if (b.splitOnP (isSep os)).head? == some ['.'] then [.curDir]
      else []) ++ (b.splitOnP (isSep os)).filterMap (piece false) := by
    simp [components,hpre,hverb,hsep,hphys,hroot]
  rw [hcomp,List.all_append,Bool.and_eq_true] at h
  have hcur : (b.splitOnP (isSep os)).head? ≠ some ['.'] := by
    intro hc
    simp [hc,Component.isNormal] at h
  refine ⟨hroot,hcur,?_⟩
  rw [hcomp]
  simp [hcur]

theorem filterMap_piece {l : List (List Char)}
    (h : (l.filterMap (piece false)).all Component.isNormal = true) :
    l.filterMap (piece false) = (l.filter counts).map Component.normal := by
  induction l with
  | nil => rfl
  | cons s rest ih =>
    have hrest : (rest.filterMap (piece false)).all Component.isNormal = true := by
      cases hp : piece false s with
      | none => rwa [List.filterMap_cons_none hp] at h
      | some c =>
        rw [List.filterMap_cons_some hp,List.all_cons,Bool.and_eq_true] at h
        exact h.2
    by_cases hdot : s = ['.']
    · simpa [List.filterMap_cons,piece,counts,hdot] using ih hrest
    · by_cases hup : s = ['.','.']
      · simp [piece,hup,Component.isNormal] at h
      · by_cases hnil : s = []
        · simpa [List.filterMap_cons,piece,counts,hnil] using ih hrest
        · have hcount : counts s = true := by simp [counts,hdot,hnil]
          simp [piece,hdot,hup,hnil,hcount,ih hrest]

theorem plainName_starts {c : Char} {cs : List Char} (h : plainName os (c :: cs) = true) :
    isSep os c = false := by
  obtain ⟨hroot,-,-⟩ := plainName_components h
  have hpre := plainName_prefix h
  have hverb : isVerbatim os (c :: cs) = false := by simp [isVerbatim,hpre]
  simpa [hasRoot,hasPhysicalRoot,hpre] using hroot

theorem plainName_final {b : List Char} (hb : b ≠ []) (h : plainName os b = true) :
    ∃ names f, components os b = (names ++ [f]).map Component.normal ∧
      finalPiece os b = some f := by
  obtain ⟨-,hcur,hcomp⟩ := plainName_components h
  have hall : ((b.splitOnP (isSep os)).filterMap (piece false)).all Component.isNormal = true := by
    rw [← hcomp]
    exact h
  rw [filterMap_piece hall] at hcomp
  have hne : (b.splitOnP (isSep os)).filter counts ≠ [] := by
    cases b with
    | nil => exact absurd rfl hb
    | cons c cs =>
      have hc := plainName_starts h
      obtain ⟨s,rest,hs⟩ := List.exists_cons_of_ne_nil (List.splitOnP_ne_nil (isSep os) cs)
      have hpieces : (c :: cs).splitOnP (isSep os) = (c :: s) :: rest := by
        rw [List.splitOnP_cons_eq_if_modifyHead,hc,hs]
        rfl
      rw [hpieces] at hcur ⊢
      have hcount : counts (c :: s) = true := by
        simpa [counts] using hcur
      simp [hcount]
  refine ⟨((b.splitOnP (isSep os)).filter counts).dropLast,
    ((b.splitOnP (isSep os)).filter counts).getLast hne,?_,?_⟩
  · rw [List.dropLast_append_getLast hne,hcomp]
  · rw [finalPiece,List.getLast?_eq_getLast_of_ne_nil hne]

theorem foldl_applyComponent (buf : List Component) (names : List (List Char)) :
    (names.map Component.normal).foldl applyComponent buf = buf ++ names.map Component.normal := by
  induction names generalizing buf with
  | nil => simp
  | cons n rest ih =>
    rw [List.map_cons,List.foldl_cons,ih]
    simp [applyComponent]

theorem render_snoc (need : Bool) {buf : List Component} (n : List Char) (h : buf ≠ []) :
    ∃ z, render os need (buf ++ [.normal n]) = z ++ mainSep os :: n := by
  induction buf generalizing need with
  | nil => exact absurd rfl h
  | cons c rest ih =>
    cases rest with
    | nil =>
      by_cases hc : c = .rootDir
      · subst hc
        exact ⟨[],by simp [render,Component.text]⟩
      · refine ⟨(if need then [mainSep os] else []) ++ c.text os,?_⟩
        simp [render,Component.text,hc]
    | cons c' rest' =>
      obtain ⟨z,hz⟩ := ih (c != .rootDir) (by simp)
      refine ⟨(if need && c != .rootDir then [mainSep os] else []) ++ c.text os ++ z,?_⟩
      rw [List.cons_append,render,hz]
      simp

theorem finalPiece_drive {d : Char} {b f : List Char} (hd : isLetter d = true)
    (hf : finalPiece os b = some f) :
    finalPiece os (d :: ':' :: b) = some f ∨
      finalPiece os (d :: ':' :: b) = some (d :: ':' :: f) := by
  obtain ⟨x,t,rfl,hx,ht,hsep,hcount⟩ := finalPiece_elim hf
  cases x with
  | nil =>
    right
    have hdrive : ∀ c ∈ d :: ':' :: f, isSep os c = false := by
      intro c hc
      rcases List.mem_cons.mp hc with rfl | hc
      · exact isSep_letter hd
      · rcases List.mem_cons.mp hc with rfl | hc
        · exact isSep_colon
        · exact hsep c hc
    exact finalPiece_intro (x := []) (f := d :: ':' :: f) (by simp [AtBoundary]) hdrive
      (by simp [counts]) ht
  | cons c x =>
    left
    refine finalPiece_intro (x := d :: ':' :: c :: x) ?_ hsep hcount ht
    simpa [AtBoundary] using hx

theorem finalPiece_push (base : List Char) {b : List Char} (hb : b ≠ []) (h : plainName os b = true) :
    ∃ f, finalPiece os b = some f ∧
      (finalPiece os (push os base b) = some f ∨
        ∃ d, finalPiece os (push os base b) = some (d :: ':' :: f)) := by
  obtain ⟨names,f,hnames,hf⟩ := plainName_final hb h
  have hsome : (finalPiece os b).isSome = true := by simp [hf]
  obtain ⟨hroot,-,-⟩ := plainName_components h
  have hpre := plainName_prefix h
  have habs : isAbsolute os b = false := by cases os <;> simp [isAbsolute,hroot]
  refine ⟨f,hf,?_⟩
  by_cases hverb : isVerbatim os base = true
  · left
    have hpush : push os base b =
        render os false ((components os b).foldl applyComponent (components os base)) := by
      simp [push,habs,hpre,hverb,hb]
    have hbase : components os base ≠ [] := by
      cases hp : prefixOf os base with
      | none => simp [isVerbatim,hp] at hverb
      | some q =>
        obtain ⟨rest,hrest⟩ := components_prefix (k := q.1) (n := q.2) hp
        simp [hrest]
    rw [hpush,hnames,foldl_applyComponent,List.map_append,← List.append_assoc]
    obtain ⟨z,hz⟩ : ∃ z, render os false
        (components os base ++ names.map Component.normal ++ [.normal f]) =
          z ++ mainSep os :: f := render_snoc false f (by simp [hbase])
    have hplainf : finalPiece os f = some f := by
      obtain ⟨x,t,-,-,-,hsep,hcount⟩ := finalPiece_elim hf
      exact finalPiece_plain hsep hcount
    rw [List.map_singleton,hz,finalPiece_under z isSep_mainSep (by simp [hplainf]),hplainf]
  · have hpush : push os base b = base ++
        (if !(match base.getLast? with | some c => isSep os c | none => true) &&
          !(prefixOf os base == some (.disk,base.length)) then [mainSep os] else []) ++ b := by
      simp [push,habs,hpre,hverb,hroot]
    rcases List.eq_nil_or_concat base with rfl | ⟨stem,c,rfl⟩
    · left
      simpa [hpush] using hf
    · rw [List.concat_eq_append] at hpush ⊢
      by_cases hc : isSep os c = true
      · left
        have hjoin : push os (stem ++ [c]) b = stem ++ c :: b := by simp [hpush,hc]
        rw [hjoin,finalPiece_under stem hc hsome,hf]
      · by_cases hdrive : prefixOf os (stem ++ [c]) = some (.disk,(stem ++ [c]).length)
        · have hjoin : push os (stem ++ [c]) b = stem ++ [c] ++ b := by
            rw [hpush,hdrive]
            simp
          obtain ⟨d,hd,hbase⟩ := prefixOf_bare hdrive
          rw [hjoin,hbase]
          rcases finalPiece_drive hd hf with hfinal | hfinal
          · exact .inl hfinal
          · exact .inr ⟨d,hfinal⟩
        · left
          have hjoin : push os (stem ++ [c]) b = (stem ++ [c]) ++ mainSep os :: b := by
            rw [hpush,beq_eq_false_iff_ne.mpr hdrive]
            simp [hc]
          rw [hjoin,finalPiece_under _ isSep_mainSep hsome,hf]

end Push

section Posix

variable {base p : List Char}

def Closed (base : List Char) : Prop := ∃ x c, base = x ++ [c] ∧ c ≠ '/'

theorem push_posix (hbase : Closed base) (hp : '/' ∉ p) : push .posix base p = base ++ '/' :: p := by
  obtain ⟨x,c,rfl,hc⟩ := hbase
  have hroot : hasRoot .posix p = false := by
    cases p with
    | nil => rfl
    | cons d p =>
      have hd : d ≠ '/' := fun he => hp (by simp [he])
      simp [hasRoot,hasPhysicalRoot,prefixOf,isSep,hd]
  simp [push,isAbsolute,hroot,prefixOf,isVerbatim,isSep,hc,mainSep]

theorem closed_push (hbase : Closed base) (hp : '/' ∉ p) (hne : p ≠ []) :
    Closed (push .posix base p) := by
  rw [push_posix hbase hp]
  obtain ⟨x,c,rfl⟩ := List.eq_nil_or_concat p |>.resolve_left hne
  refine ⟨base ++ '/' :: x,c,by simp,?_⟩
  rintro rfl
  exact hp (by simp)

theorem foldl_push_posix {comps : List (List Char)} (hbase : Closed base)
    (hcomps : ∀ p ∈ comps, '/' ∉ p ∧ p ≠ []) :
    comps.foldl (push .posix) base = base ++ (comps.map fun p => '/' :: p).flatten := by
  induction comps generalizing base with
  | nil => simp
  | cons p rest ih =>
    obtain ⟨⟨hp,hne⟩,hrest⟩ := List.forall_mem_cons.mp hcomps
    rw [List.foldl_cons,ih (closed_push hbase hp hne) hrest,push_posix hbase hp]
    simp

end Posix

end Path

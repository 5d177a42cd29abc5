import MurlSystem.Foundation.PathVerbatim
import MurlSystem.Targets.Paths

namespace MurlSystem

section Segments

variable {sep sep' : Char → Bool} {p s : List Char}

theorem flatMap_splitOnP (h : ∀ c, sep c = true → sep' c = true) (p : List Char) :
    (p.splitOnP sep).flatMap (fun s => s.splitOnP sep') = p.splitOnP sep' := by
  induction hn : p.length using Nat.strongRecOn generalizing p with
  | _ n ih =>
    obtain ⟨name,rest,rfl,hname,hrest⟩ := Path.exists_cut sep p
    cases rest with
    | nil => rw [List.append_nil,List.splitOnP_eq_singleton hname,List.flatMap_singleton]
    | cons c rest =>
      have hc := hrest c rfl
      rw [List.splitOnP_append_cons name rest hc,List.splitOnP_append_cons name rest (h c hc),
        List.splitOnP_eq_singleton hname,List.flatMap_append,List.flatMap_singleton,
        ih rest.length (by simp at hn; omega) rest rfl]

theorem splitOnP_snoc {c : Char} (hc : sep c = false) (hs : s ∈ (p ++ [c]).splitOnP sep) :
    s ∈ p.splitOnP sep ∨ ∃ t ∈ p.splitOnP sep, s = t ++ [c] := by
  induction hn : p.length using Nat.strongRecOn generalizing p with
  | _ n ih =>
    obtain ⟨name,rest,rfl,hname,hrest⟩ := Path.exists_cut sep p
    cases rest with
    | nil =>
      rw [List.append_nil] at hs ⊢
      have hfree : Path.Free sep (name ++ [c]) := by
        intro d hd
        rcases List.mem_append.mp hd with hd | hd
        · exact hname d hd
        · rwa [List.mem_singleton.mp hd]
      rw [List.splitOnP_eq_singleton hfree,List.mem_singleton] at hs
      exact .inr ⟨name,by rw [List.splitOnP_eq_singleton hname]; simp,hs⟩
    | cons d rest =>
      have hd := hrest d rfl
      rw [List.append_assoc,List.cons_append,List.splitOnP_append_cons _ _ hd,
        List.mem_append] at hs
      rw [List.splitOnP_append_cons name rest hd]
      rcases hs with hs | hs
      · exact .inl (List.mem_append_left _ hs)
      · rcases ih rest.length (by simp at hn; omega) hs rfl with hs | ⟨t,ht,rfl⟩
        · exact .inl (List.mem_append_right _ hs)
        · exact .inr ⟨t,List.mem_append_right _ ht,rfl⟩

structure PlainPiece (s : List Char) : Prop where
  nonempty : s ≠ []
  driveless : startsWithDrive s = false
  dotless : isDotSegment s = false

theorem splitOnP_head {c : Char} (hc : sep c = false) (rest : List Char) :
    ∃ x more, (c :: rest).splitOnP sep = (c :: x) :: more ∧
      x = rest.takeWhile (fun c => !sep c) := by
  obtain ⟨name,tail,rfl,hname,htail⟩ := Path.exists_cut sep rest
  have hfree : Path.Free sep (c :: name) := by
    intro d hd
    rcases List.mem_cons.mp hd with rfl | hd
    · exact hc
    · exact hname d hd
  refine ⟨name,?_⟩
  rw [Path.takeWhile_cut hname htail]
  cases tail with
  | nil =>
    refine ⟨[],?_,rfl⟩
    rw [List.append_nil]
    exact List.splitOnP_eq_singleton hfree
  | cons d tail =>
    refine ⟨tail.splitOnP sep,?_,rfl⟩
    rw [← List.cons_append,List.splitOnP_append_cons _ _ (htail d rfl),
      List.splitOnP_eq_singleton hfree]
    rfl

theorem isDotSegment_cases (h : isDotSegment s = true) : s = ['.','.'] ∨ s = ['.'] := by
  simpa [isDotSegment] using h

theorem isDotSegment_whole (h : isDotSegment s = true) : s.splitOnP isSeparator = [s] := by
  rcases isDotSegment_cases h with rfl | rfl <;>
    exact List.splitOnP_eq_singleton (by simp [isSeparator])

theorem dotless_pieces (hsep : ∀ c, sep c = true → isSeparator c = true)
    (h : ∀ x ∈ p.splitOnP isSeparator, isDotSegment x = false) (hs : s ∈ p.splitOnP sep) :
    isDotSegment s = false := by
  cases hdot : isDotSegment s with
  | false => rfl
  | true =>
    rw [← h s,← hdot]
    rw [← flatMap_splitOnP hsep,List.mem_flatMap]
    exact ⟨s,hs,by simp [isDotSegment_whole hdot]⟩

end Segments

section Plain

variable {os : Path.Platform} {s x : List Char} {more : List (List Char)}

theorem head_plain (hpieces : s.splitOnP isSeparator = x :: more) (hx : x ≠ [])
    (hdrive : startsWithDrive x = false) : ∃ c cs, s = c :: cs ∧ isSeparator c = false ∧
      startsWithDrive s = false := by
  cases s with
  | nil =>
    rw [List.splitOnP_nil] at hpieces
    cases hpieces
    exact absurd rfl hx
  | cons c cs =>
    have hc : isSeparator c = false := by
      cases hc : isSeparator c with
      | false => rfl
      | true =>
        have hcut := List.splitOnP_append_cons [] cs hc
        rw [List.nil_append,List.splitOnP_nil,hpieces] at hcut
        cases hcut
        exact absurd rfl hx
    refine ⟨c,cs,rfl,hc,?_⟩
    obtain ⟨y,more',hsplit,rfl⟩ := splitOnP_head hc cs
    rw [hpieces] at hsplit
    cases hsplit
    unfold startsWithDrive
    split
    · rename_i d rest hd
      cases hd
      exact hdrive
    · rfl

theorem driveless_prefix {c : Char} {cs : List Char} (hc : isSeparator c = false)
    (hdrive : startsWithDrive (c :: cs) = false) : Path.prefixOf os (c :: cs) = none := by
  cases os with
  | posix => rfl
  | windows =>
    have hslash : c ≠ '/' := by
      rintro rfl
      cases hc
    have hback : c ≠ '\\' := by
      rintro rfl
      cases hc
    have hbars : ¬['\\','\\'].isPrefixOf (Path.backslashed (c :: cs)) = true := by
      simp [Path.backslashed,List.isPrefixOf,hslash,hback.symm]
    have hnone : Path.parsePrefix (c :: cs) = none := by
      unfold Path.parsePrefix
      rw [if_neg hbars]
      split
      · rename_i d tail hd
        cases hd
        exact if_neg (by rw [Bool.not_eq_true]; exact hdrive)
      · rfl
    exact hnone

theorem plainName_of (hpieces : s.splitOnP isSeparator = x :: more) (hx : x ≠ [])
    (hdrive : startsWithDrive x = false)
    (hdots : ∀ y ∈ s.splitOnP isSeparator, isDotSegment y = false) : Path.plainName os s = true := by
  obtain ⟨c,cs,rfl,hc,hdrive'⟩ := head_plain hpieces hx hdrive
  have hpre : Path.prefixOf os (c :: cs) = none := driveless_prefix hc hdrive'
  have hsep : Path.isSep os c = false := by
    cases hs : Path.isSep os c with
    | false => rfl
    | true =>
      rw [isSeparator_of_isSep hs] at hc
      cases hc
  have hverb : Path.isVerbatim os (c :: cs) = false := by simp [Path.isVerbatim,hpre]
  have hlen : Path.prefixLen os (c :: cs) = 0 := by simp [Path.prefixLen,hpre]
  have hroot : Path.hasRoot os (c :: cs) = false := by
    simp [Path.hasRoot,Path.hasPhysicalRoot,hpre,hsep]
  have hall : ∀ y ∈ (c :: cs).splitOnP (Path.isSep os), isDotSegment y = false := fun y hy =>
    dotless_pieces (fun _ => isSeparator_of_isSep) hdots hy
  have hcur : ((c :: cs).splitOnP (Path.isSep os)).head? ≠ some ['.'] := by
    intro hhead
    exact absurd (hall ['.'] (List.mem_of_mem_head? hhead)) (by decide)
  have hcomp : Path.components os (c :: cs) = Path.named (Path.isSep os) false (c :: cs) := by
    rw [Path.components_eq fun c _ => Path.sepIn_sep hverb c,hlen,hroot,hverb,Path.sepIn_plain hverb,List.drop_zero]
    simp [hcur]
  rw [Path.plainName,hcomp,List.all_eq_true]
  intro comp hcomp
  obtain ⟨y,hy,hpiece⟩ := List.mem_filterMap.mp hcomp
  have hdot := hall y hy
  simp only [isDotSegment,Bool.or_eq_false_iff,beq_eq_false_iff_ne] at hdot
  rw [Path.piece,if_neg hdot.2,if_neg hdot.1] at hpiece
  split at hpiece
  · cases hpiece
  · cases hpiece
    rfl

end Plain

section Accepted

variable {os : Path.Platform} {target : String} {rest s : List Char}

theorem stripSeparator_snoc (x : List Char) (c : Char) :
    stripSeparator (x ++ [c]) = if isSeparator c then x else x ++ [c] := by
  simp [stripSeparator]

theorem stripSeparator_cases (rest : List Char) : rest = stripSeparator rest ∨
    ∃ c, isSeparator c = true ∧ rest = stripSeparator rest ++ [c] := by
  rcases List.eq_nil_or_concat rest with rfl | ⟨x,c,rfl⟩
  · exact .inl rfl
  · rw [List.concat_eq_append,stripSeparator_snoc]
    cases hc : isSeparator c with
    | false => exact .inl rfl
    | true => exact .inr ⟨c,hc,rfl⟩

theorem stripSlash_eq (rest : List Char) : stripSlash rest = stripSeparator rest ∨
    stripSlash rest = stripSeparator rest ++ ['\\'] := by
  rcases stripSlash_cases rest with hrest | hrest
  · rcases stripSeparator_cases rest with hsep | ⟨c,hc,hsep⟩
    · exact .inl (hrest.symm.trans hsep)
    · have hback : c = '\\' := by
        have hboth : c = '/' ∨ c = '\\' := by simpa [isSeparator] using hc
        refine hboth.resolve_left ?_
        rintro rfl
        have hdrop : rest.dropSuffix? ['/'] = some (stripSeparator rest) :=
          List.dropSuffix?_eq_some_iff.mpr ⟨['/'],hsep,rfl⟩
        have hslash : stripSlash rest = stripSeparator rest := by rw [stripSlash,hdrop]; rfl
        rw [hslash] at hrest
        rw [← hrest] at hsep
        exact absurd (congrArg List.length hsep) (by simp)
      subst hback
      exact .inr (hrest.symm.trans hsep)
  · have hsep := stripSeparator_snoc (stripSlash rest) '/'
    rw [← hrest] at hsep
    exact .inl hsep.symm

theorem checkHomeSegments_ok (hne : rest ≠ []) (h : checkHomeSegments ('~' :: '/' :: rest) = .ok ()) :
    ∀ s ∈ (stripSeparator rest).splitOnP isSeparator, s ≠ [] ∧ startsWithDrive s = false := by
  have hdrop : ('~' :: '/' :: rest).dropPrefix? "~/".toList = some rest :=
    List.dropPrefix?_eq_some_iff.mpr ⟨['~','/'],rfl,by decide⟩
  have hempty : ¬rest.isEmpty = true := by simpa using hne
  unfold checkHomeSegments at h
  rw [hdrop] at h
  simp only [if_neg hempty,Fallible.ite_ok] at h
  obtain ⟨-,he⟩ | ⟨hnonempty,h⟩ := h
  · cases he
  · obtain ⟨-,he⟩ | ⟨hdrives,-⟩ := h
    · cases he
    · intro s hs
      refine ⟨?_,?_⟩
      · rintro rfl
        exact hnonempty (List.any_eq_true.mpr ⟨[],hs,rfl⟩)
      · rw [← Bool.not_eq_true]
        exact fun hd => hdrives (List.any_eq_true.mpr ⟨s,hs,hd⟩)

theorem home_pieces (hne : rest ≠ []) (h : PathChecked ('~' :: '/' :: rest)) :
    ∀ s ∈ (stripSeparator rest).splitOnP isSeparator, PlainPiece s := by
  intro s hs
  obtain ⟨hnonempty,hdrive⟩ := checkHomeSegments_ok hne h.segments s hs
  have hdots : (rest.splitOnP isSeparator).any isDotSegment = false := by
    rcases h.body with hhome | ⟨body,hbody,hdots⟩
    · cases hhome
    · cases hbody
      exact hdots
  have hmem : s ∈ rest.splitOnP isSeparator := by
    rcases stripSeparator_cases rest with hrest | ⟨c,hc,hrest⟩
    · rwa [hrest]
    · rw [hrest,List.splitOnP_append_cons _ _ hc]
      exact List.mem_append_left _ hs
  refine ⟨hnonempty,hdrive,?_⟩
  rw [← Bool.not_eq_true]
  exact fun hd => Bool.eq_false_iff.mp hdots (List.any_eq_true.mpr ⟨s,hmem,hd⟩)

theorem segment_plain (h : ∀ x ∈ s.splitOnP isSeparator, PlainPiece x) (tail : List Char)
    (htail : tail = [] ∨ tail = ['\\']) : s ++ tail ≠ [] ∧ isDotSegment (s ++ tail) = false ∧
      Path.plainName os (s ++ tail) = true := by
  obtain ⟨x,more,hpieces⟩ := List.exists_cons_of_ne_nil (List.splitOnP_ne_nil isSeparator s)
  have hx := h x (by simp [hpieces])
  obtain ⟨c,cs,hs,-,-⟩ := head_plain hpieces hx.nonempty hx.driveless
  obtain ⟨more',hpieces',hdots⟩ : ∃ more', (s ++ tail).splitOnP isSeparator = x :: more' ∧
      ∀ y ∈ (s ++ tail).splitOnP isSeparator, isDotSegment y = false := by
    rcases htail with rfl | rfl
    · rw [List.append_nil]
      exact ⟨more,hpieces,fun y hy => (h y hy).dotless⟩
    · have hcut : (s ++ ['\\']).splitOnP isSeparator = s.splitOnP isSeparator ++ [[]] := by
        rw [List.splitOnP_append_cons s [] (by rfl),List.splitOnP_nil]
      refine ⟨more ++ [[]],by rw [hcut,hpieces]; rfl,?_⟩
      rw [hcut]
      intro y hy
      rcases List.mem_append.mp hy with hy | hy
      · exact (h y hy).dotless
      · rw [List.mem_singleton.mp hy]
        rfl
  refine ⟨by simp [hs],?_,plainName_of hpieces' hx.nonempty hx.driveless hdots⟩
  cases hdot : isDotSegment (s ++ tail) with
  | false => rfl
  | true =>
    rw [← hdot]
    exact hdots _ (by simp [isDotSegment_whole hdot])

theorem home_segments (hne : rest ≠ []) (h : PathChecked ('~' :: '/' :: rest)) :
    ∀ s ∈ (stripSlash rest).splitOn '/', s ≠ [] ∧ isDotSegment s = false ∧
      Path.plainName os s = true := by
  have hslash : ∀ c, (c == '/') = true → isSeparator c = true := by
    intro c hc
    rw [beq_iff_eq.mp hc]
    rfl
  have hcore : ∀ t ∈ (stripSeparator rest).splitOn '/', ∀ x ∈ t.splitOnP isSeparator,
      PlainPiece x := by
    intro t ht x hx
    refine home_pieces hne h x ?_
    rw [← flatMap_splitOnP hslash,List.mem_flatMap]
    exact ⟨t,ht,hx⟩
  intro s hs
  rcases stripSlash_eq rest with hstrip | hstrip
  · rw [hstrip] at hs
    have hplain := @segment_plain os s (hcore s hs) [] (.inl rfl)
    rwa [List.append_nil] at hplain
  · rw [hstrip] at hs
    rcases splitOnP_snoc (by rfl) hs with hs | ⟨t,ht,rfl⟩
    · have hplain := @segment_plain os s (hcore s hs) [] (.inl rfl)
      rwa [List.append_nil] at hplain
    · exact segment_plain (hcore t ht) ['\\'] (.inr rfl)

end Accepted

section Extended

variable {os : Path.Platform} {home path base : List Char} {names more : List (List Char)}
  {cs : List Path.Component}

def extended (cs : List Path.Component) (names : List (List Char)) : List Path.Component :=
  if names = [] then cs else cs ++ Path.rootOf cs ++ names.map .normal

theorem extended_within (cs : List Path.Component) (names : List (List Char)) :
    cs <+: extended cs names := by
  unfold extended
  split
  · exact List.prefix_rfl
  · rw [List.append_assoc]
    exact List.prefix_append _ _

theorem rootOf_extended (hnames : names ≠ []) : Path.rootOf (extended cs names) = [] := by
  obtain ⟨init,last,hlast⟩ := List.eq_nil_or_concat names |>.resolve_left hnames
  obtain ⟨l,hl⟩ : ∃ l, extended cs names = l ++ [.normal last] := by
    refine ⟨cs ++ Path.rootOf cs ++ init.map .normal,?_⟩
    rw [extended,if_neg hnames,hlast]
    simp
  rw [hl]
  cases l with
  | nil => rfl
  | cons c l => cases l <;> cases c <;> rfl

theorem extended_extended (hnames : names ≠ []) :
    extended (extended cs names) more = extended cs (names ++ more) := by
  by_cases hmore : more = []
  · rw [hmore,List.append_nil,extended,if_pos rfl]
  · have hboth : names ++ more ≠ [] := by simp [hnames]
    rw [extended,if_neg hmore,rootOf_extended hnames,extended,if_neg hnames,extended,if_neg hboth]
    simp

def pathNames (os : Path.Platform) (p : List Char) : List (List Char) :=
  (p.splitOnP (Path.isSep os)).filter Path.counts

theorem pathNames_cut {x y : List Char} {c : Char} (hc : Path.isSep os c = true) :
    pathNames os (x ++ c :: y) = pathNames os x ++ pathNames os y := by
  rw [pathNames,List.splitOnP_append_cons x y hc,List.filter_append]
  rfl

theorem pathNames_nil : pathNames os [] = [] := by
  simp [pathNames,Path.counts]

theorem pathNames_ne_nil {s : List Char} (hne : s ≠ []) (hs : Path.plainName os s = true) :
    pathNames os s ≠ [] := by
  obtain ⟨-,f,-,hf⟩ := Path.plainName_final hne hs
  intro hnil
  rw [Path.finalPiece] at hf
  rw [pathNames] at hnil
  rw [hnil] at hf
  cases hf

theorem pathNames_flatMap (p : List Char) :
    (p.splitOn '/').flatMap (pathNames os) = pathNames os p := by
  have hsep : ∀ c, (c == '/') = true → Path.isSep os c = true := by
    intro c hc
    rw [beq_iff_eq.mp hc]
    exact Path.isSep_slash
  have hsplit : (p.splitOn '/').flatMap (fun s => s.splitOnP (Path.isSep os)) =
      p.splitOnP (Path.isSep os) := flatMap_splitOnP hsep p
  rw [pathNames,← hsplit,List.filter_flatMap]
  rfl

theorem pushSegment_accepts {target : String} {segment : List Char} (hne : segment ≠ [])
    (hdot : isDotSegment segment = false) (hplain : Path.plainName os segment = true) :
    pushSegment os target base segment = .ok (Path.push os base segment) := by
  simp [pushSegment,hne,hdot,hplain]

theorem pushSegments_extended {target : String} {segments : List (List Char)}
    (habs : Path.isAbsolute os base = true) (hwhole : Path.Complete os base)
    (h : ∀ s ∈ segments, s ≠ [] ∧ isDotSegment s = false ∧ Path.plainName os s = true) :
    ∃ path, segments.foldlM (pushSegment os target) base = .ok path ∧
      Path.components os path =
        extended (Path.components os base) (segments.flatMap (pathNames os)) ∧
      Path.isAbsolute os path = true := by
  induction segments generalizing base with
  | nil => exact ⟨base,rfl,by simp [extended],habs⟩
  | cons s rest ih =>
    obtain ⟨hne,hdot,hplain⟩ := h s (by simp)
    have hnames := pathNames_ne_nil hne hplain
    obtain ⟨hcomp,habs',hwhole'⟩ := Path.push_extends habs hwhole hne hplain
    have hone : Path.components os (Path.push os base s) =
        extended (Path.components os base) (pathNames os s) := by
      rw [hcomp,Path.plainName_normal hplain,extended,if_neg hnames]
      rfl
    obtain ⟨path,hpath,hrest,habsPath⟩ :=
      ih habs' hwhole' fun t ht => h t (List.mem_cons_of_mem _ ht)
    refine ⟨path,?_,?_,habsPath⟩
    · rw [List.foldlM_cons,pushSegment_accepts hne hdot hplain]
      exact hpath
    · rw [hrest,hone,extended_extended hnames,List.flatMap_cons]

end Extended

section Agreement

variable {os : Path.Platform} {home path : List Char} {target : List Char}

def plainSegments (os : Path.Platform) (target : List Char) : List (List Char) :=
  ((target.drop 1).splitOnP (Path.isSep os)).filter fun s => !s.isEmpty

theorem plainSegments_eq (h : ∀ s ∈ (target.drop 1).splitOnP isSeparator, isDotSegment s = false) :
    plainSegments os target = pathNames os (target.drop 1) := by
  refine List.filter_congr fun s hs => ?_
  have hdot := dotless_pieces (fun _ => isSeparator_of_isSep) h hs
  simp only [isDotSegment,Bool.or_eq_false_iff] at hdot
  simp [Path.counts,hdot.2,bne]

theorem pathNames_strip (rest : List Char) : pathNames os (stripSlash rest) = pathNames os rest := by
  rcases stripSlash_cases rest with h | h
  · rw [← h]
  · have hcut : pathNames os (stripSlash rest ++ ['/']) = pathNames os (stripSlash rest) := by
      rw [pathNames_cut Path.isSep_slash,pathNames_nil,List.append_nil]
    rw [← h] at hcut
    exact hcut.symm

theorem expandPath_accepted {opener : OpenerConfig} {name : String} {rest : List Char}
    (hhome : opener.homeDir = some home) (habs : Path.isAbsolute os home = true)
    (hwhole : Path.Complete os home) (ht : name.toList = '~' :: '/' :: rest)
    (h : PathChecked ('~' :: '/' :: rest)) : ∃ path, opener.expandPath os name = .ok path ∧
      Path.components os path = extended (Path.components os home) (pathNames os rest) ∧
      Path.isAbsolute os path = true := by
  by_cases hne : rest = []
  · subst hne
    refine ⟨home,?_,by simp [pathNames_nil,extended],habs⟩
    simp only [OpenerConfig.expandPath,ht,hhome]
    rfl
  · obtain ⟨path,hpath,hcomp,habsPath⟩ : ∃ path,
        ((stripSlash rest).splitOn '/').foldlM (pushSegment os name) home = .ok path ∧
          Path.components os path = extended (Path.components os home)
            (((stripSlash rest).splitOn '/').flatMap (pathNames os)) ∧
          Path.isAbsolute os path = true :=
      pushSegments_extended habs hwhole (home_segments hne h)
    have hstrip : ¬(stripSlash rest).isEmpty = true := by
      intro he
      have hnil : stripSlash rest = [] := by simpa using he
      have hbad := @home_segments os rest hne h [] (by rw [hnil]; simp)
      exact hbad.1 rfl
    refine ⟨path,?_,by rw [hcomp,pathNames_flatMap,pathNames_strip],habsPath⟩
    simp only [OpenerConfig.expandPath,ht,hhome,if_neg hstrip]
    exact hpath

theorem pathBody_absolute {body : List Char} (hhome : target.head? ≠ some '~')
    (h : pathBody target = .ok body) :
    (Path.isAbsolute .posix target = true ∨ Path.isAbsolute .windows target = true) ∧
      ∃ head c, isSeparator c = true ∧ target = head ++ c :: body ∧
        ∀ s ∈ head.splitOnP isSeparator, isDotSegment s = false := by
  unfold pathBody at h
  split at h
  · exact absurd rfl hhome
  · cases h
    refine ⟨.inl rfl,[],'/',rfl,rfl,fun s hs => ?_⟩
    rw [List.splitOnP_nil,List.mem_singleton] at hs
    rw [hs]
    rfl
  · rename_i d c rest _
    split at h
    · rename_i hc
      cases h
      rw [Bool.and_eq_true] at hc
      refine ⟨.inr ?_,[d,':'],c,hc.2,rfl,fun s hs => ?_⟩
      · have hparse : Path.parsePrefix (d :: ':' :: c :: body) = some (.disk,2) :=
          (Path.PlainPrefix.disk hc.1).parse
        have hsep : Path.isSep .windows c = true := hc.2
        simp [Path.isAbsolute,Path.hasRoot,Path.hasPhysicalRoot,Path.prefixOf,hparse,hsep]
      · have hd : isSeparator d = false := by
          cases hs : isSeparator d with
          | false => rfl
          | true =>
            have hletter := hc.1
            simp only [isSeparator,Bool.or_eq_true,beq_iff_eq] at hs
            rcases hs with rfl | rfl <;> revert hletter <;> decide
        have hone : [d,':'].splitOnP isSeparator = [[d,':']] := by
          refine List.splitOnP_eq_singleton fun x hx => ?_
          rcases List.mem_cons.mp hx with rfl | hx
          · exact hd
          · rw [List.mem_singleton.mp hx]
            rfl
        rw [hone,List.mem_singleton] at hs
        subst hs
        simp [isDotSegment]
    · cases h
  · cases h

theorem home_body (hhome : target.head? = some '~') (h : PathChecked target) :
    target = ['~'] ∨ ∃ rest, target = '~' :: '/' :: rest := by
  rcases h.body with htilde | ⟨body,hbody,-⟩
  · exact .inl htilde
  · right
    unfold pathBody at hbody
    split at hbody
    · exact ⟨_,rfl⟩
    · cases hhome
    · split at hbody
      · rename_i hc
        rw [Bool.and_eq_true] at hc
        cases hhome
        exact absurd hc.1 (by decide)
      · cases hbody
    · cases hbody

theorem home_dotless {rest : List Char} (h : PathChecked ('~' :: '/' :: rest)) :
    ∀ s ∈ ('/' :: rest).splitOnP isSeparator, isDotSegment s = false := by
  have hcut : ('/' :: rest).splitOnP isSeparator = [] :: rest.splitOnP isSeparator := by
    have hslash : isSeparator '/' = true := rfl
    have happend := List.splitOnP_append_cons [] rest hslash
    rwa [List.nil_append,List.splitOnP_nil] at happend
  rw [hcut]
  intro s hs
  rcases List.mem_cons.mp hs with rfl | hs
  · rfl
  · rcases h.body with hhome | ⟨body,hbody,hdots⟩
    · cases hhome
    · cases hbody
      rw [← Bool.not_eq_true]
      exact fun hd => Bool.eq_false_iff.mp hdots (List.any_eq_true.mpr ⟨s,hs,hd⟩)

theorem validated_expands (os : Path.Platform) {opener : OpenerConfig} {name : String}
    (hhome : opener.homeDir = some home) (habs : Path.isAbsolute os home = true)
    (hwhole : Path.Complete os home) (hvalid : validatePathTarget name.toList = .ok ()) :
    ∃ path, opener.expandPath os name = .ok path ∧
      (name.toList.head? = some '~' →
        Path.components os path =
            extended (Path.components os home) (plainSegments os name.toList) ∧
          Path.components os home <+: Path.components os path ∧
          Path.isAbsolute os path = true) ∧
      (name.toList.head? ≠ some '~' →
        path = name.toList ∧
          (Path.isAbsolute .posix path = true ∨ Path.isAbsolute .windows path = true) ∧
          (∀ s ∈ path.splitOnP isSeparator, isDotSegment s = false) ∧
          isNetworkPath path = false) := by
  have hchecked := validatePathTarget_checked hvalid
  by_cases htilde : name.toList.head? = some '~'
  · rcases home_body htilde hchecked with ht | ⟨rest,ht⟩
    · refine ⟨home,?_,fun _ => ⟨?_,List.prefix_rfl,habs⟩,fun hno => absurd htilde hno⟩
      · simp only [OpenerConfig.expandPath,ht,hhome]
      · simp [plainSegments,ht,extended]
    · rw [ht] at hchecked
      obtain ⟨path,hpath,hcomp,habsPath⟩ := expandPath_accepted hhome habs hwhole ht hchecked
      have hnames : plainSegments os name.toList = pathNames os rest := by
        have hcut : pathNames os ([] ++ '/' :: rest) = pathNames os [] ++ pathNames os rest :=
          pathNames_cut Path.isSep_slash
        have hdots : ∀ s ∈ (('~' :: '/' :: rest).drop 1).splitOnP isSeparator,
            isDotSegment s = false := home_dotless hchecked
        rw [ht,plainSegments_eq hdots]
        exact hcut
      refine ⟨path,hpath,fun _ => ⟨by rw [hcomp,hnames],?_,habsPath⟩,fun hno => absurd htilde hno⟩
      rw [hcomp]
      exact extended_within _ _
  · refine ⟨name.toList,?_,fun hyes => absurd hyes htilde,fun _ => ⟨rfl,?_⟩⟩
    · unfold OpenerConfig.expandPath
      split
      · rename_i rest hrest
        rw [hrest] at htilde
        exact absurd rfl htilde
      · rfl
    · rcases hchecked.body with hhome | ⟨body,hbody,hdots⟩
      · rw [hhome] at htilde
        exact absurd rfl htilde
      · obtain ⟨habsPath,head,c,hc,hsplit,hhead⟩ := pathBody_absolute htilde hbody
        refine ⟨habsPath,fun s hs => ?_,hchecked.local_⟩
        rw [hsplit,List.splitOnP_append_cons _ _ hc] at hs
        rcases List.mem_append.mp hs with hs | hs
        · exact hhead s hs
        · rw [← Bool.not_eq_true]
          exact fun hd => Bool.eq_false_iff.mp hdots (List.any_eq_true.mpr ⟨s,hs,hd⟩)

def profile : List Char := "C:\\Users\\u".toList

def profiled (home : List Char) : OpenerConfig where
  openArgv := ["open"]
  homeDir := some home

theorem profile_complete : Path.Complete .windows profile := by
  have hp : Path.prefixOf .windows profile = some (.disk,2) := by decide +kernel
  refine ⟨fun n h => ?_,fun n h => ?_,fun n h => ?_⟩
  · rw [hp] at h
    cases h
  · rw [hp] at h
    cases h
  · rw [hp] at h
    cases h

theorem projects_expand : ∃ path,
    (profiled profile).expandPath .windows "~/projects/notes" = .ok path ∧
      Path.components .windows path = [.pre "C:".toList,.rootDir,.normal "Users".toList,
        .normal "u".toList,.normal "projects".toList,.normal "notes".toList] := by
  have hvalid : validatePathTarget "~/projects/notes".toList = .ok () := by decide +kernel
  have hopen : (profiled profile).homeDir = some profile := rfl
  obtain ⟨path,hpath,hhome,-⟩ := validated_expands .windows hopen (by decide +kernel)
    profile_complete hvalid
  obtain ⟨hcomp,-,-⟩ := hhome (by decide +kernel)
  refine ⟨path,hpath,hcomp.trans ?_⟩
  decide +kernel

def Absorbs (home path : String) : Prop :=
  Path.isAbsolute .windows home.toList = true ∧
    (profiled home.toList).expandPath .windows "~/x" = .ok path.toList ∧
    ¬Path.components .windows home.toList <+: Path.components .windows path.toList

theorem expansion_astray :
    (validatePathTarget "C:\\x".toList = .ok () ∧
      (profiled "/home/u".toList).expandPath .posix "C:\\x" = .ok "C:\\x".toList ∧
      Path.isAbsolute .posix "C:\\x".toList = false) ∧
    (validatePathTarget "/x".toList = .ok () ∧
      (profiled profile).expandPath .windows "/x" = .ok "/x".toList ∧
      Path.isAbsolute .windows "/x".toList = false) ∧
    validatePathTarget "~/x".toList = .ok () ∧
    Absorbs "\\\\.\\" "\\\\.\\x" ∧ Absorbs "\\\\?\\UNC" "\\\\?\\UNC\\x" ∧
    Absorbs "\\\\?\\UNC\\s" "\\\\?\\UNC\\s\\x" := by
  unfold Absorbs
  decide +kernel

end Agreement

end MurlSystem

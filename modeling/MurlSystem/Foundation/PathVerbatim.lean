import MurlSystem.Foundation.PathPush

namespace Path

section Verbatim

variable {p q u name server share rest b : List Char} {k : Prefix} {n : Nat}

theorem backslashed_slashless (h : '/' ∉ p) : backslashed p = p := by
  have hsame : ∀ c ∈ p, (if c = '/' then '\\' else c) = c := by
    intro c hc
    refine if_neg ?_
    rintro rfl
    exact h hc
  rw [backslashed,List.map_congr_left hsame,List.map_id']

abbrev backslash : Char → Bool := fun c => c == '\\'

def uncLead : List Char := ['U','N','C','\\']

inductive VerbatimPrefix : List Char → Prefix → Nat → Prop where
  | disk {d : Char} {rest : List Char} (hd : isLetter d = true) (hrest : Cut (isSep .windows) rest) :
      VerbatimPrefix (verbatimLead ++ (d :: ':' :: rest)) .verbatimDisk 6
  | name {name rest : List Char} (hname : Free backslash name) (hrest : Cut backslash rest)
      (hunc : uncLead.isPrefixOf (backslashed (name ++ rest)) = false)
      (hdrive : exactDrive (name ++ rest) = false) :
      VerbatimPrefix (verbatimLead ++ (name ++ rest)) .verbatim (4 + name.length)
  | unc {s : Char} {server share rest : List Char} (hs : isSep .windows s = true)
      (hserver : Free backslash server) (hshare : Free backslash share) (hne : share ≠ [])
      (hrest : Cut backslash rest) :
      VerbatimPrefix
        (verbatimLead ++ ('U' :: 'N' :: 'C' :: s :: (server ++ '\\' :: (share ++ rest))))
        .verbatimUnc (8 + (server.length + (1 + share.length)))

theorem cut_backslash (y : List Char) : Cut backslash ('\\' :: y) := by
  rintro c ⟨⟩
  rfl

theorem Cut.anySep (h : Cut backslash rest) : Cut (isSep .windows) rest := by
  intro c hc
  have hback : backslash c = true := h c hc
  simpa [isSep] using Or.inr (beq_iff_eq.mp hback)

theorem isSep_windows {c : Char} : isSep .windows c = true ↔ c = '/' ∨ c = '\\' := by
  simp [isSep]

theorem exactDrive_iff : exactDrive u = true ↔
    ∃ d rest, u = d :: ':' :: rest ∧ isLetter d = true ∧ Cut (isSep .windows) rest := by
  unfold exactDrive
  split
  · rename_i d rest
    rw [Bool.and_eq_true]
    constructor
    · rintro ⟨hd,hrest⟩
      refine ⟨d,rest,rfl,hd,fun c hc => ?_⟩
      simpa [Option.mem_def.mp hc] using hrest
    · rintro ⟨d',rest',hcons,hd,hrest⟩
      cases hcons
      refine ⟨hd,?_⟩
      cases rest with
      | nil => rfl
      | cons c rest => exact hrest c rfl
  · rename_i hno
    constructor
    · intro h
      cases h
    · rintro ⟨d,rest,rfl,-,-⟩
      exact absurd rfl (hno d rest)

theorem exactDrive_append (hname : Free backslash name) (hrest : Cut backslash rest)
    (h : exactDrive (name ++ rest) = false) (y : List Char) :
    exactDrive (name ++ '\\' :: y) = false := by
  rw [Bool.eq_false_iff] at h ⊢
  refine fun hdrive => h (exactDrive_iff.mpr ?_)
  obtain ⟨d,tail,hcons,hd,hcut⟩ := exactDrive_iff.mp hdrive
  cases name with
  | nil =>
    cases hcons
    exact absurd hd (by decide)
  | cons c name =>
    cases name with
    | nil => cases hcons
    | cons c' name =>
      obtain ⟨rfl,rfl,rfl⟩ : c = d ∧ c' = ':' ∧ name ++ '\\' :: y = tail := by
        simpa using hcons
      refine ⟨c,name ++ rest,rfl,hd,?_⟩
      cases name with
      | nil => exact hrest.anySep
      | cons c name => exact hcut

theorem unc_lead : uncLead.isPrefixOf (backslashed u) = true ↔
    ∃ s v, u = 'U' :: 'N' :: 'C' :: s :: v ∧ isSep .windows s = true := by
  constructor
  · intro h
    obtain ⟨t,ht⟩ := List.isPrefixOf_iff_prefix.mp h
    obtain ⟨lead,v,rfl,hlead,-⟩ := List.map_eq_append_iff.mp ht.symm
    obtain ⟨a,b,c,s,rfl⟩ : ∃ a b c s, lead = [a,b,c,s] := by
      have hlen := congrArg List.length hlead
      rw [List.length_map] at hlen
      exact List.length_eq_four.mp hlen
    simp only [uncLead,List.map_cons,List.map_nil,List.cons.injEq,and_true] at hlead
    obtain ⟨ha,hb,hc,hs⟩ := hlead
    have hkeep : ∀ x y : Char, (if x = '/' then '\\' else x) = y → y ≠ '\\' → x = y := by
      intro x y hxy hy
      split at hxy
      · exact absurd hxy.symm hy
      · exact hxy
    rw [hkeep a 'U' ha (by decide),hkeep b 'N' hb (by decide),hkeep c 'C' hc (by decide)]
    refine ⟨s,v,rfl,isSep_windows.mpr ?_⟩
    split at hs
    · rename_i hslash
      exact .inl hslash
    · exact .inr hs
  · rintro ⟨s,v,rfl,hs⟩
    rcases isSep_windows.mp hs with rfl | rfl <;> simp [uncLead,backslashed,List.isPrefixOf]

theorem unc_append (h : uncLead.isPrefixOf (backslashed (name ++ rest)) = false)
    (hne : name ≠ ['U','N','C']) (y : List Char) :
    uncLead.isPrefixOf (backslashed (name ++ '\\' :: y)) = false := by
  rw [Bool.eq_false_iff] at h ⊢
  refine fun hlead => h (unc_lead.mpr ?_)
  obtain ⟨s,v,hcons,hs⟩ := unc_lead.mp hlead
  rcases name with _ | ⟨a,_ | ⟨b,_ | ⟨c,name⟩⟩⟩
  · cases hcons
  · cases hcons
  · cases hcons
  · obtain ⟨rfl,rfl,rfl,hcons⟩ : a = 'U' ∧ b = 'N' ∧ c = 'C' ∧ name ++ '\\' :: y = s :: v := by
      simpa using hcons
    cases name with
    | nil => exact absurd rfl hne
    | cons d name =>
      cases hcons
      exact ⟨s,name ++ rest,rfl,hs⟩

theorem readsVerbatim_lead (u : List Char) : ReadsVerbatim (verbatimLead ++ u) := by
  refine ⟨?_,by simp [verbatimLead]⟩
  rw [backslashed_append,List.isPrefixOf_iff_prefix]
  exact List.prefix_append _ _

theorem lead_unc (u : List Char) : ['\\','\\','?','\\','U','N','C','\\'].isPrefixOf
    (backslashed (verbatimLead ++ u)) = uncLead.isPrefixOf (backslashed u) := by
  rw [backslashed_append]
  simp [verbatimLead,uncLead,backslashed,List.isPrefixOf]

theorem parsePrefix_verbatim (u : List Char) : parsePrefix (verbatimLead ++ u) =
    if uncLead.isPrefixOf (backslashed u) then
      some (.verbatimUnc,8 + pairLen (nextComponent backslash (u.drop 4)).1
        (nextComponent backslash (nextComponent backslash (u.drop 4)).2).1)
    else some ((verbatimName u).1,4 + (verbatimName u).2) := by
  have hbars : ['\\','\\'].isPrefixOf (backslashed (verbatimLead ++ u)) = true := by
    rw [backslashed_append]
    simp [verbatimLead,backslashed,List.isPrefixOf]
  have hverb := readsVerbatim_iff.mp (readsVerbatim_lead u)
  have hfour : (verbatimLead ++ u).drop 4 = u := rfl
  have height : (verbatimLead ++ u).drop 8 = u.drop 4 := rfl
  unfold parsePrefix
  rw [if_pos hbars,if_pos hverb,lead_unc,hfour,height]

theorem VerbatimPrefix.parse (h : VerbatimPrefix p k n) : parsePrefix p = some (k,n) := by
  cases h with
  | @disk d rest hd hrest =>
    have hunc : uncLead.isPrefixOf (backslashed (d :: ':' :: rest)) = false := by
      rw [Bool.eq_false_iff]
      intro hlead
      obtain ⟨s,v,hcons,-⟩ := unc_lead.mp hlead
      cases hcons
    have hdrive : exactDrive (d :: ':' :: rest) = true := exactDrive_iff.mpr ⟨d,rest,rfl,hd,hrest⟩
    rw [parsePrefix_verbatim,hunc,verbatimName,hdrive]
    rfl
  | name hname hrest hunc hdrive =>
    rw [parsePrefix_verbatim,hunc,verbatimName,hdrive,nextComponent_cut hname hrest]
    rfl
  | @unc s server share rest hs hserver hshare hne hrest =>
    have hunc : uncLead.isPrefixOf
        (backslashed ('U' :: 'N' :: 'C' :: s :: (server ++ '\\' :: (share ++ rest)))) = true :=
      unc_lead.mpr ⟨s,_,rfl,hs⟩
    have hdrop : ('U' :: 'N' :: 'C' :: s :: (server ++ '\\' :: (share ++ rest))).drop 4 =
        server ++ '\\' :: (share ++ rest) := rfl
    have hlen : pairLen server share = server.length + (1 + share.length) := by
      simp [pairLen,hne]
    rw [parsePrefix_verbatim,if_pos hunc,hdrop,nextComponent_cut hserver (cut_backslash _)]
    simp only [List.drop_one,List.tail_cons,nextComponent_cut hshare hrest,hlen]

theorem lead_of (h : parsePrefix p = some (k,n)) (hk : k.isVerbatim = true) :
    ∃ u, p = verbatimLead ++ u := by
  have hverb : ReadsVerbatim p := by
    by_contra hno
    have hplain : k.isVerbatim = false := by
      unfold parsePrefix at h
      dsimp only at h
      rw [if_neg (mt readsVerbatim_iff.mpr hno)] at h
      split at h
      · split at h
        · cases h
          rfl
        · split at h
          · cases h
            rfl
          · cases h
      · split at h
        · split at h
          · cases h
            rfl
          · cases h
        · cases h
    rw [hk] at hplain
    cases hplain
  obtain ⟨hlead,hslash⟩ := hverb
  have hfour : backslashed (p.take 4) = verbatimLead := by
    rw [backslashed,List.map_take]
    exact (List.prefix_iff_eq_take.mp (List.isPrefixOf_iff_prefix.mp hlead)).symm
  refine ⟨p.drop 4,?_⟩
  rw [← hfour,backslashed_slashless hslash,List.take_append_drop]

theorem verbatimPrefix_of (h : parsePrefix p = some (k,n)) (hk : k.isVerbatim = true)
    (hshare : k = .verbatimUnc → '\\' ∈ (p.take n).drop 8) : VerbatimPrefix p k n := by
  obtain ⟨u,rfl⟩ := lead_of h hk
  rw [parsePrefix_verbatim] at h
  split at h
  · rename_i hunc
    obtain ⟨s,v,rfl,hs⟩ := unc_lead.mp hunc
    obtain ⟨server,rest,rfl,hserver,hrest⟩ := exists_cut backslash v
    obtain ⟨share,rest',hrest',hshareFree,hcut⟩ := exists_cut backslash (rest.drop 1)
    have hdrop : ('U' :: 'N' :: 'C' :: s :: (server ++ rest)).drop 4 = server ++ rest := rfl
    rw [hdrop,nextComponent_cut hserver hrest,hrest'] at h
    dsimp only at h
    rw [nextComponent_cut hshareFree hcut] at h
    cases h
    have hne : share ≠ [] := by
      rintro rfl
      have hmem := hshare rfl
      have htake : ((verbatimLead ++ ('U' :: 'N' :: 'C' :: s :: (server ++ rest))).take
          (8 + pairLen server [])).drop 8 = server := by
        rw [List.drop_take]
        have height : (verbatimLead ++ ('U' :: 'N' :: 'C' :: s :: (server ++ rest))).drop 8 =
            server ++ rest := rfl
        rw [height]
        simp [pairLen]
      rw [htake] at hmem
      exact absurd (hserver _ hmem) (by decide)
    obtain ⟨t,tail,rfl⟩ : ∃ t tail, rest = t :: tail := by
      refine List.exists_cons_of_ne_nil ?_
      rintro rfl
      exact hne (List.append_eq_nil_iff.mp hrest'.symm).1
    obtain rfl : tail = share ++ rest' := hrest'
    obtain rfl : t = '\\' := by simpa using hrest t rfl
    have hlen : pairLen server share = server.length + (1 + share.length) := by
      simp [pairLen,hne]
    rw [hlen]
    exact .unc hs hserver hshareFree hne hcut
  · rename_i hunc
    unfold verbatimName at h
    split at h
    · rename_i hdrive
      obtain ⟨d,rest,rfl,hd,hrest⟩ := exactDrive_iff.mp hdrive
      cases h
      exact .disk hd hrest
    · rename_i hdrive
      obtain ⟨name,rest,rfl,hname,hrest⟩ := exists_cut backslash u
      rw [nextComponent_cut hname hrest] at h
      cases h
      exact .name hname hrest (Bool.not_eq_true _ ▸ hunc) (Bool.not_eq_true _ ▸ hdrive)

theorem VerbatimPrefix.split (h : VerbatimPrefix p k n) : ∃ w rest, p = w ++ rest ∧
    w.length = n ∧ Cut (isSep .windows) rest ∧
    ((k = .verbatim → w ≠ verbatimUncLead) → ∀ y, VerbatimPrefix (w ++ '\\' :: y) k n) := by
  cases h with
  | @disk d rest hd hrest =>
    exact ⟨verbatimLead ++ [d,':'],rest,by simp,by simp [verbatimLead],hrest,
      fun _ y => by simpa using VerbatimPrefix.disk hd (cut_backslash y).anySep⟩
  | @name name rest hname hrest hunc hdrive =>
    refine ⟨verbatimLead ++ name,rest,by simp,by simp [verbatimLead]; omega,hrest.anySep,
      fun hne y => ?_⟩
    rw [List.append_assoc]
    refine .name hname (cut_backslash y) (unc_append hunc ?_ y)
      (exactDrive_append hname hrest hdrive y)
    rintro rfl
    exact hne rfl rfl
  | @unc s server share rest hs hserver hshare hne hrest =>
    refine ⟨verbatimLead ++ ('U' :: 'N' :: 'C' :: s :: (server ++ '\\' :: share)),rest,by simp,?_,
      hrest.anySep,fun _ y => ?_⟩
    · simp [verbatimLead]
      omega
    · have hunc := VerbatimPrefix.unc hs hserver hshare hne (cut_backslash y)
      simpa using hunc

end Verbatim

section Rendered

variable {b : List Char} {c : Component} {cs : List Component}

theorem splitOnP_pieces {sep : Char → Bool} (p : List Char) :
    ∀ s ∈ p.splitOnP sep, Free sep s := by
  intro s hs
  induction hn : p.length using Nat.strongRecOn generalizing p with
  | _ n ih =>
    obtain ⟨name,rest,rfl,hname,hrest⟩ := exists_cut sep p
    cases rest with
    | nil =>
      rw [List.append_nil,List.splitOnP_eq_singleton hname,List.mem_singleton] at hs
      rwa [hs]
    | cons c rest =>
      rw [List.splitOnP_append_cons name rest (hrest c rfl),
        List.splitOnP_eq_singleton hname,List.mem_append,List.mem_singleton] at hs
      rcases hs with rfl | hs
      · exact hname
      · exact ih rest.length (by simp at hn; omega) rest hs rfl

def Piece (c : Component) : Prop :=
  Free backslash (c.text .windows) ∧ piece true (c.text .windows) = some c

theorem Piece.text {verbatim : Bool} {s : List Char} (h : piece verbatim s = some c) :
    c.text .windows = s := by
  unfold piece at h
  split at h
  · rename_i hdot
    split at h
    · cases h
      exact hdot.symm
    · cases h
  · split at h
    · rename_i hup
      cases h
      exact hup.symm
    · split at h
      · cases h
      · cases h
        rfl

theorem Piece.of {s : List Char} (hs : Free backslash s) (h : piece true s = some c) : Piece c := by
  have htext : c.text .windows = s := Piece.text h
  exact ⟨by rw [htext]; exact hs,by rw [htext]; exact h⟩

theorem piece_verbatim {s : List Char} (h : piece false s = some c) : piece true s = some c := by
  unfold piece at h ⊢
  split
  · rename_i hdot
    rw [if_pos hdot] at h
    cases h
  · rename_i hdot
    rwa [if_neg hdot] at h

theorem Piece.plain (hb : plainName .windows b = true) (hc : c ∈ components .windows b) :
    Piece c := by
  obtain ⟨-,-,hcomp⟩ := plainName_components hb
  rw [hcomp] at hc
  obtain ⟨s,hs,hpiece⟩ := List.mem_filterMap.mp hc
  refine Piece.of ?_ (piece_verbatim hpiece)
  intro d hd
  have hsep := splitOnP_pieces b s hs d hd
  simp only [isSep,Bool.or_eq_false_iff] at hsep
  exact hsep.2

theorem Piece.ne_root (h : Piece c) : (c != .rootDir) = true := by
  rw [bne_iff_ne]
  rintro rfl
  exact absurd (h.1 '\\' (by simp [Component.text,mainSep])) (by decide)

theorem named_pieces {p : List Char} (hc : c ∈ named backslash true p) : Piece c := by
  obtain ⟨s,hs,hpiece⟩ := List.mem_filterMap.mp hc
  exact Piece.of (splitOnP_pieces p s hs) hpiece

theorem named_piece (h : Piece c) : named backslash true (c.text .windows) = [c] := by
  rw [named,List.splitOnP_eq_singleton h.1]
  simp [h.2]

theorem render_sep (h : Piece c) : render .windows true (c :: cs) =
    '\\' :: (c.text .windows ++ render .windows true cs) := by
  have hroot := h.ne_root
  simp [render,hroot,mainSep]

theorem named_render (s : List Char) (h : ∀ c ∈ cs, Piece c) :
    named backslash true (s ++ render .windows true cs) = named backslash true s ++ cs := by
  induction cs generalizing s with
  | nil => simp [render]
  | cons c rest ih =>
    have hc := h c (by simp)
    rw [render_sep hc,named_cut (by rfl),ih _ fun d hd => h d (List.mem_cons_of_mem _ hd),named_piece hc]
    rfl

theorem render_root (w : List Char) (hc : Piece c) : render .windows false (.pre w :: .rootDir :: c :: cs) =
    w ++ render .windows true (c :: cs) := by
  have hroot := hc.ne_root
  simp [render,Component.text,mainSep,hroot]

theorem render_bare (w : List Char) : render .windows false (.pre w :: cs) =
    w ++ render .windows true cs := by
  have hpre : (Component.pre w != .rootDir) = true := by simp
  simp [render,Component.text,hpre]

end Rendered

section Pushed

variable {os : Platform} {base b w rest : List Char} {k : Prefix} {n : Nat}

def rootOf : List Component → List Component
  | [.pre _] => [.rootDir]
  | _ => []

theorem components_verbatim (hp : prefixOf .windows (w ++ rest) = some (k,w.length))
    (hk : k.isVerbatim = true) (hpos : w ≠ []) (hrest : Cut (isSep .windows) rest) :
    components .windows (w ++ rest) =
      .pre w :: ((if rest = [] then [] else [.rootDir]) ++ named backslash true (rest.drop 1)) := by
  have hverb : isVerbatim .windows (w ++ rest) = true := by rw [isVerbatim_eq hp,hk]
  have hsep : sepIn .windows (w ++ rest) = backslash := by
    funext c
    simp [sepIn,hverb]
  have hlen : prefixLen .windows (w ++ rest) = w.length := by simp [prefixLen,hp]
  have hroot : hasRoot .windows (w ++ rest) = true := by
    have hdisk : k.isDrive = false := by
      cases k <;> first | rfl | cases hk
    simp [hasRoot,hp,hdisk]
  have hphys : hasPhysicalRoot .windows (w ++ rest) = decide (rest ≠ []) := by
    rw [Bool.eq_iff_iff,hasPhysicalRoot_iff,hlen,List.drop_left,decide_eq_true_iff]
    constructor
    · rintro ⟨c,t,hc,-⟩ hnil
      rw [hnil] at hc
      cases hc
    · intro hne
      obtain ⟨c,t,rfl⟩ := List.exists_cons_of_ne_nil hne
      exact ⟨c,t,rfl,hrest c rfl⟩
  have hbody : body .windows (w ++ rest) = rest.drop 1 := by
    rw [body,hphys,hlen,List.drop_left]
    cases rest <;> rfl
  rw [components_body,hbody,hlen,hverb,hsep,hroot,hphys,List.take_left]
  simp only [List.length_eq_zero_iff,hpos]
  by_cases hnil : rest = [] <;> simp [hnil]

theorem push_rendered {cs : List Component} (hne : b ≠ []) (hb : plainName .windows b = true)
    (hp : prefixOf .windows (w ++ rest) = some (k,w.length)) (hk : k.isVerbatim = true)
    (hpos : w ≠ []) (hrest : Cut (isSep .windows) rest)
    (hcs : cs = named backslash true (rest.drop 1) ++ components .windows b) :
    cs ≠ [] ∧ (∀ c ∈ cs, Piece c) ∧
      push .windows (w ++ rest) b = w ++ render .windows true cs := by
  have hverb : isVerbatim .windows (w ++ rest) = true := by rw [isVerbatim_eq hp,hk]
  have hsome : components .windows b ≠ [] := by
    obtain ⟨names,f,hnames,-⟩ := plainName_final hne hb
    simp [hnames]
  have hfull : cs ≠ [] := by simp [hcs,hsome]
  have hpieces : ∀ c ∈ cs, Piece c := by
    intro c hc
    rw [hcs] at hc
    rcases List.mem_append.mp hc with hc | hc
    · exact named_pieces hc
    · exact Piece.plain hb hc
  refine ⟨hfull,hpieces,?_⟩
  obtain ⟨d,ds,hds⟩ := List.exists_cons_of_ne_nil hfull
  rw [push_verbatim hne hb hverb,components_verbatim hp hk hpos hrest,List.cons_append,
    List.append_assoc,← hcs,hds]
  by_cases hnil : rest = []
  · rw [if_pos hnil,List.nil_append,render_bare]
  · rw [if_neg hnil,List.singleton_append,render_root w (hpieces d (by simp [hds]))]

theorem components_rendered {cs : List Component} (hfull : cs ≠ []) (hpieces : ∀ c ∈ cs, Piece c)
    (hp : prefixOf .windows (w ++ render .windows true cs) = some (k,w.length))
    (hk : k.isVerbatim = true) (hpos : w ≠ []) :
    components .windows (w ++ render .windows true cs) = .pre w :: .rootDir :: cs := by
  obtain ⟨d,ds,rfl⟩ := List.exists_cons_of_ne_nil hfull
  have hsep : render .windows true (d :: ds) =
      '\\' :: (d.text .windows ++ render .windows true ds) := render_sep (hpieces d (by simp))
  have hnamed : named backslash true (d.text .windows ++ render .windows true ds) = d :: ds := by
    rw [named_render _ fun c hc => hpieces c (List.mem_cons_of_mem _ hc),
      named_piece (hpieces d (by simp))]
    rfl
  rw [hsep] at hp ⊢
  rw [components_verbatim hp hk hpos (cut_backslash _).anySep,List.drop_one,List.tail_cons,hnamed,
    if_neg (List.cons_ne_nil _ _)]
  rfl

theorem push_complete_verbatim (hverb : isVerbatim os base = true) (hcomplete : Complete os base)
    (hne : b ≠ []) (hb : plainName os b = true) :
    components os (push os base b) =
        components os base ++ rootOf (components os base) ++ components os b ∧
      prefixOf os (push os base b) = prefixOf os base ∧
      ∃ k n, prefixOf os base = some (k,n) ∧ k.isVerbatim = true ∧
        (push os base b).take n = base.take n := by
  obtain ⟨k,n,hp,hk⟩ := isVerbatim_prefix hverb
  cases os with
  | posix => cases hp
  | windows =>
    have hprefix : VerbatimPrefix base k n := by
      refine verbatimPrefix_of hp hk ?_
      rintro rfl
      exact hcomplete.share n hp
    obtain ⟨w,rest,rfl,rfl,hrest,hparse⟩ := hprefix.split
    have hw : w ≠ [] := by
      rintro rfl
      have hpos := prefixOf_pos hp
      simp at hpos
    have hnot : k = .verbatim → w ≠ verbatimUncLead := by
      rintro rfl he
      exact hcomplete.named _ hp (by rw [List.take_left,he])
    obtain ⟨hfull,hpieces,hpush⟩ := push_rendered hne hb hp hk hw hrest rfl
    obtain ⟨d,ds,hds⟩ := List.exists_cons_of_ne_nil hfull
    have hsame : prefixOf .windows (w ++ render .windows true
        (named backslash true (rest.drop 1) ++ components .windows b)) = some (k,w.length) := by
      have hpiece : Piece d := hpieces d (by rw [hds]; exact List.mem_cons_self)
      rw [hds,render_sep hpiece]
      exact (hparse hnot _).parse
    refine ⟨?_,by rw [hpush,hsame,hp],k,w.length,hp,hk,?_⟩
    · rw [hpush,components_rendered hfull hpieces hsame hk hw,
        components_verbatim hp hk hw hrest]
      by_cases hnil : rest = []
      · simp [hnil,rootOf,named_nil]
      · simp [hnil,rootOf]
    · rw [hpush,List.take_left,List.take_left]

theorem rootOf_absolute (habs : isAbsolute os base = true) (hverb : isVerbatim os base = false) :
    rootOf (components os base) = [] := by
  rw [components_plain (absolute_root habs) hverb]
  by_cases hlen : prefixLen os base = 0 <;> simp [hlen,rootOf]

theorem Complete.push_plain (habs : isAbsolute os base = true)
    (hverb : isVerbatim os base = false) (hcomplete : Complete os base)
    (hb : plainName os b = true) : Complete os (push os base b) := by
  have hpush : push os base b = base ++ joint os base ++ b := Path.push_plain hb hverb
  have hsame : prefixOf os (push os base b) = prefixOf os base := by
    rw [hpush]
    exact prefixOf_push habs hverb hcomplete
  have hkind (k : Prefix) (n : Nat) (hk : k.isVerbatim = true) :
      prefixOf os (push os base b) ≠ some (k,n) := by
    intro hp
    rw [hsame] at hp
    rw [isVerbatim_eq hp,hk] at hverb
    cases hverb
  refine ⟨fun n hp => ?_,fun n hp => absurd hp (hkind _ _ rfl),
    fun n hp => absurd hp (hkind _ _ rfl)⟩
  rw [hsame] at hp
  cases os with
  | posix => cases hp
  | windows =>
    have hwhole := hcomplete.device n hp
    have hfour : 4 ≤ base.length := by
      cases plainPrefix_of hp rfl with
      | device hlead _ _ _ => exact lead_length hlead
    rw [hpush]
    simp only [List.length_append]
    omega

theorem push_extends (habs : isAbsolute os base = true) (hcomplete : Complete os base)
    (hne : b ≠ []) (hb : plainName os b = true) :
    components os (push os base b) =
        components os base ++ rootOf (components os base) ++ components os b ∧
      isAbsolute os (push os base b) = true ∧ Complete os (push os base b) := by
  cases hverb : isVerbatim os base with
  | false =>
    rw [rootOf_absolute habs hverb,List.append_nil]
    exact ⟨components_push_plain habs hverb hcomplete hb,
      absolute_push_plain habs hverb hcomplete hb,hcomplete.push_plain habs hverb hb⟩
  | true =>
    obtain ⟨hcomp,hsame,k,n,hp,hk,htake⟩ := push_complete_verbatim hverb hcomplete hne hb
    refine ⟨hcomp,?_,?_⟩
    · cases os with
      | posix => cases hp
      | windows =>
        have hdisk : k.isDrive = false := by
          cases k <;> first | rfl | cases hk
        simp [isAbsolute,hasRoot,hsame,hp,hdisk]
    · refine ⟨fun m hm => ?_,fun m hm => ?_,fun m hm => ?_⟩
      · rw [hsame,hp] at hm
        cases hm
        cases hk
      · rw [hsame] at hm
        obtain rfl : n = m := by
          rw [hp] at hm
          cases hm
          rfl
        rw [htake]
        exact hcomplete.named n hm
      · rw [hsame] at hm
        obtain rfl : n = m := by
          rw [hp] at hm
          cases hm
          rfl
        rw [htake]
        exact hcomplete.share n hm

end Pushed

end Path

import Mathlib.Data.List.TakeWhile
import MurlSystem.Foundation.Path

namespace Path

variable {os : Platform} {base b : List Char}

def joint (os : Platform) (base : List Char) : List Char :=
  let endsInSep := match base.getLast? with | some c => isSep os c | none => true
  let bareDrive := prefixOf os base == some (.disk,base.length)
  if !endsInSep && !bareDrive then [mainSep os] else []

theorem plainName_relative (h : plainName os b = true) :
    isAbsolute os b = false ∧ prefixOf os b = none ∧ hasRoot os b = false := by
  obtain ⟨hroot,-,-⟩ := plainName_components h
  have hpre := plainName_prefix h
  refine ⟨?_,hpre,hroot⟩
  cases os <;> simp [isAbsolute,hroot]

theorem plainName_normal (h : plainName os b = true) :
    components os b = ((b.splitOnP (isSep os)).filter counts).map Component.normal := by
  obtain ⟨-,-,hcomp⟩ := plainName_components h
  have hall : ((b.splitOnP (isSep os)).filterMap (piece false)).all Component.isNormal = true := by
    rw [← hcomp]
    exact h
  rw [hcomp,filterMap_piece hall]

theorem push_plain (h : plainName os b = true) (hverb : isVerbatim os base = false) :
    push os base b = base ++ joint os base ++ b := by
  obtain ⟨habs,hpre,hroot⟩ := plainName_relative h
  simp only [push,habs,hpre,hverb,hroot,Option.isSome_none,Bool.or_self,Bool.false_and,
    Bool.false_eq_true,if_false]
  rfl

theorem push_verbatim (hb : b ≠ []) (h : plainName os b = true)
    (hverb : isVerbatim os base = true) :
    push os base b = render os false (components os base ++ components os b) := by
  obtain ⟨habs,hpre,hroot⟩ := plainName_relative h
  have hfold : (components os b).foldl applyComponent (components os base) =
      components os base ++ components os b := by
    rw [plainName_normal h,foldl_applyComponent]
  simp [push,habs,hpre,hverb,hb,hfold]

theorem isVerbatim_prefix (h : isVerbatim os base = true) :
    ∃ k n, prefixOf os base = some (k,n) ∧ k.isVerbatim = true := by
  unfold isVerbatim at h
  split at h
  · rename_i k n hp
    exact ⟨k,n,hp,h⟩
  · cases h

theorem push_head (hbase : base ≠ []) (hb : b ≠ []) (h : plainName os b = true) :
    (push os base b).head? = base.head? := by
  obtain ⟨c,cs,rfl⟩ := List.exists_cons_of_ne_nil hbase
  cases hverb : isVerbatim os (c :: cs) with
  | false =>
    rw [push_plain h hverb]
    rfl
  | true =>
    obtain ⟨k,n,hp,-⟩ := isVerbatim_prefix hverb
    obtain ⟨rest,hrest⟩ := components_prefix hp
    have hpos := prefixOf_pos hp
    obtain ⟨m,rfl⟩ : ∃ m, n = m + 1 := ⟨n - 1,by omega⟩
    rw [push_verbatim hb h hverb,hrest]
    simp [render,Component.text]

section Pieces

variable {p : Char → Bool} {verbatim : Bool} {s t : List Char} {c : Char}

def named (p : Char → Bool) (verbatim : Bool) (s : List Char) : List Component :=
  (s.splitOnP p).filterMap (piece verbatim)

theorem named_cut (hc : p c = true) : named p verbatim (s ++ c :: t) =
    named p verbatim s ++ named p verbatim t := by
  rw [named,List.splitOnP_append_cons s t hc,List.filterMap_append]
  rfl

theorem piece_nil : piece verbatim [] = none := by
  cases verbatim <;> rfl

theorem named_nil : named p verbatim [] = [] := by
  simp [named,piece_nil]

theorem named_joined {j : List Char} (hj : (∃ c, j = [c] ∧ p c = true) ∨
    j = [] ∧ ∃ x c, s = x ++ [c] ∧ p c = true) :
    named p verbatim (s ++ j ++ t) = named p verbatim s ++ named p verbatim t := by
  rcases hj with ⟨c,rfl,hc⟩ | ⟨rfl,x,c,rfl,hc⟩
  · rw [List.append_assoc,List.singleton_append,named_cut hc]
  · have hx : named p verbatim (x ++ [c]) = named p verbatim x := by
      rw [named_cut hc,named_nil,List.append_nil]
    rw [hx,List.append_nil,List.append_assoc,List.singleton_append,named_cut hc]

end Pieces

section Under

variable {os : Platform} {base b x : List Char}

def prefixLen (os : Platform) (p : List Char) : Nat :=
  match prefixOf os p with
  | some (_,n) => n
  | none => 0

theorem hasPhysicalRoot_iff {p : List Char} : hasPhysicalRoot os p = true ↔
    ∃ c rest, p.drop (prefixLen os p) = c :: rest ∧ isSep os c = true := by
  cases hp : prefixOf os p with
  | none =>
    simp only [hasPhysicalRoot,prefixLen,hp]
    cases p.drop 0 <;> simp
  | some q =>
    obtain ⟨k,n⟩ := q
    simp only [hasPhysicalRoot,prefixLen,hp]
    cases p.drop n <;> simp

def body (os : Platform) (p : List Char) : List Char :=
  if hasPhysicalRoot os p then (p.drop (prefixLen os p)).drop 1 else p.drop (prefixLen os p)

theorem components_body (p : List Char) : components os p =
    (if prefixLen os p = 0 then [] else [.pre (p.take (prefixLen os p))]) ++
    (if hasRoot os p && (hasPhysicalRoot os p || !isVerbatim os p) then [.rootDir]
      else if prefixLen os p = 0 && !hasRoot os p &&
        ((body os p).splitOnP (sepIn os p)).head? == some ['.'] then [.curDir]
      else []) ++
    named (sepIn os p) (isVerbatim os p) (body os p) := rfl

theorem named_body {p : List Char}
    (hp : ∀ c ∈ (p.drop (prefixLen os p)).head?, isSep os c = true → sepIn os p c = true) :
    named (sepIn os p) (isVerbatim os p) (body os p) =
      named (sepIn os p) (isVerbatim os p) (p.drop (prefixLen os p)) := by
  unfold body
  split
  · rename_i hphys
    obtain ⟨c,rest,hd,hc⟩ := hasPhysicalRoot_iff.mp hphys
    have hcut := @named_cut (sepIn os p) (isVerbatim os p) [] rest c (hp c (by rw [hd]; rfl) hc)
    rw [named_nil,List.nil_append,List.nil_append] at hcut
    rw [hd,hcut]
    rfl
  · rfl

theorem components_eq {p : List Char}
    (hp : ∀ c ∈ (p.drop (prefixLen os p)).head?, isSep os c = true → sepIn os p c = true) :
    components os p =
    (if prefixLen os p = 0 then [] else [.pre (p.take (prefixLen os p))]) ++
    (if hasRoot os p && (hasPhysicalRoot os p || !isVerbatim os p) then [.rootDir]
      else if prefixLen os p = 0 && !hasRoot os p &&
        ((p.drop (prefixLen os p)).splitOnP (sepIn os p)).head? == some ['.'] then [.curDir]
      else []) ++
    named (sepIn os p) (isVerbatim os p) (p.drop (prefixLen os p)) := by
  rw [components_body,named_body hp]
  cases hroot : hasRoot os p with
  | true => simp
  | false =>
    have hphys : hasPhysicalRoot os p = false := (Bool.or_eq_false_iff.mp hroot).1
    have hbody : body os p = p.drop (prefixLen os p) := by simp [body,hphys]
    rw [hbody]

theorem sepIn_plain (h : isVerbatim os base = false) : sepIn os base = isSep os := by
  funext c
  simp [sepIn,h]

theorem sepIn_sep (h : isVerbatim os base = false) (c : Char) (hc : isSep os c = true) :
    sepIn os base c = true := by
  rw [sepIn_plain h,hc]

theorem components_plain (hroot : hasRoot os base = true) (hverb : isVerbatim os base = false) :
    components os base =
      (if prefixLen os base = 0 then [] else [.pre (base.take (prefixLen os base))]) ++
      .rootDir :: named (isSep os) false (base.drop (prefixLen os base)) := by
  rw [components_eq (fun c _ => sepIn_sep hverb c),hroot,hverb,sepIn_plain hverb]
  simp

end Under

section Prefixes

variable {p y rest name server share : List Char} {a b c s : Char} {k : Prefix} {n : Nat}

def Free (sep : Char → Bool) (name : List Char) : Prop := ∀ c ∈ name, sep c = false

def Cut (sep : Char → Bool) (rest : List Char) : Prop := ∀ c ∈ rest.head?, sep c = true

theorem takeWhile_cut {sep : Char → Bool} (hname : Free sep name) (hrest : Cut sep rest) :
    (name ++ rest).takeWhile (fun c => !sep c) = name := by
  have hall : ∀ c ∈ name, (!sep c) = true := fun c hc => by rw [hname c hc]; rfl
  rw [List.takeWhile_append_of_pos hall]
  cases rest with
  | nil => simp
  | cons c rest =>
    have hc : sep c = true := hrest c rfl
    simp [hc]

theorem dropWhile_cut {sep : Char → Bool} (hname : Free sep name) (hrest : Cut sep rest) :
    (name ++ rest).dropWhile (fun c => !sep c) = rest := by
  have hall : ∀ c ∈ name, (!sep c) = true := fun c hc => by rw [hname c hc]; rfl
  rw [List.dropWhile_append_of_pos hall]
  cases rest with
  | nil => rfl
  | cons c rest =>
    have hc : sep c = true := hrest c rfl
    simp [hc]

theorem exists_cut (sep : Char → Bool) (p : List Char) :
    ∃ name rest, p = name ++ rest ∧ Free sep name ∧ Cut sep rest := by
  refine ⟨p.takeWhile fun c => !sep c,p.dropWhile fun c => !sep c,
    List.takeWhile_append_dropWhile.symm,?_,?_⟩
  · intro c hc
    simpa using List.mem_takeWhile_imp hc
  · intro c hc
    have hne : p.dropWhile (fun c => !sep c) ≠ [] := by
      intro hnil
      rw [hnil] at hc
      cases hc
    have hhead := List.head_dropWhile_not (fun c => !sep c) hne
    rw [List.head?_eq_some_head hne] at hc
    obtain rfl := Option.mem_some_iff.mp hc
    simpa using hhead

theorem nextComponent_cut {sep : Char → Bool} (hname : Free sep name) (hrest : Cut sep rest) :
    nextComponent sep (name ++ rest) = (name,rest.drop 1) := by
  rw [nextComponent,takeWhile_cut hname hrest,dropWhile_cut hname hrest]

theorem Cut.append {sep : Char → Bool} (hrest : Cut sep rest) (hy : rest = [] → Cut sep y) :
    Cut sep (rest ++ y) := by
  cases rest with
  | nil => exact hy rfl
  | cons c rest => exact hrest

end Prefixes

section Plain

variable {p y rest name server share : List Char} {a b c d s : Char} {k : Prefix} {n : Nat}

def bars : List Char := ['\\','\\']

def deviceLead : List Char := ['\\','\\','.','\\']

def verbatimLead : List Char := ['\\','\\','?','\\']

def ReadsVerbatim (p : List Char) : Prop :=
  verbatimLead.isPrefixOf (backslashed p) = true ∧ '/' ∉ p.take 4

inductive PlainPrefix : List Char → Prefix → Nat → Prop where
  | disk {d : Char} {rest : List Char} (hd : isLetter d = true) :
      PlainPrefix (d :: ':' :: rest) .disk 2
  | device {p name rest : List Char} (hlead : deviceLead.isPrefixOf (backslashed p) = true)
      (hp : p.drop 4 = name ++ rest) (hname : Free (isSep .windows) name)
      (hrest : Cut (isSep .windows) rest) : PlainPrefix p .deviceNs (4 + name.length)
  | unc {p server share rest : List Char} {s : Char}
      (hlead : bars.isPrefixOf (backslashed p) = true)
      (hverb : ¬ReadsVerbatim p) (hdevice : deviceLead.isPrefixOf (backslashed p) = false)
      (hp : p.drop 2 = server ++ s :: (share ++ rest)) (hserver : Free (isSep .windows) server)
      (hs : isSep .windows s = true) (hshare : Free (isSep .windows) share)
      (hrest : Cut (isSep .windows) rest) (hne : server ≠ [] ∧ share ≠ []) :
      PlainPrefix p .unc (2 + (server.length + (1 + share.length)))

theorem readsVerbatim_iff : ReadsVerbatim p ↔
    (['\\','\\','?','\\'].isPrefixOf (backslashed p) && !(p.take 4).contains '/') = true := by
  simp [ReadsVerbatim,verbatimLead]

theorem lead_bars {q : List Char} (h : deviceLead.isPrefixOf q = true) :
    bars.isPrefixOf q = true := by
  rw [List.isPrefixOf_iff_prefix] at h ⊢
  exact (show bars <+: deviceLead from ⟨['.','\\'],rfl⟩).trans h

theorem lead_not_verbatim (h : deviceLead.isPrefixOf (backslashed p) = true) :
    ¬ReadsVerbatim p := by
  rintro ⟨hverb,-⟩
  rw [List.isPrefixOf_iff_prefix] at h hverb
  have hsame := List.prefix_of_prefix_length_le h hverb (by decide)
  exact absurd hsame (by decide)

theorem PlainPrefix.parse (h : PlainPrefix p k n) : parsePrefix p = some (k,n) := by
  cases h with
  | disk hd =>
    rename_i d rest
    have hbars : ['\\','\\'].isPrefixOf (backslashed (d :: ':' :: rest)) = false := by
      simp [backslashed,List.isPrefixOf]
    simp [parsePrefix,hbars,hd]
  | device hlead hp hname hrest =>
    have hbars : ['\\','\\'].isPrefixOf (backslashed p) = true := lead_bars hlead
    have hverb := mt readsVerbatim_iff.mpr (lead_not_verbatim hlead)
    have hdevice : ['\\','\\','.','\\'].isPrefixOf (backslashed p) = true := hlead
    unfold parsePrefix
    rw [if_pos hbars,if_neg hverb,if_pos hdevice,hp,nextComponent_cut hname hrest]
  | @unc _ server share rest s hlead hverb hdevice hp hserver hs hshare hrest hne =>
    have hbars : ['\\','\\'].isPrefixOf (backslashed p) = true := hlead
    have hdevice : ¬['\\','\\','.','\\'].isPrefixOf (backslashed p) = true := by
      rw [Bool.not_eq_true]
      exact hdevice
    have hcut : Cut (isSep .windows) (s :: (share ++ rest)) := by
      rintro c ⟨⟩
      exact hs
    unfold parsePrefix
    rw [if_pos hbars,if_neg (mt readsVerbatim_iff.mpr hverb),if_neg hdevice,hp,
      nextComponent_cut hserver hcut]
    simp only [List.drop_one,List.tail_cons,nextComponent_cut hshare hrest]
    simp [hne,pairLen]

theorem plainPrefix_of (h : parsePrefix p = some (k,n)) (hk : k.isVerbatim = false) :
    PlainPrefix p k n := by
  unfold parsePrefix at h
  dsimp only at h
  split at h
  · rename_i hbars
    split at h
    · exfalso
      split at h
      · cases h
        cases hk
      · cases h
        rw [verbatimName_verbatim] at hk
        cases hk
    · rename_i hverb
      split at h
      · rename_i hdevice
        obtain ⟨name,rest,hp,hname,hrest⟩ := exists_cut (isSep .windows) (p.drop 4)
        rw [hp,nextComponent_cut hname hrest] at h
        cases h
        exact .device hdevice hp hname hrest
      · rename_i hdevice
        obtain ⟨server,rest,hp,hserver,hrest⟩ := exists_cut (isSep .windows) (p.drop 2)
        obtain ⟨share,rest',hp',hshare,hrest'⟩ := exists_cut (isSep .windows) (rest.drop 1)
        rw [hp,nextComponent_cut hserver hrest] at h
        dsimp only at h
        rw [hp',nextComponent_cut hshare hrest'] at h
        split at h
        · rename_i hne
          have hne : server ≠ [] ∧ share ≠ [] := by simpa using hne
          obtain ⟨s,tail,rfl⟩ : ∃ s tail, rest = s :: tail := by
            refine List.exists_cons_of_ne_nil ?_
            rintro rfl
            exact hne.2 (List.append_eq_nil_iff.mp hp'.symm).1
          obtain rfl : tail = share ++ rest' := hp'
          cases h
          have hlen : pairLen server share = server.length + (1 + share.length) := by
            simp [pairLen,hne.2]
          rw [hlen]
          exact .unc hbars (mt readsVerbatim_iff.mp hverb) (Bool.not_eq_true _ ▸ hdevice) hp hserver
            (hrest s rfl) hshare hrest' hne
        · cases h
  · split at h
    · split at h
      · rename_i hd
        cases h
        exact .disk hd
      · cases h
    · cases h

theorem backslashed_append (p y : List Char) :
    backslashed (p ++ y) = backslashed p ++ backslashed y := List.map_append

theorem lead_append {lead : List Char} (hlen : lead.length ≤ p.length) :
    lead.isPrefixOf (backslashed (p ++ y)) = lead.isPrefixOf (backslashed p) := by
  rw [Bool.eq_iff_iff,List.isPrefixOf_iff_prefix,List.isPrefixOf_iff_prefix,backslashed_append]
  have hlen : lead.length ≤ (backslashed p).length := by simpa [backslashed] using hlen
  constructor
  · intro h
    exact List.prefix_of_prefix_length_le h (List.prefix_append _ _) hlen
  · intro h
    exact h.trans (List.prefix_append _ _)

theorem readsVerbatim_append (hlen : 4 ≤ p.length) (h : ReadsVerbatim (p ++ y)) :
    ReadsVerbatim p := by
  have hlead : verbatimLead.isPrefixOf (backslashed (p ++ y)) =
      verbatimLead.isPrefixOf (backslashed p) := lead_append hlen
  refine ⟨by rw [← hlead]; exact h.1,fun hm => h.2 ?_⟩
  rw [List.take_append]
  exact List.mem_append_left _ hm

theorem lead_length {lead : List Char} (h : lead.isPrefixOf (backslashed p) = true) :
    lead.length ≤ p.length := by
  have hle := (List.isPrefixOf_iff_prefix.mp h).length_le
  simpa [backslashed] using hle

theorem PlainPrefix.append (h : PlainPrefix p k n)
    (hy : k ≠ .disk → n = p.length → Cut (isSep .windows) y) : PlainPrefix (p ++ y) k n := by
  cases h with
  | disk hd => exact .disk hd
  | @device _ name rest hlead hp hname hrest =>
    have hlen : 4 ≤ p.length := lead_length hlead
    have hsum : (p.drop 4).length = name.length + rest.length := by
      rw [hp,List.length_append]
    have hlead' : deviceLead.isPrefixOf (backslashed (p ++ y)) =
        deviceLead.isPrefixOf (backslashed p) := lead_append hlen
    refine .device (by rw [hlead',hlead]) ?_ hname (hrest.append fun hnil => hy (by decide) ?_)
    · rw [List.drop_append_of_le_length hlen,hp,List.append_assoc]
    · rw [hnil,List.length_drop] at hsum
      simp only [List.length_nil] at hsum
      omega
  | @unc _ server share rest s hlead hverb hdevice hp hserver hs hshare hrest hne =>
    have hsum : (p.drop 2).length = server.length + (1 + (share.length + rest.length)) := by
      rw [hp]
      simp
      omega
    rw [List.length_drop] at hsum
    have hpos := List.length_pos_iff.mpr hne.1
    have hlen : 4 ≤ p.length := by
      have hshare := List.length_pos_iff.mpr hne.2
      omega
    have hdevice' : deviceLead.isPrefixOf (backslashed (p ++ y)) =
        deviceLead.isPrefixOf (backslashed p) := lead_append hlen
    have hlead' : bars.isPrefixOf (backslashed (p ++ y)) = bars.isPrefixOf (backslashed p) :=
      lead_append (lead_length hlead)
    refine .unc (by rw [hlead',hlead]) (mt (readsVerbatim_append hlen) hverb)
      (by rw [hdevice',hdevice]) ?_ hserver hs hshare (hrest.append fun hnil => hy (by decide) ?_) hne
    · rw [List.drop_append_of_le_length (by omega),hp]
      simp
    · rw [hnil,List.length_nil] at hsum
      omega

end Plain

section Complete

variable {os : Platform} {base b : List Char} {k : Prefix} {n : Nat}

def verbatimUncLead : List Char := ['\\','\\','?','\\','U','N','C']

structure Complete (os : Platform) (base : List Char) : Prop where
  device : ∀ n, prefixOf os base = some (.deviceNs,n) → base.length ≠ 4
  named : ∀ n, prefixOf os base = some (.verbatim,n) → base.take n ≠ verbatimUncLead
  share : ∀ n, prefixOf os base = some (.verbatimUnc,n) → '\\' ∈ (base.take n).drop 8

theorem isVerbatim_eq (h : prefixOf os base = some (k,n)) : isVerbatim os base = k.isVerbatim := by
  simp [isVerbatim,h]

theorem plain_windows (h : prefixOf .windows base = some (k,n))
    (hverb : isVerbatim .windows base = false) : PlainPrefix base k n := by
  rw [isVerbatim_eq h] at hverb
  exact plainPrefix_of h hverb

theorem absolute_root (h : isAbsolute os base = true) : hasRoot os base = true := by
  cases os with
  | posix => exact h
  | windows =>
    simp only [isAbsolute,Bool.and_eq_true] at h
    exact h.1

theorem absolute_prefix (h : isAbsolute .windows base = true) :
    ∃ k n, prefixOf .windows base = some (k,n) := by
  simp only [isAbsolute,Bool.and_eq_true] at h
  obtain ⟨q,hq⟩ := Option.isSome_iff_exists.mp h.2
  exact ⟨q.1,q.2,hq⟩

theorem disk_root (h : isAbsolute .windows base = true) (hp : prefixOf .windows base = some (.disk,n)) :
    ∃ c rest, base.drop 2 = c :: rest ∧ isSep .windows c = true := by
  obtain ⟨rfl,-⟩ := parsePrefix_disk hp
  have hverb : isVerbatim .windows base = false := isVerbatim_eq hp
  have hroot := absolute_root h
  simp only [hasRoot,hp,Prefix.isDrive,beq_self_eq_true,Bool.not_true,Bool.or_false,
    hasPhysicalRoot] at hroot
  cases hd : base.drop 2 with
  | nil =>
    rw [hd] at hroot
    cases hroot
  | cons c rest =>
    rw [hd] at hroot
    exact ⟨c,rest,rfl,hroot⟩

theorem ends_free {sep : Char → Bool} {m : Nat} {w name : List Char}
    (hd : base.drop m = w ++ name) (hne : name ≠ []) (hname : Free sep name) :
    ∃ x c, base = x ++ [c] ∧ sep c = false := by
  obtain ⟨z,c,rfl⟩ := List.eq_nil_or_concat name |>.resolve_left hne
  rw [List.concat_eq_append] at hd hname
  refine ⟨base.take m ++ (w ++ z),c,?_,hname c (by simp)⟩
  conv_lhs => rw [← List.take_append_drop m base,hd]
  simp

theorem PlainPrefix.ends (h : PlainPrefix base k n) (hdisk : k ≠ .disk) (hwhole : n = base.length)
    (hdevice : k = .deviceNs → base.length ≠ 4) :
    ∃ x c, base = x ++ [c] ∧ isSep .windows c = false := by
  cases h with
  | disk hd => exact absurd rfl hdisk
  | @device _ name rest hlead hp hname hrest =>
    have hlen : 4 ≤ base.length := lead_length hlead
    have hsum : (base.drop 4).length = name.length + rest.length := by
      rw [hp,List.length_append]
    rw [List.length_drop] at hsum
    obtain rfl : rest = [] := List.length_eq_zero_iff.mp (by omega)
    refine ends_free (show base.drop 4 = [] ++ name by simpa using hp) ?_ hname
    rintro rfl
    exact hdevice rfl (by simpa using hwhole.symm)
  | @unc _ server share rest s hlead hverb hdevice hp hserver hs hshare hrest hne =>
    have hsum : (base.drop 2).length = server.length + (1 + (share.length + rest.length)) := by
      rw [hp]
      simp
      omega
    rw [List.length_drop] at hsum
    obtain rfl : rest = [] := List.length_eq_zero_iff.mp (by omega)
    have hd : base.drop 2 = server ++ [s] ++ share := by
      rw [hp]
      simp
    exact ends_free hd hne.2 hshare

theorem PlainPrefix.le_length (h : PlainPrefix base k n) : n ≤ base.length := by
  cases h with
  | disk hd => simp
  | @device _ name rest hlead hp hname hrest =>
    have hlen : 4 ≤ base.length := lead_length hlead
    have hsum := congrArg List.length hp
    rw [List.length_drop,List.length_append] at hsum
    omega
  | @unc _ server share rest s hlead hverb hdevice hp hserver hs hshare hrest hne =>
    have hsum := congrArg List.length hp
    simp only [List.length_drop,List.length_append,List.length_cons] at hsum
    omega

theorem joint_bare (hbare : prefixOf os base ≠ some (.disk,base.length)) {x : List Char} {c : Char}
    (hbase : base = x ++ [c]) : joint os base = if isSep os c then [] else [mainSep os] := by
  have hno : (prefixOf os base == some (.disk,base.length)) = false := beq_eq_false_iff_ne.mpr hbare
  rw [joint,hno,hbase]
  cases hc : isSep os c <;> simp [hc]

theorem absolute_not_bare (h : isAbsolute os base = true) :
    prefixOf os base ≠ some (.disk,base.length) := by
  intro hp
  cases os with
  | posix => cases hp
  | windows =>
    obtain ⟨c,rest,hd,-⟩ := disk_root h hp
    obtain ⟨hlen,-⟩ := parsePrefix_disk hp
    rw [List.drop_eq_nil_of_le (by omega)] at hd
    cases hd

theorem absolute_ne_nil (h : isAbsolute os base = true) : base ≠ [] := by
  rintro rfl
  cases os <;> cases h

theorem joint_cases (habs : isAbsolute os base = true) (hverb : isVerbatim os base = false)
    (hcomplete : Complete os base) : (joint os base = [mainSep os]) ∨
      joint os base = [] ∧ ∃ x c, base.drop (prefixLen os base) = x ++ [c] ∧ isSep os c = true := by
  obtain ⟨x,c,hbase⟩ := List.eq_nil_or_concat base |>.resolve_left (absolute_ne_nil habs)
  rw [List.concat_eq_append] at hbase
  have hjoint := joint_bare (absolute_not_bare habs) hbase
  cases hc : isSep os c with
  | false =>
    left
    rw [hjoint,hc]
    rfl
  | true =>
    right
    refine ⟨by rw [hjoint,hc]; rfl,?_⟩
    have hlt : prefixLen os base < base.length := by
      cases os with
      | posix => simp [prefixLen,prefixOf,hbase]
      | windows =>
        obtain ⟨k,n,hp⟩ := absolute_prefix habs
        have hplain := plain_windows hp hverb
        have hle : prefixLen .windows base = n := by simp [prefixLen,hp]
        rw [hle]
        refine lt_of_le_of_ne hplain.le_length fun hwhole => ?_
        have hdisk : k ≠ .disk := by
          rintro rfl
          exact absolute_not_bare habs (by rw [hp,hwhole])
        obtain ⟨x',c',hend,hc'⟩ := hplain.ends hdisk hwhole fun hk =>
          hcomplete.device n (by rw [hp,hk])
        rw [hbase] at hend
        obtain ⟨-,rfl⟩ := List.append_singleton_inj.mp hend
        rw [hc] at hc'
        cases hc'
    generalize prefixLen os base = m at hlt ⊢
    rw [hbase,List.length_append,List.length_singleton] at hlt
    exact ⟨x.drop m,c,by rw [hbase,List.drop_append_of_le_length (by omega)],hc⟩

theorem prefixOf_push (habs : isAbsolute os base = true) (hverb : isVerbatim os base = false)
    (hcomplete : Complete os base) :
    prefixOf os (base ++ joint os base ++ b) = prefixOf os base := by
  cases os with
  | posix => rfl
  | windows =>
    obtain ⟨k,n,hp⟩ := absolute_prefix habs
    have hplain := plain_windows hp hverb
    rw [hp,List.append_assoc]
    refine (hplain.append fun hdisk hwhole => ?_).parse
    rcases joint_cases habs hverb hcomplete with hjoint | ⟨-,x,c,hd,-⟩
    · rw [hjoint]
      rintro c ⟨⟩
      exact isSep_mainSep
    · have hle : prefixLen .windows base = n := by simp [prefixLen,hp]
      rw [hle,hwhole,List.drop_length] at hd
      exact absurd (congrArg List.length hd) (by simp)

theorem prefixLen_le (habs : isAbsolute os base = true) (hverb : isVerbatim os base = false) :
    prefixLen os base ≤ base.length := by
  cases os with
  | posix => exact Nat.zero_le _
  | windows =>
    obtain ⟨k,n,hp⟩ := absolute_prefix habs
    have hle := (plain_windows hp hverb).le_length
    simpa [prefixLen,hp] using hle

theorem isVerbatim_congr {p q : List Char} (h : prefixOf os p = prefixOf os q) :
    isVerbatim os p = isVerbatim os q := by
  unfold isVerbatim
  rw [h]

theorem prefixLen_congr {p q : List Char} (h : prefixOf os p = prefixOf os q) :
    prefixLen os p = prefixLen os q := by
  unfold prefixLen
  rw [h]

theorem hasRoot_append {y : List Char} (h : hasRoot os base = true)
    (hsame : prefixOf os (base ++ y) = prefixOf os base) : hasRoot os (base ++ y) = true := by
  have hlen : prefixLen os (base ++ y) = prefixLen os base := prefixLen_congr hsame
  rw [hasRoot,Bool.or_eq_true] at h ⊢
  rcases h with h | h
  · left
    obtain ⟨c,rest,hd,hc⟩ := hasPhysicalRoot_iff.mp h
    have hle : prefixLen os base ≤ base.length := by
      by_contra hgt
      rw [List.drop_eq_nil_of_le (by omega)] at hd
      cases hd
    refine hasPhysicalRoot_iff.mpr ⟨c,rest ++ y,?_,hc⟩
    rw [hlen,List.drop_append_of_le_length hle,hd]
    rfl
  · right
    rw [hsame]
    exact h

theorem named_plain (h : plainName os b = true) : named (isSep os) false b = components os b := by
  obtain ⟨-,-,hcomp⟩ := plainName_components h
  exact hcomp.symm

theorem components_push_plain (habs : isAbsolute os base = true)
    (hverb : isVerbatim os base = false) (hcomplete : Complete os base)
    (hb : plainName os b = true) :
    components os (push os base b) = components os base ++ components os b := by
  rw [push_plain hb hverb]
  have hsame := prefixOf_push (b := b) habs hverb hcomplete
  have hlen : prefixLen os (base ++ joint os base ++ b) = prefixLen os base :=
    prefixLen_congr hsame
  have hverb' : isVerbatim os (base ++ joint os base ++ b) = false := by
    rw [isVerbatim_congr hsame,hverb]
  have hroot := absolute_root habs
  have hroot' : hasRoot os (base ++ joint os base ++ b) = true := by
    rw [List.append_assoc] at hsame ⊢
    exact hasRoot_append hroot hsame
  have hle := prefixLen_le habs hverb
  have hdrop : (base ++ joint os base ++ b).drop (prefixLen os base) =
      base.drop (prefixLen os base) ++ joint os base ++ b := by
    rw [List.append_assoc,List.drop_append_of_le_length hle,List.append_assoc]
  have htake : (base ++ joint os base ++ b).take (prefixLen os base) =
      base.take (prefixLen os base) := by
    rw [List.append_assoc,List.take_append_of_le_length hle]
  have hnamed : named (isSep os) false (base.drop (prefixLen os base) ++ joint os base ++ b) =
      named (isSep os) false (base.drop (prefixLen os base)) ++ named (isSep os) false b := by
    refine named_joined ?_
    rcases joint_cases habs hverb hcomplete with hjoint | hjoint
    · exact .inl ⟨mainSep os,hjoint,isSep_mainSep⟩
    · exact .inr hjoint
  rw [components_plain hroot' hverb',components_plain hroot hverb,hlen,hdrop,htake,hnamed,
    named_plain hb]
  simp

theorem absolute_push_plain (habs : isAbsolute os base = true)
    (hverb : isVerbatim os base = false) (hcomplete : Complete os base)
    (hb : plainName os b = true) : isAbsolute os (push os base b) = true := by
  rw [push_plain hb hverb]
  have hsame := prefixOf_push (b := b) habs hverb hcomplete
  have hroot' : hasRoot os (base ++ joint os base ++ b) = true := by
    rw [List.append_assoc] at hsame ⊢
    exact hasRoot_append (absolute_root habs) hsame
  cases os with
  | posix => exact hroot'
  | windows =>
    obtain ⟨k,n,hp⟩ := absolute_prefix habs
    rw [isAbsolute,hroot',hsame,hp]
    rfl

end Complete

end Path

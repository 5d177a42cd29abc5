import Mathlib.Data.List.Basic
import Mathlib.Logic.Function.Basic

namespace FileTree

inductive Node (β : Type) where
  | dir
  | file (content : β)
deriving DecidableEq, Repr

abbrev Tree (ν β : Type) : Type := List ν → Option (Node β)

-- What a file system may answer: a path it refuses to create or open, and a write it cuts short.
structure Volume (ν β : Type) where
  refuses : List ν → Option String
  cut : List ν → β → Option (β × String)

def ancestors {ν : Type} (k : List ν) : List (List ν) :=
  (List.range k.length).map fun n => k.take n

section Operations

variable {ν β : Type} [DecidableEq ν]

def stored (t : Tree ν β) (k : List ν) : Option β :=
  match t k with
  | some (.file b) => some b
  | _ => none

def exist (t : Tree ν β) (k : List ν) : Bool := (t k).isSome

def makeDir (vol : Volume ν β) (last : Bool) (k : List ν) (t : Tree ν β) :
    Except String Unit × Tree ν β :=
  match t k with
  | some .dir => (.ok (),t)
  | some (.file _) =>
    (.error (if last then "File exists (os error 17)" else "Not a directory (os error 20)"),t)
  | none =>
    match vol.refuses k with
    | some why => (.error why,t)
    | none => (.ok (),Function.update t k (some .dir))

def makeDirs (vol : Volume ν β) : List (List ν) → Tree ν β → Except String Unit × Tree ν β
  | [],t => (.ok (),t)
  | k :: ks,t =>
    match makeDir vol ks.isEmpty k t with
    | (.ok _,t') => makeDirs vol ks t'
    | (.error why,t') => (.error why,t')

def write (vol : Volume ν β) (k : List ν) (b : β) (t : Tree ν β) :
    Except String Unit × Tree ν β :=
  match t k,vol.refuses k,vol.cut k b with
  | some .dir,_,_ => (.error "Is a directory (os error 21)",t)
  | _,some why,_ => (.error why,t)
  | _,none,some (part,why) => (.error why,Function.update t k (some (.file part)))
  | _,none,none => (.ok (),Function.update t k (some (.file b)))

def install (vol : Volume ν β) (k : List ν) (b : β) (t : Tree ν β) :
    Except String Unit × Tree ν β :=
  match makeDirs vol (ancestors k) t with
  | (.ok _,t') => write vol k b t'
  | (.error why,t') => (.error why,t')

def remove (k : List ν) (t : Tree ν β) : Except String Bool × Tree ν β :=
  match t k with
  | some (.file _) => (.ok true,Function.update t k none)
  | some .dir => (.error "Is a directory (os error 21)",t)
  | none => (.ok false,t)

def installAll (vol : Volume ν β) : List (List ν × β) → Tree ν β → Except String Unit × Tree ν β
  | [],t => (.ok (),t)
  | (k,b) :: rest,t =>
    match install vol k b t with
    | (.ok _,t') => installAll vol rest t'
    | (.error why,t') => (.error why,t')

end Operations

section Growth

variable {ν β : Type} {vol : Volume ν β}

def MayBeDir (vol : Volume ν β) (t : Tree ν β) (q : List ν) : Prop :=
  t q = some .dir ∨ (t q = none ∧ vol.refuses q = none)

def Grown (t t' : Tree ν β) (q : List ν) : Prop :=
  t' q = t q ∨ (t q = none ∧ t' q = some .dir)

theorem Grown.refl (t : Tree ν β) (q : List ν) : Grown t t q := .inl rfl

theorem Grown.trans {t t' t'' : Tree ν β} {q : List ν} (h : Grown t t' q) (h' : Grown t' t'' q) :
    Grown t t'' q := by
  rcases h with h | ⟨hn,h⟩
  · rwa [Grown,h] at h'
  · rcases h' with h' | ⟨hn',-⟩
    · exact .inr ⟨hn,h'.trans h⟩
    · rw [h] at hn'
      cases hn'

theorem MayBeDir.grown {t t' : Tree ν β} {q : List ν} (h : MayBeDir vol t q)
    (hg : Grown t t' q) : MayBeDir vol t' q := by
  rcases hg with hg | ⟨-,hg⟩
  · rwa [MayBeDir,hg]
  · exact .inl hg

theorem mem_ancestors {q k : List ν} : q ∈ ancestors k ↔ q <+: k ∧ q ≠ k := by
  simp only [ancestors,List.mem_map,List.mem_range]
  constructor
  · rintro ⟨n,hn,rfl⟩
    refine ⟨List.take_prefix n k,?_⟩
    intro he
    have hlen := congrArg List.length he
    rw [List.length_take] at hlen
    omega
  · rintro ⟨hp,hne⟩
    refine ⟨q.length,?_,(List.prefix_iff_eq_take.mp hp).symm⟩
    have hle := hp.length_le
    have hlen : q.length ≠ k.length := fun he => hne (hp.eq_of_length he)
    omega

theorem not_mem_ancestors {k : List ν} : k ∉ ancestors k := fun h => (mem_ancestors.mp h).2 rfl

end Growth

section Directories

variable {ν β : Type} [DecidableEq ν] {vol : Volume ν β} {t : Tree ν β} {k : List ν}
  {last : Bool}

theorem makeDir_ok : (makeDir vol last k t).1 = .ok () ↔ MayBeDir vol t k := by
  unfold makeDir MayBeDir
  cases t k with
  | none => cases vol.refuses k <;> simp
  | some node => cases node <;> simp

theorem makeDir_dir (h : (makeDir vol last k t).1 = .ok ()) : (makeDir vol last k t).2 k = some .dir := by
  rcases makeDir_ok.mp h with hdir | ⟨hnone,hfree⟩
  · simp only [makeDir,hdir]
  · simp only [makeDir,hnone,hfree,Function.update_self]

theorem makeDir_other {q : List ν} (h : q ≠ k) : (makeDir vol last k t).2 q = t q := by
  unfold makeDir
  split
  · rfl
  · rfl
  · split
    · rfl
    · exact Function.update_of_ne h _ _

theorem makeDir_grown (q : List ν) : Grown t (makeDir vol last k t).2 q := by
  by_cases hq : q = k
  · subst hq
    unfold makeDir
    split
    · exact .refl t q
    · exact .refl t q
    · rename_i hn
      split
      · exact .refl t q
      · exact .inr ⟨hn,Function.update_self q _ t⟩
  · exact .inl (makeDir_other hq)

theorem mayBeDir_makeDir {q : List ν} (hk : MayBeDir vol t k) :
    MayBeDir vol (makeDir vol last k t).2 q ↔ MayBeDir vol t q := by
  by_cases hq : q = k
  · subst hq
    exact ⟨fun _ => hk,fun h => h.grown (makeDir_grown q)⟩
  · rw [MayBeDir,makeDir_other hq,MayBeDir]

theorem makeDirs_cons {ks : List (List ν)} (h : MayBeDir vol t k) :
    makeDirs vol (k :: ks) t = makeDirs vol ks (makeDir vol ks.isEmpty k t).2 := by
  have hok : (makeDir vol ks.isEmpty k t).1 = .ok () := makeDir_ok.mpr h
  rw [makeDirs]
  split
  · rename_i heq
    rw [heq]
  · rename_i heq
    rw [heq] at hok
    cases hok

theorem makeDirs_stop {ks : List (List ν)} (h : ¬MayBeDir vol t k) :
    (makeDirs vol (k :: ks) t).1 ≠ .ok () ∧
      (makeDirs vol (k :: ks) t).2 = (makeDir vol ks.isEmpty k t).2 := by
  have hno : (makeDir vol ks.isEmpty k t).1 ≠ .ok () := fun hok => h (makeDir_ok.mp hok)
  rw [makeDirs]
  split
  · rename_i heq
    rw [heq] at hno
    exact absurd rfl hno
  · rename_i heq
    rw [heq]
    exact ⟨nofun,rfl⟩

theorem makeDirs_ok {ks : List (List ν)} :
    (makeDirs vol ks t).1 = .ok () ↔ ∀ q ∈ ks, MayBeDir vol t q := by
  induction ks generalizing t with
  | nil => simp [makeDirs]
  | cons k ks ih =>
    by_cases hk : MayBeDir vol t k
    · simp only [makeDirs_cons hk,ih,mayBeDir_makeDir hk,List.forall_mem_cons,hk,true_and]
    · simp only [(makeDirs_stop hk).1,List.forall_mem_cons,hk,false_and]

theorem makeDirs_grown {ks : List (List ν)} {q : List ν} :
    Grown t (makeDirs vol ks t).2 q ∧ (q ∉ ks → (makeDirs vol ks t).2 q = t q) := by
  induction ks generalizing t with
  | nil => exact ⟨.refl t q,fun _ => rfl⟩
  | cons k ks ih =>
    by_cases hk : MayBeDir vol t k
    · rw [makeDirs_cons hk]
      obtain ⟨hgrown,hother⟩ := ih (t := (makeDir vol ks.isEmpty k t).2)
      refine ⟨(makeDir_grown q).trans hgrown,?_⟩
      intro hq
      rw [List.mem_cons,not_or] at hq
      rw [hother hq.2,makeDir_other hq.1]
    · rw [(makeDirs_stop hk).2]
      refine ⟨makeDir_grown q,?_⟩
      intro hq
      rw [List.mem_cons,not_or] at hq
      exact makeDir_other hq.1

theorem makeDirs_dir {ks : List (List ν)} {q : List ν} (h : (makeDirs vol ks t).1 = .ok ())
    (hq : q ∈ ks) : (makeDirs vol ks t).2 q = some .dir := by
  induction ks generalizing t with
  | nil => cases hq
  | cons k ks ih =>
    have hk : MayBeDir vol t k := makeDirs_ok.mp h k (by simp)
    rw [makeDirs_cons hk] at h ⊢
    rcases List.mem_cons.mp hq with rfl | hq
    · have hdir : (makeDir vol ks.isEmpty q t).2 q = some .dir := makeDir_dir (makeDir_ok.mpr hk)
      have hgrown : Grown (makeDir vol ks.isEmpty q t).2
          (makeDirs vol ks (makeDir vol ks.isEmpty q t).2).2 q := makeDirs_grown.1
      rcases hgrown with hsame | ⟨hnone,hnew⟩
      · exact hsame.trans hdir
      · exact hnew
    · exact ih h hq

end Directories

section Install

variable {ν β : Type} [DecidableEq ν] {vol : Volume ν β} {t : Tree ν β} {k : List ν} {b : β}

structure Opens (vol : Volume ν β) (t : Tree ν β) (k : List ν) : Prop where
  above : ∀ q ∈ ancestors k, MayBeDir vol t q
  free : t k ≠ some .dir
  allowed : vol.refuses k = none

def landed (vol : Volume ν β) (k : List ν) (b : β) : β :=
  match vol.cut k b with
  | some (part,_) => part
  | none => b

theorem write_open (hfree : t k ≠ some .dir) (hallowed : vol.refuses k = none) :
    ((write vol k b t).1 = .ok () ↔ vol.cut k b = none) ∧
      (write vol k b t).2 = Function.update t k (some (.file (landed vol k b))) := by
  unfold write landed
  rw [hallowed]
  cases ht : t k with
  | none => cases hc : vol.cut k b <;> simp
  | some node =>
    cases node with
    | dir => exact absurd ht hfree
    | file old => cases hc : vol.cut k b <;> simp

theorem write_stuck (h : ¬(t k ≠ some .dir ∧ vol.refuses k = none)) :
    (write vol k b t).1 ≠ .ok () ∧ (write vol k b t).2 = t := by
  unfold write
  cases hr : vol.refuses k with
  | some why =>
    cases ht : t k with
    | none => exact ⟨nofun,rfl⟩
    | some node => cases node <;> exact ⟨nofun,rfl⟩
  | none =>
    obtain ht : t k = some .dir := by simpa [hr] using h
    rw [ht]
    exact ⟨nofun,rfl⟩

theorem install_dirs (h : ∀ q ∈ ancestors k, MayBeDir vol t q) :
    install vol k b t = write vol k b (makeDirs vol (ancestors k) t).2 := by
  have hok := makeDirs_ok.mpr h
  rw [install]
  split
  · rename_i heq
    rw [heq]
  · rename_i heq
    rw [heq] at hok
    cases hok

theorem makeDirs_leaf : (makeDirs vol (ancestors k) t).2 k = t k :=
  makeDirs_grown.2 not_mem_ancestors

theorem install_opens (h : Opens vol t k) :
    ((install vol k b t).1 = .ok () ↔ vol.cut k b = none) ∧
      (install vol k b t).2 k = some (.file (landed vol k b)) ∧
      (∀ q ≠ k, Grown t (install vol k b t).2 q) ∧
      (∀ q ≠ k, q ∉ ancestors k → (install vol k b t).2 q = t q) ∧
      ∀ q ∈ ancestors k, (install vol k b t).2 q = some .dir := by
  have hfree : (makeDirs vol (ancestors k) t).2 k ≠ some .dir := by
    rw [makeDirs_leaf]
    exact h.free
  obtain ⟨hok,htree⟩ := write_open (b := b) hfree h.allowed
  rw [install_dirs h.above,htree]
  refine ⟨hok,Function.update_self _ _ _,?_,?_,?_⟩
  · intro q hq
    rw [Grown,Function.update_of_ne hq]
    exact makeDirs_grown.1
  · intro q hq hanc
    rw [Function.update_of_ne hq]
    exact makeDirs_grown.2 hanc
  · intro q hq
    have hne : q ≠ k := (mem_ancestors.mp hq).2
    rw [Function.update_of_ne hne]
    exact makeDirs_dir (makeDirs_ok.mpr h.above) hq

theorem install_stuck (h : ¬Opens vol t k) :
    (install vol k b t).1 ≠ .ok () ∧ ∀ q, Grown t (install vol k b t).2 q := by
  by_cases habove : ∀ q ∈ ancestors k, MayBeDir vol t q
  · have hleaf : ¬((makeDirs vol (ancestors k) t).2 k ≠ some .dir ∧ vol.refuses k = none) := by
      rw [makeDirs_leaf]
      exact fun hw => h ⟨habove,hw.1,hw.2⟩
    obtain ⟨hno,htree⟩ := write_stuck (b := b) hleaf
    rw [install_dirs habove,htree]
    exact ⟨hno,fun q => makeDirs_grown.1⟩
  · have hno : (makeDirs vol (ancestors k) t).1 ≠ .ok () := fun hok => habove (makeDirs_ok.mp hok)
    rw [install]
    split
    · rename_i heq
      rw [heq] at hno
      exact absurd rfl hno
    · rename_i heq
      refine ⟨nofun,fun q => ?_⟩
      have hgrown : Grown t (makeDirs vol (ancestors k) t).2 q := makeDirs_grown.1
      rw [heq] at hgrown
      exact hgrown

end Install

section Run

variable {ν β : Type} [DecidableEq ν] {vol : Volume ν β} {t t' : Tree ν β} {k : List ν} {b : β}
  {done : List (List ν × β)}

def last (writes : List (List ν × β)) (q : List ν) : Option β := writes.reverse.lookup q

theorem last_snoc (writes : List (List ν × β)) (q : List ν) :
    last (writes ++ [(k,b)]) q = if q = k then some b else last writes q := by
  rw [last,List.reverse_append,List.reverse_singleton,List.singleton_append,List.lookup_cons]
  by_cases h : q = k
  · simp [h]
  · rw [beq_false_of_ne h,if_neg h]
    rfl

theorem last_mem {writes : List (List ν × β)} {q : List ν} (h : last writes q = some b) :
    (q,b) ∈ writes := by
  rw [last,List.lookup_eq_some_iff] at h
  obtain ⟨pre,post,he,-⟩ := h
  rw [← List.mem_reverse,he]
  simp

theorem last_none {writes : List (List ν × β)} {q : List ν} :
    last writes q = none ↔ ∀ w ∈ writes, w.1 ≠ q := by
  rw [last,List.lookup_eq_none_iff]
  simp only [List.mem_reverse,bne_iff_ne,ne_eq]
  exact ⟨fun h w hw he => h w hw he.symm,fun h w hw he => h w hw he.symm⟩

structure Left (t : Tree ν β) (writes : List (List ν × β)) (t' : Tree ν β) : Prop where
  written : ∀ q b, last writes q = some b → t' q = some (.file b)
  kept : ∀ q, last writes q = none → Grown t t' q

def Apart (done : List (List ν × β)) (k : List ν) : Prop :=
  ∀ w ∈ done, w.1 ∉ ancestors k ∧ k ∉ ancestors w.1

structure Reached (vol : Volume ν β) (t : Tree ν β) (done : List (List ν × β)) (t' : Tree ν β) :
    Prop extends Left t done t' where
  opened : ∀ w ∈ done, Opens vol t w.1
  above : ∀ w ∈ done, ∀ q ∈ ancestors w.1, t' q = some .dir
  same : ∀ q, last done q = none → (∀ w ∈ done, q ∉ ancestors w.1) → t' q = t q

def Room (vol : Volume ν β) (t : Tree ν β) (done : List (List ν × β)) (k : List ν) : Prop :=
  Apart done k ∧ Opens vol t k

theorem Reached.start (vol : Volume ν β) (t : Tree ν β) : Reached vol t [] t :=
  ⟨⟨nofun,fun q _ => .refl t q⟩,by simp,by simp,fun _ _ _ => rfl⟩

theorem Reached.opens_iff (h : Reached vol t done t') : Opens vol t' k ↔ Room vol t done k := by
  constructor
  · intro ho
    have hapart : Apart done k := by
      intro w hw
      constructor
      · intro hanc
        cases hlast : last done w.1 with
        | none => exact last_none.mp hlast w hw rfl
        | some b =>
          rcases ho.above w.1 hanc with hdir | ⟨hnone,-⟩
          · rw [h.written w.1 b hlast] at hdir
            cases hdir
          · rw [h.written w.1 b hlast] at hnone
            cases hnone
      · intro hanc
        exact ho.free (h.above w hw k hanc)
    refine ⟨hapart,?_,?_,ho.allowed⟩
    · intro q hq
      have hlast : last done q = none := last_none.mpr fun w hw he => (hapart w hw).1 (he ▸ hq)
      by_cases hunder : ∃ w ∈ done, q ∈ ancestors w.1
      · obtain ⟨w,hw,hanc⟩ := hunder
        exact (h.opened w hw).above q hanc
      · have hsame := h.same q hlast fun w hw hanc => hunder ⟨w,hw,hanc⟩
        have hmay := ho.above q hq
        rwa [MayBeDir,hsame] at hmay
    · cases hlast : last done k with
      | none =>
        rw [← h.same k hlast fun w hw => (hapart w hw).2]
        exact ho.free
      | some b => exact (h.opened _ (last_mem hlast)).free
  · rintro ⟨hapart,ho⟩
    refine ⟨?_,?_,ho.allowed⟩
    · intro q hq
      have hlast : last done q = none := last_none.mpr fun w hw he => (hapart w hw).1 (he ▸ hq)
      exact (ho.above q hq).grown (h.kept q hlast)
    · cases hlast : last done k with
      | none =>
        rw [h.same k hlast fun w hw => (hapart w hw).2]
        exact ho.free
      | some b =>
        rw [h.written k b hlast]
        nofun

theorem Reached.install (h : Reached vol t done t') (hroom : Room vol t done k) :
    Reached vol t (done ++ [(k,landed vol k b)]) (install vol k b t').2 := by
  obtain ⟨-,hleaf,hgrown,hsame,hdirs⟩ := install_opens (b := b) (h.opens_iff.mpr hroom)
  refine ⟨⟨?_,?_⟩,?_,?_,?_⟩
  · intro q c hq
    rw [last_snoc] at hq
    split at hq
    · rename_i he
      cases hq
      rw [he,hleaf]
    · rename_i hne
      have hold := h.written q c hq
      rcases hgrown q hne with he | ⟨hnone,-⟩
      · exact he.trans hold
      · rw [hold] at hnone
        cases hnone
  · intro q hq
    rw [last_snoc] at hq
    split at hq
    · cases hq
    · rename_i hne
      exact (h.kept q hq).trans (hgrown q hne)
  · intro w hw
    rcases List.mem_append.mp hw with hw | hw
    · exact h.opened w hw
    · rw [List.mem_singleton.mp hw]
      exact hroom.2
  · intro w hw q hq
    rcases List.mem_append.mp hw with hw | hw
    · have hne : q ≠ k := fun he => (hroom.1 w hw).2 (he ▸ hq)
      have hdir := h.above w hw q hq
      rcases hgrown q hne with he | ⟨-,hnew⟩
      · exact he.trans hdir
      · exact hnew
    · rw [List.mem_singleton.mp hw] at hq
      exact hdirs q hq
  · intro q hq hunder
    rw [last_snoc] at hq
    split at hq
    · cases hq
    · rename_i hne
      rw [hsame q hne (hunder (k,landed vol k b) (by simp))]
      exact h.same q hq fun w hw => hunder w (by simp [hw])

def Placed (vol : Volume ν β) (t : Tree ν β) (done items : List (List ν × β)) : Prop :=
  ∀ pre k b post, items = pre ++ (k,b) :: post →
    Room vol t (done ++ pre) k ∧ vol.cut k b = none

omit [DecidableEq ν] in
theorem placed_nil : Placed vol t done [] := by
  intro pre k b post he
  simp at he

omit [DecidableEq ν] in
theorem placed_cons {rest : List (List ν × β)} : Placed vol t done ((k,b) :: rest) ↔
    (Room vol t done k ∧ vol.cut k b = none) ∧ Placed vol t (done ++ [(k,b)]) rest := by
  constructor
  · intro h
    refine ⟨?_,?_⟩
    · simpa using h [] k b rest rfl
    · intro pre k' b' post he
      simpa using h ((k,b) :: pre) k' b' post (by rw [he,List.cons_append])
  · rintro ⟨hhere,hrest⟩ pre k' b' post he
    cases pre with
    | nil =>
      cases he
      simpa using hhere
    | cons w pre =>
      obtain ⟨rfl,rfl⟩ := List.cons.inj he
      simpa using hrest pre k' b' post rfl

inductive Ends (vol : Volume ν β) (t : Tree ν β) (done items : List (List ν × β)) :
    Except String Unit → Tree ν β → Prop
  | all (t' : Tree ν β) (placed : Placed vol t done items)
      (reached : Reached vol t (done ++ items) t') : Ends vol t done items (.ok ()) t'
  | blocked (pre : List (List ν × β)) (k : List ν) (b : β) (post : List (List ν × β))
      (why : String) (t' : Tree ν β) (split : items = pre ++ (k,b) :: post)
      (placed : Placed vol t done pre) (shut : ¬Room vol t (done ++ pre) k)
      (left : Left t (done ++ pre) t') : Ends vol t done items (.error why) t'
  | short (pre : List (List ν × β)) (k : List ν) (b : β) (post : List (List ν × β)) (part : β)
      (why why' : String) (t' : Tree ν β) (split : items = pre ++ (k,b) :: post)
      (placed : Placed vol t done pre) (room : Room vol t (done ++ pre) k)
      (cut : vol.cut k b = some (part,why')) (left : Left t (done ++ pre ++ [(k,part)]) t') :
      Ends vol t done items (.error why) t'

theorem Ends.cons {rest : List (List ν × β)} {res : Except String Unit} {t' : Tree ν β}
    (hhere : Room vol t done k ∧ vol.cut k b = none)
    (h : Ends vol t (done ++ [(k,b)]) rest res t') : Ends vol t done ((k,b) :: rest) res t' := by
  cases h with
  | all t' placed reached =>
    refine .all t' (placed_cons.mpr ⟨hhere,placed⟩) ?_
    simpa using reached
  | blocked pre k' b' post why t' split placed shut left =>
    refine .blocked ((k,b) :: pre) k' b' post why t' (by rw [split,List.cons_append])
      (placed_cons.mpr ⟨hhere,placed⟩) ?_ ?_
    · simpa using shut
    · simpa using left
  | short pre k' b' post part why why' t' split placed room cut left =>
    refine .short ((k,b) :: pre) k' b' post part why why' t' (by rw [split,List.cons_append])
      (placed_cons.mpr ⟨hhere,placed⟩) ?_ cut ?_
    · simpa using room
    · simpa using left

omit [DecidableEq ν] in
theorem landed_whole (h : vol.cut k b = none) : landed vol k b = b := by
  rw [landed,h]

theorem installAll_ends (items : List (List ν × β)) (h : Reached vol t done t') :
    Ends vol t done items (installAll vol items t').1 (installAll vol items t').2 := by
  induction items generalizing done t' with
  | nil =>
    refine .all t' placed_nil ?_
    simpa using h
  | cons w rest ih =>
    obtain ⟨k,b⟩ := w
    by_cases hroom : Room vol t done k
    · have hopen := h.opens_iff.mpr hroom
      obtain ⟨hok,-⟩ := install_opens (b := b) hopen
      have hnext := h.install (b := b) hroom
      cases hcut : vol.cut k b with
      | none =>
        rw [landed_whole hcut] at hnext
        have hstep : installAll vol ((k,b) :: rest) t' =
            installAll vol rest (FileTree.install vol k b t').2 := by
          rw [installAll]
          split
          · rename_i heq
            rw [heq]
          · rename_i heq
            rw [heq] at hok
            cases hok.mpr hcut
        rw [hstep]
        exact (ih hnext).cons ⟨hroom,hcut⟩
      | some cut =>
        obtain ⟨part,why'⟩ := cut
        have hland : landed vol k b = part := by rw [landed,hcut]
        rw [hland] at hnext
        rw [installAll]
        split
        · rename_i heq
          rw [heq,hcut] at hok
          cases hok.mp rfl
        · rename_i why t'' heq
          rw [heq] at hnext
          exact .short [] k b rest part why why' t'' rfl placed_nil (by simpa using hroom) hcut
            (by simpa using hnext.toLeft)
    · have hshut : ¬Opens vol t' k := fun ho => hroom (h.opens_iff.mp ho)
      obtain ⟨hno,hgrown⟩ := install_stuck (b := b) hshut
      rw [installAll]
      split
      · rename_i heq
        rw [heq] at hno
        exact absurd rfl hno
      · rename_i why t'' heq
        rw [heq] at hgrown
        refine .blocked [] k b rest why t'' rfl placed_nil (by simpa using hroom) ⟨?_,?_⟩
        · intro q c hq
          rw [List.append_nil] at hq
          have hold := h.written q c hq
          rcases hgrown q with he | ⟨hnone,-⟩
          · exact he.trans hold
          · rw [hold] at hnone
            cases hnone
        · intro q hq
          rw [List.append_nil] at hq
          exact (h.kept q hq).trans (hgrown q)

end Run

section AllOrNothing

variable {ν β : Type} [DecidableEq ν] {vol : Volume ν β} {t t' : Tree ν β}
  {writes items : List (List ν × β)}

def Held (t : Tree ν β) (writes : List (List ν × β)) : Prop :=
  ∀ q b, last writes q = some b → stored t q = some b

structure Spared (vol : Volume ν β) (t : Tree ν β) (items : List (List ν × β)) : Prop where
  blocked : ∀ pre k b post, items = pre ++ (k,b) :: post → Placed vol t [] pre →
    ¬Room vol t pre k → Held t pre
  short : ∀ pre k b post part why, items = pre ++ (k,b) :: post → Placed vol t [] pre →
    Room vol t pre k → vol.cut k b = some (part,why) → Held t (pre ++ [(k,part)])
  whole : Placed vol t [] items → ∀ w ∈ items, last items w.1 = some w.2

theorem Left.stored (h : Left t writes t') (q : List ν) :
    FileTree.stored t' q = (last writes q).or (FileTree.stored t q) := by
  cases hlast : last writes q with
  | some b => rw [FileTree.stored,h.written q b hlast,Option.some_or]
  | none =>
    rw [Option.none_or]
    rcases h.kept q hlast with he | ⟨hnone,hdir⟩
    · rw [FileTree.stored,he,FileTree.stored]
    · rw [FileTree.stored,FileTree.stored,hnone,hdir]

theorem installAll_stored (h : installAll vol items t = (.ok (),t')) (q : List ν) :
    FileTree.stored t' q = (last items q).or (FileTree.stored t q) := by
  have hends := installAll_ends items (Reached.start vol t)
  rw [h] at hends
  cases hends with
  | all t' placed reached => exact reached.toLeft.stored q

theorem Left.held_iff (h : Left t writes t') {names : List ν → Prop}
    (hnames : ∀ w ∈ writes, names w.1) :
    (∀ q, names q → FileTree.stored t' q = FileTree.stored t q) ↔ Held t writes := by
  constructor
  · intro hsame q b hlast
    rw [← hsame q (hnames _ (last_mem hlast)),h.stored,hlast,Option.some_or]
  · intro hheld q _
    rw [h.stored]
    cases hlast : last writes q with
    | none => rw [Option.none_or]
    | some b => rw [Option.some_or,hheld q b hlast]

theorem split_cases {α : Type} {pre pre' post post' : List α} {x x' : α}
    (h : pre ++ x :: post = pre' ++ x' :: post') :
    (pre = pre' ∧ x = x') ∨ (∃ mid, pre' = pre ++ x :: mid) ∨ ∃ mid, pre = pre' ++ x' :: mid := by
  rcases List.append_eq_append_iff.mp h with ⟨mid,rfl,hmid⟩ | ⟨mid,rfl,hmid⟩
  · cases mid with
    | nil =>
      obtain ⟨rfl,-⟩ := List.cons.inj hmid
      exact .inl ⟨by simp,rfl⟩
    | cons y mid =>
      obtain ⟨rfl,-⟩ := List.cons.inj hmid
      exact .inr (.inl ⟨mid,rfl⟩)
  · cases mid with
    | nil =>
      obtain ⟨rfl,-⟩ := List.cons.inj hmid
      exact .inl ⟨by simp,rfl⟩
    | cons y mid =>
      obtain ⟨rfl,-⟩ := List.cons.inj hmid
      exact .inr (.inr ⟨mid,rfl⟩)

omit [DecidableEq ν] in
theorem placed_first {pre pre' post post' : List (List ν × β)} {k k' : List ν} {b b' : β}
    (he : items = pre ++ (k,b) :: post) (he' : items = pre' ++ (k',b') :: post')
    (hplaced : Placed vol t [] pre) (hplaced' : Placed vol t [] pre')
    (hstop : ¬(Room vol t pre k ∧ vol.cut k b = none))
    (hstop' : ¬(Room vol t pre' k' ∧ vol.cut k' b' = none)) : pre = pre' ∧ k = k' ∧ b = b' := by
  rcases split_cases (he.symm.trans he') with ⟨hpre,hx⟩ | ⟨mid,hmid⟩ | ⟨mid,hmid⟩
  · exact ⟨hpre,Prod.mk.inj hx⟩
  · exact absurd (hplaced' pre k b mid hmid) hstop
  · exact absurd (hplaced pre' k' b' mid hmid) hstop'

theorem Left.placed_iff (h : Left t items t') :
    (∀ w ∈ items, FileTree.stored t' w.1 = some w.2) ↔
      ∀ w ∈ items, last items w.1 = some w.2 := by
  refine forall₂_congr fun w hw => ?_
  rw [h.stored]
  cases hlast : last items w.1 with
  | some b => rw [Option.some_or]
  | none => exact absurd rfl (last_none.mp hlast w hw)

theorem spared_placed (placed : Placed vol t [] items) :
    Spared vol t items ↔ ∀ w ∈ items, last items w.1 = some w.2 := by
  constructor
  · intro h
    exact h.whole placed
  · intro h
    refine ⟨?_,?_,fun _ => h⟩
    · intro pre k b post he _ hshut
      exact absurd (placed pre k b post he).1 hshut
    · intro pre k b post part why he _ _ hcut
      have hnone := (placed pre k b post he).2
      rw [hcut] at hnone
      cases hnone

section Stopped

variable {pre post : List (List ν × β)} {k : List ν} {b part : β} {why : String}

theorem spared_blocked (split : items = pre ++ (k,b) :: post) (placed : Placed vol t [] pre)
    (shut : ¬Room vol t pre k) : Spared vol t items ↔ Held t pre := by
  have hstop : ¬(Room vol t pre k ∧ vol.cut k b = none) := fun hs => shut hs.1
  constructor
  · intro h
    exact h.blocked pre k b post split placed shut
  · intro h
    refine ⟨?_,?_,?_⟩
    · intro pre' k' b' post' he' placed' shut'
      obtain ⟨rfl,-,-⟩ := placed_first split he' placed placed' hstop fun hs => shut' hs.1
      exact h
    · intro pre' k' b' post' part' why' he' placed' room' hcut'
      obtain ⟨rfl,rfl,-⟩ := placed_first split he' placed placed' hstop
        fun hs => by rw [hcut'] at hs; cases hs.2
      exact absurd room' shut
    · intro hall
      exact absurd (hall pre k b post split) hstop

theorem spared_short (split : items = pre ++ (k,b) :: post) (placed : Placed vol t [] pre)
    (room : Room vol t pre k) (cut : vol.cut k b = some (part,why)) :
    Spared vol t items ↔ Held t (pre ++ [(k,part)]) := by
  have hstop : ¬(Room vol t pre k ∧ vol.cut k b = none) := by
    intro hs
    rw [cut] at hs
    cases hs.2
  constructor
  · intro h
    exact h.short pre k b post part why split placed room cut
  · intro h
    refine ⟨?_,?_,?_⟩
    · intro pre' k' b' post' he' placed' shut'
      obtain ⟨rfl,rfl,-⟩ := placed_first split he' placed placed' hstop fun hs => shut' hs.1
      exact absurd room shut'
    · intro pre' k' b' post' part' why' he' placed' room' hcut'
      obtain ⟨rfl,rfl,rfl⟩ := placed_first split he' placed placed' hstop
        fun hs => by rw [hcut'] at hs; cases hs.2
      obtain ⟨rfl,-⟩ := Prod.mk.inj (Option.some.inj (cut.symm.trans hcut'))
      exact h
    · intro hall
      exact absurd (hall pre k b post split) hstop

omit [DecidableEq ν] in
theorem split_names {names : List ν → Prop} (hnames : ∀ w ∈ items, names w.1)
    (split : items = pre ++ (k,b) :: post) (c : β) : ∀ w ∈ pre ++ [(k,c)], names w.1 := by
  intro w hw
  rcases List.mem_append.mp hw with hw | hw
  · exact hnames w (by rw [split]; simp [hw])
  · rw [List.mem_singleton.mp hw]
    exact hnames (k,b) (by rw [split]; simp)

end Stopped

def AllOrNone (names : List ν → Prop) (t : Tree ν β) (items : List (List ν × β))
    (res : Except String Unit) (t' : Tree ν β) : Prop :=
  (∀ why, res = .error why → ∀ q, names q → stored t' q = stored t q) ∧
    (res = .ok () → ∀ w ∈ items, stored t' w.1 = some w.2)

theorem Ends.spared_iff {names : List ν → Prop} {res : Except String Unit}
    (hnames : ∀ w ∈ items, names w.1) (h : Ends vol t [] items res t') :
    AllOrNone names t items res t' ↔ Spared vol t items := by
  cases h with
  | all t' placed reached =>
    rw [List.nil_append] at reached
    rw [spared_placed placed,← reached.toLeft.placed_iff]
    exact ⟨fun h => h.2 rfl,fun h => ⟨nofun,fun _ => h⟩⟩
  | blocked pre k b post why t' split placed shut left =>
    have hheld := left.held_iff fun w hw =>
      split_names hnames split b w (List.mem_append_left [(k,b)] hw)
    rw [spared_blocked split placed shut]
    exact ⟨fun h => hheld.mp (h.1 why rfl),fun h => ⟨fun _ _ => hheld.mpr h,nofun⟩⟩
  | short pre k b post part why why' t' split placed room cut left =>
    have hheld := left.held_iff (split_names hnames split part)
    rw [spared_short split placed room cut]
    exact ⟨fun h => hheld.mp (h.1 why rfl),fun h => ⟨fun _ _ => hheld.mpr h,nofun⟩⟩

theorem spared_iff {names : List ν → Prop} (hnames : ∀ w ∈ items, names w.1) :
    ((∀ why t', installAll vol items t = (.error why,t') →
        ∀ q, names q → stored t' q = stored t q) ∧
      ∀ t', installAll vol items t = (.ok (),t') → ∀ w ∈ items, stored t' w.1 = some w.2) ↔
      Spared vol t items := by
  have hends := installAll_ends items (Reached.start vol t)
  rw [← hends.spared_iff hnames]
  generalize installAll vol items t = out
  obtain ⟨res,t'⟩ := out
  constructor
  · intro h
    refine ⟨fun why he => ?_,fun he => ?_⟩
    · exact h.1 why t' (by rw [← he])
    · exact h.2 t' (by rw [← he])
  · intro h
    refine ⟨fun why t'' he => ?_,fun t'' he => ?_⟩
    · obtain ⟨hres,rfl⟩ := Prod.mk.inj he
      exact h.1 why hres
    · obtain ⟨hres,rfl⟩ := Prod.mk.inj he
      exact h.2 hres

end AllOrNothing

section Rooted

variable {ν β : Type} {t t' : Tree ν β} {k q : List ν} {b c : β}

def Rooted (t : Tree ν β) : Prop :=
  ∀ k b, t k = some (.file b) → ∀ q ∈ ancestors k, t q = some .dir

structure Volume.Takes (vol : Volume ν β) (t : Tree ν β) : Prop where
  paths : ∀ k, t k ≠ none → vol.refuses k = none
  files : ∀ k b, t k = some (.file b) → vol.cut k b = none

theorem Rooted.apart (h : Rooted t) (hk : t k = some (.file b)) (hq : t q = some (.file c)) :
    k ∉ ancestors q := by
  intro hanc
  have hdir := h q c hq k hanc
  rw [hk] at hdir
  cases hdir

theorem rooted_empty : Rooted (fun _ => none : Tree ν β) := nofun

structure Empty (t : Tree ν β) : Prop where
  below : ∀ k, k ≠ [] → t k = none
  root : ∀ b, t [] ≠ some (.file b)

def through (coarser : ν → ν) (t : Tree ν β) : Tree ν β := fun k => t (k.map coarser)

theorem Rooted.through (h : Rooted t) (coarser : ν → ν) : Rooted (through coarser t) := by
  intro k b hk q hq
  obtain ⟨hunder,hne⟩ := mem_ancestors.mp hq
  refine h (k.map coarser) b hk (q.map coarser) (mem_ancestors.mpr ⟨hunder.map coarser,?_⟩)
  intro he
  have hlen := congrArg List.length he
  rw [List.length_map,List.length_map] at hlen
  exact hne (hunder.eq_of_length hlen)

theorem Grown.file (h : Grown t t' q) (hq : t' q = some (.file b)) :
    t q = some (.file b) := by
  rcases h with hsame | ⟨-,hdir⟩
  · exact hsame.symm.trans hq
  · rw [hdir] at hq
    cases hq

theorem Grown.directory (h : Grown t t' q) (hq : t q = some .dir) : t' q = some .dir := by
  rcases h with hsame | ⟨-,hdir⟩
  · exact hsame.trans hq
  · exact hdir

end Rooted

section Copy

variable {ν β : Type} [DecidableEq ν] {vol : Volume ν β} {t src : Tree ν β} {k : List ν} {b : β}
  {items : List (List ν × β)}

theorem install_rooted (h : Rooted t) : Rooted (install vol k b t).2 := by
  by_cases hopen : Opens vol t k
  · obtain ⟨-,-,hgrown,-,hdirs⟩ := install_opens (b := b) hopen
    intro q c hq p hp
    by_cases hqk : q = k
    · subst hqk
      exact hdirs p hp
    · have hold := h q c ((hgrown q hqk).file hq) p hp
      have hpk : p ≠ k := by
        rintro rfl
        exact hopen.free hold
      exact (hgrown p hpk).directory hold
  · obtain ⟨-,hgrown⟩ := install_stuck (b := b) hopen
    intro q c hq p hp
    exact (hgrown p).directory (h q c ((hgrown q).file hq) p hp)

theorem installAll_rooted (h : Rooted t) : Rooted (installAll vol items t).2 := by
  induction items generalizing t with
  | nil => exact h
  | cons w rest ih =>
    obtain ⟨k,b⟩ := w
    have hnext : Rooted (install vol k b t).2 := install_rooted h
    rw [installAll]
    split
    · rename_i heq
      rw [heq] at hnext
      exact ih hnext
    · rename_i heq
      rw [heq] at hnext
      exact hnext

theorem installAll_copies (hempty : Empty t) (hroot : Rooted src) (htakes : vol.Takes src)
    (hitems : ∀ w ∈ items, w.1 ≠ [] ∧ src w.1 = some (.file w.2)) :
    ∃ t', installAll vol items t = (.ok (),t') ∧ ∀ w ∈ items, stored t' w.1 = some w.2 := by
  have hends := installAll_ends items (Reached.start vol t)
  cases hout : installAll vol items t with
  | mk res t' =>
    rw [hout] at hends
    cases hends with
    | all t' placed reached =>
      refine ⟨t',rfl,?_⟩
      intro w hw
      rw [installAll_stored hout]
      cases hlast : last items w.1 with
      | none => exact absurd rfl (last_none.mp hlast w hw)
      | some c =>
        have hsrc := (hitems (w.1,c) (last_mem hlast)).2.symm.trans (hitems w hw).2
        obtain rfl : c = w.2 := by simpa using hsrc
        rw [Option.some_or]
    | blocked pre k b post why t' split placed shut left =>
      obtain ⟨hne,hk⟩ : k ≠ [] ∧ src k = some (.file b) := hitems (k,b) (by rw [split]; simp)
      refine absurd ⟨?_,?_,by rw [hempty.below k hne]; nofun,htakes.paths k (by rw [hk]; nofun)⟩ shut
      · intro w hw
        rw [List.nil_append] at hw
        obtain ⟨-,hsrc⟩ := hitems w (by rw [split]; simp [hw])
        exact ⟨hroot.apart hsrc hk,hroot.apart hk hsrc⟩
      · intro q hq
        have hfree := htakes.paths q (by rw [hroot k b hk q hq]; nofun)
        cases hq : t q with
        | none => exact .inr ⟨hq,hfree⟩
        | some entry =>
          cases entry with
          | dir => exact .inl hq
          | file c =>
            obtain rfl : q = [] := by
              by_contra hne
              rw [hempty.below q hne] at hq
              cases hq
            exact absurd hq (hempty.root c)
    | short pre k b post part why why' t' split placed room cut left =>
      obtain ⟨-,hk⟩ : k ≠ [] ∧ src k = some (.file b) := hitems (k,b) (by rw [split]; simp)
      rw [htakes.files k b hk] at cut
      cases cut

end Copy

end FileTree

import MurlSystem.Foundation.FileTree

namespace FileTree

inductive Failure where
  | notFound
  | other (why : String)
deriving DecidableEq, Repr

-- A volume that may also hold on to a path whose removal is asked for, and what it answers to
-- a path that goes on below a file.
structure Medium (ν β : Type) extends Volume ν β where
  keeps : List ν → Option String
  crossing : Failure

section Access

variable {ν β : Type}

def enter (crossing : Failure) (t : Tree ν β) : List (List ν) → Except Failure Unit
  | [] => .ok ()
  | k :: ks =>
    match t k with
    | some .dir => enter crossing t ks
    | some (.file _) => .error crossing
    | none => .error .notFound

def openPath (crossing : Failure) (k : List ν) (t : Tree ν β) : Except Failure (Node β) :=
  match enter crossing t (ancestors k) with
  | .error e => .error e
  | .ok _ =>
    match t k with
    | some node => .ok node
    | none => .error .notFound

def readFile (medium : Medium ν β) (k : List ν) (t : Tree ν β) : Except Failure β :=
  match openPath medium.crossing k t with
  | .error e => .error e
  | .ok .dir => .error (.other "Is a directory (os error 21)")
  | .ok (.file b) =>
    match medium.refuses k with
    | some why => .error (.other why)
    | none => .ok b

def removeFile [DecidableEq ν] (medium : Medium ν β) (k : List ν) (t : Tree ν β) :
    Except Failure Unit × Tree ν β :=
  match openPath medium.crossing k t with
  | .error e => (.error e,t)
  | .ok .dir => (.error (.other "Is a directory (os error 21)"),t)
  | .ok (.file _) =>
    match medium.keeps k with
    | some why => (.error (.other why),t)
    | none => (.ok (),Function.update t k none)

end Access

section Grounded

variable {ν β : Type} {t t' : Tree ν β} {k q x : List ν} {pre post ks : List (List ν)}
  {crossing : Failure}

def Grounded (t : Tree ν β) : Prop := ∀ k, t k ≠ none → ∀ q ∈ ancestors k, t q = some .dir

theorem grounded_empty : Grounded (fun _ => none : Tree ν β) := fun _ h => absurd rfl h

theorem ancestors_before (h : ancestors k = pre ++ x :: post) : ancestors x = pre := by
  have hlen : pre.length < k.length := by
    have htotal := congrArg List.length h
    simp only [ancestors,List.length_map,List.length_range,List.length_append,List.length_cons]
      at htotal
    omega
  have hx : x = k.take pre.length := by
    have hget : (ancestors k)[pre.length]? = some x := by simp [h]
    simpa [ancestors,hlen,eq_comm] using hget
  have hpre : pre = (ancestors k).take pre.length := by simp [h]
  have hmin : min pre.length k.length = pre.length := Nat.min_eq_left (Nat.le_of_lt hlen)
  rw [hpre,hx,ancestors,ancestors,List.length_take,hmin,← List.map_take,List.take_range,hmin]
  refine List.map_congr_left fun n hn => ?_
  rw [List.take_take,Nat.min_eq_left (Nat.le_of_lt (List.mem_range.mp hn))]

theorem enter_dirs (h : ∀ q ∈ pre, t q = some .dir) :
    enter crossing t (pre ++ ks) = enter crossing t ks := by
  induction pre with
  | nil => rfl
  | cons q rest ih =>
    rw [List.cons_append,enter,h q (by simp)]
    exact ih fun p hp => h p (by simp [hp])

theorem enter_all (h : ∀ q ∈ ks, t q = some .dir) : enter crossing t ks = .ok () := by
  have happend := @enter_dirs _ _ t ks [] crossing h
  rwa [List.append_nil] at happend

theorem enter_free (h : ∀ q ∈ ks, ∀ b, t q ≠ some (.file b)) :
    enter crossing t ks = .ok () ∨ enter crossing t ks = .error .notFound := by
  induction ks with
  | nil => exact .inl rfl
  | cons q rest ih =>
    rw [enter]
    cases hq : t q with
    | none => exact .inr rfl
    | some node =>
      cases node with
      | dir => exact ih fun p hp => h p (by simp [hp])
      | file b => exact absurd hq (h q (by simp) b)

theorem openPath_some {node : Node β} (h : Grounded t) (hk : t k = some node) :
    openPath crossing k t = .ok node := by
  have hall := @enter_all _ _ t _ crossing (h k (by rw [hk]; simp))
  rw [openPath,hall,hk]

theorem openPath_blocked {b : β} (h : Grounded t) (hq : q ∈ ancestors k)
    (hfile : t q = some (.file b)) : openPath crossing k t = .error crossing := by
  obtain ⟨pre,post,hsplit⟩ := List.append_of_mem hq
  have habove : ∀ p ∈ pre, t p = some .dir := by
    rw [← ancestors_before hsplit]
    exact h q (by rw [hfile]; simp)
  rw [openPath,hsplit,enter_dirs habove,enter,hfile]

theorem openPath_absent (hk : t k = none)
    (hfree : ∀ q ∈ ancestors k, ∀ b, t q ≠ some (.file b)) :
    openPath crossing k t = .error .notFound := by
  rw [openPath]
  rcases @enter_free _ _ t _ crossing hfree with h | h
  · rw [h,hk]
  · rw [h]

structure Untouched (t t' : Tree ν β) (q : List ν) : Prop where
  same : t' q = t q
  above : ∀ x ∈ ancestors q, Grown t t' x

theorem Untouched.trans {t'' : Tree ν β} (h : Untouched t t' q) (h' : Untouched t' t'' q) :
    Untouched t t'' q :=
  ⟨h'.same.trans h.same,fun x hx => (h.above x hx).trans (h'.above x hx)⟩

theorem Untouched.openPath (hu : Untouched t t' q) (h : Grounded t) (h' : Grounded t') :
    openPath crossing q t' = openPath crossing q t := by
  cases hq : t q with
  | some node => rw [openPath_some h hq,openPath_some h' (hu.same.trans hq)]
  | none =>
    by_cases hblocked : ∃ x ∈ ancestors q, ∃ b, t x = some (.file b)
    · obtain ⟨x,hx,b,hb⟩ := hblocked
      have hb' : t' x = some (.file b) := by
        rcases hu.above x hx with hsame | ⟨hnone,-⟩
        · exact hsame.trans hb
        · rw [hnone] at hb
          cases hb
      rw [openPath_blocked h hx hb,openPath_blocked h' hx hb']
    · have hfree : ∀ x ∈ ancestors q, ∀ b, t x ≠ some (.file b) :=
        fun x hx b hb => hblocked ⟨x,hx,b,hb⟩
      have hfree' : ∀ x ∈ ancestors q, ∀ b, t' x ≠ some (.file b) :=
        fun x hx b hb => hfree x hx b ((hu.above x hx).file hb)
      rw [openPath_absent hq hfree,openPath_absent (hu.same.trans hq) hfree']

end Grounded

section Changes

variable {ν β : Type} [DecidableEq ν] {medium : Medium ν β} {vol : Volume ν β} {t t' : Tree ν β}
  {k q : List ν} {b c : β}

theorem install_other (hq : q ≠ k) (hanc : q ∉ ancestors k) : (install vol k b t).2 q = t q := by
  by_cases hopen : Opens vol t k
  · exact (install_opens hopen).2.2.2.1 q hq hanc
  · by_cases habove : ∀ x ∈ ancestors k, MayBeDir vol t x
    · have hleaf : ¬((makeDirs vol (ancestors k) t).2 k ≠ some .dir ∧ vol.refuses k = none) := by
        rw [makeDirs_leaf]
        exact fun hw => hopen ⟨habove,hw.1,hw.2⟩
      rw [install_dirs habove,(write_stuck hleaf).2]
      exact makeDirs_grown.2 hanc
    · have hno : (makeDirs vol (ancestors k) t).1 ≠ .ok () :=
        fun hok => habove (makeDirs_ok.mp hok)
      have hsame := (@makeDirs_grown _ _ _ vol t (ancestors k) q).2 hanc
      rw [install]
      split
      · rename_i heq
        rw [heq] at hno
        exact absurd rfl hno
      · rename_i heq
        rw [heq] at hsame
        exact hsame

theorem install_grown (hq : q ≠ k) : Grown t (install vol k b t).2 q := by
  by_cases hopen : Opens vol t k
  · exact (install_opens hopen).2.2.1 q hq
  · exact (install_stuck hopen).2 q

theorem install_untouched (hkq : ¬k <+: q) (hqk : ¬q <+: k) :
    Untouched t (install vol k b t).2 q where
  same := by
    refine install_other ?_ fun hanc => hqk (mem_ancestors.mp hanc).1
    rintro rfl
    exact hkq (List.prefix_refl q)
  above := by
    intro x hx
    refine install_grown ?_
    rintro rfl
    exact hkq (mem_ancestors.mp hx).1

theorem Grounded.update (h : Grounded t) (hk : t k ≠ some .dir)
    (hpre : ∀ x ∈ ancestors k, t x = some .dir) (node : Option (Node β)) :
    Grounded (Function.update t k node) := by
  have hstays : ∀ x, t x = some .dir → Function.update t k node x = some .dir := by
    intro x hx
    rwa [Function.update_of_ne]
    rintro rfl
    exact hk hx
  intro q hq x hx
  by_cases hqk : q = k
  · subst hqk
    exact hstays x (hpre x hx)
  · rw [Function.update_of_ne hqk] at hq
    exact hstays x (h q hq x hx)

theorem makeDirs_grounded {pre post : List (List ν)} (h : Grounded t)
    (hsplit : ancestors k = pre ++ post) (hpre : ∀ x ∈ pre, t x = some .dir) :
    Grounded (makeDirs vol post t).2 := by
  induction post generalizing pre t with
  | nil => exact h
  | cons x rest ih =>
    have hx : ∀ y ∈ ancestors x, t y = some .dir := by
      rw [ancestors_before hsplit]
      exact hpre
    have hnext : Grounded (makeDir vol rest.isEmpty x t).2 := by
      unfold makeDir
      split
      · exact h
      · exact h
      · split
        · exact h
        · refine h.update ?_ hx _
          simp [*]
    by_cases hmay : MayBeDir vol t x
    · rw [makeDirs_cons hmay]
      have hsplit' : ancestors k = (pre ++ [x]) ++ rest := by rw [hsplit]; simp
      refine ih hnext hsplit' ?_
      intro y hy
      rcases List.mem_append.mp hy with hy | hy
      · exact (makeDir_grown y).directory (hpre y hy)
      · rw [List.mem_singleton.mp hy]
        exact makeDir_dir (makeDir_ok.mpr hmay)
    · rw [(makeDirs_stop hmay).2]
      exact hnext

theorem install_grounded (h : Grounded t) : Grounded (install vol k b t).2 := by
  have hdirs : Grounded (makeDirs vol (ancestors k) t).2 :=
    @makeDirs_grounded _ _ _ vol t k [] _ h rfl (by simp)
  by_cases habove : ∀ q ∈ ancestors k, MayBeDir vol t q
  · rw [install_dirs habove]
    by_cases hleaf : (makeDirs vol (ancestors k) t).2 k ≠ some .dir ∧ vol.refuses k = none
    · rw [(write_open hleaf.1 hleaf.2).2]
      exact hdirs.update hleaf.1 (fun x hx => makeDirs_dir (makeDirs_ok.mpr habove) hx) _
    · rw [(write_stuck hleaf).2]
      exact hdirs
  · have hno : (makeDirs vol (ancestors k) t).1 ≠ .ok () := fun hok => habove (makeDirs_ok.mp hok)
    rw [install]
    split
    · rename_i heq
      rw [heq] at hno
      exact absurd rfl hno
    · rename_i heq
      rw [heq] at hdirs
      exact hdirs

theorem removeFile_tree (k : List ν) (t : Tree ν β) :
    (removeFile medium k t).2 = t ∨
      (∃ c, t k = some (.file c)) ∧ (removeFile medium k t).2 = Function.update t k none := by
  unfold removeFile openPath
  cases enter medium.crossing t (ancestors k) with
  | error e => exact .inl rfl
  | ok u =>
    cases hk : t k with
    | none => exact .inl rfl
    | some node =>
      cases node with
      | dir => exact .inl rfl
      | file c =>
        cases medium.keeps k with
        | some why => simp
        | none => simp

theorem removeFile_grounded (h : Grounded t) : Grounded (removeFile medium k t).2 := by
  rcases @removeFile_tree _ _ _ medium k t with hsame | ⟨⟨c,hk⟩,hgone⟩
  · rwa [hsame]
  · rw [hgone]
    refine h.update ?_ (h k (by rw [hk]; simp)) none
    rw [hk]
    simp

theorem removeFile_untouched (hkq : ¬k <+: q) : Untouched t (removeFile medium k t).2 q := by
  rcases @removeFile_tree _ _ _ medium k t with hsame | ⟨-,hgone⟩
  · rw [hsame]
    exact ⟨rfl,fun x _ => .refl t x⟩
  · have hother : ∀ x, x <+: q → x ≠ k := by
      rintro x hx rfl
      exact hkq hx
    rw [hgone]
    exact ⟨Function.update_of_ne (hother q (List.prefix_refl q)) _ _,
      fun x hx => .inl (Function.update_of_ne (hother x (mem_ancestors.mp hx).1) _ _)⟩

omit [DecidableEq ν] in
theorem Untouched.opens (hu : Untouched t t' q) (h : Opens vol t q) : Opens vol t' q where
  above := fun x hx => (h.above x hx).grown (hu.above x hx)
  free := by
    rw [hu.same]
    exact h.free
  allowed := h.allowed

theorem Untouched.install (hu : Untouched t t' q) (h : (install vol q b t).1 = .ok ()) :
    (FileTree.install vol q b t').1 = .ok () := by
  have hopen : Opens vol t q := by
    by_contra hshut
    exact (install_stuck hshut).1 h
  exact (install_opens (hu.opens hopen)).1.mpr ((install_opens hopen).1.mp h)

omit [DecidableEq ν] in
theorem Untouched.readFile (hu : Untouched t t' q) (h : Grounded t) (h' : Grounded t') :
    readFile medium q t' = readFile medium q t := by
  rw [FileTree.readFile,FileTree.readFile,hu.openPath h h']

theorem Untouched.removeFile (hu : Untouched t t' q) (h : Grounded t) (h' : Grounded t') :
    (removeFile medium q t').1 = (removeFile medium q t).1 := by
  rw [FileTree.removeFile,FileTree.removeFile,hu.openPath h h']
  cases FileTree.openPath medium.crossing q t with
  | error e => rfl
  | ok node =>
    cases node with
    | dir => rfl
    | file c => cases medium.keeps q <;> rfl

end Changes

end FileTree

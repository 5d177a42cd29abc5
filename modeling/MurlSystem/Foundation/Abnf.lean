import MurlSystem.Foundation.Text

namespace Abnf

inductive Rule where
  | text (s : List Char)
  | exact (s : List Char)
  | char (p : Char → Bool)
  | alt (a b : Rule)
  | cat (a b : Rule)
  | rep (least : Nat) (most : Option Nat) (a : Rule)
  | folded (a : Rule)

namespace Rule

def Derives : Rule → List Char → Prop
  | .text s,w => Text.lowercase w = Text.lowercase s
  | .exact s,w => w = s
  | .char p,w => ∃ c, w = [c] ∧ p c = true
  | .alt a b,w => a.Derives w ∨ b.Derives w
  | .cat a b,w => ∃ x y, w = x ++ y ∧ a.Derives x ∧ b.Derives y
  | .rep least most a,w => ∃ ws : List (List Char), w = ws.flatten ∧ least ≤ ws.length ∧
      (∀ n ∈ most, ws.length ≤ n) ∧ ∀ x ∈ ws, a.Derives x
  | .folded a,w => a.Derives (Text.lowercase w)

def opt (a : Rule) : Rule := .rep 0 (some 1) a

def between (least most : Nat) (a : Rule) : Rule := .rep least (some most) a

def separated (c : Char) (most : Option Nat) (a : Rule) : Rule :=
  .cat a (.rep 0 most (.cat (.exact [c]) a))

end Rule

variable {a b : Rule} {w : List Char}

theorem derives_run {p : Char → Bool} {least : Nat} {most : Option Nat} :
    (Rule.rep least most (.char p)).Derives w ↔
      (∀ c ∈ w, p c = true) ∧ least ≤ w.length ∧ ∀ n ∈ most, w.length ≤ n := by
  constructor
  · rintro ⟨ws,rfl,hleast,hmost,hws⟩
    have hlen : ws.flatten.length = ws.length := by
      clear hleast hmost
      induction ws with
      | nil => rfl
      | cons x xs ih =>
        obtain ⟨c,rfl,-⟩ := hws x (by simp)
        simp [ih fun y hy => hws y (by simp [hy])]
    rw [hlen]
    refine ⟨?_,hleast,hmost⟩
    intro c hc
    obtain ⟨x,hx,hcx⟩ := List.mem_flatten.mp hc
    obtain ⟨d,rfl,hd⟩ := hws x hx
    rwa [List.mem_singleton.mp hcx]
  · rintro ⟨hall,hleast,hmost⟩
    refine ⟨w.map fun c => [c],?_,by simpa using hleast,by simpa using hmost,?_⟩
    · clear hall hleast hmost
      induction w with
      | nil => rfl
      | cons c w ih => simpa using ih
    · intro x hx
      obtain ⟨c,hc,rfl⟩ := List.mem_map.mp hx
      exact ⟨c,rfl,hall c hc⟩

theorem derives_opt : a.opt.Derives w ↔ w = [] ∨ a.Derives w := by
  constructor
  · rintro ⟨ws,rfl,-,hmost,hws⟩
    have hlen := hmost 1 rfl
    match ws,hlen,hws with
    | [],_,_ => exact .inl rfl
    | [x],_,hws => exact .inr (by simpa using hws x (by simp))
  · rintro (rfl | h)
    · exact ⟨[],rfl,by simp,by simp,by simp⟩
    · exact ⟨[w],by simp,by simp,by simp,by simpa using h⟩

theorem intercalate_cons_eq (c : Char) (p : List Char) (ps : List (List Char)) :
    [c].intercalate (p :: ps) = p ++ (ps.map fun q => c :: q).flatten := by
  induction ps generalizing p with
  | nil => simp
  | cons q qs ih =>
    rw [List.intercalate_cons_cons,ih]
    simp

theorem derives_separated {c : Char} {most : Option Nat} :
    (a.separated c most).Derives w ↔ ∃ ps : List (List Char), w = [c].intercalate ps ∧ ps ≠ [] ∧
      (∀ n ∈ most, ps.length ≤ n + 1) ∧ ∀ p ∈ ps, a.Derives p := by
  constructor
  · rintro ⟨x,y,rfl,hx,ws,rfl,-,hmost,hws⟩
    have hcut : ∃ ps : List (List Char), ws = ps.map (fun q => c :: q) ∧
        ∀ p ∈ ps, a.Derives p := by
      clear hmost
      induction ws with
      | nil => exact ⟨[],rfl,by simp⟩
      | cons v vs ih =>
        obtain ⟨ps,rfl,hps⟩ := ih fun z hz => hws z (by simp [hz])
        obtain ⟨s,q,hv,rfl,hq⟩ := hws v (by simp)
        refine ⟨q :: ps,by simp [hv],?_⟩
        intro p hp
        rcases List.mem_cons.mp hp with rfl | hp
        · exact hq
        · exact hps p hp
    obtain ⟨ps,rfl,hps⟩ := hcut
    refine ⟨x :: ps,(intercalate_cons_eq c x ps).symm,by simp,?_,?_⟩
    · intro n hn
      have hle := hmost n hn
      simpa using hle
    · intro p hp
      rcases List.mem_cons.mp hp with rfl | hp
      · exact hx
      · exact hps p hp
  · rintro ⟨ps,rfl,hne,hmost,hps⟩
    obtain ⟨x,qs,rfl⟩ := List.exists_cons_of_ne_nil hne
    refine ⟨x,_,intercalate_cons_eq c x qs,hps x (by simp),qs.map (fun q => c :: q),rfl,by simp,
      ?_,?_⟩
    · intro n hn
      have hle := hmost n hn
      simpa using hle
    · intro z hz
      obtain ⟨q,hq,rfl⟩ := List.mem_map.mp hz
      exact ⟨[c],q,rfl,rfl,hps q (by simp [hq])⟩

end Abnf

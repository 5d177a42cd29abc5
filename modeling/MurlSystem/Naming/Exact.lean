import MurlSystem.Foundation.Numeral
import MurlSystem.Naming.Accepts

namespace MurlSystem.Syntax

open Abnf

section Decimal

theorem decimal_lt {l : List Char} (h : ∀ c ∈ l, isDigit c = true) : decimal l < 10 ^ l.length :=
  Numeral.value_lt h

end Decimal

-- The places where the parser would panic: the cut after seven bytes, the decimals that are
-- expected to fit a `u32`, and the index of the last segment.
structure Steady (s : String) : Prop where
  scheme : firstUnprintable (Text.bytes s) = none → 7 ≤ s.utf8ByteSize →
    ∃ a b, s.toList = a ++ b ∧ (String.ofList a).utf8ByteSize = 7
  decimals : ∀ l : List Char, (∀ c ∈ l, isDigit c = true) → l.length ≤ 5 → decimal l < 2 ^ 32
  segments : ∀ path : List Char, 1 ≤ (path.splitOn '/').length

def Unambiguous (quoted : List Char → Rule) (s : List Char) : Prop :=
  ∀ p q : Parts, p.text = s → p.WellFormed quoted → q.text = s → q.WellFormed quoted → p = q

theorem parse_steady (s : String) : Steady s where
  scheme := by
    intro hprint hsize
    have hascii : ∀ c ∈ s.toList, Text.isAscii c = true := fun c hc =>
      isPrintable_ascii (firstUnprintable_none.mp hprint c hc)
    refine ⟨s.toList.take 7,s.toList.drop 7,(List.take_append_drop 7 s.toList).symm,?_⟩
    rw [Text.size_ascii,String.toList_ofList,List.length_take]
    · rw [Text.size_ascii hascii] at hsize
      omega
    · rw [String.toList_ofList]
      exact fun c hc => hascii c (List.mem_of_mem_take hc)
  decimals := by
    intro l hdigits hlen
    have hlt := decimal_lt hdigits
    have hpow : 10 ^ l.length ≤ 10 ^ 5 := Nat.pow_le_pow_right (by decide) hlen
    have hfit : 10 ^ 5 < 2 ^ 32 := by decide
    omega
  segments := fun path => List.length_pos_of_ne_nil (List.splitOn_ne_nil '/' path)

theorem murl_parse_grammar (s : String) :
    (∀ m, Murl.parse s = .ok m ↔ Accepted .exact s m) ∧
      ((murl .exact).Derives s.toList ↔ ∃ p : Parts, p.text = s.toList ∧ p.WellFormed .exact) ∧
      Unambiguous .exact s.toList ∧ Steady s := by
  refine ⟨fun m => parse_ok,murl_derives .exact s.toList,?_,parse_steady s⟩
  intro p q hp hpw hq hqw
  exact wellFormed_unique hpw hqw (hp.trans hq.symm)

def shoutedParts : Parts :=
  ⟨"murl://".toList,"local".toList,["x".toList],some "LATEST".toList,none,none⟩

def shoutedMurl : Murl := ⟨.local,["x"],.latest,none,none⟩

theorem shouted_latest_refused :
    ¬∀ (s : String) (m : Murl), Murl.parse s = .ok m ↔ Accepted .text s m := by
  intro h
  have hx : segment.Derives "x".toList :=
    ⟨["x".toList],rfl,by simp,by simp,by simpa using .inl ⟨'x',rfl,by decide⟩⟩
  have hlatest : (version .text).Derives "LATEST".toList :=
    .inl (by decide : Text.lowercase "LATEST".toList = Text.lowercase "latest".toList)
  have hw : shoutedParts.WellFormed .text := {
    scheme := by decide
    authority := .inl (by decide : Text.lowercase "local".toList = localAuthority.toList)
    nonempty := by decide
    segments := by
      intro s hs
      obtain rfl := List.mem_singleton.mp hs
      exact hx
    version := by
      rintro v ⟨⟩
      exact hlatest
    query := by rintro q ⟨⟩
    selector := by rintro f ⟨⟩ }
  have hname : SegmentReads Text.isControl "x".toList "x" := {
    some := by decide
    decoded := .plain 'x' [] [] (by decide) .done
    size := by decide
    clean := by
      intro c hc
      obtain rfl : c = 'x' := List.mem_singleton.mp hc
      decide
    solid := by decide }
  have hr : shoutedParts.Reads .text Text.isControl shoutedMurl := {
    authority := .reserved
    few := by decide
    name := .cons hname .nil
    version := .latest _ (by decide : Text.lowercase "LATEST".toList = Text.lowercase "latest".toList)
    query := rfl
    selector := .absent }
  have hok := (h "murl://local/x@LATEST" shoutedMurl).mpr
    ⟨shoutedParts,by decide +kernel,hw,hr,by decide +kernel,by decide +kernel,by decide⟩
  have hno : Murl.parse "murl://local/x@LATEST" ≠ .ok shoutedMurl := by decide +kernel
  exact hno hok

end MurlSystem.Syntax

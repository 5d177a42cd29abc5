import Mathlib.Data.Nat.Bitwise

namespace Cidr

structure Block where
  width : Nat
  length : Nat
  network : Nat
  aligned : 2 ^ (width - length) ∣ network

namespace Block

def host (b : Block) : Nat := b.width - b.length

def Contains (b : Block) (x : Nat) : Prop := x / 2 ^ b.host = b.network / 2 ^ b.host

instance (b : Block) (x : Nat) : Decidable (b.Contains x) :=
  inferInstanceAs (Decidable (x / 2 ^ b.host = b.network / 2 ^ b.host))

variable {b : Block} {x : Nat}

theorem contains_iff : b.Contains x ↔ b.network ≤ x ∧ x < b.network + 2 ^ b.host := by
  have hpos : 0 < 2 ^ b.host := Nat.two_pow_pos _
  have hback : b.network / 2 ^ b.host * 2 ^ b.host = b.network := Nat.div_mul_cancel b.aligned
  rw [Contains,Nat.div_eq_iff hpos,hback]
  omega

end Block

variable {w k x : Nat}

theorem and_netmask (hk : k ≤ w) (hx : x < 2 ^ w) : x &&& (2 ^ w - 2 ^ k) = x / 2 ^ k * 2 ^ k := by
  have hmask : 2 ^ w - 2 ^ k = (2 ^ (w - k) - 1) * 2 ^ k := by
    rw [Nat.sub_mul,Nat.one_mul,← Nat.pow_add,Nat.sub_add_cancel hk]
  rw [hmask]
  apply Nat.eq_of_testBit_eq
  intro i
  rw [Nat.testBit_and,Nat.testBit_mul_two_pow,Nat.testBit_mul_two_pow,Nat.testBit_div_two_pow,
    Nat.testBit_two_pow_sub_one]
  by_cases hi : k ≤ i
  · rw [Nat.sub_add_cancel hi]
    by_cases hw : i < w
    · simp [hi,show i - k < w - k by omega]
    · have hlt : x < 2 ^ i := lt_of_lt_of_le hx (Nat.pow_le_pow_right (by decide) (not_lt.mp hw))
      simp [Nat.testBit_lt_two_pow hlt]
  · simp [hi]

theorem netmask_iff {v : Nat} (hk : k ≤ w) (hx : x < 2 ^ w) (hv : 2 ^ k ∣ v) :
    x &&& (2 ^ w - 2 ^ k) = v ↔ v ≤ x ∧ x < v + 2 ^ k := by
  obtain ⟨q,rfl⟩ := hv
  have hpos : 0 < 2 ^ k := Nat.two_pow_pos k
  have hquot : x / 2 ^ k * 2 ^ k = 2 ^ k * q ↔ x / 2 ^ k = q := by
    rw [Nat.mul_comm (2 ^ k) q]
    exact Nat.mul_left_inj hpos.ne'
  rw [and_netmask hk hx,hquot,Nat.div_eq_iff hpos,Nat.mul_comm q]
  omega

end Cidr

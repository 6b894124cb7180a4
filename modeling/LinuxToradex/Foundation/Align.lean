import Mathlib.Data.Nat.Bitwise

/-! Rounding a 32-bit word up or down to a power of two, by masks as C code does it, and what
it means for the numbers. Rounding up wraps to zero and to nothing else. -/
namespace Align
open Nat UInt32

def IsPow2 (a : Nat) : Prop := ∃ k < 32, a = 2^k

variable {a x : Nat}

lemma IsPow2.pos (h : IsPow2 a) : 0 < a := by
  obtain ⟨k,-,rfl⟩ := h
  exact Nat.two_pow_pos k

lemma IsPow2.lt (h : IsPow2 a) : a < 4294967296 := by
  obtain ⟨k,hk,rfl⟩ := h
  exact Nat.pow_lt_pow_right (by omega) hk

lemma IsPow2.dvd_of_le {b : Nat} (ha : IsPow2 a) (hb : IsPow2 b) (h : a ≤ b) : a ∣ b := by
  obtain ⟨k,-,rfl⟩ := ha
  obtain ⟨l,-,rfl⟩ := hb
  exact pow_dvd_pow 2 ((Nat.pow_le_pow_iff_right (by omega)).mp h)

lemma IsPow2.max {b : Nat} (ha : IsPow2 a) (hb : IsPow2 b) : IsPow2 (max a b) := by
  rcases le_total a b with h | h
  · rwa [max_eq_right h]
  · rwa [max_eq_left h]

/-- `x & ~(a - 1)`. -/
def down (x a : Nat) : Nat :=
  (ofNat x &&& ~~~(ofNat a-1)).toNat

def up (x a : Nat) : Nat :=
  ((ofNat x+(ofNat a-1)) &&& ~~~(ofNat a-1)).toNat

lemma and_high_bits {k w : Nat} (hx : x < 2^w) (hk : k ≤ w) : x &&& (2^w-2^k) = x/2^k*2^k := by
  have hsplit : 2^w-2^k = (2^(w-k)-1) <<< k := by
    rw [shiftLeft_eq,Nat.sub_mul,← Nat.pow_add,Nat.sub_add_cancel hk,Nat.one_mul]
  apply eq_of_testBit_eq
  intro i
  rw [testBit_and,hsplit,testBit_shiftLeft,testBit_two_pow_sub_one,
    ← shiftRight_eq_div_pow,← shiftLeft_eq,testBit_shiftLeft,testBit_shiftRight]
  by_cases hi : k ≤ i
  · rw [show k+(i-k) = i by omega]
    by_cases hi' : i < w
    · simp [hi,show i-k < w-k by omega]
    have hzero : x.testBit i = false := testBit_lt_two_pow (hx.trans_le (Nat.pow_le_pow_right (by omega) (by omega)))
    simp [hzero]
  · simp [hi]

lemma word_and_mask (y : UInt32) (ha : IsPow2 a) : (y &&& ~~~(ofNat a-1)).toNat = y.toNat/a*a := by
  have hlt := ha.lt
  have hpos := ha.pos
  obtain ⟨k,hk,rfl⟩ := ha
  have hmask : (~~~(ofNat (2^k)-1)).toNat = 2^32-2^k := by
    rw [toNat_not,UInt32.toNat_sub,toNat_ofNat',toNat_one,UInt32.size]
    omega
  rw [UInt32.toNat_and,hmask]
  exact and_high_bits y.toNat_lt hk.le

lemma down_eq (hx : x < 4294967296) (ha : IsPow2 a) : down x a = x/a*a := by
  rw [down,word_and_mask _ ha,toNat_ofNat',mod_eq_of_lt hx]

lemma up_eq (ha : IsPow2 a) : up x a = (x+(a-1))%4294967296/a*a := by
  have hpos := ha.pos
  rw [up,word_and_mask _ ha,UInt32.toNat_add,UInt32.toNat_sub,toNat_ofNat', toNat_ofNat',toNat_one]
  congr 2
  omega

section
variable (hx : x < 4294967296) (ha : IsPow2 a)
include hx ha

lemma dvd_down : a ∣ down x a := by
  rw [down_eq hx ha]
  exact dvd_mul_left _ _

lemma down_le : down x a ≤ x := by
  rw [down_eq hx ha]
  exact div_mul_le_self x a

lemma le_down {y : Nat} (hyx : y ≤ x) (hy : a ∣ y) : y ≤ down x a := by
  rw [down_eq hx ha,← Nat.div_mul_cancel hy]
  exact Nat.mul_le_mul_right a (Nat.div_le_div_right hyx)

end

section
variable (ha : IsPow2 a)
include ha

lemma dvd_up : a ∣ up x a := by
  rw [up_eq ha]
  exact dvd_mul_left _ _

lemma up_of_no_wrap (hx : x+(a-1) < 4294967296) : x ≤ up x a ∧ up x a < x+a := by
  have hpos := ha.pos
  rw [up_eq ha,mod_eq_of_lt hx]
  have hdiv := div_add_mod (x+(a-1)) a
  have hmod := mod_lt (x+(a-1)) hpos
  rw [mul_comm] at hdiv
  omega

lemma up_of_wrap (hx : x < 4294967296) (hwrap : 4294967296 ≤ x+(a-1)) : up x a = 0 := by
  have hlt := ha.lt
  rw [up_eq ha,mod_eq_sub_mod hwrap,mod_eq_of_lt (by omega), div_eq_of_lt (by omega),Nat.zero_mul]

lemma le_up (hx : x < 4294967296) (h : up x a ≠ 0) : x ≤ up x a := by
  by_cases hwrap : x+(a-1) < 4294967296
  · exact (up_of_no_wrap ha hwrap).1
  · exact absurd (up_of_wrap ha hx (by omega)) h

lemma up_le {y : Nat} (hxy : x ≤ y) (hy : a ∣ y) (hlt : y < 4294967296) : up x a ≤ y := by
  by_cases hwrap : x+(a-1) < 4294967296
  · obtain ⟨c,rfl⟩ := hy
    have hpos := ha.pos
    rw [up_eq ha,mod_eq_of_lt hwrap,mul_comm a c]
    apply Nat.mul_le_mul_right
    apply le_of_lt_succ
    rw [Nat.div_lt_iff_lt_mul hpos,succ_mul,mul_comm c a]
    omega
  rw [up_of_wrap ha (by omega) (by omega)]
  exact zero_le _

lemma up_of_dvd (hx : a ∣ x) (hlt : x < 4294967296) : up x a = x := by
  refine (up_le ha (le_refl x) hx hlt).antisymm (up_of_no_wrap ha ?_).1
  obtain ⟨k,hk,rfl⟩ := ha
  have hword : 2^k ∣ 4294967296 := pow_dvd_pow 2 (hk.le : k ≤ 32)
  have hgap := le_of_dvd (Nat.sub_pos_of_lt hlt) (dvd_sub hword hx)
  omega

end

/-- `((x - 1) | (a - 1)) + 1`. -/
def roundUp (x a : Nat) : Nat :=
  ((ofNat x-1 ||| (ofNat a-1))+1).toNat

lemma or_low_bits (y k : Nat) : y ||| (2^k-1) = y/2^k*2^k+(2^k-1) := by
  have hlow : 2^k-1 < 2^k := sub_lt (Nat.two_pow_pos k) Nat.one_pos
  rw [mul_comm,two_pow_add_eq_or_of_lt hlow]
  apply eq_of_testBit_eq
  intro i
  rw [testBit_or,testBit_or,testBit_two_pow_sub_one,testBit_two_pow_mul, testBit_div_two_pow]
  by_cases hi : i < k
  · simp [hi]
  · simp [hi,Nat.le_of_not_lt hi,Nat.sub_add_cancel (Nat.le_of_not_lt hi)]

/-- Both ways of rounding up agree, also when they wrap. -/
theorem roundUp_eq_up (ha : IsPow2 a) (hx : x < 4294967296) : roundUp x a = up x a := by
  have hpos := ha.pos
  have hlt := ha.lt
  rw [up_eq ha]
  obtain ⟨k,hk,rfl⟩ := ha
  have hmask : (ofNat (2^k)-1).toNat = 2^k-1 := by
    rw [UInt32.toNat_sub,toNat_ofNat',mod_eq_of_lt hlt]
    simp only [toNat_one]
    omega
  have hpred : (ofNat x-1).toNat = (x+4294967295)%4294967296 := by
    rw [UInt32.toNat_sub,toNat_ofNat',mod_eq_of_lt hx]
    simp only [toNat_one]
    omega
  have hnext : ∀ y < 4294967296, y/2^k*2^k+2^k ≤ 4294967296 := by
    intro y hy
    have hword : 4294967296/2^k*2^k = 4294967296 :=
      Nat.div_mul_cancel (Nat.pow_dvd_pow 2 (hk.le : k ≤ 32))
    have hq : y/2^k < 4294967296/2^k := by
      rw [Nat.div_lt_iff_lt_mul hpos,hword]
      exact hy
    calc y/2^k*2^k+2^k = (y/2^k+1)*2^k := (succ_mul _ _).symm
      _ ≤ 4294967296/2^k*2^k := Nat.mul_le_mul_right _ hq
      _ = 4294967296 := hword
  rw [roundUp,UInt32.toNat_add,UInt32.toNat_or,hmask,hpred,or_low_bits]
  simp only [toNat_one]
  have hnear : ∀ y, y < y/2^k*2^k+2^k := fun y => by
    rw [← succ_mul]
    exact lt_mul_of_div_lt (lt_succ_self _) hpos
  rw [Nat.add_assoc,Nat.sub_add_cancel (by omega : 1 ≤ 2^k)]
  rcases Nat.eq_zero_or_pos x with rfl | hxpos
  · have hlast := hnext 4294967295 (by omega)
    have hlast' := hnear 4294967295
    have hzero : (0+(2^k-1))%4294967296/2^k = 0 := by
      rw [div_eq_zero_iff_lt hpos]
      omega
    have hone : (0+4294967295)%4294967296 = 4294967295 := by omega
    rw [hzero,hone,Nat.zero_mul]
    omega
  have hy : (x+4294967295)%4294967296 = x-1 := by omega
  have hle := hnext (x-1) (by omega)
  have hgt := hnear (x-1)
  rw [hy]
  by_cases hwrap : x+(2^k-1) < 4294967296
  · have hsucc : (x+(2^k-1))/2^k*2^k = (x-1)/2^k*2^k+2^k := by
      rw [show x+(2^k-1) = x-1+2^k by omega,add_div_right _ hpos,succ_mul]
    have hdm := div_mul_le_self (x+(2^k-1)) (2^k)
    rw [mod_eq_of_lt hwrap,hsucc]
    omega
  have hfull : (x-1)/2^k*2^k+2^k = 4294967296 := by
    have hword : 2^k ∣ 4294967296 := Nat.pow_dvd_pow 2 (hk.le : k ≤ 32)
    have hmult : 2^k ∣ (x-1)/2^k*2^k+2^k :=
      Nat.dvd_add (Nat.dvd_mul_left _ _) (Nat.dvd_refl _)
    have hgap := eq_zero_of_dvd_of_lt (Nat.dvd_sub hword hmult) (by omega)
    omega
  have hzero : (x+(2^k-1))%4294967296/2^k = 0 := by
    rw [div_eq_zero_iff_lt hpos]
    omega
  rw [hfull,hzero,Nat.zero_mul]

lemma wrap_sub {a b m : Nat} (hle : b ≤ a) (hlt : a-b < m) : (a+m-b)%m = a-b := by
  rw [Nat.sub_add_comm hle,add_mod_right,mod_eq_of_lt hlt]

/-- Quotient and remainder of a number written in base `c`. -/
theorem mul_add_div_mod {a b c : Nat} (hb : b < c) : (a*c+b)/c = a ∧ (a*c+b)%c = b := by
  rw [mul_comm,mul_add_div (by omega),mul_add_mod,div_eq_of_lt hb,mod_eq_of_lt hb]
  exact ⟨rfl,rfl⟩

end Align

namespace Wrap

def off (b x : UInt32) : Nat := (x-b).toNat

def ahead (d : UInt32) : Bool := decide (0 < d.toNat ∧ d.toNat < 2147483648)

lemma off_eq (b x : UInt32) : off b x = (4294967296-b.toNat+x.toNat)%4294967296 :=
  UInt32.toNat_sub ..

lemma sub_toNat {b x y : UInt32} (h : off b y ≤ off b x) : (x-y).toNat = off b x-off b y := by
  have hy := y.toNat_lt
  rw [UInt32.toNat_sub]
  rw [off_eq] at *
  rw [off_eq] at *
  omega

end Wrap

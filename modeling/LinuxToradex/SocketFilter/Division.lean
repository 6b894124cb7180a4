import LinuxToradex.SocketFilter.Safety
import Mathlib.Tactic.Ring

/-! `sk_chk_filter` replaces the divisor by its reciprocal, which is rounded up. The product is too large by the
rounding error, and the reciprocal of 1 does not fit its 32 bits. -/
namespace LinuxToradex.SocketFilter
open BpfS Nat UInt32

def roundingError (k : Nat) : Nat := (2^32+(k-1))/k*k-2^32

lemma reciprocal_mul {k : Nat} (hk : 0 < k) : (2^32+(k-1))/k*k = 2^32+roundingError k := by
  have hdiv := div_add_mod' (2^32+(k-1)) k
  have hmod := mod_lt (2^32+(k-1)) hk
  unfold roundingError
  omega

lemma reciprocal_quotient_iff {a k : Nat} (hk : 0 < k) :
    a*((2^32+(k-1))/k)/2^32 = a/k ↔ a*roundingError k < (k-a%k)*2^32 := by
  have hmul := reciprocal_mul hk
  have hsplit := div_add_mod' a k
  have hmod := mod_lt a hk
  generalize (2^32+(k-1))/k = r at hmul ⊢
  generalize roundingError k = e at hmul ⊢
  generalize a/k = q at hsplit ⊢
  generalize a%k = m at hsplit hmod ⊢
  obtain ⟨d,rfl⟩ := Nat.exists_eq_add_of_lt hmod
  have hproduct : a*r*(m+d+1) = a*2^32+a*e := by rw [mul_assoc,hmul,mul_add]
  have hquotient : a*2^32 = q*2^32*(m+d+1)+m*2^32 := by rw [← hsplit]; ring
  have hlow : q*2^32 ≤ a*r := by
    refine Nat.le_of_mul_le_mul_right ?_ hk
    omega
  rw [show m+d+1-m = d+1 by omega,Nat.div_eq_iff (by decide)]
  have hhigh : a*r < (q+1)*2^32 ↔ a*r*(m+d+1) < (q+1)*2^32*(m+d+1) :=
    (Nat.mul_lt_mul_right hk).symm
  have hbound : (q+1)*2^32*(m+d+1) = q*2^32*(m+d+1)+m*2^32+(d+1)*2^32 := by ring
  omega

def DividesExactly (a k : UInt32) : Prop :=
  if k = 1 then a = 0 else a.toNat*roundingError k.toNat < (k.toNat-a.toNat%k.toNat)*2^32

lemma reciprocalDivide_iff {a k : UInt32} (hk : k ≠ 0) :
    reciprocalDivide a (reciprocalValue k) = a/k ↔ DividesExactly a k := by
  unfold DividesExactly
  by_cases hone : k = 1
  · subst hone
    have hzero : reciprocalValue 1 = 0 := by decide
    rw [if_pos rfl,hzero,show a/1 = a from UInt32.div_one]
    simp [reciprocalDivide,eq_comm]
  have hpos : 0 < k.toNat := Nat.pos_of_ne_zero fun h => hk (UInt32.toNat_inj.mp h)
  have htwo : 2 ≤ k.toNat := by
    have hne : k.toNat ≠ 1 := fun h => hone (UInt32.toNat_inj.mp h)
    omega
  have hfit : (2^32+(k.toNat-1))/k.toNat < 2^32 := by
    have hlt := k.toNat_lt
    rw [Nat.div_lt_iff_lt_mul hpos]
    omega
  have hvalue : (reciprocalValue k).toNat = (2^32+(k.toNat-1))/k.toNat :=
    toNat_ofNat_of_lt' hfit
  have hproduct : a.toNat*((2^32+(k.toNat-1))/k.toNat)/2^32 < 2^32 := by
    have hlt := Nat.mul_lt_mul'' a.toNat_lt hfit
    omega
  rw [if_neg hone,← reciprocal_quotient_iff hpos,← UInt32.toNat_inj,UInt32.toNat_div,
    reciprocalDivide,hvalue,toNat_ofNat_of_lt' hproduct]

def divide (k : UInt32) : SockFilter := ⟨bpfAlu ||| bpfDiv ||| bpfK,0,0,k⟩

/-- A division that the checker accepts computes the quotient for just these accumulators and divisors. -/
theorem checked_division_iff (flen pc : Nat) (host : Host) (skb : SkBuff) (s : State) {k : UInt32} (hk : k ≠ 0) :
    ∃ f, chkInsn flen pc (divide k) = .ok f ∧ BpfS.ofCode f.code = some aluDivK ∧
      (exec host skb aluDivK f s = .ok {s with a := s.a/k}.next ↔ DividesExactly s.a k) := by
  refine ⟨{divide k with code := aluDivK.code, k := reciprocalValue k},if_neg hk,rfl,?_⟩
  rw [← reciprocalDivide_iff hk]
  constructor
  · intro h
    exact congrArg State.a (Except.ok.inj h)
  intro h
  rw [exec,h]

theorem checked_division_six : DividesExactly 100 6 ∧
    ∃ f, chkInsn 2 0 (divide 6) = .ok f ∧ BpfS.ofCode f.code = some aluDivK ∧
      (exec sampleHost samplePacket aluDivK f ⟨0,100,0,fun _ => 0⟩ =
        .ok (State.next ⟨0,100/6,0,fun _ => 0⟩) ↔ DividesExactly 100 6) :=
  ⟨by unfold DividesExactly; decide,
    checked_division_iff 2 0 sampleHost samplePacket ⟨0,100,0,fun _ => 0⟩ (by decide)⟩

/-- Divided by 1, every accumulator becomes 0; and 4000000002 is divided by 7 one too high. -/
theorem division_by_one_clears : reciprocalDivide 5 (reciprocalValue 1) = 0 ∧ (5 : UInt32)/1 = 5 ∧
    reciprocalDivide 4000000002 (reciprocalValue 7) ≠ 4000000002/7 := by
  decide

end LinuxToradex.SocketFilter

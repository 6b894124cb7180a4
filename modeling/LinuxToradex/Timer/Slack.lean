import LinuxToradex.Foundation.Align
import LinuxToradex.Timer.Wheel
import Mathlib

/-! `apply_slack` of `kernel/timer.c` for longs of 32 and of 64 bits. -/
namespace LinuxToradex.Timer.Long
open BitVec

variable {w : Nat} {e l r : BitVec w}

/-- `1 << bit` of an `int`. For 32 bits and more the language leaves it open, and machines differ. -/
def intShift (beyond : Nat → BitVec 32) (bit : Nat) : BitVec 32 := if bit < 32 then 1#32 <<< bit else beyond bit

def roundTo (beyond : Nat → BitVec 32) (expires expiresLimit : BitVec w) : BitVec w :=
  let mask := expires ^^^ expiresLimit
  if mask = 0 then expires
  else
    let mask := (intShift beyond mask.toNat.log2-1).signExtend w
    expiresLimit &&& ~~~mask

/-- `apply_slack` with `BITS_PER_LONG` `w`. -/
def applySlack (beyond : Nat → BitVec 32) (slack : BitVec 32) (jiffies expires : BitVec w) : BitVec w :=
  if 0 ≤ slack.toInt then roundTo beyond expires (expires+slack.signExtend w)
  else
    let delta := (expires-jiffies).toInt
    if delta < 256 then expires
    else roundTo beyond expires (expires+BitVec.ofInt w (delta/256))

def allowedSlack (slack : BitVec 32) (jiffies expires : BitVec w) : Nat :=
  if 0 ≤ slack.toInt then slack.toNat else ((expires-jiffies).toInt/256).toNat

lemma allowedSlack_lt (hw : 32 ≤ w) (slack : BitVec 32) (jiffies expires : BitVec w) :
    allowedSlack slack jiffies expires < 2^w := by
  have hle : 2^32 ≤ 2^w := Nat.pow_le_pow_right (by decide) hw
  have hslack := slack.isLt
  have hdelta : (expires-jiffies).toInt ≤ (expires-jiffies).toNat := by
    rw [toInt_eq_toNat_cond]
    split <;> omega
  have hlt := (expires-jiffies).isLt
  unfold allowedSlack
  split <;> omega

lemma applySlack_eq (beyond : Nat → BitVec 32) (slack : BitVec 32) (jiffies expires : BitVec w) :
    applySlack beyond slack jiffies expires =
      roundTo beyond expires (expires+BitVec.ofNat w (allowedSlack slack jiffies expires)) := by
  unfold applySlack allowedSlack
  by_cases hslack : 0 ≤ slack.toInt
  · have hmsb : slack.msb = false := by rwa [msb_eq_toInt,decide_eq_false_iff_not,not_lt]
    rw [if_pos hslack,if_pos hslack,signExtend_eq_setWidth_of_msb_false hmsb,ofNat_toNat]
  rw [if_neg hslack,if_neg hslack]
  dsimp only
  generalize (expires-jiffies).toInt = delta
  by_cases hdelta : delta < 256
  · have hzero : (delta/256).toNat = 0 := by omega
    rw [if_pos hdelta,hzero]
    simp [roundTo]
  rw [if_neg hdelta,← ofInt_natCast,Int.toNat_of_nonneg (by omega)]

lemma roundTo_uint32 (beyond : Nat → BitVec 32) (expires limit : UInt32) :
    (if expires ^^^ limit = 0 then expires
      else limit &&& ~~~((1 : UInt32) <<< UInt32.ofNat (expires ^^^ limit).toNat.log2-1)) =
      UInt32.ofBitVec (roundTo beyond expires.toBitVec limit.toBitVec) := by
  have hmask : expires.toBitVec ^^^ limit.toBitVec = (expires ^^^ limit).toBitVec := rfl
  unfold roundTo intShift
  dsimp only
  rw [hmask]
  generalize expires ^^^ limit = mask
  have hzero : mask.toBitVec = 0 ↔ mask = 0 := UInt32.toBitVec_inj
  by_cases hne : mask = 0
  · rw [if_pos hne,if_pos (hzero.mpr hne)]
  · have hlog : mask.toBitVec.toNat.log2 < 32 :=
      (Nat.log2_lt fun h => hne (UInt32.toNat_inj.mp h)).mpr mask.toNat_lt
    rw [if_neg hne,if_neg (mt hzero.mp hne),if_pos hlog,signExtend_eq]
    refine UInt32.toBitVec_inj.mp ?_
    rw [UInt32.toBitVec_and,UInt32.toBitVec_not,UInt32.toBitVec_sub,UInt32.toBitVec_shiftLeft]
    have hmod : ((UInt32.ofNat mask.toNat.log2).toBitVec%32).toNat = mask.toBitVec.toNat.log2 := by
      have hsame : mask.toBitVec.toNat = mask.toNat := rfl
      rw [hsame] at hlog ⊢
      simp
      omega
    rw [shiftLeft_eq',hmod]
    rfl

/-- With longs of 32 bits this is the `apply_slack` of the wheel. -/
theorem applySlack_uint32 (beyond : Nat → BitVec 32) (slack : BitVec 32) (jiffies expires : UInt32) :
    Timer.applySlack slack.toInt jiffies expires =
      UInt32.ofBitVec (applySlack beyond slack jiffies.toBitVec expires.toBitVec) := by
  have hdelta := toInt_eq_toNat_cond (expires-jiffies).toBitVec
  have hlt := (expires-jiffies).toNat_lt
  have hsub : expires.toBitVec-jiffies.toBitVec = (expires-jiffies).toBitVec := rfl
  have hnat : (expires-jiffies).toBitVec.toNat = (expires-jiffies).toNat := rfl
  rw [hnat] at hdelta
  unfold Timer.applySlack applySlack
  dsimp only
  rw [hsub]
  by_cases hslack : 0 ≤ slack.toInt
  · rw [if_pos hslack,if_pos hslack,roundTo_uint32 beyond,signExtend_eq]
    have hadd : (expires+UInt32.ofNat slack.toInt.toNat).toBitVec = expires.toBitVec+slack := by
      rw [UInt32.toBitVec_add]
      refine congrArg _ (eq_of_toNat_eq ?_)
      have hcond := toInt_eq_toNat_cond slack
      have hsize := slack.isLt
      rw [UInt32.toBitVec_ofNat',toNat_ofNat]
      split at hcond <;> omega
    rw [hadd]
  · rw [if_neg hslack,if_neg hslack]
    generalize (expires-jiffies).toBitVec.toInt = delta at hdelta ⊢
    generalize (expires-jiffies).toNat = d at hdelta hlt ⊢
    by_cases hshort : d < 256 ∨ 2147483648 ≤ d
    · have hneg : delta < 256 := by
        split at hdelta <;> omega
      rw [if_pos hshort,if_pos hneg]
    · have heq : delta = d := by
        split at hdelta <;> omega
      have hlong : ¬delta < 256 := by omega
      rw [if_neg hshort,if_neg hlong,roundTo_uint32 beyond,heq]
      rfl
/-- Rounding never goes beyond the limit, whatever the shift gives. -/
lemma roundTo_le (beyond : Nat → BitVec 32) : (roundTo beyond e l).toNat ≤ l.toNat := by
  unfold roundTo
  dsimp only
  split
  · next hmask =>
    rw [BitVec.xor_eq_zero_iff.mp hmask]
  rw [toNat_and]
  exact Nat.and_le_left

lemma toNat_and_not_low {m : BitVec w} {b : Nat} (hb : b ≤ w) (hm : m.toNat = 2^b-1) :
    (l &&& ~~~m).toNat = l.toNat/2^b*2^b := by
  rw [← Align.and_high_bits l.isLt hb,toNat_and,toNat_not,hm]
  congr 1
  have hpos := Nat.two_pow_pos b
  omega

lemma toNat_intShift (beyond : Nat → BitVec 32) {b : Nat} (hw : 32 ≤ w) (hb : b < 32) :
    ((intShift beyond b-1).signExtend w).toNat = 2^b-1 := by
  have hvalue : ∀ b < 32, (1#32 <<< b-1).msb = false ∧ (1#32 <<< b-1).toNat = 2^b-1 := by decide +kernel
  obtain ⟨hmsb,hnat⟩ := hvalue b hb
  rw [intShift,if_pos hb,signExtend_eq_setWidth_of_msb_false hmsb,toNat_setWidth_of_le hw,hnat]

lemma xor_lt_iff (x y k : Nat) : x ^^^ y < 2^k ↔ x/2^k = y/2^k := by
  rw [← Nat.div_eq_zero_iff_lt (Nat.two_pow_pos k),Nat.xor_div_two_pow,Nat.xor_eq_zero_iff]

/-- Rounding down at the highest bit in which the two differ stays above the lower one. -/
lemma le_roundTo (hw : 32 ≤ w) (beyond : Nat → BitVec 32) (hlt : e.toNat < l.toNat)
    (hhigh : e.toNat/2^32 = l.toNat/2^32) : e.toNat ≤ (roundTo beyond e l).toNat := by
  have hmask : e ^^^ l ≠ 0 := fun h => by
    rw [BitVec.xor_eq_zero_iff.mp h] at hlt
    exact lt_irrefl _ hlt
  have hne : (e ^^^ l).toNat ≠ 0 := fun h => hmask (eq_of_toNat_eq h)
  have hb : (e ^^^ l).toNat.log2 < 32 := (Nat.log2_lt hne).mpr (by rwa [toNat_xor,xor_lt_iff])
  have hdiff : e.toNat/2^(e ^^^ l).toNat.log2 ≠ l.toNat/2^(e ^^^ l).toNat.log2 := fun h => by
    have hlow := (xor_lt_iff _ _ _).mpr h
    rw [← toNat_xor] at hlow
    exact absurd (Nat.log2_self_le hne) (not_le.mpr hlow)
  unfold roundTo
  dsimp only
  rw [if_neg hmask,toNat_and_not_low (hb.le.trans hw) (toNat_intShift beyond hw hb)]
  have hquot := lt_of_le_of_ne (Nat.div_le_div_right hlt.le) hdiff
  exact ((Nat.div_lt_iff_lt_mul (Nat.two_pow_pos _)).mp hquot).le

/-- On a machine where such a shift gives zero the limit is cleared as a whole. -/
lemma roundTo_zero (hhigh : e.toNat/2^32 ≠ l.toNat/2^32) : roundTo (fun _ => 0) e l = 0#w := by
  have hmask : e ^^^ l ≠ 0 := fun h => hhigh (by rw [BitVec.xor_eq_zero_iff.mp h])
  have hne : (e ^^^ l).toNat ≠ 0 := fun h => hmask (eq_of_toNat_eq h)
  have hb : ¬(e ^^^ l).toNat.log2 < 32 := by rwa [Nat.log2_lt hne,toNat_xor,xor_lt_iff]
  have hones : ∀ n, 0 < n → (allOnes n).signExtend w = allOnes w := by
    intro n hn
    ext i hi
    rw [getElem_signExtend]
    simp [msb_allOnes hn]
  unfold roundTo intShift
  dsimp only
  rw [if_neg hmask,if_neg hb]
  change l &&& ~~~(allOnes 32).signExtend w = 0#w
  rw [hones 32 (by decide)]
  simp

lemma sub_le_slack {s : Nat} (hl : l.toNat = (e.toNat+s)%2^w) (hs : s < 2^w) (hr : r.toNat ≤ l.toNat)
    (he : 2^w ≤ e.toNat+s ∨ e.toNat ≤ r.toNat) : (r-e).toNat ≤ s := by
  have hlt := e.isLt
  by_cases hwrap : 2^w ≤ e.toNat+s
  · rw [Nat.mod_eq_sub_mod hwrap,Nat.mod_eq_of_lt (by omega)] at hl
    rw [toNat_sub,Nat.mod_eq_of_lt (by omega)]
    omega
  have hle := he.resolve_left hwrap
  rw [Nat.mod_eq_of_lt (by omega)] at hl
  rw [toNat_sub_of_le (by rwa [le_def])]
  omega

/-- A timer is moved by at most its slack, in wrap-around order and whatever an out-of-range shift gives, exactly
when the expiry is zero, or adding the slack wraps, or it leaves the bits from 32 on alone. -/
theorem applySlack_within_iff (hw : 32 ≤ w) (slack : BitVec 32) (jiffies expires : BitVec w) :
    (∀ beyond, (applySlack beyond slack jiffies expires-expires).toNat ≤ allowedSlack slack jiffies expires) ↔
      expires = 0#w ∨ 2^w ≤ expires.toNat+allowedSlack slack jiffies expires ∨
        expires.toNat/2^32 = (expires.toNat+allowedSlack slack jiffies expires)/2^32 := by
  have hs := allowedSlack_lt hw slack jiffies expires
  simp only [applySlack_eq]
  generalize allowedSlack slack jiffies expires = s at *
  have he := expires.isLt
  have hlimit : (expires+BitVec.ofNat w s).toNat = (expires.toNat+s)%2^w := by simp
  constructor
  · intro hall
    by_contra hcond
    push Not at hcond
    obtain ⟨hne,hwrap,hhigh⟩ := hcond
    have hpos : expires.toNat ≠ 0 := fun h => hne (eq_of_toNat_eq h)
    have hzero := hall fun _ => 0
    rw [← Nat.mod_eq_of_lt hwrap,← hlimit] at hhigh
    rw [roundTo_zero hhigh,toNat_sub,toNat_ofNat,Nat.zero_mod,Nat.add_zero,Nat.mod_eq_of_lt (by omega)] at hzero
    omega
  intro hcond beyond
  refine sub_le_slack hlimit hs (roundTo_le beyond) ?_
  by_cases hwrap : 2^w ≤ expires.toNat+s
  · exact .inl hwrap
  rw [Nat.mod_eq_of_lt (not_le.mp hwrap)] at hlimit
  rcases hcond with rfl | hwrap' | hhigh
  · exact .inr (Nat.zero_le _)
  · exact .inl hwrap'
  rw [← hlimit] at hhigh
  rcases Nat.eq_zero_or_pos s with rfl | hpos
  · simp [roundTo]
  exact .inr (le_roundTo hw beyond (by omega) hhigh)

theorem applySlack_within_iff_long32 :
    (applySlack (fun _ => 0) 25#32 0#32 4294967280#32-4294967280#32).toNat ≤ 25 :=
  (applySlack_within_iff le_rfl 25#32 0#32 4294967280#32).mpr (by decide) _

/-- An expiry sixteen before the first carry into bit 32, on a machine where the shift gives zero. -/
theorem applySlack_expires_at_zero : applySlack (fun _ => 0) 25#32 0#64 4294967280#64 = 0 ∧
    ¬(applySlack (fun _ => 0) 25#32 0#64 4294967280#64-4294967280#64).toNat ≤
      allowedSlack 25#32 0#64 4294967280#64 := by
  decide +kernel

end LinuxToradex.Timer.Long

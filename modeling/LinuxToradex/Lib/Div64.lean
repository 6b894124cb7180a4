import Mathlib.Data.Nat.Log
import Mathlib.Tactic.Ring

/-! `lib/div64.c` with the `do_div` of `asm-generic/div64.h`. For a divisor of more than 32 bits the quotient of
the operands without their low bits is corrected once, which is not always enough. -/
namespace LinuxToradex.Div64

def doubleLoop (rem : Nat) : Nat → Nat → Nat → Option (Nat × Nat)
  | 0, _, _ => none
  | fuel+1, b, d =>
    if (0 < b ∧ b < 2^63) ∧ b < rem then doubleLoop rem fuel ((b+b)%2^64) ((d+d)%2^64)
    else some (b,d)

def divLoop : Nat → Nat → Nat → Nat → Nat → Option (Nat × Nat)
  | 0, _, _, _, _ => none
  | fuel+1, rem, res, b, d =>
    let (rem,res) := if rem ≥ b then (rem-b,(res+d)%2^64) else (rem,res)
    if d/2 = 0 then some (res,rem) else divLoop fuel rem res (b/2) (d/2)

def div6432 (n base : Nat) : Option (Nat × Nat) :=
  let high := n/2^32
  let (res,rem) :=
    if high ≥ base then (high/base*2^32,n-high/base*base%2^32*2^32) else (0,n)
  (doubleLoop rem 64 base 1).bind fun (b,d) => divLoop 64 rem res b d

def doDiv (n base : Nat) : Option (Nat × Nat) :=
  if n/2^32 = 0 then some (n%2^32/base,n%2^32%base) else div6432 n base

def divU64 (dividend divisor : Nat) : Option Nat := (doDiv dividend (divisor%2^32)).map Prod.fst

def fls (x : Nat) : Nat := if x = 0 then 0 else Nat.log 2 x+1

def shift (divisor : Nat) : Nat := 1+fls (divisor/2^32)

def correct (dividend divisor quot : Nat) : Nat :=
  let quot := if quot ≠ 0 then quot-1 else quot
  if (2^64+dividend-quot*divisor%2^64)%2^64 ≥ divisor then (quot+1)%2^64 else quot

def div64U64 (dividend divisor : Nat) : Option Nat :=
  if divisor/2^32 = 0 then divU64 dividend divisor
  else (divU64 (dividend >>> shift divisor) (divisor >>> shift divisor)).map (correct dividend divisor)

def abs64 (x : BitVec 64) : BitVec 64 := if x.slt 0 then -x else x

def div64S64 (dividend divisor : BitVec 64) : Option (BitVec 64) :=
  (div64U64 (abs64 dividend).toNat (abs64 divisor).toNat).map fun quot =>
    let t := (dividend ^^^ divisor).sshiftRight 63
    (BitVec.ofNat 64 quot ^^^ t)-t

variable {rem res base n x d : Nat}

lemma doubleLoop_spec (hbase : 0 < base) (hrem : rem < 2^64) {fuel j : Nat} (hj : fuel+j = 64)
    (hb : base*2^j < 2^64) : ∃ i < 64, doubleLoop rem fuel (base*2^j) (2^j) = some (base*2^i,2^i) ∧
      rem < 2*(base*2^i) := by
  have hle : 2^j ≤ base*2^j := Nat.le_mul_of_pos_left _ hbase
  induction fuel generalizing j with
  | zero =>
    rw [zero_add] at hj
    subst hj
    omega
  | succ fuel ih =>
    have hpow : 2^(j+1) = 2^j+2^j := by rw [pow_succ,Nat.mul_two]
    rw [doubleLoop]
    split
    · next hgo =>
      have hdouble : base*2^(j+1) = base*2^j+base*2^j := by rw [hpow,mul_add]
      rw [Nat.mod_eq_of_lt (by omega),Nat.mod_eq_of_lt (by omega),← hpow,← hdouble]
      exact ih (by omega) (by omega) (by omega)
    next hstop =>
    have hpos := Nat.two_pow_pos j
    exact ⟨j,by omega,rfl,by omega⟩

lemma sub_mul_div_add {k : Nat} (h : base*k ≤ rem) (hbase : 0 < base) :
    k+(rem-base*k)/base = rem/base ∧ (rem-base*k)%base = rem%base := by
  obtain ⟨r,rfl⟩ := Nat.exists_eq_add_of_le h
  rw [Nat.add_sub_cancel_left,Nat.mul_add_div hbase,Nat.mul_add_mod]
  exact ⟨rfl,rfl⟩

lemma subtract_spec (hbase : 0 < base) {k : Nat} (hrem : rem < 2*(base*k)) (hres : res+rem/base < 2^64) :
    ∃ rem' res', (if rem ≥ base*k then (rem-base*k,(res+k)%2^64) else (rem,res)) = (rem',res') ∧
      rem' < base*k ∧ res'+rem' / base = res+rem/base ∧ rem' % base = rem%base := by
  split
  · next hge =>
    obtain ⟨hdiv,hmod⟩ := sub_mul_div_add hge hbase
    have hk : k ≤ rem/base := Nat.le.intro hdiv
    refine ⟨_,_,rfl,by omega,?_,hmod⟩
    rw [Nat.mod_eq_of_lt (by omega),add_assoc,hdiv]
  · exact ⟨rem,res,rfl,by omega,rfl,rfl⟩

lemma divLoop_spec (hbase : 0 < base) {fuel j : Nat} (hj : j < fuel) (hrem : rem < 2*(base*2^j))
    (hres : res+rem/base < 2^64) : divLoop fuel rem res (base*2^j) (2^j) = some (res+rem/base,rem%base) := by
  induction j generalizing fuel rem res with
  | zero =>
    obtain ⟨fuel,rfl⟩ := Nat.exists_eq_succ_of_ne_zero hj.ne'
    obtain ⟨rem',res',heq,hlt,hdiv,hmod⟩ := subtract_spec hbase hrem hres
    rw [pow_zero,mul_one] at hlt
    rw [divLoop,heq,← hdiv,← hmod,Nat.div_eq_of_lt hlt,Nat.mod_eq_of_lt hlt]
    rfl
  | succ j ih =>
    obtain ⟨fuel,rfl⟩ := Nat.exists_eq_succ_of_ne_zero ((Nat.zero_lt_of_lt hj).ne')
    obtain ⟨rem',res',heq,hlt,hdiv,hmod⟩ := subtract_spec hbase hrem hres
    have hdouble : base*2^(j+1) = base*2^j*2 := by rw [pow_succ,mul_assoc]
    rw [divLoop,heq,hdouble,pow_succ,Nat.mul_div_cancel _ Nat.two_pos,Nat.mul_div_cancel _ Nat.two_pos]
    dsimp only
    rw [if_neg (Nat.two_pow_pos j).ne',ih (by omega) (by omega) (by omega),hdiv,hmod]

lemma div6432_spec (hn : n < 2^64) (hbase : 0 < base) (hlt : base < 2^32) :
    div6432 n base = some (n/base,n%base) := by
  have hreduce : ∃ res rem, (if n/2^32 ≥ base then
      (n/2^32/base*2^32,n-n/2^32/base*base%2^32*2^32) else (0,n)) = (res,rem) ∧
      rem ≤ n ∧ res+rem/base = n/base ∧ rem%base = n%base := by
    split
    · have hle : n/2^32/base*base ≤ n/2^32 := Nat.div_mul_le_self ..
      refine ⟨_,_,rfl,Nat.sub_le _ _,?_⟩
      rw [Nat.mod_eq_of_lt (by omega)]
      have hmul : n/2^32/base*base*2^32 = base*(n/2^32/base*2^32) := by
        rw [mul_comm _ base,mul_assoc]
      rw [hmul]
      exact sub_mul_div_add (by omega) hbase
    · exact ⟨0,n,rfl,le_refl n,zero_add _,rfl⟩
  obtain ⟨res,rem,heq,hle,hdiv,hmod⟩ := hreduce
  have hquot : n/base ≤ n := Nat.div_le_self ..
  obtain ⟨i,hi,hdouble,hrem⟩ := doubleLoop_spec hbase (show rem < 2^64 by omega) (show 64+0 = 64 from rfl) (by omega)
  rw [pow_zero,mul_one] at hdouble
  rw [div6432,heq]
  dsimp only
  rw [hdouble,Option.bind_some,divLoop_spec hbase hi hrem (by omega),hdiv,hmod]

lemma divU64_spec (hn : n < 2^64) (hbase : 0 < base) (hlt : base < 2^32) : divU64 n base = some (n/base) := by
  rw [divU64,doDiv,Nat.mod_eq_of_lt hlt]
  split
  · rw [Nat.mod_eq_of_lt (by omega)]
    rfl
  rw [div6432_spec hn hbase hlt]
  rfl

/-- What the shift cuts off the divisor, once for every unit of the quotient, is less than the two divisors
that the estimate may be off. -/
def Close (x d : Nat) : Prop := d < 2^32 ∨ (x/d+2)*(d%2^shift d)+x%d < 2*d+x%2^shift d

instance : Decidable (Close x d) := inferInstanceAs (Decidable (_ ∨ _))

/-- The shift leaves the divisor 31 bits. -/
theorem shifted_divisor (hhigh : d/2^32 ≠ 0) : 0 < d >>> shift d ∧ d >>> shift d < 2^31 := by
  have hlo := Nat.pow_log_le_self 2 hhigh
  have hhi := Nat.lt_pow_succ_log_self (b := 2) (by omega) (d/2^32)
  rw [shift,fls,if_neg hhigh,Nat.shiftRight_eq_div_pow]
  generalize Nat.log 2 (d/2^32) = k at *
  have hsplit : 2^(1+(k+1))*2^31 = 2^(k+1)*2^32 := by rw [add_comm 1,pow_succ]; ring
  rw [pow_succ] at hhi
  constructor
  · refine Nat.div_pos ?_ (Nat.two_pow_pos _)
    omega
  rw [Nat.div_lt_iff_lt_mul (Nat.two_pow_pos _)]
  omega

lemma le_estimate (x : Nat) (hpos : 0 < d >>> n) : x/d ≤ (x >>> n)/(d >>> n) := by
  rw [Nat.le_div_iff_mul_le hpos,Nat.shiftRight_eq_div_pow,Nat.shiftRight_eq_div_pow,
    Nat.le_div_iff_mul_le (Nat.two_pow_pos n),mul_assoc]
  exact (Nat.mul_le_mul_left _ (Nat.div_mul_le_self ..)).trans (Nat.div_mul_le_self ..)

/-- The estimate is at most one too large: with `x = 2^n * X + x % 2^n` and `d = 2^n * D + d % 2^n` this is
`X < (x / d + 2) * D`. -/
lemma estimate_le_iff (x : Nat) (hpos : 0 < d >>> n) :
    (x >>> n)/(d >>> n) ≤ x/d+1 ↔ (x/d+2)*(d%2^n)+x%d < 2*d+x%2^n := by
  rw [Nat.shiftRight_eq_div_pow] at hpos
  rw [Nat.shiftRight_eq_div_pow,Nat.shiftRight_eq_div_pow,← Nat.lt_add_one_iff,Nat.div_lt_iff_lt_mul hpos,
    ← Nat.mul_lt_mul_left (Nat.two_pow_pos n)]
  have hx := Nat.div_add_mod x (2^n)
  have hd := Nat.div_add_mod d (2^n)
  have hq := Nat.div_add_mod x d
  generalize x/d = q at *
  have hsplit : d*q+2*d = 2^n*((q+1+1)*(d/2^n))+(q+2)*(d%2^n) := by
    nth_rewrite 1 2 [← hd]
    ring
  omega

/-- One correction step repairs an estimate that is at most one too large, and no other. -/
theorem correct_spec {quot : Nat} (hx : x < 2^64) (hd : 0 < d) (hle : x/d ≤ quot) (hlt : quot < 2^64) :
    correct x d quot < 2^64 ∧ (correct x d quot = x/d ↔ quot ≤ x/d+1) := by
  have hdiv := Nat.div_add_mod x d
  have hmod := Nat.mod_lt x hd
  generalize x/d = q at *
  generalize x%d = r at *
  rw [correct]
  obtain _ | m := quot
  · cases Nat.le_zero.mp hle
    have hsmall : (2^64+x-0*d%2^64)%2^64 = r := by omega
    rw [if_neg (not_not.mpr rfl),hsmall,if_neg (by omega)]
    exact ⟨hlt,fun _ => Nat.zero_le _,fun _ => rfl⟩
  rw [if_pos (Nat.succ_ne_zero m),Nat.add_sub_cancel,Nat.mod_eq_of_lt hlt]
  rcases Nat.lt_trichotomy m q with hm | rfl | hm
  · obtain rfl : q = m+1 := by omega
    have hprod : d*(m+1) = m*d+d := by rw [Nat.mul_comm,Nat.succ_mul]
    rw [Nat.mod_eq_of_lt (show m*d < 2^64 by omega),if_pos (by omega)]
    omega
  · rw [Nat.mul_comm m,Nat.mod_eq_of_lt (show d*m < 2^64 by omega),if_neg (by omega)]
    omega
  · split <;> omega

lemma div64U64_spec (hx : x < 2^64) (hd : 0 < d) (hd' : d < 2^64) :
    ∃ q < 2^64, div64U64 x d = some q ∧ (q = x/d ↔ Close x d) := by
  rw [div64U64,Close]
  split
  · next hhigh =>
    have hle := Nat.div_le_self x d
    exact ⟨_,by omega,divU64_spec hx hd (by omega),fun _ => .inl (by omega),fun _ => rfl⟩
  next hhigh =>
  obtain ⟨hpos,hlt⟩ := shifted_divisor hhigh
  have hle : x >>> shift d ≤ x := Nat.shiftRight_le x _
  have hquot : (x >>> shift d)/(d >>> shift d) ≤ x >>> shift d := Nat.div_le_self ..
  rw [divU64_spec (by omega) hpos (by omega)]
  obtain ⟨hres,hiff⟩ := correct_spec hx hd (le_estimate x hpos) (by omega)
  exact ⟨_,hres,rfl,(hiff.trans (estimate_le_iff x hpos)).trans ⟨.inr,fun h => h.resolve_left (by omega)⟩⟩

variable (a b : BitVec 64)

lemma toInt_eq_abs64 : a.toInt = if a.msb = true then -((abs64 a).toNat : Int) else ((abs64 a).toNat : Int) := by
  have hmsb : a.slt 0 = true ↔ a.msb = true := BitVec.slt_zero_iff_msb_cond
  have hbit := BitVec.msb_eq_decide a
  rw [abs64,BitVec.toInt_eq_msb_cond]
  by_cases h : a.msb = true
  · rw [h,eq_comm,decide_eq_true_eq] at hbit
    rw [if_pos h,if_pos h,if_pos (hmsb.mpr h),BitVec.toNat_neg]
    omega
  · rw [if_neg h,if_neg h,if_neg (mt hmsb.mp h)]

lemma sign_spec (q : BitVec 64) :
    (q ^^^ (a ^^^ b).sshiftRight 63)-(a ^^^ b).sshiftRight 63 = if a.msb = b.msb then q else -q := by
  have hsign : (a ^^^ b).sshiftRight 63 = if a.msb = b.msb then 0 else BitVec.allOnes 64 := by
    have hmsb : (a ^^^ b).msb = (a.msb ^^ b.msb) := BitVec.msb_xor
    generalize a ^^^ b = c at hmsb ⊢
    have hlt := c.isLt
    have hbit := BitVec.msb_eq_decide c
    apply BitVec.eq_of_toInt_eq
    rw [BitVec.toInt_sshiftRight,Int.shiftRight_eq_div_pow,BitVec.toInt_eq_msb_cond]
    rw [hmsb] at hbit ⊢
    cases ha : a.msb <;> cases hb : b.msb <;> simp [ha,hb] at hbit ⊢ <;> omega
  rw [hsign]
  split
  · simp
  rw [BitVec.xor_allOnes,BitVec.neg_eq_not_add,BitVec.sub_eq_add_neg]
  rfl

lemma ofInt_tdiv : BitVec.ofInt 64 (a.toInt.tdiv b.toInt) =
    if a.msb = b.msb then BitVec.ofNat 64 ((abs64 a).toNat/(abs64 b).toNat)
    else -BitVec.ofNat 64 ((abs64 a).toNat/(abs64 b).toNat) := by
  rw [toInt_eq_abs64 a,toInt_eq_abs64 b]
  cases a.msb <;> cases b.msb <;>
    simp [Int.neg_tdiv,Int.tdiv_neg,← Int.natCast_ediv,BitVec.ofInt_neg,BitVec.ofInt_natCast]

/-- `div64_u64` is exact, and `div64_s64` truncates toward zero, on just those operands that are close. -/
theorem div64_exact_iff (hx : x < 2^64) (hd : d < 2^64) (hpos : 0 < d) (hb : b ≠ 0)
    (hlo : -2^63 ≤ a.toInt.tdiv b.toInt) (hhi : a.toInt.tdiv b.toInt < 2^63) :
    (div64U64 x d = some (x/d) ↔ Close x d) ∧ ((div64S64 a b).map BitVec.toInt = some (a.toInt.tdiv b.toInt) ↔
        Close (abs64 a).toNat (abs64 b).toNat) := by
  constructor
  · obtain ⟨q,-,hq,hiff⟩ := div64U64_spec hx hpos hd
    rw [hq,Option.some.injEq,hiff]
  have hpos : 0 < (abs64 b).toNat := by
    have hzero := toInt_eq_abs64 b
    refine Nat.pos_of_ne_zero fun h => hb (BitVec.eq_of_toInt_eq ?_)
    rw [hzero,h]
    simp
  obtain ⟨q,hlt,hq,hiff⟩ := div64U64_spec (abs64 a).isLt hpos (abs64 b).isLt
  have hle := Nat.div_le_self (abs64 a).toNat (abs64 b).toNat
  have hfits : ∀ v : BitVec 64, v.toInt = a.toInt.tdiv b.toInt ↔
      v = BitVec.ofInt 64 (a.toInt.tdiv b.toInt) := fun v => by
    rw [← BitVec.toInt_inj,BitVec.toInt_ofInt_eq_self (by decide) hlo hhi]
  rw [div64S64,hq,Option.map_some,Option.map_some,sign_spec,Option.some.injEq,← hiff,hfits,ofInt_tdiv]
  have hinj : BitVec.ofNat 64 q = BitVec.ofNat 64 ((abs64 a).toNat/(abs64 b).toNat) ↔
      q = (abs64 a).toNat/(abs64 b).toNat := by
    rw [← BitVec.toNat_inj,BitVec.toNat_ofNat,BitVec.toNat_ofNat,Nat.mod_eq_of_lt hlt, Nat.mod_eq_of_lt (by omega)]
  split
  · exact hinj
  · rw [BitVec.neg_inj,hinj]

/-- Divisors of more than 32 bits. -/
theorem div64_exact_wide : div64U64 (2^64-1) (2^40+1) = some ((2^64-1)/(2^40+1)) ∧
    (div64S64 (-7000000000001) (5000000001)).map BitVec.toInt = some (-1399) := by
  have hexact := div64_exact_iff (-7000000000001) 5000000001 (show 2^64-1 < 2^64 by omega)
    (show 2^40+1 < 2^64 by omega) (by omega) (by decide) (by decide) (by decide)
  exact ⟨hexact.1.mpr (by decide),hexact.2.mpr (by decide)⟩

theorem div64_inexact : div64U64 (2^64-1) (2^32+3) ≠ some ((2^64-1)/(2^32+3)) := by
  obtain ⟨q,-,hq,hiff⟩ := div64U64_spec (x := 2^64-1) (d := 2^32+3) (by omega) (by omega) (by omega)
  rw [hq,Ne,Option.some.injEq,hiff]
  decide

/-- `lib/reciprocal_div.c` -/
def reciprocalValue (k : Nat) : Nat := (2^32+(k-1))/k%2^32

def reciprocalDivide (a r : Nat) : Nat := (a*r) >>> 32%2^32

/-- `mm/slab.c`, with the fields of the cache and of the slab that are read. -/
def indexToObj (bufferSize sMem idx : Nat) : Nat := sMem+bufferSize*idx%2^32

def objToIndex (reciprocalBufferSize sMem obj : Nat) : Nat :=
  reciprocalDivide ((obj-sMem)%2^32) reciprocalBufferSize

lemma reciprocalValue_bounds {k : Nat} (hk : 2 ≤ k) : ∃ e < k, reciprocalValue k*k = 2^32+e := by
  have hdiv := Nat.div_add_mod (2^32+(k-1)) k
  have hmod := Nat.mod_lt (2^32+(k-1)) (show 0 < k by omega)
  have hlt : (2^32+(k-1))/k < 2^32 := (Nat.div_lt_iff_lt_mul (by omega)).mpr (by omega)
  refine ⟨k-1-(2^32+(k-1))%k,by omega,?_⟩
  rw [reciprocalValue,Nat.mod_eq_of_lt hlt,Nat.mul_comm]
  omega

/-- The rounding error of the reciprocal, times the index, is shifted out. -/
theorem objToIndex_indexToObj {size i : Nat} (sMem : Nat) (hsize : 2 ≤ size) (hi : i*size < 2^32) :
    objToIndex (reciprocalValue size) sMem (indexToObj size sMem i) = i := by
  obtain ⟨e,he,hr⟩ := reciprocalValue_bounds hsize
  have herr : i*e < 2^32 := (Nat.mul_le_mul_left i he.le).trans_lt hi
  have hle : i ≤ i*size := Nat.le_mul_of_pos_right i (by omega)
  have hmul : i*size*reciprocalValue size = i*2^32+i*e := by
    rw [Nat.mul_assoc,Nat.mul_comm size,hr,Nat.mul_add]
  unfold objToIndex indexToObj reciprocalDivide
  rw [Nat.add_sub_cancel_left,Nat.mul_comm size,Nat.mod_mod,Nat.mod_eq_of_lt hi,hmul,Nat.shiftRight_eq_div_pow]
  omega

theorem objToIndex_indexToObj_small : objToIndex (reciprocalValue 192) 4096 (indexToObj 192 4096 20) = 20 :=
  objToIndex_indexToObj 4096 (by decide) (by decide)

end LinuxToradex.Div64

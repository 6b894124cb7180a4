import Mathlib

/-! A row of bits as a function on positions: how many of the first ones are set, and the first that is
clear. -/
namespace BitRow

variable {f g : Nat → Bool} {n m i j : Nat}

def tally (f : Nat → Bool) : Nat → Nat
  | 0 => 0
  | n+1 => tally f n+if f n then 1 else 0

lemma tally_congr (h : ∀ i < n, f i = g i) : tally f n = tally g n := by
  induction n with
  | zero => rfl
  | succ n ih =>
    rw [tally,tally,ih fun i hi => h i (by omega),h n (by omega)]

lemma tally_add (hm : m < n) (hf : f m = false) (hg : g m = true)
    (h : ∀ i < n, i ≠ m → g i = f i) : tally g n = tally f n+1 := by
  induction n with
  | zero => omega
  | succ n ih =>
    rw [tally,tally]
    by_cases hmn : m = n
    · subst hmn
      rw [hf,hg,tally_congr fun i hi => h i (by omega) (by omega)]
      rfl
    rw [ih (by omega) fun i hi => h i (by omega),h n (by omega) (by omega)]
    omega

lemma tally_le (f : Nat → Bool) (n : Nat) : tally f n ≤ n := by
  induction n with
  | zero => exact le_rfl
  | succ n ih =>
    rw [tally]
    split <;> omega

lemma tally_eq_zero : tally f n = 0 ↔ ∀ i < n, f i = false := by
  induction n with
  | zero => simp [tally]
  | succ n ih =>
    rw [tally,Nat.add_eq_zero_iff,ih]
    constructor
    · rintro ⟨hlow,hlast⟩ i hi
      by_cases hin : i = n
      · subst hin
        cases hfi : f i with
        | false => rfl
        | true => simp [hfi] at hlast
      · exact hlow i (by omega)
    intro h
    refine ⟨fun i hi => h i (by omega),?_⟩
    rw [h n (by omega)]
    rfl

lemma eq_of_tally_eq_one (h : tally f n = 1) (hi : i < n) (hj : j < n) (hfi : f i = true)
    (hfj : f j = true) : i = j := by
  by_contra hij
  have hone := tally_add (f := Function.update f i false) hi (by simp) hfi fun k _ hk => by simp [hk]
  have hzero : tally (Function.update f i false) n = 0 := by omega
  have hclear := tally_eq_zero.mp hzero j hj
  rw [Function.update_of_ne (Ne.symm hij),hfj] at hclear
  cases hclear

def firstClear (f : Nat → Bool) : Nat → Nat → Nat
  | 0, n => n
  | k+1, n => if f n then firstClear f k (n+1) else n

lemma firstClear_spec (f : Nat → Bool) (k n : Nat) :
    n ≤ firstClear f k n ∧ firstClear f k n ≤ n+k ∧ (∀ i, n ≤ i → i < firstClear f k n → f i = true) ∧
      (firstClear f k n < n+k → f (firstClear f k n) = false) := by
  induction k generalizing n with
  | zero => exact ⟨le_rfl,le_rfl,fun i hi hlt => by simp [firstClear] at hlt; omega,
      fun h => by simp [firstClear] at h⟩
  | succ k ih =>
    rw [firstClear]
    split
    · rename_i hfn
      obtain ⟨hge,hle,hset,hclear⟩ := ih (n+1)
      refine ⟨by omega,by omega,?_,fun h => hclear (by omega)⟩
      intro i hi hlt
      by_cases hin : i = n
      · rw [hin,hfn]
      · exact hset i (by omega) hlt
    rename_i hfn
    exact ⟨le_rfl,by omega,fun i hi hlt => by omega,fun _ => by simpa using hfn⟩

end BitRow

namespace Words

variable {w : Nat} {maps maps' : Nat → BitVec w} {i j n : Nat}

def bit (maps : Nat → BitVec w) (j : Nat) : Bool := (maps (j/w)).getLsbD (j%w)

lemma bit_zero : bit (fun _ => (0 : BitVec w)) = fun _ => false := by
  funext j
  simp [bit]

lemma bit_unit (maps : Nat → BitVec w) {k r : Nat} (hr : r < w) : bit maps (k*w+r) = (maps k).getLsbD r := by
  rw [bit,Nat.mul_comm,Nat.mul_add_div (by omega),Nat.div_eq_of_lt hr,Nat.add_zero,Nat.mul_add_mod,
    Nat.mod_eq_of_lt hr]

lemma eq_iff : (∀ k < n, maps k = maps' k) ↔ ∀ j < n*w, bit maps j = bit maps' j := by
  constructor
  · intro h j hj
    rw [bit,bit,h _ (Nat.div_lt_of_lt_mul (by rwa [Nat.mul_comm]))]
  intro h k hk
  apply BitVec.eq_of_getLsbD_eq
  intro r hr
  rw [← bit_unit maps hr,← bit_unit maps' hr]
  apply h
  calc k*w+r < k*w+w := by omega
    _ = (k+1)*w := by rw [Nat.succ_mul]
    _ ≤ n*w := Nat.mul_le_mul_right w hk

lemma subset_iff : (∀ k < n, maps k &&& maps' k = maps' k) ↔ ∀ j < n*w, bit maps' j = true → bit maps j = true := by
  have hiff : (∀ k < n, (fun k => maps k &&& maps' k) k = maps' k) ↔ _ := eq_iff
  rw [hiff]
  refine forall₂_congr fun j _ => ?_
  rw [bit,BitVec.getLsbD_and]
  show (bit maps j && bit maps' j) = bit maps' j ↔ _
  cases bit maps j <;> cases bit maps' j <;> decide

lemma getLsbD_twoPow (i : Nat) {r : Nat} (hr : r < w) : (BitVec.twoPow w i).getLsbD r = decide (i = r) := by
  rw [BitVec.getLsbD_twoPow]
  by_cases h : i = r
  · simp [h,hr]
  · simp [h]

lemma bit_update (maps : Nat → BitVec w) (k : Nat) (v : BitVec w) (j : Nat) :
    bit (Function.update maps k v) j = if j/w = k then v.getLsbD (j%w) else bit maps j := by
  rw [bit,Function.update_apply]
  split <;> rfl

lemma same_bit_iff (h : j/w = i/w) : i%w = j%w ↔ j = i := by
  constructor
  · intro hmod
    rw [← Nat.div_add_mod j w,h,← hmod,Nat.div_add_mod]
  intro heq
  rw [heq]

lemma bit_set (hw : 0 < w) (maps : Nat → BitVec w) (i j : Nat) :
    bit (Function.update maps (i/w) (maps (i/w) ||| BitVec.twoPow w (i%w))) j =
      (bit maps j || decide (j = i)) := by
  rw [bit_update]
  split
  · rename_i hdiv
    rw [BitVec.getLsbD_or,getLsbD_twoPow _ (Nat.mod_lt j hw),← hdiv]
    exact congrArg _ (decide_eq_decide.mpr (same_bit_iff hdiv))
  rename_i hdiv
  have hne : j ≠ i := fun heq => hdiv (by rw [heq])
  simp [hne]

lemma bit_clear (hw : 0 < w) (maps : Nat → BitVec w) (i j : Nat) :
    bit (Function.update maps (i/w) (maps (i/w) &&& ~~~(BitVec.twoPow w (i%w)))) j =
      (bit maps j && !decide (j = i)) := by
  have hj := Nat.mod_lt j hw
  rw [bit_update]
  split
  · rename_i hdiv
    rw [BitVec.getLsbD_and,BitVec.getLsbD_not,getLsbD_twoPow _ hj,← hdiv,decide_eq_true hj,Bool.true_and]
    exact congrArg (fun d => bit maps j && !d) (decide_eq_decide.mpr (same_bit_iff hdiv))
  rename_i hdiv
  have hne : j ≠ i := fun heq => hdiv (by rw [heq])
  simp [hne]

end Words

namespace Bitmap
open Function

def test (bmp : Nat → BitVec 32) (i : Nat) : Bool := bmp (i >>> 5) &&& (1#32 <<< (i &&& 31)) != 0#32

def set (bmp : Nat → BitVec 32) (i : Nat) : Nat → BitVec 32 :=
  Function.update bmp (i >>> 5) (bmp (i >>> 5) ||| (1#32 <<< (i &&& 31)))

def clear (bmp : Nat → BitVec 32) (i : Nat) : Nat → BitVec 32 :=
  Function.update bmp (i >>> 5) (bmp (i >>> 5) &&& ~~~(1#32 <<< (i &&& 31)))

variable {bmp : Nat → BitVec 32} {i j : Nat}

lemma and_31 (i : Nat) : i &&& 31 = i%32 := Nat.and_two_pow_sub_one_eq_mod i 5

lemma shift_5 (i : Nat) : i >>> 5 = i/32 := Nat.shiftRight_eq_div_pow i 5

lemma test_eq (bmp : Nat → BitVec 32) (i : Nat) : test bmp i = (bmp (i/32)).getLsbD (i%32) := by
  have hlt : i%32 < 32 := Nat.mod_lt i (by decide)
  unfold test
  rw [and_31,shift_5]
  generalize bmp (i/32) = w
  cases hbit : w.getLsbD (i%32) with
  | true =>
    rw [bne_iff_ne]
    intro hzero
    have hget := congrArg (fun v : BitVec 32 => v.getLsbD (i%32)) hzero
    simp [hlt] at hget
    exact absurd (hget.symm.trans hbit) (by decide)
  | false =>
    rw [bne_eq_false_iff_eq]
    ext k hk
    by_cases hki : k = i%32
    · subst hki
      simp [← BitVec.getLsbD_eq_getElem,hbit]
    simp [← BitVec.getLsbD_eq_getElem]
    intro _ hle
    omega

lemma test_set (bmp : Nat → BitVec 32) (i j : Nat) : test (set bmp i) j = (decide (j = i) || test bmp j) := by
  rw [test_eq,test_eq,set,and_31,shift_5,← BitVec.twoPow_eq,Bool.or_comm]
  exact Words.bit_set (by decide) bmp i j

lemma test_clear (bmp : Nat → BitVec 32) (i j : Nat) : test (clear bmp i) j = (!decide (j = i) && test bmp j) := by
  rw [test_eq,test_eq,clear,and_31,shift_5,← BitVec.twoPow_eq,Bool.and_comm]
  exact Words.bit_clear (by decide) bmp i j

lemma test_zero (h : bmp (i/32) = 0#32) : test bmp i = false := by
  rw [test_eq,h,BitVec.getLsbD_zero]

end Bitmap

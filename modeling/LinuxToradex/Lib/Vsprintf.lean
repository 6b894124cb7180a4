import Mathlib.Data.Nat.Digits.Defs
import Mathlib.Tactic.NormNum

/-! `lib/vsprintf.c`: a number is written in decimal, the least significant digit first, with multiplications and
shifts for the divisions by ten. A buffer is what has been written to it, up to the position that is returned;
below 100000 no step leaves 32 bits. -/
namespace LinuxToradex.Vsprintf
open Nat

def putDecTrunc (buf : List Nat) (q : Nat) : List Nat :=
  let d1 := q >>> 4 &&& 0xf
  let d2 := q >>> 8 &&& 0xf
  let d3 := q >>> 12
  let d0 := 6*(d3+d2+d1)+(q &&& 0xf)
  let q := (d0*0xcd) >>> 11
  let d0 := d0-10*q
  let buf := buf++[d0+48]
  let d1 := q+9*d3+5*d2+d1
  if d1 ≠ 0 then
    let q := (d1*0xcd) >>> 11
    let d1 := d1-10*q
    let buf := buf++[d1+48]
    let d2 := q+2*d2
    if d2 ≠ 0 ∨ d3 ≠ 0 then
      let q := (d2*0xd) >>> 7
      let d2 := d2-10*q
      let buf := buf++[d2+48]
      let d3 := q+4*d3
      if d3 ≠ 0 then
        let q := (d3*0xcd) >>> 11
        let d3 := d3-10*q
        let buf := buf++[d3+48]
        if q ≠ 0 then buf++[q+48] else buf
      else buf
    else buf
  else buf

def putDecFull (buf : List Nat) (q : Nat) : List Nat :=
  let d1 := q >>> 4 &&& 0xf
  let d2 := q >>> 8 &&& 0xf
  let d3 := q >>> 12
  let d0 := 6*(d3+d2+d1)+(q &&& 0xf)
  let q := (d0*0xcd) >>> 11
  let d0 := d0-10*q
  let buf := buf++[d0+48]
  let d1 := q+9*d3+5*d2+d1
  let q := (d1*0xcd) >>> 11
  let d1 := d1-10*q
  let buf := buf++[d1+48]
  let d2 := q+2*d2
  let q := (d2*0xd) >>> 7
  let d2 := d2-10*q
  let buf := buf++[d2+48]
  let d3 := q+4*d3
  let q := (d3*0xcd) >>> 11
  let d3 := d3-10*q
  let buf := buf++[d3+48]
  buf++[q+48]

def putDec (buf : List Nat) (num : Nat) : List Nat :=
  if num < 100000 then putDecTrunc buf num else putDec (putDecFull buf (num%100000)) (num/100000)

def decimal (n : Nat) : List Nat := if n = 0 then [0] else digits 10 n

def text (n : Nat) : List Nat := (decimal n).map (·+48)

lemma text_eq (n : Nat) : text n = (n%10+48)::if n/10 = 0 then [] else text (n/10) := by
  unfold text decimal
  rcases eq_or_ne n 0 with rfl | hn
  · rfl
  rw [if_neg hn,digits_def' (by decide) (by omega)]
  split_ifs with h
  · rw [h]
    rfl
  · rfl

lemma tenth {x : Nat} (h : x < 340) : (x*0xcd) >>> 11 = x/10 := by
  rw [shiftRight_eq_div_pow]
  omega

lemma tenth_short {x : Nat} (h : x < 65) : (x*0xd) >>> 7 = x/10 := by
  rw [shiftRight_eq_div_pow]
  omega

/-- The sums that are divided by ten have the digits of the number, and are zero when no digit is left. -/
lemma sums {q d1 d2 d3 r : Nat} (hq : q < 100000) (h1 : q >>> 4 &&& 0xf = d1) (h2 : q >>> 8 &&& 0xf = d2)
    (h3 : q >>> 12 = d3) (hr : q &&& 0xf = r) : ∃ s0 s1 s2, s0 = 6*(d3+d2+d1)+r ∧ s1 = s0/10+9*d3+5*d2+d1 ∧
      s2 = s1/10+2*d2 ∧ q/10/10/10 = s2/10+4*d3 ∧ s0 < 340 ∧ s1 < 340 ∧ s2 < 65 ∧ s0-10*(s0/10) = q%10 ∧
        s1-10*(s1/10) = q/10%10 ∧ s2-10*(s2/10) = q/10/10%10 ∧ (s1 ≠ 0 ↔ q/10 ≠ 0) ∧
          (s2 ≠ 0 ∨ d3 ≠ 0 ↔ q/10/10 ≠ 0) := by
  have hlow (x : Nat) : x &&& 0xf = x%16 := and_two_pow_sub_one_eq_mod x 4
  rw [shiftRight_eq_div_pow,hlow] at h1 h2
  rw [shiftRight_eq_div_pow] at h3
  rw [hlow] at hr
  have heq : q = 4096*d3+256*d2+16*d1+r ∧ d1 < 16 ∧ d2 < 16 ∧ r < 16 := by omega
  clear h1 h2 h3 hr
  refine ⟨_,_,_,rfl,rfl,rfl,?_⟩
  generalize hs : 6*(d3+d2+d1)+r = s
  have hten : q/10 = s/10+9*d3+5*d2+d1+20*d2+400*d3 := by omega
  have hhundred : q/10/10 = (s/10+9*d3+5*d2+d1)/10+2*d2+40*d3 := by omega
  refine ⟨?_,?_,?_,?_,?_,?_,?_,?_,?_⟩ <;> omega

lemma putDecFull_eq (buf : List Nat) {q : Nat} (hq : q < 100000) :
    putDecFull buf q = buf++(List.range 5).map fun i => q/10^i%10+48 := by
  have hdiv : q/100 = q/10/10 ∧ q/1000 = q/10/10/10 ∧ q/10000 = q/10/10/10/10 := by omega
  have hlast : q/10/10/10/10%10 = q/10/10/10/10 := by omega
  obtain ⟨s0,s1,s2,h0,h1,h2,h3,hl0,hl1,hl2,hd0,hd1,hd2,-,-⟩ := sums hq rfl rfl rfl rfl
  unfold putDecFull
  dsimp only
  rw [← h0,tenth hl0,← h1,tenth hl1,← h2,tenth_short hl2,← h3,tenth (by omega),hd0,hd1,hd2]
  have hd3 : q/10/10/10-10*(q/10/10/10/10) = q/10/10/10%10 := by omega
  simp [List.range_succ,hdiv,hlast,hd3]

lemma putDecTrunc_eq (buf : List Nat) {q : Nat} (hq : q < 100000) : putDecTrunc buf q = buf++text q := by
  obtain ⟨s0,s1,s2,h0,h1,h2,h3,hl0,hl1,hl2,hd0,hd1,hd2,hz1,hz2⟩ := sums hq rfl rfl rfl rfl
  unfold putDecTrunc
  dsimp only
  rw [← h0,tenth hl0,← h1,tenth hl1,← h2,tenth_short hl2,← h3,tenth (by omega),hd0,hd1,hd2]
  rw [text_eq q,text_eq (q/10),text_eq (q/10/10),text_eq (q/10/10/10),text_eq (q/10/10/10/10)]
  simp only [hz1,hz2,ne_eq,ite_not]
  have hd3 : q/10/10/10-10*(q/10/10/10/10) = q/10/10/10%10 := by omega
  have hd4 : q/10/10/10/10%10 = q/10/10/10/10 := by omega
  rw [hd3,hd4,if_pos (show q/10/10/10/10/10 = 0 by omega)]
  split_ifs <;> simp

/-- Five digits of a longer number are written in front of the others. -/
lemma text_append {n : Nat} (hn : 100000 ≤ n) :
    text n = (List.range 5).map (fun i => n%100000/10^i%10+48)++text (n/100000) := by
  rw [text_eq n,if_neg (by omega),text_eq (n/10),if_neg (by omega),text_eq (n/10/10),if_neg (by omega),
    text_eq (n/10/10/10),if_neg (by omega),text_eq (n/10/10/10/10),if_neg (by omega)]
  simp [List.range_succ,Nat.div_div_eq_div_mul]
  omega

/-- The decimal digits of every number are written, five with their zeros and five without. -/
theorem putDec_digits (buf : List Nat) : (∀ num, putDec buf num = buf++text num) ∧ ∀ q < 100000,
    (putDecFull buf q = buf++(List.range 5).map fun i => q/10^i%10+48) ∧ putDecTrunc buf q = buf++text q := by
  refine ⟨fun num => ?_,fun q hq => ⟨putDecFull_eq buf hq,putDecTrunc_eq buf hq⟩⟩
  induction num using Nat.strongRec generalizing buf with
  | ind num ih =>
    rw [putDec]
    split_ifs with hlt
    · exact putDecTrunc_eq buf hlt
    rw [ih _ (by omega),putDecFull_eq buf (mod_lt _ (by decide)),text_append (not_lt.mp hlt),List.append_assoc]

theorem putDec_digits_short : putDec [] 100042 = [50,52,48,48,48,49] ∧ putDecFull [] 42 = [50,52,48,48,48] ∧
    putDecTrunc [] 42 = [50,52] := by
  obtain ⟨hnum,hq⟩ := putDec_digits []
  rw [hnum,(hq 42 (by decide)).1,(hq 42 (by decide)).2]
  simp [text,decimal,List.range_succ]

end LinuxToradex.Vsprintf

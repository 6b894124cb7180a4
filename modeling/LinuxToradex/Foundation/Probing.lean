import Mathlib.Data.ZMod.Basic

/-! A search walks from slot to slot until it meets the one it looks for, a free one, or the one it started
from. -/
namespace Probing
open Function Nat

section Walk

variable {ι : Type*} [DecidableEq ι]

inductive Found (ι : Type*) where
  | hit (i : ι)
  | free (i : ι)
  deriving DecidableEq

def walk (next : ι → ι) (start : ι) (hit free : ι → Bool) : Nat → ι → Option (Found ι)
  | 0, _ => none
  | n+1, i =>
    if next i = start then some (.free (next i))
    else if hit (next i) then some (.hit (next i))
    else if free (next i) then some (.free (next i))
    else walk next start hit free n (next i)

def search (next : ι → ι) (start : ι) (hit free : ι → Bool) (n : Nat) : Option (Found ι) :=
  if free start then some (.free start)
  else if hit start then some (.hit start)
  else walk next start hit free n start

variable {next : ι → ι} {start : ι} {hit free : ι → Bool} {n : Nat}

inductive Ends (slot : Nat → ι) (hit free : ι → Bool) (n : Nat) : Found ι → Prop
  | hit (m : Nat) (hm : m < n) (h : hit (slot m) = true)
      (before : ∀ l < m, hit (slot l) = false ∧ free (slot l) = false) :
      Ends slot hit free n (.hit (slot m))
  | free (m : Nat) (hm : m < n) (h : free (slot m) = true)
      (before : ∀ l < m, hit (slot l) = false ∧ free (slot l) = false) :
      Ends slot hit free n (.free (slot m))
  | round (all : ∀ l < n, hit (slot l) = false ∧ free (slot l) = false) :
      Ends slot hit free n (.free (slot 0))

lemma walk_ends (hback : next^[n] start = start)
    (hfirst : ∀ m, 0 < m → m < n → next^[m] start ≠ start) : ∀ k m, m+k = n → 0 < k →
      (∀ l ≤ m, hit (next^[l] start) = false ∧ free (next^[l] start) = false) →
      ∃ r, walk next start hit free k (next^[m] start) = some r ∧ Ends (fun l => next^[l] start) hit free n r := by
  intro k
  induction k with
  | zero => exact fun m _ hk => absurd hk (lt_irrefl 0)
  | succ k ih =>
    intro m hm _ hbefore
    have hnext : next (next^[m] start) = next^[m+1] start :=
      (iterate_succ_apply' next m start).symm
    have hbefore' : ∀ l < m+1, hit (next^[l] start) = false ∧ free (next^[l] start) = false :=
      fun l hl => hbefore l (le_of_lt_succ hl)
    rw [walk,hnext]
    by_cases hlast : m+1 = n
    · rw [hlast,hback,if_pos rfl]
      exact ⟨_,rfl,.round fun l hl => hbefore' l (hlast ▸ hl)⟩
    rw [if_neg (hfirst (m+1) (succ_pos m) (by omega))]
    cases hh : hit (next^[m+1] start) with
    | true => exact ⟨_,rfl,.hit (m+1) (by omega) hh hbefore'⟩
    | false =>
      cases hf : free (next^[m+1] start) with
      | true => exact ⟨_,rfl,.free (m+1) (by omega) hf hbefore'⟩
      | false =>
        apply ih (m+1) (by omega) (by omega)
        intro l hl
        rcases lt_or_eq_of_le hl with hl | rfl
        · exact hbefore' l hl
        · exact ⟨hh,hf⟩

lemma search_ends (hn : 0 < n) (hback : next^[n] start = start)
    (hfirst : ∀ m, 0 < m → m < n → next^[m] start ≠ start) :
    ∃ r, search next start hit free n = some r ∧ Ends (fun l => next^[l] start) hit free n r := by
  unfold search
  cases hf : free start with
  | true => exact ⟨_,rfl,.free 0 hn hf fun l hl => absurd hl (Nat.not_lt_zero l)⟩
  | false =>
    cases hh : hit start with
    | true => exact ⟨_,rfl,.hit 0 hn hh fun l hl => absurd hl (Nat.not_lt_zero l)⟩
    | false =>
      apply walk_ends hback hfirst n 0 (zero_add n) hn
      intro l hl
      obtain rfl := le_zero.mp hl
      exact ⟨hh,hf⟩

end Walk

/-- A step back by `d`, on the slots `1 … n`. -/
def back (n d i : Nat) : Nat := if i ≤ d then n+i-d else i-d

variable {n d i j : Nat}

lemma back_iterate_range (hd : 0 < d) (hdn : d < n) (hi : 0 < i) (hin : i ≤ n) (m : Nat) :
    0 < (back n d)^[m] i ∧ (back n d)^[m] i ≤ n := by
  induction m with
  | zero => exact ⟨hi,hin⟩
  | succ m ih =>
    rw [iterate_succ_apply']
    unfold back at ih ⊢
    split <;> omega

lemma back_cast (hdn : d < n) : (back n d i : ZMod n) = i-d := by
  unfold back
  split
  · rw [cast_sub (by omega),cast_add,ZMod.natCast_self,zero_add]
  · rw [cast_sub (by omega)]

lemma back_iterate_cast (hdn : d < n) (m : Nat) : ((back n d)^[m] i : ZMod n) = i-m*d := by
  induction m with
  | zero => simp
  | succ m ih =>
    rw [iterate_succ_apply',back_cast hdn,ih,cast_succ,add_mul,one_mul,sub_sub]

lemma eq_of_cast_eq (hi : 0 < i ∧ i ≤ n) (hj : 0 < j ∧ j ≤ n) (h : (i : ZMod n) = j) : i = j := by
  have hmod : i%n = j%n := (ZMod.natCast_eq_natCast_iff i j n).mp h
  rcases lt_or_eq_of_le hi.2 with hin | rfl
  · rw [mod_eq_of_lt hin] at hmod
    rcases lt_or_eq_of_le hj.2 with hjn | rfl
    · rwa [mod_eq_of_lt hjn] at hmod
    rw [mod_self] at hmod
    omega
  rw [mod_self] at hmod
  exact (le_of_dvd hj.1 (dvd_of_mod_eq_zero hmod.symm)).antisymm hj.2

lemma back_iterate_self (hd : 0 < d) (hdn : d < n) (hi : 0 < i) (hin : i ≤ n) : (back n d)^[n] i = i := by
  apply eq_of_cast_eq (back_iterate_range hd hdn hi hin n) ⟨hi,hin⟩
  rw [back_iterate_cast hdn]
  simp

lemma back_iterate_ne (hdn : d < n) (hcop : d.Coprime n) {m : Nat} (hm : 0 < m) (hmn : m < n) :
    (back n d)^[m] i ≠ i := by
  intro heq
  have hcast := back_iterate_cast (i := i) hdn m
  rw [heq] at hcast
  have hzero : ((m*d : Nat) : ZMod n) = 0 := by
    push_cast
    exact sub_eq_self.mp hcast.symm
  have hdvd : n ∣ m := hcop.symm.dvd_of_dvd_mul_right ((ZMod.natCast_eq_zero_iff _ _).mp hzero)
  exact absurd (le_of_dvd hm hdvd) (not_le.mpr hmn)

lemma exists_back_iterate (hd : 0 < d) (hdn : d < n) (hcop : d.Coprime n) (hi : 0 < i)
    (hin : i ≤ n) (hj : 0 < j) (hjn : j ≤ n) : ∃ m < n, (back n d)^[m] i = j := by
  have hn : NeZero n := ⟨(hj.trans_le hjn).ne'⟩
  -- the number of steps solves a linear congruence
  refine ⟨(((i : ZMod n)-j)*(d : ZMod n)⁻¹).val,ZMod.val_lt _,?_⟩
  apply eq_of_cast_eq (back_iterate_range hd hdn hi hin _) ⟨hj,hjn⟩
  rw [back_iterate_cast hdn,ZMod.natCast_val,ZMod.cast_id,mul_assoc,
    mul_comm _ (d : ZMod n),ZMod.coe_mul_inv_eq_one d hcop,mul_one,sub_sub_cancel]

end Probing

import Mathlib.Algebra.Order.Group.Nat
import LinuxToradex.Foundation.Bitmap

/-! Trees of levels over numbers in base `b`. -/
namespace LevelTree
open Option Function

open BitRow

section Names

variable {b i l : Nat}

def cover (b l i : Nat) : Nat × Nat := (l,i/b^(l+1))

lemma div_pow_succ (b i l : Nat) : i/b^(l+1) = i/b^l/b := by
  rw [pow_succ,Nat.div_div_eq_div_mul]

lemma slot_over (b i l : Nat) : b*(i/b^(l+1))+i/b^l%b = i/b^l := by
  rw [div_pow_succ,Nat.div_add_mod]

lemma slot_div {q m : Nat} (hm : m < b) : (b*q+m)/b = q := by
  rw [Nat.mul_add_div (by omega),Nat.div_eq_of_lt hm,add_zero]

lemma slot_mod {q m : Nat} (hm : m < b) : (b*q+m)%b = m := by
  rw [Nat.mul_add_mod,Nat.mod_eq_of_lt hm]

lemma slot_inj {q q' m m' : Nat} (hm : m < b) (hm' : m' < b) : b*q+m = b*q'+m' ↔ q = q' ∧ m = m' := by
  constructor
  · intro h
    refine ⟨?_,?_⟩
    · rw [← slot_div hm (q := q),h,slot_div hm']
    · rw [← slot_mod hm (q := q),h,slot_mod hm']
  rintro ⟨rfl,rfl⟩
  rfl

end Names

section Shapes

variable {ν : Type*} {b h l q m : Nat} {t t' : Nat × Nat → Option ν} {c : ν}

lemma isSome_update {x y : Nat × Nat} {v : Option ν} :
    (update t x v y).isSome = if y = x then v.isSome else (t y).isSome := by
  rw [update_apply]
  split <;> rfl

/-- The nodes of a tree of `h` levels: all below one top, and none without the node above it. -/
structure Shape (b : Nat) (t : Nat × Nat → Option ν) (h : Nat) : Prop where
  bound : ∀ l q, (t (l,q)).isSome → l < h ∧ q < b^(h-1-l)
  parent : ∀ l q, (t (l,q)).isSome → l+1 < h → (t (l+1,q/b)).isSome

namespace Shape

section
variable (hs : Shape b t h)
include hs

lemma congr (heq : ∀ x, (t' x).isSome = (t x).isSome) : Shape b t' h where
  bound l q hx := hs.bound l q (heq _ ▸ hx)
  parent l q hx hl := by
    rw [heq]
    exact hs.parent l q (heq _ ▸ hx) hl

lemma path (hx : (t (l,q)).isSome) (k : Nat) (hk : l+k < h) : (t (l+k,q/b^k)).isSome := by
  induction k with
  | zero => simpa using hx
  | succ k ih =>
    rw [div_pow_succ]
    exact hs.parent _ _ (ih (by omega)) hk

lemma isSome_over {i k : Nat} (hx : (t (cover b l i)).isSome) (hlk : l ≤ k) (hk : k < h) :
    (t (cover b k i)).isSome := by
  obtain ⟨d,rfl⟩ := Nat.exists_eq_add_of_le hlk
  have hpath := hs.path hx d hk
  rw [Nat.div_div_eq_div_mul,← pow_add] at hpath
  rw [cover,show l+d+1 = l+1+d by omega]
  exact hpath

lemma eq_top (hx : (t (h-1,q)).isSome) : q = 0 := by
  have := (hs.bound _ _ hx).2
  rw [Nat.sub_self,pow_zero] at this
  omega

lemma empty_of_top (htop : t (h-1,0) = none) (x : Nat × Nat) : t x = none := by
  obtain ⟨l,q⟩ := x
  by_contra hne
  have hx : (t (l,q)).isSome := isSome_iff_ne_none.mpr hne
  obtain ⟨hl,hq⟩ := hs.bound l q hx
  have hup := hs.path hx (h-1-l) (by omega)
  rw [Nat.div_eq_of_lt hq,show l+(h-1-l) = h-1 by omega,htop] at hup
  cases hup

lemma insert (hx : (t (l+1,q)).isSome) (hm : m < b) : Shape b (update t (l,b*q+m) (some c)) h where
  bound l' q' hy := by
    rw [isSome_update] at hy
    split at hy
    · rename_i heq
      cases heq
      obtain ⟨hl,hq⟩ := hs.bound _ _ hx
      refine ⟨by omega,?_⟩
      have hmul : b*(q+1) ≤ b*b^(h-1-(l+1)) := Nat.mul_le_mul_left _ hq
      rw [← pow_succ',show h-1-(l+1)+1 = h-1-l by omega,Nat.mul_add] at hmul
      omega
    · exact hs.bound l' q' hy
  parent l' q' hy hl := by
    rw [isSome_update] at hy ⊢
    split at hy
    · rename_i heq
      cases heq
      rw [slot_div hm,hx,if_neg (by simp)]
    rename_i hne
    split
    · rfl
    · exact hs.parent l' q' hy hl

lemma erase (hkids : ∀ l', l'+1 = l → ∀ m < b, t (l',b*q+m) = none) : Shape b (update t (l,q) none) h where
  bound l' q' hy := by
    rw [isSome_update] at hy
    split at hy
    · cases hy
    · exact hs.bound l' q' hy
  parent l' q' hy hl := by
    rw [isSome_update] at hy ⊢
    split at hy
    · cases hy
    rename_i hne
    rw [if_neg]
    · exact hs.parent l' q' hy hl
    intro heq
    cases heq
    by_cases hb : b = 0
    · have hbound := (hs.bound _ _ hy).2
      rw [hb,Nat.zero_pow (by omega)] at hbound
      omega
    have hnone := hkids l' rfl (q' % b) (Nat.mod_lt _ (by omega))
    rw [Nat.div_add_mod] at hnone
    rw [hnone] at hy
    cases hy

lemma raise (hb : 0 < b) : Shape b (update t (h,0) (some c)) (h+1) where
  bound l q hy := by
    rw [isSome_update] at hy
    split at hy
    · rename_i heq
      cases heq
      exact ⟨by omega,by simp⟩
    · obtain ⟨hl,hq⟩ := hs.bound l q hy
      exact ⟨by omega,Nat.lt_of_lt_of_le hq (Nat.pow_le_pow_right hb (by omega))⟩
  parent l q hy hl := by
    rw [isSome_update] at hy ⊢
    split at hy
    · rename_i heq
      cases heq
      omega
    by_cases hlh : l+1 = h
    · have hq : q = 0 := hs.eq_top (by rw [show h-1 = l by omega]; exact hy)
      rw [hq,Nat.zero_div,hlh,if_pos rfl]
      rfl
    · rw [if_neg fun heq => hlh (congrArg Prod.fst heq)]
      exact hs.parent l q hy (by omega)

end

/-- The top is taken away when only its first child is there. -/
theorem lower (hs : Shape b t (h+2)) (honly : ∀ m < b, (t (h,m)).isSome → m = 0) :
    Shape b (update t (h+1,0) none) (h+1) where
  bound l q hy := by
    rw [isSome_update] at hy
    split at hy
    · cases hy
    rename_i hne
    obtain ⟨hl,hq⟩ := hs.bound l q hy
    have hlh : l ≠ h+1 := by
      intro heq
      subst heq
      have := hs.eq_top (by simpa using hy)
      exact hne (by rw [this])
    refine ⟨by omega,?_⟩
    have hup := hs.path hy (h-l) (by omega)
    rw [show l+(h-l) = h by omega] at hup
    have hlt := (hs.bound _ _ hup).2
    rw [show h+2-1-h = 1 by omega,pow_one] at hlt
    have hzero := honly _ hlt hup
    by_cases hb : b = 0
    · omega
    rw [Nat.div_eq_zero_iff] at hzero
    rcases hzero with hpow | hlt
    · exact absurd hpow (Nat.ne_of_gt (Nat.pow_pos (by omega)))
    · rw [show h+1-1-l = h-l by omega]
      exact hlt
  parent l q hy hl := by
    rw [isSome_update] at hy ⊢
    split at hy
    · cases hy
    · rw [if_neg fun heq => Nat.ne_of_lt hl (congrArg Prod.fst heq)]
      exact hs.parent l q hy (by omega)

end Shape

def kid (b : Nat) (t : Nat × Nat → Option ν) (item : Nat → Bool) : Nat × Nat → Nat → Bool
  | (0,q), m => item (b*q+m)
  | (l+1,q), m => (t (l,b*q+m)).isSome

/-- Every node counts its slots that are in use; the node `extra` counts one more. -/
def Counted (b : Nat) (count : ν → Int) (item : Nat → Bool) (extra : Option (Nat × Nat))
    (t : Nat × Nat → Option ν) : Prop :=
  ∀ x p, t x = some p → count p = tally (kid b t item x) b+if extra = some x then 1 else 0

lemma isSome_modify {x : Nat × Nat} {p p' : ν} (hx : t x = some p) (y : Nat × Nat) :
    (update t x (some p') y).isSome = (t y).isSome := by
  rw [isSome_update]
  split
  · rename_i heq
    rw [heq,hx]
    rfl
  · rfl

lemma kid_congr {item item' : Nat → Bool} (ht : ∀ x, (t' x).isSome = (t x).isSome)
    (hitem : ∀ i, item' i = item i) (x : Nat × Nat) (m : Nat) : kid b t' item' x m = kid b t item x m := by
  obtain ⟨l,q⟩ := x
  cases l with
  | zero => exact hitem _
  | succ l => exact ht _

namespace Counted

variable {count : ν → Int} {item item' : Nat → Bool} {x : Nat × Nat} {extra extra' : Option (Nat × Nat)}
  {p p' : ν}

section
variable (hc : Counted b count item extra t)
include hc

lemma congr (ht : ∀ y, (t' y).map count = (t y).map count) (hitem : ∀ i, item' i = item i) :
    Counted b count item' extra t' := by
  intro y r hy
  have hsome : ∀ z, (t' z).isSome = (t z).isSome := by
    intro z
    rw [← isSome_map (f := count),ht,isSome_map]
  have hcount := ht y
  rw [hy,map_some] at hcount
  obtain ⟨r',hr',heq⟩ := map_eq_some_iff.mp hcount.symm
  rw [tally_congr (g := kid b t item y) fun m _ => kid_congr hsome hitem y m,← heq]
  exact hc y r' hr'

lemma modify (hx : t x = some p)
    (hself : count p'-(if extra' = some x then 1 else 0) = count p-if extra = some x then 1 else 0)
    (hextra : ∀ y ≠ x, extra' = some y ↔ extra = some y) (hitem : ∀ i, item' i = item i) :
    Counted b count item' extra' (update t x (some p')) := by
  intro y r hy
  rw [tally_congr (g := kid b t item y) fun m _ => kid_congr (isSome_modify hx) hitem y m]
  rw [update_apply] at hy
  split at hy
  · rename_i heq
    cases hy
    subst heq
    have := hc y p hx
    omega
  rename_i hne
  have := hc y r hy
  simp only [hextra y hne]
  exact this

lemma modify_same (hx : t x = some p) (hcount : count p' = count p)
    (hitem : ∀ i, item' i = item i) : Counted b count item' extra (update t x (some p')) :=
  hc.modify hx (by rw [hcount]) (fun _ _ => Iff.rfl) hitem

end

lemma settle (hc : Counted b count item (some x) t) (hx : t x = some p) (hcount : count p' = count p-1)
    (hitem : ∀ i, item' i = item i) : Counted b count item' none (update t x (some p')) := by
  refine hc.modify hx ?_ ?_ hitem
  · rw [hcount,if_pos rfl,if_neg (by simp)]
    omega
  intro y hy
  simp [hy.symm]

/-- Only the leaf that has the slot of an item counts it. -/
theorem tally_other (hx : t (0,q) = some p) (hm : m < b) (hitem : ∀ i ≠ b*q+m, item' i = item i) {y : Nat × Nat}
    (hne : y ≠ (0,q)) : tally (kid b (update t (0,q) (some p')) item' y) b = tally (kid b t item y) b := by
  obtain ⟨l,q'⟩ := y
  cases l with
  | zero => exact tally_congr fun i hi => hitem _ fun h => hne (by rw [((slot_inj hi hm).mp h).1])
  | succ l => exact tally_congr fun i _ => isSome_modify hx _

section
variable (hc : Counted b count item none t) (hx : t (0,q) = some p) (hm : m < b)
include hc hx hm

/-- An item is added in a leaf that counts it. -/
theorem addItem (hfree : item (b*q+m) = false) (hcount : count p' = count p+1)
    (hnew : item' (b*q+m) = true) (hitem : ∀ i ≠ b*q+m, item' i = item i) :
    Counted b count item' none (update t (0,q) (some p')) := by
  intro y r hy
  rw [update_apply] at hy
  split at hy
  · rename_i heq
    cases heq
    cases hy
    have hadd : tally (kid b (update t (0,q) (some p')) item' (0,q)) b = tally (kid b t item (0,q)) b+1 :=
      tally_add hm hfree hnew fun i hi hne => hitem _ fun h => hne ((slot_inj hi hm).mp h).2
    have := hc (0,q) p hx
    rw [hadd,hcount,this]
    simp
  rename_i hne
  rw [tally_other hx hm hitem hne]
  exact hc _ r hy

/-- An item is taken out of a leaf that still counts it. -/
theorem removeItem (hthere : item (b*q+m) = true) (hcount : count p' = count p)
    (hgone : item' (b*q+m) = false) (hitem : ∀ i ≠ b*q+m, item' i = item i) :
    Counted b count item' (some (0,q)) (update t (0,q) (some p')) := by
  intro y r hy
  rw [update_apply] at hy
  split at hy
  · rename_i heq
    cases heq
    cases hy
    have hadd : tally (kid b t item (0,q)) b = tally (kid b (update t (0,q) (some p')) item' (0,q)) b+1 :=
      tally_add hm hgone hthere fun i hi hne => (hitem _ fun h => hne ((slot_inj hi hm).mp h).2).symm
    have := hc (0,q) p hx
    rw [hcount,this,hadd]
    simp
  rename_i hne
  rw [tally_other hx hm hitem hne,if_neg fun h => hne (some.inj h).symm]
  simpa using hc _ r hy

end

/-- A node without children is put below one that is there. -/
theorem insert (hs : Shape b t h) (hc : Counted b count item none t) (hx : t (l+1,q) = some p)
    (hm : m < b) (hnone : t (l,b*q+m) = none) (hcount : count p' = count p+1)
    (hnew : count c = 0) (hitem : ∀ j < b, l = 0 → item (b*(b*q+m)+j) = false) :
    Counted b count item none (update (update t (l,b*q+m) (some c)) (l+1,q) (some p')) := by
  have hpresent : ∀ y, (update (update t (l,b*q+m) (some c)) (l+1,q)
      (some p') y).isSome = if y = (l,b*q+m) then true else (t y).isSome := by
    intro y
    rw [isSome_modify (p := p) (by rw [update_of_ne (by simp),hx]),isSome_update]
    rfl
  generalize hT : update (update t (l,b*q+m) (some c)) (l+1,q) (some p') = T at hpresent ⊢
  rintro ⟨l',q'⟩ r hy
  rw [if_neg (by simp)]
  by_cases hparent : (l',q') = (l+1,q)
  · cases hparent
    rw [← hT,update_self] at hy
    cases hy
    have hadd : tally (kid b T item (l+1,q)) b = tally (kid b t item (l+1,q)) b+1 := by
      refine tally_add hm ?_ ?_ ?_
      · rw [kid,hnone]
        rfl
      · rw [kid,hpresent,if_pos rfl]
      intro i hi hne
      rw [kid,kid,hpresent,if_neg]
      intro heq
      exact hne ((slot_inj hi hm).mp (congrArg Prod.snd heq)).2
    have := hc _ p hx
    rw [hadd,hcount,this]
    simp
  rw [← hT,update_of_ne hparent,update_apply] at hy
  split at hy
  · rename_i heq
    cases hy
    cases heq
    have hzero : tally (kid b T item (l,b*q+m)) b = 0 := by
      rw [tally_eq_zero]
      intro j hj
      rcases l with _ | l
      · exact hitem j hj rfl
      rw [kid,hpresent,if_neg (by simp)]
      by_contra hsome
      rw [Bool.not_eq_false] at hsome
      have hup := hs.parent _ _ hsome (by
        have := (hs.bound _ _ (by rw [hx]; rfl)).1
        omega)
      rw [slot_div hj,hnone] at hup
      cases hup
    rw [hzero,hnew]
    rfl
  have hsame : tally (kid b T item (l',q')) b = tally (kid b t item (l',q')) b := by
    refine tally_congr fun i hi => ?_
    rcases l' with _ | l'
    · rfl
    rw [kid,kid,hpresent,if_neg]
    intro heq
    cases hl : congrArg Prod.fst heq
    exact hparent (by rw [((slot_inj hi hm).mp (congrArg Prod.snd heq)).1])
  have := hc _ r hy
  rw [hsame]
  simpa using this

/-- A node with nothing below is taken out, and the one above still counts it. -/
theorem erase (hc : Counted b count item (some (l,q)) t) (hb : 0 < b) (hx : (t (l,q)).isSome) :
    Counted b count item (some (l+1,q/b)) (update t (l,q) none) := by
  rintro ⟨l',q'⟩ r hy
  have hne : (l',q') ≠ (l,q) := by
    intro heq
    rw [heq,update_self] at hy
    cases hy
  rw [update_of_ne hne] at hy
  have hold := hc _ r hy
  rw [if_neg fun h => hne (some.inj h).symm] at hold
  by_cases hparent : (l',q') = (l+1,q/b)
  · cases hparent
    have hadd : tally (kid b t item (l+1,q/b)) b = tally (kid b (update t (l,q) none) item (l+1,q/b)) b+1 := by
      refine tally_add (Nat.mod_lt q hb) ?_ ?_ ?_
      · rw [kid,Nat.div_add_mod,update_self]
        rfl
      · rw [kid,Nat.div_add_mod]
        exact hx
      intro i hi hne
      rw [kid,kid,update_of_ne]
      intro heq
      have hq : b*(q/b)+i = q := congrArg Prod.snd heq
      exact hne (by rw [← slot_mod hi (q := q/b),hq])
    rw [if_pos rfl,hold,hadd]
    simp
  have hsame : tally (kid b (update t (l,q) none) item (l',q')) b = tally (kid b t item (l',q')) b := by
    refine tally_congr fun i hi => ?_
    rcases l' with _ | l'
    · rfl
    rw [kid,kid,update_of_ne]
    intro heq
    cases heq
    exact hparent (by rw [slot_div hi])
  rw [if_neg fun h => hparent (some.inj h).symm,hsame]
  exact hold

/-- A new top is put over the old one, which it counts. -/
theorem raise (hs : Shape b t (h+1)) (hc : Counted b count item none t) (hb : 0 < b)
    (hx : (t (h,0)).isSome) (hcount : count c = 1) : Counted b count item none (update t (h+1,0) (some c)) := by
  have hkid : ∀ y m, y ≠ (h+2,0) → m < b → kid b (update t (h+1,0) (some c)) item y m = kid b t item y m := by
    rintro ⟨l,q⟩ m hy hm
    rcases l with _ | l
    · rfl
    rw [kid,kid,update_of_ne]
    intro heq
    have hq := congrArg Prod.snd heq
    have hl := congrArg Prod.fst heq
    dsimp only at hq hl
    have hmul : b*q = 0 := by omega
    rcases Nat.mul_eq_zero.mp hmul with hzero | hzero
    · omega
    · exact hy (by rw [hl,hzero])
  intro y r hy
  rw [update_apply] at hy
  split at hy
  · rename_i heq
    cases hy
    subst heq
    have hone : tally (kid b (update t (h+1,0) (some c)) item (h+1,0)) b = tally (fun _ => false) b+1 := by
      refine tally_add hb rfl ?_ ?_
      · rw [hkid _ _ (by simp) hb,kid]
        simpa using hx
      intro i hi hne
      rw [hkid _ _ (by simp) hi,kid,Nat.mul_zero,Nat.zero_add]
      by_contra hsome
      rw [Bool.not_eq_false] at hsome
      have := hs.eq_top hsome
      omega
    have hzero : tally (fun _ => false) b = 0 := tally_eq_zero.mpr fun _ _ => rfl
    rw [hone,hzero,hcount,if_neg (by simp)]
    rfl
  rename_i hne
  have hy' : y ≠ (h+2,0) := by
    intro heq
    rw [heq] at hy
    have := (hs.bound _ _ (by rw [hy]; rfl)).1
    omega
  rw [tally_congr (g := kid b t item y) fun m hm => hkid y m hy' hm]
  exact hc y r hy

lemma dropTop (hs : Shape b t (h+1)) (hc : Counted b count item none t) :
    Counted b count item none (update t (h,0) none) := by
  rintro ⟨l,q⟩ r hy
  have hne : (l,q) ≠ (h,0) := by
    intro heq
    rw [heq,update_self] at hy
    cases hy
  rw [update_of_ne hne] at hy
  have hl := (hs.bound _ _ (by rw [hy]; rfl)).1
  have hsame : tally (kid b (update t (h,0) none) item (l,q)) b = tally (kid b t item (l,q)) b := by
    refine tally_congr fun i _ => ?_
    rcases l with _ | l
    · rfl
    rw [kid,kid,update_of_ne]
    intro heq
    have : l = h := congrArg Prod.fst heq
    omega
  rw [hsame]
  exact hc _ r hy

lemma single (honly : ∀ y ≠ x, t y = none) (hcount : ∀ p, t x = some p → count p = 0)
    (hitem : ∀ i, item i = false) : Counted b count item none t := by
  rintro ⟨l,q⟩ p hy
  have hx : (l,q) = x := by
    by_contra hne
    rw [honly _ hne] at hy
    cases hy
  have hzero : tally (kid b t item (l,q)) b = 0 := by
    rw [tally_eq_zero]
    intro m _
    rcases l with _ | l
    · exact hitem _
    rw [kid,honly]
    · rfl
    rw [← hx]
    intro heq
    have : l = l+1 := congrArg Prod.fst heq
    omega
  rw [hzero,hcount p (hx ▸ hy)]
  rfl

end Counted

end Shapes

end LevelTree

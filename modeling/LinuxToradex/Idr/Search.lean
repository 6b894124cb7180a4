import LinuxToradex.Idr.Layers

/-! What the layers of an idr say about ids: the entry of an id in its leaf, and the invariant under which
the bits of the layers above tell the full parts of the tree. -/
namespace LinuxToradex.Idr
open Function Nat Option

open LevelTree BitRow

section Numbers

variable {id l m : Nat}

lemma pow_five_mul (l : Nat) : 2^(5*l) = 32^l := by
  rw [Nat.pow_mul]

lemma slot_eq (id l : Nat) : (id >>> (5*l)) &&& 31 = id/32^l%32 := by
  rw [shiftRight_eq_div_pow,pow_five_mul]
  exact and_two_pow_sub_one_eq_mod _ 5

lemma mask_eq (hid : id < 2^31) : id &&& (2^31-1) = id := by
  rw [and_two_pow_sub_one_eq_mod,mod_eq_of_lt hid]

lemma or_mask_succ (id k : Nat) : (id ||| (2^k-1))+1 = (id/2^k+1)*2^k := by
  have hpos := Nat.two_pow_pos k
  rw [Align.or_low_bits,Nat.add_mul]
  omega

lemma replaced_eq (id l : Nat) (hm : m < 32) :
    ((id >>> (5*l)) ^^^ (id/32^l%32) ^^^ m) <<< (5*l) = (32*(id/32^(l+1))+m)*32^l := by
  have hlt : id/32^l%32 < 2^5 := mod_lt _ (by decide)
  rw [shiftRight_eq_div_pow,shiftLeft_eq,pow_five_mul,div_pow_succ]
  generalize hx : id/32^l = x at hlt ⊢
  congr 1
  have hdiv : (x ^^^ (x%32) ^^^ m)/2^5 = x/32 := by
    rw [xor_div_two_pow,xor_div_two_pow,div_eq_of_lt hlt,div_eq_of_lt hm]
    simp
  have hmod : (x ^^^ (x%32) ^^^ m)%2^5 = m := by
    rw [xor_mod_two_pow,xor_mod_two_pow,mod_eq_of_lt hm]
    simp
  omega

end Numbers

@[simp] lemma put_layer {α : Type} (s : Idr α) (x : Name) (p : Option (Layer α)) :
    (s.put x p).layer = update s.layer x p := rfl

@[simp] lemma put_top {α : Type} (s : Idr α) (x : Name) (p : Option (Layer α)) : (s.put x p).top = s.top := rfl

@[simp] lemma put_layers {α : Type} (s : Idr α) (x : Name) (p : Option (Layer α)) :
    (s.put x p).layers = s.layers := rfl

variable {α : Type} {t t' : Name → Option (Layer α)} {h l q i m : Nat} {p p' : Layer α} {x y : Name}
  {extra : Option Name}

def entry (t : Name → Option (Layer α)) (i : Nat) : Bool × Option α :=
  match t (0,i/32) with
  | some p => (p.bitmap (i%32),p.ary (i%32))
  | none => (false,none)

def taken (t : Name → Option (Layer α)) (i : Nat) : Bool := (entry t i).1

def used (t : Name → Option (Layer α)) (i : Nat) : Bool := (entry t i).1 || (entry t i).2.isSome

def fullAt (t : Name → Option (Layer α)) (x : Name) : Bool :=
  match t x with
  | some p => p.full
  | none => false

lemma entry_of_leaf (hx : t (0,i/32) = some p) : entry t i = (p.bitmap (i%32),p.ary (i%32)) := by
  rw [entry,hx]

lemma entry_of_missing (hx : t (0,i/32) = none) : entry t i = (false,none) := by
  rw [entry,hx]

lemma entry_congr (hx : t' (0,i/32) = t (0,i/32)) : entry t' i = entry t i := by
  rw [entry,entry,hx]

lemma taken_congr (he : entry t' = entry t) : taken t' = taken t := by
  funext i
  rw [taken,taken,he]

lemma used_congr (he : entry t' = entry t) : used t' = used t := by
  funext i
  rw [used,used,he]

lemma full_eq_true : p.full = true ↔ ∀ m < 32, p.bitmap m = true := by
  simp [Layer.full]

lemma full_eq_false (hm : m < 32) (hbit : p.bitmap m = false) : p.full = false := by
  rw [← Bool.not_eq_true]
  intro hfull
  rw [full_eq_true.mp hfull m hm] at hbit
  cases hbit

@[simp] lemma full_fresh (l : Nat) : (Layer.fresh l : Layer α).full = false :=
  full_eq_false (m := 0) (by decide) rfl

lemma fullAt_some (hx : t x = some p) : fullAt t x = p.full := by
  rw [fullAt,hx]

lemma fullAt_none (hx : t x = none) : fullAt t x = false := by
  rw [fullAt,hx]

lemma fullAt_congr (hx : t' x = t x) : fullAt t' x = fullAt t x := by
  rw [fullAt,fullAt,hx]

/-- A tree of `h` layers. The layer `extra` counts one slot more than it uses. -/
structure Tree (t : Name → Option (Layer α)) (h : Nat) (extra : Option Name) : Prop where
  present : 0 < h → (t (h-1,0)).isSome
  shape : Shape 32 t h
  number : ∀ l q p, t (l,q) = some p → p.layer = l
  full : ∀ l q p, t (l+1,q) = some p → ∀ m < 32, p.bitmap m = fullAt t (l,32*q+m)
  counted : Counted 32 Layer.count (used t) extra t

structure Sound (s : Idr α) : Prop where
  layers_le : s.layers ≤ 6
  top : s.top = if s.layers = 0 then none else some (s.layers-1)
  tree : Tree s.layer s.layers none

lemma init_sound : Sound (init : Idr α) where
  layers_le := Nat.zero_le _
  top := rfl
  tree := {
    present := fun hpos => absurd hpos (Nat.lt_irrefl 0)
    shape := ⟨fun _ _ hx => (by cases hx),fun _ _ hx => (by cases hx)⟩
    number := fun _ _ _ hx => by cases hx
    full := fun _ _ _ hx => by cases hx
    counted := fun _ _ hx => by cases hx}

namespace Tree

section
variable (ht : Tree t h extra)
include ht

lemma taken_of_full (hfull : fullAt t (l,q) = true) (hi : i/32^(l+1) = q) : taken t i = true := by
  induction l generalizing q with
  | zero =>
    rcases hx : t (0,q) with _ | p
    · rw [fullAt_none hx] at hfull; cases hfull
    rw [fullAt_some hx] at hfull
    rw [taken,entry_of_leaf (hi ▸ hx)]
    exact full_eq_true.mp hfull _ (mod_lt _ (by decide))
  | succ l ih =>
    rcases hx : t (l+1,q) with _ | p
    · rw [fullAt_none hx] at hfull; cases hfull
    rw [fullAt_some hx] at hfull
    have hm : i/32^(l+1)%32 < 32 := mod_lt _ (by decide)
    refine ih (q := i/32^(l+1)) ?_ rfl
    have hbit := ht.full l q p hx _ hm
    rw [full_eq_true.mp hfull _ hm,← hi,slot_over] at hbit
    exact hbit.symm

lemma taken_of_bit (hx : t (l,q) = some p) (hi : i/32^(l+1) = q)
    (hbit : p.bitmap (i/32^l%32) = true) : taken t i = true := by
  rcases l with _ | l
  · rw [pow_zero,Nat.div_one] at hbit
    rw [taken,entry_of_leaf (hi ▸ hx)]
    exact hbit
  have hfull := ht.full l q p hx _ (mod_lt _ (by decide) : i/32^(l+1)%32 < 32)
  rw [hbit,← hi,slot_over] at hfull
  exact ht.taken_of_full hfull.symm rfl

lemma kid_missing (hnone : t (l+1,q) = none) (hl : l+1 < h) (hm : m < 32) : t (l,32*q+m) = none := by
  by_contra hne
  have hup := ht.shape.parent _ _ (isSome_iff_ne_none.mpr hne) hl
  rw [slot_div hm,hnone] at hup
  cases hup

lemma lt_of_some (hx : t (l,q) = some p) : l < h :=
  (ht.shape.bound l q (by rw [hx]; rfl)).1

/-- A layer is changed, but neither its bits nor its number. -/
theorem retouch {extra' : Option Name} (hx : t x = some p) (hbitmap : p'.bitmap = p.bitmap)
    (hlayer : p'.layer = p.layer)
    (hcounted : Counted 32 Layer.count (used (update t x (some p'))) extra' (update t x (some p'))) :
    Tree (update t x (some p')) h extra' := by
  have hcase : ∀ y r, update t x (some p') y = some r →
      ∃ r', t y = some r' ∧ r.bitmap = r'.bitmap ∧ r.layer = r'.layer := by
    intro y r hr
    rw [update_apply] at hr
    split at hr
    · rename_i heq
      cases hr
      exact ⟨p,heq ▸ hx,hbitmap,hlayer⟩
    · exact ⟨r,hr,rfl,rfl⟩
  have hfullAt : ∀ y, fullAt (update t x (some p')) y = fullAt t y := by
    intro y
    by_cases hy : y = x
    · rw [hy,fullAt_some hx,fullAt_some (update_self ..),Layer.full,Layer.full,hbitmap]
    · exact fullAt_congr (update_of_ne hy _ _)
  refine ⟨?_,ht.shape.congr (isSome_modify hx),?_,?_,hcounted⟩
  · intro hpos
    rw [isSome_modify hx]
    exact ht.present hpos
  · intro l q r hr
    obtain ⟨r',hr',-,hnum⟩ := hcase _ r hr
    rw [hnum]
    exact ht.number l q r' hr'
  intro l q r hr m hm
  obtain ⟨r',hr',hbits,-⟩ := hcase _ r hr
  rw [hfullAt,hbits]
  exact ht.full l q r' hr' m hm

end

section Insert

variable (hx : t (l+1,q) = some p) (hm : m < 32) (hnone : t (l,32*q+m) = none)

def inserted (t : Name → Option (Layer α)) (l q m : Nat) (p : Layer α) : Name → Option (Layer α) :=
  update (update t (l,32*q+m) (some (Layer.fresh l))) (l+1,q)
    (some {p with count := p.count+1})

include hnone

lemma inserted_entry : entry (inserted t l q m p) = entry t := by
  funext i
  by_cases hi : (0,i/32) = (l,32*q+m)
  · have hmissing : entry t i = (false,none) := entry_of_missing (hi ▸ hnone)
    rw [hmissing]
    refine (entry_of_leaf (p := Layer.fresh l) ?_).trans rfl
    rw [hi,inserted,update_of_ne (by simp),update_self]
  refine entry_congr ?_
  rw [inserted,update_of_ne (by simp),update_of_ne hi]

include hx

lemma inserted_fullAt (y : Name) : fullAt (inserted t l q m p) y = fullAt t y := by
  by_cases hy : y = (l+1,q)
  · rw [hy,fullAt_some hx,fullAt_some (by rw [inserted,update_self])]
    rfl
  by_cases hy' : y = (l,32*q+m)
  · rw [hy',fullAt_none hnone,fullAt_some (p := Layer.fresh l),full_fresh]
    rw [inserted,update_of_ne (by simp),update_self]
  refine fullAt_congr ?_
  rw [inserted,update_of_ne hy,update_of_ne hy']

include hm

lemma inserted_tree (ht : Tree t h none) : Tree (inserted t l q m p) h none := by
  have hsome : (t (l+1,q)).isSome := by rw [hx]; rfl
  have hkeep : ∀ y r, inserted t l q m p y = some r → y = (l,32*q+m) ∧ r = Layer.fresh l ∨
      ∃ r', t y = some r' ∧ r.bitmap = r'.bitmap ∧ r.layer = r'.layer := by
    intro y r hy
    rw [inserted,update_apply] at hy
    split at hy
    · rename_i heq
      cases hy
      exact .inr ⟨p,heq ▸ hx,rfl,rfl⟩
    rw [update_apply] at hy
    split at hy
    · rename_i heq
      cases hy
      exact .inl ⟨heq,rfl⟩
    · exact .inr ⟨r,hy,rfl,rfl⟩
  have hshape : Shape 32 (inserted t l q m p) h :=
    (ht.shape.insert (c := Layer.fresh l) hsome hm).congr
      (isSome_modify (by rw [update_of_ne (by simp),hx]))
  refine ⟨?_,hshape,?_,?_,?_⟩
  · intro hpos
    have htop := ht.present hpos
    rw [inserted,isSome_update,isSome_update]
    split
    · rfl
    split
    · rfl
    · exact htop
  · intro l' q' r hr
    rcases hkeep _ r hr with ⟨heq,rfl⟩ | ⟨r',hr',-,hnum⟩
    · exact (congrArg Prod.fst heq).symm
    rw [hnum]
    exact ht.number _ _ _ hr'
  · intro l' q' r hr m' hm'
    rw [inserted_fullAt hx hnone]
    rcases hkeep _ r hr with ⟨heq,rfl⟩ | ⟨r',hr',hbit,-⟩
    · have hl := ht.lt_of_some hx
      have hle : l'+1 = l := congrArg Prod.fst heq
      rw [fullAt_none (ht.kid_missing (heq ▸ hnone) (by omega) hm')]
      rfl
    rw [hbit]
    exact ht.full _ _ _ hr' m' hm'
  rw [used_congr (inserted_entry hnone)]
  refine Counted.insert ht.shape ht.counted hx hm hnone rfl rfl ?_
  intro j hj hl
  subst hl
  rw [used,entry_of_missing (by rw [slot_div hj]; exact hnone)]
  rfl

end Insert

end Tree

open LevelTree BitRow

variable {α : Type} {t t' : Name → Option (Layer α)} {h l q i m n start id next : Nat} {p p' : Layer α}
  {s s' : Idr α} {pa : Nat → Option Name}

def LeastFree (t : Name → Option (Layer α)) (start id : Nat) : Prop :=
  start ≤ id ∧ taken t id = false ∧ ∀ j, start ≤ j → j < id → taken t j = true

structure Path (s : Idr α) (id : Nat) (pa : Nat → Option Name) : Prop where
  id_lt : id < 32^s.layers
  leaf : (s.layer (cover 32 0 id)).isSome
  above : ∀ k < s.layers, pa k = some (cover 32 k id)
  last : pa s.layers = none

def Answer (start : Nat) (s : Idr α) : Slot → Prop
  | .found id pa => LeastFree s.layer start id ∧ Path s id pa
  | .needToGrow id => id = 32^s.layers ∧ ∀ j, start ≤ j → j < id → taken s.layer j = true
  | .noMoreSpace => False
  | .noMemory => True

/-- The search at layer `l`, with everything from the start up to `id` taken. -/
structure Walking (start : Nat) (s : Idr α) (id l : Nat) (pa : Nat → Option Name) : Prop where
  sound : Sound s
  id_lt : id < 32^s.layers
  l_lt : l < s.layers
  here : (s.layer (cover 32 l id)).isSome
  above : ∀ k, l < k → k < s.layers → pa k = some (cover 32 k id)
  last : pa s.layers = none
  start_le : start ≤ id
  passed : ∀ j, start ≤ j → j < id → taken s.layer j = true

lemma Tree.taken_to_end (ht : Tree t h none) (hx : t (cover 32 l id) = some p)
    (hset : ∀ k, id/32^l%32 ≤ k → k < m → p.bitmap k = true) (hm : m ≤ 32) (hi : id ≤ i)
    (hlt : i < (32*(id/32^(l+1))+m)*32^l) : taken t i = true := by
  have hpos : 0 < 32^l := Nat.pow_pos (by decide)
  have hlow : i/32^l < 32*(id/32^(l+1))+m := (Nat.div_lt_iff_lt_mul hpos).mpr hlt
  have hge : id/32^l ≤ i/32^l := Nat.div_le_div_right hi
  have hidslot := slot_over 32 id l
  have hislot := slot_over 32 i l
  have hpre : i/32^(l+1) = id/32^(l+1) := by omega
  refine ht.taken_of_bit hx hpre ?_
  apply hset <;> omega

namespace Walking

section
variable (hw : Walking start s id l pa)
include hw

lemma advance (hle : id ≤ next) (hpre : next/32^(l+1) = id/32^(l+1))
    (hlt : next < 32^s.layers) (htaken : ∀ j, id ≤ j → j < next → taken s.layer j = true) :
    Walking start s next l pa where
  sound := hw.sound
  id_lt := hlt
  l_lt := hw.l_lt
  here := by
    rw [cover,hpre]
    exact hw.here
  above k hlk hk := by
    rw [hw.above k hlk hk,cover,cover]
    obtain ⟨d,rfl⟩ := Nat.exists_eq_add_of_lt hlk
    have hsplit : ∀ j, j/32^(l+d+1+1) = j/32^(l+1)/32^(d+1) := by
      intro j
      rw [Nat.div_div_eq_div_mul,← pow_add,show l+d+1+1 = l+1+(d+1) by omega]
    rw [hsplit,hsplit,hpre]
  last := hw.last
  start_le := hw.start_le.trans hle
  passed j hj hjn := by
    by_cases hji : j < id
    · exact hw.passed j hj hji
    · exact htaken j (by omega) hjn

lemma restart (hle : id ≤ next) (hlt : next < 32^s.layers)
    (htaken : ∀ j, id ≤ j → j < next → taken s.layer j = true) :
    Walking start s next (s.layers-1) (update pa s.layers none) where
  sound := hw.sound
  id_lt := hlt
  l_lt := by
    have := hw.l_lt
    omega
  here := by
    have hl := hw.l_lt
    rw [cover,show s.layers-1+1 = s.layers by omega,div_eq_of_lt hlt]
    exact hw.sound.tree.present (by omega)
  above k hlk hk := by omega
  last := update_self ..
  start_le := hw.start_le.trans hle
  passed j hj hjn := by
    by_cases hji : j < id
    · exact hw.passed j hj hji
    · exact htaken j (by omega) hjn

lemma up (hl : l+1 < s.layers) : Walking start s id (l+1) pa where
  sound := hw.sound
  id_lt := hw.id_lt
  l_lt := hl
  here := hw.sound.tree.shape.isSome_over hw.here (by omega) hl
  above k hlk hk := hw.above k (by omega) hk
  last := hw.last
  start_le := hw.start_le
  passed := hw.passed

end

end Walking

structure Keeps (s s' : Idr α) : Prop where
  sound : Sound s'
  layers : s'.layers = s.layers
  entry : entry s'.layer = entry s.layer

lemma Keeps.refl (hs : Sound s) : Keeps s s := ⟨hs,rfl,rfl⟩

lemma Keeps.trans {s'' : Idr α} (h1 : Keeps s s') (h2 : Keeps s' s'') : Keeps s s'' :=
  ⟨h2.sound,h2.layers.trans h1.layers,h2.entry.trans h1.entry⟩

lemma makeBelow_spec (hs : Sound s) (hx : s.layer (l+1,q) = some p) (hm : m < 32)
    (hmake : s.makeBelow (l+1,q) p m (l+1) = some s') : Keeps s s' ∧ (s'.layer (l,32*q+m)).isSome := by
  rw [makeBelow] at hmake
  split at hmake
  · rename_i hthere
    cases hmake
    exact ⟨Keeps.refl hs,hthere⟩
  rename_i hmissing
  have hnone : s.layer (l,32*q+m) = none := by simpa [below] using hmissing
  obtain ⟨s1,hfree,hput⟩ := map_eq_some_iff.mp hmake
  rw [getFromFreeList] at hfree
  split at hfree
  · cases hfree
  cases hfree
  have hlayer : s'.layer = Tree.inserted s.layer l q m p := by rw [← hput]; rfl
  have hlayers : s'.layers = s.layers := by rw [← hput]; rfl
  have htop : s'.top = s.top := by rw [← hput]; rfl
  refine ⟨⟨⟨?_,?_,?_⟩,hlayers,?_⟩,?_⟩
  · rw [hlayers]
    exact hs.layers_le
  · rw [htop,hlayers]
    exact hs.top
  · rw [hlayer,hlayers]
    exact Tree.inserted_tree hx hm hnone hs.tree
  · rw [hlayer,Tree.inserted_entry hnone]
  rw [hlayer,Tree.inserted,update_of_ne (by simp),update_self]
  rfl

lemma Walking.down (hw : Walking start s id (l+1) pa) (hk : Keeps s s') (hbelow : (s'.layer (cover 32 l id)).isSome) :
    Walking start s' id l (update pa (l+1) (some (cover 32 (l+1) id))) where
  sound := hk.sound
  id_lt := hk.layers ▸ hw.id_lt
  l_lt := by
    have := hw.l_lt
    rw [hk.layers]
    omega
  here := hbelow
  above k hlk hkl := by
    rw [hk.layers] at hkl
    by_cases heq : k = l+1
    · rw [heq,update_self]
    · rw [update_of_ne heq,hw.above k (by omega) hkl]
  last := by
    have := hw.l_lt
    rw [hk.layers,update_of_ne (by omega),hw.last]
  start_le := hw.start_le
  passed := by
    rw [taken_congr hk.entry]
    exact hw.passed

lemma Walking.arrived (hw : Walking start s id 0 pa) (hfree : taken s.layer id = false) :
    Answer start s (.found id (update pa 0 (some (cover 32 0 id)))) := by
  refine ⟨⟨hw.start_le,hfree,hw.passed⟩,hw.id_lt,hw.here,?_,?_⟩
  · intro k hk
    by_cases hzero : k = 0
    · rw [hzero,update_self]
    · rw [update_of_ne hzero,hw.above k (by omega) hk]
  have := hw.l_lt
  rw [update_of_ne (by omega),hw.last]

section Up

def after (id l : Nat) : Nat := (id/32^(l+1)+1)*32^(l+1)

lemma lt_after (id l : Nat) : id < after id l := by
  rw [after,mul_comm]
  exact lt_mul_div_succ id (Nat.pow_pos (by decide))

lemma after_le (hid : id < 32^h) (hl : l < h) : after id l ≤ 32^h := by
  have hsplit : 32^h = 32^(h-(l+1))*32^(l+1) := by
    rw [← pow_add,show h-(l+1)+(l+1) = h by omega]
  rw [after,hsplit]
  refine Nat.mul_le_mul_right _ ?_
  rw [succ_le_iff,Nat.div_lt_iff_lt_mul (Nat.pow_pos (by decide)),← hsplit]
  exact hid

lemma after_top (hid : id < 32^h) (hl : l+1 = h) : after id l = 32^h := by
  rw [after,hl,div_eq_of_lt hid,zero_add,one_mul]

lemma next_eq (hid : id < 32^h) (hl : l < h) (hh : h ≤ 6) : ((id ||| (2^(5*(l+1))-1))+1)%2^32 = after id l := by
  have hle := after_le hid hl
  have hcap := Nat.pow_le_pow_right (show 0 < 32 by decide) hh
  rw [or_mask_succ,pow_five_mul]
  exact mod_eq_of_lt (by rw [← after]; omega)

end Up

/-- The first id below slot `m` of the layer of `id`, or `id` when that is its own slot. -/
def intoSlot (id l m : Nat) : Nat :=
  if m = id/32^l%32 then id else (32*(id/32^(l+1))+m)*32^l

lemma intoSlot_div (id l : Nat) (m : Nat) : intoSlot id l m/32^l = 32*(id/32^(l+1))+m := by
  rw [intoSlot]
  split
  · rename_i heq
    rw [heq,slot_over]
  · exact Nat.mul_div_cancel _ (Nat.pow_pos (by decide))

lemma Walking.intoSlot (hw : Walking start s id l pa) (hx : s.layer (cover 32 l id) = some p)
    (hset : ∀ k, id/32^l%32 ≤ k → k < m → p.bitmap k = true) (hge : id/32^l%32 ≤ m)
    (hm : m < 32) : id ≤ intoSlot id l m ∧ Walking start s (intoSlot id l m) l pa := by
  have hpos : 0 < 32^l := Nat.pow_pos (by decide)
  have hdiv := intoSlot_div id l m
  have hpre : Idr.intoSlot id l m/32^(l+1) = id/32^(l+1) := by
    rw [div_pow_succ,hdiv,slot_div hm]
  have hlt : Idr.intoSlot id l m < 32^s.layers := by
    have hafter := after_le hw.id_lt hw.l_lt
    rw [after,← hpre] at hafter
    have := lt_mul_div_succ (Idr.intoSlot id l m) (Nat.pow_pos (by decide) : 0 < 32^(l+1))
    rw [mul_comm] at this
    omega
  have hle : id ≤ Idr.intoSlot id l m := by
    rw [Idr.intoSlot]
    split
    · exact le_refl id
    rename_i hne
    have hslot := slot_over 32 id l
    have hlow : id < (id/32^l+1)*32^l := by
      rw [mul_comm]
      exact lt_mul_div_succ id hpos
    have hmul : (id/32^l+1)*32^l ≤ (32*(id/32^(l+1))+m)*32^l :=
      Nat.mul_le_mul_right _ (by omega)
    omega
  refine ⟨hle,hw.advance hle hpre hlt ?_⟩
  intro j hj hjlt
  refine hw.sound.tree.taken_to_end hx hset hm.le hj ?_
  rw [Idr.intoSlot] at hjlt
  split at hjlt
  · omega
  · exact hjlt

lemma over_top (hid : id < 32^s.layers) (hpos : 0 < s.layers) : cover 32 (s.layers-1) id = (s.layers-1,0) := by
  rw [cover,show s.layers-1+1 = s.layers by omega,Nat.div_eq_of_lt hid]

/-- The search ends, with an answer. -/
theorem search_spec (fuel : Nat) (hw : Walking start s id l pa) (hfuel : 8*(32^s.layers-id)+l < fuel) :
    ∃ s' r, search fuel s id l (cover 32 l id) pa = some (s',r) ∧ Keeps s s' ∧ Answer start s' r := by
  induction fuel generalizing s id l pa with
  | zero => omega
  | succ fuel ih =>
    obtain ⟨p,hx⟩ := isSome_iff_exists.mp hw.here
    have hh := hw.sound.layers_le
    have hl := hw.l_lt
    have hcap := Nat.pow_le_pow_right (show 0 < 32 by decide) hh
    obtain ⟨hge,hle,hset,hclear⟩ := firstClear_spec p.bitmap (32-id/32^l%32) (id/32^l%32)
    rw [search,hx,bind_some]
    dsimp only
    rw [slot_eq,next_eq hw.id_lt hl hh,pow_five_mul]
    generalize firstClear p.bitmap (32-id/32^l%32) (id/32^l%32) = m at hge hle hset hclear ⊢
    by_cases hend : m = 32
    · subst hend
      have hafter (j : Nat) (hj : id ≤ j) (hlt : j < after id l) : taken s.layer j = true := by
        refine hw.sound.tree.taken_to_end hx hset (Nat.le_refl 32) hj ?_
        rw [after] at hlt
        generalize id/32^(l+1) = q at hlt ⊢
        rw [pow_succ',← Nat.mul_assoc,Nat.mul_comm _ 32,Nat.mul_add,Nat.mul_one] at hlt
        exact hlt
      have hlt := lt_after id l
      have hale := after_le hw.id_lt hl
      rw [if_pos rfl]
      split
      · next hgrow =>
        refine ⟨s,_,rfl,Keeps.refl hw.sound,by omega,?_⟩
        intro j hj hja
        by_cases hji : j < id
        · exact hw.passed j hj hji
        · exact hafter j (by omega) hja
      next hgrow =>
      have hin : after id l < 32^s.layers := by omega
      have hup : l+1 < s.layers := by
        by_contra hnot
        have := after_top hw.id_lt (by omega : l+1 = s.layers)
        omega
      rw [hw.above (l+1) (by omega) hup,bind_some,shiftRight_eq_div_pow,shiftRight_eq_div_pow,pow_five_mul]
      split
      · rename_i hsame
        have hnext := (hw.up hup).advance hlt.le hsame.symm hin hafter
        have hover : cover 32 (l+1) id = cover 32 (l+1) (after id l) := by
          rw [cover,cover,hsame]
        rw [hover]
        exact ih hnext (by omega)
      have hnext := hw.restart hlt.le hin hafter
      rw [hw.sound.top,if_neg (by omega),bind_some,← over_top hin (by omega)]
      exact ih hnext (by omega)
    have hm : m < 32 := by omega
    obtain ⟨hidle,hnext⟩ := hw.intoSlot hx hset hge hm
    have hbit := hclear (by omega)
    have hid : (if m = id/32^l%32 then id
        else ((id >>> (5*l)) ^^^ (id/32^l%32) ^^^ m) <<< (5*l)) = intoSlot id l m := by
      rw [replaced_eq id l hm]
      rfl
    have hlt := hnext.id_lt
    have hdiv := intoSlot_div id l m
    have hover : cover 32 l (intoSlot id l m) = cover 32 l id := by
      rw [cover,cover,div_pow_succ,hdiv,slot_div hm]
    rw [if_neg hend,hid,if_neg (by omega)]
    generalize intoSlot id l m = id' at hidle hnext hlt hdiv hover ⊢
    rcases l with _ | l
    · rw [if_pos rfl,← hover]
      rw [pow_zero,Nat.div_one] at hdiv
      refine ⟨s,_,rfl,Keeps.refl hw.sound,hnext.arrived ?_⟩
      have hleaf : s.layer (0,id' / 32) = some p := by
        rw [← hx,← hover,cover,zero_add,pow_one]
      rw [taken,entry_of_leaf hleaf,hdiv,slot_mod hm]
      exact hbit
    rw [if_neg (by omega),Nat.add_sub_cancel]
    rcases hmake : s.makeBelow (cover 32 (l+1) id) p m (l+1) with _ | s1
    · exact ⟨s,_,rfl,Keeps.refl hw.sound,trivial⟩
    obtain ⟨hk,hthere⟩ := makeBelow_spec hw.sound hx hm hmake
    have hbelow : below (cover 32 (l+1) id) m = cover 32 l id' := by
      rw [below,cover,cover,hdiv]
      rfl
    have hdown := hnext.down hk (hbelow ▸ hthere)
    rw [hover] at hdown
    rw [hbelow]
    obtain ⟨s',r,hs',hk',hr⟩ := ih hdown (by rw [hk.layers]; omega)
    exact ⟨s',r,hs',hk.trans hk',hr⟩

end LinuxToradex.Idr

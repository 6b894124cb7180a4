import LinuxToradex.Idr.Grow

/-! `sub_remove` clears the bits of the layers on the way to the leaf of an id, takes the id out of the leaf
and frees the layers that become empty; `idr_remove` then drops a top layer that is not needed. -/
namespace LinuxToradex.Idr
open Option List Function

open LevelTree BitRow

variable {α : Type} {t t' : Name → Option (Layer α)} {h l q i m n id : Nat} {p p' : Layer α}
  {s s' : Idr α} {y : Name} {extra : Option Name} {paa : List Name}

structure Loose (t : Name → Option (Layer α)) (h id : Nat) : Prop where
  present : 0 < h → (t (h-1,0)).isSome
  shape : Shape 32 t h
  number : ∀ l q p, t (l,q) = some p → p.layer = l
  full : ∀ l q p, t (l+1,q) = some p → ∀ m < 32, (l,32*q+m) ≠ cover 32 l id →
    p.bitmap m = fullAt t (l,32*q+m)

lemma Tree.loose (ht : Tree t h extra) (id : Nat) : Loose t h id :=
  ⟨ht.present,ht.shape,ht.number,fun l q p hx m hm _ => ht.full l q p hx m hm⟩

lemma over_zero (id : Nat) : cover 32 0 id = (0,id/32) := by
  rw [cover,zero_add,pow_one]

def cleared (t : Name → Option (Layer α)) (id l : Nat) : Name → Option (Layer α) := fun y =>
  if 0 < y.1 ∧ y.1 ≤ l ∧ y = cover 32 y.1 id then (t y).map (·.clearBit (id/32^y.1%32)) else t y

lemma cleared_off (hy : y ≠ cover 32 y.1 id) : cleared t id l y = t y :=
  if_neg fun hc => hy hc.2.2

lemma cleared_leaf (q : Nat) : cleared t id l (0,q) = t (0,q) :=
  if_neg fun hc => absurd hc.1 (lt_irrefl 0)

lemma cleared_on (hx : t (cover 32 (l+1) id) = some p) (hlh : l+1 ≤ h) :
    cleared t id h (cover 32 (l+1) id) = some (p.clearBit (id/32^(l+1)%32)) := by
  rw [cleared,if_pos ⟨Nat.succ_pos l,hlh,rfl⟩,hx]
  rfl

lemma below_over (id l : Nat) : below (cover 32 (l+1) id) (id/32^(l+1)%32) = cover 32 l id := by
  rw [below,cover,cover]
  exact congrArg (Prod.mk l) (slot_over 32 id (l+1))

/-- On the way to a leaf that is there all bits are cleared. -/
theorem clearDown_spec (id : Nat) (paa : List Name) (hs : Shape 32 s.layer h)
    (hleaf : (s.layer (cover 32 0 id)).isSome) (hl : l < h) :
    clearDown s id l (cover 32 l id) paa = ({s with layer := cleared s.layer id l},some (cover 32 0 id),
        (List.range l).map (fun k => cover 32 k id)++paa) := by
  induction l generalizing s paa with
  | zero =>
    have hsame : cleared s.layer id 0 = s.layer := by
      funext y
      exact if_neg fun hc => by omega
    rw [clearDown,if_pos hleaf,hsame]
    rfl
  | succ l ih =>
    have hx := hs.isSome_over hleaf (Nat.zero_le (l+1)) hl
    obtain ⟨p,hp⟩ := isSome_iff_exists.mp hx
    rw [clearDown,hp]
    dsimp only
    rw [slot_eq,below_over]
    have hs' : Shape 32 (s.put (cover 32 (l+1) id) (some (p.clearBit (id/32^(l+1)%32)))).layer h :=
      hs.congr (isSome_modify hp)
    rw [ih _ hs' (by rw [put_layer,isSome_modify hp]; exact hleaf) (by omega)]
    have hlayer : cleared (s.put (cover 32 (l+1) id)
        (some (p.clearBit (id/32^(l+1)%32)))).layer id l = cleared s.layer id (l+1) := by
      funext y
      rw [put_layer]
      by_cases hy : y = cover 32 (l+1) id
      · rw [hy,cleared_on (h := l+1) hp le_rfl,cleared,if_neg,update_self]
        rintro ⟨-,hle,-⟩
        exact absurd hle (by rw [cover]; omega)
      rw [cleared,cleared,update_of_ne hy]
      refine if_congr ⟨fun hc => ⟨hc.1,by omega,hc.2.2⟩,fun hc => ⟨hc.1,?_,hc.2.2⟩⟩ rfl rfl
      by_contra hlt
      refine hy ?_
      rw [hc.2.2]
      congr 1
      omega
    refine Prod.ext ?_ (Prod.ext rfl ?_)
    · show ({s with layer := _} : Idr α) = {s with layer := _}
      rw [hlayer]
    show _++(cover 32 l id::paa) = _
    rw [range_succ,map_append,append_assoc]
    rfl

lemma cleared_isSome (t : Name → Option (Layer α)) (id l : Nat) (y : Name) :
    (cleared t id l y).isSome = (t y).isSome := by
  rw [cleared]
  split
  · exact isSome_map
  · rfl

/-- With the bits cleared down to a leaf that is not full, every bit is right. -/
theorem Loose.clear (p' : Layer α) (hl : Loose t h id) (hx : t (0,id/32) = some p) (hbit : p'.bitmap (id%32) = false)
    (hlayer : p'.layer = p.layer)
    (hcounted : Counted 32 Layer.count (used (update (cleared t id (h-1)) (0,id/32) (some p')))
      extra (update (cleared t id (h-1)) (0,id/32) (some p'))) :
    Tree (update (cleared t id (h-1)) (0,id/32) (some p')) h extra := by
  have hsome : ∀ y, (update (cleared t id (h-1)) (0,id/32) (some p') y).isSome = (t y).isSome := by
    intro y
    rw [isSome_modify (by rw [cleared_leaf,hx]),cleared_isSome]
  have hoff : ∀ y ≠ cover 32 y.1 id, update (cleared t id (h-1)) (0,id/32) (some p') y = t y := by
    intro y hy
    rw [update_of_ne,cleared_off hy]
    intro heq
    exact hy (by rw [heq,over_zero])
  have hon : ∀ k r, t (cover 32 (k+1) id) = some r →
      update (cleared t id (h-1)) (0,id/32) (some p') (cover 32 (k+1) id) =
        some (r.clearBit (id/32^(k+1)%32)) := by
    intro k r hr
    have := (hl.shape.bound _ _ (by rw [← cover,hr]; rfl : (t (k+1,id/32^(k+1+1))).isSome)).1
    rw [update_of_ne (by simp [cover]),cleared_on hr (by omega)]
  have hnotfull : ∀ k, fullAt (update (cleared t id (h-1)) (0,id/32) (some p')) (cover 32 k id) = false := by
    intro k
    rcases k with _ | k
    · rw [over_zero,fullAt_some (p := p') (update_self ..)]
      exact full_eq_false (Nat.mod_lt _ (by decide)) hbit
    cases hr : t (cover 32 (k+1) id) with
    | none =>
      refine fullAt_none ?_
      rw [← not_isSome_iff_eq_none,hsome,hr]
      simp
    | some r =>
      rw [fullAt_some (hon k r hr)]
      exact full_eq_false (Nat.mod_lt _ (by decide)) (update_self ..)
  refine ⟨?_,hl.shape.congr hsome,?_,?_,hcounted⟩
  · intro hpos
    rw [hsome]
    exact hl.present hpos
  · intro l q r hr
    by_cases hpath : (l,q) = cover 32 l id
    · rcases l with _ | l
      · rw [hpath,over_zero,update_self] at hr
        cases hr
        rw [hlayer]
        exact hl.number _ _ p hx
      obtain ⟨r',hr'⟩ := isSome_iff_exists.mp (by rw [← hsome,hr]; rfl : (t (l+1,q)).isSome)
      rw [hpath,hon l r' (hpath ▸ hr')] at hr
      cases hr
      exact hl.number _ _ r' hr'
    rw [hoff _ hpath] at hr
    exact hl.number l q r hr
  intro l q r hr m hm
  by_cases hkid : (l,32*q+m) = cover 32 l id
  · have hq : q = id/32^(l+1+1) := by
      have : 32*q+m = id/32^(l+1) := congrArg Prod.snd hkid
      rw [div_pow_succ,← this,slot_div hm]
    have hm' : m = id/32^(l+1)%32 := by
      have : 32*q+m = id/32^(l+1) := congrArg Prod.snd hkid
      rw [← this,slot_mod hm]
    subst hq
    obtain ⟨r',hr'⟩ := isSome_iff_exists.mp (by rw [← hsome,hr]; rfl : (t (l+1,id/32^(l+1+1))).isSome)
    rw [← cover] at hr hr'
    rw [hon l r' hr'] at hr
    cases hr
    rw [hkid,hnotfull,hm']
    exact update_self ..
  rw [fullAt_congr (hoff _ hkid)]
  by_cases hpath : (l+1,q) = cover 32 (l+1) id
  · obtain ⟨r',hr'⟩ := isSome_iff_exists.mp (by rw [← hsome,hr]; rfl : (t (l+1,q)).isSome)
    have hq : q = id/32^(l+1+1) := congrArg Prod.snd hpath
    rw [hpath,hon l r' (hpath ▸ hr')] at hr
    cases hr
    rw [← hl.full l q r' hr' m hm hkid]
    refine update_of_ne (fun heq => hkid ?_) _ _
    rw [heq,hq,slot_over]
    rfl
  rw [hoff _ hpath] at hr
  exact hl.full l q r hr m hm hkid

lemma cleared_counted {item item' : Nat → Bool} (hc : Counted 32 Layer.count item extra t)
    (hitem : ∀ i, item' i = item i) : Counted 32 Layer.count item' extra (cleared t id l) := by
  refine hc.congr ?_ hitem
  intro y
  rw [cleared]
  split
  · rw [Option.map_map]
    rfl
  · rfl

section Erase

variable (ht : Tree t h (some (l,q))) (hx : t (l,q) = some p) (hcount : p.count = 1)

include ht hx hcount

lemma Tree.vacant : (∀ m < 32, kid 32 t (used t) (l,q) m = false) ∧ p.full = false := by
  have hzero : tally (kid 32 t (used t) (l,q)) 32 = 0 := by
    have := ht.counted _ p hx
    rw [hcount,if_pos rfl] at this
    omega
  have hkids := tally_eq_zero.mp hzero
  refine ⟨hkids,?_⟩
  refine full_eq_false (m := 0) (by decide) ?_
  rcases l with _ | l
  · have hused := hkids 0 (by decide)
    rw [kid,add_zero,used,entry_of_leaf (p := p) (by rw [Nat.mul_div_cancel_left _ (by decide)]; exact hx),
      Bool.or_eq_false_iff,Nat.mul_mod_right] at hused
    exact hused.1
  have hmissing := hkids 0 (by decide)
  rw [kid,isSome_eq_false_iff,isNone_iff_eq_none] at hmissing
  rw [ht.full l q p hx 0 (by decide),fullAt_none hmissing]

lemma Tree.erase_entry : entry (update t (l,q) none) = entry t := by
  obtain ⟨hkids,-⟩ := ht.vacant hx hcount
  funext i
  by_cases hi : (0,i/32) = (l,q)
  · have hl : 0 = l := congrArg Prod.fst hi
    have hq : i/32 = q := congrArg Prod.snd hi
    subst hl
    have hused := hkids (i%32) (Nat.mod_lt _ (by decide))
    rw [kid,← hq,Nat.div_add_mod,used,Bool.or_eq_false_iff] at hused
    rw [entry_of_missing (by rw [hi,update_self])]
    refine (Prod.ext hused.1 ?_).symm
    simpa using hused.2
  · exact entry_congr (update_of_ne hi _ _)

lemma Tree.erase_shape : Shape 32 (update t (l,q) none) h := by
  obtain ⟨hkids,-⟩ := ht.vacant hx hcount
  refine ht.shape.erase ?_
  intro l' hl m hm
  subst hl
  have := hkids m hm
  rw [kid,isSome_eq_false_iff,isNone_iff_eq_none] at this
  exact this

lemma Tree.erase (hl : l+1 < h) : Tree (update t (l,q) none) h (some (l+1,q/32)) := by
  obtain ⟨-,hfull⟩ := ht.vacant hx hcount
  have hold : ∀ y r, update t (l,q) none y = some r → t y = some r := by
    intro y r hr
    rw [update_apply] at hr
    split at hr
    · cases hr
    · exact hr
  have hfullAt : ∀ y, fullAt (update t (l,q) none) y = fullAt t y := by
    intro y
    by_cases hy : y = (l,q)
    · rw [hy,fullAt_some hx,hfull,fullAt_none (update_self ..)]
    · exact fullAt_congr (update_of_ne hy _ _)
  refine ⟨?_,ht.erase_shape hx hcount,?_,?_,?_⟩
  · intro hpos
    rw [update_of_ne fun heq => by
      have : h-1 = l := congrArg Prod.fst heq
      omega]
    exact ht.present hpos
  · intro l' q' r hr
    exact ht.number l' q' r (hold _ r hr)
  · intro l' q' r hr m hm
    rw [hfullAt]
    exact ht.full l' q' r (hold _ r hr) m hm
  rw [used_congr (ht.erase_entry hx hcount)]
  exact ht.counted.erase (by decide) (by rw [hx]; rfl)

end Erase

lemma Tree.settle {x : Name} (ht : Tree t h (some x)) (hx : t x = some p) :
    Tree (update t x (some {p with count := p.count - 1})) h none ∧
      entry (update t x (some {p with count := p.count - 1})) = entry t := by
  have hentry : entry (update t x (some {p with count := p.count - 1})) = entry t := by
    funext i
    by_cases hi : (0,i/32) = x
    · have hold : entry t i = (p.bitmap (i%32),p.ary (i%32)) := entry_of_leaf (hi ▸ hx)
      rw [hold]
      exact entry_of_leaf (p := {p with count := p.count - 1}) (by rw [hi,update_self])
    · exact entry_congr (update_of_ne hi _ _)
  refine ⟨ht.retouch hx rfl rfl ?_,hentry⟩
  rw [used_congr hentry]
  exact ht.counted.settle hx rfl fun _ => rfl

def upward (id l h : Nat) : List Name := (List.range (h-l)).map fun k => cover 32 (l+k) id

lemma upward_cons (hl : l < h) : upward id l h = cover 32 l id::upward id (l+1) h := by
  rw [upward,upward,show h-l = (h-(l+1))+1 by omega,range_succ_eq_map,map_cons, List.map_map]
  congr 1
  refine map_congr_left fun k _ => ?_
  show cover 32 (l+(k+1)) id = cover 32 (l+1+k) id
  rw [show l+(k+1) = l+1+k by omega]

structure Holding (e : Nat → Bool × Option α) (s : Idr α) : Prop where
  sound : Sound s
  entry : entry s.layer = e

/-- Counts go down and empty layers are freed up to the top. -/
theorem release_spec (id : Nat) (hlayers : s.layers ≤ 6) (htop : s.top = some (s.layers-1))
    (ht : Tree s.layer s.layers (some (cover 32 l id))) (hx : (s.layer (cover 32 l id)).isSome)
    (hl : l < s.layers) : ∃ s', release s (upward id l s.layers) = some s' ∧ Holding (entry s.layer) s' := by
  generalize hd : s.layers-l = d
  induction d generalizing s l with
  | zero => omega
  | succ d ih =>
    obtain ⟨p,hp⟩ := isSome_iff_exists.mp hx
    rw [upward_cons hl,release,hp,bind_some]
    split
    · next hcount =>
      have hone : p.count = 1 := by omega
      have hentry := ht.erase_entry hp hone
      by_cases hlast : l+1 = s.layers
      · have hempty : ∀ y, update s.layer (cover 32 l id) none y = none := by
          have hq : cover 32 l id = (s.layers-1,0) := by
            have hbound := ht.shape.eq_top (q := id/32^(l+1)) (by
              rw [show s.layers-1 = l by omega,← cover,hp]
              rfl)
            rw [cover,hbound,show s.layers-1 = l by omega]
          refine (ht.erase_shape hp hone).empty_of_top ?_
          rw [← hq]
          exact update_self ..
        rw [← hlast,upward,Nat.sub_self]
        refine ⟨_,rfl,⟨Nat.zero_le _,rfl,?_⟩,hentry⟩
        refine ⟨fun hpos => absurd hpos (Nat.lt_irrefl 0),⟨?_,?_⟩,?_,?_,?_⟩
        · intro l' q' hsome
          rw [put_layer,hempty] at hsome
          cases hsome
        · intro l' q' hsome
          rw [put_layer,hempty] at hsome
          cases hsome
        · intro l' q' r hr
          rw [put_layer,hempty] at hr
          cases hr
        · intro l' q' r hr
          rw [put_layer,hempty] at hr
          cases hr
        intro y r hr
        rw [put_layer,hempty] at hr
        cases hr
      have hover : cover 32 (l+1) id = (l+1,id/32^(l+1)/32) := by rw [cover,div_pow_succ]
      have htree := ht.erase hp hone (by omega)
      rw [← hover,← cover] at htree
      have hup : (update s.layer (cover 32 l id) none (cover 32 (l+1) id)).isSome := by
        rw [update_of_ne (by simp [cover])]
        exact ht.shape.isSome_over hx (by omega) (by omega)
      obtain ⟨s',hs',hsound,hentry'⟩ := ih (s := s.put (cover 32 l id) none) (l := l+1) hlayers htop
        htree hup (by rw [put_layers]; omega) (by rw [put_layers]; omega)
      exact ⟨s',hs',hsound,hentry'.trans hentry⟩
    next hcount =>
    obtain ⟨htree,hentry⟩ := ht.settle hp
    exact ⟨_,rfl,⟨hlayers,by rw [put_top,put_layers,htop,if_neg (by omega)],htree⟩,hentry⟩

/-- The way down to an id that is not taken changes nothing. -/
theorem clearDown_free (paa : List Name) (ht : Tree s.layer s.layers none) (hfree : taken s.layer id = false)
    (hl : l < s.layers) : ∃ r paa', clearDown s id l (cover 32 l id) paa = (s,r,paa') ∧
      ∀ x, r = some x → x = cover 32 0 id ∧ (s.layer x).isSome := by
  induction l generalizing paa with
  | zero =>
    rw [clearDown]
    refine ⟨_,_,rfl,?_⟩
    intro x hx
    split at hx
    · rename_i hsome
      cases hx
      exact ⟨rfl,hsome⟩
    · cases hx
  | succ l ih =>
    rcases hx : s.layer (cover 32 (l+1) id) with _ | p
    · rw [clearDown,hx]
      exact ⟨none,_,rfl,fun x hx => by cases hx⟩
    rw [clearDown,hx]
    dsimp only
    rw [slot_eq,below_over]
    have hbit : p.bitmap (id/32^(l+1)%32) = false := by
      have hfull := ht.full l _ p hx _ (Nat.mod_lt _ (by decide) : id/32^(l+1)%32 < 32)
      rw [slot_over] at hfull
      rw [hfull,← Bool.not_eq_true]
      intro hset
      rw [ht.taken_of_full hset rfl] at hfree
      cases hfree
    have hsame : s.put (cover 32 (l+1) id) (some (p.clearBit (id/32^(l+1)%32))) = s := by
      have hp : p.clearBit (id/32^(l+1)%32) = p := by
        rw [Layer.clearBit,← hbit,update_eq_self]
      rw [hp,put,← hx,update_eq_self]
    rw [hsame]
    exact ih _ (by omega)

lemma subRemove_free (hs : Sound s) (hfree : taken s.layer id = false) (hid : id < 32^s.layers) :
    subRemove s id = some s := by
  rw [subRemove,hs.top]
  by_cases hzero : s.layers = 0
  · rw [if_pos hzero]
  rw [if_neg hzero]
  dsimp only
  obtain ⟨r,paa',hdown,hr⟩ := clearDown_free [(s.layers-1,0)] hs.tree hfree (by omega : s.layers-1 < s.layers)
  rw [← over_top hid (by omega)] at hdown ⊢
  rw [hdown]
  rcases r with _ | x
  · rfl
  obtain ⟨rfl,hsome⟩ := hr x rfl
  obtain ⟨p,hp⟩ := isSome_iff_exists.mp hsome
  dsimp only
  rw [hp,bind_some,Bitmap.and_31,if_neg]
  rw [taken,entry_of_leaf hp] at hfree
  rw [Bool.not_eq_true]
  exact hfree

lemma leaf_of_taken (htaken : taken s.layer id = true) : (s.layer (0,id/32)).isSome := by
  rw [isSome_iff_ne_none]
  intro hnone
  rw [taken,entry_of_missing hnone] at htaken
  cases htaken

/-- An id whose bit is set is taken out, and the bits above it are right afterwards. -/
theorem subRemove_taken (hlayers : s.layers ≤ 6) (htop : s.top = some (s.layers-1)) (hpos : 0 < s.layers)
    (hl : Loose s.layer s.layers id) (hc : Counted 32 Layer.count (used s.layer) none s.layer)
    (hid : id < 32^s.layers) (htaken : taken s.layer id = true) :
    ∃ s', subRemove s id = some s' ∧ Holding (update (entry s.layer) id (false,none)) s' := by
  have hover := over_top hid hpos
  have hleaf := leaf_of_taken htaken
  obtain ⟨p,hp⟩ := isSome_iff_exists.mp hleaf
  have hbit : p.bitmap (id%32) = true := by
    rw [taken,entry_of_leaf hp] at htaken
    exact htaken
  have hdown := clearDown_spec id [cover 32 (s.layers-1) id] (l := s.layers-1) hl.shape
    (by rw [over_zero]; exact hleaf) (by omega)
  have hlist : (List.range (s.layers-1)).map (fun k => cover 32 k id)++[cover 32 (s.layers-1) id] =
      upward id 0 s.layers := by
    rw [upward,Nat.sub_zero]
    conv => rhs; rw [show s.layers = s.layers-1+1 by omega]
    rw [range_succ,map_append]
    simp
  rw [hlist] at hdown
  rw [subRemove,htop]
  dsimp only
  rw [← hover,hdown]
  dsimp only
  rw [over_zero,cleared_leaf,hp,bind_some,Bitmap.and_31,if_pos hbit]
  generalize hp' : ({p.clearBit (id%32) with ary := update p.ary (id%32) none} : Layer α) = p'
  have hbitmap : p'.bitmap = update p.bitmap (id%32) false := by
    rw [← hp']
    rfl
  have hary : p'.ary = update p.ary (id%32) none := by
    rw [← hp']
  have hentry : entry (update (cleared s.layer id (s.layers-1)) (0,id/32) (some p')) =
      update (entry s.layer) id (false,none) := by
    rw [entry_setLeaf (t := cleared s.layer id (s.layers-1)) (by rw [cleared_leaf,hp]),hbitmap,hary,update_self,
      update_self,show entry (cleared s.layer id (s.layers-1)) = entry s.layer from funext fun i =>
        entry_congr (cleared_leaf _)]
    · intro m _ hne
      rw [hbitmap,update_of_ne hne]
    intro m _ hne
    rw [hary,update_of_ne hne]
  have hcounted : Counted 32 Layer.count (used (update (cleared s.layer id (s.layers-1)) (0,id/32) (some p')))
      (some (0,id/32)) (update (cleared s.layer id (s.layers-1)) (0,id/32) (some p')) := by
    have hdm : 32*(id/32)+id%32 = id := Nat.div_add_mod id 32
    refine (cleared_counted hc fun _ => rfl).removeItem (m := id%32) (p := p) (by rw [cleared_leaf,hp])
      (Nat.mod_lt _ (by decide)) ?_ ?_ ?_ ?_
    · rw [hdm,used,entry_of_leaf hp,hbit]
      rfl
    · rw [← hp']
      rfl
    · rw [hdm,used,hentry,update_self]
      rfl
    intro i hi
    rw [hdm] at hi
    rw [used,used,hentry,update_of_ne hi]
  have htree := hl.clear p' hp (by rw [hbitmap,update_self]) (by rw [← hp']; rfl) hcounted
  obtain ⟨s',hs',hsound,hentry'⟩ := release_spec (l := 0) id
    (s := ({s with layer := cleared s.layer id (s.layers - 1)} : Idr α).put (0,id/32) (some p'))
    hlayers htop (by rw [over_zero]; exact htree) (by rw [over_zero,put_layer,update_self]; rfl) hpos
  exact ⟨s',hs',hsound,hentry'.trans hentry⟩

/-- A top with only its first child is dropped. -/
theorem Tree.lower (ht : Tree t (h+2) none) (hx : t (h+1,0) = some p) (hcount : p.count = 1)
    (hkid : (t (h,0)).isSome) : Tree (update t (h+1,0) none) (h+1) none ∧
      entry (update t (h+1,0) none) = entry t := by
  have hone : tally (kid 32 t (used t) (h+1,0)) 32 = 1 := by
    have := ht.counted _ p hx
    rw [hcount,if_neg (by simp)] at this
    omega
  have honly : ∀ m < 32, (t (h,m)).isSome → m = 0 := by
    intro m hm hsome
    refine eq_of_tally_eq_one hone hm (by decide) ?_ ?_
    · rw [kid,Nat.mul_zero,Nat.zero_add]
      exact hsome
    · exact hkid
  have hold : ∀ y r, update t (h+1,0) none y = some r → t y = some r := by
    intro y r hr
    rw [update_apply] at hr
    split at hr
    · cases hr
    · exact hr
  have hentry : entry (update t (h+1,0) none) = entry t := by
    funext i
    exact entry_congr (update_of_ne (by simp) _ _)
  have hshape := ht.shape.lower honly
  refine ⟨⟨?_,hshape,?_,?_,?_⟩,hentry⟩
  · intro _
    rw [Nat.add_sub_cancel,update_of_ne (by simp)]
    exact hkid
  · intro l q r hr
    exact ht.number l q r (hold _ r hr)
  · intro l q r hr m hm
    have hlt := (hshape.bound _ _ (by rw [hr]; rfl : (update t (h+1,0) none (l+1,q)).isSome)).1
    rw [fullAt_congr (t := t) (update_of_ne (fun heq => by
      have : l = h+1 := congrArg Prod.fst heq
      omega) _ _)]
    exact ht.full l q r (hold _ r hr) m hm
  rw [used_congr hentry]
  exact ht.counted.dropTop ht.shape

lemma shrink_spec (hs : Sound s) : ∃ s', shrink s = some s' ∧ Holding (entry s.layer) s' := by
  rw [shrink,hs.top]
  by_cases hzero : s.layers = 0
  · rw [if_pos hzero]
    exact ⟨s,rfl,hs,rfl⟩
  rw [if_neg hzero]
  dsimp only
  obtain ⟨p,hp⟩ := isSome_iff_exists.mp (hs.tree.present (by omega))
  rw [hp,map_some]
  split
  · rename_i hcond
    obtain ⟨hcount,hmany,hkid⟩ := hcond
    obtain ⟨h,hh⟩ : ∃ h, s.layers = h+2 := ⟨s.layers-2,by omega⟩
    have htree := hs.tree
    have hlayers := hs.layers_le
    rw [hh] at htree hp hkid
    obtain ⟨hlow,hentry⟩ := htree.lower hp hcount (by simpa [below] using hkid)
    have hsub : h+2-1 = h+1 := by omega
    refine ⟨_,rfl,⟨?_,?_,?_⟩,?_⟩
    · show s.layers-1 ≤ 6
      omega
    · show some (s.layers-1-1) = if s.layers-1 = 0 then none else some (s.layers-1-1)
      rw [if_neg (by omega)]
    · show Tree (update s.layer (s.layers-1,0) none) (s.layers-1) none
      rw [hh,hsub]
      exact hlow
    show entry (update s.layer (s.layers-1,0) none) = entry s.layer
    rw [hh,hsub]
    exact hentry
  · exact ⟨s,rfl,hs,rfl⟩

lemma Sound.free (hs : Sound s) (n : Nat) : Sound {s with idFree := n} := ⟨hs.layers_le,hs.top,hs.tree⟩

lemma lt_of_taken (hs : Sound s) (htaken : taken s.layer id = true) : 0 < s.layers ∧ id < 32^s.layers := by
  have hleaf := leaf_of_taken htaken
  obtain ⟨hpos,hlt⟩ := hs.tree.shape.bound _ _ hleaf
  refine ⟨hpos,?_⟩
  rw [Nat.sub_zero,Nat.div_lt_iff_lt_mul (by decide),← pow_succ, show s.layers-1+1 = s.layers by omega] at hlt
  exact hlt

/-- `idr_remove` gives up an id that is taken, and changes nothing for one that is not, but that the
layers reach. -/
theorem remove_spec (hs : Sound s) (hc : Clean s.layer) (hreach : taken s.layer id = true ∨ id < 32^s.layers) :
    ∃ s', remove s id = some s' ∧ Holding (update (entry s.layer) id (false,none)) s' := by
  have hcap := Nat.pow_le_pow_right (show 0 < 32 by decide) hs.layers_le
  cases htaken : taken s.layer id with
  | true =>
    obtain ⟨hpos,hid⟩ := lt_of_taken hs htaken
    have htop : s.top = some (s.layers-1) := by rw [hs.top,if_neg (by omega)]
    obtain ⟨s1,hsub,hs1,hentry1⟩ :=
      subRemove_taken hs.layers_le htop hpos (hs.tree.loose id) hs.tree.counted hid htaken
    obtain ⟨s2,hshrink,hs2,hentry2⟩ := shrink_spec hs1
    rw [remove,mask_eq (by omega),hsub,bind_some,hshrink]
    exact ⟨_,rfl,hs2.free _,hentry2.trans hentry1⟩
  | false =>
    have hid : id < 32^s.layers := by
      rcases hreach with h | h
      · rw [htaken] at h
        cases h
      · exact h
    obtain ⟨s1,hshrink,hs1,hentry1⟩ := shrink_spec hs
    rw [remove,mask_eq (by omega),subRemove_free hs htaken hid,bind_some,hshrink]
    refine ⟨_,rfl,hs1.free _,?_⟩
    have hsame : entry s.layer id = (false,none) := Prod.ext htaken (hc id htaken)
    rw [hentry1,← hsame,update_eq_self]

end LinuxToradex.Idr

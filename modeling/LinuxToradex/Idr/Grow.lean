import LinuxToradex.Idr.Search

/-! `idr_get_empty_slot` adds layers above the top of an idr until the id it looks for fits, and takes them
away again when the memory for one of them is missing. -/
namespace LinuxToradex.Idr
open Option Function Nat Prod

open LevelTree BitRow

variable {α : Type} {t t' : Name → Option (Layer α)} {h l q i m n start id : Nat} {p p' : Layer α}
  {s s' : Idr α} {pa : Nat → Option Name}

namespace Tree

def topOver (h : Nat) (p : Layer α) : Layer α :=
  {Layer.fresh h with count := 1, bitmap := update (fun _ => false) 0 p.full}

lemma raise_entry : entry (update t (h+1,0) (some p)) = entry t := by
  funext i
  exact entry_congr (update_of_ne (by simp) _ _)

lemma raise (ht : Tree t (h+1) none) (hx : t (h,0) = some p) :
    Tree (update t (h+1,0) (some (topOver (h+1) p))) (h+2) none where
  present _ := by
    rw [show h+2-1 = h+1 by omega,update_self]
    rfl
  shape := ht.shape.raise (by decide)
  number l q r hr := by
    rw [update_apply] at hr
    split at hr
    · rename_i heq
      cases hr
      exact (congrArg fst heq).symm
    · exact ht.number l q r hr
  full l q r hr m hm := by
    have hfull : l ≤ h → fullAt (update t (h+1,0) (some (topOver (h+1) p))) (l,32*q+m) = fullAt t (l,32*q+m) := by
      intro hl
      refine fullAt_congr (update_of_ne ?_ _ _)
      intro heq
      have : l = h+1 := congrArg fst heq
      omega
    rw [update_apply] at hr
    split at hr
    · rename_i heq
      cases heq
      cases hr
      rw [hfull (Nat.le_refl h),Nat.mul_zero,Nat.zero_add]
      by_cases hzero : m = 0
      · rw [hzero,fullAt_some hx]
        rfl
      rw [fullAt_none]
      · show update (fun _ => false) 0 p.full m = false
        rw [update_of_ne hzero]
      · by_contra hne
        have := ht.shape.eq_top (isSome_iff_ne_none.mpr hne)
        omega
    · have := ht.lt_of_some hr
      rw [hfull (by omega)]
      exact ht.full l q r hr m hm
  counted := by
    rw [used_congr raise_entry]
    exact ht.counted.raise ht.shape (by decide) (by rw [hx]; rfl) rfl

/-- A top that counts nothing is alone. -/
theorem lone (ht : Tree t (h+1) none) (hx : t (h,0) = some p) (hcount : p.count = 0) :
    (∀ y ≠ (h,0), t y = none) ∧ (∀ m < 32, p.bitmap m = false) ∧ ∀ i, entry t i = (false,none) := by
  have hzero : tally (kid 32 t (used t) (h,0)) 32 = 0 := by
    have := ht.counted _ p hx
    omega
  have hkids := tally_eq_zero.mp hzero
  have honly : ∀ y ≠ (h,0), t y = none := by
    rintro ⟨l,q⟩ hy
    by_contra hne
    have hsome : (t (l,q)).isSome := isSome_iff_ne_none.mpr hne
    have hl := (ht.shape.bound l q hsome).1
    by_cases hlh : l = h
    · subst hlh
      exact hy (by rw [ht.shape.eq_top hsome])
    obtain ⟨d,rfl⟩ := Nat.exists_eq_add_of_lt (by omega : l < h)
    have hpath := ht.shape.path hsome d (by omega)
    have hlt := (ht.shape.bound _ _ hpath).2
    rw [show l+d+1+1-1-(l+d) = 1 by omega,pow_one] at hlt
    have hkid := hkids _ hlt
    rw [kid,Nat.mul_zero,Nat.zero_add,hpath] at hkid
    cases hkid
  rcases h with _ | h
  · have hentry : ∀ i, entry t i = (false,none) := by
      intro i
      by_cases hi : i/32 = 0
      · have hused := hkids (i%32) (mod_lt _ (by decide))
        have hmod : 32*0+i%32 = i := by omega
        rw [kid,hmod,used,Bool.or_eq_false_iff] at hused
        refine Prod.ext hused.1 ?_
        simpa using hused.2
      · exact entry_of_missing (honly _ fun heq => hi (congrArg snd heq))
    refine ⟨honly,?_,hentry⟩
    intro m hm
    have hm0 : m/32 = 0 := by omega
    have := hentry m
    rw [entry_of_leaf (by rw [hm0]; exact hx),mod_eq_of_lt hm] at this
    exact congrArg fst this
  refine ⟨honly,?_,?_⟩
  · intro m hm
    rw [ht.full h 0 p hx m hm,fullAt_none (honly _ (by simp))]
  intro i
  exact entry_of_missing (honly _ (by simp))

def moved (t : Name → Option (Layer α)) (h : Nat) (p : Layer α) : Name → Option (Layer α) :=
  update (update t (h,0) none) (h+1,0) (some {p with layer := p.layer+1})

lemma moved_spec (ht : Tree t (h+1) none) (hx : t (h,0) = some p) (hcount : p.count = 0) :
    Tree (moved t h p) (h+2) none ∧ entry (moved t h p) = entry t := by
  obtain ⟨honly,hbits,hentry⟩ := ht.lone hx hcount
  have hrest : ∀ y ≠ (h+1,0), moved t h p y = none := by
    intro y hy
    rw [moved,update_of_ne hy,update_apply]
    split
    · rfl
    rename_i hne
    exact honly y hne
  have htop : moved t h p (h+1,0) = some {p with layer := p.layer+1} := by
    rw [moved,update_self]
  have hempty : ∀ i, entry (moved t h p) i = (false,none) :=
    fun i => entry_of_missing (hrest _ (by simp))
  have heq : entry (moved t h p) = entry t := by
    funext i
    rw [hempty,hentry]
  have hcase : ∀ y r, moved t h p y = some r → y = (h+1,0) ∧ r = {p with layer := p.layer+1} := by
    intro y r hr
    by_cases hy : y = (h+1,0)
    · rw [hy,htop] at hr
      exact ⟨hy,(some.inj hr).symm⟩
    rw [hrest y hy] at hr
    cases hr
  refine ⟨⟨?_,?_,?_,?_,?_⟩,heq⟩
  · intro _
    rw [show h+2-1 = h+1 by omega,htop]
    rfl
  · refine (ht.shape.erase ?_).raise (by decide)
    intro l' _ m _
    exact honly _ fun heq => by
      have : l' = h := congrArg fst heq
      omega
  · intro l q r hr
    obtain ⟨hy,rfl⟩ := hcase _ r hr
    have hl : l = h+1 := congrArg fst hy
    rw [hl]
    exact congrArg (· + 1) (ht.number _ _ _ hx)
  · intro l q r hr m hm
    obtain ⟨hy,rfl⟩ := hcase _ r hr
    have hl : l+1 = h+1 := congrArg fst hy
    rw [fullAt_none (hrest _ fun heq => by
      have : l = h+1 := congrArg fst heq
      omega)]
    exact hbits m hm
  refine Counted.single hrest ?_ ?_
  · intro r hr
    rw [htop] at hr
    cases hr
    exact hcount
  intro i
  rw [used,hempty]
  rfl

/-- One fresh layer. -/
theorem fresh_spec (ht : Tree t 0 none) : Tree (update t (0,0) (some (Layer.fresh 0))) 1 none ∧
      entry (update t (0,0) (some (Layer.fresh 0))) = entry t := by
  have hnone : ∀ y, t y = none := fun y => by
    by_contra hne
    have := (ht.shape.bound y.1 y.2 (isSome_iff_ne_none.mpr hne)).1
    omega
  have hrest : ∀ y ≠ (0,0), update t (0,0) (some (Layer.fresh 0)) y = none := by
    intro y hy
    rw [update_of_ne hy,hnone]
  have heq : entry (update t (0,0) (some (Layer.fresh 0))) = entry t := by
    funext i
    rw [entry_of_missing (hnone _)]
    by_cases hi : i/32 = 0
    · exact entry_of_leaf (p := Layer.fresh 0) (by rw [hi,update_self])
    · exact entry_of_missing (hrest _ fun heq => hi (congrArg snd heq))
  refine ⟨⟨?_,ht.shape.raise (by decide),?_,?_,?_⟩,heq⟩
  · intro _
    rw [update_self]
    rfl
  · intro l q r hr
    rw [update_apply] at hr
    split at hr
    · rename_i heq
      cases hr
      exact (congrArg fst heq).symm
    rw [hnone] at hr
    cases hr
  · intro l q r hr
    rw [hrest _ (by simp)] at hr
    cases hr
  refine Counted.single hrest ?_ ?_
  · intro r hr
    cases hr
    rfl
  intro i
  rw [used,heq,entry_of_missing (hnone _)]
  rfl

end Tree

lemma eq_below (habove : ∀ k q, h < k → (t (k,q)).isSome → False) : t = fun x => if x.1 ≤ h then t x else none := by
  funext x
  split
  · rfl
  rename_i hx
  by_contra hne
  exact habove x.1 x.2 (by omega) (isSome_iff_ne_none.mpr hne)

lemma update_below {v : Option (Layer α)} (hl : h < l) :
    (fun x : Name => if x.1 ≤ h then update t (l,0) v x else none) = fun x => if x.1 ≤ h then t x else none := by
  funext x
  split
  · rename_i hx
    refine update_of_ne ?_ _ _
    intro hxeq
    rw [hxeq] at hx
    omega
  · rfl

/-- What was built above the top is taken away, from layer `l` down. -/
theorem tearDown_spec (htop : s.top = some h) (hl : h ≤ l)
    (habove : ∀ k q, h < k → ((s.layer (k,q)).isSome ↔ q = 0 ∧ k ≤ l)) :
    (s.tearDown l).layer = (fun x => if x.1 ≤ h then s.layer x else none) ∧
      (s.tearDown l).top = s.top ∧ (s.tearDown l).layers = s.layers := by
  induction l generalizing s with
  | zero => exact ⟨eq_below fun k q hk hsome => by have := (habove k q hk).mp hsome; omega,rfl,rfl⟩
  | succ l ih =>
    rw [tearDown]
    by_cases heq : l+1 = h
    · rw [if_pos (.inl (by rw [htop,heq]))]
      exact ⟨eq_below fun k q hk hsome => by have := (habove k q hk).mp hsome; omega,rfl,rfl⟩
    have hthere : (s.layer (l+1,0)).isSome := (habove (l+1) 0 (by omega)).mpr ⟨rfl,le_rfl⟩
    rw [if_neg]
    · have habove' : ∀ k q, h < k → ((update s.layer (l+1,0) none (k,q)).isSome ↔ q = 0 ∧ k ≤ l) := by
        intro k q hk
        rw [isSome_update]
        split
        · rename_i hkq
          cases hkq
          simp
        rename_i hne
        rw [habove k q hk]
        constructor
        · rintro ⟨rfl,hkl⟩
          refine ⟨rfl,?_⟩
          by_contra hlt
          exact hne (by rw [show k = l+1 by omega])
        rintro ⟨rfl,hkl⟩
        exact ⟨rfl,by omega⟩
      have hrec := ih (s := {s.put (l+1,0) none with idFree := s.idFree+1}) htop (by omega) habove'
      exact ⟨hrec.1.trans (update_below (by omega)),hrec.2⟩
    rintro (htop' | hnone)
    · rw [htop] at htop'
      exact heq (some.inj htop').symm
    rw [isNone_iff_eq_none] at hnone
    rw [hnone] at hthere
    cases hthere

def Reaching (s : Idr α) (id l : Nat) (s' : Idr α) (l' : Nat) : Prop :=
  Tree s'.layer (l'+1) none ∧ entry s'.layer = entry s.layer ∧ l ≤ l' ∧ l' < 6 ∧
    (l' = 5 ∨ id < 32^(l'+1))

lemma buildUp_empty (fuel id : Nat) (ht : Tree s.layer (l+1) none) (hl : l < 6)
    (hx : s.layer (l,0) = some p) (hcount : p.count = 0) (hfuel : 6-l < fuel) :
    ∃ s' l', buildUp fuel s id l (l+1) = some (s',some (l',l'+1)) ∧ Reaching s id l s' l' := by
  induction fuel generalizing s l p with
  | zero => omega
  | succ fuel ih =>
    rw [buildUp,pow_five_mul]
    by_cases hgrow : l+1 < 6 ∧ 32^(l+1) ≤ id
    · obtain ⟨htree,hentry⟩ := ht.moved_spec hx hcount
      rw [if_pos hgrow,hx,bind_some,if_pos hcount]
      obtain ⟨s',l',hbuild,htree',hentry',hle,hlt,hreach⟩ :=
        ih (s := {(s.put (l,0) none).put (l+1,0) (some {p with layer := p.layer+1}) with
          top := if s.top = some l then some (l+1) else s.top}) (l := l+1)
          (p := {p with layer := p.layer+1}) htree (by omega) (update_self ..) hcount (by omega)
      exact ⟨s',l',hbuild,htree',hentry'.trans hentry,by omega,hlt,hreach⟩
    rw [if_neg hgrow]
    exact ⟨s,l,rfl,ht,rfl,le_refl l,hl,by omega⟩

/-- Layers are added over a top that is in use, or the idr is left as it was. -/
theorem buildUp_used (fuel id : Nat) (ht : Tree s.layer (l+1) none) (hl : l < 6) (htop : s.top = some h)
    (hle : h ≤ l) (hx : s.layer (l,0) = some p) (hcount : p.count ≠ 0)
    (habove : ∀ k q, h < k → ((s.layer (k,q)).isSome ↔ q = 0 ∧ k ≤ l)) (hfuel : 6-l < fuel) :
    (∃ s', buildUp fuel s id l (l+1) = some (s',none) ∧
      s'.layer = (fun x => if x.1 ≤ h then s.layer x else none) ∧ s'.top = s.top ∧ s'.layers = s.layers) ∨
    ∃ s' l', buildUp fuel s id l (l+1) = some (s',some (l',l'+1)) ∧ Reaching s id l s' l' := by
  induction fuel generalizing s l p with
  | zero => omega
  | succ fuel ih =>
    rw [buildUp,pow_five_mul]
    split
    · next hgrow =>
      rw [hx,bind_some,if_neg hcount]
      rw [getFromFreeList]
      by_cases hfree : s.idFree = 0
      · rw [if_pos hfree]
        exact .inl ⟨_,rfl,tearDown_spec htop hle habove⟩
      rw [if_neg hfree]
      have htree := ht.raise hx
      have habove' : ∀ k q, h < k → ((update s.layer (l+1,0) (some (Tree.topOver (l+1) p)) (k,q)).isSome ↔
            q = 0 ∧ k ≤ l+1) := by
        intro k q hk
        rw [isSome_update]
        split
        · rename_i hkq
          cases hkq
          simp
        rename_i hne
        rw [habove k q hk]
        constructor
        · rintro ⟨hq,hkl⟩
          exact ⟨hq,by omega⟩
        rintro ⟨rfl,hkl⟩
        refine ⟨rfl,?_⟩
        by_contra hlt
        exact hne (by rw [show k = l+1 by omega])
      rcases ih (s := {s with
        idFree := s.idFree-1,
        layer := update s.layer (l+1,0) (some (Tree.topOver (l+1) p))}) (l := l+1)
        htree (by omega) htop (by omega) (update_self ..) (by simp [Tree.topOver]) habove'
        (by omega) with ⟨s',hbuild,hlayer,hrest⟩ | ⟨s',l',hbuild,htree',hentry',hle',hlt,hreach⟩
      · exact .inl ⟨s',hbuild,hlayer.trans (update_below (by omega)),hrest⟩
      · exact .inr ⟨s',l',hbuild,htree',hentry'.trans Tree.raise_entry,by omega,hlt,hreach⟩
    next hgrow =>
    exact .inr ⟨s,l,rfl,ht,rfl,le_refl l,hl,by omega⟩

structure Granted (start : Nat) (s s' : Idr α) (r : Slot) : Prop where
  sound : Sound s'
  entry : entry s'.layer = entry s.layer
  answer : Answer start s' r
  final : ∀ id, r ≠ .needToGrow id

/-- The layers of a sound idr, or of one that got its first layer, are made enough for an id. -/
theorem grown_spec (id : Nat) (hs : Sound s) : s.topLayer = none ∨ ∃ s1 l, s.topLayer = some (s1,l,l+1) ∧
      ((∃ s', buildUp 8 s1 id l (l+1) = some (s',none) ∧ Sound s' ∧ entry s'.layer = entry s.layer) ∨
        ∃ s' l', buildUp 8 s1 id l (l+1) = some (s',some (l',l'+1)) ∧ Reaching s id l s' l') ∧ s.layers ≤ l+1 := by
  by_cases hzero : s.layers = 0
  · have htop : s.top = none := by rw [hs.top,if_pos hzero]
    rw [topLayer,htop]
    rw [getFromFreeList]
    by_cases hfree : s.idFree = 0
    · rw [if_pos hfree]
      exact .inl rfl
    rw [if_neg hfree]
    have htree := hs.tree
    rw [hzero] at htree
    obtain ⟨hfresh,hentry⟩ := htree.fresh_spec
    obtain ⟨s',l',hbuild,htree',hentry',hrest⟩ :=
      buildUp_empty (s := ({s with idFree := s.idFree - 1} : Idr α).put (0,0) (some (Layer.fresh 0)))
        8 id hfresh (by decide) (p := Layer.fresh 0) (by rw [put_layer,update_self]) rfl
        (by decide)
    exact .inr ⟨_,0,rfl,.inr ⟨s',l',hbuild,htree',hentry'.trans hentry,hrest⟩,by omega⟩
  obtain ⟨l,hl⟩ := exists_eq_succ_of_ne_zero hzero
  rw [succ_eq_add_one] at hl
  have htop : s.top = some l := by rw [hs.top,if_neg hzero,hl,Nat.add_sub_cancel]
  have hle := hs.layers_le
  have htree := hs.tree
  rw [hl] at htree
  obtain ⟨p,hx⟩ := isSome_iff_exists.mp (htree.present (by omega))
  refine .inr ⟨s,l,by rw [topLayer,htop,hl],?_,by omega⟩
  by_cases hcount : p.count = 0
  · exact .inr (buildUp_empty 8 id htree (by omega) hx hcount (by omega))
  have habove : ∀ k q, l < k → ((s.layer (k,q)).isSome ↔ q = 0 ∧ k ≤ l) := by
    intro k q hk
    constructor
    · intro hsome
      have := (htree.shape.bound k q hsome).1
      omega
    rintro ⟨-,hkl⟩
    omega
  rcases buildUp_used 8 id htree (by omega) htop (le_refl l) hx hcount habove (by omega) with
    ⟨s',hbuild,hlayer,htop',hlayers⟩ | hreach
  · have heq : s'.layer = s.layer := by
      rw [hlayer,← eq_below fun k q hk hsome => by have := (habove k q hk).mp hsome; omega]
    refine .inl ⟨s',hbuild,⟨?_,?_,?_⟩,by rw [heq]⟩
    · rw [hlayers]
      exact hle
    · rw [htop',hlayers]
      exact hs.top
    rw [heq,hlayers]
    exact hs.tree
  · exact .inr hreach

lemma subAlloc_spec (start : Nat) (hs : Sound s) (hid : id < 32^s.layers) (hle : start ≤ id) (hpos : 0 < s.layers)
    (hpassed : ∀ j, start ≤ j → j < id → taken s.layer j = true) :
    ∃ s' r, subAlloc s id = some (s',r) ∧ Keeps s s' ∧ Answer start s' r := by
  have hover := over_top hid hpos
  have hcap := Nat.pow_le_pow_right (show 0 < 32 by decide) hs.layers_le
  have hlayers := hs.layers_le
  have hw : Walking start s id (s.layers-1) fun _ => none :=
    ⟨hs,hid,by omega,by rw [hover]; exact hs.tree.present hpos,fun k _ _ => by omega,rfl,hle,hpassed⟩
  rw [subAlloc,hs.top,if_neg (by omega),bind_some,← hover]
  exact search_spec _ hw (by omega)

/-- `idr_get_empty_slot` finds the least free id, when there is one that layers can reach. -/
theorem getEmptySlot_spec (fuel id : Nat) {free : Nat} (hs : Sound s) (hfree : taken s.layer free = false)
    (hstart : start ≤ free) (hreach : free < 2^30) (hle : start ≤ id)
    (hpassed : ∀ j, start ≤ j → j < id → taken s.layer j = true)
    (hfuel : 6-s.layers+(if id < 32^s.layers then 1 else 0) < fuel) :
    ∃ s' r, getEmptySlot fuel s id = some (s',r) ∧ Granted start s s' r := by
  induction fuel generalizing s id with
  | zero => omega
  | succ fuel ih =>
    have hidfree : id ≤ free := by
      by_contra hlt
      rw [hpassed free hstart (by omega)] at hfree
      cases hfree
    rw [getEmptySlot]
    rcases grown_spec id hs with hnone | ⟨s1,l,htop,hbuilt,hlayers⟩
    · rw [hnone]
      exact ⟨s,_,rfl,hs,rfl,trivial,fun _ h => by cases h⟩
    rw [htop]
    dsimp only
    rcases hbuilt with ⟨s',hbuild,hs',hentry⟩ | ⟨s2,l',hbuild,htree,hentry,hll,hl6,hfit⟩
    · rw [hbuild]
      exact ⟨s',_,rfl,hs',hentry,trivial,fun _ h => by cases h⟩
    rw [hbuild,bind_some]
    dsimp only
    have hid : id < 32^(l'+1) := by
      rcases hfit with rfl | hlt
      · omega
      · exact hlt
    have hs2 : Sound {s2 with top := some l', layers := l'+1} :=
      ⟨hl6,by simp,htree⟩
    have htaken : taken s2.layer = taken s.layer := taken_congr hentry
    obtain ⟨s3,r,hsub,hk,hr⟩ := subAlloc_spec start hs2 hid hle (by simp) (by rw [htaken]; exact hpassed)
    rw [hsub,bind_some]
    have hentry3 : entry s3.layer = entry s.layer := hk.entry.trans hentry
    cases r with
    | found id' pa => exact ⟨s3,_,rfl,hk.sound,hentry3,hr,fun _ h => by cases h⟩
    | noMoreSpace => exact hr.elim
    | noMemory => exact ⟨s3,_,rfl,hk.sound,hentry3,trivial,fun _ h => by cases h⟩
    | needToGrow id' =>
      obtain ⟨rfl,hall⟩ := hr
      have hkl : s3.layers = l'+1 := hk.layers
      have hstart' : start ≤ 32^s3.layers := by
        rw [hkl]
        omega
      have hgrows : s.layers ≤ l'+1 ∧ (id < 32^s.layers ∨ s.layers < l'+1) := by
        refine ⟨by omega,?_⟩
        by_cases hlt : id < 32^s.layers
        · exact .inl hlt
        right
        by_contra hge
        have := Nat.pow_le_pow_right (show 0 < 32 by decide) (by omega : l'+1 ≤ s.layers)
        omega
      obtain ⟨s',r,hrec,hg⟩ := ih (32^s3.layers) (s := s3) hk.sound
        (by rw [taken_congr hentry3]; exact hfree) hstart' hall (by
          rw [if_neg (lt_irrefl _),hkl]
          split at hfuel <;> omega)
      exact ⟨s',r,hrec,hg.sound,hg.entry.trans hentry3,hg.answer,hg.final⟩

open LevelTree BitRow

variable {α : Type} {t t' : Name → Option (Layer α)} {h l q i m n start id : Nat} {p p' : Layer α}
  {s s' : Idr α} {pa : Nat → Option Name}

/-- A tree in which the layer `(l, q)` may have become full, without a bit for it above. -/
structure Marking (t : Name → Option (Layer α)) (h l q : Nat) : Prop where
  present : 0 < h → (t (h-1,0)).isSome
  shape : Shape 32 t h
  number : ∀ l q p, t (l,q) = some p → p.layer = l
  full : ∀ l' q' p, t (l'+1,q') = some p → ∀ m < 32, (l',32*q'+m) ≠ (l,q) →
    p.bitmap m = fullAt t (l',32*q'+m)
  counted : Counted 32 Layer.count (used t) none t
  unmarked : ∀ p, t (l+1,q/32) = some p → p.bitmap (q%32) = false

namespace Marking

lemma done (hm : Marking t h l q) (hfull : fullAt t (l,q) = false) : Tree t h none := by
  refine ⟨hm.present,hm.shape,hm.number,?_,hm.counted⟩
  intro l' q' p hx m hm32
  by_cases heq : (l',32*q'+m) = (l,q)
  · have hl : l' = l := congrArg fst heq
    have hq : 32*q'+m = q := congrArg snd heq
    have hbit := hm.unmarked p (by rw [← hl,← hq,slot_div hm32]; exact hx)
    rw [← hq,slot_mod hm32] at hbit
    rw [heq,hfull,hbit]
  · exact hm.full l' q' p hx m hm32 heq

lemma done_top (hm : Marking t h l q) (hl : l+1 = h) : Tree t h none := by
  refine ⟨hm.present,hm.shape,hm.number,?_,hm.counted⟩
  intro l' q' p hx m hm32
  refine hm.full l' q' p hx m hm32 fun heq => ?_
  have hlt := (hm.shape.bound _ _ (by rw [hx]; rfl : (t (l'+1,q')).isSome)).1
  have : l' = l := congrArg fst heq
  omega

/-- The bit above is set, and the layer it is in may have become full. -/
theorem step (hm : Marking t h l q) (hfull : fullAt t (l,q) = true) (hx : t (l+1,q/32) = some p) :
    Marking (Function.update t (l+1,q/32) (some (p.setBit (q%32)))) h (l+1) (q/32) ∧
      entry (Function.update t (l+1,q/32) (some (p.setBit (q%32)))) = entry t := by
  have hq : q%32 < 32 := mod_lt _ (by decide)
  have hentry : entry (Function.update t (l+1,q/32) (some (p.setBit (q%32)))) = entry t := by
    funext i
    exact entry_congr (update_of_ne (by simp) _ _)
  have hsome : ∀ y, (Function.update t (l+1,q/32) (some (p.setBit (q%32))) y).isSome =
      (t y).isSome := isSome_modify hx
  refine ⟨⟨?_,hm.shape.congr hsome,?_,?_,?_,?_⟩,hentry⟩
  · intro hpos
    rw [hsome]
    exact hm.present hpos
  · intro l' q' r hr
    rw [update_apply] at hr
    split at hr
    · rename_i heq
      cases hr
      exact (hm.number _ _ p hx).trans (congrArg fst heq).symm
    · exact hm.number l' q' r hr
  · intro l' q' r hr m hm32 hne
    rw [fullAt_congr (update_of_ne hne _ _)]
    rw [update_apply] at hr
    split at hr
    · rename_i heq
      cases hr
      have hl' : l'+1 = l+1 := congrArg fst heq
      have hq' : q' = q/32 := congrArg snd heq
      have hl'' : l' = l := by omega
      subst hl'' hq'
      show Function.update p.bitmap (q%32) true m = _
      rw [update_apply]
      split
      · rename_i hmq
        rw [hmq,div_add_mod,hfull]
      rename_i hmq
      refine hm.full _ _ p hx m hm32 fun heq' => hmq ?_
      have : 32*(q/32)+m = q := congrArg snd heq'
      omega
    rename_i hne'
    refine hm.full l' q' r hr m hm32 fun heq => hne' ?_
    have hl' : l' = l := congrArg fst heq
    have hq' : 32*q'+m = q := congrArg snd heq
    rw [hl',← hq',slot_div hm32]
  · rw [used_congr hentry]
    exact hm.counted.modify_same hx rfl fun _ => rfl
  intro r hr
  rw [update_of_ne (by simp)] at hr
  have hne : (l+1,32*(q/32/32)+q/32%32) ≠ (l,q) := by simp
  rw [hm.full _ _ r hr _ (mod_lt _ (by decide)) hne,div_add_mod,fullAt_some hx]
  exact full_eq_false hq (hm.unmarked p hx)

end Marking

lemma Tree.setLeaf (p' : Layer α) (ht : Tree t h none) (hx : t (0,id/32) = some p) (hfree : p.bitmap (id%32) = false)
    (hlayer : p'.layer = p.layer)
    (hcounted : Counted 32 Layer.count (used (Function.update t (0,id/32) (some p'))) none
      (Function.update t (0,id/32) (some p'))) :
    Marking (Function.update t (0,id/32) (some p')) h 0 (id/32) := by
  have hmod : id%32 < 32 := mod_lt _ (by decide)
  have hsome : ∀ y, (Function.update t (0,id/32) (some p') y).isSome = (t y).isSome := isSome_modify hx
  refine ⟨?_,ht.shape.congr hsome,?_,?_,hcounted,?_⟩
  · intro hpos
    rw [hsome]
    exact ht.present hpos
  · intro l q r hr
    rw [update_apply] at hr
    split at hr
    · rename_i heq
      cases hr
      rw [hlayer]
      exact ht.number _ _ p (heq ▸ hx)
    · exact ht.number l q r hr
  · intro l' q' r hr m hm hne
    rw [fullAt_congr (update_of_ne hne _ _)]
    exact ht.full l' q' r hr m hm
  intro r hr
  rw [ht.full _ _ r hr _ (mod_lt _ (by decide)),div_add_mod,fullAt_some hx]
  exact full_eq_false hmod hfree

structure Marked (s s' : Idr α) : Prop where
  tree : Tree s'.layer s.layers none
  layers : s'.layers = s.layers
  top : s'.top = s.top
  entry : entry s'.layer = entry s.layer

lemma markAbove_spec (fuel id : Nat) (hm : Marking s.layer s.layers l (id/32^(l+1)))
    (hl : l < s.layers) (hx : (s.layer (cover 32 l id)).isSome)
    (habove : ∀ k < s.layers, pa k = some (cover 32 k id)) (hlast : pa s.layers = none) (hfuel : s.layers-l < fuel) :
    ∃ s', markAbove fuel s pa (id/32^l) l (cover 32 l id) = some s' ∧ Marked s s' := by
  induction fuel generalizing s l with
  | zero => omega
  | succ fuel ih =>
    obtain ⟨p,hp⟩ := isSome_iff_exists.mp hx
    rw [markAbove,hp,bind_some]
    split
    · next hfull =>
      by_cases htop : l+1 = s.layers
      · rw [htop,hlast]
        exact ⟨s,rfl,hm.done_top htop,rfl,rfl,rfl⟩
      have hup : (s.layer (cover 32 (l+1) id)).isSome := hm.shape.isSome_over hx (by omega) (by omega)
      obtain ⟨r,hr⟩ := isSome_iff_exists.mp hup
      rw [habove (l+1) (by omega)]
      dsimp only
      rw [hr,bind_some]
      have hover : cover 32 (l+1) id = (l+1,id/32^(l+1)/32) := by
        rw [cover,div_pow_succ]
      have hshift : (id/32^l) >>> 5 = id/32^(l+1) := by
        rw [shiftRight_eq_div_pow]
        exact (div_pow_succ 32 id l).symm
      rw [hover] at hr
      obtain ⟨hm',hentry⟩ := hm.step (by rw [← cover,fullAt_some hp,hfull]) hr
      rw [← hover,← div_pow_succ] at hm'
      rw [hshift,Bitmap.and_31]
      obtain ⟨s',hs',htree,hlayers,htop',hentry'⟩ :=
        ih (s := s.put (cover 32 (l+1) id) (some (r.setBit (id/32^(l+1)%32)))) hm' (by
          rw [put_layers]
          omega) (by rw [put_layer,update_self]; rfl) habove hlast (by rw [put_layers]; omega)
      exact ⟨s',hs',htree,hlayers,htop',hentry'.trans hentry⟩
    next hfull =>
    rw [Bool.not_eq_true] at hfull
    exact ⟨s,rfl,hm.done (by rw [← cover,fullAt_some hp,hfull]),rfl,rfl,rfl⟩

lemma entry_setLeaf (hx : t (0,id/32) = some p) (hbitmap : ∀ m < 32, m ≠ id%32 → p'.bitmap m = p.bitmap m)
    (hary : ∀ m < 32, m ≠ id%32 → p'.ary m = p.ary m) : entry (Function.update t (0,id/32) (some p')) =
      Function.update (entry t) id (p'.bitmap (id%32),p'.ary (id%32)) := by
  funext i
  have hmod : i%32 < 32 := mod_lt _ (by decide)
  by_cases hleaf : i/32 = id/32
  · rw [entry_of_leaf (p := p') (by rw [hleaf,update_self])]
    by_cases hi : i = id
    · rw [hi,update_self]
    have hne : i%32 ≠ id%32 := by omega
    rw [update_of_ne hi,entry_of_leaf (p := p) (by rw [hleaf,hx]),hbitmap _ hmod hne, hary _ hmod hne]
  have hi : i ≠ id := fun heq => hleaf (by rw [heq])
  rw [update_of_ne hi]
  exact entry_congr (update_of_ne (fun heq => hleaf (congrArg snd heq)) _ _)

/-- `idr_mark_full` after the leaf of an id was changed: the tree is in order again. -/
theorem markFull_spec (hs : Sound s) (hp : Path s id pa) (hx : s.layer (0,id/32) = some p)
    (hfree : p.bitmap (id%32) = false) (hlayer : p'.layer = p.layer) (hcounted : Counted 32 Layer.count
      (used (Function.update s.layer (0,id/32) (some (p'.setBit (id%32))))) none
      (Function.update s.layer (0,id/32) (some (p'.setBit (id%32))))) :
    ∃ s', markFull (s.put (0,id/32) (some p')) pa id = some s' ∧ Sound s' ∧ s'.layers = s.layers ∧
      entry s'.layer = entry (Function.update s.layer (0,id/32) (some (p'.setBit (id%32)))) := by
  have hleaf : cover 32 0 id = (0,id/32) := by rw [cover,zero_add,pow_one]
  have hpos : 0 < s.layers := by
    have := hs.tree.lt_of_some hx
    omega
  have hmark := hs.tree.setLeaf (p'.setBit (id%32)) hx hfree hlayer hcounted
  have hlayers := hs.layers_le
  rw [markFull,hp.above 0 hpos,bind_some,hleaf,put_layer,update_self,bind_some,Bitmap.and_31]
  have hput : (s.put (0,id/32) (some p')).put (0,id/32) (some (p'.setBit (id%32))) =
      s.put (0,id/32) (some (p'.setBit (id%32))) := by
    rw [put,put,put,update_idem]
  rw [hput]
  obtain ⟨s',hs',htree,hlayers',htop,hentry⟩ :=
    markAbove_spec (s := s.put (0,id/32) (some (p'.setBit (id%32)))) (l := 0) 8 id
      (by rw [zero_add,pow_one]; exact hmark) hpos
      (by rw [hleaf,put_layer,update_self]; rfl) hp.above hp.last (by rw [put_layers]; omega)
  rw [pow_zero,Nat.div_one,hleaf] at hs'
  refine ⟨s',hs',⟨?_,?_,?_⟩,hlayers',hentry⟩
  · rw [hlayers']
    exact hs.layers_le
  · rw [htop,hlayers']
    exact hs.top
  rw [hlayers']
  exact htree

def Clean (t : Name → Option (Layer α)) : Prop := ∀ i, (entry t i).1 = false → (entry t i).2 = none

lemma used_of_clean (hc : Clean t) : used t = taken t := by
  funext i
  rw [used,taken]
  cases hbit : (entry t i).1 with
  | true => rfl
  | false => rw [hc i hbit]; rfl

lemma Clean.update {r : Bool × Option α} (hc : Clean t) (he : entry t' = Function.update (entry t) id r)
    (hr : r.1 = false → r.2 = none) : Clean t' := by
  intro i
  rw [he,update_apply]
  split
  · exact hr
  · exact hc i

lemma Clean.congr (hc : Clean t) (he : entry t' = entry t) : Clean t' := by
  intro i
  rw [he]
  exact hc i

/-- `idr_get_new_above` stores the pointer under the least free id, or fails and changes no entry. -/
theorem getNewAbove_spec {free : Nat} (ptr : Option α) (hs : Sound s) (hc : Clean s.layer)
    (hfree : taken s.layer free = false) (hstart : start ≤ free) (hreach : free < 2^30) :
    ∃ s' r, getNewAbove s ptr start = some (s',r) ∧ Sound s' ∧ ((∃ id, r = .ok id ∧ LeastFree s.layer start id ∧
          entry s'.layer = Function.update (entry s.layer) id (true,ptr)) ∨
        ∃ e, r = .error e ∧ entry s'.layer = entry s.layer) := by
  obtain ⟨s1,r,hslot,hs1,hentry,hanswer,hfinal⟩ := getEmptySlot_spec 8 start hs hfree hstart
    hreach (le_refl start) (fun j _ _ => by omega) (by split <;> omega)
  rw [getNewAbove,hslot,bind_some]
  cases r with
  | noMoreSpace => exact hanswer.elim
  | needToGrow id => exact absurd rfl (hfinal id)
  | noMemory => exact ⟨s1,_,rfl,hs1,.inr ⟨_,rfl,hentry⟩⟩
  | found id pa =>
    obtain ⟨⟨hle,htaken,hleast⟩,hpath⟩ := hanswer
    have hleaf : cover 32 0 id = (0,id/32) := by rw [cover,zero_add,pow_one]
    obtain ⟨p,hx⟩ := isSome_iff_exists.mp hpath.leaf
    rw [hleaf] at hx
    have hpos : 0 < s1.layers := by
      have := hs1.tree.lt_of_some hx
      omega
    have hmod : id%32 < 32 := mod_lt _ (by decide)
    have hbit : p.bitmap (id%32) = false := by
      rw [taken,entry_of_leaf hx] at htaken
      exact htaken
    dsimp only
    rw [hpath.above 0 hpos,bind_some,hleaf,hx,bind_some,Bitmap.and_31]
    generalize hp' : ({p with ary := Function.update p.ary (id%32) ptr, count := p.count+1} : Layer α) = p'
    have hbitmap : (p'.setBit (id%32)).bitmap = Function.update p.bitmap (id%32) true := by
      rw [← hp']
      rfl
    have hary : (p'.setBit (id%32)).ary = Function.update p.ary (id%32) ptr := by
      rw [← hp']
      rfl
    have hnew : entry (Function.update s1.layer (0,id/32) (some (p'.setBit (id%32)))) =
        Function.update (entry s1.layer) id (true,ptr) := by
      rw [entry_setLeaf hx,hbitmap,hary,update_self,update_self]
      · intro m _ hne
        rw [hbitmap,update_of_ne hne]
      intro m _ hne
      rw [hary,update_of_ne hne]
    have hc1 := hc.congr hentry
    have hcounted : Counted 32 Layer.count
        (used (Function.update s1.layer (0,id/32) (some (p'.setBit (id%32))))) none
        (Function.update s1.layer (0,id/32) (some (p'.setBit (id%32)))) := by
      have hid : 32*(id/32)+id%32 = id := div_add_mod id 32
      refine hs1.tree.counted.addItem (m := id%32) hx hmod ?_ ?_ ?_ ?_
      · rw [hid,used_of_clean hc1,htaken]
      · rw [← hp']
        rfl
      · rw [hid,used,hnew,update_self]
        rfl
      intro i hi
      rw [hid] at hi
      rw [used,used,hnew,update_of_ne hi]
    obtain ⟨s',hs',hsound,-,hentry'⟩ := markFull_spec hs1 hpath hx hbit (by rw [← hp']) hcounted
    rw [hs',map_some]
    rw [taken_congr hentry] at htaken hleast
    exact ⟨s',_,rfl,hsound,.inl ⟨id,rfl,⟨hle,htaken,hleast⟩,by rw [hentry',hnew,hentry]⟩⟩

end LinuxToradex.Idr

import LinuxToradex.Idr.Remove

/-! The layers reach the ids below `2 ^ 30`; where a call stays within them, an idr is the map. -/
namespace LinuxToradex.Idr
open Option Function

open LevelTree BitRow

variable {α : Type} {t : Name → Option (Layer α)} {h l n id start : Nat} {p : Layer α} {s s' : Idr α}
  {paa : List Name}

section Lookup

lemma Sound.empty (hs : Sound s) (hzero : s.layers = 0) (x : Name) : s.layer x = none := by
  by_contra hne
  have := (hs.tree.shape.bound x.1 x.2 (isSome_iff_ne_none.mpr hne)).1
  omega

lemma Tree.leaf_missing (ht : Tree t h none) (hn : n < h) (hx : t (cover 32 n id) = none) : t (0,id/32) = none := by
  by_contra hne
  have hsome := ht.shape.isSome_over (isSome_iff_ne_none.mpr hne) (Nat.zero_le n) hn
  rw [hx] at hsome
  cases hsome

lemma findFrom_spec (ht : Tree s.layer s.layers none) (hn : n < s.layers) :
    findFrom s id n (cover 32 n id) = some (entry s.layer id).2 := by
  induction n with
  | zero =>
    rw [findFrom]
    rcases hx : s.layer (cover 32 0 id) with _ | p
    · rw [entry_of_missing hx]
    dsimp only
    rw [if_neg (by rw [ht.number _ _ p hx]; simp),Bitmap.and_31]
    rw [entry_of_leaf hx]
  | succ n ih =>
    rw [findFrom]
    rcases hx : s.layer (cover 32 (n+1) id) with _ | p
    · rw [entry_of_missing (ht.leaf_missing hn hx)]
    dsimp only
    rw [if_neg (by rw [ht.number _ _ p hx]; simp),slot_eq,below_over]
    exact ih (by omega)

lemma entry_beyond (hs : Sound s) (hid : 32^s.layers ≤ id) : entry s.layer id = (false,none) := by
  refine entry_of_missing ?_
  by_contra hne
  obtain ⟨hpos,hlt⟩ := hs.tree.shape.bound _ _ (isSome_iff_ne_none.mpr hne)
  rw [Nat.sub_zero,Nat.div_lt_iff_lt_mul (by decide),← pow_succ, show s.layers-1+1 = s.layers by omega] at hlt
  omega

lemma find_spec (hs : Sound s) (hid : id < 2^31) : find s id = some (entry s.layer id).2 := by
  rw [find,hs.top,mask_eq hid]
  by_cases hzero : s.layers = 0
  · rw [if_pos hzero,entry_of_missing (hs.empty hzero _)]
  rw [if_neg hzero]
  obtain ⟨p,hp⟩ := isSome_iff_exists.mp (hs.tree.present (by omega))
  have hnum := hs.tree.number _ _ p hp
  dsimp only
  rw [hp,bind_some,pow_five_mul,hnum,show s.layers-1+1 = s.layers by omega]
  split
  · next hbig => rw [entry_beyond hs hbig]
  next hbig =>
  rw [← over_top (by omega : id < 32^s.layers) (by omega)]
  exact findFrom_spec hs.tree (by omega)

lemma leafFrom_spec (ht : Tree s.layer s.layers none) (hn : n < s.layers) :
    leafFrom s id n (cover 32 n id) = if (s.layer (0,id/32)).isSome then some (0,id/32) else none := by
  induction n with
  | zero => rw [leafFrom,over_zero]
  | succ n ih =>
    rw [leafFrom,slot_eq,below_over,ih (by omega)]
    by_cases hx : (s.layer (cover 32 (n+1) id)).isSome
    · rw [if_pos hx]
    have hleaf : ¬(s.layer (0,id/32)).isSome := by
      rw [← over_zero]
      exact fun hsome => hx (ht.shape.isSome_over hsome (Nat.zero_le (n+1)) hn)
    rw [if_neg hx,if_neg hleaf]

/-- `idr_replace` exchanges the pointer of an id that is taken, and fails for every other id. -/
theorem replace_spec (ptr : Option α) (hs : Sound s) (hid : id < 2^31) :
    ∃ s' r, replace s ptr id = some (s',r) ∧ Sound s' ∧ ((taken s.layer id = true ∧ r = .ok (entry s.layer id).2 ∧
          entry s'.layer = Function.update (entry s.layer) id (true,ptr)) ∨
        (taken s.layer id = false ∧ (∃ e, r = .error e) ∧ entry s'.layer = entry s.layer)) := by
  have hmissing : s.layer (0,id/32) = none → taken s.layer id = false := by
    intro hnone
    rw [taken,entry_of_missing hnone]
  rw [replace,hs.top]
  by_cases hzero : s.layers = 0
  · rw [if_pos hzero]
    exact ⟨s,_,rfl,hs,.inr ⟨hmissing (hs.empty hzero _),⟨_,rfl⟩,rfl⟩⟩
  rw [if_neg hzero]
  obtain ⟨p,hp⟩ := isSome_iff_exists.mp (hs.tree.present (by omega))
  have hnum := hs.tree.number _ _ p hp
  dsimp only
  rw [hp,bind_some,mask_eq hid,pow_five_mul,hnum,show s.layers-1+1 = s.layers by omega]
  split
  · next hbig => exact ⟨s,_,rfl,hs,.inr ⟨by rw [taken,entry_beyond hs hbig],⟨_,rfl⟩,rfl⟩⟩
  next hbig =>
  rw [← over_top (by omega : id < 32^s.layers) (by omega),leafFrom_spec hs.tree (by omega)]
  rcases hx : s.layer (0,id/32) with _ | r
  · exact ⟨s,_,rfl,hs,.inr ⟨hmissing hx,⟨_,rfl⟩,rfl⟩⟩
  rw [isSome_some,if_pos rfl]
  dsimp only
  rw [hx,map_some,Bitmap.and_31]
  have htaken : taken s.layer id = r.bitmap (id%32) := by rw [taken,entry_of_leaf hx]
  split
  · next hbit =>
    have hentry : entry (Function.update s.layer (0,id/32)
        (some {r with ary := Function.update r.ary (id%32) ptr})) =
        Function.update (entry s.layer) id (true,ptr) := by
      rw [entry_setLeaf hx]
      · dsimp only
        rw [hbit,update_self]
      · exact fun _ _ _ => rfl
      intro m _ hne
      exact update_of_ne hne _ _
    have hused : ∀ i, used (Function.update s.layer (0,id/32)
        (some {r with ary := Function.update r.ary (id%32) ptr})) i = used s.layer i := by
      intro i
      rw [used,used,hentry,update_apply]
      split
      · rename_i heq
        rw [heq,entry_of_leaf hx,hbit]
        rfl
      · rfl
    refine ⟨_,_,rfl,⟨hs.layers_le,hs.top,?_⟩,.inl ⟨htaken.trans hbit,?_,hentry⟩⟩
    · exact hs.tree.retouch hx rfl rfl (hs.tree.counted.modify_same hx rfl hused)
    · rw [entry_of_leaf hx]
  next hbit =>
  rw [Bool.not_eq_true] at hbit
  exact ⟨s,_,rfl,hs,.inr ⟨htaken.trans hbit,⟨_,rfl⟩,rfl⟩⟩

end Lookup

section Beyond

lemma slot_mod_pow (id : Nat) (hl : l < h) : id%32^h/32^l%32 = id/32^l%32 := by
  have hsplit : 32^h = 32^l*32^(h-l) := by
    rw [← pow_add,show l+(h-l) = h by omega]
  rw [hsplit,Nat.mod_mul_right_div_self,Nat.mod_mod_of_dvd]
  exact ⟨32^(h-l-1),by rw [← pow_succ',show h-l-1+1 = h-l by omega]⟩

lemma clearDown_mod (hl : l < h) (x : Name) : clearDown s id l x paa = clearDown s (id%32^h) l x paa := by
  induction l generalizing s x paa with
  | zero => rfl
  | succ l ih =>
    rw [clearDown,clearDown]
    cases s.layer x with
    | none => rfl
    | some p =>
      rw [slot_eq,slot_eq,slot_mod_pow id hl]
      exact ih (by omega) _

lemma subRemove_mod (hs : Sound s) : subRemove s id = subRemove s (id%32^s.layers) := by
  rw [subRemove,subRemove,hs.top]
  by_cases hzero : s.layers = 0
  · rw [if_pos hzero]
  have hleaf : id &&& 31 = id%32^s.layers &&& 31 := by
    have := slot_mod_pow id (by omega : 0 < s.layers)
    rw [pow_zero,Nat.div_one,Nat.div_one] at this
    rw [Bitmap.and_31,Bitmap.and_31,this]
  rw [if_neg hzero,hleaf]
  dsimp only
  rw [clearDown_mod (h := s.layers) (by omega)]

lemma remove_mod (hs : Sound s) (hid : id < 2^31) : remove s id = remove s (id%32^s.layers) := by
  have hle : id%32^s.layers ≤ id := Nat.mod_le _ _
  rw [remove,remove,mask_eq hid,mask_eq (by omega),subRemove_mod hs]

end Beyond

inductive Op (α : Type)
  | preGet (memory : Nat)
  | getNewAbove (ptr : Option α) (start : Nat)
  | remove (id : Nat)
  | replace (ptr : Option α) (id : Nat)
  | find (id : Nat)

inductive Reply (α : Type)
  | ready (ok : Bool)
  | new (r : Except Error Nat)
  | removed
  | old (r : Except Error (Option α))
  | pointer (ptr : Option α)

def Op.Valid : Op α → Prop
  | .preGet _ => True
  | .getNewAbove _ start => start < 2^31
  | .remove id => id < 2^31
  | .replace _ id => id < 2^31
  | .find id => id < 2^31

def step (s : Idr α) : Op α → Option (Idr α × Reply α)
  | .preGet memory => some ((s.preGet memory).1,.ready (s.preGet memory).2)
  | .getNewAbove ptr start => (s.getNewAbove ptr start).map fun r => (r.1,.new r.2)
  | .remove id => (s.remove id).map fun s => (s,.removed)
  | .replace ptr id => (s.replace ptr id).map fun r => (r.1,.old r.2)
  | .find id => (s.find id).map fun ptr => (s,.pointer ptr)

abbrev Map (α : Type) := Nat → Option (Option α)

def Map.after (M : Map α) : Op α → Reply α → Map α
  | .getNewAbove ptr _, .new (.ok id) => Function.update M id (some ptr)
  | .remove id, _ => Function.update M id none
  | .replace ptr id, .old (.ok _) => Function.update M id (some ptr)
  | _, _ => M

def Map.Right (M : Map α) : Op α → Reply α → Prop
  | .preGet _, .ready _ => True
  | .getNewAbove _ start, .new (.ok id) => start ≤ id ∧ M id = none ∧ ∀ j, start ≤ j → j < id → M j ≠ none
  | .getNewAbove _ _, .new (.error _) => True
  | .remove _, .removed => True
  | .replace _ id, .old (.ok ptr) => M id = some ptr
  | .replace _ id, .old (.error _) => M id = none
  | .find id, .pointer ptr => ptr = (M id).join
  | _, _ => False

inductive Reaches (allowed : Idr α → Map α → Op α → Prop) : Idr α → Map α → Prop
  | init : Reaches allowed Idr.init fun _ => none
  | call {s s' : Idr α} {M : Map α} {op : Op α} {r : Reply α} (hreach : Reaches allowed s M)
      (hallowed : allowed s M op) (hstep : step s op = some (s',r)) : Reaches allowed s' (M.after op r)

/-- The calls that stay within the layers: an id is free below `2 ^ 30`, and an id that is not allocated
is not taken for one that is. -/
def Within (s : Idr α) (M : Map α) (op : Op α) : Prop :=
  op.Valid ∧
    match op with
    | .getNewAbove _ start => ∃ free, start ≤ free ∧ free < 2^30 ∧ M free = none
    | .remove id => M id = none → M (id%32^s.layers) = none
    | _ => True

def contents (t : Name → Option (Layer α)) : Map α := fun id =>
  if taken t id then some (entry t id).2 else none

structure Refines (s : Idr α) (M : Map α) : Prop where
  sound : Sound s
  clean : Clean s.layer
  contents : contents s.layer = M

lemma contents_eq_none : contents t id = none ↔ taken t id = false := by
  rw [contents]
  split
  · rename_i htaken
    simp [htaken]
  rename_i htaken
  simpa using htaken

variable {t' : Name → Option (Layer α)} {r : Bool × Option α} {M : Map α}

lemma contents_congr (he : entry t' = entry t) : contents t' = contents t := by
  funext i
  rw [contents,contents,taken_congr he,he]

lemma contents_update (he : entry t' = Function.update (entry t) id r) :
    contents t' = Function.update (contents t) id (if r.1 then some r.2 else none) := by
  funext i
  rw [contents,taken,he,update_apply,update_apply]
  split <;> rfl

lemma Refines.keep (hr : Refines s M) (hs : Sound s') (he : entry s'.layer = entry s.layer) : Refines s' M :=
  ⟨hs,hr.clean.congr he,(contents_congr he).trans hr.contents⟩

lemma Refines.update (hr : Refines s M) (hs : Sound s')
    (he : entry s'.layer = Function.update (entry s.layer) id r) (hclean : r.1 = false → r.2 = none) :
    Refines s' (Function.update M id (if r.1 then some r.2 else none)) :=
  ⟨hs,hr.clean.update he hclean,(contents_update he).trans (by rw [hr.contents])⟩

lemma Refines.find (hr : Refines s M) : (entry s.layer id).2 = (M id).join := by
  rw [← hr.contents,Idr.contents]
  cases htaken : taken s.layer id with
  | true => rfl
  | false => exact hr.clean id htaken

/-- One call within the layers replies as the map has it, and leaves the map it should. -/
theorem step_refines {op : Op α} (hr : Refines s M) (hw : Within s M op) :
    ∃ s' r, step s op = some (s',r) ∧ M.Right op r ∧ Refines s' (M.after op r) := by
  obtain ⟨hvalid,hwithin⟩ := hw
  have hfree : ∀ {i}, M i = none ↔ taken s.layer i = false := by
    intro i
    rw [← hr.contents]
    exact contents_eq_none
  cases op with
  | preGet memory => exact ⟨_,_,rfl,trivial,hr.keep (hr.sound.free _) rfl⟩
  | getNewAbove ptr start =>
    obtain ⟨free,hstart,hlt,hnone⟩ := hwithin
    obtain ⟨s',r,hcall,hs',hcase⟩ := getNewAbove_spec ptr hr.sound hr.clean (hfree.mp hnone) hstart hlt
    rw [step,hcall]
    rcases hcase with ⟨id,rfl,⟨hle,htaken,hleast⟩,hentry⟩ | ⟨e,rfl,hentry⟩
    · refine ⟨s',_,rfl,⟨hle,hfree.mpr htaken,?_⟩,hr.update hs' hentry (by simp)⟩
      intro j hj hlt hnone
      have htaken' := hfree.mp hnone
      rw [hleast j hj hlt] at htaken'
      cases htaken'
    · exact ⟨s',_,rfl,trivial,hr.keep hs' hentry⟩
  | remove id =>
    have hpos : 0 < 32^s.layers := Nat.pow_pos (by decide)
    cases htaken : taken s.layer id with
    | true =>
      obtain ⟨s',hcall,hs',hentry⟩ := remove_spec hr.sound hr.clean (.inl htaken)
      rw [step,hcall]
      exact ⟨s',_,rfl,trivial,hr.update hs' hentry fun _ => rfl⟩
    | false =>
      have hnone := hwithin (hfree.mpr htaken)
      have hother := hfree.mp hnone
      obtain ⟨s',hcall,hs',hentry⟩ := remove_spec hr.sound hr.clean (.inr (Nat.mod_lt id hpos))
      rw [step,remove_mod hr.sound hvalid,hcall]
      have hsame : entry s.layer (id%32^s.layers) = (false,none) :=
        Prod.ext hother (hr.clean _ hother)
      refine ⟨s',_,rfl,trivial,?_⟩
      rw [← hsame,update_eq_self] at hentry
      have hM : M.after (.remove id) .removed = M := by
        show Function.update M id none = M
        rw [← hfree.mpr htaken,update_eq_self]
      rw [hM]
      exact hr.keep hs' hentry
  | replace ptr id =>
    obtain ⟨s',r,hcall,hs',hcase⟩ := replace_spec ptr hr.sound hvalid
    rw [step,hcall]
    rcases hcase with ⟨htaken,rfl,hentry⟩ | ⟨htaken,⟨e,rfl⟩,hentry⟩
    · refine ⟨s',_,rfl,?_,hr.update hs' hentry (by simp)⟩
      show M id = some (entry s.layer id).2
      rw [← hr.contents,contents,if_pos htaken]
    · exact ⟨s',_,rfl,hfree.mpr htaken,hr.keep hs' hentry⟩
  | find id =>
    rw [step,find_spec hr.sound hvalid]
    exact ⟨s,_,rfl,hr.find,hr⟩

lemma init_refines : Refines (Idr.init : Idr α) fun _ => none :=
  ⟨init_sound,fun _ _ => rfl,rfl⟩

lemma reaches_refines (hreach : Reaches Within s M) : Refines s M := by
  induction hreach with
  | init => exact init_refines
  | call _ hallowed hstep ih =>
    obtain ⟨s',r,hstep',-,hr⟩ := step_refines ih hallowed
    rw [hstep] at hstep'
    cases hstep'
    exact hr

/-- In a run whose calls stay within the layers an idr is a finite map: every call replies as the map
does, and every id is found with its pointer. -/
theorem idr_is_map {M : Map α} (hreach : Reaches Within s M) :
    (∀ id, M id ≠ none → id < 2^30) ∧ (∀ id < 2^31, find s id = some (M id).join) ∧
      ∀ op, Within s M op → ∃ s' r, step s op = some (s',r) ∧ M.Right op r := by
  have hr := reaches_refines hreach
  refine ⟨?_,?_,?_⟩
  · intro id hid
    have htaken : taken s.layer id = true := by
      rw [← Bool.not_eq_false]
      intro hfree
      exact hid (by rw [← hr.contents]; exact contents_eq_none.mpr hfree)
    have hlt := (lt_of_taken hr.sound htaken).2
    have hcap := Nat.pow_le_pow_right (show 0 < 32 by decide) hr.sound.layers_le
    omega
  · intro id hid
    rw [find_spec hr.sound hid,hr.find]
  intro op hop
  obtain ⟨s',r,hstep,hright,-⟩ := step_refines hr hop
  exact ⟨s',r,hstep,hright⟩

/-- Two ids are allocated, the second in a layer of its own, and the first is removed. -/
theorem idr_is_map_two_layers : ∃ (s : Idr Nat) (M : Map Nat), Reaches Within s M ∧ s.layers = 2 ∧ M 0 = none ∧
      M 40 = some (some 8) ∧ ∀ id < 2^31, find s id = some (M id).join := by
  have hpre : step (Idr.init : Idr Nat) (.preGet 14) = some ((Idr.init.preGet 14).1,.ready true) := rfl
  obtain ⟨s₁,s₂,s₃,hfirst,hsecond,hremove,hlayers⟩ : ∃ s₁ s₂ s₃,
      step (preGet (Idr.init : Idr Nat) 14).1 (.getNewAbove (some 7) 0) = some (s₁,.new (.ok 0)) ∧
      step s₁ (.getNewAbove (some 8) 40) = some (s₂,.new (.ok 40)) ∧ step s₂ (.remove 0) = some (s₃,.removed) ∧
      s₃.layers = 2 := ⟨_,_,_,rfl,rfl,rfl,rfl⟩
  have hready : Reaches Within _ _ := Reaches.init.call (by exact ⟨trivial,trivial⟩) hpre
  have hone := hready.call (by exact ⟨show 0 < 2^31 by decide,0,le_rfl,by decide,rfl⟩) hfirst
  have htwo := hone.call (by exact ⟨show 40 < 2^31 by decide,40,le_rfl,by decide,rfl⟩) hsecond
  have hthree := htwo.call (by exact ⟨show 0 < 2^31 by decide,fun h => by cases h⟩) hremove
  exact ⟨_,_,hthree,hlayers,rfl,rfl,(idr_is_map hthree).2.1⟩

/-- An id beyond the layers is taken for another one: removing id 32, which was never allocated, loses
the pointer of id 0; a pointer allocated from `2 ^ 30` on is found under id 0. -/
theorem idr_aliases : (∃ (s : Idr Nat) (M : Map Nat), Reaches (fun _ _ op => op.Valid) s M ∧ M 0 = some (some 7) ∧
      find s 0 = some none) ∧
    ∃ (s : Idr Nat) (M : Map Nat), Reaches (fun _ _ op => op.Valid) s M ∧ M (2^30) = some (some 7) ∧
      find s (2^30) = some none ∧ M 0 = none ∧ find s 0 = some (some 7) := by
  have hpre : step (Idr.init : Idr Nat) (.preGet 14) = some ((Idr.init.preGet 14).1,.ready true) := rfl
  have hready := (Reaches.init : Reaches (fun _ _ op => op.Valid) Idr.init fun _ => none).call
    (show (Op.preGet 14 : Op Nat).Valid from trivial) hpre
  refine ⟨?_,?_⟩
  · obtain ⟨s,s',hs,hs',hfind⟩ : ∃ s s', step (preGet (Idr.init : Idr Nat) 14).1 (.getNewAbove (some 7) 0) =
        some (s,.new (.ok 0)) ∧ step s (.remove 32) = some (s',.removed) ∧ find s' 0 = some none :=
      ⟨_,_,rfl,rfl,rfl⟩
    have hnew : (Op.getNewAbove (some 7) 0).Valid := (by decide : (0 : Nat) < 2^31)
    have hremove : (Op.remove 32 : Op Nat).Valid := (by decide : (32 : Nat) < 2^31)
    exact ⟨s',_,(hready.call hnew hs).call hremove hs',rfl,hfind⟩
  have hrun : (getNewAbove (preGet (Idr.init : Idr Nat) 14).1 (some 7) (2^30)).map
      (fun r => (r.2.toOption,find r.1 (2^30),find r.1 0)) =
      some (some (2^30),some none,some (some 7)) := by decide +kernel
  obtain ⟨⟨s,r⟩,hcall,heq⟩ := map_eq_some_iff.mp hrun
  simp only [Prod.mk.injEq] at heq
  obtain ⟨hr,hmissing,hfind⟩ := heq
  rcases r with e | id
  · cases hr
  have hid : id = 2^30 := some.inj hr
  subst hid
  have hnew : (Op.getNewAbove (some 7) (2^30)).Valid := (by decide : (2 : Nat)^30 < 2^31)
  have hs : step (preGet (Idr.init : Idr Nat) 14).1 (.getNewAbove (some 7) (2^30)) = some (s,.new (.ok (2^30))) := by
    rw [step,hcall]
    rfl
  refine ⟨s,_,hready.call hnew hs,?_,hmissing,?_,hfind⟩
  · show Function.update (fun _ : Nat => none) (2^30) (some (some 7)) (2^30) = some (some 7)
    rw [update_self]
  show Function.update (fun _ : Nat => none) (2^30) (some (some 7)) 0 = none
  rw [update_of_ne (by decide)]

end LinuxToradex.Idr

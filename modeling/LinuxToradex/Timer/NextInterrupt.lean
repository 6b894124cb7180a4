import LinuxToradex.Timer.Runs

/-! What `__next_timer_interrupt` returns is no later than the time any timer that is not deferrable runs at, as
long as the expiry of none is half of the range of a word in the past. -/
namespace LinuxToradex.Timer
open List Nat Function

namespace Base

def rootLoop (b : Base) : Nat → Nat → Option (Nat × UInt32)
  | 0, _ => none
  | n+1, slot =>
    match (b.vec (.tv1 slot)).find? fun t => !b.deferrable t with
    | some t => some (slot,b.expires t)
    | none => rootLoop b n ((slot+1)%256)

def slotLoop (b : Base) (l : List Nat) (r : Bool × UInt32) : Bool × UInt32 :=
  l.foldl (fun r t => if b.deferrable t then r
    else (true,if timeBefore (b.expires t) r.2 then b.expires t else r.2)) r

inductive Search where
  | ret (expires : UInt32)
  | next (found : Bool) (expires : UInt32)

def vecLoop (b : Base) (varp : Nat → Bucket) (index : Nat) : Nat → Nat → Bool × UInt32 → Search
  | 0, _, r => .next r.1 r.2
  | n+1, slot, r =>
    let r := b.slotLoop (b.vec (varp slot)) r
    if r.1 then
      if index = 0 ∨ slot < index then .next r.1 r.2 else .ret r.2
    else vecLoop b varp index n ((slot+1)%64) r

/-- `timer_jiffies` for the vector after this one: rounded up to a whole list of it. -/
def nextUnits (timerJiffies : Nat) : Nat :=
  (timerJiffies+if timerJiffies%64 ≠ 0 then 64-timerJiffies%64 else 0)%4294967296/64

lemma roundUp (x : Nat) : (if x%64 ≠ 0 then 64-x%64 else 0) = (64-x%64)%64 := by
  split_ifs <;> omega

def arrayLoop (b : Base) : List (Nat → Bucket) → Nat → Bool × UInt32 → UInt32
  | [], _, r => r.2
  | varp::rest, timerJiffies, r =>
    match b.vecLoop varp (timerJiffies%64) 64 (timerJiffies%64) r with
    | .ret expires => expires
    | .next found expires =>
      arrayLoop b rest (nextUnits timerJiffies) (found,expires)

def nextTimerInterrupt (b : Base) : UInt32 :=
  let timerJiffies := b.timerJiffies.toNat
  let index := timerJiffies%256
  let upper := b.arrayLoop [.tv2,.tv3,.tv4,.tv5]
    ((timerJiffies+if index ≠ 0 then 256-index else 0)%4294967296/256)
  match b.rootLoop 256 index with
  | some (slot,expires) => if index = 0 ∨ slot < index then upper (true,expires) else expires
  | none => upper (false,b.timerJiffies+1073741823)

end Base

def ahead (timerJiffies x : UInt32) : Int :=
  if 2147483648 ≤ (x-timerJiffies).toNat then ((x-timerJiffies).toNat : Int)-4294967296
  else (x-timerJiffies).toNat

section Order

variable {tj x y : UInt32}

lemma ahead_le_wait (tj x : UInt32) : ahead tj x ≤ wait tj x := by
  have := (x-tj).toNat_lt
  unfold ahead wait
  split_ifs <;> omega

lemma ahead_eq_of_lt (h : (x-tj).toNat < 2147483648) : ahead tj x = (x-tj).toNat := by
  unfold ahead
  rw [if_neg (by omega)]

lemma wait_eq_zero_of_neg (h : ahead tj x < 0) : wait tj x = 0 := by
  unfold ahead at h
  unfold wait
  split_ifs at h ⊢
  · rfl
  · omega

lemma ahead_due (tj e : UInt32) : ahead tj (due tj e) = wait tj e := by
  have hlt := wait_lt tj e
  rw [← due_sub] at hlt
  rw [ahead_eq_of_lt hlt,due_sub]

lemma timeBefore_iff (hlo : -2147483648 ≤ ahead tj x-ahead tj y)
    (hhi : ahead tj x-ahead tj y < 2147483648) : timeBefore x y = true ↔ ahead tj x < ahead tj y := by
  have hy := y.toNat_lt
  have hsx := sub_eq tj x
  have hsy := sub_eq tj y
  unfold timeBefore
  rw [decide_eq_true_iff,sub_eq]
  unfold ahead at *
  split_ifs at * <;> omega

end Order

namespace Base

variable {b : Base} {t : Nat}
variable {unit i timerJiffies v : Nat}

def dist (b : Base) (t : Nat) : Int := ahead b.timerJiffies (b.expires t)

/-- What the search of one list comes to, when its timers lie between now and `bound`. -/
structure Searched (b : Base) (l : List Nat) (r r' : Bool × UInt32) : Prop where
  found : r'.1 = true ↔ r.1 = true ∨ ∃ t ∈ l, b.deferrable t = false
  le : ahead b.timerJiffies r'.2 ≤ ahead b.timerJiffies r.2
  le_mem : ∀ t ∈ l, b.deferrable t = false → ahead b.timerJiffies r'.2 ≤ b.dist t
  same : r'.2 = r.2 ∨ 0 ≤ ahead b.timerJiffies r'.2
  none : (∀ t ∈ l, b.deferrable t = true) → r' = r

lemma slotLoop_spec {bound : Int} (hbound : bound ≤ 2147483648) (l : List Nat) (r : Bool × UInt32)
    (hl : ∀ t ∈ l, b.deferrable t = false → 0 ≤ b.dist t ∧ b.dist t < bound)
    (hlo : bound-2147483648 ≤ ahead b.timerJiffies r.2)
    (hhi : ahead b.timerJiffies r.2 < 2147483648) : Searched b l r (b.slotLoop l r) := by
  induction l generalizing r with
  | nil => exact ⟨by simp [slotLoop],Int.le_refl _,nofun,.inl rfl,fun _ => rfl⟩
  | cons t rest ih =>
    have hrest : ∀ u ∈ rest, b.deferrable u = false → 0 ≤ b.dist u ∧ b.dist u < bound :=
      fun u hu => hl u (mem_cons_of_mem t hu)
    have hstep : b.slotLoop (t::rest) r = b.slotLoop rest (if b.deferrable t then r
        else (true,if timeBefore (b.expires t) r.2 then b.expires t else r.2)) := rfl
    rw [hstep]
    by_cases hd : b.deferrable t = true
    · rw [if_pos hd]
      have h := ih r hrest hlo hhi
      refine ⟨?_,h.le,?_,h.same,?_⟩
      · rw [h.found]
        simp [hd]
      · intro u hu hnd
        rcases mem_cons.mp hu with rfl | hu
        · rw [hd] at hnd
          cases hnd
        · exact h.le_mem u hu hnd
      · exact fun hall => h.none fun u hu => hall u (mem_cons_of_mem t hu)
    have hnd : b.deferrable t = false := by simpa using hd
    obtain ⟨hpos,hlt⟩ := hl t mem_cons_self hnd
    rw [if_neg hd]
    have hcmp := timeBefore_iff (show -2147483648 ≤ b.dist t-ahead b.timerJiffies r.2 by omega)
      (show b.dist t-ahead b.timerJiffies r.2 < 2147483648 by omega)
    -- the smaller of the two, and what it is worth
    have hmin : ∃ z, (if timeBefore (b.expires t) r.2 then b.expires t else r.2) = z ∧
        ahead b.timerJiffies z ≤ ahead b.timerJiffies r.2 ∧ ahead b.timerJiffies z ≤ b.dist t ∧
        (z = r.2 ∨ 0 ≤ ahead b.timerJiffies z) ∧ bound-2147483648 ≤ ahead b.timerJiffies z := by
      refine ⟨_,rfl,?_⟩
      unfold dist at hpos hlt ⊢
      split
      · next hbefore =>
        have := hcmp.mp hbefore
        exact ⟨by omega,by omega,.inr hpos,by omega⟩
      next hbefore =>
      have := mt hcmp.mpr hbefore
      exact ⟨by omega,by omega,.inl rfl,by omega⟩
    obtain ⟨z,hz,hzr,hzt,hzsame,hzlo⟩ := hmin
    rw [hz]
    have h := ih (true,z) hrest hzlo (by dsimp only; omega)
    refine ⟨?_,Int.le_trans h.le hzr,?_,?_,?_⟩
    · exact iff_of_true (h.found.mpr (.inl rfl)) (.inr ⟨t,mem_cons_self,hnd⟩)
    · exact forall_mem_cons.mpr ⟨fun _ => Int.le_trans h.le hzt,h.le_mem⟩
    · rcases h.same with heq | hnonneg
      · dsimp only at heq
        rw [heq]
        exact hzsame
      · exact .inr hnonneg
    intro hall
    rw [hall t mem_cons_self] at hnd
    cases hnd

/-- The timers of a vector, by the position of their list from the index on: each position is one
unit of time, and the first begins at `start`. -/
def Level (b : Base) (varp : Nat → Bucket) (index start unit : Nat) : Prop :=
  ∀ i, ∀ t ∈ b.vec (varp i), ∃ m < 64, i = (index+m)%64 ∧ ∃ d : Nat, b.dist t = d ∧
    start+unit*m ≤ d ∧ d < start+unit*m+unit ∧ d < 2147483648

def NoneBefore (b : Base) (varp : Nat → Bucket) (x : Int) : Prop :=
  ∀ i, ∀ t ∈ b.vec (varp i), b.deferrable t = false → x ≤ b.dist t

def NoneIn (b : Base) (varp : Nat → Bucket) : Prop := ∀ i, ∀ t ∈ b.vec (varp i), b.deferrable t = true

structure Ready (b : Base) (start unit : Nat) (r : Bool × UInt32) : Prop where
  fresh : r.1 = false → 0 ≤ ahead b.timerJiffies r.2 ∧ ahead b.timerJiffies r.2 < 2147483648
  near : r.1 = true → ahead b.timerJiffies r.2 < start+unit
  past : r.1 = true → ahead b.timerJiffies r.2 < 0 →
    start = 0 ∧ -2080374784 ≤ ahead b.timerJiffies r.2

/-- What the search of one vector gives. The vector after it begins at `start`, with lists of `unit`. -/
def VecSearched (b : Base) (varp : Nat → Bucket) (start unit : Nat) (r : Bool × UInt32) : Search → Prop
  | .ret x => ahead b.timerJiffies x ≤ ahead b.timerJiffies r.2 ∧
      b.NoneBefore varp (ahead b.timerJiffies x) ∧ ahead b.timerJiffies x ≤ start ∧
      ¬(r.1 = false ∧ b.NoneIn varp)
  | .next found x => ahead b.timerJiffies x ≤ ahead b.timerJiffies r.2 ∧
      b.NoneBefore varp (ahead b.timerJiffies x) ∧ b.Ready start unit (found,x) ∧
      (r.1 = false → b.NoneIn varp → found = false ∧ x = r.2)

section Vec

variable {varp : Nat → Bucket} {index start : Nat} {r : Bool × UInt32}

def nextStart (index start unit : Nat) : Nat := start+unit*((64-index)%64)

lemma Level.at_position (h : b.Level varp index start unit) {j : Nat} (hj : j < 64)
    {t : Nat} (ht : t ∈ b.vec (varp ((index+j)%64))) :
    ∃ d : Nat, b.dist t = d ∧ start+unit*j ≤ d ∧ d < start+unit*j+unit ∧ d < 2147483648 := by
  obtain ⟨m,hm,hi,hd⟩ := h _ t ht
  have hmj : m = j := by omega
  exact hmj ▸ hd

lemma Level.split (h : b.Level varp index start unit) {t : Nat} (j : Nat) (ht : t ∈ b.vec (varp i)) :
    (∃ m < j, m < 64 ∧ i = (index+m)%64) ∨ i = (index+j)%64 ∨ ((start+unit*j+unit : Nat) : Int) ≤ b.dist t := by
  obtain ⟨m,hm,hi,d,hd,hlo,-,-⟩ := h i t ht
  rcases Nat.lt_trichotomy m j with hlt | rfl | hgt
  · exact .inl ⟨m,hlt,hm,hi⟩
  · exact .inr (.inl hi)
  right; right
  have hle : unit*(j+1) ≤ unit*m := Nat.mul_le_mul_left unit hgt
  rw [mul_succ] at hle
  rw [hd]
  omega

lemma vecLoop_found (hlevel : b.Level varp index start unit) (hready : b.Ready start unit r)
    (hindex : index < 64) (hpos : 0 < unit) (hunit : unit ≤ 67108864) (hstart : start < unit)
    (hfound : r.1 = true) (n : Nat) : b.VecSearched varp (nextStart index start unit) (64*unit) r
      (b.vecLoop varp index (n+1) index r) := by
  have hnear := hready.near hfound
  have hslot : (index+0)%64 = index := by omega
  have hfirst : ∀ t ∈ b.vec (varp index), (0 : Int) ≤ b.dist t ∧ b.dist t < start+unit ∧ b.dist t < 2147483648 := by
    intro t ht
    rw [← hslot] at ht
    obtain ⟨d,hd,hlo,hhi,hhalf⟩ := hlevel.at_position (by decide) ht
    omega
  have hsearch : Searched b (b.vec (varp index)) r (b.slotLoop (b.vec (varp index)) r) := by
    by_cases hneg : ahead b.timerJiffies r.2 < 0
    · obtain ⟨hzero,hlow⟩ := hready.past hfound hneg
      apply slotLoop_spec (show (67108864 : Int) ≤ 2147483648 by decide)
      · intro t ht _
        have := hfirst t ht
        omega
      · omega
      · omega
    apply slotLoop_spec (Int.le_refl 2147483648)
    · intro t ht _
      have := hfirst t ht
      omega
    · omega
    · omega
  have hle := hsearch.le
  have hnone : b.NoneBefore varp (ahead b.timerJiffies (b.slotLoop (b.vec (varp index)) r).2) := by
    intro i t ht hnd
    rcases hlevel.split 0 ht with ⟨m,hm,-⟩ | hi | hlate
    · exact absurd hm (Nat.not_lt_zero m)
    · rw [hslot] at hi
      exact hsearch.le_mem t (hi ▸ ht) hnd
    · omega
  unfold vecLoop
  rw [if_pos (hsearch.found.mpr (.inl hfound))]
  have hfresh : ∀ {p : Prop}, r.1 = false → p := fun h => by rw [hfound] at h; cases h
  by_cases hindex0 : index = 0
  · rw [if_pos (.inl hindex0)]
    have hsame : nextStart index start unit = start := by rw [hindex0]; simp [nextStart]
    rw [hsame]
    refine ⟨hle,hnone,⟨?_,?_,?_⟩,hfresh⟩
    · intro hf
      rw [hsearch.found.mpr (.inl hfound)] at hf
      cases hf
    · intro _
      dsimp only
      omega
    intro _ hneg
    rcases hsearch.same with heq | hnonneg
    · dsimp only at hneg ⊢
      rw [heq] at hneg ⊢
      exact hready.past hfound hneg
    dsimp only at hneg
    omega
  rw [if_neg (by omega)]
  refine ⟨hle,hnone,?_,fun h => hfresh h.1⟩
  have hmul : unit*1 ≤ unit*((64-index)%64) := Nat.mul_le_mul_left unit (by omega)
  unfold nextStart
  omega

lemma vecLoop_fresh (hlevel : b.Level varp index start unit) (hindex : index < 64) (hfresh : r.1 = false)
    (hr : 0 ≤ ahead b.timerJiffies r.2 ∧ ahead b.timerJiffies r.2 < 2147483648) (n : Nat) :
    ∀ j, j+n = 64 → (∀ m < j, ∀ t ∈ b.vec (varp ((index+m) % 64)), b.deferrable t = true) →
      b.VecSearched varp (nextStart index start unit) (64*unit) r (b.vecLoop varp index n ((index+j) % 64) r) := by
  induction n with
  | zero =>
    intro j hj hbefore
    have hall : b.NoneIn varp := by
      intro i t ht
      obtain ⟨m,hm,hi,-⟩ := hlevel i t ht
      exact hbefore m (by omega) t (hi ▸ ht)
    refine ⟨Int.le_refl _,?_,⟨fun _ => hr,?_,?_⟩,fun _ _ => ⟨hfresh,rfl⟩⟩
    · intro i t ht hnd
      rw [hall i t ht] at hnd
      cases hnd
    · intro hf
      rw [hfresh] at hf
      cases hf
    intro hf
    rw [hfresh] at hf
    cases hf
  | succ n ih =>
    intro j hj hbefore
    have hsearch : Searched b (b.vec (varp ((index+j) % 64))) r (b.slotLoop (b.vec (varp ((index+j) % 64))) r) := by
      apply slotLoop_spec (Int.le_refl 2147483648) _ _ _ (by omega) hr.2
      intro t ht _
      obtain ⟨d,hd,-,-,hhalf⟩ := hlevel.at_position (by omega) ht
      omega
    unfold vecLoop
    by_cases hex : ∃ t ∈ b.vec (varp ((index+j) % 64)), b.deferrable t = false
    · have hfound := hsearch.found.mpr (.inr hex)
      rw [if_pos hfound]
      obtain ⟨t,ht,hnd⟩ := hex
      obtain ⟨d,hd,-,hdlt,-⟩ := hlevel.at_position (by omega) ht
      have hlt := hsearch.le_mem t ht hnd
      have hle := hsearch.le
      have hsome : ¬b.NoneIn varp := fun hall => by
        rw [hall _ t ht] at hnd
        cases hnd
      have hnone : b.NoneBefore varp (ahead b.timerJiffies (b.slotLoop (b.vec (varp ((index+j) % 64))) r).2) := by
        intro i u hu hndu
        rcases hlevel.split j hu with ⟨m,hm,-,rfl⟩ | rfl | hlate
        · rw [hbefore m hm u hu] at hndu
          cases hndu
        · exact hsearch.le_mem u hu hndu
        · omega
      have hnonneg : 0 ≤ ahead b.timerJiffies (b.slotLoop (b.vec (varp ((index+j) % 64))) r).2 := by
        rcases hsearch.same with heq | hnonneg
        · rw [heq]
          exact hr.1
        · exact hnonneg
      split
      · next hwrap =>
        refine ⟨hle,hnone,⟨?_,?_,?_⟩,fun _ hall => absurd hall hsome⟩
        · intro hf
          rw [hfound] at hf
          cases hf
        · intro _
          have hmul : unit*j+unit ≤ 64*unit := by
            rw [← mul_succ,Nat.mul_comm 64]
            exact Nat.mul_le_mul_left unit (by omega)
          unfold nextStart
          dsimp only
          omega
        intro _ hneg
        dsimp only at hneg
        omega
      next hwrap =>
      refine ⟨hle,hnone,?_,fun h => hsome h.2⟩
      have hmul : unit*j+unit ≤ unit*((64-index) % 64) := by
        rw [← mul_succ]
        exact Nat.mul_le_mul_left unit (by omega)
      unfold nextStart
      omega
    have hall : ∀ t ∈ b.vec (varp ((index+j) % 64)), b.deferrable t = true := by
      intro t ht
      by_contra hnd
      exact hex ⟨t,ht,by simpa using hnd⟩
    rw [hsearch.none hall,if_neg (by rw [hfresh]; decide)]
    have hslot : ((index+j) % 64+1) % 64 = (index+(j+1)) % 64 := by omega
    rw [hslot]
    apply ih (j+1) (by omega)
    intro m hm
    rcases Nat.lt_succ_iff_lt_or_eq.mp hm with hlt | rfl
    · exact hbefore m hlt
    · exact hall

def Levels (b : Base) : List (Nat → Bucket) → Nat → Nat → Nat → Prop
  | [], _, _, _ => True
  | varp::rest, timerJiffies, start, unit =>
    b.Level varp (timerJiffies%64) start unit ∧ unit ≤ 67108864 ∧ start < unit ∧
      Levels b rest (nextUnits timerJiffies) (nextStart (timerJiffies%64) start unit) (64*unit)

lemma Levels.start_le {vecs : List (Nat → Bucket)} (h : b.Levels vecs timerJiffies start unit) :
    ∀ varp ∈ vecs, b.NoneBefore varp start := by
  induction vecs generalizing timerJiffies start unit with
  | nil => exact fun varp hv => absurd hv not_mem_nil
  | cons v rest ih =>
    obtain ⟨hlevel,-,-,hrest⟩ := h
    intro varp hv i t ht hnd
    rcases mem_cons.mp hv with rfl | hv
    · obtain ⟨m,-,-,d,hd,hlo,-⟩ := hlevel i t ht
      omega
    have := ih hrest varp hv i t ht hnd
    unfold nextStart at this
    omega

lemma arrayLoop_spec {vecs : List (Nat → Bucket)} (h : b.Levels vecs timerJiffies start unit)
    (hready : b.Ready start unit r) (hpos : 0 < unit) :
    ahead b.timerJiffies (b.arrayLoop vecs timerJiffies r) ≤ ahead b.timerJiffies r.2 ∧
    (∀ varp ∈ vecs, b.NoneBefore varp (ahead b.timerJiffies (b.arrayLoop vecs timerJiffies r))) ∧
    (r.1 = false → (∀ varp ∈ vecs, b.NoneIn varp) → b.arrayLoop vecs timerJiffies r = r.2) := by
  induction vecs generalizing timerJiffies start unit r with
  | nil => exact ⟨Int.le_refl _,fun varp hv => absurd hv not_mem_nil,fun _ _ => rfl⟩
  | cons v rest ih =>
    obtain ⟨hlevel,hunit,hstart,hrest⟩ := h
    have hindex : timerJiffies % 64 < 64 := mod_lt _ (by decide)
    have hspec : b.VecSearched v (nextStart (timerJiffies % 64) start unit) (64*unit) r
        (b.vecLoop v (timerJiffies % 64) 64 (timerJiffies % 64) r) := by
      cases hr : r.1 with
      | true => exact vecLoop_found hlevel hready hindex hpos hunit hstart hr 63
      | false =>
        have hloop := vecLoop_fresh hlevel hindex hr (hready.fresh hr) 64 0 rfl nofun
        rwa [Nat.add_zero,mod_mod] at hloop
    unfold arrayLoop
    rcases hres : b.vecLoop v (timerJiffies % 64) 64 (timerJiffies % 64) r with x | ⟨found,x⟩
    · rw [hres] at hspec
      obtain ⟨hle,hnone,hnext,hsome⟩ := hspec
      refine ⟨hle,?_,fun hf hall => absurd ⟨hf,hall v mem_cons_self⟩ hsome⟩
      refine forall_mem_cons.mpr ⟨hnone,fun varp hv i t ht hnd => ?_⟩
      exact Int.le_trans hnext (hrest.start_le varp hv i t ht hnd)
    rw [hres] at hspec
    obtain ⟨hle,hnone,hnext,hsame⟩ := hspec
    obtain ⟨hle',hnone',hsame'⟩ := ih hrest hnext (by omega)
    refine ⟨Int.le_trans hle' hle,?_,?_⟩
    · exact forall_mem_cons.mpr ⟨fun i t ht hnd => Int.le_trans hle' (hnone i t ht hnd),hnone'⟩
    intro hf hall
    obtain ⟨hfound,hx⟩ := hsame hf (hall v mem_cons_self)
    dsimp only
    rw [hsame' hfound fun varp hv => hall varp (mem_cons_of_mem v hv),hx]

end Vec

/-- The list at position `j` from the index on holds the first timer of `tv1`. -/
theorem rootLoop_spec (index : Nat) (n : Nat) : ∀ j, j+n = 256 →
    (∀ m < j, ∀ t ∈ b.vec (.tv1 ((index+m)%256)), b.deferrable t = true) →
    match b.rootLoop n ((index+j)%256) with
    | none => ∀ m < 256, ∀ t ∈ b.vec (.tv1 ((index+m)%256)), b.deferrable t = true
    | some (slot,e) => ∃ p < 256, slot = (index+p)%256 ∧
        (∀ m < p, ∀ t ∈ b.vec (.tv1 ((index+m)%256)), b.deferrable t = true) ∧
        ∃ t ∈ b.vec (.tv1 slot), b.deferrable t = false ∧ e = b.expires t := by
  induction n with
  | zero =>
    intro j hj hbefore
    rw [rootLoop]
    intro m hm
    exact hbefore m (by omega)
  | succ n ih =>
    intro j hj hbefore
    rw [rootLoop]
    cases hfind : (b.vec (.tv1 ((index+j)%256))).find? fun t => !b.deferrable t with
    | some t =>
      have hnd := find?_some hfind
      exact ⟨j,by omega,rfl,hbefore,t,mem_of_find?_eq_some hfind,by simpa using hnd,rfl⟩
    | none =>
      have hslot : ((index+j)%256+1)%256 = (index+(j+1))%256 := by omega
      rw [hslot]
      apply ih (j+1) (by omega)
      intro m hm
      rcases Nat.lt_succ_iff_lt_or_eq.mp hm with hlt | rfl
      · exact hbefore m hlt
      intro t ht
      have := find?_eq_none.mp hfind t ht
      simpa using this

end Base

section Positions

variable {tj e : UInt32}

def startOf (tj : UInt32) (unit : Nat) : Nat := (unit-tj.toNat%unit)%unit

def unitsOf (tj : UInt32) (unit : Nat) : Nat := (tj.toNat+startOf tj unit)%4294967296/unit

/-- The timer lies on the list at a position from the index on, which stands for its time. -/
def At (unit : Nat) (tj e : UInt32) (i : Nat) : Prop :=
  ∃ m < 64, i = (unitsOf tj unit%64+m)%64 ∧ startOf tj unit+unit*m ≤ (e-tj).toNat ∧
    (e-tj).toNat < startOf tj unit+unit*m+unit

def vecUnits : List Nat := [256,16384,1048576,67108864]

lemma Upper.at (hunit : unit ∈ vecUnits) (h : Upper unit tj e i) : At unit tj e i := by
  obtain ⟨hi,hle,hspan,hhalf⟩ := h
  refine ⟨((e-tj).toNat-startOf tj unit)/unit,?_⟩
  have htj := tj.toNat_lt
  rw [sub_eq] at *
  unfold unitsOf startOf
  simp only [vecUnits,mem_cons,not_mem_nil,or_false] at hunit
  rcases hunit with rfl | rfl | rfl | rfl <;> omega

def Units (unit : Nat) (tj : UInt32) (v : Nat) : Prop :=
  v ≤ 4294967296/unit ∧ v%(4294967296/unit) = unitsOf tj unit

lemma Units.index (h : Units unit tj v) (hdvd : 64 ∣ 4294967296/unit) : v%64 = unitsOf tj unit%64 := by
  rw [← h.2,mod_mod_of_dvd _ hdvd]

lemma Units.next (hunit : 64*unit ∈ vecUnits) (h : Units unit tj v) : Units (64*unit) tj (Base.nextUnits v) ∧
      Base.nextStart (v%64) (startOf tj unit) unit = startOf tj (64*unit) := by
  rw [Base.nextUnits,Base.roundUp]
  unfold Units Base.nextStart unitsOf startOf at *
  have hcases : unit = 4 ∨ unit = 256 ∨ unit = 16384 ∨ unit = 1048576 := by
    simp only [vecUnits,mem_cons,not_mem_nil,or_false] at hunit
    omega
  rcases hcases with rfl | rfl | rfl | rfl <;> omega

end Positions

variable {b : Base} {t : Nat}

/-- No timer of the wheel has an expiry so far back that it is taken for a later one. -/
def Base.RecentOnly (b : Base) : Prop :=
  ∀ t, b.OnWheel t → b.deferrable t = false → -2080374784 ≤ b.dist t

lemma Base.Inv.level (hinv : b.Inv) (varp : Nat → Bucket) (hv : Units unit b.timerJiffies v)
    (hunit : unit ∈ vecUnits) (hdvd : 64 ∣ 4294967296/unit)
    (hvarp : ∀ i e, Fits b.timerJiffies e (varp i) → Upper unit b.timerJiffies e i) :
    b.Level varp (v%64) (startOf b.timerJiffies unit) unit := by
  rw [hv.index hdvd]
  intro i t ht
  have hupper := hvarp i _ (hinv.fits _ t ht)
  obtain ⟨m,hm,hi,hlo,hhi⟩ := hupper.at hunit
  exact ⟨m,hm,hi,_,ahead_eq_of_lt hupper.2.2.2,hlo,hhi,hupper.2.2.2⟩

lemma startOf_lt (tj : UInt32) (h : 0 < unit) : startOf tj unit < unit := mod_lt _ h

lemma units_unitsOf (tj : UInt32) : Units 256 tj (unitsOf tj 256) := by
  unfold Units unitsOf
  omega

lemma Base.Inv.levels (hinv : b.Inv) : b.Levels [.tv2,.tv3,.tv4,.tv5]
    (unitsOf b.timerJiffies 256) (startOf b.timerJiffies 256) 256 := by
  have h2 := units_unitsOf b.timerJiffies
  obtain ⟨h3,hs3⟩ := h2.next (by decide)
  obtain ⟨h4,hs4⟩ := h3.next (by decide)
  obtain ⟨h5,hs5⟩ := h4.next (by decide)
  refine ⟨hinv.level .tv2 h2 (by decide) (by decide) fun _ _ h => h,by decide,startOf_lt _ (by decide),?_⟩
  rw [hs3]
  refine ⟨hinv.level .tv3 h3 (by decide) (by decide) fun _ _ h => h,by decide,startOf_lt _ (by decide),?_⟩
  rw [hs4]
  refine ⟨hinv.level .tv4 h4 (by decide) (by decide) fun _ _ h => h,by decide,startOf_lt _ (by decide),?_⟩
  rw [hs5]
  exact ⟨hinv.level .tv5 h5 (by decide) (by decide) fun _ _ h => h,by decide,startOf_lt _ (by decide),trivial⟩

lemma Base.Inv.wait_root (hinv : b.Inv) {p : Nat} (hp : p < 256)
    (ht : t ∈ b.vec (.tv1 ((b.timerJiffies.toNat%256+p)%256))) : wait b.timerJiffies (b.expires t) = p := by
  obtain ⟨hi,hlt⟩ := hinv.fits _ t ht
  omega

lemma Base.Inv.root_position (hinv : b.Inv) (ht : t ∈ b.vec (.tv1 i)) :
    ∃ p < 256, i = (b.timerJiffies.toNat%256+p)%256 := by
  obtain ⟨hi,hlt⟩ := hinv.fits _ t ht
  exact ⟨_,hlt,by omega⟩

lemma Base.nextTimerInterrupt_eq (b : Base) : b.nextTimerInterrupt =
    match b.rootLoop 256 ((b.timerJiffies.toNat%256+0)%256) with
    | some (slot,expires) =>
      if b.timerJiffies.toNat%256 = 0 ∨ slot < b.timerJiffies.toNat%256 then
        b.arrayLoop [.tv2,.tv3,.tv4,.tv5] (unitsOf b.timerJiffies 256) (true,expires)
      else expires
    | none => b.arrayLoop [.tv2,.tv3,.tv4,.tv5] (unitsOf b.timerJiffies 256)
        (false,b.timerJiffies+1073741823) := by
  have hunits : (b.timerJiffies.toNat+if b.timerJiffies.toNat%256 ≠ 0 then
      256-b.timerJiffies.toNat%256 else 0)%4294967296/256 = unitsOf b.timerJiffies 256 := by
    unfold unitsOf startOf
    split_ifs with h
    · rw [mod_eq_of_lt (show 256-b.timerJiffies.toNat%256 < 256 by omega)]
    have hzero : b.timerJiffies.toNat%256 = 0 := by simpa using h
    rw [hzero]
  rw [add_zero,mod_mod]
  unfold nextTimerInterrupt
  dsimp only
  rw [hunits]

lemma ahead_max (tj : UInt32) : ahead tj (tj+1073741823) = 1073741823 := by
  have hsub : (tj+1073741823-tj).toNat = 1073741823 := by
    rw [UInt32.add_comm,UInt32.add_sub_cancel]
    rfl
  rw [ahead_eq_of_lt (by omega),hsub]
  rfl

/-- The search finds nothing that is later than a timer of `tv1` to `tv5`. -/
theorem Base.nextTimerInterrupt_spec (hinv : b.Inv) (hrecent : b.RecentOnly) :
    (∀ t, b.OnWheel t → b.deferrable t = false →
      ahead b.timerJiffies b.nextTimerInterrupt ≤ wait b.timerJiffies (b.expires t)) ∧
    ((∀ t, b.OnWheel t → b.deferrable t = true) → b.nextTimerInterrupt = b.timerJiffies+1073741823) := by
  have hroot := rootLoop_spec (b := b) (b.timerJiffies.toNat%256) 256 0 rfl nofun
  have hlevels := hinv.levels
  rw [b.nextTimerInterrupt_eq]
  -- the bound follows from one for the upper vectors and one for the lists of `tv1`
  have hassemble : ∀ x, (∀ varp ∈ [Bucket.tv2,.tv3,.tv4,.tv5], b.NoneBefore varp x) →
      (∀ i, ∀ t ∈ b.vec (.tv1 i), b.deferrable t = false → x ≤ wait b.timerJiffies (b.expires t)) →
      ∀ t, b.OnWheel t → b.deferrable t = false → x ≤ wait b.timerJiffies (b.expires t) := by
    intro x hupper hlower t ht hnd
    obtain ⟨k,hk⟩ := ht
    have hwait := ahead_le_wait b.timerJiffies (b.expires t)
    cases k with
    | tv1 i => exact hlower i t hk hnd
    | tv2 i => exact Int.le_trans (hupper .tv2 (by simp) i t hk hnd) hwait
    | tv3 i => exact Int.le_trans (hupper .tv3 (by simp) i t hk hnd) hwait
    | tv4 i => exact Int.le_trans (hupper .tv4 (by simp) i t hk hnd) hwait
    | tv5 i => exact Int.le_trans (hupper .tv5 (by simp) i t hk hnd) hwait
  rcases hres : b.rootLoop 256 ((b.timerJiffies.toNat%256+0)%256) with _ | found
  · rw [hres] at hroot
    have hready : b.Ready (startOf b.timerJiffies 256) 256 (false,b.timerJiffies+1073741823) := by
      refine ⟨fun _ => ?_,nofun,nofun⟩
      rw [ahead_max]
      decide
    obtain ⟨-,hnone,hsame⟩ := arrayLoop_spec hlevels hready (by decide)
    refine ⟨hassemble _ hnone ?_,?_⟩
    · intro i t ht hnd
      obtain ⟨p,hp,rfl⟩ := hinv.root_position ht
      rw [hroot p hp t ht] at hnd
      cases hnd
    intro hall
    exact hsame rfl fun varp _ i t ht => hall t ⟨_,ht⟩
  obtain ⟨slot,x⟩ := found
  rw [hres] at hroot
  dsimp only at hroot ⊢
  obtain ⟨p,hp,hslot,hbefore,t0,ht0,hnd0,rfl⟩ := hroot
  have hwait0 : wait b.timerJiffies (b.expires t0) = p := hinv.wait_root hp (hslot ▸ ht0)
  have hx : ahead b.timerJiffies (b.expires t0) ≤ p := hwait0 ▸ ahead_le_wait _ _
  have hlower : ∀ i, ∀ t ∈ b.vec (.tv1 i), b.deferrable t = false →
      (p : Int) ≤ wait b.timerJiffies (b.expires t) := by
    intro i t ht hnd
    obtain ⟨q,hq,rfl⟩ := hinv.root_position ht
    rw [hinv.wait_root hq ht]
    rcases lt_or_ge q p with hlt | hge
    · rw [hbefore q hlt t ht] at hnd
      cases hnd
    · exact Int.ofNat_le.mpr hge
  refine ⟨?_,fun hall => ?_⟩
  swap
  · rw [hall t0 ⟨_,ht0⟩] at hnd0
    cases hnd0
  split
  · next hwrap =>
    have hready : b.Ready (startOf b.timerJiffies 256) 256 (true,b.expires t0) := by
      refine ⟨nofun,fun _ => by dsimp only; omega,fun _ hneg => ?_⟩
      dsimp only at hneg ⊢
      -- an expiry in the past is on the first list, so the search goes on only from index zero
      have hzero := wait_eq_zero_of_neg hneg
      have hindex : b.timerJiffies.toNat%256 = 0 := by omega
      refine ⟨?_,hrecent t0 ⟨_,ht0⟩ hnd0⟩
      rw [startOf,hindex]
    obtain ⟨hle,hnone,-⟩ := arrayLoop_spec hlevels hready (by decide)
    dsimp only at hle
    apply hassemble _ hnone
    intro i t ht hnd
    have := hlower i t ht hnd
    omega
  next hwrap =>
  apply hassemble
  · intro varp hv i t ht hnd
    have hstart := hlevels.start_le varp hv i t ht hnd
    have hlt : p < startOf b.timerJiffies 256 := by
      unfold startOf
      omega
    omega
  intro i t ht hnd
  have := hlower i t ht hnd
  omega

/-- The call queues no timer with an expiry more than `2^31 - 2^26` jiffies in the past, deferrable
timers aside. -/
def queuesRecent (b : Base) (op : Op) : Bool :=
  (armed b op).all fun r => b.deferrable r.1 || decide (-2080374784 ≤ ahead b.timerJiffies r.2)

inductive ReachesRecent : Base → Prop
  | init (jiffies : UInt32) (deferrable : Nat → Bool) : ReachesRecent (initTimers jiffies deferrable)
  | step {b b' : Base} (op : Op) : ReachesRecent b → queuesRecent b op = true → step b op = some b' →
      ReachesRecent b'

lemma ReachesRecent.reaches (h : ReachesRecent b) : Reaches b := by
  induction h with
  | init jiffies deferrable => exact Reaches.init jiffies deferrable
  | step op _ _ hstep ih => exact Reaches.step op ih hstep

lemma ahead_succ_nonneg {tj e : UInt32} (h : 0 < wait tj e) : 0 ≤ ahead (tj+1) e := by
  by_contra hneg
  have hpast : 2147483648 ≤ (e-(tj+1)).toNat := by
    unfold ahead at hneg
    split_ifs at hneg
    · assumption
    · omega
  have hpos : 0 < (e-tj).toNat ∧ (e-tj).toNat < 2147483648 := by
    unfold wait at h
    split_ifs at h <;> omega
  have := sub_succ hpos.1
  omega

lemma ReachesRecent.recentOnly (h : ReachesRecent b) : b.RecentOnly := by
  induction h with
  | init jiffies deferrable =>
    rintro t ⟨k,hk⟩
    exact absurd hk not_mem_nil
  | @step b b' op hreach hop hstep ih =>
    have hinv := hreach.reaches.inv
    intro t ht hnd
    rcases step_cases hinv hstep with ⟨u,e,harm,-,hq⟩ | ⟨u,-,-,-,hr⟩ | ⟨-,-,hk⟩ | ⟨-,hp⟩
    · rw [hq.deferrable] at hnd
      unfold Base.dist
      rw [hq.timerJiffies,hq.expires]
      by_cases htu : t = u
      · subst htu
        unfold queuesRecent at hop
        rw [harm] at hop
        rw [update_self]
        simpa [hnd] using hop
      rw [update_of_ne htu]
      exact ih t (((hq.onWheel_iff hinv).mp ht).resolve_left htu) hnd
    · rw [hr.deferrable] at hnd
      unfold Base.dist
      rw [hr.timerJiffies,hr.expires]
      exact ih t ((hr.onWheel_iff hinv).mp ht).2 hnd
    · rw [hk.deferrable] at hnd
      unfold Base.dist
      rw [hk.timerJiffies,hk.expires]
      refine ih t ?_ hnd
      unfold Base.OnWheel at ht ⊢
      rwa [hk.vec] at ht
    have hpos := ((hp.onWheel t).mp ht).2
    unfold Base.dist
    rw [hp.timerJiffies,hp.expires]
    have := ahead_succ_nonneg hpos
    omega

/-- **A tickless processor does not sleep past a timer**, in every run in which no timer is queued with an
expiry more than `2^31 - 2^26` jiffies in the past: the search gives a time that is no later than that of the
pass which will run any timer that is not deferrable. -/
theorem next_timer_interrupt_not_late (hreach : ReachesRecent b) :
    ((∀ t, b.OnWheel t → b.deferrable t = true) → b.nextTimerInterrupt = b.timerJiffies+1073741823) ∧
    ∀ t, b.OnWheel t → b.deferrable t = false → ahead b.timerJiffies b.nextTimerInterrupt ≤
        ahead b.timerJiffies (due b.timerJiffies (b.expires t)) ∧
      ∀ {ops : List Op} {b₂ : Base} {passes : List Pass}, runAround t b ops = some (b₂,passes) →
        ∀ (j : Nat) (hj : j < passes.length), t ∈ passes[j].taken →
          passes[j].jiffies = due b.timerJiffies (b.expires t) := by
  have hinv := hreach.reaches.inv
  obtain ⟨hle,hmax⟩ := Base.nextTimerInterrupt_spec hinv hreach.recentOnly
  refine ⟨hmax,?_⟩
  intro t ht hnd
  refine ⟨?_,?_⟩
  · rw [ahead_due]
    exact hle t ht hnd
  intro ops b₂ passes hrun j hj hmem
  rw [(runAround_jiffies hinv hrun j hj).1,((runAround_on hinv hrun ht).1 j hj).mp hmem,due_eq]

/-- With a timer two passes ahead, and one that the next cascade will bring down. -/
theorem next_timer_interrupt_not_late_two : ∃ b b' : Base,
    step (initTimers 254 fun _ => false) (.addTimerOn 0 600) = some b ∧
    step b (.addTimerOn 1 256) = some b' ∧ b'.nextTimerInterrupt = 256 ∧
    ahead b'.timerJiffies b'.nextTimerInterrupt ≤ ahead b'.timerJiffies (due b'.timerJiffies (b'.expires 0)) := by
  refine ⟨_,_,rfl,rfl,rfl,?_⟩
  have hreach := ReachesRecent.step (.addTimerOn 0 600) (ReachesRecent.init 254 fun _ => false) rfl rfl
  have hreach' := ReachesRecent.step (.addTimerOn 1 256) hreach rfl rfl
  exact ((next_timer_interrupt_not_late hreach').2 0 ⟨.tv2 2,by decide⟩ rfl).1

/-- A timer that comes down from `tv2` for 256 and is due at 511, and one that is queued with an expiry
almost half the range of a word before 256. The second is due at once, but the search gives 511. -/
theorem far_past_timer_slept_past : ∃ b b₁ b₂ b₃ : Base,
    step (initTimers 255 fun _ => false) (.addTimerOn 0 511) = some b ∧
    step b .beginPass = some b₁ ∧ step b₁ (.addTimerOn 1 2147483914) = some b₂ ∧
    b₂.workList = [] ∧ b₂.timerJiffies = 256 ∧ b₂.vec (.tv1 0) = [1] ∧ b₂.deferrable 1 = false ∧
    due b₂.timerJiffies (b₂.expires 1) = 256 ∧ b₂.nextTimerInterrupt = 511 ∧
    timeBefore (due b₂.timerJiffies (b₂.expires 1)) b₂.nextTimerInterrupt = true ∧
    runAround 1 b₂ [.setJiffies 256,.beginPass] = some (b₃,[⟨256,[1]⟩]) :=
  ⟨_,_,_,_,rfl,rfl,rfl,rfl,rfl,rfl,rfl,rfl,rfl,rfl,rfl⟩

end LinuxToradex.Timer

import LinuxToradex.Foundation.Align
import LinuxToradex.Foundation.Slots

/-! `lib/lmb.c` of U-Boot: two tables of at most eight regions, on words of 32 bits. A region that is removed
leaves what it was in the array, behind the counter. An access beyond the array is `none`. -/
namespace LinuxToradex.Lmb
open Nat
open Function (update)

def word : Nat := 2^32

def maxLmbRegions : Nat := 8

structure Region where
  base : Nat
  size : Nat
  deriving DecidableEq

structure Table where
  cnt : Nat
  region : Nat → Region

structure Blocks where
  memory : Table
  reserved : Table

def addrsOverlap (base1 size1 base2 size2 : Nat) : Bool :=
  decide (base1 < (base2+size2)%word) && decide (base2 < (base1+size1)%word)

def addrsAdjacent (base1 size1 base2 size2 : Nat) : Int :=
  if base2 = (base1+size1)%word then 1
  else if base1 = (base2+size2)%word then -1
  else 0

namespace Table

def regionsAdjacent (rgn : Table) (r1 r2 : Nat) : Int :=
  addrsAdjacent (rgn.region r1).base (rgn.region r1).size (rgn.region r2).base (rgn.region r2).size

def moveDown : Nat → Nat → (Nat → Region) → Nat → Region
  | 0, _, region => region
  | k+1, i, region => moveDown k (i+1) (update region i (region (i+1)))

def remove (rgn : Table) (r : Nat) : Option Table :=
  let last := (rgn.cnt+word-1)%word
  if last ≤ maxLmbRegions ∨ last ≤ r then
    some {cnt := last, region := moveDown (last-r) r rgn.region}
  else none

def set (rgn : Table) (i : Nat) (r : Region) : Table :=
  {rgn with region := update rgn.region i r}

def coalesce (rgn : Table) (r1 r2 : Nat) : Option Table :=
  let size := ((rgn.region r1).size+(rgn.region r2).size)%word
  (rgn.set r1 {rgn.region r1 with size := size}).remove r2

inductive Search where
  | already
  | grown (i : Nat) (region : Region)
  | notFound (i : Nat)

def growLoop (rgn : Table) (base size : Nat) : Nat → Nat → Search
  | 0, i => .notFound i
  | k+1, i =>
    let r := rgn.region i
    if r.base = base ∧ r.size = size then .already
    else if addrsAdjacent base size r.base r.size > 0 then
      .grown i ⟨(r.base+word-size)%word,(r.size+size)%word⟩
    else if addrsAdjacent base size r.base r.size < 0 then
      .grown i ⟨r.base,(r.size+size)%word⟩
    else growLoop rgn base size k (i+1)

/-- The second loop, which moves regions up and puts the new one below them; `i` is one more than
in the source. -/
def insertLoop (base size : Nat) : Nat → (Nat → Region) → Nat → Region
  | 0, region => region
  | i+1, region =>
    if base < (region i).base then
      insertLoop base size i (update region (i+1) (region i))
    else update region (i+1) ⟨base,size⟩

/-- What follows the first loop: the grown region is coalesced with its upper neighbour. -/
def joinUpper (rgn : Table) (i : Nat) (coalesced : Int) : Option (Int × Table) :=
  if i < (rgn.cnt+word-1)%word ∧ rgn.regionsAdjacent i (i+1) ≠ 0 then
    (rgn.coalesce i (i+1)).map fun rgn => (coalesced+1,rgn)
  else some (coalesced,rgn)

def insert (rgn : Table) (base size : Nat) : Table :=
  let region := insertLoop base size rgn.cnt rgn.region
  { cnt := rgn.cnt+1
    region := if base < (region 0).base then update region 0 ⟨base,size⟩ else region }

def addRegion (rgn : Table) (base size : Nat) : Option (Int × Table) :=
  if rgn.cnt = 1 ∧ (rgn.region 0).size = 0 then
    some (0,rgn.set 0 ⟨base,size⟩)
  else
    let joined := match rgn.growLoop base size rgn.cnt 0 with
      | .already => none
      | .grown i r => some (joinUpper (rgn.set i r) i 1)
      | .notFound i => some (joinUpper rgn i 0)
    match joined with
    | none => some (0,rgn)
    | some none => none
    | some (some (coalesced,rgn)) =>
      if coalesced ≠ 0 then some (coalesced,rgn)
      else if rgn.cnt ≥ maxLmbRegions then some (-1,rgn)
      else some (0,rgn.insert base size)

def findLoop (rgn : Table) (base size : Nat) : Nat → Nat → Option Nat
  | 0, _ => none
  | k+1, i =>
    let r := rgn.region i
    if r.base ≤ base ∧ (base+size)%word ≤ (r.base+r.size)%word then some i
    else findLoop rgn base size k (i+1)

def free (rgn : Table) (base size : Nat) : Option (Int × Table) :=
  let stop := (base+size)%word
  match rgn.findLoop base size rgn.cnt 0 with
  | none => some (-1,rgn)
  | some i =>
    let r := rgn.region i
    let rgnend := (r.base+r.size)%word
    if r.base = base ∧ rgnend = stop then (rgn.remove i).map fun rgn => (0,rgn)
    else if r.base = base then
      some (0,rgn.set i ⟨stop,(r.size+word-size)%word⟩)
    else if rgnend = stop then
      some (0,rgn.set i ⟨r.base,(r.size+word-size)%word⟩)
    else
      (rgn.set i ⟨r.base,(base+word-r.base)%word⟩).addRegion stop
        ((rgnend+word-stop)%word)

def init (region : Nat → Region) : Table :=
  {cnt := 1, region := update region 0 ⟨0,0⟩}

end Table

inductive Op where
  | add (base size : Nat)
  | reserve (base size : Nat)
  | free (base size : Nat)
  deriving DecidableEq

namespace Blocks

/-- `lmb_init`; what the arrays hold apart from their first regions is arbitrary. -/
def init (memory reserved : Nat → Region) : Blocks :=
  {memory := Table.init memory, reserved := Table.init reserved}

def apply (lmb : Blocks) : Op → Option (Int × Blocks)
  | .add base size => (lmb.memory.addRegion base size).map fun r => (r.1,{lmb with memory := r.2})
  | .reserve base size =>
    (lmb.reserved.addRegion base size).map fun r => (r.1,{lmb with reserved := r.2})
  | .free base size => (lmb.reserved.free base size).map fun r => (r.1,{lmb with reserved := r.2})

end Blocks

open Function Slots

structure Region.Valid (r : Region) : Prop where
  pos : 0 < r.size
  lt : r.base+r.size < word

def Region.Below (gap : Nat) (r r' : Region) : Prop := r.base+r.size+gap ≤ r'.base

def Region.Has (r : Region) (a : Nat) : Prop := r.base ≤ a ∧ a < r.base+r.size

namespace Table

def Holds (t : Table) (a : Nat) : Prop := ∃ i < t.cnt, (t.region i).Has a

def Sorted (gap : Nat) (t : Table) : Prop := Ordered (Region.Below gap) t.region t.cnt

def Dummy (t : Table) : Prop := t.cnt = 1 ∧ (t.region 0).size = 0

/-- The regions of a table that was used; the first one is also kept when the last region was
removed. -/
structure Proper (gap : Nat) (t : Table) : Prop where
  cnt_le : t.cnt ≤ maxLmbRegions
  valid : ∀ i, i < t.cnt ∨ i = 0 → (t.region i).Valid
  sorted : t.Sorted gap

/-- A range that does not overlap the regions of the table: it is on one side of each of them. -/
def Free (t : Table) (r : Region) : Prop := ∀ i < t.cnt,
  r.base+r.size ≤ (t.region i).base ∨ (t.region i).base+(t.region i).size ≤ r.base

variable {gap : Nat} {t : Table} {r : Region} {i : Nat}

lemma Proper.not_dummy (h : t.Proper gap) (hcnt : t.cnt ≠ 0) : ¬(t.cnt = 1 ∧ (t.region 0).size = 0) := by
  rintro ⟨-,hsize⟩
  have hpos := (h.valid 0 (.inl (Nat.pos_of_ne_zero hcnt))).pos
  omega

lemma last_eq (hcnt : t.cnt ≠ 0) (hle : t.cnt ≤ maxLmbRegions) : (t.cnt+word-1)%word = t.cnt-1 := by
  have hword : word = 4294967296 := rfl
  have hmax : maxLmbRegions = 8 := rfl
  exact Align.wrap_sub (by omega) (by omega)

lemma moveDown_eq (k : Nat) : ∀ (r : Nat) (f : Nat → Region) (j : Nat),
    moveDown k r f j = if r ≤ j ∧ j < r+k then f (j+1) else f j := by
  induction k with
  | zero =>
    intro r f j
    rw [moveDown,if_neg (by omega)]
  | succ k ih =>
    intro r f j
    rw [moveDown,ih]
    by_cases hj : j = r
    · subst hj
      rw [if_neg (by omega),if_pos (by omega),update_self]
    split
    · next hin => rw [if_pos (by omega),update_of_ne (by omega)]
    · next hin =>
      rw [if_neg (by omega),update_of_ne hj]

lemma remove_eq (hle : t.cnt ≤ maxLmbRegions) (hi : i < t.cnt) : ∃ t', t.remove i = some t' ∧ t'.cnt = t.cnt-1 ∧
      (∀ j < t.cnt-1, t'.region j = removeAt t.region i j) ∧ (t.cnt = 1 → t'.region = t.region) := by
  have hlast := last_eq (t := t) (by omega) hle
  refine ⟨{cnt := t.cnt-1, region := moveDown (t.cnt-1-i) i t.region},?_,rfl,?_,?_⟩
  · rw [remove,hlast]
    exact if_pos (.inl (by omega))
  · intro j hj
    dsimp only
    rw [moveDown_eq]
    unfold removeAt
    by_cases hji : j < i
    · rw [if_neg (by omega),if_pos hji]
    · rw [if_pos (by omega),if_neg hji]
  intro hone
  rw [hone,Nat.sub_self,Nat.zero_sub]
  rfl

lemma Proper.congr {t' : Table} (h : t.Proper gap) (hcnt : t'.cnt = t.cnt) (hpos : 0 < t.cnt)
    (hregion : ∀ j < t.cnt, t'.region j = t.region j) : t'.Proper gap := by
  refine ⟨hcnt ▸ h.cnt_le,fun j hj => ?_,?_⟩
  · have hlt : j < t.cnt := by omega
    rw [hregion j hlt]
    exact h.valid j (.inl hlt)
  unfold Sorted
  rw [hcnt]
  exact Ordered.congr h.sorted hregion

lemma Proper.remove (h : t.Proper gap) (hi : i < t.cnt) : ∃ t', t.remove i = some t' ∧ t'.Proper gap ∧
      ∀ a, t'.Holds a ↔ ∃ j < t.cnt, j ≠ i ∧ (t.region j).Has a := by
  obtain ⟨t',hremove,hcnt,hregion,hone⟩ := remove_eq h.cnt_le hi
  have hle := h.cnt_le
  obtain ⟨n,hn⟩ := exists_eq_succ_of_ne_zero (Nat.ne_zero_of_lt hi)
  have hsorted := h.sorted
  unfold Sorted at hsorted
  rw [hn] at hcnt hregion hsorted hone
  refine ⟨t',hremove,⟨by omega,?_,?_⟩,?_⟩
  · rintro j (hj | rfl)
    · rw [hregion j (hcnt ▸ hj)]
      unfold removeAt
      split
      · exact h.valid j (.inl (by omega))
      · exact h.valid (j+1) (.inl (by omega))
    by_cases hn0 : n = 0
    · rw [hone (by omega)]
      exact h.valid 0 (.inr rfl)
    rw [hregion 0 (by omega)]
    unfold removeAt
    split
    · exact h.valid 0 (.inl (by omega))
    · exact h.valid 1 (.inl (by omega))
  · unfold Sorted
    rw [hcnt]
    exact (hsorted.removeAt i).congr hregion
  intro a
  unfold Holds
  rw [hcnt,hn]
  exact (exists_congr_lt (P := fun r : Region => r.Has a) hregion).trans
    (exists_removeAt (P := fun r : Region => r.Has a) (p := i) (n := n) (by omega))

def Touches (t : Table) (r : Region) (i : Nat) : Prop :=
  r.base+r.size = (t.region i).base ∨ (t.region i).base+(t.region i).size = r.base

def grow (t : Table) (r : Region) (i : Nat) : Region :=
  if r.base+r.size = (t.region i).base then ⟨r.base,(t.region i).size+r.size⟩
  else ⟨(t.region i).base,(t.region i).size+r.size⟩

lemma adjacent_eq {r r' : Region} (hr : r.base+r.size < word) (hr' : r'.base+r'.size < word) :
    addrsAdjacent r.base r.size r'.base r'.size =
      if r'.base = r.base+r.size then 1 else if r.base = r'.base+r'.size then -1 else 0 := by
  unfold addrsAdjacent
  rw [mod_eq_of_lt hr,mod_eq_of_lt hr']

lemma growLoop_step (hr : r.Valid) (hi : (t.region i).Valid) (hapart : r.base+r.size ≤ (t.region i).base ∨
      (t.region i).base+(t.region i).size ≤ r.base) (k : Nat) :
    (t.Touches r i → t.growLoop r.base r.size (k+1) i = .grown i (t.grow r i)) ∧ (¬t.Touches r i →
        t.growLoop r.base r.size (k+1) i = t.growLoop r.base r.size k (i+1)) := by
  obtain ⟨hrpos,hrlt⟩ := hr
  obtain ⟨hipos,hilt⟩ := hi
  have hother : ¬((t.region i).base = r.base ∧ (t.region i).size = r.size) := by omega
  have hadj := adjacent_eq hrlt hilt
  rw [growLoop,if_neg hother]
  unfold Touches grow
  constructor
  · rintro (hup | hdown)
    · rw [if_pos hup.symm] at hadj
      rw [hadj,if_pos (by decide),if_pos hup]
      congr 2
      · rw [show (t.region i).base+word-r.size = r.base+word by omega,add_mod_right, mod_eq_of_lt (by omega)]
      · exact mod_eq_of_lt (by omega)
    rw [if_neg (by omega),if_pos hdown.symm] at hadj
    rw [hadj,if_neg (by decide),if_pos (by decide),if_neg (by omega)]
    congr 2
    exact mod_eq_of_lt (by omega)
  intro hnot
  obtain ⟨hup,hdown⟩ := not_or.mp hnot
  rw [if_neg (fun he => hup he.symm),if_neg (fun he => hdown he.symm)] at hadj
  rw [hadj,if_neg (by decide),if_neg (by decide)]

lemma growLoop_eq (hr : r.Valid) (hvalid : ∀ i < t.cnt, (t.region i).Valid) (hfree : t.Free r) : ∀ k i, i+k = t.cnt →
      (t.growLoop r.base r.size k i = .notFound t.cnt ∧ ∀ j, i ≤ j → j < t.cnt → ¬t.Touches r j) ∨
      ∃ j, i ≤ j ∧ j < t.cnt ∧ t.growLoop r.base r.size k i = .grown j (t.grow r j) ∧
        t.Touches r j ∧ ∀ l, i ≤ l → l < j → ¬t.Touches r l := by
  intro k
  induction k with
  | zero =>
    intro i hi
    refine .inl ⟨?_,fun j hj hlt => by omega⟩
    rw [growLoop,← hi,Nat.add_zero]
  | succ k ih =>
    intro i hi
    have hlt : i < t.cnt := by omega
    have hstep := growLoop_step hr (hvalid i hlt) (hfree i hlt) k
    by_cases htouch : t.Touches r i
    · exact .inr ⟨i,Nat.le_refl i,hlt,hstep.1 htouch,htouch,fun l hl hli => by omega⟩
    rw [hstep.2 htouch]
    rcases ih (i+1) (by omega) with ⟨heq,hnone⟩ | ⟨j,hij,hj,heq,htj,hbefore⟩
    · refine .inl ⟨heq,fun j hj hjlt => ?_⟩
      rcases Nat.lt_or_eq_of_le hj with hj | rfl
      · exact hnone j hj hjlt
      · exact htouch
    refine .inr ⟨j,by omega,hj,heq,htj,fun l hl hlj => ?_⟩
    rcases Nat.lt_or_eq_of_le hl with hl | rfl
    · exact hbefore l hl hlj
    · exact htouch

lemma exists_set {P : Region → Prop} (hi : i < t.cnt) : (∃ j < (t.set i r).cnt, P ((t.set i r).region j)) ↔
      P r ∨ ∃ j < t.cnt, j ≠ i ∧ P (t.region j) := exists_update hi

lemma Proper.set (h : t.Proper gap) (hr : r.Valid)
    (hbefore : ∀ j < i, (t.region j).Below gap r) (hafter : ∀ j, i < j → j < t.cnt → r.Below gap (t.region j)) :
    (t.set i r).Proper gap := by
  refine ⟨h.cnt_le,fun j hj => ?_,h.sorted.update hbefore hafter⟩
  change (update t.region i r j).Valid
  rw [update_apply]
  split
  · exact hr
  · exact h.valid j hj

lemma set_self (t : Table) (i : Nat) (r : Region) : (t.set i r).region i = r := update_self ..

lemma set_other {j : Nat} (t : Table) (r : Region) (h : j ≠ i) : (t.set i r).region j = t.region j :=
  update_of_ne h ..

lemma joinUpper_apart (h : t.Proper gap) (hi : i < t.cnt)
    (hnext : i+1 < t.cnt → (t.region i).base+(t.region i).size ≠ (t.region (i+1)).base)
    (ret : Int) : t.joinUpper i ret = some (ret,t) := by
  unfold joinUpper
  rw [last_eq (by omega) h.cnt_le]
  by_cases hlast : i < t.cnt-1
  · have hbelow : (t.region i).Below gap (t.region (i+1)) :=
      h.sorted i (i+1) (lt_succ_self i) (by omega)
    have hup := h.valid (i+1) (.inl (by omega))
    have hadj := adjacent_eq (h.valid i (.inl hi)).lt hup.lt
    unfold Region.Below at hbelow
    rw [if_neg (by omega),if_neg (by omega)] at hadj
    rw [if_neg]
    exact fun hand => hand.2 hadj
  rw [if_neg]
  exact fun hand => hlast hand.1

def withUpper (t : Table) (r : Region) (i : Nat) : Region := ⟨r.base,r.size+(t.region (i+1)).size⟩

lemma remove_withUpper (h : t.Proper gap) (hi : i+1 < t.cnt) (r : Region) :
    ∃ t1 t', t.remove (i+1) = some t1 ∧ t1.cnt = t.cnt-1 ∧ (∀ j < t1.cnt, t1.region j = removeAt t.region (i+1) j) ∧
    (t.set i (t.withUpper r i)).remove (i+1) = some t' ∧ t'.cnt = t1.cnt ∧
    ∀ j < t1.cnt, t'.region j = (t1.set i (t.withUpper r i)).region j := by
  obtain ⟨t1,hremove1,hcnt1,hregion1,-⟩ := remove_eq h.cnt_le hi
  obtain ⟨t',hremove,hcnt,hregion,-⟩ :=
    remove_eq (t := t.set i (t.withUpper r i)) h.cnt_le hi
  refine ⟨t1,t',hremove1,hcnt1,hcnt1 ▸ hregion1,hremove,hcnt.trans hcnt1.symm,fun j hj => ?_⟩
  rw [hcnt1] at hj
  have hleft : t'.region j = removeAt (update t.region i (t.withUpper r i)) (i+1) j := hregion j hj
  rw [hleft]
  unfold removeAt
  by_cases hji : j = i
  · subst hji
    rw [if_pos (lt_succ_self j),update_self,set_self]
  rw [set_other _ _ hji,hregion1 j hj]
  unfold removeAt
  split
  · rw [update_of_ne hji]
  · rw [update_of_ne (by omega)]

section Joins

variable (h : t.Proper gap) (hi : i+1 < t.cnt) (hr : r.Valid)
  (hend : r.base+r.size = (t.region (i+1)).base)
include h hi hr hend

lemma joinUpper_eq (ret : Int) : (t.set i r).joinUpper i ret =
    ((t.set i (t.withUpper r i)).remove (i+1)).map fun t => (ret+1,t) := by
  have hup := h.valid (i+1) (.inl hi)
  have hlt := hup.lt
  have hother : (t.set i r).region (i+1) = t.region (i+1) := set_other t r (Nat.succ_ne_self i)
  have hlast : i < ((t.set i r).cnt+word-1)%word := by
    change i < (t.cnt+word-1)%word
    rw [last_eq (by omega) h.cnt_le]
    omega
  have hadj : (t.set i r).regionsAdjacent i (i+1) ≠ 0 := by
    unfold regionsAdjacent
    rw [set_self,hother,adjacent_eq hr.lt hup.lt,if_pos hend.symm]
    decide
  have hcoalesce : (t.set i r).coalesce i (i+1) = (t.set i (t.withUpper r i)).remove (i+1) := by
    unfold coalesce
    dsimp only
    rw [set_self,hother,mod_eq_of_lt (by omega)]
    unfold Table.set withUpper
    rw [update_idem]
  unfold joinUpper
  rw [if_pos ⟨hlast,hadj⟩,hcoalesce]

/-- A region that reaches its upper neighbour is coalesced with it. -/
theorem joinUpper_joins (hbefore : ∀ j < i, (t.region j).Below gap r) (ret : Int) :
    ∃ t', (t.set i r).joinUpper i ret = some (ret+1,t') ∧ t'.Proper gap ∧
      ∀ a, t'.Holds a ↔ r.Has a ∨ ∃ j < t.cnt, j ≠ i ∧ (t.region j).Has a := by
  obtain ⟨t1,t',hremove1,hcnt1,hregion1,hremove,hcnt,hregion⟩ := remove_withUpper h hi r
  obtain ⟨t2,hremove2,hproper2,hholds2⟩ := h.remove hi
  obtain rfl : t1 = t2 := Option.some.inj (hremove1.symm.trans hremove2)
  have hup := h.valid (i+1) (.inl hi)
  have hrpos := hr.pos
  have huplt := hup.lt
  have hwhole : (t.withUpper r i).base = r.base ∧ (t.withUpper r i).size = r.size+(t.region (i+1)).size := ⟨rfl,rfl⟩
  have hset : (t1.set i (t.withUpper r i)).Proper gap := by
    apply hproper2.set
    · exact ⟨by omega,by omega⟩
    · intro j hj
      rw [hregion1 j (by omega),removeAt,if_pos (by omega)]
      exact hbefore j hj
    intro j hij hj
    have hbelow : (t.region (i+1)).Below gap (t.region (j+1)) :=
      h.sorted (i+1) (j+1) (by omega) (by omega)
    rw [hregion1 j (by omega),removeAt,if_neg (by omega)]
    unfold Region.Below at hbelow ⊢
    omega
  refine ⟨t',?_,hset.congr hcnt (show 0 < t1.cnt by omega) hregion,fun a => ?_⟩
  · rw [joinUpper_eq h hi hr hend,hremove]
    rfl
  have hwith : t'.Holds a ↔ (t1.set i (t.withUpper r i)).Holds a := by
    unfold Holds
    rw [hcnt]
    exact exists_congr_lt (P := fun r : Region => r.Has a) hregion
  -- the whole region has what the region and its neighbour have
  have hsplit : (t.withUpper r i).Has a ↔ r.Has a ∨ (t.region (i+1)).Has a := by
    unfold Region.Has
    omega
  have hshift : (∃ j < t1.cnt, j ≠ i ∧ (t1.region j).Has a) ↔ ∃ j < t.cnt, j ≠ i+1 ∧ j ≠ i ∧ (t.region j).Has a := by
    constructor
    · rintro ⟨j,hj,hji,hhas⟩
      rw [hregion1 j hj] at hhas
      unfold removeAt at hhas
      split at hhas
      · exact ⟨j,by omega,by omega,hji,hhas⟩
      · exact ⟨j+1,by omega,by omega,by omega,hhas⟩
    rintro ⟨j,hj,hj1,hji,hhas⟩
    by_cases hlt : j < i+1
    · refine ⟨j,by omega,hji,?_⟩
      rw [hregion1 j (by omega),removeAt,if_pos hlt]
      exact hhas
    refine ⟨j-1,by omega,by omega,?_⟩
    rw [hregion1 (j-1) (by omega),removeAt,if_neg (by omega),Nat.sub_add_cancel (by omega)]
    exact hhas
  rw [hwith]
  refine (exists_set (P := fun r : Region => r.Has a) (by omega)).trans ?_
  rw [hshift,hsplit]
  constructor
  · rintro ((hhas | hhas) | ⟨j,hj,-,hji,hhas⟩)
    · exact .inl hhas
    · exact .inr ⟨i+1,hi,Nat.succ_ne_self i,hhas⟩
    · exact .inr ⟨j,hj,hji,hhas⟩
  rintro (hhas | ⟨j,hj,hji,hhas⟩)
  · exact .inl (.inl hhas)
  by_cases hj1 : j = i+1
  · exact .inl (.inr (hj1 ▸ hhas))
  · exact .inr ⟨j,hj,hj1,hji,hhas⟩

end Joins

/-- Where the loop puts the new region, and what it moves. -/
theorem insertLoop_eq (base size : Nat) : ∀ (k : Nat) (f : Nat → Region), ∃ p ≤ k,
    (∀ i, p ≤ i → i < k → base < (f i).base) ∧ (0 < p → (f (p-1)).base ≤ base) ∧ ∀ j, insertLoop base size k f j =
      if j = p ∧ 0 < p then ⟨base,size⟩ else if p < j ∧ j ≤ k then f (j-1) else f j := by
  intro k
  induction k with
  | zero =>
    intro f
    refine ⟨0,Nat.le_refl 0,fun i _ hi => absurd hi (Nat.not_lt_zero i),
      fun h => absurd h (Nat.lt_irrefl 0),fun j => ?_⟩
    rw [insertLoop,if_neg (by omega),if_neg (by omega)]
  | succ k ih =>
    intro f
    rw [insertLoop]
    split
    · next hlt =>
      obtain ⟨p,hp,habove,hbelow,heq⟩ := ih (update f (k+1) (f k))
      have hsame : ∀ i ≤ k, update f (k+1) (f k) i = f i := fun i hi =>
        update_of_ne (by omega) ..
      refine ⟨p,by omega,fun i hpi hi => ?_,fun hpos => ?_,fun j => ?_⟩
      · rcases Nat.lt_or_eq_of_le (le_of_lt_succ hi) with hik | rfl
        · exact hsame i (Nat.le_of_lt hik) ▸ habove i hpi hik
        · exact hlt
      · exact hsame (p-1) (by omega) ▸ hbelow hpos
      rw [heq]
      split
      · next hjp => rfl
      next hjp =>
      by_cases hjk : j = k+1
      · subst hjk
        rw [if_neg (by omega),if_pos (by omega),update_self,Nat.add_sub_cancel]
      split
      · next hmid => rw [if_pos (by omega),hsame (j-1) (by omega)]
      · next hmid =>
        rw [if_neg (by omega),update_of_ne hjk]
    next hlt =>
    refine ⟨k+1,le_rfl,fun i hi hik => by omega,fun _ => Nat.not_lt.mp hlt,fun j => ?_⟩
    rw [update_apply]
    split
    · next hj => rw [if_pos ⟨hj,succ_pos k⟩]
    · next hj =>
      rw [if_neg (fun h => hj h.1),if_neg (by omega)]

/-- The range gets a region of its own. -/
theorem Proper.insert (h : t.Proper gap) (hgap : gap ≤ 1) (hpos : 0 < t.cnt)
    (hroom : t.cnt < maxLmbRegions) (hr : r.Valid)
    (hfree : t.Free r) (htouch : ∀ j < t.cnt, ¬t.Touches r j) : (t.insert r.base r.size).Proper gap ∧
      ∀ a, (t.insert r.base r.size).Holds a ↔ r.Has a ∨ t.Holds a := by
  obtain ⟨p,hp,habove,hbelow,hloop⟩ := insertLoop_eq r.base r.size t.cnt t.region
  have hside : ∀ j < t.cnt, (r.base < (t.region j).base → r.Below gap (t.region j)) ∧
      ((t.region j).base ≤ r.base → (t.region j).Below gap r) := by
    intro j hj
    have hapart := hfree j hj
    have hnot := not_or.mp (htouch j hj)
    unfold Region.Below
    omega
  have hbefore : ∀ j < p, (t.region j).Below gap r := by
    intro j hj
    apply (hside j (by omega)).2
    rcases Nat.lt_or_eq_of_le (le_sub_one_of_lt hj) with hlt | heq
    · have hlow : (t.region j).Below gap (t.region (p-1)) := h.sorted j (p-1) hlt (by omega)
      unfold Region.Below at hlow
      omega
    · exact heq ▸ hbelow (by omega)
  have hafter : ∀ j, p ≤ j → j < t.cnt → r.Below gap (t.region j) := fun j hpj hj =>
    (hside j hj).1 (habove j hpj hj)
  have hregion : ∀ j < t.cnt+1, (t.insert r.base r.size).region j = insertAt t.region p r j := by
    intro j hj
    have hzero : insertLoop r.base r.size t.cnt t.region 0 = t.region 0 := by
      rw [hloop,if_neg (by omega),if_neg (by omega)]
    have hinsert : (t.insert r.base r.size).region = if r.base < (t.region 0).base then
        update (insertLoop r.base r.size t.cnt t.region) 0 r
        else insertLoop r.base r.size t.cnt t.region := by
      unfold Table.insert
      dsimp only
      rw [hzero]
    rw [hinsert]
    unfold insertAt
    by_cases hp0 : p = 0
    · -- the new region is the first one
      rw [if_pos (habove 0 (by omega) hpos),update_apply]
      split
      · next hj0 => rw [if_neg (by omega),if_pos (by omega)]
      · next hj0 =>
        rw [hloop,if_neg (by omega),if_pos (by omega),if_neg (by omega),if_neg (by omega)]
    have hfirst : ¬r.base < (t.region 0).base := by
      have hlow := hbefore 0 (by omega)
      unfold Region.Below at hlow
      omega
    rw [if_neg hfirst,hloop]
    by_cases hjp : j < p
    · rw [if_neg (by omega),if_neg (by omega),if_pos hjp]
    by_cases heq : j = p
    · rw [if_pos (by omega),if_neg hjp,if_pos heq]
    · rw [if_neg (by omega),if_pos (by omega),if_neg hjp,if_neg heq]
  refine ⟨⟨hroom,fun j hj => ?_,?_⟩,fun a => ?_⟩
  · have hjlt : j < t.cnt+1 := by
      rcases hj with hj | rfl
      · exact hj
      · exact succ_pos _
    rw [hregion j hjlt]
    unfold insertAt
    split
    · exact h.valid j (.inl (by omega))
    split
    · exact hr
    · exact h.valid (j-1) (.inl (by omega))
  · exact (Ordered.insertAt h.sorted hp hbefore hafter).congr hregion
  exact (exists_congr_lt (P := fun r : Region => r.Has a) hregion).trans
    (exists_insertAt (P := fun r : Region => r.Has a) hp)

lemma grow_has (htouch : t.Touches r i) (a : Nat) : (t.grow r i).Has a ↔ r.Has a ∨ (t.region i).Has a := by
  unfold Touches at htouch
  unfold grow Region.Has
  split
  · dsimp only
    omega
  dsimp only
  omega

/-- The first region that the range touches has grown; it may have reached the next one. -/
theorem Proper.joinUpper_grow (h : t.Proper gap) (hgap : gap ≤ 1) (hr : r.Valid) (hfree : t.Free r)
    (hi : i < t.cnt) (htouch : t.Touches r i) (hfirst : ∀ l < i, ¬t.Touches r l) :
    ∃ ret t', (t.set i (t.grow r i)).joinUpper i 1 = some (ret,t') ∧ t'.Proper gap ∧ 0 < ret ∧
      ∀ a, t'.Holds a ↔ (t.grow r i).Has a ∨ ∃ j < t.cnt, j ≠ i ∧ (t.region j).Has a := by
  obtain ⟨hrpos,hrlt⟩ := hr
  obtain ⟨hipos,hilt⟩ := h.valid i (.inl hi)
  unfold Touches at htouch
  -- the region grows at one end, over the range
  have hgrow : ((t.grow r i).base = r.base ∧ r.base+r.size = (t.region i).base ∨
      (t.grow r i).base = (t.region i).base ∧ (t.region i).base+(t.region i).size = r.base) ∧
      (t.grow r i).size = (t.region i).size+r.size := by
    unfold grow
    split
    · exact ⟨.inl ⟨rfl,by assumption⟩,rfl⟩
    · exact ⟨.inr ⟨rfl,by omega⟩,rfl⟩
  have hbefore : ∀ l < i, (t.region l).Below gap (t.grow r i) := by
    intro l hl
    have hlow : (t.region l).Below gap (t.region i) := h.sorted l i hl hi
    have hapart := hfree l (Nat.lt_trans hl hi)
    have hnot := not_or.mp (hfirst l hl)
    unfold Region.Below at hlow ⊢
    omega
  have hafter : ∀ l, i < l → l < t.cnt → (t.grow r i).base+(t.grow r i).size ≤ (t.region l).base := by
    intro l hl hlt
    have hup : (t.region i).Below gap (t.region l) := h.sorted i l hl hlt
    have hlpos := (h.valid l (.inl hlt)).pos
    have hapart := hfree l hlt
    unfold Region.Below at hup
    omega
  have hvalid : (t.grow r i).Valid := ⟨by omega,by omega⟩
  by_cases hreach : i+1 < t.cnt ∧ (t.grow r i).base+(t.grow r i).size = (t.region (i+1)).base
  · obtain ⟨t',hjoin,hproper,hholds⟩ := joinUpper_joins h hreach.1 hvalid hreach.2 hbefore 1
    exact ⟨1+1,t',hjoin,hproper,by decide,hholds⟩
  have hset : (t.set i (t.grow r i)).Proper gap := by
    apply h.set hvalid hbefore
    intro l hl hlt
    have hnext := hafter (i+1) (lt_succ_self i) (by omega)
    unfold Region.Below
    rcases Nat.lt_or_eq_of_le (succ_le_of_lt hl) with hlt1 | rfl
    · have hmid : (t.region (i+1)).Below gap (t.region l) := h.sorted (i+1) l hlt1 hlt
      unfold Region.Below at hmid
      omega
    have hne : (t.grow r i).base+(t.grow r i).size ≠ (t.region (i+1)).base := fun he =>
      hreach ⟨hlt,he⟩
    change _ ≤ (t.region (i+1)).base
    omega
  refine ⟨1,_,joinUpper_apart hset hi ?_ 1,hset,by decide,fun a => ?_⟩
  · intro hlt he
    rw [set_self,set_other _ _ (Nat.succ_ne_self i)] at he
    exact hreach ⟨hlt,he⟩
  · exact exists_set (P := fun r : Region => r.Has a) hi

/-- What adding a range does to a table in use: it is added, unless the table is full and the
range touches no region. -/
theorem Proper.addRegion (h : t.Proper gap) (hgap : gap ≤ 1) (hpos : 0 < t.cnt) (hr : r.Valid) (hfree : t.Free r) :
    ∃ ret t', t.addRegion r.base r.size = some (ret,t') ∧ t'.Proper gap ∧
      (ret < 0 ↔ t.cnt = maxLmbRegions ∧ ∀ j < t.cnt, ¬t.Touches r j) ∧ (ret < 0 → t' = t) ∧
      (0 ≤ ret → ∀ a, t'.Holds a ↔ r.Has a ∨ t.Holds a) := by
  have hvalid : ∀ i < t.cnt, (t.region i).Valid := fun i hi => h.valid i (.inl hi)
  have hne : t.cnt ≠ 0 := Nat.ne_of_gt hpos
  unfold Table.addRegion
  rw [if_neg (h.not_dummy hne)]
  rcases growLoop_eq hr hvalid hfree t.cnt 0 (Nat.zero_add _) with
    ⟨hloop,hnone⟩ | ⟨i,-,hi,hloop,htouch,hbefore⟩
  · -- no region is next to the range
    have hjoin : t.joinUpper t.cnt 0 = some (0,t) := by
      unfold joinUpper
      rw [last_eq hne h.cnt_le,if_neg (by omega)]
    rw [hloop]
    dsimp only
    rw [hjoin]
    dsimp only
    rw [if_neg (by decide)]
    split
    · next hfull =>
      exact ⟨-1,t,rfl,h,⟨fun _ => ⟨Nat.le_antisymm h.cnt_le hfull,fun j hj =>
        hnone j (Nat.zero_le j) hj⟩,fun _ => by decide⟩,fun _ => rfl,
        fun hneg => absurd hneg (by decide)⟩
    next hfull =>
    obtain ⟨hproper,hholds⟩ := h.insert hgap hpos (Nat.not_le.mp hfull) hr hfree
      fun j hj => hnone j (Nat.zero_le j) hj
    exact ⟨0,_,rfl,hproper,⟨fun hneg => absurd hneg (by decide),fun hand =>
      absurd (Nat.le_of_eq hand.1.symm) hfull⟩,fun hneg => absurd hneg (by decide),
      fun _ => hholds⟩
  obtain ⟨ret,t',hjoin,hproper,hret,hholds⟩ :=
    h.joinUpper_grow hgap hr hfree hi htouch fun l hl => hbefore l (Nat.zero_le l) hl
  rw [hloop]
  dsimp only
  rw [hjoin]
  dsimp only
  rw [if_pos (by omega)]
  refine ⟨ret,t',rfl,hproper,⟨fun hneg => absurd hneg (by omega),fun hand =>
    absurd htouch (hand.2 i hi)⟩,fun hneg => absurd hneg (by omega),fun _ a => ?_⟩
  rw [hholds,grow_has htouch]
  constructor
  · rintro ((hhas | hhas) | ⟨j,hj,-,hhas⟩)
    · exact .inl hhas
    · exact .inr ⟨i,hi,hhas⟩
    · exact .inr ⟨j,hj,hhas⟩
  rintro (hhas | ⟨j,hj,hhas⟩)
  · exact .inl (.inl hhas)
  by_cases hji : j = i
  · exact .inl (.inr (hji ▸ hhas))
  · exact .inr ⟨j,hj,hji,hhas⟩

end Table

end LinuxToradex.Lmb

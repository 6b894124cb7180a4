import LinuxToradex.Lmb.Regions

/-! A table from which everything was freed still shows its old regions to the next call, and the rest of a
region that is freed in its middle is lost if there is no slot for it. -/
namespace LinuxToradex.Lmb
open Function Slots

namespace Table

variable {t : Table} {r : Region} {i : Nat}

lemma Dummy.not_holds (h : t.Dummy) (a : Nat) : ¬t.Holds a := by
  rintro ⟨i,hi,hhas⟩
  obtain ⟨hcnt,hsize⟩ := h
  obtain rfl : i = 0 := by omega
  unfold Region.Has at hhas
  omega

lemma proper_single (gap : Nat) (hcnt : t.cnt = 1) (hregion : t.region 0 = r) (hr : r.Valid) :
    t.Proper gap ∧ ∀ a, t.Holds a ↔ r.Has a := by
  have hzero : ∀ j, j < t.cnt ∨ j = 0 → t.region j = r := by
    intro j hj
    obtain rfl : j = 0 := by omega
    exact hregion
  refine ⟨⟨?_,fun j hj => (hzero j hj).symm ▸ hr,fun j l hjl hl => by omega⟩,fun a => ?_⟩
  · rw [hcnt]
    decide
  constructor
  · rintro ⟨j,hj,hhas⟩
    exact hzero j (.inl hj) ▸ hhas
  · exact fun hhas => ⟨0,by omega,hregion.symm ▸ hhas⟩

lemma Dummy.addRegion (h : t.Dummy) (gap : Nat) (hr : r.Valid) :
    ∃ t', t.addRegion r.base r.size = some (0,t') ∧ t'.Proper gap ∧ ∀ a, t'.Holds a ↔ r.Has a :=
  ⟨t.set 0 r,if_pos h,proper_single gap h.1 (set_self t 0 r) hr⟩

/-- What a call sees in a table from which everything was freed. -/
theorem emptied_addRegion (hcnt : t.cnt = 0) : t.addRegion r.base r.size = if t.regionsAdjacent 0 1 ≠ 0 then none else
      some (0,{cnt := 1, region :=
        if r.base < (t.region 0).base then update t.region 0 r else t.region}) := by
  have hword : (0+word-1)%word = word-1 := by decide
  have hjoin : t.joinUpper 0 0 = if t.regionsAdjacent 0 1 ≠ 0 then none else some (0,t) := by
    unfold joinUpper
    rw [hcnt,hword]
    by_cases hadj : t.regionsAdjacent 0 1 ≠ 0
    · have hremove : t.coalesce 0 1 = none := by
        unfold coalesce remove
        dsimp only [Table.set]
        rw [hcnt,hword,if_neg (by decide)]
      rw [if_pos hadj,if_pos ⟨by decide,hadj⟩,hremove]
      rfl
    · rw [if_neg hadj,if_neg fun hand => hadj hand.2]
  have hgrow : t.growLoop r.base r.size t.cnt 0 = .notFound 0 := by
    rw [hcnt]
    rfl
  unfold Table.addRegion
  rw [if_neg (by omega),hgrow]
  dsimp only
  rw [hjoin]
  by_cases hadj : t.regionsAdjacent 0 1 ≠ 0
  · rw [if_pos hadj,if_pos hadj]
  rw [if_neg hadj,if_neg hadj]
  dsimp only
  rw [if_neg (by decide),if_neg (by rw [hcnt]; decide)]
  unfold Table.insert
  rw [hcnt]
  rfl

/-- The condition for adding a range to a table from which everything was freed: the old regions
that are still in the first two places are not adjacent, and the range is below the first one or
the same. -/
def FitsEmptied (t : Table) (r : Region) : Prop :=
  t.regionsAdjacent 0 1 = 0 ∧ (r.base < (t.region 0).base ∨ t.region 0 = r)

lemma addRegion_emptied (gap : Nat) (hcnt : t.cnt = 0) (hr : r.Valid) (hfits : t.FitsEmptied r) :
    ∃ t', t.addRegion r.base r.size = some (0,t') ∧ t'.Proper gap ∧ ∀ a, t'.Holds a ↔ r.Has a := by
  obtain ⟨hadj,hplace⟩ := hfits
  have hregion : (if r.base < (t.region 0).base then update t.region 0 r else t.region) 0 = r := by
    split
    · next hlt => rw [update_self]
    · next hlt =>
      exact hplace.resolve_left hlt
  exact ⟨_,(emptied_addRegion hcnt).trans (if_neg (not_not.mpr hadj)),proper_single gap rfl hregion hr⟩

lemma eq_of_has {r r' : Region} (hpos : 0 < r.size) (hpos' : 0 < r'.size) (h : ∀ a, r.Has a ↔ r'.Has a) : r = r' := by
  unfold Region.Has at h
  have hfirst := h r.base
  have hfirst' := h r'.base
  have hlast := h (r.base+r.size-1)
  have hlast' := h (r'.base+r'.size-1)
  obtain ⟨base,size⟩ := r
  dsimp only at *
  congr 1
  · omega
  · omega

lemma Proper.emptied_wrong (h : t.Proper 1) (hcnt : t.cnt = 0) (hr : r.Valid)
    (hfits : ¬t.FitsEmptied r) {ret : Int} {t' : Table}
    (hadd : t.addRegion r.base r.size = some (ret,t')) : 0 ≤ ret ∧ ¬∀ a, t'.Holds a ↔ r.Has a := by
  rw [emptied_addRegion hcnt] at hadd
  split at hadd
  · next hadj => cases hadd
  next hadj =>
  have hplace : ¬(r.base < (t.region 0).base ∨ t.region 0 = r) := fun hor =>
    hfits ⟨not_not.mp hadj,hor⟩
  obtain ⟨hnlt,hne⟩ := not_or.mp hplace
  rw [if_neg hnlt] at hadd
  obtain ⟨rfl,rfl⟩ := Prod.mk.inj (Option.some.inj hadd)
  refine ⟨Int.le_refl 0,fun hholds => hne ?_⟩
  have hold := h.valid 0 (.inr rfl)
  have hsingle := (proper_single (t := {cnt := 1, region := t.region}) 1 rfl rfl hold).2
  exact eq_of_has hold.pos hr.pos fun a => (hsingle a).symm.trans (hholds a)

def Inside (t : Table) (r : Region) (i : Nat) : Prop :=
  (t.region i).base ≤ r.base ∧ r.base+r.size ≤ (t.region i).base+(t.region i).size

lemma findLoop_eq (hr : r.base+r.size < word) (hvalid : ∀ i < t.cnt, (t.region i).base+(t.region i).size < word) :
    ∀ k i, i+k = t.cnt → (∃ j, i ≤ j ∧ j < t.cnt ∧ t.Inside r j) →
      ∃ j < t.cnt, t.findLoop r.base r.size k i = some j ∧ t.Inside r j := by
  intro k
  induction k with
  | zero =>
    rintro i hi ⟨j,hij,hj,-⟩
    omega
  | succ k ih =>
    rintro i hi ⟨j,hij,hj,hinside⟩
    rw [findLoop,Nat.mod_eq_of_lt hr,Nat.mod_eq_of_lt (hvalid i (by omega))]
    split
    · next hhere => exact ⟨i,by omega,rfl,hhere⟩
    next hhere =>
    refine ih (i+1) (by omega) ⟨j,?_,hj,hinside⟩
    rcases Nat.lt_or_eq_of_le hij with hlt | rfl
    · exact hlt
    · exact absurd hinside hhere

lemma Proper.holds_without (h : t.Proper 1) (hi : i < t.cnt) (hinside : t.Inside r i) (a : Nat) :
    (t.Holds a ∧ ¬r.Has a) ↔ ((t.region i).Has a ∧ ¬r.Has a) ∨ ∃ j < t.cnt, j ≠ i ∧ (t.region j).Has a := by
  constructor
  · rintro ⟨⟨j,hj,hhas⟩,hnot⟩
    by_cases hji : j = i
    · exact .inl ⟨hji ▸ hhas,hnot⟩
    · exact .inr ⟨j,hj,hji,hhas⟩
  rintro (⟨hhas,hnot⟩ | ⟨j,hj,hji,hhas⟩)
  · exact ⟨⟨i,hi,hhas⟩,hnot⟩
  refine ⟨⟨j,hj,hhas⟩,fun hr => ?_⟩
  -- another region is on one side of this one
  have hsides : (t.region i).Below 1 (t.region j) ∨ (t.region j).Below 1 (t.region i) := by
    rcases Nat.lt_or_gt_of_ne hji with hlt | hgt
    · exact .inr (h.sorted j i hlt hi)
    · exact .inl (h.sorted i j hgt hj)
  unfold Inside at hinside
  unfold Region.Below at hsides
  unfold Region.Has at hhas hr
  omega

lemma Proper.shrink (h : t.Proper 1) (hi : i < t.cnt) {r' : Region} (hpos : 0 < r'.size)
    (hlow : (t.region i).base ≤ r'.base)
    (hhigh : r'.base+r'.size ≤ (t.region i).base+(t.region i).size) : (t.set i r').Proper 1 := by
  have hlt := (h.valid i (.inl hi)).lt
  apply h.set ⟨hpos,by omega⟩
  · intro j hj
    have hbelow : (t.region j).Below 1 (t.region i) := h.sorted j i hj hi
    unfold Region.Below at hbelow ⊢
    omega
  intro j hij hj
  have hbelow : (t.region i).Below 1 (t.region j) := h.sorted i j hij hj
  unfold Region.Below at hbelow ⊢
  omega

/-- The condition for freeing a range: if it is strictly inside a region, the table is not full. -/
def FitsFree (t : Table) (r : Region) : Prop :=
  t.cnt ≠ maxLmbRegions ∨ ∀ i < t.cnt, t.Inside r i →
    (t.region i).base = r.base ∨ (t.region i).base+(t.region i).size = r.base+r.size

def Frees (t : Table) (r : Region) : Prop :=
  ∃ ret t', t.free r.base r.size = some (ret,t') ∧ 0 ≤ ret ∧ t'.Proper 1 ∧
    ∀ a, t'.Holds a ↔ t.Holds a ∧ ¬r.Has a

lemma Proper.frees_one_side (h : t.Proper 1) (hi : i < t.cnt) (hinside : t.Inside r i) {r' : Region}
    (hfree : t.free r.base r.size = some (0,t.set i r')) (hr' : 0 < r'.size)
    (hlow : (t.region i).base ≤ r'.base) (hhigh : r'.base+r'.size ≤ (t.region i).base+(t.region i).size)
    (hrest : ∀ a, r'.Has a ↔ (t.region i).Has a ∧ ¬r.Has a) : t.Frees r := by
  refine ⟨0,t.set i r',hfree,Int.le_refl 0,h.shrink hi hr' hlow hhigh,fun a => ?_⟩
  rw [h.holds_without hi hinside,← hrest a]
  exact exists_set (P := fun r : Region => r.Has a) hi

section Freeing

variable (h : t.Proper 1) (hpos : 0 < r.size) (hi : i < t.cnt) (hinside : t.Inside r i)
  (hfind : t.findLoop r.base r.size t.cnt 0 = some i)
include h hpos hi hinside hfind

lemma frees_matching (hmatch : (t.region i).base = r.base ∨
    (t.region i).base+(t.region i).size = r.base+r.size) : t.Frees r := by
  have hlt := (h.valid i (.inl hi)).lt
  unfold Inside at hinside
  have hends : (r.base+r.size)%word = r.base+r.size ∧
      ((t.region i).base+(t.region i).size)%word = (t.region i).base+(t.region i).size :=
    ⟨Nat.mod_eq_of_lt (by omega),Nat.mod_eq_of_lt hlt⟩
  have hrest : ((t.region i).size+word-r.size)%word = (t.region i).size-r.size :=
    Align.wrap_sub (by omega) (by omega)
  have hfree : t.free r.base r.size = if (t.region i).base = r.base ∧
          (t.region i).base+(t.region i).size = r.base+r.size then
        (t.remove i).map fun t => (0,t)
      else if (t.region i).base = r.base then
        some (0,t.set i ⟨r.base+r.size,(t.region i).size-r.size⟩)
      else some (0,t.set i ⟨(t.region i).base,(t.region i).size-r.size⟩) := by
    unfold Table.free
    rw [hfind]
    dsimp only
    rw [hends.1,hends.2,hrest]
    by_cases hfront : (t.region i).base = r.base
    · simp only [hfront,if_true]
    rw [if_neg (fun hand => hfront hand.1),if_neg hfront,if_pos (hmatch.resolve_left hfront),
      if_neg (fun hand => hfront hand.1),if_neg hfront]
  by_cases hfront : (t.region i).base = r.base
  · by_cases hend : (t.region i).base+(t.region i).size = r.base+r.size
    · -- the whole region
      rw [if_pos ⟨hfront,hend⟩] at hfree
      obtain ⟨t',hremove,hproper,hholds⟩ := h.remove hi
      rw [hremove] at hfree
      refine ⟨0,t',hfree,Int.le_refl 0,hproper,fun a => ?_⟩
      rw [h.holds_without hi hinside,hholds]
      refine ⟨.inr,fun hor => hor.resolve_left ?_⟩
      rintro ⟨hhas,hnot⟩
      unfold Region.Has at hhas hnot
      omega
    rw [if_neg (fun hand => hend hand.2),if_pos hfront] at hfree
    apply h.frees_one_side hi hinside hfree
    · dsimp only
      omega
    · dsimp only
      omega
    · dsimp only
      omega
    intro a
    unfold Region.Has
    dsimp only
    omega
  have hend := hmatch.resolve_left hfront
  rw [if_neg (fun hand => hfront hand.1),if_neg hfront] at hfree
  apply h.frees_one_side hi hinside hfree
  · dsimp only
    omega
  · exact le_rfl
  · dsimp only
    omega
  intro a
  unfold Region.Has
  dsimp only
  omega

end Freeing

def lower (t : Table) (r : Region) (i : Nat) : Region :=
  ⟨(t.region i).base,r.base-(t.region i).base⟩

def upper (t : Table) (r : Region) (i : Nat) : Region :=
  ⟨r.base+r.size,(t.region i).base+(t.region i).size-(r.base+r.size)⟩

section Middle

variable (h : t.Proper 1) (hi : i < t.cnt) (hin : (t.region i).base < r.base ∧
  r.base+r.size < (t.region i).base+(t.region i).size)
include h hi hin

lemma free_middle (hfind : t.findLoop r.base r.size t.cnt 0 = some i) : t.free r.base r.size =
      (t.set i (t.lower r i)).addRegion (t.upper r i).base (t.upper r i).size := by
  have hlt := (h.valid i (.inl hi)).lt
  have hends : (r.base+r.size)%word = r.base+r.size ∧
      ((t.region i).base+(t.region i).size)%word = (t.region i).base+(t.region i).size :=
    ⟨Nat.mod_eq_of_lt (by omega),Nat.mod_eq_of_lt hlt⟩
  have hlower : (r.base+word-(t.region i).base)%word = r.base-(t.region i).base :=
    Align.wrap_sub (by omega) (by omega)
  have hupper : ((t.region i).base+(t.region i).size+word-(r.base+r.size))%word =
      (t.region i).base+(t.region i).size-(r.base+r.size) := Align.wrap_sub (by omega) (by omega)
  unfold Table.free
  rw [hfind]
  dsimp only
  rw [hends.1,hends.2,hlower,hupper,if_neg (by omega),if_neg (by omega),if_neg (by omega)]
  rfl

lemma proper_lower : (t.set i (t.lower r i)).Proper 1 := by
  apply h.shrink hi
  · unfold lower
    dsimp only
    omega
  · exact le_rfl
  unfold lower
  dsimp only
  omega

lemma upper_apart : ∀ j < t.cnt, (t.upper r i).base+(t.upper r i).size < ((t.set i (t.lower r i)).region j).base ∨
      ((t.set i (t.lower r i)).region j).base+((t.set i (t.lower r i)).region j).size ≤ r.base := by
  intro j hj
  by_cases hji : j = i
  · subst hji
    rw [set_self]
    unfold lower
    dsimp only
    omega
  rw [set_other _ _ hji]
  unfold upper
  dsimp only
  rcases Nat.lt_or_gt_of_ne hji with hlow | hup
  · have hbelow : (t.region j).Below 1 (t.region i) := h.sorted j i hlow hi
    unfold Region.Below at hbelow
    omega
  have hbelow : (t.region i).Below 1 (t.region j) := h.sorted i j hup hj
  unfold Region.Below at hbelow
  omega

lemma addRegion_upper (hpos : 0 < r.size) :
    ∃ ret t', (t.set i (t.lower r i)).addRegion (t.upper r i).base (t.upper r i).size =
        some (ret,t') ∧ t'.Proper 1 ∧ (ret < 0 ↔ t.cnt = maxLmbRegions) ∧ (ret < 0 → t' = t.set i (t.lower r i)) ∧
      (0 ≤ ret → ∀ a, t'.Holds a ↔ (t.upper r i).Has a ∨ (t.set i (t.lower r i)).Holds a) := by
  have hlt := (h.valid i (.inl hi)).lt
  have hbase : (t.upper r i).base = r.base+r.size := rfl
  have hvalid : (t.upper r i).Valid := by
    unfold upper
    exact ⟨by dsimp only; omega,by dsimp only; omega⟩
  have hapart := upper_apart h hi hin
  have hfree : (t.set i (t.lower r i)).Free (t.upper r i) := by
    intro j hj
    have hside := hapart j hj
    omega
  have htouch : ∀ j < t.cnt, ¬(t.set i (t.lower r i)).Touches (t.upper r i) j := by
    intro j hj
    have hside := hapart j hj
    unfold Touches
    omega
  obtain ⟨ret,t',hresult,hproper,hneg,hsame,hholds⟩ :=
    (proper_lower h hi hin).addRegion (Nat.le_refl 1) (Nat.zero_lt_of_lt hi) hvalid hfree
  exact ⟨ret,t',hresult,hproper,hneg.trans (and_iff_left htouch),hsame,hholds⟩

end Middle

/-- A range is freed if and only if the condition holds. Otherwise it is lost that the part above
the range was reserved. -/
theorem Proper.frees_iff (h : t.Proper 1) (hpos : 0 < r.size) (hin : ∃ i < t.cnt, t.Inside r i) :
    (t.FitsFree r → t.Frees r) ∧ (¬t.FitsFree r → ∃ ret t', t.free r.base r.size = some (ret,t') ∧
      ret < 0 ∧ t.Holds r.base ∧ ¬t'.Holds r.base) := by
  have hvalid : ∀ i < t.cnt, (t.region i).base+(t.region i).size < word := fun i hi =>
    (h.valid i (.inl hi)).lt
  obtain ⟨i0,hi0,hin0⟩ := hin
  have hlt0 := hvalid i0 hi0
  obtain ⟨i,hi,hfind,hinside⟩ := findLoop_eq
    (show r.base+r.size < word by unfold Inside at hin0; omega) hvalid t.cnt 0 (Nat.zero_add _)
    ⟨i0,Nat.zero_le i0,hi0,hin0⟩
  by_cases hmatch : (t.region i).base = r.base ∨ (t.region i).base+(t.region i).size = r.base+r.size
  · refine ⟨fun _ => frees_matching h hpos hi hinside hfind hmatch,fun hfits => absurd ?_ hfits⟩
    refine .inr fun j hj hinj => ?_
    -- the range is in one region only
    have hji : j = i := by
      by_contra hne
      rcases Nat.lt_or_gt_of_ne hne with hlow | hup
      · have hbelow : (t.region j).Below 1 (t.region i) := h.sorted j i hlow hi
        unfold Region.Below at hbelow
        unfold Inside at hinj hinside
        omega
      have hbelow : (t.region i).Below 1 (t.region j) := h.sorted i j hup hj
      unfold Region.Below at hbelow
      unfold Inside at hinj hinside
      omega
    rw [hji]
    exact hmatch
  have hstrict : (t.region i).base < r.base ∧ r.base+r.size < (t.region i).base+(t.region i).size := by
    unfold Inside at hinside
    omega
  obtain ⟨ret,t',hresult,hproper,hneg,hsame,hholds⟩ := addRegion_upper h hi hstrict hpos
  have hfree := (free_middle h hi hstrict hfind).trans hresult
  have hparts : ∀ a, (t.set i (t.lower r i)).Holds a ↔ (t.lower r i).Has a ∨
      ∃ j < t.cnt, j ≠ i ∧ (t.region j).Has a := fun a =>
    exists_set (P := fun r : Region => r.Has a) hi
  constructor
  · intro hfits
    have hroom : t.cnt ≠ maxLmbRegions := hfits.resolve_right fun hall => hmatch (hall i hi hinside)
    have hret : 0 ≤ ret := Int.not_lt.mp fun hlt => hroom (hneg.mp hlt)
    refine ⟨ret,t',hfree,hret,hproper,fun a => ?_⟩
    rw [hholds hret,hparts,h.holds_without hi hinside,← or_assoc]
    refine or_congr_left ?_
    unfold Region.Has lower upper
    dsimp only
    omega
  intro hfits
  have hlt : ret < 0 := hneg.mpr (not_not.mp fun hne => hfits (.inl hne))
  refine ⟨ret,t',hfree,hlt,⟨i,hi,?_⟩,?_⟩
  · unfold Region.Has
    omega
  rw [hsame hlt,hparts]
  rintro (hhas | hother)
  · unfold Region.Has lower at hhas
    dsimp only at hhas
    omega
  have hnot := (h.holds_without hi hinside r.base).mpr (.inr hother)
  exact hnot.2 ⟨le_rfl,by omega⟩

def Tidy (t : Table) : Prop :=
  t.Sorted 1 ∧ ∀ i < t.cnt, (t.region i).base+(t.region i).size < word

def Good (t : Table) : Prop := (t.Dummy ∧ (t.region 0).base < word) ∨ t.Proper 1

lemma Good.tidy (h : t.Good) : t.Tidy := by
  rcases h with ⟨⟨hcnt,hsize⟩,hbase⟩ | h
  · refine ⟨fun i j hij hj => by omega,fun i hi => ?_⟩
    obtain rfl : i = 0 := by omega
    omega
  · exact ⟨h.sorted,fun i hi => (h.valid i (.inl hi)).lt⟩

lemma Good.addRegion (h : t.Good) (hr : r.Valid) (hfree : t.Free r) (hfits : t.cnt ≠ 0 ∨ t.FitsEmptied r) :
    ∃ ret t', t.addRegion r.base r.size = some (ret,t') ∧ t'.Good ∧ t'.cnt ≠ 0 ∧
      ∀ a, t'.Holds a ↔ t.Holds a ∨ (0 ≤ ret ∧ r.Has a) := by
  have hsome : ∀ t' : Table, (∀ a, r.Has a → t'.Holds a) → t'.cnt ≠ 0 := by
    intro t' hholds hcnt
    have hrpos := hr.pos
    obtain ⟨i,hi,-⟩ := hholds r.base ⟨le_rfl,by omega⟩
    omega
  rcases h with ⟨hdummy,-⟩ | h
  · obtain ⟨t',hadd,hproper,hholds⟩ := hdummy.addRegion 1 hr
    refine ⟨0,t',hadd,.inr hproper,hsome t' fun a => (hholds a).mpr,fun a => ?_⟩
    rw [hholds]
    exact ⟨fun hhas => .inr ⟨Int.le_refl 0,hhas⟩, fun hor => (hor.resolve_left (hdummy.not_holds a)).2⟩
  by_cases hcnt : t.cnt = 0
  · obtain ⟨t',hadd,hproper,hholds⟩ :=
      addRegion_emptied 1 hcnt hr (hfits.resolve_left (not_not.mpr hcnt))
    refine ⟨0,t',hadd,.inr hproper,hsome t' fun a => (hholds a).mpr,fun a => ?_⟩
    rw [hholds]
    refine ⟨fun hhas => .inr ⟨Int.le_refl 0,hhas⟩,?_⟩
    rintro (⟨i,hi,-⟩ | ⟨-,hhas⟩)
    · omega
    · exact hhas
  obtain ⟨ret,t',hadd,hproper,-,hsame,hholds⟩ :=
    h.addRegion (Nat.le_refl 1) (Nat.pos_of_ne_zero hcnt) hr hfree
  refine ⟨ret,t',hadd,.inr hproper,?_,fun a => ?_⟩
  · by_cases hret : ret < 0
    · rw [hsame hret]
      exact hcnt
    · exact hsome t' fun a hhas => (hholds (Int.not_lt.mp hret) a).mpr (.inl hhas)
  by_cases hret : ret < 0
  · rw [hsame hret]
    exact ⟨.inl,fun hor => hor.resolve_right fun hand => absurd hand.1 (by omega)⟩
  rw [hholds (Int.not_lt.mp hret),or_comm]
  exact or_congr_right ⟨fun hhas => ⟨Int.not_lt.mp hret,hhas⟩,And.right⟩

end Table

namespace Blocks

/-- The ranges that are added do not overlap what the table holds, and those that are freed are
inside one reserved region. -/
def Valid (lmb : Blocks) : Op → Prop
  | .add base size => Region.Valid ⟨base,size⟩ ∧ lmb.memory.Free ⟨base,size⟩
  | .reserve base size => Region.Valid ⟨base,size⟩ ∧ lmb.reserved.Free ⟨base,size⟩
  | .free base size => 0 < size ∧ ∃ i < lmb.reserved.cnt, lmb.reserved.Inside ⟨base,size⟩ i

def Fits (lmb : Blocks) : Op → Prop
  | .add _ _ => True
  | .reserve base size => lmb.reserved.cnt ≠ 0 ∨ lmb.reserved.FitsEmptied ⟨base,size⟩
  | .free base size => lmb.reserved.FitsFree ⟨base,size⟩

def memoryAfter (lmb : Blocks) (ret : Int) (a : Nat) : Op → Prop
  | .add base size => lmb.memory.Holds a ∨ (0 ≤ ret ∧ Region.Has ⟨base,size⟩ a)
  | _ => lmb.memory.Holds a

def reservedAfter (lmb : Blocks) (ret : Int) (a : Nat) : Op → Prop
  | .add _ _ => lmb.reserved.Holds a
  | .reserve base size => lmb.reserved.Holds a ∨ (0 ≤ ret ∧ Region.Has ⟨base,size⟩ a)
  | .free base size => lmb.reserved.Holds a ∧ ¬(0 ≤ ret ∧ Region.Has ⟨base,size⟩ a)

def StepOk (lmb : Blocks) (op : Op) : Prop :=
  ∃ ret lmb', lmb.apply op = some (ret,lmb') ∧ lmb'.memory.Tidy ∧ lmb'.reserved.Tidy ∧
    ∀ a, (lmb'.memory.Holds a ↔ lmb.memoryAfter ret a op) ∧
      (lmb'.reserved.Holds a ↔ lmb.reservedAfter ret a op)

structure Inv (lmb : Blocks) : Prop where
  memory : lmb.memory.Good
  used : lmb.memory.cnt ≠ 0
  reserved : lmb.reserved.Good

variable {lmb : Blocks} {op : Op}

lemma Inv.reserved_proper (h : Inv lmb) {r : Region} (hpos : 0 < r.size)
    (hin : ∃ i < lmb.reserved.cnt, lmb.reserved.Inside r i) : lmb.reserved.Proper 1 := by
  rcases h.reserved with ⟨⟨hcnt,hsize⟩,-⟩ | hproper
  · obtain ⟨i,hi,hinside⟩ := hin
    obtain rfl : i = 0 := by omega
    unfold Table.Inside at hinside
    omega
  · exact hproper

section
variable (h : Inv lmb) (hvalid : lmb.Valid op)
include h hvalid

lemma Inv.step (hfits : lmb.Fits op) : ∃ ret lmb', lmb.apply op = some (ret,lmb') ∧ Inv lmb' ∧
      ∀ a, (lmb'.memory.Holds a ↔ lmb.memoryAfter ret a op) ∧
        (lmb'.reserved.Holds a ↔ lmb.reservedAfter ret a op) := by
  cases op with
  | add base size =>
    obtain ⟨ret,t',hadd,hgood,hcnt,hholds⟩ :=
      h.memory.addRegion hvalid.1 hvalid.2 (.inl h.used)
    refine ⟨ret,{lmb with memory := t'},?_,⟨hgood,hcnt,h.reserved⟩,fun a => ?_⟩
    · rw [apply,hadd]
      rfl
    · exact ⟨hholds a,Iff.rfl⟩
  | reserve base size =>
    obtain ⟨ret,t',hadd,hgood,hcnt,hholds⟩ := h.reserved.addRegion hvalid.1 hvalid.2 hfits
    refine ⟨ret,{lmb with reserved := t'},?_,⟨h.memory,h.used,hgood⟩,fun a => ?_⟩
    · rw [apply,hadd]
      rfl
    · exact ⟨Iff.rfl,hholds a⟩
  | free base size =>
    have hproper := h.reserved_proper hvalid.1 hvalid.2
    obtain ⟨ret,t',hfree,hret,hproper',hholds⟩ :=
      (hproper.frees_iff hvalid.1 hvalid.2).1 hfits
    refine ⟨ret,{lmb with reserved := t'},?_,⟨h.memory,h.used,.inr hproper'⟩,fun a => ?_⟩
    · rw [apply,hfree]
      rfl
    refine ⟨Iff.rfl,(hholds a).trans (and_congr_right fun _ => not_congr ?_)⟩
    exact ⟨fun hhas => ⟨hret,hhas⟩,And.right⟩

lemma Inv.stepOk (hfits : lmb.Fits op) : lmb.StepOk op := by
  obtain ⟨ret,lmb',happly,hinv,hsets⟩ := h.step hvalid hfits
  exact ⟨ret,lmb',happly,hinv.memory.tidy,hinv.reserved.tidy,hsets⟩

lemma Inv.not_stepOk (hfits : ¬lmb.Fits op) : ¬lmb.StepOk op := by
  cases op with
  | add base size => exact absurd trivial hfits
  | reserve base size =>
    obtain ⟨hcnt,hemptied⟩ := not_or.mp hfits
    rw [not_not] at hcnt
    have hproper : lmb.reserved.Proper 1 := by
      rcases h.reserved with ⟨⟨hone,-⟩,-⟩ | hproper
      · omega
      · exact hproper
    rintro ⟨ret,lmb',happly,-,-,hsets⟩
    obtain ⟨⟨ret',t'⟩,hadd,heq⟩ := Option.map_eq_some_iff.mp happly
    obtain ⟨rfl,rfl⟩ := Prod.mk.inj heq
    obtain ⟨hret,hwrong⟩ := hproper.emptied_wrong hcnt hvalid.1 hemptied hadd
    refine hwrong fun a => (hsets a).2.trans ⟨?_,fun hhas => .inr ⟨hret,hhas⟩⟩
    rintro (⟨i,hi,-⟩ | ⟨-,hhas⟩)
    · omega
    · exact hhas
  | free base size =>
    have hproper := h.reserved_proper hvalid.1 hvalid.2
    obtain ⟨ret,t',hfree,hret,hholds,hlost⟩ :=
      (hproper.frees_iff hvalid.1 hvalid.2).2 hfits
    rintro ⟨ret',lmb',happly,-,-,hsets⟩
    have happly' : lmb.apply (.free base size) = some (ret,{lmb with reserved := t'}) := by
      rw [apply,hfree]
      rfl
    obtain ⟨rfl,rfl⟩ := Prod.mk.inj (Option.some.inj (happly'.symm.trans happly))
    exact hlost ((hsets base).2.mpr ⟨hholds,fun hand => absurd hand.1 (by omega)⟩)

end

def run (lmb : Blocks) : List Op → Option Blocks
  | [] => some lmb
  | op::ops => (lmb.apply op).bind fun r => r.2.run ops

def AllMet (lmb : Blocks) : List Op → Prop
  | [] => True
  | op::ops => lmb.Valid op ∧ lmb.Fits op ∧
      match lmb.apply op with
      | some r => r.2.AllMet ops
      | none => True

def AllOk (lmb : Blocks) : List Op → Prop
  | [] => True
  | op::ops => lmb.StepOk op ∧
      match lmb.apply op with
      | some r => r.2.AllOk ops
      | none => True

lemma Inv.run : ∀ {ops : List Op} {lmb : Blocks}, Inv lmb → lmb.AllMet ops →
    lmb.AllOk ops ∧ ∃ lmb', lmb.run ops = some lmb' ∧ Inv lmb' := by
  intro ops
  induction ops with
  | nil => exact fun h _ => ⟨trivial,_,rfl,h⟩
  | cons op ops ih =>
    rintro lmb h ⟨hvalid,hfits,hrest⟩
    obtain ⟨ret,lmb1,happly,hinv,-⟩ := h.step hvalid hfits
    rw [happly] at hrest
    obtain ⟨hok,lmb',hrun,hinv'⟩ := ih hinv hrest
    refine ⟨⟨h.stepOk hvalid hfits,?_⟩,lmb',?_,hinv'⟩
    · rw [happly]
      exact hok
    rw [Blocks.run,happly]
    exact hrun

lemma inv_init (memory reserved : Nat → Region) : Inv (init memory reserved) := by
  have hdummy : ∀ region, (Table.init region).Good := by
    intro region
    refine .inl ⟨⟨rfl,?_⟩,?_⟩
    · change (update region 0 ⟨0,0⟩ 0).size = 0
      rw [update_self]
    change (update region 0 ⟨0,0⟩ 0).base < word
    rw [update_self]
    decide
  exact ⟨hdummy memory,Nat.one_ne_zero,hdummy reserved⟩

/-- In every run of valid calls that meet the condition each call leaves sorted tables that denote
what they should. In a state reached by such a run exactly the valid calls that meet the condition
do so. -/
theorem tables_denote_sets (memory reserved : Nat → Region) (ops : List Op)
    (hmet : (init memory reserved).AllMet ops) :
    (init memory reserved).AllOk ops ∧ ∃ lmb, (init memory reserved).run ops = some lmb ∧
      ∀ op, lmb.Valid op → (lmb.StepOk op ↔ lmb.Fits op) := by
  obtain ⟨hok,lmb,hrun,hinv⟩ := (inv_init memory reserved).run hmet
  refine ⟨hok,lmb,hrun,fun op hvalid => ?_⟩
  constructor
  · intro hstep
    by_contra hfits
    exact hinv.not_stepOk hvalid hfits hstep
  · exact hinv.stepOk hvalid

end Blocks

instance (r : Region) : Decidable r.Valid :=
  decidable_of_iff (0 < r.size ∧ r.base+r.size < word) ⟨fun h => ⟨h.1,h.2⟩,fun h => ⟨h.pos,h.lt⟩⟩

instance (t : Table) (r : Region) : Decidable (t.Free r) :=
  inferInstanceAs (Decidable (∀ i < t.cnt, _ ∨ _))

instance (t : Table) (r : Region) (i : Nat) : Decidable (t.Inside r i) :=
  inferInstanceAs (Decidable (_ ∧ _))

instance (t : Table) (r : Region) : Decidable (t.FitsEmptied r) :=
  inferInstanceAs (Decidable (_ ∧ (_ ∨ _)))

instance (t : Table) (r : Region) : Decidable (t.FitsFree r) :=
  inferInstanceAs (Decidable (_ ∨ ∀ i < t.cnt, t.Inside r i → _ ∨ _))

instance (t : Table) (a : Nat) : Decidable (t.Holds a) :=
  inferInstanceAs (Decidable (∃ i < t.cnt, _ ∧ _))

instance (lmb : Blocks) : ∀ op, Decidable (lmb.Valid op)
  | .add _ _ => inferInstanceAs (Decidable (_ ∧ _))
  | .reserve _ _ => inferInstanceAs (Decidable (_ ∧ _))
  | .free _ _ => inferInstanceAs (Decidable (_ ∧ ∃ i < lmb.reserved.cnt, _))

instance (lmb : Blocks) : ∀ op, Decidable (lmb.Fits op)
  | .add _ _ => isTrue trivial
  | .reserve _ _ => inferInstanceAs (Decidable (_ ∨ _))
  | .free base size => inferInstanceAs (Decidable (lmb.reserved.FitsFree ⟨base,size⟩))

instance decidableAllMet : ∀ (lmb : Blocks) ops, Decidable (lmb.AllMet ops)
  | _, [] => isTrue trivial
  | lmb, op::ops =>
    have : Decidable (match lmb.apply op with
        | some r => r.2.AllMet ops
        | none => True) :=
      match lmb.apply op with
      | some r => decidableAllMet r.2 ops
      | none => isTrue trivial
    inferInstanceAs (Decidable (_ ∧ _ ∧ _))

def fillReserved : List Op := (List.range 8).map fun i => .reserve (0x10000*i) 0x3000

/-- After everything was freed, a reservation brings back the region that was freed last. And when
the table is full, freeing the middle of a region returns an error but takes its upper part away. -/
theorem emptied_and_full_tables_go_wrong : (((Blocks.init (fun _ => ⟨0,0⟩) fun _ => ⟨0,0⟩).run
        [.reserve 0x1000 0x1000,.free 0x1000 0x1000]).bind fun lmb =>
      (lmb.apply (.reserve 0x3000 0x1000)).map fun r =>
        (decide (lmb.Valid (.reserve 0x3000 0x1000)),r.1,decide (r.2.reserved.Holds 0x1000),
          decide (r.2.reserved.Holds 0x3000))) = some (true,0,true,false) ∧
    (((Blocks.init (fun _ => ⟨0,0⟩) fun _ => ⟨0,0⟩).run fillReserved).bind fun lmb =>
      (lmb.apply (.free 0x11000 0x1000)).map fun r =>
        (decide (lmb.Valid (.free 0x11000 0x1000)),r.1,decide (lmb.reserved.Holds 0x12000),
          decide (r.2.reserved.Holds 0x12000))) = some (true,-1,true,false) := by
  decide +kernel

theorem tables_denote_sets_split_and_join : ∃ lmb, (Blocks.init (fun _ => ⟨0,0⟩) fun _ => ⟨0,0⟩).run [.add 0 0x100000,
        .reserve 0x1000 0x3000,.free 0x2000 0x1000,.reserve 0x2000 0x1000] = some lmb ∧
      ∀ op, lmb.Valid op → (lmb.StepOk op ↔ lmb.Fits op) :=
  (Blocks.tables_denote_sets (fun _ => ⟨0,0⟩) (fun _ => ⟨0,0⟩) [.add 0 0x100000,
    .reserve 0x1000 0x3000,.free 0x2000 0x1000,.reserve 0x2000 0x1000] (by decide +kernel)).2

end LinuxToradex.Lmb

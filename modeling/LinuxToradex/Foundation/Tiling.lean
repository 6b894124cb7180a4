import Mathlib

/-! Pieces with a base and a size that lie one behind the other without a gap. Which of them touch is decided
by their addresses alone. -/
namespace Tiling
open List

variable {ι : Type*} {base size base' size' : ι → Nat} {l m : List ι} {a b c : Nat} {i j : ι}

def Tiles (base size : ι → Nat) : List ι → Nat → Nat → Prop
  | [], a, b => a = b
  | i::l, a, b => base i = a ∧ 0 < size i ∧ Tiles base size l (a+size i) b

instance decidableTiles (base size : ι → Nat) : (l : List ι) → (a b : Nat) →
    Decidable (Tiles base size l a b)
  | [], a, b => inferInstanceAs (Decidable (a = b))
  | i::l, a, b =>
    have := decidableTiles base size l (a+size i) b
    inferInstanceAs (Decidable (base i = a ∧ 0 < size i ∧ Tiles base size l (a+size i) b))

lemma Tiles.cons {n : Nat} (hb : base i = a) (hs : size i = n) (hpos : 0 < n)
    (h : Tiles base size l (a+n) b) : Tiles base size (i::l) a b := by
  subst hs
  exact ⟨hb,hpos,h⟩

lemma tiles_append : Tiles base size (l++m) a c ↔ ∃ b, Tiles base size l a b ∧ Tiles base size m b c := by
  induction l generalizing a with
  | nil => simp [Tiles]
  | cons i l ih =>
    simp only [cons_append,Tiles,ih]
    constructor
    · rintro ⟨hb,hs,b,hl,hm⟩
      exact ⟨b,⟨hb,hs,hl⟩,hm⟩
    rintro ⟨b,⟨hb,hs,hl⟩,hm⟩
    exact ⟨hb,hs,b,hl,hm⟩

lemma tiles_congr (h : ∀ i ∈ l, base' i = base i ∧ size' i = size i) :
    Tiles base' size' l a b ↔ Tiles base size l a b := by
  induction l generalizing a with
  | nil => rfl
  | cons i l ih =>
    obtain ⟨hb,hs⟩ := h i mem_cons_self
    have hl := fun j hj => h j (mem_cons_of_mem i hj)
    rw [Tiles,Tiles,hb,hs,ih hl]

section
variable (h : Tiles base size l a b)
include h

lemma Tiles.le : a ≤ b := by
  induction l generalizing a with
  | nil => exact h.le
  | cons i l ih =>
    have hle := ih h.2.2
    omega

lemma Tiles.bounds (hi : i ∈ l) : a ≤ base i ∧ base i+size i ≤ b ∧ 0 < size i := by
  induction l generalizing a with
  | nil => cases hi
  | cons j l ih =>
    obtain ⟨hb,hs,hl⟩ := h
    rcases mem_cons.mp hi with rfl | hi
    · have hle := hl.le
      omega
    have hrec := ih hl hi
    omega

lemma Tiles.cover {x : Nat} (ha : a ≤ x) (hb : x < b) : ∃ i ∈ l, base i ≤ x ∧ x < base i+size i := by
  induction l generalizing a with
  | nil =>
    have he : a = b := h
    omega
  | cons i l ih =>
    obtain ⟨hbase,hs,hl⟩ := h
    by_cases hx : x < a+size i
    · exact ⟨i,mem_cons_self,by omega,by omega⟩
    obtain ⟨j,hj,hspan⟩ := ih hl (by omega)
    exact ⟨j,mem_cons_of_mem _ hj,hspan⟩

lemma Tiles.pairwise : l.Pairwise fun i j => base i+size i ≤ base j := by
  induction l generalizing a with
  | nil => exact List.Pairwise.nil
  | cons i l ih =>
    obtain ⟨hb,hs,hl⟩ := h
    refine pairwise_cons.mpr ⟨fun j hj => ?_,ih hl⟩
    have hle := (hl.bounds hj).1
    omega

lemma Tiles.nodup : l.Nodup := by
  refine h.pairwise.imp_of_mem fun hi _ hle he => ?_
  have hpos := (h.bounds hi).2.2
  rw [← he] at hle
  omega

lemma Tiles.disjoint (hi : i ∈ l) (hj : j ∈ l) (hne : i ≠ j) : base i+size i ≤ base j ∨ base j+size j ≤ base i := by
  have hpairs : l.Pairwise fun i j =>
      base i+size i ≤ base j ∨ base j+size j ≤ base i := h.pairwise.imp .inl
  have hsymm : Std.Symm fun i j =>
      base i+size i ≤ base j ∨ base j+size j ≤ base i := ⟨fun _ _ => Or.symm⟩
  exact hpairs.forall hi hj hne

lemma Tiles.eq_of_common (hi : i ∈ l) (hj : j ∈ l) {x : Nat}
    (hxi : base i ≤ x ∧ x < base i+size i) (hxj : base j ≤ x ∧ x < base j+size j) : i = j := by
  by_contra hne
  have hdis := h.disjoint hi hj hne
  omega

lemma Tiles.base_inj (hi : i ∈ l) (hj : j ∈ l) (hbase : base i = base j) : i = j := by
  by_contra hne
  have hpi := (h.bounds hi).2.2
  have hpj := (h.bounds hj).2.2
  have hdis := h.disjoint hi hj hne
  omega

end

variable {l1 l2 : List ι}

lemma Tiles.next (h : Tiles base size (l1++i::l2) a b) (hj : j ∈ l1++i::l2)
    (hbase : base j = base i+size i) : ∃ l, l2 = j::l := by
  obtain ⟨c,-,hb,hs,hl⟩ := tiles_append.mp h
  have hbounds := h.bounds hj
  rcases l2 with _ | ⟨k,l⟩
  · have hend : c+size i = b := hl
    omega
  have hk : base k = base j := by
    rw [hl.1]
    omega
  have hmem : k ∈ l1++i::k::l := by simp
  exact ⟨l,by rw [h.base_inj hmem hj hk]⟩

lemma Tiles.touch (h : Tiles base size (l1++i::j::l2) a b) : base i+size i = base j := by
  obtain ⟨c,-,hb,hs,hb',-⟩ := tiles_append.mp h
  omega

lemma Tiles.prev (h : Tiles base size (l1++i::l2) a b) (hj : j ∈ l1++i::l2)
    (hend : base j+size j = base i) : ∃ l, l1 = l++[j] := by
  have hbounds := h.bounds hj
  rcases eq_nil_or_concat l1 with rfl | ⟨l,k,rfl⟩
  · have hfirst : base i = a := h.1
    omega
  rw [concat_eq_append] at h hj
  have hk : k ∈ l++[k]++i::l2 := by simp
  have htouch : base k+size k = base i := by
    rw [append_assoc,singleton_append] at h
    exact h.touch
  have hsame : j = k := by
    by_contra hne
    have hdis := h.disjoint hj hk hne
    have hpos := (h.bounds hk).2.2
    omega
  exact ⟨l,by rw [hsame,concat_eq_append]⟩

lemma Tiles.replace (h : Tiles base size (l1++i::l2) a b)
    (hsame : ∀ j ∈ l1++l2, base' j = base j ∧ size' j = size j)
    (hm : Tiles base' size' m (base i) (base i+size i)) : Tiles base' size' (l1++(m++l2)) a b := by
  obtain ⟨c,hl1,hb,hs,hl2⟩ := tiles_append.mp h
  subst hb
  refine tiles_append.mpr ⟨_,(tiles_congr fun j hj => hsame j (by simp [hj])).mpr hl1,?_⟩
  exact tiles_append.mpr ⟨_,hm,(tiles_congr fun j hj => hsame j (by simp [hj])).mpr hl2⟩

lemma Tiles.total (h : Tiles base size l a b) : b = a+(l.map size).sum := by
  induction l generalizing a with
  | nil => exact h.symm
  | cons i l ih =>
    rw [ih h.2.2,map_cons,sum_cons,Nat.add_assoc]

lemma Tiles.collapse (h : Tiles base size (l1++i::(m++l2)) a b)
    (hsame : ∀ k ∈ l1++l2, base' k = base k ∧ size' k = size k) (hbase : base' i = base i)
    (hsize : size' i = size i+(m.map size).sum) : Tiles base' size' (l1++i::l2) a b := by
  obtain ⟨c,hl1,hb,hs,hrest⟩ := tiles_append.mp h
  obtain ⟨e,hm,hl2⟩ := tiles_append.mp hrest
  have he := hm.total
  refine tiles_append.mpr ⟨c,(tiles_congr fun k hk => hsame k (by simp [hk])).mpr hl1,?_⟩
  refine ⟨hbase.trans hb,by omega,?_⟩
  rw [hsize,← Nat.add_assoc,← he]
  exact (tiles_congr fun k hk => hsame k (by simp [hk])).mpr hl2

lemma Tiles.merge (h : Tiles base size (l1++i::j::l2) a b)
    (hsame : ∀ k ∈ l1++l2, base' k = base k ∧ size' k = size k) (hbase : base' i = base i)
    (hsize : size' i = size i+size j) : Tiles base' size' (l1++i::l2) a b :=
  Tiles.collapse (m := [j]) h hsame hbase (by simpa using hsize)

end Tiling

namespace Tiling
open List

variable {ι : Type*} {base size base' size' : ι → Nat} {all free : List ι} {lo hi : Nat}
  {b n : ι}

structure Layout (base size : ι → Nat) (all free : List ι) (lo hi : Nat) : Prop where
  tiles : Tiles base size all lo hi
  subset : ∀ i ∈ free, i ∈ all
  sorted : free.Pairwise fun i j => base i < base j
  apart : ∀ i ∈ free, ∀ j ∈ free, base i+size i ≠ base j

namespace Layout

variable {x : Nat} {i j : ι}
variable {l1 l2 f1 f2 : List ι}

section
variable (h : Layout base size all free lo hi)
include h

lemma free_nodup : free.Nodup := by
  refine h.sorted.imp fun hlt he => ?_
  rw [he] at hlt
  exact hlt.false

lemma congr (hsame : ∀ i ∈ all, base' i = base i ∧ size' i = size i) : Layout base' size' all free lo hi := by
  refine ⟨(tiles_congr hsame).mpr h.tiles,h.subset,?_,?_⟩
  · refine h.sorted.imp_of_mem fun hi hj hlt => ?_
    rwa [(hsame _ (h.subset _ hi)).1,(hsame _ (h.subset _ hj)).1]
  intro i hi j hj
  rw [(hsame i (h.subset i hi)).1,(hsame i (h.subset i hi)).2,(hsame j (h.subset j hj)).1]
  exact h.apart i hi j hj

lemma run_of_free {y : Nat} (hxy : x < y) (hfree : ∀ z, x ≤ z → z < y → ∃ i ∈ free, base i ≤ z ∧ z < base i+size i) :
    ∃ i ∈ free, base i ≤ x ∧ y ≤ base i+size i := by
  obtain ⟨i,hi,hix⟩ := hfree x (le_refl x) hxy
  refine ⟨i,hi,hix.1,?_⟩
  by_contra hend
  obtain ⟨j,hj,hjz⟩ := hfree (base i+size i) (by omega) (by omega)
  have hne : i ≠ j := by
    rintro rfl
    omega
  have hdis := h.tiles.disjoint (h.subset i hi) (h.subset j hj) hne
  have hapart := h.apart i hi j hj
  omega

lemma not_free_below (hi : i ∈ free) (hj : j ∈ free) (hlt : base j < base i) : base j+size j < base i := by
  have hne : j ≠ i := by
    rintro rfl
    exact hlt.false
  have hdis := h.tiles.disjoint (h.subset j hj) (h.subset i hi) hne
  have hapart := h.apart j hj i hi
  omega

lemma free_pairwise : free.Pairwise fun i j => base i+size i ≤ base j := by
  refine h.sorted.imp_of_mem fun {i j} hi hj hlt => ?_
  have hne : i ≠ j := by
    rintro rfl
    exact hlt.false
  have hdis := h.tiles.disjoint (h.subset i hi) (h.subset j hj) hne
  omega

lemma not_both_free (hall : all = l1++i::j::l2) : ¬(i ∈ free ∧ j ∈ free) := by
  rintro ⟨hi,hj⟩
  have htiles := h.tiles
  rw [hall] at htiles
  exact h.apart i hi j hj htiles.touch

end

/-- What is left of a piece when a part of it is taken: at most one piece on either side. -/
structure Carved (base size base' size' : ι → Nat) (b : ι) (front rear : Option ι) : Prop where
  pos : 0 < size' b
  front : Tiles base' size' front.toList (base b) (base' b)
  rear : Tiles base' size' rear.toList (base' b+size' b) (base b+size b)

section Carve

variable {front rear : Option ι}

section
variable (c : Carved base size base' size' b front rear)
include c

lemma Carved.bounds : base b ≤ base' b ∧ base' b+size' b ≤ base b+size b := ⟨c.front.le,c.rear.le⟩

lemma Carved.of_front (hi : i ∈ front.toList) : base' i = base b ∧ base b+size' i = base' b ∧ 0 < size' i := by
  have ht := c.front
  rw [Option.mem_toList.mp hi] at ht
  exact ⟨ht.1,ht.2.2,ht.2.1⟩

lemma Carved.of_rear (hi : i ∈ rear.toList) : base' i = base' b+size' b ∧
      base' b+size' b+size' i = base b+size b ∧ 0 < size' i := by
  have ht := c.rear
  rw [Option.mem_toList.mp hi] at ht
  exact ⟨ht.1,ht.2.2,ht.2.1⟩

end

section
variable (h : Layout base size all (f1++b::f2) lo hi)
include h

lemma outside : (∀ i ∈ f1, base i+size i ≤ base b) ∧ ∀ i ∈ f2, base b+size b ≤ base i := by
  have hsorted := h.sorted
  rw [pairwise_append,pairwise_cons] at hsorted
  obtain ⟨-,⟨hsb,-⟩,hs1⟩ := hsorted
  have hb := h.subset b (by simp)
  constructor
  · intro i hi
    have hlt := hs1 i hi b mem_cons_self
    have hin := h.subset i (by simp [hi])
    have hdis := h.tiles.disjoint hin hb (fun he => by subst he; omega)
    omega
  intro i hi
  have hlt := hsb i hi
  have hin := h.subset i (by simp [hi])
  have hdis := h.tiles.disjoint hin hb (fun he => by subst he; omega)
  omega

lemma carve_sorted (c : Carved base size base' size' b front rear) (hsame : ∀ i ∈ f1++f2, base' i = base i) :
    (f1++((front.toList++rear.toList)++f2)).Pairwise fun i j => base' i < base' j := by
  have hsorted := h.sorted
  rw [pairwise_append,pairwise_cons] at hsorted
  obtain ⟨hs1,⟨hsb,hs2⟩,hs12⟩ := hsorted
  obtain ⟨hout1,hout2⟩ := h.outside
  have hbounds := c.bounds
  have hsame1 : ∀ i ∈ f1, base' i = base i := fun i hi => hsame i (by simp [hi])
  have hsame2 : ∀ i ∈ f2, base' i = base i := fun i hi => hsame i (by simp [hi])
  have hmid : ∀ i ∈ front.toList++rear.toList, base b ≤ base' i ∧ base' i < base b+size b := by
    intro i hi
    rcases mem_append.mp hi with hi | hi
    · have hf := c.of_front hi
      omega
    have hr := c.of_rear hi
    omega
  refine pairwise_append.mpr ⟨?_,pairwise_append.mpr ⟨?_,?_,?_⟩,?_⟩
  · refine hs1.imp_of_mem fun hi hj hlt => ?_
    rwa [hsame1 _ hi,hsame1 _ hj]
  · refine pairwise_append.mpr ⟨?_,?_,?_⟩
    · cases front <;> simp
    · cases rear <;> simp
    intro i hi j hj
    have hf := c.of_front hi
    have hr := c.of_rear hj
    omega
  · refine hs2.imp_of_mem fun hi hj hlt => ?_
    rwa [hsame2 _ hi,hsame2 _ hj]
  · intro i hi j hj
    have hm := hmid i hi
    have ho := hout2 j hj
    rw [hsame2 j hj]
    omega
  intro i hi j hj
  have hlt := hs12 i hi b mem_cons_self
  rw [hsame1 i hi]
  rcases mem_append.mp hj with hj | hj
  · have hm := hmid j hj
    omega
  rw [hsame2 j hj]
  exact hs12 i hi j (mem_cons_of_mem b hj)

lemma carve_apart (c : Carved base size base' size' b front rear)
    (hsame : ∀ i ∈ f1++f2, base' i = base i ∧ size' i = size i) : ∀ i ∈ f1++((front.toList++rear.toList)++f2),
      ∀ j ∈ f1++((front.toList++rear.toList)++f2), base' i+size' i ≠ base' j := by
  have hpos := c.pos
  have hbounds := c.bounds
  obtain ⟨hout1,hout2⟩ := h.outside
  have hkeep : ∀ i ∈ f1++f2, i ∈ f1++b::f2 := by
    intro i hi
    grind
  have hsplit : ∀ i ∈ f1++((front.toList++rear.toList)++f2),
      i ∈ f1++f2 ∨ i ∈ front.toList ∨ i ∈ rear.toList := by
    intro i hi
    grind
  have hout : ∀ i ∈ f1++f2, base i+size i ≤ base b ∨ base b+size b ≤ base i := by
    exact forall_mem_append.mpr ⟨fun i hi => .inl (hout1 i hi),fun i hi => .inr (hout2 i hi)⟩
  intro i hi j hj
  rcases hsplit i hi with hi | hi | hi <;> rcases hsplit j hj with hj | hj | hj
  · rw [(hsame i hi).1,(hsame i hi).2,(hsame j hj).1]
    exact h.apart i (hkeep i hi) j (hkeep j hj)
  · have ha := h.apart i (hkeep i hi) b (by simp)
    have hf := c.of_front hj
    rw [(hsame i hi).1,(hsame i hi).2,hf.1]
    exact ha
  · have ho := hout i hi
    have hr := c.of_rear hj
    rw [(hsame i hi).1,(hsame i hi).2]
    omega
  · have ho := hout j hj
    have hf := c.of_front hi
    rw [(hsame j hj).1]
    omega
  · have hf := c.of_front hi
    have hf' := c.of_front hj
    omega
  · have hf := c.of_front hi
    have hr := c.of_rear hj
    omega
  · have ha := h.apart b (by simp) j (hkeep j hj)
    have hr := c.of_rear hi
    rw [(hsame j hj).1]
    omega
  · have hr := c.of_rear hi
    have hf := c.of_front hj
    omega
  have hr := c.of_rear hi
  have hr' := c.of_rear hj
  omega

end

/-- A free piece is taken; the parts in front and behind stay free. -/
theorem carve (h : Layout base size (l1++b::l2) (f1++b::f2) lo hi)
    (c : Carved base size base' size' b front rear) (hsame : ∀ i ∈ l1++l2, base' i = base i ∧ size' i = size i) :
    Layout base' size' (l1++((front.toList++b::rear.toList)++l2))
      (f1++((front.toList++rear.toList)++f2)) lo hi := by
  have hother : ∀ i ∈ f1++f2, i ∈ l1++l2 := by
    intro i hi
    have hne : i ≠ b := by
      rintro rfl
      have hnodup := h.free_nodup
      rw [nodup_middle,nodup_cons] at hnodup
      exact hnodup.1 hi
    have hmem := h.subset i (by
      grind)
    grind
  refine ⟨?_,?_,?_,?_⟩
  · refine h.tiles.replace hsame (tiles_append.mpr ⟨_,c.front,?_⟩)
    exact ⟨rfl,c.pos,c.rear⟩
  · intro i hi
    simp only [mem_append] at hi hother
    rcases hi with hi | (hi | hi) | hi
    · have hin := hother i (.inl hi)
      grind
    · grind
    · grind
    have hin := hother i (.inr hi)
    grind
  · exact h.carve_sorted c fun i hi => (hsame i (hother i hi)).1
  · exact h.carve_apart c fun i hi => hsame i (hother i hi)

end Carve

lemma before_takeWhile (hi : i ∈ free.takeWhile fun n => decide (base n ≤ x)) : base i ≤ x := by
  have hle := mem_takeWhile_imp hi
  simpa using hle

lemma after_dropWhile (h : Layout base size all free lo hi)
    (hi : i ∈ free.dropWhile fun n => decide (base n ≤ x)) : x < base i := by
  have hsorted := h.sorted
  clear h
  induction free with
  | nil => cases hi
  | cons n l ih =>
    rw [pairwise_cons] at hsorted
    by_cases hn : base n ≤ x
    · simp only [dropWhile_cons,hn,decide_true,if_true] at hi
      exact ih hi hsorted.2
    simp only [dropWhile_cons,hn,decide_false,Bool.false_eq_true,if_false] at hi
    rcases mem_cons.mp hi with rfl | hi
    · omega
    have hlt := hsorted.1 i hi
    omega

section Release

/-- A piece that is not free takes over the free piece behind it. -/
theorem absorbNext (h : Layout base size (l1++b::n::l2) (f1++n::f2) lo hi)
    (hb : b ∉ f1++n::f2) (hbase : base' b = base b) (hsize : size' b = size b+size n)
    (hsame : ∀ i ∈ l1++l2, base' i = base i ∧ size' i = size i) :
    Layout base' size' (l1++b::l2) (f1++f2) lo hi := by
  have hkeep : ∀ i ∈ f1++f2, i ∈ f1++n::f2 := by
    intro i hi
    grind
  have hother : ∀ i ∈ f1++f2, i ∈ l1++l2 := by
    intro i hi
    have hn : i ≠ n := by
      rintro rfl
      have hnodup := h.free_nodup
      rw [nodup_middle,nodup_cons] at hnodup
      exact hnodup.1 hi
    have hmem := h.subset i (hkeep i hi)
    grind
  have hsub : (f1++f2).Sublist (f1++n::f2) :=
    (List.Sublist.refl f1).append (sublist_cons_self n f2)
  refine ⟨h.tiles.merge hsame hbase hsize,?_,?_,?_⟩
  · intro i hi
    grind
  · refine (h.sorted.sublist hsub).imp_of_mem fun hi hj hlt => ?_
    rwa [(hsame _ (hother _ hi)).1,(hsame _ (hother _ hj)).1]
  intro i hi j hj
  rw [(hsame i (hother i hi)).1,(hsame i (hother i hi)).2,(hsame j (hother j hj)).1]
  exact h.apart i (hkeep i hi) j (hkeep j hj)

/-- The free piece in front of a piece takes it over. -/
theorem absorbPrev (h : Layout base size (l1++n::b::l2) free lo hi) (hb : b ∉ free)
    (hnext : ∀ j ∈ free, base b+size b ≠ base j) (hbase : base' n = base n)
    (hsize : size' n = size n+size b) (hsame : ∀ i ∈ l1++l2, base' i = base i ∧ size' i = size i) :
    Layout base' size' (l1++n::l2) free lo hi := by
  have htouch : base n+size n = base b := h.tiles.touch
  have hmem : ∀ i ∈ free, i = n ∨ i ∈ l1++l2 := by
    intro i hi
    have hin := h.subset i hi
    grind
  have hbases : ∀ i ∈ free, base' i = base i := by
    intro i hi
    rcases hmem i hi with rfl | hi
    · exact hbase
    · exact (hsame i hi).1
  refine ⟨h.tiles.merge hsame hbase hsize,?_,?_,?_⟩
  · intro i hi
    grind
  · refine h.sorted.imp_of_mem fun hi hj hlt => ?_
    rwa [hbases _ hi,hbases _ hj]
  intro i hi j hj
  rw [hbases i hi,hbases j hj]
  rcases hmem i hi with rfl | hin
  · have hne := hnext j hj
    omega
  rw [(hsame i hin).2]
  exact h.apart i hi j hj

lemma release (h : Layout base size all (f1++f2) lo hi) (hb : b ∈ all)
    (hbefore : ∀ i ∈ f1, base i < base b) (hafter : ∀ i ∈ f2, base b < base i)
    (hnext : ∀ j ∈ f1++f2, base b+size b ≠ base j) (hprev : ∀ j ∈ f1++f2, base j+size j ≠ base b) :
    Layout base size all (f1++b::f2) lo hi := by
  have hcases : ∀ i ∈ f1++b::f2, i = b ∨ i ∈ f1++f2 := by
    intro i hi
    grind
  have hpos := (h.tiles.bounds hb).2.2
  have hsorted := h.sorted
  rw [pairwise_append] at hsorted
  obtain ⟨hs1,hs2,hs12⟩ := hsorted
  refine ⟨h.tiles,?_,?_,?_⟩
  · intro i hi
    rcases hcases i hi with rfl | hi
    · exact hb
    · exact h.subset i hi
  · refine pairwise_append.mpr ⟨hs1,pairwise_cons.mpr ⟨hafter,hs2⟩,?_⟩
    exact fun i hi => forall_mem_cons.mpr ⟨hbefore i hi,hs12 i hi⟩
  intro i hi j hj
  rcases hcases i hi with rfl | hi' <;> rcases hcases j hj with rfl | hj'
  · omega
  · exact hnext j hj'
  · exact hprev i hi'
  · exact h.apart i hi' j hj'

end Release

end Layout

end Tiling

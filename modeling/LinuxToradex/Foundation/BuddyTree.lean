import Mathlib.Data.Nat.Bitwise
import Mathlib.Data.List.Nodup
import Mathlib.Data.List.Pairwise
import Mathlib.Data.List.Perm.Basic

/-! A region of `2 ^ k` cells is a block, used or free, or is cut into two halves that are such regions. Two
tables record the blocks by their first cells. -/
namespace Buddy
open Nat Prod

inductive Tree where
  | leaf (used : Bool)
  | node (l r : Tree)

/-- A region with a hole: the hole is the left or the right half of the next cut. -/
inductive Ctx where
  | top
  | left (sibling : Tree) (parent : Ctx)
  | right (sibling : Tree) (parent : Ctx)

def Ctx.plug : Ctx → Tree → Tree
  | .top, t => t
  | .left s c, t => c.plug (.node t s)
  | .right s c, t => c.plug (.node s t)

variable {used used' : Nat → Bool} {order order' : Nat → Nat}

def Tree.Repr (used : Nat → Bool) (order : Nat → Nat) : Tree → Nat → Nat → Prop
  | .leaf u, k, i => used i = u ∧ order i = k
  | .node _ _, 0, _ => False
  | .node l r, k+1, i => l.Repr used order k i ∧ r.Repr used order k (i+2^k)

/-- The tables describe the context, a region of order `K` from `I` with a hole of order `k`
at `i`. -/
def Ctx.Repr (used : Nat → Bool) (order : Nat → Nat) : Ctx → Nat → Nat → Nat → Nat → Prop
  | .top, k, i, K, I => k = K ∧ i = I
  | .left s c, k, i, K, I =>
    s.Repr used order k (i+2^k) ∧ c.Repr used order (k+1) i K I
  | .right s c, k, i, K, I =>
    ∃ p, i = p+2^k ∧ s.Repr used order k p ∧ c.Repr used order (k+1) p K I

variable {k i K I j o : Nat} {t : Tree} {c : Ctx} {v : Bool}

lemma Tree.repr_congr (h : ∀ j, i ≤ j → j < i+2^k → used' j = used j ∧ order' j = order j) :
    t.Repr used' order' k i ↔ t.Repr used order k i := by
  induction t generalizing k i with
  | leaf u =>
    have hi := h i (le_refl i) (Nat.lt_add_of_pos_right (Nat.two_pow_pos k))
    rw [Tree.Repr,Tree.Repr,hi.1,hi.2]
  | node l r ihl ihr =>
    cases k with
    | zero => rfl
    | succ k =>
      rw [Tree.Repr,Tree.Repr,ihl fun j hj hj' => h j hj (by omega), ihr fun j hj hj' => h j (by omega) (by omega)]

lemma Ctx.repr_congr (h : ∀ j, j < i ∨ i+2^k ≤ j → used' j = used j ∧ order' j = order j) :
    c.Repr used' order' k i K I ↔ c.Repr used order k i K I := by
  induction c generalizing k i with
  | top => rfl
  | left s c ih =>
    rw [Ctx.Repr,Ctx.Repr,Tree.repr_congr fun j hj _ => h j (.inr hj),
      ih fun j hj => h j (by rw [pow_succ] at hj; omega)]
  | right s c ih =>
    constructor
    · rintro ⟨p,rfl,hs,hc⟩
      refine ⟨p,rfl,(Tree.repr_congr fun j _ hj => h j (.inl hj)).mp hs,?_⟩
      exact (ih fun j hj => h j (by rw [pow_succ] at hj; omega)).mp hc
    rintro ⟨p,rfl,hs,hc⟩
    refine ⟨p,rfl,(Tree.repr_congr fun j _ hj => h j (.inl hj)).mpr hs,?_⟩
    exact (ih fun j hj => h j (by rw [pow_succ] at hj; omega)).mpr hc

section
variable (hc : c.Repr used order k i K I)
include hc

lemma Ctx.Repr.plug (ht : t.Repr used order k i) : (c.plug t).Repr used order K I := by
  induction c generalizing t k i with
  | top =>
    obtain ⟨rfl,rfl⟩ := hc
    exact ht
  | left s c ih => exact ih hc.2 ⟨ht,hc.1⟩
  | right s c ih =>
    obtain ⟨p,rfl,hs,hc⟩ := hc
    exact ih hc ⟨hs,ht⟩

lemma Ctx.Repr.dvd (hI : 2^K ∣ I) : 2^k ∣ i := by
  induction c generalizing k i with
  | top =>
    obtain ⟨rfl,rfl⟩ := hc
    exact hI
  | left s c ih => exact (Nat.pow_dvd_pow 2 (le_succ k)).trans (ih hc.2)
  | right s c ih =>
    obtain ⟨p,rfl,-,hc⟩ := hc
    exact Nat.dvd_add ((Nat.pow_dvd_pow 2 (le_succ k)).trans (ih hc)) (Nat.dvd_refl _)

lemma Ctx.Repr.bounds : k ≤ K ∧ I ≤ i ∧ i+2^k ≤ I+2^K := by
  induction c generalizing k i with
  | top =>
    obtain ⟨rfl,rfl⟩ := hc
    omega
  | left s c ih =>
    have hrec := ih hc.2
    rw [pow_succ] at hrec
    omega
  | right s c ih =>
    obtain ⟨p,rfl,-,hc⟩ := hc
    have hrec := ih hc
    rw [pow_succ] at hrec
    omega

end

def Tree.HasLeaf : Tree → Nat → Nat → Nat → Nat → Bool → Prop
  | .leaf u, k, i, j, o, v => u = v ∧ j = i ∧ o = k
  | .node _ _, 0, _, _, _, _ => False
  | .node l r, k+1, i, j, o, v => l.HasLeaf k i j o v ∨ r.HasLeaf k (i+2^k) j o v

lemma Tree.Repr.of_leaf (h : t.Repr used order k i) (hl : t.HasLeaf k i j o v) : used j = v ∧ order j = o := by
  induction t generalizing k i with
  | leaf u =>
    obtain ⟨rfl,rfl,rfl⟩ := hl
    exact h
  | node l r ihl ihr =>
    rcases k with _ | k
    · cases h
    rcases hl with hl | hl
    · exact ihl h.1 hl
    · exact ihr h.2 hl

lemma Tree.HasLeaf.bounds (hl : t.HasLeaf k i j o v) : i ≤ j ∧ j+2^o ≤ i+2^k ∧ o ≤ k := by
  induction t generalizing k i with
  | leaf u =>
    obtain ⟨-,rfl,rfl⟩ := hl
    omega
  | node l r ihl ihr =>
    rcases k with _ | k
    · cases hl
    have hpos := Nat.two_pow_pos k
    rw [pow_succ]
    rcases hl with hl | hl
    · have hrec := ihl hl
      omega
    have hrec := ihr hl
    omega

lemma Tree.HasLeaf.disjoint {j' o' : Nat} {v' : Bool} (hl : t.HasLeaf k i j o v)
    (hl' : t.HasLeaf k i j' o' v') (hne : j ≠ j') : j+2^o ≤ j' ∨ j'+2^o' ≤ j := by
  induction t generalizing k i with
  | leaf u =>
    obtain ⟨-,rfl,-⟩ := hl
    obtain ⟨-,rfl,-⟩ := hl'
    exact absurd rfl hne
  | node l r ihl ihr =>
    rcases k with _ | k
    · cases hl
    rcases hl with hl | hl <;> rcases hl' with hl' | hl'
    · exact ihl hl hl'
    · have hb := hl.bounds
      have hb' := hl'.bounds
      omega
    · have hb := hl.bounds
      have hb' := hl'.bounds
      omega
    · exact ihr hl hl'

lemma Tree.Repr.first (h : t.Repr used order k i) : ∃ o v, t.HasLeaf k i i o v := by
  induction t generalizing k i with
  | leaf u => exact ⟨k,u,rfl,rfl,rfl⟩
  | node l r ihl ihr =>
    cases k with
    | zero => cases h
    | succ k =>
      obtain ⟨o,v,hl⟩ := ihl h.1
      exact ⟨o,v,.inl hl⟩

lemma Tree.Repr.next (h : t.Repr used order k i) (hl : t.HasLeaf k i j o v) :
    j+2^o = i+2^k ∨ ∃ o' v', t.HasLeaf k i (j+2^o) o' v' := by
  induction t generalizing k i with
  | leaf u =>
    obtain ⟨-,rfl,rfl⟩ := hl
    exact .inl rfl
  | node l r ihl ihr =>
    rcases k with _ | k
    · cases h
    rcases hl with hl | hl
    · rcases ihl h.1 hl with hend | ⟨o',v',hl'⟩
      · obtain ⟨o',v',hl'⟩ := h.2.first
        exact .inr ⟨o',v',.inr (hend ▸ hl')⟩
      · exact .inr ⟨o',v',.inl hl'⟩
    rcases ihr h.2 hl with hend | ⟨o',v',hl'⟩
    · left
      rw [hend,pow_succ]
      omega
    · exact .inr ⟨o',v',.inr hl'⟩

lemma Tree.Repr.eq_free_iff (h : t.Repr used order k i) : t = .leaf false ↔ used i = false ∧ order i = k := by
  rcases t with u | ⟨l,r⟩
  · obtain ⟨hu,ho⟩ := h
    simp [hu,ho]
  rcases k with _ | k
  · cases h
  obtain ⟨o,v,hl⟩ := h.1.first
  have hle := hl.bounds.2.2
  have ho := (h.1.of_leaf hl).2
  constructor
  · nofun
  rintro ⟨-,hk⟩
  omega

def Ctx.HasLeaf : Ctx → Nat → Nat → Nat → Nat → Bool → Prop
  | .top, _, _, _, _, _ => False
  | .left s c, k, i, j, o, v => s.HasLeaf k (i+2^k) j o v ∨ c.HasLeaf (k+1) i j o v
  | .right s c, k, i, j, o, v =>
    s.HasLeaf k (i-2^k) j o v ∨ c.HasLeaf (k+1) (i-2^k) j o v

lemma Ctx.Repr.hasLeaf_plug (hc : c.Repr used order k i K I) :
    (c.plug t).HasLeaf K I j o v ↔ c.HasLeaf k i j o v ∨ t.HasLeaf k i j o v := by
  induction c generalizing t k i with
  | top =>
    obtain ⟨rfl,rfl⟩ := hc
    simp [Ctx.plug,Ctx.HasLeaf]
  | left s c ih =>
    rw [Ctx.plug,ih hc.2,Ctx.HasLeaf,Tree.HasLeaf]
    grind
  | right s c ih =>
    obtain ⟨p,rfl,-,hc⟩ := hc
    rw [Ctx.plug,ih hc,Ctx.HasLeaf,Tree.HasLeaf,Nat.add_sub_cancel]
    grind

lemma Ctx.Repr.outside (hc : c.Repr used order k i K I) (hl : c.HasLeaf k i j o v) : j+2^o ≤ i ∨ i+2^k ≤ j := by
  have hpos := Nat.two_pow_pos k
  induction c generalizing k i with
  | top => cases hl
  | left s c ih =>
    rcases hl with hl | hl
    · exact .inr hl.bounds.1
    have hrec := ih hc.2 hl (Nat.two_pow_pos _)
    omega
  | right s c ih =>
    obtain ⟨p,rfl,-,hc⟩ := hc
    rw [Ctx.HasLeaf,Nat.add_sub_cancel] at hl
    rcases hl with hl | hl
    · exact .inl hl.bounds.2.1
    have hrec := ih hc hl (Nat.two_pow_pos _)
    omega

lemma Tree.Repr.ctx_of_leaf (h : t.Repr used order K I) (hl : t.HasLeaf K I j o v) :
    ∃ c : Ctx, t = c.plug (.leaf v) ∧ c.Repr used order o j K I := by
  suffices hctx : ∀ (t : Tree) (k i : Nat) (d : Ctx), t.Repr used order k i →
      t.HasLeaf k i j o v → d.Repr used order k i K I →
      ∃ c : Ctx, d.plug t = c.plug (.leaf v) ∧ c.Repr used order o j K I from
    hctx t K I .top h hl ⟨rfl,rfl⟩
  intro t
  induction t with
  | leaf u =>
    rintro k i d - ⟨rfl,rfl,rfl⟩ hd
    exact ⟨d,rfl,hd⟩
  | node l r ihl ihr =>
    intro k i d h hl hd
    rcases k with _ | k
    · cases h
    rcases hl with hl | hl
    · exact ihl k i (.left r d) h.1 hl ⟨h.2,hd⟩
    · exact ihr k (i+2^k) (.right l d) h.2 hl ⟨i,rfl,h.1,hd⟩

def Tree.Compact : Tree → Prop
  | .leaf _ => True
  | .node l r => ¬(l = .leaf false ∧ r = .leaf false) ∧ l.Compact ∧ r.Compact

lemma Tree.Compact.eq_leaf (h : t.Compact) (hr : t.Repr used order k i)
    (hfree : ∀ j o, ¬t.HasLeaf k i j o true) : t = .leaf false := by
  induction t generalizing k i with
  | leaf u =>
    cases u with
    | false => rfl
    | true => exact absurd ⟨rfl,rfl,rfl⟩ (hfree i k)
  | node l r ihl ihr =>
    rcases k with _ | k
    · cases hr
    have hl := ihl h.2.1 hr.1 fun j o hj => hfree j o (.inl hj)
    have hr := ihr h.2.2 hr.2 fun j o hj => hfree j o (.inr hj)
    exact absurd ⟨hl,hr⟩ h.1

lemma Ctx.compact_of_plug (h : (c.plug t).Compact) : t.Compact := by
  induction c generalizing t with
  | top => exact h
  | left s c ih => exact (ih h).2.1
  | right s c ih => exact (ih h).2.2

lemma Ctx.compact_replace {t' : Tree} (h : (c.plug t).Compact) (ht' : t'.Compact)
    (hne : t' ≠ .leaf false) : (c.plug t').Compact := by
  induction c generalizing t t' with
  | top => exact ht'
  | left s c ih =>
    have hs := (Ctx.compact_of_plug (c := c) h).2.2
    exact ih h ⟨fun he => hne he.1,ht',hs⟩ nofun
  | right s c ih =>
    have hs := (Ctx.compact_of_plug (c := c) h).2.1
    exact ih h ⟨fun he => hne he.2,hs,ht'⟩ nofun

/-- A free block in the hole is merged with its buddies as long as they are free: the context
that is left, with the order and the first cell of its hole. -/
def Ctx.climb : Ctx → Nat → Nat → Ctx × Nat × Nat
  | .left (.leaf false) c, k, i => c.climb (k+1) i
  | .right (.leaf false) c, k, i => c.climb (k+1) (i-2^k)
  | c, k, i => (c,k,i)

lemma Ctx.climb_left_of_ne {s : Tree} (hs : s ≠ .leaf false) : (Ctx.left s c).climb k i = (.left s c,k,i) := by
  unfold Ctx.climb
  split <;> simp_all

lemma Ctx.climb_right_of_ne {s : Tree} (hs : s ≠ .leaf false) : (Ctx.right s c).climb k i = (.right s c,k,i) := by
  unfold Ctx.climb
  split <;> simp_all

lemma Ctx.Repr.climb (hc : c.Repr used order k i K I) :
    (c.climb k i).1.Repr used order (c.climb k i).2.1 (c.climb k i).2.2 K I := by
  induction c generalizing k i with
  | top => exact hc
  | left s c ih =>
    by_cases hs : s = .leaf false
    · subst hs
      exact ih hc.2
    rw [Ctx.climb_left_of_ne hs]
    exact hc
  | right s c ih =>
    by_cases hs : s = .leaf false
    · subst hs
      obtain ⟨p,rfl,-,hc⟩ := hc
      rw [Ctx.climb,Nat.add_sub_cancel]
      exact ih hc
    rw [Ctx.climb_right_of_ne hs]
    exact hc

lemma Ctx.compact_climb (h : (c.plug (.leaf true)).Compact) : ((c.climb k i).1.plug (.leaf false)).Compact := by
  induction c generalizing k i with
  | top => trivial
  | left s c ih =>
    by_cases hs : s = .leaf false
    · subst hs
      exact ih (Ctx.compact_replace h trivial nofun)
    rw [Ctx.climb_left_of_ne hs]
    have hs' := (Ctx.compact_of_plug (c := c) h).2.2
    exact Ctx.compact_replace (c := c) h ⟨fun he => hs he.2,trivial,hs'⟩ nofun
  | right s c ih =>
    by_cases hs : s = .leaf false
    · subst hs
      exact ih (Ctx.compact_replace h trivial nofun)
    rw [Ctx.climb_right_of_ne hs]
    have hs' := (Ctx.compact_of_plug (c := c) h).2.1
    exact Ctx.compact_replace (c := c) h ⟨fun he => hs he.1,hs',trivial⟩ nofun

lemma Ctx.hasLeaf_climb : (c.climb k i).1.HasLeaf (c.climb k i).2.1 (c.climb k i).2.2 j o true ↔
      c.HasLeaf k i j o true := by
  induction c generalizing k i with
  | top => rfl
  | left s c ih | right s c ih =>
    match s with
    | .leaf false => simp [Ctx.climb,Ctx.HasLeaf,Tree.HasLeaf,ih]
    | .leaf true => rfl
    | .node _ _ => rfl

lemma xor_left (h : 2^(k+1) ∣ i) : i ^^^ 2^k = i+2^k := by
  obtain ⟨q,rfl⟩ := h
  have hlt : 2^k < 2^(k+1) := Nat.pow_lt_pow_right (by omega) (lt_succ_self k)
  apply eq_of_testBit_eq
  intro n
  rw [testBit_xor,testBit_two_pow_mul_add _ hlt,testBit_two_pow_mul]
  by_cases hn : n < k+1
  · simp [hn,not_le.mpr hn]
  have hne : k ≠ n := by omega
  simp [hn,not_lt.mp hn,hne]

lemma xor_right (h : 2^(k+1) ∣ i) : (i+2^k) ^^^ 2^k = i := by
  rw [← xor_left h,Nat.xor_assoc,Nat.xor_self,xor_zero]

open List

abbrev Block := Nat × Nat

def pages (b : Block) : List Nat := range' b.2 (2^b.1)

lemma mem_pages {b : Block} {x : Nat} : x ∈ pages b ↔ b.2 ≤ x ∧ x < b.2+2^b.1 :=
  mem_range'_1

lemma first_mem_pages (b : Block) : b.2 ∈ pages b :=
  mem_pages.mpr ⟨le_rfl,Nat.lt_add_of_pos_right (Nat.two_pow_pos _)⟩

lemma pages_succ (k i : Nat) : pages (k+1,i) = pages (k,i)++pages (k,i+2^k) := by
  simp only [pages,pow_succ,Nat.mul_two,range'_append_1]

lemma disjoint_pages {k i j : Nat} (hi : 2^k ∣ i) (hj : 2^k ∣ j) (hne : i ≠ j) :
    (pages (k,i)).Disjoint (pages (k,j)) := by
  intro x hxi hxj
  obtain ⟨a,rfl⟩ := hi
  obtain ⟨b,rfl⟩ := hj
  have hquot : ∀ c, x ∈ pages (k,2^k*c) → x/2^k = c := by
    intro c hx
    obtain ⟨hle,hlt⟩ := mem_pages.mp hx
    exact Nat.div_eq_of_lt_le (by rwa [mul_comm]) (by rwa [succ_mul,mul_comm])
  exact hne (congrArg (2^k * ·) ((hquot a hxi).symm.trans (hquot b hxj)))

lemma and_left {k q : Nat} (h : 2^(k+1) ∣ q) : (q+2^k) &&& q = q := by
  rw [← xor_left h]
  obtain ⟨c,rfl⟩ := h
  apply eq_of_testBit_eq
  intro n
  rw [testBit_and,testBit_xor,testBit_two_pow_mul,testBit_two_pow]
  by_cases hn : k = n
  · simp [hn]
  · simp [hn]

/-- A block is the lower or the upper half of the pair it forms with its buddy. -/
theorem exists_pair {k i : Nat} (hi : 2^k ∣ i) : ∃ q, 2^(k+1) ∣ q ∧ (i ^^^ 2^k) &&& i = q ∧
    (i = q ∧ i ^^^ 2^k = q+2^k ∨ i = q+2^k ∧ i ^^^ 2^k = q) := by
  obtain ⟨c,rfl⟩ := hi
  have hdvd : ∀ d, 2^(k+1) ∣ 2^k*(2*d) := fun d => ⟨d,by rw [pow_succ,mul_assoc]⟩
  rcases even_or_odd' c with ⟨d,rfl | rfl⟩
  · refine ⟨_,hdvd d,?_,.inl ⟨rfl,xor_left (hdvd d)⟩⟩
    rw [xor_left (hdvd d),and_left (hdvd d)]
  rw [mul_add,mul_one]
  refine ⟨_,hdvd d,?_,.inr ⟨rfl,xor_right (hdvd d)⟩⟩
  rw [xor_right (hdvd d),land_comm,and_left (hdvd d)]

structure Tiled (m : Nat) (zone : List Nat) (l : List Block) : Prop where
  sound : ∀ b ∈ l, b.1 < m ∧ 2^b.1 ∣ b.2
  perm : (l.flatMap pages).Perm zone

/-- No two buddies of an order below the largest are in the list. -/
def Apart (m : Nat) (l : List Block) : Prop :=
  ∀ k i, (k,i) ∈ l → (k,i ^^^ 2^k) ∈ l → k+1 = m

structure System (m : Nat) (zone : List Nat) (free held : List Block) : Prop where
  tiled : Tiled m zone (free++held)
  apart : Apart m free
  nodup : zone.Nodup

variable {m k i p q : Nat} {zone : List Nat} {l l' free free' held held' : List Block} {b : Block}

lemma Tiled.of_perm (h : Tiled m zone l) (hl : l.Perm l') : Tiled m zone l' :=
  ⟨fun b hb => h.sound b (hl.mem_iff.mpr hb),(hl.symm.flatMap_right _).trans h.perm⟩

lemma Tiled.halve (h : Tiled m zone ((k+1,i)::l)) : Tiled m zone ((k,i)::(k,i+2^k)::l) := by
  obtain ⟨hk,hi⟩ := h.sound _ mem_cons_self
  have hdvd : 2^k ∣ i := (Nat.pow_dvd_pow 2 (le_succ k)).trans hi
  have hlt : k < m := lt_of_succ_lt hk
  refine ⟨?_,?_⟩
  · exact forall_mem_cons.mpr ⟨⟨hlt,hdvd⟩,forall_mem_cons.mpr ⟨⟨hlt,Nat.dvd_add hdvd (Nat.dvd_refl _)⟩,
      fun b hb => h.sound b (mem_cons_of_mem _ hb)⟩⟩
  have hperm := h.perm
  rw [flatMap_cons,pages_succ,append_assoc] at hperm
  exact hperm

lemma Tiled.join (h : Tiled m zone ((k,i)::(k,i+2^k)::l)) (hk : k+1 < m) (hi : 2^(k+1) ∣ i) :
    Tiled m zone ((k+1,i)::l) := by
  refine ⟨?_,?_⟩
  · exact forall_mem_cons.mpr ⟨⟨hk,hi⟩,fun b hb =>
      h.sound b (mem_cons_of_mem _ (mem_cons_of_mem _ hb))⟩
  rw [flatMap_cons,pages_succ,append_assoc]
  exact h.perm

lemma Tiled.disjoint (h : Tiled m zone l) (hzone : zone.Nodup) : l.Pairwise fun b c => (pages b).Disjoint (pages c) :=
  (nodup_flatMap.mp (h.perm.nodup_iff.mpr hzone)).2

lemma Apart.cons (h : Apart m l) (hp : k+1 = m ∨ (k,p ^^^ 2^k) ∉ l) : Apart m ((k,p)::l) := by
  intro o i hi hb
  rcases mem_cons.mp hi with heq | hold <;> rcases mem_cons.mp hb with heq' | hold'
  · obtain ⟨rfl,rfl⟩ := mk.inj heq
    have hzero := (xor_xor_cancel_left i (2^o)).symm.trans (congrArg (i ^^^ ·) (mk.inj heq').2)
    rw [Nat.xor_self] at hzero
    exact absurd hzero (Nat.two_pow_pos o).ne'
  · obtain ⟨rfl,rfl⟩ := mk.inj heq
    exact hp.resolve_right fun hnot => hnot hold'
  · obtain ⟨rfl,rfl⟩ := mk.inj heq'
    rw [Nat.xor_assoc,Nat.xor_self,xor_zero] at hp
    exact hp.resolve_right fun hnot => hnot hold
  · exact h o i hold hold'

lemma mem_pages_iff_div {x : Nat} (h : 2^k ∣ i) : x ∈ pages (k,i) ↔ x/2^k = i/2^k := by
  obtain ⟨c,rfl⟩ := h
  have hpos := Nat.two_pow_pos k
  rw [mem_pages,Nat.mul_div_cancel_left _ hpos,Nat.div_eq_iff hpos,mul_comm c]
  dsimp only
  omega

lemma buddy_div (h : k < m) : (i ^^^ 2^k)/2^m = i/2^m := by
  rw [Nat.xor_div_two_pow,Nat.div_eq_of_lt (Nat.pow_lt_pow_right (by decide) h),Nat.xor_zero]

namespace System

lemma of_perm (h : System m zone free held) (hf : free.Perm free') (hh : held.Perm held') :
    System m zone free' held' :=
  ⟨h.tiled.of_perm (hf.append hh),fun k i hi hb => h.apart k i (hf.mem_iff.mpr hi) (hf.mem_iff.mpr hb),h.nodup⟩

/-- No free block begins in a held one. -/
theorem outside (h : System m zone free held) (hb : b ∈ held) {x : Nat} (hx : x ∈ pages b) (o : Nat) :
    (o,x) ∉ free := fun hfree =>
  (pairwise_append.mp (h.tiled.disjoint h.nodup)).2.2 _ hfree b hb (first_mem_pages (o,x)) hx

lemma take (h : System m zone (b::free) held) : System m zone free (b::held) :=
  ⟨h.tiled.of_perm perm_middle.symm,
    fun k i hi hb => h.apart k i (mem_cons_of_mem b hi) (mem_cons_of_mem b hb),h.nodup⟩

lemma give (h : System m zone free ((k,p)::held)) (hp : k+1 = m ∨ (k,p ^^^ 2^k) ∉ free) :
    System m zone ((k,p)::free) held :=
  ⟨h.tiled.of_perm perm_middle,h.apart.cons hp,h.nodup⟩

/-- The upper half of a held block is given back. -/
theorem split (h : System m zone free ((k+1,p)::held)) : System m zone ((k,p+2^k)::free) ((k,p)::held) := by
  have htiled := h.tiled.of_perm perm_middle
  have hdvd := (htiled.sound _ mem_cons_self).2
  have hnot : (k,(p+2^k) ^^^ 2^k) ∉ free := by
    rw [xor_right hdvd]
    exact h.outside mem_cons_self (first_mem_pages _) k
  refine System.give ⟨htiled.halve.of_perm ?_,h.apart,h.nodup⟩ (.inr hnot)
  exact (List.Perm.swap _ _ _).trans ((perm_middle.symm.cons _).trans perm_middle.symm)

/-- Two held buddies become one block. -/
theorem merge (h : System m zone free ((k,i)::(k,p)::held)) (hk : k+1 < m) (hq : 2^(k+1) ∣ q)
    (hpair : p = q ∧ i = q+2^k ∨ p = q+2^k ∧ i = q) : System m zone free ((k+1,q)::held) := by
  refine ⟨?_,h.apart,h.nodup⟩
  have htiled := h.tiled.of_perm (perm_middle.trans (perm_middle.cons _))
  rcases hpair with ⟨rfl,rfl⟩ | ⟨rfl,rfl⟩
  · exact ((htiled.of_perm (List.Perm.swap _ _ _)).join hk hq).of_perm perm_middle.symm
  · exact (htiled.join hk hq).of_perm perm_middle.symm

/-- When nothing is held in a zone of whole blocks, no pair of buddies is left to merge. -/
theorem whole (h : System m zone free [])
    (hzone : ∀ x ∈ zone, ∀ y, y/2^(m-1) = x/2^(m-1) → y ∈ zone) (hb : (k,i) ∈ free) : k+1 = m := by
  have htiled := h.tiled
  rw [append_nil] at htiled
  have hin (x : Nat) : x ∈ zone ↔ ∃ b ∈ free, x ∈ pages b := by rw [← htiled.perm.mem_iff,mem_flatMap]
  have : Std.Symm fun b c : Block => (pages b).Disjoint (pages c) := ⟨fun _ _ h _ hx hy => h hy hx⟩
  induction k using Nat.strongRec generalizing i with
  | ind k ih =>
    obtain ⟨hk,hi⟩ : k < m ∧ 2^k ∣ i := htiled.sound _ hb
    by_contra hne
    have hbuddy := hzone i ((hin i).mpr ⟨_,hb,first_mem_pages _⟩) (i ^^^ 2^k) (buddy_div (by omega))
    obtain ⟨⟨k',i'⟩,hc,hmem⟩ := (hin _).mp hbuddy
    have hi' : 2^k' ∣ i' := (htiled.sound _ hc).2
    rw [mem_pages_iff_div hi'] at hmem
    rcases Nat.lt_trichotomy k' k with hlt | rfl | hlt
    · have := ih k' hlt hc
      omega
    · obtain ⟨q,hq,-,hpair⟩ := exists_pair hi
      have hq := (Nat.pow_dvd_pow 2 (le_succ k')).trans hq
      have hj : 2^k' ∣ i ^^^ 2^k' := by
        rcases hpair with ⟨-,h⟩ | ⟨-,h⟩ <;> simp [h,hq]
      rw [← (Nat.div_left_inj hj hi').mp hmem] at hc
      exact hne (h.apart _ i hb hc)
    · rw [buddy_div hlt,← mem_pages_iff_div hi'] at hmem
      exact (htiled.disjoint h.nodup).forall hb hc (by simp; omega) (first_mem_pages _) hmem

end System

end Buddy

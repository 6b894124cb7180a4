import Mathlib.Tactic.Common

/-! Sets of numbers as lists of blocks of `size` bits, each with the number its first bit stands for. -/
namespace BlockSet
open List Nat

structure Block where
  start : Nat
  bits : Nat → Bool

def Block.Has (size : Nat) (b : Block) (i : Nat) : Prop :=
  b.start ≤ i ∧ i < b.start+size ∧ b.bits (i-b.start) = true

def Has (size : Nat) (l : List Block) (i : Nat) : Prop := ∃ b ∈ l, b.Has size i

def Chain (size : Nat) : Nat → List Block → Prop
  | _, [] => True
  | lo, b::l => lo ≤ b.start ∧ size ∣ b.start ∧ Chain size (b.start+size) l

def Filled (size : Nat) (l : List Block) : Prop := ∀ b ∈ l, ∃ i, b.Has size i

def stop (size : Nat) : Nat → List Block → Nat
  | lo, [] => lo
  | _, b::l => stop size (b.start+size) l

def Same (size : Nat) (b c : Block) : Prop := b.start = c.start ∧ ∀ j < size, b.bits j = c.bits j

variable {size lo lo' i : Nat} {b c : Block} {l m : List Block}

lemma has_nil : ¬Has size [] i := by
  rintro ⟨b,hb,-⟩
  cases hb

lemma has_cons : Has size (b::l) i ↔ b.Has size i ∨ Has size l i := by
  simp [Has]

section
variable (h : Chain size lo l)
include h

lemma Chain.mono (hle : lo' ≤ lo) : Chain size lo' l := by
  cases l with
  | nil => trivial
  | cons b l => exact ⟨Nat.le_trans hle h.1,h.2⟩

lemma Chain.le_of_has (hi : Has size l i) : lo ≤ i := by
  induction l generalizing lo with
  | nil => exact absurd hi has_nil
  | cons b l ih =>
    obtain ⟨hlo,-,hrest⟩ := h
    rcases has_cons.mp hi with hb | hl
    · exact Nat.le_trans hlo hb.1
    have := ih hrest hl
    omega

lemma Chain.stop_le : lo ≤ stop size lo l := by
  induction l generalizing lo with
  | nil => exact Nat.le_refl _
  | cons b l ih =>
    have := ih h.2.2
    have := h.1
    rw [stop]
    omega

lemma Chain.lt_stop (hi : Has size l i) : i < stop size lo l := by
  induction l generalizing lo with
  | nil => exact absurd hi has_nil
  | cons b l ih =>
    rcases has_cons.mp hi with hb | hl
    · exact Nat.lt_of_lt_of_le hb.2.1 h.2.2.stop_le
    · exact ih h.2.2 hl

lemma Chain.dvd_stop (hlo : size ∣ lo) : size ∣ stop size lo l := by
  induction l generalizing lo with
  | nil => exact hlo
  | cons b l ih => exact ih h.2.2 (Nat.dvd_add h.2.1 (Nat.dvd_refl size))

lemma Chain.dvd_start (hb : b ∈ l) : size ∣ b.start := by
  induction l generalizing lo with
  | nil => cases hb
  | cons c l ih =>
    rcases mem_cons.mp hb with rfl | hb
    · exact h.2.1
    · exact ih h.2.2 hb

lemma Chain.le_stop_of_mem (hb : b ∈ l) : b.start+size ≤ stop size lo l := by
  induction l generalizing lo with
  | nil => cases hb
  | cons c l ih =>
    rcases mem_cons.mp hb with rfl | hb
    · exact h.2.2.stop_le
    · exact ih h.2.2 hb

end

lemma chain_concat : Chain size lo (l++[b]) ↔ Chain size lo l ∧ stop size lo l ≤ b.start ∧ size ∣ b.start := by
  induction l generalizing lo with
  | nil => simp [Chain,stop]
  | cons c l ih =>
    rw [cons_append,Chain,Chain,stop,ih]
    simp only [and_assoc]

lemma stop_concat : stop size lo (l++[b]) = b.start+size := by
  induction l generalizing lo with
  | nil => rfl
  | cons c l ih => exact ih

lemma Filled.exists_last (hf : Filled size l) (hne : l ≠ []) (lo : Nat) :
    ∃ i, Has size l i ∧ stop size lo l ≤ i+size := by
  induction l generalizing lo with
  | nil => exact absurd rfl hne
  | cons b l ih =>
    cases l with
    | nil =>
      obtain ⟨i,hi⟩ := hf b mem_cons_self
      refine ⟨i,has_cons.mpr (.inl hi),?_⟩
      have := hi.1
      simp only [stop]
      omega
    | cons c l =>
      obtain ⟨i,hi,hstop⟩ := ih (fun d hd => hf d (mem_cons_of_mem _ hd)) nofun (b.start+size)
      exact ⟨i,has_cons.mpr (.inr hi),hstop⟩

lemma add_size_le (hb : size ∣ b.start) (hc : size ∣ c.start) (hlt : b.start < c.start) : b.start+size ≤ c.start := by
  have hsub := le_of_dvd (Nat.sub_pos_of_lt hlt) (dvd_sub hc hb)
  omega

section Cons
variable (hb : Chain size lo (b::l)) (hc : Chain size lo' (c::m))
include hb hc

lemma not_has_of_lt (hlt : b.start < c.start) (hi : Has size (c::m) i) : ¬b.Has size i := by
  intro hbi
  have hchain : Chain size c.start (c::m) := ⟨Nat.le_refl _,hc.2⟩
  have hle := hchain.le_of_has hi
  have := add_size_le hb.2.1 hc.2.1 hlt
  have := hbi.2.1
  omega

lemma subset_skip (hlt : b.start < c.start) :
    (∀ i, Has size (c::m) i → Has size (b::l) i) ↔ ∀ i, Has size (c::m) i → Has size l i := by
  constructor
  · intro h i hi
    exact (has_cons.mp (h i hi)).resolve_left (not_has_of_lt hb hc hlt hi)
  intro h i hi
  exact has_cons.mpr (.inr (h i hi))

lemma not_subset_of_lt (hf : Filled size (c::m)) (hlt : c.start < b.start) :
    ¬∀ i, Has size (c::m) i → Has size (b::l) i := by
  intro h
  obtain ⟨i,hi⟩ := hf c mem_cons_self
  exact not_has_of_lt hc hb hlt (h i (has_cons.mpr (.inl hi))) hi

lemma subset_both (heq : b.start = c.start) : (∀ i, Has size (c::m) i → Has size (b::l) i) ↔
      (∀ j < size, c.bits j = true → b.bits j = true) ∧ ∀ i, Has size m i → Has size l i := by
  constructor
  · intro h
    refine ⟨fun j hj hcj => ?_,fun i hi => ?_⟩
    · have hci : c.Has size (c.start+j) := ⟨by omega,by omega,by rw [Nat.add_sub_cancel_left]; exact hcj⟩
      rcases has_cons.mp (h _ (has_cons.mpr (.inl hci))) with hbi | hli
      · have hbj := hbi.2.2
        rw [heq,Nat.add_sub_cancel_left] at hbj
        exact hbj
      have := hb.2.2.le_of_has hli
      omega
    refine (has_cons.mp (h i (has_cons.mpr (.inr hi)))).resolve_left fun hbi => ?_
    have := hc.2.2.le_of_has hi
    have := hbi.2.1
    omega
  rintro ⟨hbits,hrest⟩ i hi
  rcases has_cons.mp hi with hci | hmi
  · obtain ⟨hge,hlt,hbit⟩ := hci
    refine has_cons.mpr (.inl ⟨by omega,by omega,?_⟩)
    rw [heq]
    exact hbits _ (by omega) hbit
  · exact has_cons.mpr (.inr (hrest i hmi))

end Cons

lemma not_subset_nil (hf : Filled size (c::m)) : ¬∀ i, Has size (c::m) i → Has size [] i := by
  intro h
  obtain ⟨i,hi⟩ := hf c mem_cons_self
  exact has_nil (h i (has_cons.mpr (.inl hi)))

lemma forall₂_same (hl : Chain size lo l) (hm : Chain size lo' m) (hfl : Filled size l) (hfm : Filled size m)
    (h : ∀ i, Has size l i ↔ Has size m i) : List.Forall₂ (Same size) l m := by
  induction l generalizing lo lo' m with
  | nil =>
    cases m with
    | nil => exact .nil
    | cons c m => exact absurd (fun i => (h i).mpr) (not_subset_nil hfm)
  | cons b l ih =>
    rcases m with _ | ⟨c,m⟩
    · exact absurd (fun i => (h i).mp) (not_subset_nil hfl)
    have hstart : b.start = c.start := by
      rcases Nat.lt_trichotomy b.start c.start with hlt | heq | hlt
      · exact absurd (fun i => (h i).mp) (not_subset_of_lt hm hl hfl hlt)
      · exact heq
      · exact absurd (fun i => (h i).mpr) (not_subset_of_lt hl hm hfm hlt)
    obtain ⟨hcb,hml⟩ := (subset_both hl hm hstart).mp fun i => (h i).mpr
    obtain ⟨hbc,hlm⟩ := (subset_both hm hl hstart.symm).mp fun i => (h i).mp
    refine .cons ⟨hstart,fun j hj => Bool.eq_iff_iff.mpr ⟨hbc j hj,hcb j hj⟩⟩ ?_
    exact ih hl.2.2 hm.2.2 (fun d hd => hfl d (mem_cons_of_mem _ hd))
      (fun d hd => hfm d (mem_cons_of_mem _ hd)) fun i => ⟨hlm i,hml i⟩

lemma Same.has_iff (h : Same size b c) : b.Has size i ↔ c.Has size i := by
  obtain ⟨hstart,hbits⟩ := h
  unfold Block.Has
  rw [hstart]
  constructor
  · rintro ⟨hge,hlt,hbit⟩
    exact ⟨hge,hlt,by rw [← hbits _ (by omega)]; exact hbit⟩
  rintro ⟨hge,hlt,hbit⟩
  exact ⟨hge,hlt,by rw [hbits _ (by omega)]; exact hbit⟩

section
variable (h : List.Forall₂ (Same size) l m)
include h

lemma has_iff_of_forall₂ : Has size l i ↔ Has size m i := by
  induction h with
  | nil => exact Iff.rfl
  | cons hbc _ ih => rw [has_cons,has_cons,hbc.has_iff,ih]

lemma stop_eq_of_forall₂ (lo : Nat) : stop size lo l = stop size lo m := by
  induction h generalizing lo with
  | nil => rfl
  | cons hbc _ ih => rw [stop,stop,hbc.1,ih]

lemma Chain.congr_same (hl : Chain size lo l) : Chain size lo m := by
  induction h generalizing lo with
  | nil => trivial
  | cons hbc _ ih =>
    obtain ⟨hlo,hdvd,hrest⟩ := hl
    rw [hbc.1] at hlo hdvd hrest
    exact ⟨hlo,hdvd,ih hrest⟩

end

lemma has_append : Has size (l++m) i ↔ Has size l i ∨ Has size m i := by
  simp only [Has,mem_append,or_and_right,exists_or]

lemma chain_append : Chain size lo (l++m) ↔ Chain size lo l ∧ Chain size (stop size lo l) m := by
  induction l generalizing lo with
  | nil => simp [Chain,stop]
  | cons b l ih =>
    rw [cons_append,Chain,Chain,stop,ih]
    simp only [and_assoc]

lemma has_singleton : Has size [b] i ↔ b.Has size i := by
  simp [Has]

/-! ### Splitting blocks

A block of `k * u` bits as `k` blocks of `u` bits.
-/

section Split
variable {u k : Nat}

def Block.split (u : Nat) (b : Block) (k : Nat) : List Block :=
  (List.range k).map fun i => ⟨b.start+i*u,fun j => b.bits (i*u+j)⟩

lemma split_succ (b : Block) : b.split u (k+1) = b.split u k++[⟨b.start+k*u,fun j => b.bits (k*u+j)⟩] := by
  rw [Block.split,range_succ,map_append]
  rfl

lemma has_split (b : Block) : Has u (b.split u k) i ↔ b.Has (k*u) i := by
  induction k with
  | zero =>
    rw [Nat.zero_mul]
    refine ⟨fun h => absurd h has_nil,fun h => ?_⟩
    have := h.1
    have := h.2.1
    omega
  | succ k ih =>
    rw [split_succ,has_append,has_singleton,ih,succ_mul]
    simp only [Block.Has]
    constructor
    · rintro (⟨hge,hlt,hbit⟩ | ⟨hge,hlt,hbit⟩)
      · exact ⟨hge,by omega,hbit⟩
      refine ⟨by omega,by omega,?_⟩
      rw [show k*u+(i-(b.start+k*u)) = i-b.start by omega] at hbit
      exact hbit
    rintro ⟨hge,hlt,hbit⟩
    by_cases hlow : i < b.start+k*u
    · exact .inl ⟨hge,hlow,hbit⟩
    refine .inr ⟨by omega,by omega,?_⟩
    rw [show k*u+(i-(b.start+k*u)) = i-b.start by omega]
    exact hbit

lemma chain_split (b : Block) (hdvd : u ∣ b.start) :
    Chain u b.start (b.split u k) ∧ stop u b.start (b.split u k) = b.start+k*u := by
  induction k with
  | zero => exact ⟨trivial,by rw [Nat.zero_mul]; rfl⟩
  | succ k ih =>
    obtain ⟨hchain,hstop⟩ := ih
    rw [split_succ,stop_concat]
    refine ⟨chain_concat.mpr ⟨hchain,Nat.le_of_eq hstop,?_⟩,?_⟩
    · exact Nat.dvd_add hdvd (Nat.dvd_mul_left u k)
    show b.start+k*u+u = _
    rw [succ_mul,Nat.add_assoc]

lemma has_flatMap_split (l : List Block) : Has u (l.flatMap (·.split u k)) i ↔ Has (k*u) l i := by
  induction l with
  | nil => exact ⟨fun h => absurd h has_nil,fun h => absurd h has_nil⟩
  | cons b l ih => rw [flatMap_cons,has_append,has_split,has_cons,ih]

lemma chain_flatMap_split (hk : 0 < k) (h : Chain (k*u) lo l) : Chain u lo (l.flatMap (·.split u k)) := by
  induction l generalizing lo with
  | nil => trivial
  | cons b l ih =>
    obtain ⟨hlo,hdvd,hrest⟩ := h
    obtain ⟨hchain,hstop⟩ := chain_split b (Nat.dvd_trans (Nat.dvd_mul_left u k) hdvd) (k := k)
    rw [flatMap_cons,chain_append]
    refine ⟨hchain.mono hlo,?_⟩
    have hne : b.split u k ≠ [] := by
      rw [Block.split,Ne,map_eq_nil_iff,range_eq_nil]
      omega
    obtain ⟨c,m,hcm⟩ := exists_cons_of_ne_nil hne
    rw [hcm] at hstop ⊢
    rw [show stop u lo (c::m) = stop u b.start (c::m) from rfl,hstop]
    exact ih hrest

end Split

/-! ### Pouring blocks into larger ones

Blocks of `u` bits that come in order are put into blocks of `size` bits, a new one each time the last one
has been passed.
-/

section Pour
variable {u : Nat}

/-- The blocks `m` are those of `l` with the block `c` of `u` bits added at the end. -/
structure Poured (size u : Nat) (l : List Block) (c : Block) (m : List Block) : Prop where
  chain : Chain size 0 m
  stop_eq : stop size 0 m = c.start-c.start%size+size
  has : ∀ i, Has size m i ↔ Has size l i ∨ c.Has u i
  filled : Filled size l → (∃ i, c.Has u i) → Filled size m

def addAt (f : Nat → Bool) (d u : Nat) (c : Block) (j : Nat) : Bool :=
  f j || (decide (d ≤ j) && decide (j < d+u) && c.bits (j-d))

lemma round_down_le {size lo n : Nat} (hpos : 0 < size) (hdvd : size ∣ lo) (hle : lo ≤ n) : lo ≤ n-n%size := by
  obtain ⟨q,rfl⟩ := hdvd
  rw [← mul_div_self_eq_mod_sub_self]
  exact Nat.mul_le_mul_left _ ((Nat.le_div_iff_mul_le hpos).mpr (by rwa [Nat.mul_comm]))

lemma round_down_eq {size lo n : Nat} (hdvd : size ∣ lo) (hle : lo ≤ n) (hlt : n < lo+size) : n-n%size = lo := by
  obtain ⟨q,rfl⟩ := hdvd
  have hsplit : n = n-size*q+size*q := by omega
  have hmod : n%size = n-size*q := by
    conv_lhs => rw [hsplit,add_mul_mod_self_left,mod_eq_of_lt (by omega)]
  omega

lemma add_le_of_dvd {lo n : Nat} (hu : u ∣ size) (hlo : size ∣ lo) (hn : u ∣ n) (hlt : n < lo+size) :
    n+u ≤ lo+size := by
  have hdvd := Nat.dvd_sub (Nat.dvd_add (Nat.dvd_trans hu hlo) hu) hn
  have hle := le_of_dvd (by omega) hdvd
  omega

lemma has_addAt {f : Nat → Bool} (hle : b.start ≤ c.start) (hfit : c.start+u ≤ b.start+size)
    (hb : ∀ j < size, b.bits j = addAt f (c.start-b.start) u c j) :
    b.Has size i ↔ (⟨b.start,f⟩ : Block).Has size i ∨ c.Has u i := by
  simp only [Block.Has]
  constructor
  · rintro ⟨hge,hlt,hbit⟩
    rw [hb _ (by omega),addAt,Bool.or_eq_true] at hbit
    rcases hbit with hold | hnew
    · exact .inl ⟨hge,hlt,hold⟩
    simp only [Bool.and_eq_true,decide_eq_true_eq] at hnew
    obtain ⟨⟨hd,hu'⟩,hbit⟩ := hnew
    refine .inr ⟨by omega,by omega,?_⟩
    rw [show i-b.start-(c.start-b.start) = i-c.start by omega] at hbit
    exact hbit
  rintro (⟨hge,hlt,hbit⟩ | ⟨hge,hlt,hbit⟩)
  · refine ⟨hge,hlt,?_⟩
    rw [hb _ (by omega),addAt,hbit,Bool.true_or]
  refine ⟨by omega,by omega,?_⟩
  rw [hb _ (by omega),addAt,show i-b.start-(c.start-b.start) = i-c.start by omega,hbit,
    decide_eq_true (by omega),decide_eq_true (by omega)]
  simp

lemma Poured.of_last {f : Nat → Bool} {start : Nat} (hu : u ∣ size) (h : Chain size 0 (l++[⟨start,f⟩]))
    (hc : u ∣ c.start) (hle : start ≤ c.start) (hlt : c.start < start+size) (hstart : b.start = start)
    (hb : ∀ j < size, b.bits j = addAt f (c.start-start) u c j) : Poured size u (l++[⟨start,f⟩]) c (l++[b]) := by
  subst hstart
  obtain ⟨h1,h2,h3⟩ := chain_concat.mp h
  have hfit := add_le_of_dvd hu h3 hc hlt
  have hhas (i : Nat) : b.Has size i ↔ (⟨b.start,f⟩ : Block).Has size i ∨ c.Has u i := has_addAt hle hfit hb
  refine ⟨chain_concat.mpr ⟨h1,h2,h3⟩,?_,fun i => ?_,fun hf ⟨i,hi⟩ => ?_⟩
  · rw [stop_concat,round_down_eq h3 hle hlt]
  · rw [has_append,has_append,has_singleton,has_singleton,hhas,or_assoc]
  exact forall_mem_append.mpr ⟨(forall_mem_append.mp hf).1,forall_mem_singleton.mpr ⟨i,(hhas i).mpr (.inr hi)⟩⟩

lemma Poured.of_new (hpos : 0 < size) (hu : u ∣ size) (h : Chain size 0 l) (hc : u ∣ c.start)
    (hle : stop size 0 l ≤ c.start) (hstart : b.start = c.start-c.start%size)
    (hb : ∀ j < size, b.bits j = addAt (fun _ => false) (c.start-b.start) u c j) : Poured size u l c (l++[b]) := by
  have hmod := mod_lt c.start hpos
  have hround : size ∣ c.start-c.start%size := dvd_sub_mod c.start
  have hstop := round_down_le hpos (h.dvd_stop (Nat.dvd_zero _)) hle
  have hchain : Chain size 0 (l++[⟨b.start,fun _ => false⟩]) := by
    refine chain_concat.mpr ⟨h,?_,?_⟩
    · show _ ≤ b.start
      omega
    show size ∣ b.start
    rw [hstart]
    exact hround
  have hpour := Poured.of_last hu hchain hc (by omega) (by omega) rfl hb
  refine ⟨hpour.chain,hpour.stop_eq,fun i => ?_,fun hf ⟨i,hi⟩ =>
    forall_mem_append.mpr ⟨hf,forall_mem_singleton.mpr ?_⟩⟩
  · rw [hpour.has,has_append,has_singleton]
    simp [Block.Has]
  have hb' : Has size (l++[b]) i := (hpour.has i).mpr (.inr hi)
  rcases has_append.mp hb' with hl | hb''
  · have := h.lt_stop hl
    have := hi.1
    omega
  · exact ⟨i,has_singleton.mp hb''⟩

end Pour

end BlockSet

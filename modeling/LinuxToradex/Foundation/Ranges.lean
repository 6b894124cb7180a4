import Mathlib.Data.List.Basic

/-! A list of ranges stands for a partial function; it is canonical if it is sorted, disjoint and merged. -/
namespace Ranges
open List

structure Span (V : Type) where
  start : Int
  stop : Int
  value : V
deriving DecidableEq

variable {V : Type}

def Span.Before (x y : Span V) : Prop :=
  x.stop < y.start ∧ (x.value = y.value → x.stop+1 < y.start)

def Canonical (l : List (Span V)) : Prop := (∀ x ∈ l, x.start ≤ x.stop) ∧ l.Pairwise Span.Before

def valueAt : List (Span V) → Int → Option V
  | [], _ => none
  | x::l, b => if x.start ≤ b ∧ b ≤ x.stop then some x.value else valueAt l b

def overwrite (f : Int → Option V) (r : Span V) (new : Option V) (b : Int) : Option V :=
  if r.start ≤ b ∧ b ≤ r.stop then new else f b

/-- `l'` is `l` with the range overwritten by a value or by nothing. What is before `l` and before
the range stays before `l'`. -/
structure Overwrites (l : List (Span V)) (r : Span V) (new : Option V) (l' : List (Span V)) : Prop where
  canonical : Canonical l'
  value : valueAt l' = overwrite (valueAt l) r new
  above : ∀ z : Span V, (∀ y ∈ l, z.Before y) → z.Before r → ∀ y ∈ l', z.Before y

variable {l l' : List (Span V)} {r x : Span V} {new : Option V}

lemma Canonical.tail (h : Canonical (x::l)) : Canonical l :=
  ⟨fun y hy => h.1 y (mem_cons_of_mem x hy),h.2.of_cons⟩

lemma Canonical.before (h : Canonical (x::l)) : ∀ y ∈ l, x.Before y :=
  fun _ hy => rel_of_pairwise_cons h.2 hy

lemma Canonical.cons (hx : x.start ≤ x.stop) (hbefore : ∀ y ∈ l, x.Before y) (h : Canonical l) :
    Canonical (x::l) := by
  constructor
  · exact forall_mem_cons.mpr ⟨hx,h.1⟩
  · exact pairwise_cons.mpr ⟨hbefore,h.2⟩

lemma forall_cons_before {z : Span V} (h : ∀ y ∈ x::l, z.Before y) : z.Before x ∧ ∀ y ∈ l, z.Before y :=
  ⟨h x mem_cons_self,fun y hy => h y (mem_cons_of_mem x hy)⟩

lemma Canonical.raise {s : Int} (h : Canonical (x::l)) (hle : s ≤ x.stop) : Canonical ({x with start := s}::l) :=
  h.tail.cons hle h.before

lemma Canonical.valueAt_eq {b : Int} (h : Canonical l) (hx : x ∈ l) (hb : x.start ≤ b ∧ b ≤ x.stop) :
    valueAt l b = some x.value := by
  induction l with
  | nil => exact absurd hx not_mem_nil
  | cons y l ih =>
    rcases mem_cons.mp hx with rfl | hx
    · exact if_pos hb
    have hlt := (h.before x hx).1
    rw [valueAt,if_neg (by omega)]
    exact ih h.tail hx

lemma exists_of_valueAt {b : Int} {v : V} (h : valueAt l b = some v) :
    ∃ x ∈ l, (x.start ≤ b ∧ b ≤ x.stop) ∧ x.value = v := by
  induction l with
  | nil => exact absurd h (by simp [valueAt])
  | cons y l ih =>
    rw [valueAt] at h
    split at h
    · next hb => exact ⟨y,mem_cons_self,hb,Option.some.inj h⟩
    next hb =>
    obtain ⟨x,hx,hrest⟩ := ih h
    exact ⟨x,mem_cons_of_mem y hx,hrest⟩

namespace Overwrites

lemma origin {b : Int} (h : Overwrites l r new l') (hx : x ∈ l') (hb : x.start ≤ b ∧ b ≤ x.stop) :
    ((r.start ≤ b ∧ b ≤ r.stop) ∧ new = some x.value) ∨ ∃ y ∈ l, (y.start ≤ b ∧ b ≤ y.stop) ∧ y.value = x.value := by
  have hvalue := h.canonical.valueAt_eq hx hb
  rw [h.value,overwrite] at hvalue
  split at hvalue
  · next hr => exact .inl ⟨hr,hvalue⟩
  next hr =>
  exact .inr (exists_of_valueAt hvalue)

lemma below (hx : x.start ≤ x.stop) (hbefore : ∀ y ∈ l, x.Before y) (hr : x.Before r)
    (h : Overwrites l r new l') : Overwrites (x::l) r new (x::l') := by
  constructor
  · exact h.canonical.cons hx (h.above x hbefore hr)
  · funext b
    simp only [valueAt,overwrite,h.value]
    by_cases hin : x.start ≤ b ∧ b ≤ x.stop
    · have hout : ¬(r.start ≤ b ∧ b ≤ r.stop) := by
        have hlt := hr.1
        omega
      rw [if_pos hin,if_neg hout,if_pos hin]
    · rw [if_neg hin,if_neg hin]
  intro z hz hzr
  obtain ⟨hzx,hzl⟩ := forall_cons_before hz
  exact forall_mem_cons.mpr ⟨hzx,h.above z hzl hzr⟩

lemma left (hbefore : ∀ y ∈ l, x.Before y) (hstart : x.start < r.start) (hin : r.start ≤ x.stop)
    (hstop : x.stop ≤ r.stop) (hvalue : x.value ≠ r.value) (h : Overwrites l r new l') :
    Overwrites (x::l) r new ({x with stop := r.start - 1}::l') := by
  have hrange : ∀ b, ¬(r.start ≤ b ∧ b ≤ r.stop) → (x.start ≤ b ∧ b ≤ r.start-1 ↔ x.start ≤ b ∧ b ≤ x.stop) := by
    intro b hb
    omega
  constructor
  · refine h.canonical.cons (by dsimp only; omega) (h.above _ ?_ ⟨by dsimp only; omega,fun heq => absurd heq hvalue⟩)
    intro y hy
    obtain ⟨hlt,hgap⟩ := hbefore y hy
    exact ⟨by dsimp only; omega,fun heq => by have := hgap heq; dsimp only; omega⟩
  · funext b
    simp only [valueAt,overwrite,h.value]
    by_cases hb : r.start ≤ b ∧ b ≤ r.stop
    · rw [if_pos hb,if_pos hb,if_neg (by omega)]
    · rw [if_neg hb,if_neg hb,if_congr (hrange b hb) rfl rfl]
  intro z hz hzr
  obtain ⟨hzx,hzl⟩ := forall_cons_before hz
  exact forall_mem_cons.mpr ⟨hzx,h.above z hzl hzr⟩

lemma covered (hstart : r.start ≤ x.start) (hstop : x.stop ≤ r.stop) (h : Overwrites l r new l') :
    Overwrites (x::l) r new l' := by
  refine ⟨h.canonical,?_,fun z hz hzr => h.above z (forall_cons_before hz).2 hzr⟩
  funext b
  simp only [h.value,valueAt,overwrite]
  split
  · next hb => rfl
  · next hb =>
    rw [if_neg (by omega)]

lemma absorb (hull : Span V) (hvalue : x.value = r.value) (htouch : x.start ≤ r.stop+1)
    (htouch' : r.start ≤ x.stop+1) (hr : r.start ≤ r.stop)
    (hstart : hull.start = min r.start x.start) (hstop : hull.stop = max r.stop x.stop)
    (hhull : hull.value = r.value) (h : Overwrites l hull (some r.value) l') :
    Overwrites (x::l) r (some r.value) l' := by
  refine ⟨h.canonical,?_,fun z hz hzr => h.above z (forall_cons_before hz).2 ?_⟩
  · funext b
    simp only [h.value,valueAt,overwrite]
    by_cases hb : r.start ≤ b ∧ b ≤ r.stop
    · rw [if_pos hb,if_pos (by omega)]
    rw [if_neg hb]
    by_cases hxb : x.start ≤ b ∧ b ≤ x.stop
    · rw [if_pos hxb,if_pos (by omega),hvalue]
    · rw [if_neg hxb,if_neg (by omega)]
  obtain ⟨hzx,-⟩ := forall_cons_before hz
  constructor
  · have hlt := hzx.1
    have hlt' := hzr.1
    omega
  intro heq
  rw [hhull] at heq
  have hgap := hzx.2 (heq.trans hvalue.symm)
  have hgap' := hzr.2 heq
  omega

lemma trim (hstart : r.start ≤ x.start) (hin : x.start ≤ r.stop)
    (h : Overwrites ({x with start := r.stop+1}::l) r new l') :
    Overwrites (x::l) r new l' := by
  refine ⟨h.canonical,?_,fun z hz hzr => h.above z ?_ hzr⟩
  · funext b
    simp only [h.value,valueAt,overwrite]
    split
    · next hb => rfl
    next hb =>
    exact if_congr (by omega) rfl rfl
  obtain ⟨⟨hlt,hgap⟩,hzl⟩ := forall_cons_before hz
  exact forall_mem_cons.mpr ⟨⟨by dsimp only; omega,fun heq => by have := hgap heq; dsimp only; omega⟩,hzl⟩

/-- The range that is written lies inside the first range. -/
theorem split (hbefore : ∀ y ∈ l, x.Before y) (hr : r.start ≤ r.stop) (hstart : x.start < r.start)
    (hstop : r.stop < x.stop) (hvalue : x.value ≠ r.value) (h : Overwrites ({x with start := r.stop+1}::l) r new l') :
    Overwrites (x::l) r new ({x with stop := r.start - 1}::l') := by
  constructor
  · refine h.canonical.cons (by dsimp only; omega) (h.above _ ?_ ⟨by dsimp only; omega,fun heq => absurd heq hvalue⟩)
    refine forall_mem_cons.mpr ⟨⟨by dsimp only; omega,fun _ => by dsimp only; omega⟩,fun y hy => ?_⟩
    obtain ⟨hlt,hgap⟩ := hbefore y hy
    exact ⟨by dsimp only; omega,fun heq => by have := hgap heq; dsimp only; omega⟩
  · funext b
    simp only [valueAt,overwrite,h.value]
    by_cases hb : r.start ≤ b ∧ b ≤ r.stop
    · rw [if_pos hb,if_pos hb,if_neg (by omega)]
    rw [if_neg hb,if_neg hb]
    by_cases hlow : x.start ≤ b ∧ b ≤ r.start-1
    · rw [if_pos hlow,if_pos (by omega)]
    rw [if_neg hlow]
    exact if_congr (by omega) rfl rfl
  intro z hz hzr
  obtain ⟨⟨hlt,hgap⟩,hzl⟩ := forall_cons_before hz
  refine forall_mem_cons.mpr ⟨⟨hlt,hgap⟩,h.above z (forall_mem_cons.mpr ⟨?_,hzl⟩) hzr⟩
  exact ⟨by dsimp only; omega,fun heq => by have := hgap heq; dsimp only; omega⟩

lemma set (h : Canonical l) (hr : r.start ≤ r.stop) (hbefore : ∀ y ∈ l, r.Before y) :
    Overwrites l r (some r.value) (r::l) := by
  exact ⟨h.cons hr hbefore,rfl,fun z hz hzr => forall_mem_cons.mpr ⟨hzr,hz⟩⟩

lemma valueAt_eq_none {b : Int} (h : ∀ y ∈ l, b < y.start) : valueAt l b = none := by
  induction l with
  | nil => rfl
  | cons x l ih =>
    rw [valueAt,if_neg (by have := h x mem_cons_self; omega)]
    exact ih fun y hy => h y (mem_cons_of_mem x hy)

lemma clear (h : Canonical l) (hbefore : ∀ y ∈ l, r.stop < y.start) : Overwrites l r none l := by
  refine ⟨h,?_,fun z hz _ => hz⟩
  funext b
  unfold overwrite
  by_cases hb : r.start ≤ b ∧ b ≤ r.stop
  · rw [if_pos hb]
    exact valueAt_eq_none fun y hy => by have := hbefore y hy; omega
  · rw [if_neg hb]

end Overwrites

end Ranges

import Mathlib

/-! `lib/kstrtox.c`. A string is the list of the bytes before its NUL. The signed conversion takes a number for one
that does not fit by the sign of its wrapped negation, and so refuses -0. -/
namespace LinuxToradex.Kstrtox

inductive Errno where
  | einval
  | erange
  deriving DecidableEq

def tolower (c : UInt8) : UInt8 := c ||| 0x20

def isxdigit (c : UInt8) : Prop := 48 ≤ c ∧ c ≤ 57 ∨ 65 ≤ c ∧ c ≤ 70 ∨ 97 ≤ c ∧ c ≤ 102
deriving Decidable

def digit (c : UInt8) : Option Nat :=
  if 48 ≤ c ∧ c ≤ 57 then some (c-48).toNat
  else if 97 ≤ tolower c ∧ tolower c ≤ 102 then some (tolower c-97+10).toNat
  else none

/-- `while (*s)` and the test of `ok` after it -/
def loop (base : Nat) : List UInt8 → Nat → Bool → Except Errno Nat
  | [], acc, ok => if ok then .ok acc else .error .einval
  | c::s, acc, ok =>
    match digit c with
    | some val =>
      if val ≥ base then .error .einval
      else if acc > (2^64-1-val)/base then .error .erange
      else loop base s ((acc*base+val)%2^64) true
    | none => if c = 10 ∧ s = [] ∧ ok then .ok acc else .error .einval

def radix (s : List UInt8) (base : Nat) : Nat :=
  if base = 0 then
    if s.getD 0 0 = 48 then if tolower (s.getD 1 0) = 120 ∧ isxdigit (s.getD 2 0) then 16 else 8
    else 10
  else base

def convert (s : List UInt8) (base : Nat) : Except Errno Nat :=
  let base := radix s base
  loop base (if base = 16 ∧ s.getD 0 0 = 48 ∧ tolower (s.getD 1 0) = 120 then s.drop 2 else s) 0 false

def skipPlus (s : List UInt8) : List UInt8 := if s.getD 0 0 = 43 then s.tail else s

def kstrtoull (s : List UInt8) (base : Nat) (res : Int) : Option Errno × Int :=
  match convert (skipPlus s) base with
  | .error e => (some e,res)
  | .ok acc => (none,acc)

def longLong (v : Int) : Int := v.bmod (2^64)

def kstrtoll (s : List UInt8) (base : Nat) (res : Int) : Option Errno × Int :=
  if s.getD 0 0 = 45 then
    match convert s.tail base with
    | .error e => (some e,res)
    | .ok tmp => if longLong (-tmp) ≥ 0 then (some .erange,res) else (none,longLong (-tmp))
  else
    match convert (skipPlus s) base with
    | .error e => (some e,res)
    | .ok tmp => if longLong tmp < 0 then (some .erange,res) else (none,longLong tmp)

def digitValue (c : UInt8) : Option Nat :=
  if 48 ≤ c.toNat ∧ c.toNat < 58 then some (c.toNat-48)
  else if 65 ≤ c.toNat ∧ c.toNat < 71 then some (c.toNat-55)
  else if 97 ≤ c.toNat ∧ c.toNat < 103 then some (c.toNat-87)
  else none

/-- The value of digits of the radix and at most one newline behind the digits of `a`. -/
def digits (base : Nat) : List UInt8 → Nat → Option Nat
  | [], a => some a
  | c::s, a =>
    match digitValue c with
    | some d => if d < base then digits base s (a*base+d) else none
    | none => if c = 10 ∧ s = [] then some a else none

def number (base : Nat) (s : List UInt8) : Option Nat := if s = [] ∨ s = [10] then none else digits base s 0

/-- A radix prefix and the digits; in base 0 the prefix names the radix. -/
def numeral (base : Nat) (s : List UInt8) : Option Nat :=
  if (base = 0 ∨ base = 16) ∧ s.getD 0 0 = 48 ∧ (s.getD 1 0 = 88 ∨ s.getD 1 0 = 120) then number 16 (s.drop 2)
  else number (if base = 0 then if s.getD 0 0 = 48 then 8 else 10 else base) s

def signed (base : Nat) (s : List UInt8) : Option Int :=
  if s.getD 0 0 = 45 then (numeral base s.tail).map fun n : Nat => -(n : Int)
  else (numeral base (skipPlus s)).map Nat.cast

/-- A well-formed number is stored or out of range; anything else is an error that leaves `*res`. -/
def Meets (value : Option Int) (min bound res : Int) (r : Option Errno × Int) : Prop :=
  match value with
  | some v => r = if min ≤ v ∧ v < bound then (none,v) else (some .erange,res)
  | none => ∃ e, r = (some e,res)

lemma forall_byte {p : UInt8 → Prop} (h : ∀ n : Fin 256, p ⟨⟨n⟩⟩) (c : UInt8) : p c := h c.toBitVec.toFin

lemma digit_eq : ∀ c, digit c = digitValue c := forall_byte (by decide +kernel)

lemma tolower_eq_x : ∀ c, tolower c = 120 ↔ c = 88 ∨ c = 120 := forall_byte (by decide +kernel)

lemma isxdigit_iff : ∀ c, isxdigit c ↔ digitValue c ≠ none := forall_byte (by decide +kernel)

def Outcome (value : Option Nat) (r : Except Errno Nat) : Prop :=
  match value with
  | some v => r = if v < 2^64 then .ok v else .error .erange
  | none => ∃ e, r = .error e

variable {base a v : Nat} {s : List UInt8}

lemma le_digits (hbase : 0 < base) (h : digits base s a = some v) : a ≤ v := by
  fun_induction digits base s a with
  | case2 _ _ a _ _ _ ih => exact Nat.le_trans (Nat.le_add_right_of_le (Nat.le_mul_of_pos_right a hbase)) (ih h)
  | _ => simp_all

lemma loop_digits {ok : Bool} (hbase : 0 < base) (hle : base ≤ 16) (ha : a < 2^64)
    (hok : ok = true ∨ ¬(s = [] ∨ s = [10])) : Outcome (digits base s a) (loop base s a ok) := by
  fun_induction digits base s a generalizing ok with
  | case1 a =>
    obtain rfl : ok = true := by simpa using hok
    exact (if_pos ha).symm
  | case2 c s a d hc hd ih =>
    rw [loop,digit_eq,hc]
    simp only [ge_iff_le,gt_iff_lt,Nat.not_le.mpr hd,if_false,Nat.div_lt_iff_lt_mul hbase]
    split
    · cases hv : digits base s (a*base+d) with
      | none => exact ⟨_,rfl⟩
      | some v =>
        have hv := le_digits hbase hv
        exact (if_neg (by omega)).symm
    rw [Nat.mod_eq_of_lt (by omega)]
    exact ih (by omega) (.inl rfl)
  | case3 c s a d hc hd =>
    rw [loop,digit_eq,hc]
    exact ⟨_,if_pos (by omega)⟩
  | case4 c s a hc hend =>
    obtain ⟨rfl,rfl⟩ := hend
    obtain rfl : ok = true := by simpa using hok
    exact (if_pos ha).symm
  | case5 c s a hc hend =>
    rw [loop,digit_eq,hc]
    exact ⟨_,if_neg fun h => hend ⟨h.1,h.2.1⟩⟩

lemma loop_number (hbase : 0 < base) (hle : base ≤ 16) : Outcome (number base s) (loop base s 0 false) := by
  unfold number
  split
  case isTrue h =>
    rcases h with rfl | rfl <;> exact ⟨_,rfl⟩
  case isFalse h =>
    exact loop_digits hbase hle (by decide) (.inr h)

lemma number_x (hzero : s.getD 0 0 = 48) (hx : s.getD 1 0 = 88 ∨ s.getD 1 0 = 120) : number base s = none := by
  match s with
  | [] | [_] => simp at hx
  | c::x::t =>
    obtain rfl : c = 48 := hzero
    rcases hx with rfl | rfl <;> simp [number,digits,digitValue]

lemma number_head (h : digitValue (s.getD 0 0) = none) : number base s = none := by
  cases s with
  | nil => rfl
  | cons c t =>
    have h : digitValue c = none := h
    simp_all [number,digits]

lemma convert_numeral (hbase : base ≤ 16) : Outcome (numeral base s) (convert s base) := by
  have hradix : 0 < radix s base ∧ radix s base ≤ 16 := by
    unfold radix
    split_ifs <;> omega
  have hloop := loop_number (s := s) hradix.1 hradix.2
  simp only [convert,numeral,tolower_eq_x]
  by_cases hx : s.getD 0 0 = 48 ∧ (s.getD 1 0 = 88 ∨ s.getD 1 0 = 120)
  · have hnone (b : Nat) : number b s = none := number_x hx.1 hx.2
    by_cases hr : radix s base = 16
    · have hb : base = 0 ∨ base = 16 := by
        by_contra hb
        rw [radix,if_neg fun h => hb (.inl h)] at hr
        exact hb (.inr hr)
      rw [if_pos ⟨hb,hx⟩,hr,if_pos ⟨rfl,hx⟩]
      exact loop_number (by decide) Nat.le.refl
    have hnumber : base = 0 ∨ base = 16 → number 16 (s.drop 2) = none := by
      rintro (rfl | rfl)
      · refine number_head ?_
        by_contra hdigit
        have hpre := And.intro ((tolower_eq_x _).mpr hx.2) ((isxdigit_iff (s.getD 2 0)).mpr (by simpa using hdigit))
        exact hr (by rw [radix,if_pos rfl,if_pos hx.1,if_pos hpre])
      · exact absurd rfl hr
    rw [hnone] at hloop ⊢
    split
    · rwa [hnumber (And.left ‹_›),if_neg fun h => hr h.1]
    · rwa [if_neg fun h => hr h.1]
  have hr : radix s base = if base = 0 then if s.getD 0 0 = 48 then 8 else 10 else base := by
    unfold radix
    split_ifs with hb hzero hpre <;> first | rfl | exact absurd ⟨hzero,(tolower_eq_x _).mp hpre.1⟩ hx
  rw [if_neg fun h => hx h.2,← hr,if_neg fun h => hx h.2]
  exact hloop

/-- `f` puts the sign back and `k` is what the caller does with the number. -/
lemma meets_of_outcome {value : Option Nat} {c : Except Errno Nat} (h : Outcome value c) {f : Nat → Int}
    {min bound res : Int} {k : Nat → Option Errno × Int} (hbig : ∀ n, min ≤ f n ∧ f n < bound → n < 2^64)
    (hk : ∀ n, value = some n → n < 2^64 →
      k n = if min ≤ f n ∧ f n < bound then (none,f n) else (some .erange,res)) :
    Meets (value.map f) min bound res (match c with
      | .error e => (some e,res)
      | .ok n => k n) := by
  rcases value with _ | n
  · obtain ⟨e,rfl⟩ := h
    exact ⟨e,rfl⟩
  by_cases hlt : n < 2^64
  · obtain rfl : c = .ok n := h.trans (if_pos hlt)
    exact hk n rfl hlt
  obtain rfl : c = .error .erange := h.trans (if_neg hlt)
  exact (if_neg fun hfits => hlt (hbig n hfits)).symm

lemma longLong_eq {v : Int} (hmin : -2^64 < v) (hmax : v < 2^64) :
    longLong v = if v < -2^63 then v+2^64 else if v < 2^63 then v else v-2^64 := by
  rw [longLong,Int.bmod_def]
  split_ifs <;> omega

lemma kstrtoll_meets_iff (hbase : base ≤ 16) (res : Int) :
    Meets (signed base s) (-2^63) (2^63) res (kstrtoll s base res) ↔
      ¬(s.getD 0 0 = 45 ∧ numeral base s.tail = some 0) := by
  unfold signed kstrtoll
  split
  case isTrue hminus =>
    constructor
    · rintro h ⟨-,hzero⟩
      have hc := convert_numeral (s := s.tail) hbase
      rw [hzero] at h hc
      obtain hc : convert s.tail base = .ok 0 := hc
      rw [hc] at h
      cases h
    intro hzero
    refine meets_of_outcome (convert_numeral hbase) ?_ fun n hn hlt => ?_
    · omega
    have hpos : n ≠ 0 := fun h => hzero ⟨hminus,h ▸ hn⟩
    rw [longLong_eq (by omega) (by omega)]
    split_ifs <;> first | omega | rfl
  case isFalse hminus =>
    refine iff_of_true (meets_of_outcome (convert_numeral hbase) ?_ fun n _ hlt => ?_) fun h => hminus h.1
    · omega
    rw [longLong_eq (by omega) (by omega)]
    split_ifs <;> first | omega | rfl

theorem kstrto_meets_iff (s : List UInt8) {base : Nat} (hbase : base = 0 ∨ 2 ≤ base ∧ base ≤ 16) (res : Int) :
    Meets ((numeral base (skipPlus s)).map Nat.cast) 0 (2^64) res (kstrtoull s base res) ∧
      (Meets (signed base s) (-2^63) (2^63) res (kstrtoll s base res) ↔
        ¬(s.getD 0 0 = 45 ∧ numeral base s.tail = some 0)) := by
  have hle : base ≤ 16 := by omega
  refine ⟨meets_of_outcome (convert_numeral hle) ?_ fun n _ hlt => ?_,kstrtoll_meets_iff hle res⟩
  · omega
  · exact (if_pos (by omega)).symm

theorem kstrto_meets_seven : Meets (some 7) 0 (2^64) 1 (kstrtoull [55] 0 1) ∧
    Meets (some 7) (-2^63) (2^63) 1 (kstrtoll [55] 0 1) :=
  have hseven := kstrto_meets_iff [55] (.inl rfl) 1
  ⟨hseven.1,hseven.2.mpr (by decide)⟩

/-- The string "-0" -/
theorem kstrtoll_refuses_negative_zero : kstrtoll [45,48] 10 1 = (some .erange,1) ∧
    ¬Meets (signed 10 [45,48]) (-2^63) (2^63) 1 (kstrtoll [45,48] 10 1) := by
  refine ⟨by decide,fun h => ?_⟩
  have hstored : kstrtoll [45,48] 10 1 = (none,0) := h
  exact absurd hstored (by decide)

end LinuxToradex.Kstrtox

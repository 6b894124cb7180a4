import LinuxToradex.Foundation.BackDfs
import LinuxToradex.IpTables.Translate

/-! When every rule holds its header, its matches and its target inside its own `next_offset` bytes, the
counters and marks alias nothing, and no pass over the table changes the graph of the rules. -/
namespace LinuxToradex.IpTables
open ByteMem Bool

variable {m m0 : Mem} {e size x a : Nat}

/-- What is written to the matches lies in front of the target: the pointer of each, and its data. A match
without data may reach into the target. -/
def matchesFit (m : Mem) (e : Nat) : Nat → Nat → Bool
  | 0, _ => false
  | fuel+1, i =>
    if i < targetOffset m e then
      decide (32 ≤ extSize m (e+i)) && decide (i+8 ≤ targetOffset m e) &&
        decide (extSize m (e+i) = 32 ∨ i+extSize m (e+i) ≤ targetOffset m e) &&
        matchesFit m e fuel (i+extSize m (e+i))
    else true

/-- Header, matches and target of rule `e` follow one another inside the rule; a standard
target includes its verdict. -/
def ruleFits (m : Mem) (e : Nat) : Bool :=
  decide (112 ≤ targetOffset m e) && decide (targetOffset m e+32 ≤ nextOffset m e) &&
    (!isStandard m (getTarget m e) || decide (targetOffset m e+40 ≤ nextOffset m e)) &&
    matchesFit m e 65536 112

def Layout (m : Mem) (size : Nat) : Prop := ∀ e ∈ xtEntries m size, ruleFits m e = true

instance (m : Mem) (size : Nat) : Decidable (Layout m size) :=
  inferInstanceAs (Decidable (∀ e ∈ xtEntries m size, ruleFits m e = true))

/-- The rules as a graph: a rule falls through to the next one, a standard target with a
non-negative verdict also jumps, an unconditional return ends its chain. -/
def chains (m : Mem) : BackDfs.Graph Nat where
  leaf e := unconditionalEnd m e = true
  next e := iptNextEntry m e
  jump e :=
    if isStandard m (getTarget m e) && decide (0 ≤ verdict m (getTarget m e)) then
      some (verdict m (getTarget m e)).toNat
    else none

/-- Every jump and every fallthrough of the rules reachable from `root` lands on a rule. -/
def Lands (m : Mem) (size root : Nat) : Prop :=
  ∀ e, (chains m).Reach root e → e ∈ xtEntries m size

def isReturn (m : Mem) (e : Nat) : Bool :=
  isStandard m (getTarget m e) && decide (verdict m (getTarget m e) = -5)

def Returns (m : Mem) (root : Nat) : Prop := ∃ e, (chains m).Reach root e ∧ isReturn m e = true

section Views
section
variable (h : ruleFits m e = true)
include h

lemma ruleFits_target_ge : 112 ≤ targetOffset m e := by
  simp only [ruleFits,and_eq_true,decide_eq_true_eq] at h
  exact h.1.1.1

lemma ruleFits_target_le : targetOffset m e+32 ≤ nextOffset m e := by
  simp only [ruleFits,and_eq_true,decide_eq_true_eq] at h
  exact h.1.1.2

lemma ruleFits_standard (hs : isStandard m (getTarget m e) = true) : targetOffset m e+40 ≤ nextOffset m e := by
  simp only [ruleFits,and_eq_true,hs,Bool.not_true,Bool.false_or,decide_eq_true_eq] at h
  exact h.1.2

lemma ruleFits_matches : matchesFit m e 65536 112 = true := by
  simp only [ruleFits,and_eq_true] at h
  exact h.2

lemma ruleFits_next_ge : 144 ≤ nextOffset m e := by
  have h1 := ruleFits_target_ge h
  have h2 := ruleFits_target_le h
  omega

end

end Views

/-- Two memories agree on rule `e` of `m0`, its marks and counters apart. -/
def SameRule (m0 : Mem) (e : Nat) (m m' : Mem) : Prop :=
  ∀ i < nextOffset m0 e, i < 92 ∨ 112 ≤ i → m' (e+i) = m (e+i)

def Static (m0 : Mem) (size : Nat) (m m' : Mem) : Prop :=
  ∀ e ∈ xtEntries m0 size, SameRule m0 e m m'

lemma Static.refl (m0 : Mem) (size : Nat) (m : Mem) : Static m0 size m m :=
  fun _ _ _ _ _ => rfl

lemma Static.trans {a b c : Mem} (h : Static m0 size a b) (h' : Static m0 size b c) : Static m0 size a c :=
  fun e he i hi hr => (h' e he i hi hr).trans (h e he i hi hr)

section SameRule
variable {m' : Mem} (h : SameRule m0 e m m')
include h

lemma SameRule.nextOffset (hn : 144 ≤ nextOffset m0 e) : nextOffset m' e = nextOffset m e := by
  refine u16_congr fun i hi => ?_
  rw [add_assoc]
  exact h (90+i) (by omega) (by omega)

lemma SameRule.targetOffset (hn : 144 ≤ IpTables.nextOffset m0 e) : targetOffset m' e = targetOffset m e := by
  refine u16_congr fun i hi => ?_
  rw [add_assoc]
  exact h (88+i) (by omega) (by omega)

lemma SameRule.unconditional (hn : 144 ≤ IpTables.nextOffset m0 e) : unconditional m' e = unconditional m e := by
  rw [Bool.eq_iff_iff,unconditional_iff,unconditional_iff]
  refine forall₂_congr fun i hi => ?_
  rw [h i (by omega) (by omega)]

variable (hfit : ruleFits m0 e = true)
include hfit

lemma SameRule.getTarget : getTarget m' e = getTarget m e := by
  rw [IpTables.getTarget,IpTables.getTarget,h.targetOffset (ruleFits_next_ge hfit)]

lemma SameRule.isStandard : isStandard m' (IpTables.getTarget m0 e) = isStandard m (IpTables.getTarget m0 e) := by
  rw [Bool.eq_iff_iff,isStandard_iff,isStandard_iff]
  have h1 := ruleFits_target_ge hfit
  have h2 := ruleFits_target_le hfit
  have hbyte := h (IpTables.targetOffset m0 e+2) (by omega) (by omega)
  rw [IpTables.getTarget,add_assoc,hbyte]

lemma SameRule.verdict (hs : IpTables.isStandard m0 (IpTables.getTarget m0 e) = true) :
    verdict m' (IpTables.getTarget m0 e) = verdict m (IpTables.getTarget m0 e) := by
  have h1 := ruleFits_target_ge hfit
  have h2 := ruleFits_standard hfit hs
  refine s32_congr fun i hi => ?_
  have hbyte := h (IpTables.targetOffset m0 e+32+i) (by omega) (by omega)
  simpa only [IpTables.getTarget,add_assoc] using hbyte

lemma SameRule.kernelPtr : kernelPtr m' (IpTables.getTarget m0 e) = kernelPtr m (IpTables.getTarget m0 e) := by
  have h1 := ruleFits_target_ge hfit
  have h2 := ruleFits_target_le hfit
  refine congrArg UInt32.ofNat (u32_congr fun i hi => ?_)
  have hbyte := h (IpTables.targetOffset m0 e+4+i) (by omega) (by omega)
  simpa only [IpTables.getTarget,add_assoc] using hbyte

lemma SameRule.iptNextEntry : iptNextEntry m' e = iptNextEntry m e := by
  rw [IpTables.iptNextEntry,IpTables.iptNextEntry,h.nextOffset (ruleFits_next_ge hfit)]

lemma SameRule.matchesFit (ht : IpTables.targetOffset m e = IpTables.targetOffset m0 e)
    (fuel i : Nat) (hi : 112 ≤ i) : matchesFit m' e fuel i = matchesFit m e fuel i := by
  have h2 := ruleFits_target_le hfit
  induction fuel generalizing i with
  | zero => rfl
  | succ fuel ih =>
    rw [IpTables.matchesFit,IpTables.matchesFit,h.targetOffset (ruleFits_next_ge hfit)]
    by_cases hlt : i < IpTables.targetOffset m e
    · have hsize : extSize m' (e+i) = extSize m (e+i) := by
        refine u16_congr fun j hj => ?_
        rw [add_assoc]
        exact h (i+j) (by omega) (by omega)
      rw [hsize,ih _ (by omega)]
    · rw [if_neg hlt,if_neg hlt]

end SameRule

lemma SameRule.unconditionalEnd (h : SameRule m0 e m0 m) (hfit : ruleFits m0 e = true) :
    unconditionalEnd m e = unconditionalEnd m0 e := by
  rw [IpTables.unconditionalEnd,IpTables.unconditionalEnd, h.targetOffset (ruleFits_next_ge hfit),h.getTarget hfit,
    h.unconditional (ruleFits_next_ge hfit),h.isStandard hfit]
  cases hs : IpTables.isStandard m0 (IpTables.getTarget m0 e) with
  | false => simp
  | true => rw [h.verdict hfit hs]

section Marks
variable (hlay : Layout m0 size)
include hlay

lemma Layout.next_ge (he : e ∈ xtEntries m0 size) : 144 ≤ nextOffset m0 e :=
  ruleFits_next_ge (hlay e he)

lemma Layout.apart {b : Nat} (ha : a ∈ xtEntries m0 size) (hb : b ∈ xtEntries m0 size)
    (hne : a ≠ b) : a+144 ≤ b ∨ b+144 ≤ a := by
  have h1 := hlay.next_ge ha
  have h2 := hlay.next_ge hb
  rcases xtEntries_disjoint ha hb with h | h | h
  · exact absurd h hne
  · left; omega
  · right; omega

lemma Layout.static_put {bs : List UInt8} (m : Mem) (hx : x ∈ xtEntries m0 size) (ha : x+92 ≤ a)
    (hb : a+bs.length ≤ x+112) : Static m0 size m (put m a bs) := by
  intro e he i hi hr
  refine put_of_disjoint ?_
  rcases xtEntries_disjoint he hx with h | h | h
  · subst h; omega
  · left; omega
  right
  have := hlay.next_ge hx
  omega

variable {v : Nat} (m : Mem) (hx : x ∈ xtEntries m0 size) (he : e ∈ xtEntries m0 size)
include hx he

/-- A word of one header, after bytes were put into another header, or beside the word in the same one. -/
lemma Layout.word_put {bs : List UInt8} {i j : Nat} (hi : i+4 ≤ 112) (hj : j+bs.length ≤ 112)
    (hij : e = x → i+4 ≤ j ∨ j+bs.length ≤ i) : u32 (put m (x+j) bs) (e+i) = u32 m (e+i) := by
  refine u32_congr fun k hk => put_of_disjoint ?_
  by_cases h : e = x
  · have := hij h
    omega
  · have := hlay.apart he hx h
    omega

lemma Layout.comefrom_setComefrom :
    comefrom (setComefrom m x v) e = if e = x then v%4294967296 else comefrom m e := by
  split
  · rename_i h
    rw [h]
    exact u32_put_le m (x+92) v 0
  · rename_i h
    exact hlay.word_put m hx he (by omega) (by rw [le_length]; omega) fun h' => absurd h' h

lemma Layout.pcnt_setComefrom : pcnt (setComefrom m x v) e = pcnt m e :=
  hlay.word_put m hx he (by omega) (by rw [le_length]; omega) fun _ => by rw [le_length]; omega

lemma Layout.comefrom_setPcnt : comefrom (setPcnt m x v) e = comefrom m e :=
  hlay.word_put m hx he (by omega) (by rw [le_length]; omega) fun _ => by rw [le_length]; omega

lemma Layout.pcnt_setPcnt : pcnt (setPcnt m x v) e = if e = x then v%4294967296 else pcnt m e := by
  split
  · rename_i h
    rw [h]
    exact u32_put_le m (x+96) v 4
  · rename_i h
    exact hlay.word_put m hx he (by omega) (by rw [le_length]; omega) fun h' => absurd h' h

end Marks
end LinuxToradex.IpTables

import LinuxToradex.Foundation.BlockSet
import LinuxToradex.Selinux.Ebitmap

/-! What each function does to the set of a bitmap whose nodes are aligned, in order and below `highbit`. -/
namespace LinuxToradex.Selinux
open List

open BlockSet

variable {a : Width}

def Node.block (n : Node a) : Block := ⟨n.startbit,Words.bit n.maps⟩

def blocks (l : List (Node a)) : List Block := l.map Node.block

def HasBit (l : List (Node a)) (i : Nat) : Prop := Has a.size (blocks l) i

structure Linked (lo : Nat) (l : List (Node a)) (highbit : Nat) : Prop where
  chain : Chain a.size lo (blocks l)
  stop_le : stop a.size lo (blocks l) ≤ highbit
  lt : highbit < 4294967296

def Ebitmap.Sound (e : Ebitmap a) : Prop := Linked 0 e.node e.highbit

structure Tight (lo : Nat) (l : List (Node a)) (highbit : Nat) : Prop where
  filled : Filled a.size (blocks l)
  stop_eq : highbit = stop a.size lo (blocks l)

structure Ebitmap.Canonical (e : Ebitmap a) : Prop where
  sound : e.Sound
  tight : Tight 0 e.node e.highbit

section
variable {lo highbit bit i : Nat} {n m : Node a} {l : List (Node a)}

lemma Width.size_eq (a : Width) : a.size = a.unitNums*a.unitSize := rfl

lemma Width.ulong_of_lt (h : i < 4294967296) : a.ulong i = i := by
  cases a <;> exact Nat.mod_eq_of_lt (Nat.lt_of_lt_of_le h (by decide))

lemma hasBit_cons : HasBit (n::l) i ↔ n.block.Has a.size i ∨ HasBit l i := has_cons

section
variable (h : Linked lo (n::l) highbit)
include h

lemma Linked.tail : Linked (n.startbit+a.size) l highbit :=
  ⟨h.chain.2.2,h.stop_le,h.lt⟩

lemma Linked.end_le : n.startbit+a.size ≤ highbit :=
  Nat.le_trans h.tail.chain.stop_le h.stop_le

lemma Linked.ulong_end : a.ulong (n.startbit+a.size) = n.startbit+a.size :=
  Width.ulong_of_lt (Nat.lt_of_le_of_lt h.end_le h.lt)

end

lemma index_lt (hlt : bit < n.startbit+a.size) (hle : n.startbit ≤ bit) :
    ¬(bit-n.startbit)/a.unitSize ≥ a.unitNums := by
  rw [Width.size_eq] at hlt
  exact Nat.not_le_of_gt (Nat.div_lt_of_lt_mul (by rw [Nat.mul_comm]; omega))

lemma Node.getBit_eq (hle : n.startbit ≤ bit) (hlt : bit < n.startbit+a.size) :
    n.getBit bit = .ok (Words.bit n.maps (bit-n.startbit)) := by
  unfold Node.getBit
  rw [if_neg (index_lt hlt hle),BitVec.and_twoPow,Words.bit]
  have hofs := Nat.mod_lt (bit-n.startbit) a.unitSize_pos
  have hnonzero : BitVec.twoPow a.unitSize ((bit-n.startbit)%a.unitSize) ≠ 0#a.unitSize := by
    intro hzero
    have hbit := congrArg (fun v => v.getLsbD ((bit-n.startbit)%a.unitSize)) hzero
    simp [hofs] at hbit
  cases (n.maps ((bit-n.startbit)/a.unitSize)).getLsbD ((bit-n.startbit)%a.unitSize) <;> simp [hnonzero]

def Node.Changed (n m : Node a) (bit : Nat) (value : Bool) : Prop :=
  m.startbit = n.startbit ∧ ∀ i, m.block.Has a.size i ↔
    if i = bit then value = true else n.block.Has a.size i

section
variable (hle : n.startbit ≤ bit) (hlt : bit < n.startbit+a.size)
include hle hlt

lemma Node.changed_of_bit {value : Bool} {maps : Nat → BitVec a.unitSize}
    (h : ∀ j, Words.bit maps j = if j = bit-n.startbit then value else Words.bit n.maps j) :
    n.Changed {n with maps := maps} bit value := by
  refine ⟨rfl,fun i => ?_⟩
  simp only [Block.Has,Node.block,h]
  by_cases hi : i = bit
  · subst hi
    simp [hle,hlt]
  rw [if_neg hi]
  constructor
  · rintro ⟨hge,hlt',hbit⟩
    rw [if_neg (by omega)] at hbit
    exact ⟨hge,hlt',hbit⟩
  rintro ⟨hge,hlt',hbit⟩
  rw [if_neg (by omega)]
  exact ⟨hge,hlt',hbit⟩

lemma Node.setBit_spec : ∃ m, n.setBit bit = .ok m ∧ n.Changed m bit true := by
  unfold Node.setBit
  rw [if_neg (index_lt hlt hle)]
  refine ⟨_,rfl,Node.changed_of_bit hle hlt fun j => ?_⟩
  rw [Words.bit_set a.unitSize_pos]
  by_cases hj : j = bit-n.startbit <;> simp [hj]

lemma Node.clrBit_spec : ∃ m, n.clrBit bit = .ok m ∧ n.Changed m bit false := by
  unfold Node.clrBit
  rw [if_neg (index_lt hlt hle)]
  refine ⟨_,rfl,Node.changed_of_bit hle hlt fun j => ?_⟩
  rw [Words.bit_clear a.unitSize_pos]
  by_cases hj : j = bit-n.startbit <;> simp [hj]

end

lemma findNext_spec (f : Nat → Bool) (k j : Nat) :
    j ≤ findNext f k j ∧ findNext f k j ≤ j+k ∧ (∀ i, j ≤ i → i < findNext f k j → f i = false) ∧
      (findNext f k j < j+k → f (findNext f k j) = true) := by
  induction k generalizing j with
  | zero => exact ⟨le_rfl,le_rfl,fun i hi hlt => absurd hlt (Nat.not_lt_of_ge hi),
      fun h => absurd h (Nat.lt_irrefl j)⟩
  | succ k ih =>
    rw [findNext]
    split
    · rename_i hj
      exact ⟨le_rfl,by omega,fun i hi hlt => by omega,fun _ => hj⟩
    rename_i hj
    obtain ⟨hge,hle,hclear,hset⟩ := ih (j+1)
    refine ⟨by omega,by omega,fun i hi hlt => ?_,fun h => hset (by omega)⟩
    by_cases hij : i = j
    · subst hij
      simpa using hj
    · exact hclear i (by omega) hlt

lemma Node.findNextBit_lt_iff : n.findNextBit 0 < a.size ↔ ∃ i, n.block.Has a.size i := by
  obtain ⟨-,hle,hclear,hset⟩ := findNext_spec (Words.bit n.maps) (a.size-0) 0
  constructor
  · intro hlt
    refine ⟨n.startbit+n.findNextBit 0,Nat.le_add_right _ _,Nat.add_lt_add_left hlt _,?_⟩
    show Words.bit n.maps (n.startbit+n.findNextBit 0-n.startbit) = true
    rw [Nat.add_sub_cancel_left]
    exact hset (by rw [Nat.zero_add,Nat.sub_zero]; exact hlt)
  rintro ⟨i,hge,hlt,hbit⟩
  by_contra hnot
  have hclear' := hclear (i-n.startbit) (Nat.zero_le _) (by
    have : n.block.start = n.startbit := rfl
    have : n.findNextBit 0 = findNext (Words.bit n.maps) (a.size-0) 0 := rfl
    omega)
  exact absurd (hclear'.symm.trans hbit) (by decide)

lemma getBitNodes_eq (h : Linked lo l highbit) (bit : Nat) :
    ∃ b, getBitNodes bit l = .ok b ∧ (b = true ↔ HasBit l bit) := by
  induction l generalizing lo with
  | nil => exact ⟨false,rfl,⟨nofun,fun hbit => absurd hbit has_nil⟩⟩
  | cons n l ih =>
    rw [getBitNodes,h.ulong_end]
    split
    · rename_i hle
      split
      · rename_i hlt
        refine ⟨_,Node.getBit_eq hle hlt,?_⟩
        rw [hasBit_cons]
        constructor
        · intro hbit
          exact .inl ⟨hle,hlt,hbit⟩
        rintro (hbit | hrest)
        · exact hbit.2.2
        have := h.tail.chain.le_of_has hrest
        omega
      rename_i hlt
      obtain ⟨b,heq,hiff⟩ := ih h.tail
      refine ⟨b,heq,hiff.trans ?_⟩
      rw [hasBit_cons]
      refine ⟨.inr,fun hor => hor.resolve_left fun hbit => hlt ?_⟩
      exact hbit.2.1
    rename_i hlt
    refine ⟨false,rfl,⟨nofun,fun hbit => ?_⟩⟩
    have hchain : Chain a.size n.startbit (blocks (n::l)) := ⟨le_rfl,h.chain.2⟩
    exact absurd (hchain.le_of_has hbit) hlt

variable {e : Ebitmap a} {prev : Option (Node a)}

lemma Ebitmap.getBit_eq (h : e.Sound) (bit : Nat) : ∃ b, e.getBit bit = .ok b ∧ (b = true ↔ HasBit e.node bit) := by
  rw [Ebitmap.getBit]
  split
  · rename_i hlt
    refine ⟨false,rfl,⟨nofun,fun hbit => ?_⟩⟩
    have := h.chain.lt_stop hbit
    have := h.stop_le
    omega
  · exact getBitNodes_eq h bit

/-- What `ebitmap_set_bit` makes of the nodes from `lo` on and of the bound. -/
structure SetTo (lo : Nat) (l : List (Node a)) (highbit bit : Nat) (value : Bool) (l' : List (Node a))
    (highbit' : Nat) : Prop where
  linked : Linked lo l' highbit'
  has : ∀ i, HasBit l' i ↔ if i = bit then value = true else HasBit l i
  tight : Tight lo l highbit → Tight lo l' highbit'

lemma Linked.not_hasBit_tail (h : Linked lo (n::l) highbit) (hlt : bit < n.startbit+a.size) : ¬HasBit l bit := by
  intro hbit
  have := h.tail.chain.le_of_has hbit
  omega

lemma Linked.not_hasBit (h : Linked lo (n::l) highbit) (hlt : bit < n.startbit) : ¬HasBit (n::l) bit := by
  intro hbit
  have hchain : Chain a.size n.startbit (blocks (n::l)) := ⟨le_rfl,h.chain.2⟩
  exact absurd (hchain.le_of_has hbit) (Nat.not_le_of_gt hlt)

lemma SetTo.unchanged (h : Linked lo l highbit) (hbit : ¬HasBit l bit) : SetTo lo l highbit bit false l highbit := by
  refine ⟨h,fun i => ?_,id⟩
  split
  · rename_i hi
    subst hi
    exact ⟨fun hi => absurd hi hbit,nofun⟩
  · exact Iff.rfl

section
variable (h : Linked lo (n::l) highbit) (hlt : bit < n.startbit+a.size)
include h hlt

variable {value : Bool}

lemma has_changed (hchanged : n.Changed m bit value) (i : Nat) :
    HasBit (m::l) i ↔ if i = bit then value = true else HasBit (n::l) i := by
  rw [hasBit_cons,hasBit_cons,hchanged.2]
  split
  · rename_i hi
    subst hi
    exact ⟨fun hor => hor.resolve_right (h.not_hasBit_tail hlt),.inl⟩
  · exact Iff.rfl

lemma SetTo.change (hchanged : n.Changed m bit value)
    (hfilled : ∃ i, m.block.Has a.size i) : SetTo lo (n::l) highbit bit value (m::l) highbit := by
  have hstart : m.block.start = n.block.start := hchanged.1
  refine ⟨⟨?_,?_,h.lt⟩,has_changed h hlt hchanged,fun htight => ⟨?_,?_⟩⟩
  · have hchain := h.chain
    simp only [blocks,map_cons,BlockSet.Chain,hstart] at hchain ⊢
    exact hchain
  · have hstop := h.stop_le
    simp only [blocks,map_cons,stop,hstart] at hstop ⊢
    exact hstop
  · exact forall_mem_cons.mpr ⟨hfilled,(forall_mem_cons.mp htight.filled).2⟩
  have hstop := htight.stop_eq
  simp only [blocks,map_cons,stop,hstart] at hstop ⊢
  exact hstop

lemma SetTo.drop (hchanged : n.Changed m bit false) (hempty : ¬∃ i, m.block.Has a.size i) :
    SetTo lo (n::l) highbit bit false l (if l.isEmpty then lo else highbit) := by
  have hlo : lo ≤ n.startbit := h.chain.1
  have hend := h.end_le
  have hbound := h.lt
  have hhas : ∀ i, HasBit l i ↔ if i = bit then false = true else HasBit (n::l) i := by
    intro i
    rw [← has_changed h hlt hchanged,hasBit_cons]
    exact ⟨.inr,fun hor => hor.resolve_left fun hi => hempty ⟨i,hi⟩⟩
  have hchain : Chain a.size lo (blocks l) := h.tail.chain.mono (by omega)
  cases l with
  | nil =>
    have hlt : lo < 4294967296 := by omega
    exact ⟨⟨hchain,le_rfl,hlt⟩,hhas,fun _ => ⟨nofun,rfl⟩⟩
  | cons c l =>
    refine ⟨⟨hchain,h.stop_le,h.lt⟩,hhas,fun htight => ⟨fun b hb => ?_,htight.stop_eq⟩⟩
    exact htight.filled b (mem_cons_of_mem _ hb)

end

lemma SetTo.cons {value : Bool} {l' : List (Node a)} {highbit' : Nat} (h : Linked lo (n::l) highbit)
    (hge : n.startbit+a.size ≤ bit) (hrest : SetTo (n.startbit+a.size) l highbit bit value l' highbit') :
    SetTo lo (n::l) highbit bit value (n::l') highbit' := by
  refine ⟨⟨⟨h.chain.1,h.chain.2.1,hrest.linked.chain⟩,hrest.linked.stop_le,hrest.linked.lt⟩,
    fun i => ?_,fun htight => ?_⟩
  · rw [hasBit_cons,hasBit_cons,hrest.has]
    split
    · rename_i hi
      subst hi
      refine ⟨fun hor => hor.resolve_left fun hi => ?_,.inr⟩
      exact absurd hi.2.1 (Nat.not_lt_of_ge hge)
    · exact Iff.rfl
  obtain ⟨hfirst,hfilled⟩ := forall_mem_cons.mp htight.filled
  have htail := hrest.tight ⟨hfilled,htight.stop_eq⟩
  exact ⟨forall_mem_cons.mpr ⟨hfirst,htail.filled⟩,htail.stop_eq⟩

lemma u32_of_lt (h : i < 4294967296) : u32 i = i := Nat.mod_eq_of_lt h

lemma newNode_spec (a : Width) (hbit : bit < 2147483648) :
    ∃ m : Node a, newNode a true bit = .ok m ∧ m.startbit = bit-bit%a.size ∧
      ∀ i, m.block.Has a.size i ↔ i = bit := by
  have hmod := Nat.mod_lt bit a.size_pos
  have hstart : u32 (bit-bit%a.size) = bit-bit%a.size := u32_of_lt (by omega)
  rw [newNode,if_pos rfl,hstart]
  generalize hzero : (⟨bit-bit%a.size,fun _ => 0⟩ : Node a) = zero
  have hstart' : zero.startbit = bit-bit%a.size := by rw [← hzero]
  obtain ⟨m,heq,hm,hhas⟩ := Node.setBit_spec (by omega : zero.startbit ≤ bit) (by omega)
  refine ⟨m,heq,hm.trans hstart',fun i => ?_⟩
  rw [hhas]
  split
  · rename_i hi
    exact ⟨fun _ => hi,fun _ => rfl⟩
  rename_i hi
  refine ⟨fun hz => ?_,fun h => absurd h hi⟩
  have hclear := hz.2.2
  rw [← hzero] at hclear
  simp [Node.block,Words.bit] at hclear

/-- A node for the bit is put before the nodes that are above it. -/
theorem SetTo.insert (h : Linked lo l highbit) (hlo : a.size ∣ lo) (hge : lo ≤ bit) (hbit : bit < 2147483648)
    (habove : Chain a.size (bit-bit%a.size+a.size) (blocks l)) (hm : m.startbit = bit-bit%a.size)
    (hhas : ∀ i, m.block.Has a.size i ↔ i = bit) :
    SetTo lo l highbit bit true (m::l) (if l.isEmpty then bit-bit%a.size+a.size else highbit) := by
  have hsize : a.size ≤ 192 := by cases a <;> decide
  have hstart : lo ≤ bit-bit%a.size := round_down_le a.size_pos hlo hge
  have hdvd : a.size ∣ bit-bit%a.size := Nat.dvd_sub_mod bit
  have hchain : Chain a.size lo (blocks (m::l)) := by
    refine ⟨?_,?_,?_⟩
    · show lo ≤ m.startbit
      omega
    · show a.size ∣ m.startbit
      rw [hm]
      exact hdvd
    show Chain a.size (m.startbit+a.size) (blocks l)
    rw [hm]
    exact habove
  have hhas' : ∀ i, HasBit (m::l) i ↔ if i = bit then true = true else HasBit l i := by
    intro i
    rw [hasBit_cons,hhas]
    by_cases hi : i = bit <;> simp [hi]
  have hfilled (hf : Filled a.size (blocks l)) : Filled a.size (blocks (m::l)) := by
    exact forall_mem_cons.mpr ⟨⟨bit,(hhas bit).mpr rfl⟩,hf⟩
  cases l with
  | nil =>
    have hstop : stop a.size lo (blocks [m]) = bit-bit%a.size+a.size := by
      show m.startbit+a.size = _
      rw [hm]
    refine ⟨⟨hchain,Nat.le_of_eq hstop,?_⟩,hhas',fun htight => ⟨hfilled htight.filled,hstop.symm⟩⟩
    show bit-bit%a.size+a.size < 4294967296
    omega
  | cons c l => exact ⟨⟨hchain,h.stop_le,h.lt⟩,hhas',fun htight => ⟨hfilled htight.filled,htight.stop_eq⟩⟩

def prevEnd : Option (Node a) → Nat
  | none => 0
  | some prev => prev.startbit+a.size

lemma loweredHighbit_eq (h : prevEnd prev < 4294967296) : loweredHighbit prev = prevEnd prev := by
  cases prev with
  | none => rfl
  | some prev => exact u32_of_lt h

/-- Every call succeeds unless the allocation fails, and changes the set as it says. -/
theorem setBitNodes_spec (value alloc : Bool) (h : Linked (prevEnd prev) l highbit)
    (hdvd : a.size ∣ prevEnd prev) (hge : prevEnd prev ≤ bit) (hbit : bit < 2147483648) :
    (setBitNodes alloc bit value highbit prev l = .error .noMemory ∧ alloc = false) ∨
      ∃ l' highbit', setBitNodes alloc bit value highbit prev l = .ok (l',highbit') ∧
        SetTo (prevEnd prev) l highbit bit value l' highbit' := by
  have hsize : a.size ≤ 192 := by cases a <;> decide
  induction l generalizing prev with
  | nil =>
    rw [setBitNodes]
    rcases value with _ | _
    · exact .inr ⟨[],highbit,rfl,SetTo.unchanged h has_nil⟩
    rw [if_pos rfl]
    rcases alloc with _ | _
    · exact .inl ⟨rfl,rfl⟩
    obtain ⟨m,heq,hm,hhas⟩ := newNode_spec a hbit
    refine .inr ⟨[m],u32 (m.startbit+a.size),by rw [heq]; rfl,?_⟩
    rw [hm,u32_of_lt (by omega)]
    exact SetTo.insert h hdvd hge hbit trivial hm hhas
  | cons n l ih =>
    rw [setBitNodes,h.ulong_end]
    split
    · next hstart =>
      split
      · next hin =>
        cases value with
        | true =>
          obtain ⟨m,heq,hchanged⟩ := Node.setBit_spec hstart hin
          refine .inr ⟨m::l,highbit,by rw [if_pos rfl,heq]; rfl,SetTo.change h hin hchanged ⟨bit,?_⟩⟩
          rw [hchanged.2,if_pos rfl]
        | false =>
          obtain ⟨m,heq,hchanged⟩ := Node.clrBit_spec hstart hin
          rw [if_neg (by decide),heq]
          refine .inr ?_
          by_cases hfilled : m.findNextBit 0 < a.size
          · refine ⟨m::l,highbit,?_,SetTo.change h hin hchanged (Node.findNextBit_lt_iff.mp hfilled)⟩
            show (if m.findNextBit 0 < a.size then _ else _) = _
            rw [if_pos hfilled]
            rfl
          refine ⟨l,_,?_,SetTo.drop h hin hchanged fun hex => hfilled (Node.findNextBit_lt_iff.mpr hex)⟩
          show (if m.findNextBit 0 < a.size then _ else _) = _
          rw [if_neg hfilled]
          rw [loweredHighbit_eq (by omega)]
          rfl
      next hin =>
      have hprev : prevEnd (some n) = n.startbit+a.size := rfl
      have hlinked : Linked (prevEnd (some n)) l highbit := h.tail
      rcases ih hlinked (Nat.dvd_add h.chain.2.1 (Nat.dvd_refl _)) (by omega) with
        ⟨herr,halloc⟩ | ⟨l',highbit',heq,hset⟩
      · exact .inl ⟨by rw [herr]; rfl,halloc⟩
      · refine .inr ⟨n::l',highbit',by rw [heq]; rfl,SetTo.cons h (by omega) hset⟩
    next hstart =>
    have hlt : bit < n.startbit := Nat.lt_of_not_ge hstart
    rcases value with _ | _
    · exact .inr ⟨n::l,highbit,rfl,SetTo.unchanged h (h.not_hasBit hlt)⟩
    rw [if_pos rfl]
    rcases alloc with _ | _
    · exact .inl ⟨rfl,rfl⟩
    obtain ⟨m,heq,hm,hhas⟩ := newNode_spec a hbit
    refine .inr ⟨m::n::l,highbit,by rw [heq]; rfl,?_⟩
    have hsep : bit-bit%a.size+a.size ≤ n.startbit :=
      add_size_le (b := ⟨bit-bit%a.size,fun _ => false⟩) (c := n.block) (Nat.dvd_sub_mod bit)
        h.chain.2.1 (by show bit-bit%a.size < n.startbit; omega)
    exact SetTo.insert h hdvd hge hbit ⟨hsep,h.chain.2⟩ hm hhas

lemma Ebitmap.setBit_spec (value alloc : Bool) (h : e.Sound) (hbit : bit < 2147483648) :
    (e.setBit alloc bit value = .error .noMemory ∧ alloc = false) ∨
      ∃ e' : Ebitmap a, e.setBit alloc bit value = .ok e' ∧
        SetTo 0 e.node e.highbit bit value e'.node e'.highbit := by
  have hlinked : Linked (prevEnd (none : Option (Node a))) e.node e.highbit := h
  rcases setBitNodes_spec value alloc hlinked (Nat.dvd_zero _) (Nat.zero_le _) hbit with
    ⟨herr,halloc⟩ | ⟨l',highbit',heq,hset⟩
  · exact .inl ⟨by rw [Ebitmap.setBit,herr]; rfl,halloc⟩
  · exact .inr ⟨⟨l',highbit'⟩,by rw [Ebitmap.setBit,heq]; rfl,hset⟩

end

open BlockSet

variable {a : Width}

section Enumerate
variable {lo highbit i j : Nat} {n : Node a} {l : List (Node a)}

def ones (n : Node a) (j : Nat) : List Nat :=
  ((range' j (a.size-j)).filter (Words.bit n.maps)).map (n.startbit + ·)

lemma mem_ones : i ∈ ones n 0 ↔ n.block.Has a.size i := by
  simp only [ones,mem_map,mem_filter,mem_range'_1,Block.Has,Node.block]
  constructor
  · rintro ⟨j,⟨⟨-,hlt⟩,hbit⟩,rfl⟩
    exact ⟨Nat.le_add_right _ _,by omega,by rw [Nat.add_sub_cancel_left]; exact hbit⟩
  rintro ⟨hge,hlt,hbit⟩
  exact ⟨i-n.startbit,⟨⟨Nat.zero_le _,by omega⟩,hbit⟩,by omega⟩

lemma length_ones_le (n : Node a) : (ones n 0).length ≤ a.size := by
  rw [ones,length_map]
  refine Nat.le_trans (length_filter_le _ _) (Nat.le_of_eq ?_)
  rw [length_range',Nat.sub_zero]

lemma ones_eq (hj : j ≤ a.size) :
    ones n j = if n.findNextBit j < a.size then (n.startbit+n.findNextBit j)::ones n (n.findNextBit j+1) else [] := by
  obtain ⟨hge,hle,hclear,hset⟩ := findNext_spec (Words.bit n.maps) (a.size-j) j
  change j ≤ n.findNextBit j at hge
  change n.findNextBit j ≤ _ at hle
  change ∀ i, j ≤ i → i < n.findNextBit j → _ at hclear
  change n.findNextBit j < _ → Words.bit n.maps (n.findNextBit j) = true at hset
  have hsplit : range' j (a.size-j) =
      range' j (n.findNextBit j-j)++range' (n.findNextBit j) (a.size-n.findNextBit j) := by
    have happend : range' j (n.findNextBit j-j) ++
        range' (j+(n.findNextBit j-j)) (a.size-n.findNextBit j) = _ := range'_append_1
    rw [Nat.add_sub_cancel' hge,show n.findNextBit j-j+(a.size-n.findNextBit j) = a.size-j by omega] at happend
    exact happend.symm
  have hfirst : (range' j (n.findNextBit j-j)).filter (Words.bit n.maps) = [] := by
    rw [filter_eq_nil_iff]
    intro i hi
    rw [mem_range'_1] at hi
    simp [hclear i hi.1 (by omega)]
  rw [ones,hsplit,filter_append,hfirst,nil_append]
  split
  · rename_i hlt
    rw [show a.size-n.findNextBit j = a.size-(n.findNextBit j+1)+1 by omega,range'_succ,
      filter_cons_of_pos (hset (by omega)),map_cons,ones]
  rename_i hnot
  rw [show a.size-n.findNextBit j = 0 by omega]
  rfl

inductive At (highbit : Nat) : Nat × List (Node a) → List Nat → Prop
  | done : At highbit (highbit,[]) []
  | found {n : Node a} {l : List (Node a)} {j : Nat} (hj : j < a.size) :
    At highbit (n.startbit+j,n::l) ((n.startbit+j)::(ones n (j+1)++l.flatMap (ones · 0)))

lemma at_startPositive (highbit : Nat) (l : List (Node a)) :
    At highbit (startPositive highbit l) (l.flatMap (ones · 0)) := by
  induction l with
  | nil => exact .done
  | cons n l ih =>
    rw [startPositive,flatMap_cons,ones_eq (Nat.zero_le _)]
    split
    · rename_i hlt
      exact .found hlt
    · exact ih

lemma at_nextPositive (highbit : Nat) (n : Node a) (l : List (Node a)) (hj : j < a.size) :
    At highbit (nextPositive highbit n l (n.startbit+j)) (ones n (j+1)++l.flatMap (ones · 0)) := by
  rw [nextPositive,Nat.add_sub_cancel_left,ones_eq hj]
  split
  · rename_i hlt
    rw [Nat.add_comm (n.findNextBit (j+1))]
    exact .found hlt
  · exact at_startPositive highbit l

lemma forEachPositiveBit_eq {fuel : Nat} {p : Nat × List (Node a)} {bits : List Nat} (h : At highbit p bits)
    (hlt : ∀ i ∈ bits, i < highbit) (hfuel : bits.length < fuel) : forEachPositiveBit highbit fuel p = some bits := by
  induction bits generalizing fuel p with
  | nil =>
    obtain ⟨fuel,rfl⟩ := Nat.exists_eq_succ_of_ne_zero (Nat.ne_of_gt hfuel)
    cases h
    rw [forEachPositiveBit,if_neg (Nat.lt_irrefl _)]
  | cons i bits ih =>
    obtain ⟨fuel,rfl⟩ := Nat.exists_eq_succ_of_ne_zero (Nat.ne_of_gt (Nat.zero_lt_of_lt hfuel))
    cases h with
    | found hj =>
      rw [forEachPositiveBit,if_pos (hlt _ mem_cons_self),
        ih (at_nextPositive highbit _ _ hj) (fun i hi => hlt i (mem_cons_of_mem _ hi))
        (Nat.lt_of_succ_lt_succ hfuel)]
      rfl

lemma mem_flatMap_ones : i ∈ l.flatMap (ones · 0) ↔ HasBit l i := by
  simp only [mem_flatMap,mem_ones,HasBit,Has,blocks,mem_map]
  constructor
  · rintro ⟨n,hn,hi⟩
    exact ⟨n.block,⟨n,hn,rfl⟩,hi⟩
  rintro ⟨-,⟨n,hn,rfl⟩,hi⟩
  exact ⟨n,hn,hi⟩

lemma length_flatMap_ones_le (l : List (Node a)) : (l.flatMap (ones · 0)).length ≤ l.length*a.size := by
  induction l with
  | nil => exact Nat.zero_le _
  | cons n l ih =>
    rw [flatMap_cons,length_append,length_cons,Nat.succ_mul]
    have := length_ones_le n
    omega

lemma Ebitmap.positiveBits_spec {e : Ebitmap a} (h : e.Sound) :
    ∃ bits, e.positiveBits = some bits ∧ ∀ i, i ∈ bits ↔ HasBit e.node i := by
  refine ⟨e.node.flatMap (ones · 0),?_,fun i => mem_flatMap_ones⟩
  refine forEachPositiveBit_eq (at_startPositive _ _) (fun i hi => ?_) ?_
  · have := h.chain.lt_stop (mem_flatMap_ones.mp hi)
    have := h.stop_le
    omega
  · exact Nat.lt_succ_of_le (length_flatMap_ones_le _)

end Enumerate

section Compare
variable {lo lo' : Nat} {l m : List (Node a)}

lemma same_iff (n1 n2 : Node a) : (n1.startbit = n2.startbit ∧ ∀ k < a.unitNums, n1.maps k = n2.maps k) ↔
    Same a.size n1.block n2.block := by
  rw [Words.eq_iff]
  exact Iff.rfl

lemma cmpNodes_iff : cmpNodes l m = true ↔ List.Forall₂ (Same a.size) (blocks l) (blocks m) := by
  induction l generalizing m with
  | nil =>
    cases m with
    | nil => exact ⟨fun _ => .nil,fun _ => rfl⟩
    | cons n2 m => exact ⟨nofun,nofun⟩
  | cons n1 l ih =>
    rcases m with _ | ⟨n2,m⟩
    · exact ⟨nofun,nofun⟩
    rw [cmpNodes,blocks,blocks,map_cons,map_cons,forall₂_cons,← same_iff]
    split
    · rename_i hsame
      rw [ih]
      exact ⟨fun h => ⟨hsame,h⟩,And.right⟩
    rename_i hnot
    exact ⟨nofun,fun h => absurd h.1 hnot⟩

variable {e1 e2 : Ebitmap a}

lemma Ebitmap.cmp_iff (h1 : e1.Canonical) (h2 : e2.Canonical) :
    e1.cmp e2 = true ↔ ∀ i, HasBit e1.node i ↔ HasBit e2.node i := by
  constructor
  · intro h i
    rw [Ebitmap.cmp] at h
    split at h
    · cases h
    · exact has_iff_of_forall₂ (cmpNodes_iff.mp h)
  intro h
  have hsame := forall₂_same h1.sound.chain h2.sound.chain h1.tight.filled h2.tight.filled h
  have hhigh : e1.highbit = e2.highbit := by
    rw [h1.tight.stop_eq,h2.tight.stop_eq]
    exact stop_eq_of_forall₂ hsame 0
  rw [Ebitmap.cmp,if_neg (fun hne => hne hhigh)]
  exact cmpNodes_iff.mpr hsame

lemma containsNodes_iff (hl : Chain a.size lo (blocks l)) (hm : Chain a.size lo' (blocks m))
    (hf : Filled a.size (blocks m)) : containsNodes l m = true ↔ ∀ i, HasBit m i → HasBit l i := by
  induction l generalizing lo lo' m with
  | nil =>
    cases m with
    | nil => exact ⟨fun _ i hi => hi,fun _ => rfl⟩
    | cons n2 m => exact ⟨nofun,fun h => absurd h (not_subset_nil hf)⟩
  | cons n1 l ih =>
    rcases m with _ | ⟨n2,m⟩
    · exact ⟨fun _ i hi => absurd hi has_nil,fun _ => rfl⟩
    rw [containsNodes]
    split
    · next hgt =>
      by_cases hlt : n1.startbit < n2.startbit
      · rw [if_pos hlt,ih hl.2.2 hm hf]
        exact (subset_skip hl hm hlt).symm
      have heq : n1.block.start = n2.block.start := by
        show n1.startbit = n2.startbit
        omega
      have hboth := subset_both hl hm heq
      rw [if_neg hlt]
      split
      · rename_i hwords
        rw [ih hl.2.2 hm.2.2 fun b hb => hf b (mem_cons_of_mem _ hb)]
        exact ⟨fun h => hboth.mpr ⟨Words.subset_iff.mp hwords,h⟩,fun h => (hboth.mp h).2⟩
      rename_i hwords
      exact ⟨nofun,fun h => absurd (Words.subset_iff.mpr (hboth.mp h).1) hwords⟩
    next hgt =>
    exact ⟨nofun,fun h => absurd h (not_subset_of_lt hl hm hf (Nat.lt_of_not_ge hgt))⟩

lemma highbit_le_of_subset (h1 : e1.Canonical) (h2 : e2.Canonical)
    (h : ∀ i, HasBit e2.node i → HasBit e1.node i) : e2.highbit ≤ e1.highbit := by
  rw [h1.tight.stop_eq,h2.tight.stop_eq]
  by_cases hne : blocks e2.node = []
  · rw [hne]
    exact Nat.zero_le _
  obtain ⟨i,hi,hlast⟩ := h2.tight.filled.exists_last hne 0
  have hlt := h1.sound.chain.lt_stop (h i hi)
  have hdvd := Nat.dvd_sub (h2.sound.chain.dvd_stop (Nat.dvd_zero _)) (h1.sound.chain.dvd_stop (Nat.dvd_zero _))
  by_contra hgt
  have hsize := Nat.le_of_dvd (by omega) hdvd
  omega

lemma Ebitmap.contains_iff (h1 : e1.Canonical) (h2 : e2.Canonical) :
    e1.contains e2 = true ↔ ∀ i, HasBit e2.node i → HasBit e1.node i := by
  have hnodes := containsNodes_iff h1.sound.chain h2.sound.chain h2.tight.filled
  rw [Ebitmap.contains]
  split
  · rename_i hlt
    exact ⟨nofun,fun h => absurd (highbit_le_of_subset h1 h2 h) (Nat.not_le_of_gt hlt)⟩
  · exact hnodes

end Compare

end LinuxToradex.Selinux

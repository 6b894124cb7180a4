import Mathlib.Data.List.Forall2
import LinuxToradex.Selinux.Read

/-! Category maps of NetLabel: `ebitmap_netlbl_export` and `ebitmap_netlbl_import`. -/
namespace LinuxToradex.Selinux
open List

open BlockSet

variable {a : Width}
variable {l : List (Node a)} {highbit : Nat} {n : Node a} {e : Ebitmap a}

structure Catmap where
  startbit : Nat
  bitmap : Nat → BitVec 64

def mapCnt : Nat := 4
def mapSize : Nat := 64
def catmapSize : Nat := mapSize*mapCnt

/-- What the machine does for a shift by the width of the word or more, which C leaves undefined: nothing
is left, or the amount is taken modulo the width. -/
inductive WideShift
  | cleared | masked
deriving DecidableEq

def shl {w : Nat} (m : WideShift) (x : BitVec w) (s : Nat) : BitVec w :=
  if s < w then x <<< s
  else
    match m with
    | .cleared => 0
    | .masked => x <<< (s % w)

/-- The map of a start bit: a new one after `c_iter`, which is the second component, or `c_iter`. -/
def exportOpen (s : List Catmap × Catmap) (eStartbit : Nat) : List Catmap × Catmap :=
  if eStartbit ≥ u32 (s.2.startbit+catmapSize) then
    (s.1 ++ [s.2],⟨eStartbit-eStartbit % catmapSize,fun _ => 0⟩)
  else s

def Catmap.addWord (m : WideShift) (c : Catmap) (eStartbit : Nat) (word : BitVec a.unitSize) : Catmap :=
  let delta := eStartbit-c.startbit
  let cmapIdx := delta / mapSize
  let cmapSft := delta % mapSize
  let bits := c.bitmap cmapIdx ||| (shl m word cmapSft).setWidth 64
  {c with bitmap := Function.update c.bitmap cmapIdx bits}

/-- The body of the loop of `ebitmap_netlbl_export`, for one word and its start bit. -/
def exportUnit (m : WideShift) (s : List Catmap × Catmap) (eStartbit : Nat) (word : BitVec a.unitSize) :
    List Catmap × Catmap :=
  let s := exportOpen s eStartbit
  (s.1,s.2.addWord m eStartbit word)

def Node.units (n : Node a) : List (Nat × BitVec a.unitSize) :=
  (List.range a.unitNums).map fun i => (u32 (n.startbit+i*a.unitSize),n.maps i)

/-- `ebitmap_netlbl_export`, if the allocations succeed; the empty list is a `NULL` map. -/
def Ebitmap.netlblExport (m : WideShift) (e : Ebitmap a) : List Catmap :=
  match e.node with
  | [] => []
  | n::_ =>
    let s := e.node.foldl (fun s n => n.units.foldl (fun s u => exportUnit m s u.1 u.2) s)
      ([],⟨n.startbit-n.startbit % catmapSize,fun _ => 0⟩)
    s.1 ++ [s.2]

def importEnter (done : List (Node a)) (e : Option (Node a)) (pos : Nat) : List (Node a) × Node a :=
  let new : Node a := ⟨pos-pos % a.size,fun _ => 0⟩
  match e with
  | none => (done,new)
  | some e => if pos ≥ a.ulong (e.startbit+a.size) then (done ++ [e],new) else (done,e)

/-- The body of the loop of `ebitmap_netlbl_import`, for one word of a category map. -/
def importMap (s : List (Node a) × Option (Node a)) (pos map : Nat) : List (Node a) × Option (Node a) :=
  if map = 0 then s
  else
    let r := importEnter s.1 s.2 pos
    let index := (pos-r.2.startbit) / a.unitSize
    (r.1,some {r.2 with maps := storeMap (· ||| ·) (64 / a.unitSize) r.2.maps index map})

def Catmap.words (c : Catmap) : List (Nat × Nat) :=
  (List.range mapCnt).map fun i => (u32 (c.startbit+i*mapSize),(c.bitmap i).toNat)

def finishImport (s : List (Node a) × Option (Node a)) : Ebitmap a :=
  match s.2 with
  | none => .init a
  | some e => ⟨s.1 ++ [e],u32 (e.startbit+a.size)⟩

/-- `ebitmap_netlbl_import` into an empty bitmap, if the allocations succeed; `none` is a read through
`NULL`. -/
def netlblImport (a : Width) (catmap : List Catmap) : Option (Ebitmap a) :=
  if catmap.isEmpty then none
  else some (finishImport
    (catmap.foldl (fun s c => c.words.foldl (fun s u => importMap s u.1 u.2) s) ([],none)))

def Catmap.block (c : Catmap) : Block := ⟨c.startbit,Words.bit c.bitmap⟩

def Categories (l : List Catmap) (i : Nat) : Prop := Has catmapSize (l.map Catmap.block) i

section Export
variable {m : WideShift} {w pos delta lo i : Nat} {s : List Catmap × Catmap}

lemma shl_of_good {word : BitVec w} (hw : 0 < w) {sft : Nat} (h : sft = 0 ∨ word = 0) :
    shl m word sft = if sft = 0 then word else 0 := by
  rcases h with rfl | rfl
  · unfold shl
    rw [if_pos hw,if_pos rfl,BitVec.shiftLeft_zero]
  unfold shl
  cases m <;> simp

lemma bit_exported (hw : 0 < w) (hw64 : w ≤ 64) (bitmap : Nat → BitVec 64) (word : BitVec w) (pos : Nat)
    (hgood : delta % 64 = 0 ∨ word = 0) (j : Nat) : Words.bit (Function.update bitmap (delta / 64)
      (bitmap (delta / 64) ||| (shl m word (delta % 64)).setWidth 64)) j =
      addAt (Words.bit bitmap) delta w ⟨pos,word.getLsbD⟩ j := by
  rw [Words.bit_update,addAt,shl_of_good hw hgood]
  have hj := Nat.mod_lt j (by decide : 0 < 64)
  split
  · rename_i hdiv
    rw [BitVec.getLsbD_or,BitVec.getLsbD_setWidth,decide_eq_true hj,Bool.true_and]
    have hold : (bitmap (delta / 64)).getLsbD (j % 64) = Words.bit bitmap j := by rw [Words.bit,hdiv]
    rw [hold]
    congr 1
    split
    · next hzero =>
      rw [decide_eq_true (by omega),Bool.true_and,show j-delta = j % 64 by omega]
      by_cases hlt : j < delta+w
      · rw [decide_eq_true hlt,Bool.true_and]
      · rw [decide_eq_false hlt,Bool.false_and,BitVec.getLsbD_of_ge _ _ (by omega)]
    next hzero =>
    rw [hgood.resolve_left hzero]
    simp
  rename_i hdiv
  by_cases hzero : delta % 64 = 0
  · have hout : (decide (delta ≤ j) && decide (j < delta+w)) = false := by
      rw [Bool.and_eq_false_iff,decide_eq_false_iff_not,decide_eq_false_iff_not]
      omega
    rw [hout,Bool.false_and,Bool.or_false]
  rw [hgood.resolve_left hzero]
  simp

def exported (s : List Catmap × Catmap) : List Block := (s.1 ++ [s.2]).map Catmap.block

lemma exported_eq (s : List Catmap × Catmap) : exported s = s.1.map Catmap.block ++ [s.2.block] := by
  rw [exported,map_append]
  rfl

lemma exportUnit_poured (m : WideShift) (word : BitVec a.unitSize) (h : Chain catmapSize 0 (exported s))
    (hle : s.2.startbit ≤ pos) (hdvd : a.unitSize ∣ pos) (hbound : pos+256 < 4294967296)
    (hgood : pos % 64 = 0 ∨ word = 0) :
    Poured catmapSize a.unitSize (exported s) ⟨pos,word.getLsbD⟩ (exported (exportUnit m s pos word)) ∧
      (exportUnit m s pos word).2.startbit ≤ pos := by
  have hunit : a.unitSize ∣ catmapSize := by cases a <;> decide
  have hw64 : a.unitSize ≤ 64 := by cases a <;> decide
  have hsize : catmapSize = 256 := rfl
  have hu32 : u32 (s.2.startbit+catmapSize) = s.2.startbit+catmapSize := u32_of_lt (by omega)
  have hgood' (start : Nat) (hstart : catmapSize ∣ start) (hstart' : start ≤ pos) :
      (pos-start) % 64 = 0 ∨ word = 0 := hgood.imp_left fun hpos => by
    obtain ⟨q,rfl⟩ := hstart
    rw [hsize] at hstart' ⊢
    omega
  rw [exportUnit,exportOpen,hu32]
  split
  · rename_i hge
    have hround : catmapSize ∣ pos-pos % catmapSize := Nat.dvd_sub_mod pos
    refine ⟨?_,Nat.sub_le _ _⟩
    have heq (c : Catmap) : exported (s.1 ++ [s.2],c) = exported s ++ [c.block] := exported_eq _
    rw [heq]
    have hstop : stop catmapSize 0 (exported s) ≤ pos := by
      rw [exported_eq,stop_concat]
      exact hge
    refine Poured.of_new (by decide) hunit h hdvd hstop ?_ fun j _ => ?_
    · rfl
    rw [← Words.bit_zero]
    exact bit_exported a.unitSize_pos hw64 _ word pos (hgood' _ hround (Nat.sub_le _ _)) j
  rename_i hlt
  have hs := exported_eq s
  rw [hs] at h ⊢
  obtain ⟨-,-,h3⟩ := chain_concat.mp h
  refine ⟨?_,hle⟩
  rw [exported_eq]
  exact Poured.of_last hunit h hdvd hle (Nat.lt_of_not_ge hlt) rfl fun j _ =>
    bit_exported a.unitSize_pos hw64 _ word pos (hgood' _ h3 hle) j

def chunks (us : List (Nat × BitVec w)) : List Block := us.map fun u => ⟨u.1,u.2.getLsbD⟩

lemma exportUnits_spec (m : WideShift) {us : List (Nat × BitVec a.unitSize)}
    (hus : Chain a.unitSize lo (chunks us)) (hgood : ∀ u ∈ us, u.1 % 64 = 0 ∨ u.2 = 0)
    (hbound : ∀ u ∈ us, u.1+256 < 4294967296) (h : Chain catmapSize 0 (exported s)) (hle : s.2.startbit ≤ lo) :
    Chain catmapSize 0 (exported (us.foldl (fun s u => exportUnit m s u.1 u.2) s)) ∧
      (∀ bound, s.2.startbit ≤ bound → (∀ u ∈ us, u.1 ≤ bound) →
        (us.foldl (fun s u => exportUnit m s u.1 u.2) s).2.startbit ≤ bound) ∧
      ∀ i, Has catmapSize (exported (us.foldl (fun s u => exportUnit m s u.1 u.2) s)) i ↔
        Has catmapSize (exported s) i ∨ Has a.unitSize (chunks us) i := by
  induction us generalizing s lo with
  | nil => exact ⟨h,fun _ hs _ => hs,fun i => ⟨.inl,fun hor => hor.resolve_right has_nil⟩⟩
  | cons u us ih =>
    obtain ⟨hlo,hdvd,hrest⟩ := hus
    obtain ⟨hpour,hstart⟩ := exportUnit_poured m u.2 h (Nat.le_trans hle hlo) hdvd
      (hbound u mem_cons_self) (hgood u mem_cons_self)
    rw [foldl_cons]
    obtain ⟨hchain,hstop,hhas⟩ := ih hrest (fun v hv => hgood v (mem_cons_of_mem _ hv))
      (fun v hv => hbound v (mem_cons_of_mem _ hv)) hpour.chain
      (Nat.le_trans hstart (Nat.le_add_right _ _))
    refine ⟨hchain,fun bound _ hus => hstop bound ?_ fun v hv => hus v (mem_cons_of_mem _ hv),fun i => ?_⟩
    · exact Nat.le_trans hstart (hus u mem_cons_self)
    rw [hhas,hpour.has,or_assoc]
    exact or_congr_right has_cons.symm

lemma Linked.start_bound (h : Linked lo l highbit) (hn : n ∈ l) : n.startbit+a.size ≤ highbit :=
  Nat.le_trans (h.chain.le_stop_of_mem (mem_map_of_mem hn : n.block ∈ blocks l)) h.stop_le

lemma units_same (hbound : n.startbit+a.size < 4294967296) :
    List.Forall₂ (Same a.unitSize) (n.block.split a.unitSize a.unitNums) (chunks n.units) := by
  rw [Block.split,chunks,Node.units,map_map,forall₂_map_left_iff,forall₂_map_right_iff, List.forall₂_same]
  intro k hk
  have hk' : k < a.unitNums := mem_range.mp hk
  have hlt : k*a.unitSize < a.size := Nat.mul_lt_mul_of_pos_right hk' a.unitSize_pos
  refine ⟨?_,fun j hj => Words.bit_unit _ hj⟩
  show n.startbit+k*a.unitSize = u32 (n.startbit+k*a.unitSize)
  rw [u32_of_lt (by omega)]

lemma flatMap_units_same (hbound : ∀ n ∈ l, n.startbit+a.size < 4294967296) :
    List.Forall₂ (Same a.unitSize) ((blocks l).flatMap (·.split a.unitSize a.unitNums))
      (chunks (l.flatMap Node.units)) := by
  induction l with
  | nil => exact .nil
  | cons n l ih =>
    rw [flatMap_cons,chunks,map_append,blocks,map_cons,flatMap_cons]
    exact rel_append (units_same (hbound n mem_cons_self)) (ih fun c hc => hbound c (mem_cons_of_mem _ hc))

lemma Linked.units_chain (h : Linked lo l highbit) : Chain a.unitSize lo (chunks (l.flatMap Node.units)) ∧
      ∀ i, Has a.unitSize (chunks (l.flatMap Node.units)) i ↔ HasBit l i := by
  have hsame := flatMap_units_same fun n hn => Nat.lt_of_le_of_lt (h.start_bound hn) h.lt
  have hpos : 0 < a.unitNums := by cases a <;> decide
  refine ⟨(chain_flatMap_split hpos h.chain).congr_same hsame,fun i => ?_⟩
  rw [← has_iff_of_forall₂ hsame,has_flatMap_split]
  rfl

def exportState (m : WideShift) (n : Node a) (l : List (Node a)) : List Catmap × Catmap :=
  ((n::l).flatMap Node.units).foldl (fun s u => exportUnit m s u.1 u.2)
    ([],⟨n.startbit-n.startbit % catmapSize,fun _ => 0⟩)

lemma netlblExport_eq (m : WideShift) (h : e.node = n::l) :
    e.netlblExport m = (exportState m n l).1 ++ [(exportState m n l).2] := by
  rw [Ebitmap.netlblExport,h]
  simp only [exportState,foldl_flatMap]

lemma unit_bound (h : Linked lo l highbit) {u : Nat × BitVec a.unitSize}
    (hu : u ∈ l.flatMap Node.units) : u.1 ≤ highbit := by
  obtain ⟨n,hn,hu⟩ := mem_flatMap.mp hu
  obtain ⟨k,hk,rfl⟩ := mem_map.mp hu
  have hlt : k*a.unitSize < a.size := Nat.mul_lt_mul_of_pos_right (mem_range.mp hk) a.unitSize_pos
  have hend := h.start_bound hn
  have hle : u32 (n.startbit+k*a.unitSize) ≤ n.startbit+k*a.unitSize := Nat.mod_le _ _
  omega

lemma exportState_spec (m : WideShift) (h : Linked 0 (n::l) highbit) (hhigh : highbit+512 < 4294967296)
    (hgood : ∀ u ∈ (n::l).flatMap Node.units, u.1 % 64 = 0 ∨ u.2 = 0) :
    Chain catmapSize 0 (exported (exportState m n l)) ∧
      stop catmapSize 0 (exported (exportState m n l)) ≤ highbit+catmapSize ∧
      ∀ i, Has catmapSize (exported (exportState m n l)) i ↔ HasBit (n::l) i := by
  have hlinked : Linked n.startbit (n::l) highbit := ⟨⟨Nat.le_refl _,h.chain.2⟩,h.stop_le,h.lt⟩
  obtain ⟨hchain,hhas⟩ := hlinked.units_chain
  have hend := h.end_le
  have hround : catmapSize ∣ n.startbit-n.startbit % catmapSize := Nat.dvd_sub_mod _
  have hstart : Chain catmapSize 0
      (exported ([],⟨n.startbit-n.startbit % catmapSize,fun _ => 0⟩)) := ⟨Nat.zero_le _,hround,trivial⟩
  obtain ⟨hchain',hstop,hhas'⟩ := exportUnits_spec m hchain hgood
    (fun u hu => by have := unit_bound h hu; omega) hstart (Nat.sub_le _ _)
  refine ⟨hchain',?_,fun i => ?_⟩
  · rw [exported_eq,stop_concat]
    refine Nat.add_le_add_right (hstop highbit ?_ fun u hu => unit_bound h hu) _
    show n.startbit-n.startbit % catmapSize ≤ highbit
    omega
  refine (hhas' i).trans ?_
  rw [hhas]
  refine ⟨fun hor => hor.resolve_left fun hzero => ?_,.inr⟩
  have hbit := (has_singleton.mp hzero).2.2
  simp [Catmap.block,Words.bit] at hbit

def Catmap.LowerHalf (c : Catmap) : Prop :=
  64 ∣ c.startbit ∧ ∀ j, 32 ≤ j % 64 → Words.bit c.bitmap j = false

lemma lowerHalf_new (n : Nat) : (⟨n-n % catmapSize,fun _ => 0⟩ : Catmap).LowerHalf := by
  have hround : catmapSize ∣ n-n % catmapSize := Nat.dvd_sub_mod n
  refine ⟨Nat.dvd_trans (by decide) hround,fun j _ => ?_⟩
  rw [Words.bit_zero]

lemma lowerHalf_addWord (m : WideShift) {c : Catmap} (h : c.LowerHalf) (pos : Nat)
    (word : BitVec Width.w32.unitSize) : (c.addWord m pos word).LowerHalf := by
  obtain ⟨hdvd,hzero⟩ := h
  refine ⟨hdvd,fun j hj => ?_⟩
  have hwide : Width.w32.unitSize ≤ j % 64 := hj
  have hold := hzero j hj
  rw [Catmap.addWord,Words.bit_update]
  split
  · rename_i hdiv
    rw [Words.bit,hdiv] at hold
    rw [BitVec.getLsbD_or,hold,Bool.false_or,BitVec.getLsbD_setWidth,BitVec.getLsbD_of_ge _ _ hwide, Bool.and_false]
  · exact hold

lemma lowerHalf_exportUnit (m : WideShift) (h : ∀ c ∈ s.1 ++ [s.2], c.LowerHalf) (pos : Nat)
    (word : BitVec Width.w32.unitSize) :
    ∀ c ∈ (exportUnit m s pos word).1 ++ [(exportUnit m s pos word).2], c.LowerHalf := by
  have hopen : ∀ c ∈ (exportOpen s pos).1 ++ [(exportOpen s pos).2], c.LowerHalf := by
    rw [exportOpen]
    split
    · exact forall_mem_append.mpr ⟨h,forall_mem_singleton.mpr (lowerHalf_new pos)⟩
    · exact h
  rw [exportUnit]
  generalize exportOpen s pos = t at hopen
  obtain ⟨hfull,hlast⟩ := forall_mem_append.mp hopen
  exact forall_mem_append.mpr ⟨hfull,forall_mem_singleton.mpr
    (lowerHalf_addWord m (forall_mem_singleton.mp hlast) pos word)⟩

lemma lowerHalf_exportUnits (m : WideShift) (us : List (Nat × BitVec Width.w32.unitSize))
    (h : ∀ c ∈ s.1 ++ [s.2], c.LowerHalf) : ∀ c ∈ (us.foldl (fun s u => exportUnit m s u.1 u.2) s).1 ++
      [(us.foldl (fun s u => exportUnit m s u.1 u.2) s).2], c.LowerHalf := by
  induction us generalizing s with
  | nil => exact h
  | cons u us ih =>
    have hnext := lowerHalf_exportUnit m h u.1 u.2
    rw [foldl_cons]
    exact ih hnext

end Export

section Import
variable {w pos map lo i : Nat} {s : List (Node a) × Option (Node a)}

lemma bit_storeMap (hw : 0 < w) {k : Nat} (maps : Nat → BitVec w) (index : Nat) (hlt : map < 2^(w*k)) (j : Nat) :
    Words.bit (storeMap (· ||| ·) k maps index map) j =
      (Words.bit maps j || (decide (index*w ≤ j) && map.testBit (j-index*w))) := by
  induction k generalizing maps index map with
  | zero =>
    rw [Nat.mul_zero,Nat.pow_zero] at hlt
    obtain rfl : map = 0 := by omega
    rw [storeMap,Nat.zero_testBit,Bool.and_false,Bool.or_false]
  | succ k ih =>
    rw [storeMap]
    split
    · rename_i hzero
      rw [hzero,Nat.zero_testBit,Bool.and_false,Bool.or_false]
    have hrest : map >>> w < 2^(w*k) := by
      rw [Nat.shiftRight_eq_div_pow]
      apply Nat.div_lt_of_lt_mul
      rw [← Nat.pow_add,Nat.add_comm,← Nat.mul_succ]
      exact hlt
    rw [ih _ _ hrest,Words.bit_update,Nat.testBit_shiftRight,Nat.succ_mul]
    have hmod := Nat.mod_lt j hw
    have hsplit := Nat.div_add_mod j w
    by_cases hdiv : j / w = index
    · have hj : j = index*w+j % w := by rw [← hdiv,Nat.mul_comm]; exact hsplit.symm
      rw [if_pos hdiv,decide_eq_false (by omega),Bool.false_and,Bool.or_false,BitVec.getLsbD_or,
        BitVec.getLsbD_ofNat,decide_eq_true hmod,Bool.true_and,decide_eq_true (by omega),Bool.true_and,
        show j-index*w = j % w by omega,Words.bit,hdiv]
    rw [if_neg hdiv]
    congr 1
    by_cases hge : index*w+w ≤ j
    · rw [decide_eq_true hge,decide_eq_true (by omega), show w+(j-(index*w+w)) = j-index*w by omega]
    have hlow : j < index*w := by
      by_contra hnot
      apply hdiv
      apply Nat.div_eq_of_lt_le
      · omega
      rw [Nat.succ_mul]
      omega
    rw [decide_eq_false hge,decide_eq_false (by omega),Bool.false_and,Bool.false_and]

def imported (s : List (Node a) × Option (Node a)) : List Block := blocks (s.1 ++ s.2.toList)

lemma imported_some (done : List (Node a)) (n : Node a) : imported (done,some n) = blocks done ++ [n.block] := by
  rw [imported,blocks_append]
  rfl

lemma bit_imported (hle : n.startbit ≤ pos) (hdvd : a.unitSize ∣ pos-n.startbit) (hmap : map < 2^64) (j : Nat) :
    Words.bit (storeMap (· ||| ·) (64 / a.unitSize) n.maps ((pos-n.startbit) / a.unitSize) map) j =
      addAt (Words.bit n.maps) (pos-n.startbit) 64 ⟨pos,map.testBit⟩ j := by
  have hbits : a.unitSize*(64 / a.unitSize) = 64 := by cases a <;> rfl
  rw [bit_storeMap a.unitSize_pos _ _ (by rw [hbits]; exact hmap),Nat.div_mul_cancel hdvd,addAt]
  congr 1
  by_cases hge : pos-n.startbit ≤ j
  · by_cases hlt : j < pos-n.startbit+64
    · rw [decide_eq_true hlt,Bool.and_true]
    rw [decide_eq_false hlt,Bool.and_false,Bool.false_and]
    have hzero : map.testBit (j-(pos-n.startbit)) = false := by
      apply Nat.testBit_lt_two_pow
      exact Nat.lt_of_lt_of_le hmap (Nat.pow_le_pow_right (by decide) (by omega))
    rw [hzero,Bool.and_false]
  · rw [decide_eq_false hge,Bool.false_and,Bool.false_and,Bool.false_and]

lemma importMap_poured (h : Chain a.size 0 (imported s)) (hfirst : s.2 = none → s.1 = [])
    (hle : ∀ e, s.2 = some e → e.startbit ≤ pos) (hdvd : 64 ∣ pos) (hbound : pos+256 < 4294967296)
    (hmap : map ≠ 0) (h64 : map < 2^64) :
    Poured a.size 64 (imported s) ⟨pos,map.testBit⟩ (imported (importMap s pos map)) ∧
      ∃ e, (importMap s pos map).2 = some e ∧ e.startbit ≤ pos := by
  have hunit : 64 ∣ a.size := by cases a <;> decide
  have hunit64 : a.unitSize ∣ 64 := by cases a <;> decide
  have hsize : a.size ≤ 192 := by cases a <;> decide
  have hround : a.size ∣ pos-pos % a.size := Nat.dvd_sub_mod pos
  have hword (start : Nat) (hstart : a.size ∣ start) : a.unitSize ∣ pos-start :=
    Nat.dvd_trans hunit64 (Nat.dvd_sub hdvd (Nat.dvd_trans hunit hstart))
  -- a new node takes the map
  have hnew (l : List (Node a)) (hl : Chain a.size 0 (blocks l)) (hstop : stop a.size 0 (blocks l) ≤ pos) :
      Poured a.size 64 (blocks l) ⟨pos,map.testBit⟩ (blocks l ++ [(⟨pos-pos % a.size,
        storeMap (· ||| ·) (64 / a.unitSize) (fun _ => 0) ((pos-(pos-pos % a.size)) / a.unitSize) map⟩ :
          Node a).block]) := by
    refine Poured.of_new a.size_pos hunit hl hdvd hstop rfl fun j _ => ?_
    rw [← Words.bit_zero]
    exact bit_imported (n := ⟨pos-pos % a.size,fun _ => 0⟩) (Nat.sub_le _ _) (hword _ hround) h64 j
  obtain ⟨done,last⟩ := s
  rw [importMap,if_neg hmap]
  rcases last with _ | e
  · obtain rfl : done = [] := hfirst rfl
    refine ⟨?_,_,rfl,Nat.sub_le _ _⟩
    exact hnew [] trivial (Nat.zero_le _)
  have hstart : e.startbit ≤ pos := hle e rfl
  rw [imported_some] at h
  obtain ⟨-,-,h3⟩ := chain_concat.mp h
  have hulong : a.ulong (e.startbit+a.size) = e.startbit+a.size := Width.ulong_of_lt (by omega)
  by_cases hge : pos ≥ e.startbit+a.size
  · have henter : importEnter done (some e) pos = (done ++ [e],⟨pos-pos % a.size,fun _ => 0⟩) := by
      simp only [importEnter,hulong]
      rw [if_pos hge]
    rw [henter]
    refine ⟨?_,_,rfl,Nat.sub_le _ _⟩
    rw [imported_some,imported_some,← show blocks (done ++ [e]) = blocks done ++ [e.block] from blocks_append _ _]
    refine hnew (done ++ [e]) ?_ ?_
    · rw [blocks_append]
      exact h
    rw [blocks_append,show blocks [e] = [e.block] from rfl,stop_concat]
    exact hge
  have henter : importEnter done (some e) pos = (done,e) := by
    simp only [importEnter,hulong]
    rw [if_neg hge]
  rw [henter]
  refine ⟨?_,_,rfl,hstart⟩
  rw [imported_some,imported_some]
  exact Poured.of_last hunit h hdvd hstart (Nat.lt_of_not_ge hge) rfl fun j _ =>
    bit_imported hstart (hword _ h3) h64 j

def wordChunks (ws : List (Nat × Nat)) : List Block := ws.map fun u => ⟨u.1,u.2.testBit⟩

lemma testBit_eq_false_of_zero {c : Block} (hc : c.bits = Nat.testBit 0) : ¬c.Has 64 i := by
  rintro ⟨-,-,hbit⟩
  rw [hc,Nat.zero_testBit] at hbit
  cases hbit

structure Importing (lo : Nat) (s : List (Node a) × Option (Node a)) : Prop where
  chain : Chain a.size 0 (imported s)
  first : s.2 = none → s.1 = []
  below : ∀ e, s.2 = some e → e.startbit ≤ lo
  filled : Filled a.size (imported s)

lemma importMap_spec (h : Importing lo s) (hlo : lo ≤ pos) (hdvd : 64 ∣ pos) (hbound : pos+256 < 4294967296)
    (h64 : map < 2^64) : Importing pos (importMap s pos map) ∧ ∀ i, Has a.size (imported (importMap s pos map)) i ↔
        Has a.size (imported s) i ∨ (⟨pos,map.testBit⟩ : Block).Has 64 i := by
  by_cases hmap : map = 0
  · rw [importMap,if_pos hmap]
    refine ⟨⟨h.chain,h.first,fun e he => Nat.le_trans (h.below e he) hlo,h.filled⟩,fun i => ⟨.inl,?_⟩⟩
    exact fun hor => hor.resolve_right (testBit_eq_false_of_zero (by rw [hmap]))
  obtain ⟨hpour,e,he,hstart⟩ := importMap_poured h.chain h.first
    (fun e he => Nat.le_trans (h.below e he) hlo) hdvd hbound hmap h64
  refine ⟨⟨hpour.chain,fun hnone => ?_,fun e' he' => ?_,hpour.filled h.filled ?_⟩,hpour.has⟩
  · rw [he] at hnone
    cases hnone
  · rw [he] at he'
    cases he'
    exact hstart
  obtain ⟨r,hr⟩ := Nat.exists_testBit_of_ne_zero hmap
  have hr64 : r < 64 := by
    by_contra hge
    rw [Nat.testBit_lt_two_pow (Nat.lt_of_lt_of_le h64
      (Nat.pow_le_pow_right (by decide) (Nat.le_of_not_lt hge)))] at hr
    cases hr
  refine ⟨pos+r,Nat.le_add_right _ _,Nat.add_lt_add_left hr64 _,?_⟩
  rw [Nat.add_sub_cancel_left]
  exact hr

lemma importWords_spec {ws : List (Nat × Nat)} (hws : Chain 64 lo (wordChunks ws))
    (hbound : ∀ u ∈ ws, u.1+256 < 4294967296 ∧ u.2 < 2^64) (h : Importing lo s) :
    (∃ lo', Importing lo' (ws.foldl (fun s u => importMap s u.1 u.2) s)) ∧
      ∀ i, Has a.size (imported (ws.foldl (fun s u => importMap s u.1 u.2) s)) i ↔
        Has a.size (imported s) i ∨ Has 64 (wordChunks ws) i := by
  induction ws generalizing s lo with
  | nil => exact ⟨⟨lo,h⟩,fun i => ⟨.inl,fun hor => hor.resolve_right has_nil⟩⟩
  | cons u ws ih =>
    obtain ⟨hlo,hdvd,hrest⟩ := hws
    obtain ⟨hb,h64⟩ := hbound u mem_cons_self
    obtain ⟨hnext,hhas⟩ := importMap_spec h hlo hdvd hb h64
    obtain ⟨hdone,hhas'⟩ := ih (hrest.mono (Nat.le_add_right _ _)) (fun v hv => hbound v (mem_cons_of_mem _ hv)) hnext
    refine ⟨hdone,fun i => ?_⟩
    rw [foldl_cons,hhas',hhas,or_assoc]
    exact or_congr_right has_cons.symm

lemma words_same {c : Catmap} (hbound : c.startbit+catmapSize ≤ 4294967296) :
    List.Forall₂ (Same 64) (c.block.split 64 mapCnt) (wordChunks c.words) := by
  rw [Block.split,wordChunks,Catmap.words,map_map,forall₂_map_left_iff,forall₂_map_right_iff, List.forall₂_same]
  intro k hk
  have hk' : k < 4 := mem_range.mp hk
  refine ⟨?_,fun j hj => Words.bit_unit _ hj⟩
  show c.startbit+k*64 = u32 (c.startbit+k*64)
  rw [u32_of_lt (by simp only [catmapSize,mapSize,mapCnt] at hbound; omega)]

lemma flatMap_words_same {l : List Catmap} (hbound : ∀ c ∈ l, c.startbit+catmapSize ≤ 4294967296) :
    List.Forall₂ (Same 64) ((l.map Catmap.block).flatMap (·.split 64 mapCnt))
      (wordChunks (l.flatMap Catmap.words)) := by
  induction l with
  | nil => exact .nil
  | cons c l ih =>
    rw [flatMap_cons,wordChunks,map_append,map_cons,flatMap_cons]
    exact rel_append (words_same (hbound c mem_cons_self)) (ih fun d hd => hbound d (mem_cons_of_mem _ hd))

lemma words_bound {l : List Catmap} (hbound : ∀ c ∈ l, c.startbit+catmapSize+256 < 4294967296)
    {u : Nat × Nat} (hu : u ∈ l.flatMap Catmap.words) : u.1+256 < 4294967296 ∧ u.2 < 2^64 := by
  obtain ⟨c,hc,hu⟩ := mem_flatMap.mp hu
  obtain ⟨k,hk,rfl⟩ := mem_map.mp hu
  have hk' : k < 4 := mem_range.mp hk
  have hb := hbound c hc
  have hle : u32 (c.startbit+k*64) ≤ c.startbit+k*64 := Nat.mod_le _ _
  refine ⟨?_,(c.bitmap k).isLt⟩
  show u32 (c.startbit+k*64)+256 < 4294967296
  simp only [catmapSize,mapSize,mapCnt] at hb
  omega

/-- The import of aligned maps in order is canonical and has their categories. -/
theorem netlblImport_spec (a : Width) {l : List Catmap} (hne : l ≠ []) (h : Chain catmapSize 0 (l.map Catmap.block))
    (hbound : stop catmapSize 0 (l.map Catmap.block)+256 < 4294967296) :
    ∃ e : Ebitmap a, netlblImport a l = some e ∧ e.Canonical ∧ ∀ i, HasBit e.node i ↔ Categories l i := by
  have hsize : a.size ≤ 192 := by cases a <;> decide
  have hstart (c : Catmap) (hc : c ∈ l) : c.startbit+catmapSize ≤ stop catmapSize 0 (l.map Catmap.block) :=
    h.le_stop_of_mem (mem_map_of_mem hc)
  have hsame := flatMap_words_same fun c hc => by have := hstart c hc; omega
  have hsplit : BlockSet.Chain (mapCnt*64) 0 (l.map Catmap.block) := h
  have hchain : BlockSet.Chain 64 0 (wordChunks (l.flatMap Catmap.words)) :=
    (chain_flatMap_split (by decide) hsplit).congr_same hsame
  have hcat (i : Nat) : Has 64 (wordChunks (l.flatMap Catmap.words)) i ↔ Categories l i := by
    rw [← has_iff_of_forall₂ hsame,has_flatMap_split]
    rfl
  have hinit : Importing 0 (([],none) : List (Node a) × Option (Node a)) := ⟨trivial,fun _ => rfl,nofun,nofun⟩
  obtain ⟨⟨lo',hdone⟩,hhas⟩ := importWords_spec hchain
    (fun u hu => words_bound (fun c hc => by have := hstart c hc; omega) hu) hinit
  have heq : netlblImport a l =
      some (finishImport ((l.flatMap Catmap.words).foldl (fun s u => importMap s u.1 u.2) ([],none))) := by
    rw [netlblImport,if_neg (by simpa using hne),foldl_flatMap]
  generalize (l.flatMap Catmap.words).foldl (fun s u => importMap s u.1 u.2)
    (([],none) : List (Node a) × Option (Node a)) = s at heq hdone hhas
  obtain ⟨done,last⟩ := s
  have hbits (i : Nat) : Has a.size (imported (done,last)) i ↔ Categories l i := by
    rw [hhas,hcat]
    exact ⟨fun hor => hor.resolve_left has_nil,.inr⟩
  rcases last with _ | e
  · obtain rfl : done = [] := hdone.first rfl
    exact ⟨_,heq,Ebitmap.canonical_init a,hbits⟩
  rw [imported_some] at hbits
  have hchain' := hdone.chain
  have hfilled := hdone.filled
  rw [imported_some] at hchain' hfilled
  have hend : e.startbit+a.size < 4294967296 := by
    obtain ⟨i,hi⟩ := hfilled e.block (mem_append_right _ mem_cons_self)
    have hlt := h.lt_stop ((hbits i).mp (has_append.mpr (.inr (has_singleton.mpr hi))))
    have hge : e.startbit ≤ i := hi.1
    omega
  have hblocks : blocks (done ++ [e]) = blocks done ++ [e.block] := blocks_append _ _
  refine ⟨_,heq,⟨⟨?_,?_,?_⟩,⟨?_,?_⟩⟩,fun i => ?_⟩
  · show Chain a.size 0 (blocks (done ++ [e]))
    rw [hblocks]
    exact hchain'
  · show stop a.size 0 (blocks (done ++ [e])) ≤ u32 (e.startbit+a.size)
    rw [hblocks,stop_concat,u32_of_lt hend]
    exact Nat.le_refl _
  · exact Nat.mod_lt _ (by decide)
  · show Filled a.size (blocks (done ++ [e]))
    rw [hblocks]
    exact hfilled
  · show u32 (e.startbit+a.size) = stop a.size 0 (blocks (done ++ [e]))
    rw [hblocks,stop_concat,u32_of_lt hend]
    rfl
  show Has a.size (blocks (done ++ [e])) i ↔ _
  rw [hblocks]
  exact hbits i

end Import

lemma Built.mono {allowed allowed' : List UInt8 → Prop} (hsub : ∀ fp, allowed fp → allowed' fp)
    (h : Built a allowed e) : Built a allowed' e := by
  induction h with
  | init => exact .init
  | setBit _ hbit heq ih => exact .setBit ih hbit heq
  | cpy allocs _ ih => exact .cpy allocs ih
  | read hfp heq => exact .read (hsub _ hfp) heq

lemma Built.bit_lt (h : Built a (fun _ => False) e) {i : Nat} (hi : HasBit e.node i) : i < 2147483648 := by
  induction h with
  | init => exact absurd hi has_nil
  | setBit hbuilt hbit heq ih =>
    rename_i e e' bit alloc value
    have hsound := (hbuilt.mono fun _ => False.elim).canonical.sound
    rcases Ebitmap.setBit_spec value alloc hsound hbit with ⟨herr,-⟩ | ⟨e'',hok,hset⟩
    · rw [heq] at herr
      cases herr
    rw [heq] at hok
    cases hok
    have hold := (hset.has i).mp hi
    split at hold
    · rename_i hib
      rw [hib]
      exact hbit
    · exact ih hold
  | cpy allocs _ ih =>
    rw [Ebitmap.cpy] at hi
    split at hi
    · rw [map_id''] at hi
      · exact ih hi
      · exact fun _ => rfl
    · exact absurd hi has_nil
  | read hfp => exact hfp.elim

lemma Ebitmap.getBit_iff (h : e.Sound) (i : Nat) : e.getBit i = .ok true ↔ HasBit e.node i := by
  obtain ⟨b,hget,hb⟩ := Ebitmap.getBit_eq h i
  rw [hget,← hb]
  exact ⟨Except.ok.inj,congrArg Except.ok⟩

lemma Ebitmap.getBit_congr {e' : Ebitmap a} (h : e.Sound) (h' : e'.Sound)
    (hbits : ∀ i, HasBit e.node i ↔ HasBit e'.node i) (i : Nat) : e.getBit i = e'.getBit i := by
  obtain ⟨b,hget,hb⟩ := Ebitmap.getBit_eq h i
  obtain ⟨b',hget',hb'⟩ := Ebitmap.getBit_eq h' i
  have heq : b = b' := by
    rw [Bool.eq_iff_iff,hb,hb']
    exact hbits i
  rw [hget,hget',heq]

lemma units_good (h : Linked 0 l highbit) (hlow : a = .w64 ∨ ∀ i, HasBit l i → i % 64 < 32) :
    ∀ u ∈ l.flatMap Node.units, u.1 % 64 = 0 ∨ u.2 = 0 := by
  intro u hu
  obtain ⟨hchain,hhas⟩ := h.units_chain
  have hmem : (⟨u.1,u.2.getLsbD⟩ : Block) ∈ chunks (l.flatMap Node.units) := mem_map_of_mem hu
  have hdvd : a.unitSize ∣ u.1 := hchain.dvd_start hmem
  cases a with
  | w64 => exact .inl (Nat.mod_eq_zero_of_dvd hdvd)
  | w32 =>
    have hlow := hlow.resolve_left (by decide)
    by_contra hnot
    push Not at hnot
    obtain ⟨hodd,hword⟩ := hnot
    obtain ⟨r,hr,hbit⟩ := exists_bit_of_ne_zero hword
    have hbit' : HasBit l (u.1+r) := (hhas _).mp ⟨_,hmem,Nat.le_add_right _ _,Nat.add_lt_add_left hr _,by
      rw [Nat.add_sub_cancel_left]
      exact hbit⟩
    have hlt := hlow _ hbit'
    have hr32 : r < 32 := hr
    have hdvd32 : 32 ∣ u.1 := hdvd
    omega

lemma not_categories_upper (m : WideShift) (e : Ebitmap .w32) {i : Nat} (hi : 32 ≤ i % 64) :
    ¬Categories (e.netlblExport m) i := by
  rintro ⟨_,hmem,hge,-,hbit⟩
  obtain ⟨c,hc,rfl⟩ := mem_map.mp hmem
  rcases hnode : e.node with _ | ⟨n,l⟩
  · rw [Ebitmap.netlblExport,hnode] at hc
    cases hc
  rw [netlblExport_eq m hnode] at hc
  have hstart : ∀ c ∈ ([] : List Catmap) ++ [⟨n.startbit-n.startbit % catmapSize,fun _ => 0⟩], c.LowerHalf := by
    intro c hc
    rw [mem_singleton.mp hc]
    exact lowerHalf_new _
  obtain ⟨hdvd,hzero⟩ := lowerHalf_exportUnits m ((n::l).flatMap Node.units) hstart c hc
  have hge' : c.startbit ≤ i := hge
  have hclear := hzero (i-c.startbit) (by omega)
  exact absurd (hclear.symm.trans hbit) (by decide)

/-- The export has the categories of the bitmap, and its import gives the bitmap back, exactly if the
words have 64 bits or no bit lies in the upper half of a 64-bit word. -/
theorem export_import_iff (m : WideShift) {e : Ebitmap a} (h : Built a (fun _ => False) e)
    (hne : ∃ i, e.getBit i = .ok true) : ((∀ i, Categories (e.netlblExport m) i ↔ e.getBit i = .ok true) ∧
      ∃ e', netlblImport a (e.netlblExport m) = some e' ∧ (∀ i, e'.getBit i = e.getBit i) ∧
        (a = .w64 → e'.cmp e = true)) ↔ (a = .w64 ∨ ∀ i, e.getBit i = .ok true → i % 64 < 32) := by
  have hcanon := (h.mono fun _ => False.elim).canonical
  have hget (i : Nat) := Ebitmap.getBit_iff hcanon.sound i
  simp only [hget] at hne ⊢
  obtain ⟨b,hb⟩ := hne
  obtain ⟨n,l,hnode⟩ : ∃ n l, e.node = n::l := by
    cases hcase : e.node with
    | nil =>
      rw [hcase] at hb
      exact absurd hb has_nil
    | cons n l => exact ⟨n,l,rfl⟩
  rw [netlblExport_eq m hnode]
  constructor
  · rintro ⟨hcat,-⟩
    cases a with
    | w64 => exact .inl rfl
    | w32 =>
      refine .inr fun i hi => ?_
      by_contra hhigh
      refine not_categories_upper m e (Nat.le_of_not_lt hhigh) ?_
      rw [netlblExport_eq m hnode]
      exact (hcat i).mpr hi
  intro hlow
  have hsize : a.size ≤ 192 := by cases a <;> decide
  have hsound := hcanon.sound
  have htight := hcanon.tight
  have hhigh : e.highbit+512 < 4294967296 := by
    obtain ⟨i,hi,hlast⟩ := htight.filled.exists_last (by rw [hnode]; exact nofun) 0
    have := h.bit_lt hi
    rw [htight.stop_eq]
    omega
  have hlinked : Linked 0 (n::l) e.highbit := by
    rw [← hnode]
    exact hsound
  rw [hnode] at hlow ⊢
  obtain ⟨hchain,hstop,hcat⟩ := exportState_spec m hlinked hhigh (units_good hlinked hlow)
  have hbound : catmapSize = 256 := rfl
  obtain ⟨e',himport,hcanon',hbits⟩ := netlblImport_spec a
    (l := (exportState m n l).1 ++ [(exportState m n l).2]) (by simp) hchain
    (by change stop catmapSize 0 (exported (exportState m n l))+256 < _; omega)
  have hsame (i : Nat) : HasBit e'.node i ↔ HasBit e.node i := by
    rw [hbits,hnode]
    exact hcat i
  refine ⟨hcat,e',himport,fun i => Ebitmap.getBit_congr hcanon'.sound hsound hsame i,fun _ => ?_⟩
  exact (Ebitmap.cmp_iff hcanon' hcanon).mpr hsame

/-- The categories 3 and 200 with 64 bits. -/
theorem export_import_wide : ∃ e : Ebitmap .w64, e.positiveBits = some [3,200] ∧
    (∀ i, Categories (e.netlblExport .cleared) i ↔ e.getBit i = .ok true) ∧
      ∃ e', netlblImport .w64 (e.netlblExport .cleared) = some e' ∧ e'.cmp e = true := by
  have h1 : Built .w64 (fun _ => False) _ :=
    .setBit .init (by decide) (rfl : (Ebitmap.init .w64).setBit true 200 true = .ok _)
  have h2 : Built .w64 (fun _ => False) _ :=
    .setBit h1 (by decide) (rfl : Ebitmap.setBit _ true 3 true = .ok _)
  obtain ⟨hcat,e',himport,-,hcmp⟩ := (export_import_iff .cleared h2 ⟨3,by decide +kernel⟩).mpr (.inl rfl)
  exact ⟨_,by decide +kernel,hcat,e',himport,hcmp rfl⟩

/-- With 32 bits the category 32 is lost, whatever the machine does for the shift. -/
theorem export_loses_category : ∃ e : Ebitmap .w32, Built .w32 (fun _ => False) e ∧
    e.getBit 32 = .ok true ∧ ∀ m : WideShift, ¬Categories (e.netlblExport m) 32 := by
  have h : Built .w32 (fun _ => False) _ :=
    .setBit .init (by decide) (rfl : (Ebitmap.init .w32).setBit true 32 true = .ok _)
  exact ⟨_,h,by decide +kernel,fun m => not_categories_upper m _ (by decide)⟩

end LinuxToradex.Selinux

import Mathlib.Tactic.IntervalCases

/-! `lib/crc32.c` with `CRC_LE_BITS` and `CRC_BE_BITS` 8 and 1, and `lib/gen_crc32table.c`. A buffer is the
address of its first byte and its bytes. -/
namespace LinuxToradex.Crc32

abbrev U32 := BitVec 32

abbrev Byte := BitVec 8

abbrev Table := Nat → U32 → U32

inductive Endian
  | little
  | big

def stepLe (crc : U32) : U32 := crc >>> 1 ^^^ if crc &&& 1 ≠ 0 then 0xedb88320 else 0

def stepBe (crc : U32) : U32 := crc <<< 1 ^^^ if crc &&& 0x80000000 ≠ 0 then 0x04c11db7 else 0

def crc32LeBits (crc : U32) (p : List Byte) : U32 :=
  p.foldl (fun crc b => stepLe^[8] (crc ^^^ b.setWidth 32)) crc

def crc32BeBits (crc : U32) (p : List Byte) : U32 :=
  p.foldl (fun crc b => stepBe^[8] (crc ^^^ (b.setWidth 32 : U32) <<< 24)) crc

def initLe : List U32 :=
  ((List.range 8).foldl (fun (crc,table) k =>
    let i := 128 >>> k
    let crc := stepLe crc
    (crc,(List.range' 0 (128/i) (2*i)).foldl (fun table j => table.set (i+j) (crc ^^^ table.getD j 0)) table))
    (1,List.replicate 256 0)).2

def initBe : List U32 :=
  ((List.range 8).foldl (fun (crc,table) k =>
    let i := 1 <<< k
    let crc := stepBe crc
    (crc,(List.range i).foldl (fun table j => table.set (i+j) (crc ^^^ table.getD j 0)) table))
    (0x80000000,List.replicate 256 0)).2

def crc32tableLe : Table
  | 0, i => initLe.getD i.toNat 0
  | j+1, i =>
    let crc := crc32tableLe j i
    initLe.getD (crc &&& 255).toNat 0 ^^^ crc >>> 8

def crc32tableBe : Table
  | 0, i => initBe.getD i.toNat 0
  | j+1, i =>
    let crc := crc32tableBe j i
    initBe.getD (crc >>> 24 &&& 255).toNat 0 ^^^ crc <<< 8

variable (host : Endian) (tab : Table)

def doCrc (crc x : U32) : U32 :=
  match host with
  | .little => tab 0 ((crc ^^^ x) &&& 255) ^^^ crc >>> 8
  | .big => tab 0 ((crc >>> 24 ^^^ x) &&& 255) ^^^ crc <<< 8

def doCrc4 (crc : U32) : U32 :=
  match host with
  | .little => tab 3 (crc &&& 255) ^^^ tab 2 (crc >>> 8 &&& 255) ^^^ tab 1 (crc >>> 16 &&& 255) ^^^
      tab 0 (crc >>> 24 &&& 255)
  | .big => tab 0 (crc &&& 255) ^^^ tab 1 (crc >>> 8 &&& 255) ^^^ tab 2 (crc >>> 16 &&& 255) ^^^
      tab 3 (crc >>> 24 &&& 255)

def load (a b c d : Byte) : U32 :=
  match host with
  | .little => d++c++b++a
  | .big => a++b++c++d

def alignLoop : Nat → U32 → List Byte → U32 × List Byte
  | _, crc, [] => (crc,[])
  | buf, crc, x::rest =>
    if buf &&& 3 ≠ 0 then alignLoop (buf+1) (doCrc host tab crc (x.setWidth 32)) rest else (crc,x::rest)

def wordLoop : U32 → List Byte → U32 × List Byte
  | crc, a::b::c::d::rest => wordLoop (doCrc4 host tab (crc ^^^ load host a b c d)) rest
  | crc, rest => (crc,rest)

def crc32Body (crc : U32) (buf : Nat) (bytes : List Byte) : U32 :=
  let (crc,bytes) := alignLoop host tab buf crc bytes
  let (crc,bytes) := wordLoop host tab crc bytes
  bytes.foldl (fun crc x => doCrc host tab crc (x.setWidth 32)) crc

def swab32 (x : U32) : U32 :=
  (x &&& 0xff) <<< 24 ||| (x &&& 0xff00) <<< 8 ||| (x &&& 0xff0000) >>> 8 ||| (x &&& 0xff000000) >>> 24

/-- Both `__cpu_to_le32` and `__le32_to_cpu`. -/
def le32 : Endian → U32 → U32
  | .little => id
  | .big => swab32

def be32 : Endian → U32 → U32
  | .little => swab32
  | .big => id

def crc32Le (crc : U32) (p : Nat) (bytes : List Byte) : U32 :=
  le32 host (crc32Body host (fun j i => le32 host (crc32tableLe j i)) (le32 host crc) p bytes)

def crc32Be (crc : U32) (p : Nat) (bytes : List Byte) : U32 :=
  be32 host (crc32Body host (fun j i => be32 host (crc32tableBe j i)) (be32 host crc) p bytes)

def byte (k : Nat) (x : U32) : Byte :=
  match host with
  | .little => x.extractLsb' (8*k) 8
  | .big => x.extractLsb' (24-8*k) 8

def place (k : Nat) (b : Byte) : U32 :=
  match host with
  | .little => (b.setWidth 32) <<< (8*k)
  | .big => (b.setWidth 32) <<< (24-8*k)

def shift (x : U32) : U32 :=
  match host with
  | .little => x >>> 8
  | .big => x <<< 8

lemma load_eq (a b c d : Byte) :
    load host a b c d = place host 0 a ^^^ place host 1 b ^^^ place host 2 c ^^^ place host 3 d := by
  cases host <;>
  · apply BitVec.eq_of_getLsbD_eq
    intro i hi
    simp only [load,place,BitVec.getLsbD_append]
    interval_cases i <;> simp

lemma load_byte (x : U32) : load host (byte host 0 x) (byte host 1 x) (byte host 2 x) (byte host 3 x) = x := by
  cases host <;>
  · apply BitVec.eq_of_getLsbD_eq
    intro i hi
    simp only [load,byte,BitVec.getLsbD_append]
    interval_cases i <;> simp

lemma shift_eq (x : U32) :
    shift host x =
      place host 0 (byte host 1 x) ^^^ place host 1 (byte host 2 x) ^^^ place host 2 (byte host 3 x) := by
  cases host <;>
  · apply BitVec.eq_of_getLsbD_eq
    intro i hi
    simp only [shift,place,byte]
    interval_cases i <;> simp

lemma index_eq (x : U32) : x &&& 255 = (byte .little 0 x).setWidth 32 ∧
    x >>> 8 &&& 255 = (byte .little 1 x).setWidth 32 ∧
    x >>> 16 &&& 255 = (byte .little 2 x).setWidth 32 ∧ x >>> 24 &&& 255 = (byte .little 3 x).setWidth 32 := by
  refine ⟨?_,?_,?_,?_⟩ <;>
  · apply BitVec.eq_of_getLsbD_eq
    intro i hi
    simp only [byte]
    interval_cases i <;> simp

lemma byte_big (x : U32) : byte .big 0 x = byte .little 3 x ∧ byte .big 1 x = byte .little 2 x ∧
    byte .big 2 x = byte .little 1 x ∧ byte .big 3 x = byte .little 0 x := ⟨rfl,rfl,rfl,rfl⟩

lemma place_little (b : Byte) : place .little 0 b = b.setWidth 32 := by
  rw [place,mul_zero,BitVec.shiftLeft_zero]

lemma doCrc_bytes (crc : U32) (b : Byte) : doCrc host tab crc (b.setWidth 32) =
    tab 0 ((byte host 0 (crc ^^^ place host 0 b)).setWidth 32) ^^^ shift host (crc ^^^ place host 0 b) := by
  rcases host with _ | _
  · have hzero : ∀ b : Byte, (b.setWidth 32 : U32) >>> 8 = 0#32 := by decide +kernel
    rw [doCrc,(index_eq _).1,place_little,shift,BitVec.ushiftRight_xor_distrib,hzero,BitVec.xor_zero]
  have hout : ∀ b : Byte, place .big 0 b >>> 24 = b.setWidth 32 ∧ place .big 0 b <<< 8 = 0#32 := by decide +kernel
  obtain ⟨hplace,hzero⟩ := hout b
  rw [doCrc,(byte_big _).1,← (index_eq _).2.2.2,BitVec.ushiftRight_xor_distrib,hplace,shift,
    BitVec.shiftLeft_xor_distrib,hzero,BitVec.xor_zero]

lemma doCrc4_bytes (crc : U32) : doCrc4 host tab crc =
    tab 3 ((byte host 0 crc).setWidth 32) ^^^ tab 2 ((byte host 1 crc).setWidth 32) ^^^
      tab 1 ((byte host 2 crc).setWidth 32) ^^^ tab 0 ((byte host 3 crc).setWidth 32) := by
  obtain ⟨h0,h1,h2,h3⟩ := index_eq crc
  rcases host with _ | _
  · rw [doCrc4,h0,h1,h2,h3]
  rw [doCrc4,h0,h1,h2,h3]
  simp only [byte_big]
  ac_rfl

def Endian.other : Endian → Endian
  | .little => .big
  | .big => .little

lemma swab32_load (a b c d : Byte) : swab32 (load host a b c d) = load host.other a b c d := by
  cases host <;>
  · apply BitVec.eq_of_getLsbD_eq
    intro i hi
    simp only [swab32,load,Endian.other,BitVec.getLsbD_or,BitVec.getLsbD_and,BitVec.getLsbD_shiftLeft,
      BitVec.getLsbD_ushiftRight,BitVec.getLsbD_append]
    interval_cases i <;> simp

lemma swab32_swab32 (x : U32) : swab32 (swab32 x) = x := by
  rw [← load_byte .little x,swab32_load,swab32_load]
  rfl

lemma swab32_xor (x y : U32) : swab32 (x ^^^ y) = swab32 x ^^^ swab32 y := by
  apply BitVec.eq_of_getLsbD_eq
  intro i hi
  simp only [swab32]
  interval_cases i <;> simp

lemma swab32_place : ∀ k < 4, ∀ b, swab32 (place host k b) = place host.other k b := by
  cases host <;> decide +kernel

lemma byte_swab32 (x : U32) : byte host.other 0 (swab32 x) = byte host 0 x ∧
    byte host.other 1 (swab32 x) = byte host 1 x ∧ byte host.other 2 (swab32 x) = byte host 2 x ∧
    byte host.other 3 (swab32 x) = byte host 3 x := by
  cases host <;> refine ⟨?_,?_,?_,?_⟩ <;>
  · apply BitVec.eq_of_getLsbD_eq
    intro i hi
    simp only [byte,swab32,Endian.other]
    interval_cases i <;> simp

lemma shift_swab32 (x : U32) : shift host.other (swab32 x) = swab32 (shift host x) := by
  obtain ⟨-,h1,h2,h3⟩ := byte_swab32 host x
  rw [shift_eq,shift_eq,swab32_xor,swab32_xor,swab32_place host 0 (by omega),swab32_place host 1 (by omega),
    swab32_place host 2 (by omega),h1,h2,h3]

lemma doCrc_swab32 (crc : U32) (b : Byte) :
    doCrc host.other (fun j i => swab32 (tab j i)) (swab32 crc) (b.setWidth 32) =
      swab32 (doCrc host tab crc (b.setWidth 32)) := by
  rw [doCrc_bytes,doCrc_bytes,← swab32_place host 0 (by omega),← swab32_xor,(byte_swab32 host _).1,shift_swab32,
    swab32_xor]

lemma doCrc4_swab32 (crc : U32) :
    doCrc4 host.other (fun j i => swab32 (tab j i)) (swab32 crc) = swab32 (doCrc4 host tab crc) := by
  obtain ⟨h0,h1,h2,h3⟩ := byte_swab32 host crc
  rw [doCrc4_bytes,doCrc4_bytes,h0,h1,h2,h3]
  simp only [swab32_xor]

variable {host tab} {S : U32 → U32}

/-- `S` divides by eight bits for a host that has the next byte at place 0. -/
structure Divides (host : Endian) (S : U32 → U32) : Prop where
  xor : ∀ x y, S (x ^^^ y) = S x ^^^ S y
  lower : ∀ k < 3, ∀ b, S (place host (k+1) b) = place host k b

lemma Divides.eq (h : Divides host S) (x : U32) : S x = S (place host 0 (byte host 0 x)) ^^^ shift host x := by
  conv_lhs => rw [← load_byte host x,load_eq]
  rw [h.xor,h.xor,h.xor,h.lower 0 (by omega),h.lower 1 (by omega),h.lower 2 (by omega),shift_eq]
  simp only [BitVec.xor_assoc]

lemma bit_xor (poly : U32) {m : U32} {i : Nat} (hm : m = BitVec.twoPow 32 i) (hi : i < 32) (x y : U32) :
    (if (x ^^^ y) &&& m ≠ 0 then poly else 0) =
      (if x &&& m ≠ 0 then poly else 0) ^^^ if y &&& m ≠ 0 then poly else 0 := by
  have hne : BitVec.twoPow 32 i ≠ 0#32 := fun hzero => by
    have hbit := congrArg (BitVec.getLsbD · i) hzero
    simp [hi] at hbit
  rw [hm,BitVec.and_twoPow,BitVec.and_twoPow,BitVec.and_twoPow,BitVec.getLsbD_xor]
  cases x.getLsbD i <;> cases y.getLsbD i <;> simp [hne]

lemma stepLe_xor (x y : U32) : stepLe (x ^^^ y) = stepLe x ^^^ stepLe y := by
  rw [stepLe,stepLe,stepLe,bit_xor _ (show 1 = BitVec.twoPow 32 0 from rfl) (by omega),BitVec.ushiftRight_xor_distrib]
  ac_rfl

lemma stepBe_xor (x y : U32) : stepBe (x ^^^ y) = stepBe x ^^^ stepBe y := by
  rw [stepBe,stepBe,stepBe,bit_xor _ (show 0x80000000 = BitVec.twoPow 32 31 from rfl) (by omega),
    BitVec.shiftLeft_xor_distrib]
  ac_rfl

lemma iterate_xor {f : U32 → U32} (hf : ∀ x y, f (x ^^^ y) = f x ^^^ f y) (n : Nat) (x y : U32) :
    f^[n] (x ^^^ y) = f^[n] x ^^^ f^[n] y := by
  induction n generalizing x y with
  | zero => rfl
  | succ n ih => rw [Function.iterate_succ_apply,hf,ih]; rfl

lemma divides_le : Divides .little stepLe^[8] :=
  ⟨iterate_xor stepLe_xor 8,by decide +kernel⟩

lemma divides_be : Divides .big stepBe^[8] :=
  ⟨iterate_xor stepBe_xor 8,by decide +kernel⟩

lemma initLe_eq : initLe = (List.range 256).map fun i => stepLe^[8] (BitVec.ofNat 32 i) := by
  decide +kernel

lemma initBe_eq : initBe = (List.range 256).map fun i => stepBe^[8] (BitVec.ofNat 32 i <<< 24) := by
  decide +kernel

lemma getD_range (f : U32 → U32) (b : Byte) :
    ((List.range 256).map fun i => f (BitVec.ofNat 32 i)).getD (b.setWidth 32 : U32).toNat 0 = f (b.setWidth 32) := by
  have hlt : (b.setWidth 32 : U32).toNat < 256 := by
    rw [BitVec.toNat_setWidth]
    exact (Nat.mod_le _ _).trans_lt b.isLt
  rw [List.getD_eq_getElem?_getD,List.getElem?_map,List.getElem?_range hlt,Option.map_some,Option.getD_some,
    BitVec.ofNat_toNat,BitVec.setWidth_eq]

/-- The entries of table `j` are the bytes after `j + 1` divisions. -/
def Tabulates (host : Endian) (tab : Table) (S : U32 → U32) : Prop :=
  ∀ j b, tab j (b.setWidth 32) = S^[j+1] (place host 0 b)

lemma Divides.tabulates (h : Divides host S) (hfirst : ∀ b : Byte, tab 0 (b.setWidth 32) = S (place host 0 b))
    (hnext : ∀ j i, tab (j+1) i = tab 0 ((byte host 0 (tab j i)).setWidth 32) ^^^ shift host (tab j i)) :
    Tabulates host tab S := by
  intro j b
  induction j with
  | zero => exact hfirst b
  | succ j ih => rw [Function.iterate_succ_apply',← ih,h.eq,← hfirst,hnext]

lemma tabulates_le : Tabulates .little crc32tableLe stepLe^[8] := by
  refine divides_le.tabulates (fun b => ?_) fun j i => ?_
  · rw [crc32tableLe,initLe_eq,getD_range,place_little]
  rw [← (index_eq _).1]
  rfl

lemma tabulates_be : Tabulates .big crc32tableBe stepBe^[8] := by
  refine divides_be.tabulates (fun b => ?_) fun j i => ?_
  · rw [crc32tableBe,initBe_eq]
    exact getD_range (fun x => stepBe^[8] (x <<< 24)) b
  rw [(byte_big _).1,← (index_eq _).2.2.2]
  rfl

lemma doCrc_eq (h : Divides host S) (ht : Tabulates host tab S) (crc : U32) (b : Byte) :
    doCrc host tab crc (b.setWidth 32) = S (crc ^^^ place host 0 b) := by
  rw [doCrc_bytes,ht,h.eq (crc ^^^ _)]
  rfl

lemma doCrc4_eq (h : Divides host S) (ht : Tabulates host tab S) (crc : U32) (a b c d : Byte) :
    doCrc4 host tab (crc ^^^ load host a b c d) =
      S (S (S (S (crc ^^^ place host 0 a) ^^^ place host 0 b) ^^^ place host 0 c) ^^^ place host 0 d) := by
  have hword : ∀ x, doCrc4 host tab x = S^[4] x := by
    intro x
    conv_rhs => rw [← load_byte host x,load_eq]
    rw [doCrc4_bytes,ht,ht,ht,ht]
    simp only [Function.iterate_succ_apply,Function.iterate_zero_apply,h.xor,h.lower 0 (by omega),
      h.lower 1 (by omega),h.lower 2 (by omega)]
  rw [hword,load_eq]
  simp only [Function.iterate_succ_apply,Function.iterate_zero_apply,h.xor,h.lower 0 (by omega),
    h.lower 1 (by omega),h.lower 2 (by omega)]
  ac_rfl

lemma crc32Body_eq_foldl {f : U32 → Byte → U32} (hbyte : ∀ crc x, doCrc host tab crc (x.setWidth 32) = f crc x)
    (hword : ∀ crc a b c d, doCrc4 host tab (crc ^^^ load host a b c d) = f (f (f (f crc a) b) c) d)
    (crc : U32) (buf : Nat) (bytes : List Byte) : crc32Body host tab crc buf bytes = bytes.foldl f crc := by
  have halign : ∀ buf crc (bytes : List Byte),
      (alignLoop host tab buf crc bytes).2.foldl f (alignLoop host tab buf crc bytes).1 = bytes.foldl f crc := by
    intro buf crc bytes
    induction bytes generalizing buf crc with
    | nil => rfl
    | cons x rest ih =>
      rw [alignLoop]
      split
      · rw [ih,hbyte,List.foldl_cons]
      · rfl
  have hwords : ∀ crc (bytes : List Byte),
      (wordLoop host tab crc bytes).2.foldl f (wordLoop host tab crc bytes).1 = bytes.foldl f crc := by
    intro crc bytes
    fun_induction wordLoop host tab crc bytes with
    | case1 crc a b c d rest ih => rw [ih,hword]; rfl
    | case2 crc rest => rfl
  have htail : (fun crc (x : Byte) => doCrc host tab crc (x.setWidth 32)) = f := by
    funext crc x
    exact hbyte crc x
  rw [crc32Body,htail]
  exact (hwords _ _).trans (halign _ _ _)

/-- On either host the body divides by one byte after the other. -/
theorem crc32Body_spec (h : Divides host S) (ht : Tabulates host tab S) (crc : U32) (buf : Nat) (bytes : List Byte) :
    crc32Body host tab crc buf bytes = bytes.foldl (fun crc b => S (crc ^^^ place host 0 b)) crc ∧
      swab32 (crc32Body host.other (fun j i => swab32 (tab j i)) (swab32 crc) buf bytes) =
        bytes.foldl (fun crc b => S (crc ^^^ place host 0 b)) crc := by
  refine ⟨crc32Body_eq_foldl (doCrc_eq h ht) (doCrc4_eq h ht) crc buf bytes,?_⟩
  have hbyte : ∀ crc (x : Byte), doCrc host.other (fun j i => swab32 (tab j i)) crc (x.setWidth 32) =
      swab32 (S (swab32 crc ^^^ place host 0 x)) := by
    intro crc x
    rw [← doCrc_eq h ht,← doCrc_swab32,swab32_swab32]
  have hhom : bytes.foldl (fun crc b => swab32 (S (swab32 crc ^^^ place host 0 b))) (swab32 crc) =
      swab32 (bytes.foldl (fun crc b => S (crc ^^^ place host 0 b)) crc) :=
    List.foldl_hom swab32 fun x y => by rw [swab32_swab32]
  rw [crc32Body_eq_foldl hbyte]
  · rw [hhom,swab32_swab32]
  intro crc a b c d
  simp only [swab32_swab32]
  rw [← doCrc4_eq h ht,← doCrc4_swab32,swab32_xor,swab32_swab32,swab32_load]

/-- On hosts of both byte orders and at every alignment, the tables compute what the variant of one bit
computes, and the crc of a concatenation continues the crc of its first part. -/
theorem crc32_tables_sound (host : Endian) (seed : U32) (p p₁ p₂ : Nat) (bytes rest : List Byte) :
    crc32Le host seed p bytes = crc32LeBits seed bytes ∧ crc32Be host seed p bytes = crc32BeBits seed bytes ∧
      crc32Le host seed p (bytes++rest) = crc32Le host (crc32Le host seed p₁ bytes) p₂ rest ∧
      crc32Be host seed p (bytes++rest) = crc32Be host (crc32Be host seed p₁ bytes) p₂ rest := by
  have hle : ∀ seed p bytes, crc32Le host seed p bytes = crc32LeBits seed bytes := by
    intro seed p bytes
    obtain ⟨hsame,hother⟩ := crc32Body_spec divides_le tabulates_le seed p bytes
    simp only [place_little] at hsame hother
    cases host with
    | little => exact hsame
    | big => exact hother
  have hbe : ∀ seed p bytes, crc32Be host seed p bytes = crc32BeBits seed bytes := by
    intro seed p bytes
    obtain ⟨hsame,hother⟩ := crc32Body_spec divides_be tabulates_be seed p bytes
    cases host with
    | little => exact hother
    | big => exact hsame
  simp only [hle,hbe,crc32LeBits,crc32BeBits,List.foldl_append,and_self]

end LinuxToradex.Crc32

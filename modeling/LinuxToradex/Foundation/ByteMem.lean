import Mathlib.Data.List.Basic
import Mathlib.Data.Nat.Bitwise

/-! Little-endian words are read and written at any offset, aligned or not, so that overlapping views of the
same bytes behave as they do on the machine. -/
namespace ByteMem

abbrev Mem := Nat → UInt8

def u8 (m : Mem) (a : Nat) : Nat := (m a).toNat
def u16 (m : Mem) (a : Nat) : Nat := u8 m a+256*u8 m (a+1)
def u32 (m : Mem) (a : Nat) : Nat := u16 m a+65536*u16 m (a+2)
def u64 (m : Mem) (a : Nat) : Nat := u32 m a+4294967296*u32 m (a+4)

def s32 (m : Mem) (a : Nat) : Int :=
  if u32 m a < 2147483648 then (u32 m a : Int) else (u32 m a : Int)-4294967296

def bytes (m : Mem) (a n : Nat) : List UInt8 := (List.range n).map fun i => m (a+i)

def le : Nat → Nat → List UInt8
  | 0, _ => []
  | n+1, v => UInt8.ofNat v::le n (v/256)

def put (m : Mem) (a : Nat) (bs : List UInt8) : Mem :=
  fun x => if a ≤ x then bs.getD (x-a) (m x) else m x

@[simp] lemma le_length (n v : Nat) : (le n v).length = n := by
  induction n generalizing v with
  | zero => rfl
  | succ n ih => simp [le,ih]

variable {m n : Mem} {a x : Nat} {bs : List UInt8}

lemma put_of_lt (h : x < a) : put m a bs x = m x := by
  unfold put
  rw [if_neg (by omega)]

lemma put_of_ge (h : a+bs.length ≤ x) : put m a bs x = m x := by
  unfold put
  rw [if_pos (by omega),List.getD_eq_default]
  omega

lemma put_of_disjoint (h : x < a ∨ a+bs.length ≤ x) : put m a bs x = m x := by
  rcases h with h | h
  · exact put_of_lt h
  · exact put_of_ge h

lemma put_add (m : Mem) (a i : Nat) (bs : List UInt8) : put m a bs (a+i) = bs.getD i (m (a+i)) := by
  unfold put
  rw [if_pos (by omega),Nat.add_sub_cancel_left]

lemma u8_lt (m : Mem) (a : Nat) : u8 m a < 256 := (m a).toNat_lt

lemma u16_lt (m : Mem) (a : Nat) : u16 m a < 65536 := by
  have h0 := u8_lt m a
  have h1 := u8_lt m (a+1)
  unfold u16
  omega

lemma u16_congr (h : ∀ i < 2, m (a+i) = n (a+i)) : u16 m a = u16 n a := by
  unfold u16 u8
  rw [h 1 (by omega),show m a = n a from h 0 (by omega)]

lemma u32_congr (h : ∀ i < 4, m (a+i) = n (a+i)) : u32 m a = u32 n a := by
  have h0 : u16 m a = u16 n a := u16_congr fun i hi => h i (by omega)
  have h2 : u16 m (a+2) = u16 n (a+2) := u16_congr fun i hi => by
    have := h (2+i) (by omega)
    rwa [← add_assoc] at this
  rw [u32,u32,h0,h2]

lemma s32_congr (h : ∀ i < 4, m (a+i) = n (a+i)) : s32 m a = s32 n a := by
  rw [s32,s32,u32_congr h]

/-- Reading a word back from the place it was written to; `n` bytes above it were
written with it. -/
theorem u32_put_le (m : Mem) (a v n : Nat) : u32 (put m a (le (n+4) v)) a = v%4294967296 := by
  have h0 : put m a (le (n+4) v) a = UInt8.ofNat v := put_add m a 0 _
  have h1 : put m a (le (n+4) v) (a+1) = UInt8.ofNat (v/256) := put_add m a 1 _
  have h2 : put m a (le (n+4) v) (a+2) = UInt8.ofNat (v/256/256) := put_add m a 2 _
  have h3 : put m a (le (n+4) v) (a+3) = UInt8.ofNat (v/256/256/256) := put_add m a 3 _
  simp only [u32,u16,u8,add_assoc,Nat.reduceAdd,h0,h1,h2,h3,UInt8.toNat_ofNat']
  omega

end ByteMem

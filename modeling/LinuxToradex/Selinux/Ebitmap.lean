import LinuxToradex.Foundation.Bitmap

/-! `security/selinux/ss/ebitmap.c`, for both widths of `unsigned long`. Sums that can leave `u32` or
`unsigned long` are taken modulo its size. -/
namespace LinuxToradex.Selinux
open BitVec

inductive Width
  | w32 | w64
deriving DecidableEq

namespace Width

def bytes : Width → Nat
  | w32 => 4
  | w64 => 8

def unitNums (a : Width) : Nat := (32-a.bytes-4)/a.bytes

def unitSize (a : Width) : Nat := a.bytes*8

def size (a : Width) : Nat := a.unitNums*a.unitSize

def ulong (a : Width) (n : Nat) : Nat := n%2^a.unitSize

lemma unitSize_pos (a : Width) : 0 < a.unitSize := by
  cases a <;> decide

lemma size_pos (a : Width) : 0 < a.size := by
  cases a <;> decide

end Width

def u32 (n : Nat) : Nat := n%4294967296

structure Node (a : Width) where
  startbit : Nat
  maps : Nat → BitVec a.unitSize

structure Ebitmap (a : Width) where
  node : List (Node a)
  highbit : Nat

inductive Failure
  | noMemory | bug
deriving DecidableEq

/-- The loop of `find_next_bit`: the first set bit from `j` on, after at most `k` clear ones. -/
def findNext (f : Nat → Bool) : Nat → Nat → Nat
  | 0, j => j
  | k+1, j => if f j then j else findNext f k (j+1)

variable {a : Width}

namespace Node

def findNextBit (n : Node a) (offset : Nat) : Nat := findNext (Words.bit n.maps) (a.size-offset) offset

def getBit (n : Node a) (bit : Nat) : Except Failure Bool :=
  let index := (bit-n.startbit)/a.unitSize
  let ofs := (bit-n.startbit)%a.unitSize
  if index ≥ a.unitNums then .error .bug
  else .ok (n.maps index &&& twoPow a.unitSize ofs != 0)

def setBit (n : Node a) (bit : Nat) : Except Failure (Node a) :=
  let index := (bit-n.startbit)/a.unitSize
  let ofs := (bit-n.startbit)%a.unitSize
  if index ≥ a.unitNums then .error .bug
  else .ok {n with maps := Function.update n.maps index (n.maps index ||| twoPow a.unitSize ofs)}

def clrBit (n : Node a) (bit : Nat) : Except Failure (Node a) :=
  let index := (bit-n.startbit)/a.unitSize
  let ofs := (bit-n.startbit)%a.unitSize
  if index ≥ a.unitNums then .error .bug
  else .ok {n with maps := Function.update n.maps index (n.maps index &&& ~~~(twoPow a.unitSize ofs))}

end Node

def cmpNodes : List (Node a) → List (Node a) → Bool
  | [], [] => true
  | n1::l1, n2::l2 =>
    if n1.startbit = n2.startbit ∧ ∀ k < a.unitNums, n1.maps k = n2.maps k then cmpNodes l1 l2 else false
  | _, _ => false

def containsNodes : List (Node a) → List (Node a) → Bool
  | _, [] => true
  | [], _::_ => false
  | n1::l1, n2::l2 =>
    if n1.startbit ≤ n2.startbit then
      if n1.startbit < n2.startbit then containsNodes l1 (n2::l2)
      else if ∀ i < a.unitNums, n1.maps i &&& n2.maps i = n2.maps i then containsNodes l1 l2
      else false
    else false

def getBitNodes (bit : Nat) : List (Node a) → Except Failure Bool
  | [] => .ok false
  | n::l =>
    if n.startbit ≤ bit then
      if a.ulong (n.startbit+a.size) > bit then n.getBit bit else getBitNodes bit l
    else .ok false

/-- A node with one bit, as the end of `ebitmap_set_bit` allocates it; `alloc` says if the allocation
succeeds. -/
def newNode (a : Width) (alloc : Bool) (bit : Nat) : Except Failure (Node a) :=
  if alloc then Node.setBit {startbit := u32 (bit-bit%a.size), maps := fun _ => 0} bit
  else .error .noMemory

def loweredHighbit : Option (Node a) → Nat
  | some prev => u32 (prev.startbit+a.size)
  | none => 0

/-- The loop of `ebitmap_set_bit` from the node after `prev` on: what becomes of the rest of the list
and of `highbit`. -/
def setBitNodes (alloc : Bool) (bit : Nat) (value : Bool) (highbit : Nat) :
    Option (Node a) → List (Node a) → Except Failure (List (Node a) × Nat)
  | _, [] =>
    if value then do
      let new ← newNode a alloc bit
      -- this node is the highest one
      return ([new],u32 (new.startbit+a.size))
    else return ([],highbit)
  | prev, n::l =>
    if n.startbit ≤ bit then
      if a.ulong (n.startbit+a.size) > bit then
        if value then do
          let n ← n.setBit bit
          return (n::l,highbit)
        else do
          let n ← n.clrBit bit
          if n.findNextBit 0 < a.size then return (n::l,highbit)
          -- the node is dropped
          else return (l,if l.isEmpty then loweredHighbit prev else highbit)
      else do
        let r ← setBitNodes alloc bit value highbit (some n) l
        return (n::r.1,r.2)
    else if value then do
      let new ← newNode a alloc bit
      return (new::n::l,highbit)
    else return (n::l,highbit)

namespace Ebitmap

def init (a : Width) : Ebitmap a := ⟨[],0⟩

def cmp (e1 e2 : Ebitmap a) : Bool := if e1.highbit ≠ e2.highbit then false else cmpNodes e1.node e2.node

def contains (e1 e2 : Ebitmap a) : Bool :=
  if e1.highbit < e2.highbit then false else containsNodes e1.node e2.node

def getBit (e : Ebitmap a) (bit : Nat) : Except Failure Bool :=
  if e.highbit < bit then .ok false else getBitNodes bit e.node

def setBit (e : Ebitmap a) (alloc : Bool) (bit : Nat) (value : Bool) : Except Failure (Ebitmap a) := do
  let r ← setBitNodes alloc bit value e.highbit none e.node
  return ⟨r.1,r.2⟩

/-- `ebitmap_cpy`; `allocs` is the number of nodes that can be allocated. Where it fails the new bitmap is
destroyed. -/
def cpy (allocs : Nat) (src : Ebitmap a) : Ebitmap a :=
  if src.node.length ≤ allocs then ⟨src.node.map fun n => ⟨n.startbit,n.maps⟩,src.highbit⟩ else init a

end Ebitmap

/-- The loop of `ebitmap_start_positive`, with the node it ends at at the head of the list. -/
def startPositive (length : Nat) : List (Node a) → Nat × List (Node a)
  | [] => (length,[])
  | n::l =>
    let ofs := n.findNextBit 0
    if ofs < a.size then (n.startbit+ofs,n::l) else startPositive length l

def nextPositive (length : Nat) (n : Node a) (l : List (Node a)) (bit : Nat) : Nat × List (Node a) :=
  let ofs := n.findNextBit (bit-n.startbit+1)
  if ofs < a.size then (ofs+n.startbit,n::l) else startPositive length l

/-- The bits that `ebitmap_for_each_positive_bit` goes through from a position on; `none` is a missing
node, or a loop that has not ended. -/
def forEachPositiveBit (length : Nat) : Nat → Nat × List (Node a) → Option (List Nat)
  | 0, _ => none
  | fuel+1, (bit,nodes) =>
    if bit < length then
      match nodes with
      | [] => none
      | n::l => (forEachPositiveBit length fuel (nextPositive length n l bit)).map (bit :: ·)
    else some []

def Ebitmap.positiveBits (e : Ebitmap a) : Option (List Nat) :=
  forEachPositiveBit e.highbit (e.node.length*a.size+1) (startPositive e.highbit e.node)

end LinuxToradex.Selinux

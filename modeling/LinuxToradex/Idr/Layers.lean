import LinuxToradex.Foundation.Align
import LinuxToradex.Foundation.LevelTree

/-! `lib/idr.c` on 32-bit words. A pointer to a layer in the tree is the layer's name: its distance from the
leaves and the part of the ids it stands for. The pointers of the user are in `ary` of the leaves. All
layers of the free list are zeroed, so only their number is kept. -/
namespace LinuxToradex
open Function (update)

open LevelTree BitRow

structure Idr.Layer (α : Type) where
  bitmap : Nat → Bool
  ary : Nat → Option α
  count : Int
  layer : Nat

abbrev Idr.Name := Nat × Nat

/-- `struct idr`. The layer that `top` points to stands for the ids from 0 on. -/
structure Idr (α : Type) where
  top : Option Nat
  layers : Nat
  layer : Idr.Name → Option (Idr.Layer α)
  idFree : Nat

namespace Idr.Layer

variable {α : Type}

def fresh (l : Nat) : Layer α := ⟨fun _ => false,fun _ => none,0,l⟩

def full (p : Layer α) : Bool := (List.range 32).all p.bitmap

def setBit (p : Layer α) (n : Nat) : Layer α := {p with bitmap := update p.bitmap n true}

def clearBit (p : Layer α) (n : Nat) : Layer α := {p with bitmap := update p.bitmap n false}

end Idr.Layer

namespace Idr

def below (p : Name) (m : Nat) : Name := (p.1-1,32*p.2+m)

inductive Slot
  | found (id : Nat) (pa : Nat → Option Name)
  | needToGrow (id : Nat)
  | noMoreSpace
  | noMemory

variable {α : Type}

def init : Idr α := ⟨none,0,fun _ => none,0⟩

def put (s : Idr α) (x : Name) (p : Option (Layer α)) : Idr α :=
  {s with layer := update s.layer x p}

def getFromFreeList (s : Idr α) : Option (Idr α) :=
  if s.idFree = 0 then none else some {s with idFree := s.idFree - 1}

def preGet (s : Idr α) (memory : Nat) : Idr α × Bool :=
  ({s with idFree := max s.idFree (min 14 (s.idFree+memory))},decide (14 ≤ s.idFree+memory))

/-- The end of the loop of `sub_alloc`: the layer below slot `m` of `x`, made if it is missing. -/
def makeBelow (s : Idr α) (x : Name) (p : Layer α) (m l : Nat) : Option (Idr α) :=
  if (s.layer (below x m)).isSome then some s
  else s.getFromFreeList.map fun s =>
    (s.put (below x m) (some (Layer.fresh (l - 1)))).put x (some {p with count := p.count+1})

def search : Nat → Idr α → Nat → Nat → Name → (Nat → Option Name) → Option (Idr α × Slot)
  | 0, _, _, _, _, _ => none
  | fuel+1, s, id, l, x, pa =>
    (s.layer x).bind fun p =>
      let n := (id >>> (5*l)) &&& 31
      let m := firstClear p.bitmap (32-n) n
      if m = 32 then
        -- no space available go back to previous layer
        let next := ((id ||| (2^(5*(l+1))-1))+1)%2^32
        if next < 2^31 ∧ 2^(5*s.layers) ≤ next then some (s,.needToGrow next)
        else (pa (l+1)).bind fun y =>
          if id >>> (5*(l+2)) = next >>> (5*(l+2)) then search fuel s next (l+1) y pa
          else s.top.bind fun t =>
            search fuel s next (s.layers-1) (t,0) (update pa s.layers none)
      else
        let id := if m = n then id else ((id >>> (5*l)) ^^^ n ^^^ m) <<< (5*l)
        if 2^31 ≤ id then some (s,.noMoreSpace)
        else if l = 0 then some (s,.found id (update pa 0 (some x)))
        else match s.makeBelow x p m l with
          | none => some (s,.noMemory)
          | some s => search fuel s id (l-1) (below x m) (update pa l (some x))

def subAlloc (s : Idr α) (id : Nat) : Option (Idr α × Slot) :=
  s.top.bind fun t => search (2^40) s id (s.layers-1) (t,0) fun _ => none

/-- The layers above the top that were built go back to the free list, from number `l` down. -/
def tearDown (s : Idr α) : Nat → Idr α
  | 0 => s
  | l+1 =>
    if s.top = some (l+1) ∨ (s.layer (l+1,0)).isNone then s
    else tearDown {s.put (l+1,0) none with idFree := s.idFree+1} l

/-- The loop of `idr_get_empty_slot` that adds layers above the layer `(l, 0)`. -/
def buildUp : Nat → Idr α → Nat → Nat → Nat → Option (Idr α × Option (Nat × Nat))
  | 0, _, _, _, _ => none
  | fuel+1, s, id, l, layers =>
    if layers < 6 ∧ 2^(5*layers) ≤ id then
      (s.layer (l,0)).bind fun p =>
        if p.count = 0 then
          -- the empty top node moves upwards
          let moved := (s.put (l,0) none).put (l+1,0) (some {p with layer := p.layer+1})
          let top := if s.top = some l then some (l+1) else s.top
          buildUp fuel {moved with top := top} id (l+1) (layers+1)
        else match s.getFromFreeList with
          | none => some (s.tearDown l,none)
          | some s =>
            let new : Layer α := {Layer.fresh layers with
              count := 1, bitmap := update (fun _ => false) 0 p.full}
            buildUp fuel (s.put (layers,0) (some new)) id layers (layers+1)
    else some (s,some (l,layers))

def topLayer (s : Idr α) : Option (Idr α × Nat × Nat) :=
  match s.top with
  | some t => some (s,t,s.layers)
  | none => s.getFromFreeList.map fun s => (s.put (0,0) (some (Layer.fresh 0)),0,1)

def getEmptySlot : Nat → Idr α → Nat → Option (Idr α × Slot)
  | 0, _, _ => none
  | fuel+1, s, id =>
    match s.topLayer with
    | none => some (s,.noMemory)
    | some (s,l,layers) =>
      (buildUp 8 s id l layers).bind fun
        | (s,none) => some (s,.noMemory)
        | (s,some (l,layers)) =>
          (subAlloc {s with top := some l, layers := layers} id).bind fun
            | (s,.needToGrow id) => getEmptySlot fuel s id
            | r => some r

/-- The loop of `idr_mark_full` after a bit of layer `x`, the one numbered `l` on the path, was set. -/
def markAbove : Nat → Idr α → (Nat → Option Name) → Nat → Nat → Name → Option (Idr α)
  | 0, _, _, _, _, _ => none
  | fuel+1, s, pa, id, l, x =>
    (s.layer x).bind fun p =>
      if p.full then
        match pa (l+1) with
        | none => some s
        | some y => (s.layer y).bind fun q =>
          markAbove fuel (s.put y (some (q.setBit ((id >>> 5) &&& 31)))) pa (id >>> 5) (l+1) y
      else some s

def markFull (s : Idr α) (pa : Nat → Option Name) (id : Nat) : Option (Idr α) :=
  (pa 0).bind fun x => (s.layer x).bind fun p =>
    markAbove 8 (s.put x (some (p.setBit (id &&& 31)))) pa id 0 x

inductive Error
  | again
  | noSpace
  | noEntry
  | invalid
deriving DecidableEq

def getNewAbove (s : Idr α) (ptr : Option α) (start : Nat) : Option (Idr α × Except Error Nat) :=
  (getEmptySlot 8 s start).bind fun
    | (s,.found id pa) =>
      (pa 0).bind fun x => (s.layer x).bind fun p =>
        (markFull (s.put x (some {p with
          ary := update p.ary (id &&& 31) ptr, count := p.count+1})) pa id).map fun s =>
          (s,.ok id)
    | (s,.noMemory) => some (s,.error .again)
    | (s,_) => some (s,.error .noSpace)

/-- The way down of `sub_remove`, from the layer `x` of number `l`: it clears the bits of the layers on
the way to the leaf and collects the places of their pointers, the lowest first. -/
def clearDown (s : Idr α) (id : Nat) : Nat → Name → List Name → Idr α × Option Name × List Name
  | 0, x, paa => (s,if (s.layer x).isSome then some x else none,paa)
  | l+1, x, paa =>
    match s.layer x with
    | none => (s,none,paa)
    | some p =>
      let n := (id >>> (5*(l+1))) &&& 31
      clearDown (s.put x (some (p.clearBit n))) id l (below x n) (below x n::paa)

/-- The way up of `sub_remove`: every layer loses one, and is freed when that was its last. -/
def release (s : Idr α) : List Name → Option (Idr α)
  | [] => some {s with top := none, layers := 0}
  | x::paa => (s.layer x).bind fun p =>
    if p.count-1 = 0 then release (s.put x none) paa
    else some (s.put x (some {p with count := p.count - 1}))

def subRemove (s : Idr α) (id : Nat) : Option (Idr α) :=
  match s.top with
  | none => some s
  | some t =>
    match clearDown s id (s.layers - 1) (t,0) [(t,0)] with
    | (s,none,_) => some s
    | (s,some x,paa) => (s.layer x).bind fun p =>
      if p.bitmap (id &&& 31) then
        release (s.put x (some {p.clearBit (id &&& 31) with
          ary := update p.ary (id &&& 31) none})) paa
      else some s

/-- The part of `idr_remove` that drops a top layer with nothing but its leftmost child. -/
def shrink (s : Idr α) : Option (Idr α) :=
  match s.top with
  | none => some s
  | some t => (s.layer (t,0)).map fun p =>
    if p.count = 1 ∧ 1 < s.layers ∧ (s.layer (below (t,0) 0)).isSome then
      {s.put (t,0) none with top := some (t - 1), layers := s.layers - 1}
    else s

def remove (s : Idr α) (id : Nat) : Option (Idr α) :=
  ((s.subRemove (id &&& (2^31 - 1))).bind shrink).map fun s => {s with idFree := min s.idFree 13}

/-- The loop of `idr_find` at the layer `x`, with `n` levels below it; `none` is the `BUG_ON`. -/
def findFrom (s : Idr α) (id : Nat) : Nat → Name → Option (Option α)
  | n, x =>
    match s.layer x with
    | none => some none
    | some p =>
      if n ≠ p.layer then none
      else match n with
        | 0 => some (p.ary (id &&& 31))
        | n+1 => findFrom s id n (below x ((id >>> (5*(n+1))) &&& 31))

def find (s : Idr α) (id : Nat) : Option (Option α) :=
  match s.top with
  | none => some none
  | some t => (s.layer (t,0)).bind fun p =>
    if 2^(5*(p.layer+1)) ≤ id &&& (2^31-1) then some none
    else findFrom s (id &&& (2^31-1)) p.layer (t,0)

/-- The leaf that the loop of `idr_replace` reaches from the layer `x`, with `n` levels below it. -/
def leafFrom (s : Idr α) (id : Nat) : Nat → Name → Option Name
  | 0, x => if (s.layer x).isSome then some x else none
  | n+1, x =>
    if (s.layer x).isSome then leafFrom s id n (below x ((id >>> (5*(n+1))) &&& 31)) else none

def replace (s : Idr α) (ptr : Option α) (id : Nat) : Option (Idr α × Except Error (Option α)) :=
  match s.top with
  | none => some (s,.error .invalid)
  | some t => (s.layer (t,0)).bind fun p =>
    let id := id &&& (2^31-1)
    if 2^(5*(p.layer+1)) ≤ id then some (s,.error .invalid)
    else match leafFrom s id p.layer (t,0) with
      | none => some (s,.error .noEntry)
      | some x => (s.layer x).map fun p =>
        if p.bitmap (id &&& 31) then
          (s.put x (some {p with ary := update p.ary (id &&& 31) ptr}), .ok (p.ary (id &&& 31)))
        else (s,.error .noEntry)

end Idr

end LinuxToradex

import LinuxToradex.Foundation.Align
import LinuxToradex.Foundation.Forest

/-! `kernel/resource.c`, on words of 32 bits. A resource is named by a number; its memory is the caller's,
or for `__request_region` the allocator's. `none` is a loop without an end in the fuel, a null pointer that
is followed, or a `BUG_ON`. -/
namespace LinuxToradex.Resource
open Function (update)
open Forest

def word : Nat := 4294967296

abbrev Id := Nat

structure Node where
  parent : Option Id
  child : Option Id
  sibling : Option Id
  start : Nat
  stop : Nat
  flags : Nat

structure Heap where
  links : Links Id
  start : Id → Nat
  stop : Id → Nat
  flags : Id → Nat

def busy : Nat := 0x80000000

def muxed : Nat := 0x00400000

def ebusy : Int := -16

def einval : Int := -22

namespace Heap

def setRange (h : Heap) (x : Id) (start stop : Nat) : Heap :=
  {h with start := update h.start x start, stop := update h.stop x stop}

def write (h : Heap) (x : Id) (node : Node) : Heap where
  links :=
    { parent := update h.links.parent x node.parent
      child := update h.links.child x node.child
      sibling := update h.links.sibling x node.sibling }
  start := update h.start x node.start
  stop := update h.stop x node.stop
  flags := update h.flags x node.flags

/-- The loop of `__request_resource`. The first component is the resource in the way, if any. -/
def requestLoop (h : Heap) (root new : Id) : Nat → Place Id → Option (Option Id × Heap)
  | 0, _ => none
  | fuel+1, p =>
    match h.links.get p with
    | none => some (none,{h with links := h.links.link p new none root})
    | some tmp =>
      if h.stop new < h.start tmp then
        some (none,{h with links := h.links.link p new (some tmp) root})
      else if h.stop tmp < h.start new then requestLoop h root new fuel (.sibling tmp)
      else some (some tmp,h)

def requestResource (fuel : Nat) (h : Heap) (root new : Id) : Option (Option Id × Heap) :=
  if h.stop new < h.start new then some (some root,h)
  else if h.start new < h.start root then some (some root,h)
  else if h.stop root < h.stop new then some (some root,h)
  else requestLoop h root new fuel (.child root)

def releaseLoop (h : Heap) (old : Id) : Nat → Place Id → Option (Int × Heap)
  | 0, _ => none
  | fuel+1, p =>
    match h.links.get p with
    | none => some (einval,h)
    | some tmp =>
      if tmp = old then
        let links := h.links.put p (h.links.sibling tmp)
        some (0,{h with links := {links with parent := update links.parent old none}})
      else releaseLoop h old fuel (.sibling tmp)

def releaseResource (fuel : Nat) (h : Heap) (old : Id) : Option (Int × Heap) :=
  match h.links.parent old with
  | none => none
  | some parent => releaseLoop h old fuel (.child parent)

/-- The second loop of `__insert_resource`, along the siblings from one on: the one that overlaps
only in part, or the last one in the new resource. -/
def runLoop (h : Heap) (new : Id) : Nat → Id → Option (Id ⊕ Id)
  | 0, _ => none
  | fuel+1, next =>
    if h.start next < h.start new ∨ h.stop new < h.stop next then some (.inl next)
    else
      match h.links.sibling next with
      | none => some (.inr next)
      | some s => if h.stop new < h.start s then some (.inr next) else runLoop h new fuel s

def adoptLoop (new : Id) : Nat → Links Id → Option Id → Option (Links Id)
  | 0, _, _ => none
  | _+1, t, none => some t
  | fuel+1, t, some next =>
    adoptLoop new fuel {t with parent := update t.parent next (some new)} (t.sibling next)

def prevLoop (t : Links Id) (first : Id) : Nat → Id → Option Id
  | 0, _ => none
  | fuel+1, next =>
    match t.sibling next with
    | none => none
    | some s => if s = first then some next else prevLoop t first fuel s

/-- `__insert_resource`, when `new` has to go over `first` and the siblings behind it. -/
def insertOver (fuel : Nat) (h : Heap) (parent first new : Id) : Option (Option Id × Heap) :=
  match runLoop h new fuel first with
  | none => none
  | some (.inl next) => some (some next,h)
  | some (.inr last) =>
    let t := {h.links with
      parent := update h.links.parent new (some parent)
      sibling := update h.links.sibling new (h.links.sibling last)
      child := update h.links.child new (some first)}
    match adoptLoop new fuel {t with sibling := update t.sibling last none} (some first) with
    | none => none
    | some t =>
      match t.child parent with
      | none => none
      | some c =>
        if c = first then some (none,{h with links := t.put (.child parent) (some new)})
        else
          match prevLoop t first fuel c with
          | none => none
          | some prev => some (none,{h with links := t.put (.sibling prev) (some new)})

def insertLoop (steps : Nat) (h : Heap) (new : Id) : Nat → Id → Option (Option Id × Heap)
  | 0, _ => none
  | fuel+1, parent =>
    match h.requestResource steps parent new with
    | none => none
    | some (none,granted) => some (none,granted)
    | some (some first,_) =>
      if first = parent ∨ first = new then some (some first,h)
      else if h.start new < h.start first ∨ h.stop first < h.stop new ∨
          (h.start first = h.start new ∧ h.stop first = h.stop new) then
        h.insertOver steps parent first new
      else insertLoop steps h new fuel first

def insertResource (fuel : Nat) (h : Heap) (parent new : Id) : Option (Option Id × Heap) :=
  insertLoop fuel h new fuel parent

def expandLoop (steps : Nat) (root new : Id) : Nat → Heap → Option Heap
  | 0, _ => none
  | fuel+1, h =>
    match h.insertResource steps root new with
    | none => none
    | some (none,inserted) => some inserted
    | some (some conflict,h) =>
      if conflict = root then some h
      else
        expandLoop steps root new fuel
          (h.setRange new (min (h.start conflict) (h.start new)) (max (h.stop conflict) (h.stop new)))

def insertResourceExpandToFit (fuel : Nat) (h : Heap) (root new : Id) : Option Heap :=
  if h.links.parent new = none then expandLoop fuel root new fuel h else some h

/-- `struct resource_constraint`, with the default `alignf`. -/
structure Constraint where
  min : Nat
  max : Nat
  align : Nat

/-- The part of a gap that fits the constraint, or what comes after the gap. `low` and `high` are
`tmp.start` and `tmp.end`; clipping changes `tmp.start` for what comes after too. -/
def tryGap (size : Nat) (c : Constraint) (low high : Nat) (next : Nat → Option (Option (Nat × Nat))) :
    Option (Option (Nat × Nat)) :=
  if high < low then next low
  else
    let low := max low c.min
    let high := min high c.max
    let start := Align.up low c.align
    let stop := (start+size+word-1)%word
    if low ≤ start ∧ stop ≤ high then some (some (start,stop)) else next low

/-- The loop of `__find_resource`: the range found, or `none` for `-EBUSY`. -/
def findLoop (h : Heap) (root : Id) (old : Option Id) (size : Nat) (c : Constraint) :
    Nat → Nat → Option Id → Option (Option (Nat × Nat))
  | 0, _, _ => none
  | _+1, low, none => tryGap size c low (h.stop root) fun _ => some none
  | fuel+1, low, some this =>
    tryGap size c low (if some this = old then h.stop this else (h.start this+word-1)%word)
      fun low =>
        if h.stop this = h.stop root then some none
        else
          findLoop h root old size c fuel (if some this = old then low else (h.stop this+1)%word)
            (h.links.sibling this)

def findResource (fuel : Nat) (h : Heap) (root : Id) (old : Option Id) (size : Nat) (c : Constraint) :
    Option (Option (Nat × Nat)) :=
  match h.links.child root with
  | none => findLoop h root old size c fuel (h.start root) none
  | some x =>
    if h.start x = h.start root then
      findLoop h root old size c fuel (if some x = old then h.start x else (h.stop x+1)%word)
        (h.links.sibling x)
    else findLoop h root old size c fuel (h.start root) (some x)

def reallocateResource (fuel : Nat) (h : Heap) (root old : Id) (newsize : Nat) (c : Constraint) :
    Option (Int × Heap) :=
  match h.findResource fuel root (some old) newsize c with
  | none => none
  | some none => some (ebusy,h)
  | some (some (start,stop)) =>
    if start ≤ h.start old ∧ h.stop old ≤ stop then some (0,h.setRange old start stop)
    else if h.links.child old ≠ none then some (ebusy,h)
    else if h.start old ≤ start ∧ stop ≤ h.stop old then some (0,h.setRange old start stop)
    else
      match h.releaseResource fuel old with
      | none => none
      | some (_,released) =>
        -- the whole of `new`, a copy of `old` from before, is copied back
        let copied := released.write old ⟨h.links.parent old,h.links.child old,h.links.sibling old,
          start,stop,h.flags old⟩
        match copied.requestResource fuel root old with
        | some (none,granted) => some (0,granted)
        | _ => none

def allocateResource (fuel : Nat) (h : Heap) (root new : Id) (size : Nat) (c : Constraint) :
    Option (Int × Heap) :=
  if h.links.parent new ≠ none then h.reallocateResource fuel root new size c
  else
    match h.findResource fuel root none size c with
    | none => none
    | some none => some (ebusy,h)
    | some (some (start,stop)) =>
      match (h.setRange new start stop).requestResource fuel root new with
      | none => none
      | some (none,granted) => some (0,granted)
      | some (some _,h) => some (ebusy,h)

def insideLoop (h : Heap) (start stop : Nat) : Nat → Option Id → Option Bool
  | 0, _ => none
  | _+1, none => some true
  | fuel+1, some tmp =>
    if h.start tmp < start ∨ stop < h.stop tmp then some false
    else insideLoop h start stop fuel (h.links.sibling tmp)

def adjustResource (fuel : Nat) (h : Heap) (res : Id) (start size : Nat) : Option (Int × Heap) :=
  match h.links.parent res with
  | none => none
  | some parent =>
    let stop := (start+size+word-1)%word
    if start < h.start parent ∨ h.stop parent < stop then some (ebusy,h)
    else
      match h.insideLoop start stop fuel (h.links.child res) with
      | none => none
      | some false => some (ebusy,h)
      | some true =>
        if (h.links.sibling res).any fun s => decide (h.start s ≤ stop) then some (ebusy,h)
        else
          match h.links.child parent with
          | none => none
          | some c =>
            if c = res then some (0,h.setRange res start stop)
            else
              match prevLoop h.links res fuel c with
              | none => none
              | some prev =>
                if start ≤ h.stop prev then some (ebusy,h)
                else some (0,h.setRange res start stop)

/-- What `__request_region` comes to. A caller that sleeps keeps the resource it met. -/
inductive Region
  | granted
  | refused
  | sleeps (conflict : Id)
deriving DecidableEq

def regionLoop (steps : Nat) (h : Heap) (res flags : Nat) : Nat → Id → Option (Region × Heap)
  | 0, _ => none
  | fuel+1, parent =>
    match h.requestResource steps parent res with
    | none => none
    | some (none,granted) => some (.granted,granted)
    | some (some conflict,_) =>
      if conflict ≠ parent ∧ h.flags conflict &&& busy = 0 then regionLoop steps h res flags fuel conflict
      else if h.flags conflict &&& flags &&& muxed ≠ 0 then some (.sleeps conflict,h)
      else some (.refused,h)

def requestRegion (fuel : Nat) (h : Heap) (parent : Id) (start n flags : Nat) (res : Option Id) :
    Option (Region × Heap) :=
  match res with
  | none => some (.refused,h)
  | some res =>
    let node : Node := ⟨none,none,none,start,(start+n+word-1)%word,busy ||| flags⟩
    regionLoop fuel (h.write res node) res flags fuel parent

def releaseRegionLoop (h : Heap) (start stop : Nat) : Nat → Place Id → Option Heap
  | 0, _ => none
  | fuel+1, p =>
    match h.links.get p with
    | none => some h
    | some res =>
      if h.start res ≤ start ∧ stop ≤ h.stop res then
        if h.flags res &&& busy = 0 then releaseRegionLoop h start stop fuel (.child res)
        else if h.start res ≠ start ∨ h.stop res ≠ stop then some h
        else some {h with links := h.links.put p (h.links.sibling res)}
      else releaseRegionLoop h start stop fuel (.sibling res)

def releaseRegion (fuel : Nat) (h : Heap) (parent : Id) (start n : Nat) : Option Heap :=
  releaseRegionLoop h start ((start+n+word-1)%word) fuel (.child parent)

end Heap

end LinuxToradex.Resource

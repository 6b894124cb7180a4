import Mathlib

/-! `lc_create` of `lib/lru_cache.c`: a cache whose elements are allocated one by one, and given back when an
allocation fails. A call that touches the array of elements outside its bounds, or frees a null pointer, is `none`. -/
namespace LinuxToradex.LruCache
open Function List

inductive Block
  | slot
  | element
  | lc
  deriving DecidableEq

/-- What the allocators return during a call: a block of each kind, and the objects for the elements. -/
structure Allocs where
  block : Block → Bool
  object : Nat → Option Nat

/-- Whether a cache is returned, the arguments of `kmem_cache_free`, and what `kfree` gets. -/
structure Outcome where
  created : Bool
  objects : List Nat
  blocks : List Block
  deriving DecidableEq

structure Request where
  cacheObjSize : Nat
  eCount : Nat
  eSize : Nat
  eOff : Nat

def lcMaxActive : Nat := 2^24

def preallocate (a : Allocs) (r : Request) (element : Nat → Option Nat) (i : Nat) : Nat × (Nat → Option Nat) :=
  if i < r.eCount then
    match a.object i with
    | none => (i,element)
    | some p => preallocate a r (update element i (some (p+r.eOff))) (i+1)
  else (i,element)
termination_by r.eCount-i

def giveUp (r : Request) (element : Nat → Option Nat) : Nat → Option (List Nat)
  | 0 => some []
  | i+1 =>
    if i+1 < r.eCount then (element (i+1)).bind fun e => (giveUp r element i).map ((e-r.eOff)::·) else none

def lcCreate (a : Allocs) (r : Request) : Option Outcome :=
  if r.cacheObjSize < r.eSize then some ⟨false,[],[]⟩
  else if r.eCount > lcMaxActive then some ⟨false,[],[]⟩
  else if a.block .slot = false then some ⟨false,[],[]⟩
  else if a.block .element = false then some ⟨false,[],[.slot]⟩
  else if a.block .lc = false then some ⟨false,[],[.element,.slot]⟩
  else
    let (i,element) := preallocate a r (fun _ => none) 0
    if i = r.eCount then some ⟨true,[],[]⟩
    else (giveUp r element ((i+2^32-1)%2^32)).map fun objects => ⟨false,objects,[.lc,.element,.slot]⟩

/-- When the allocation of an element is the first to fail, all that was allocated is given back, once. -/
def GivesBack (a : Allocs) (r : Request) : Prop :=
  ∀ k < r.eCount, a.object k = none → (∀ i < k, a.object i ≠ none) →
    ∃ out, lcCreate a r = some out ∧ out.created = false ∧ out.objects.map some ~ (range k).map a.object ∧
      out.blocks ~ [.lc,.element,.slot]

variable {a : Allocs} {r : Request} {element : Nat → Option Nat} {i k : Nat}

lemma preallocate_stops (hk : k < r.eCount) (hfail : a.object k = none) (hfirst : ∀ i < k, a.object i ≠ none)
    (hi : i ≤ k) (element : Nat → Option Nat) : (preallocate a r element i).1 = k := by
  induction hn : k-i generalizing i element with
  | zero =>
    obtain rfl : i = k := by omega
    rw [preallocate,if_pos hk,hfail]
  | succ n ih =>
    obtain ⟨p,hp⟩ := Option.ne_none_iff_exists'.mp (hfirst i (by omega))
    rw [preallocate,if_pos (by omega),hp]
    exact ih (by omega) _ (by omega)

lemma giveUp_length {l : List Nat} (h : giveUp r element i = some l) : l.length = i := by
  induction i generalizing l with
  | zero => rw [← Option.some.inj h,length_nil]
  | succ i ih =>
    rw [giveUp] at h
    split_ifs at h
    obtain ⟨e,-,h⟩ := Option.bind_eq_some_iff.mp h
    obtain ⟨l',hl,rfl⟩ := Option.map_eq_some_iff.mp h
    rw [length_cons,ih hl]

/-- The roll-back never frees the right number of objects: it leaves out the first one, and when there is none it
starts at the largest index there is. -/
theorem givesBack_iff (a : Allocs) (r : Request) (hsize : r.eSize ≤ r.cacheObjSize) (hcount : r.eCount ≤ lcMaxActive)
    (hblock : ∀ b, a.block b = true) : GivesBack a r ↔ ∀ k < r.eCount, a.object k ≠ none := by
  refine ⟨fun h k => ?_,fun h k hk hfail => absurd hfail (h k hk)⟩
  induction k using Nat.strongRec with
  | ind k ih =>
    intro hk hfail
    have hfirst : ∀ i < k, a.object i ≠ none := fun i hi => ih i hi (hi.trans hk)
    obtain ⟨out,hout,-,hobjects,-⟩ := h k hk hfail hfirst
    have hstop := preallocate_stops hk hfail hfirst (Nat.zero_le k) fun _ => none
    rw [lcCreate,if_neg hsize.not_gt,if_neg hcount.not_gt] at hout
    simp only [hblock,hstop,hk.ne,if_false,Bool.true_eq_false] at hout
    obtain ⟨objects,hgive,rfl⟩ := Option.map_eq_some_iff.mp hout
    have hlen := hobjects.length_eq
    rw [length_map,length_map,length_range,giveUp_length hgive] at hlen
    unfold lcMaxActive at hcount
    omega

theorem givesBack_iff_two : GivesBack ⟨fun _ => true,fun i => some (64*i)⟩ ⟨64,2,64,0⟩ :=
  (givesBack_iff _ _ le_rfl (by decide) fun _ => rfl).mpr (by simp)

def firstOnly : Allocs := ⟨fun _ => true,fun i => if i = 0 then some 4096 else none⟩

/-- When the second of two elements cannot be allocated the first one is lost, and when the first one cannot the
array is read far behind its end. -/
theorem first_element_lost : lcCreate firstOnly ⟨64,2,64,0⟩ = some ⟨false,[],[.lc,.element,.slot]⟩ ∧
    ¬GivesBack firstOnly ⟨64,2,64,0⟩ ∧ lcCreate ⟨fun _ => true,fun _ => none⟩ ⟨64,1,64,0⟩ = none := by
  have hrun : lcCreate firstOnly ⟨64,2,64,0⟩ = some ⟨false,[],[.lc,.element,.slot]⟩ := by
    simp [lcCreate,lcMaxActive,preallocate,giveUp,firstOnly]
  refine ⟨hrun,fun h => ?_,by simp [lcCreate,lcMaxActive,preallocate,giveUp]⟩
  obtain ⟨out,hout,-,hobjects,-⟩ := h 1 (by decide) rfl (by simp [firstOnly])
  rw [hrun] at hout
  rw [← Option.some.inj hout] at hobjects
  exact absurd hobjects.length_eq (by decide)

end LinuxToradex.LruCache

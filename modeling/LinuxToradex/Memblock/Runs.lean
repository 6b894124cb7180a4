import LinuxToradex.Memblock.Regions

/-! Runs of adding and removing ranges, and the search in the arrays they leave. An empty range that is added
away from every region becomes a region of size zero, and a range that is removed just below a region takes the
region along; runs without such calls keep the arrays sorted, disjoint and apart, with the addresses they should
have. -/
namespace LinuxToradex.Memblock
open List Ranges Nat Option

namespace Blocks

variable (mb : Blocks) (kind : Kind) (t : RegionType)
variable {l l' lo hi : List Region} {a base : Nat}

@[simp] lemma get_set : (mb.set kind t).get kind = t := by
  cases kind <;> rfl

lemma get_set_ne {kind' : Kind} (h : kind' ≠ kind) : (mb.set kind t).get kind' = mb.get kind' := by
  cases kind <;> cases kind' <;> first | rfl | exact absurd rfl h

@[simp] lemma set_set (t' : RegionType) : (mb.set kind t).set kind t' = mb.set kind t' := by
  cases kind <;> rfl

@[simp] lemma set_get : mb.set kind ⟨(mb.get kind).regions,(mb.get kind).max,(mb.get kind).array⟩ = mb := by
  cases kind <;> rfl

lemma write_eq (regions : List Region) :
    mb.write kind regions = mb.set kind ⟨regions,(mb.get kind).max,(mb.get kind).array⟩ := rfl

end Blocks

/-- The regions of an array: only the filler, or regions that are sorted, disjoint, not adjacent and
not empty. -/
def Regular (l : List Region) : Prop := l = [filler] ∨ (l ≠ [] ∧ Bounded l ∧ Sorted l)

structure RegionType.WellFormed (t : RegionType) : Prop where
  regular : Regular t.regions
  room : t.regions.length < t.max

lemma not_denotes_filler (a : Nat) : ¬Denotes [filler] a := by
  rintro ⟨rgn,hrgn,hin⟩
  rw [mem_singleton] at hrgn
  subst hrgn
  simp only [filler] at hin
  omega

lemma denotes_append : Denotes (l++l') a ↔ Denotes l a ∨ Denotes l' a := by
  simp only [Denotes,mem_append,or_and_right,exists_or]

lemma denotes_cons {rgn : Region} : Denotes (rgn::l) a ↔ (rgn.base ≤ a ∧ a < rgn.base+rgn.size) ∨ Denotes l a := by
  simp only [Denotes,mem_cons,exists_eq_or_imp]

lemma denotes_refill : Denotes (refill l) a ↔ Denotes l a := by
  unfold refill
  split
  · subst l
    simp [Denotes,filler]
  · rfl

lemma denotes_of_overwrites {stop : Nat} {v : Bool} {new : Option Bool}
    (hcan : Canonical (spans l)) (h : Overwrites (spans l) (range base stop v) new (spans l'))
    (a : Nat) : Denotes l' a ↔ if base ≤ a ∧ a < stop then new = some true else Denotes l a := by
  rw [← valueAt_spans h.canonical,h.value,overwrite]
  have hiff : (range base stop v).start ≤ (a : Int) ∧ (a : Int) ≤ (range base stop v).stop ↔ base ≤ a ∧ a < stop := by
    simp only [range]
    omega
  by_cases hin : base ≤ a ∧ a < stop
  · rw [if_pos (hiff.mpr hin),if_pos hin]
  · rw [if_neg (mt hiff.mp hin),if_neg hin,valueAt_spans hcan]

lemma slot_eq {regions : List Region} {k n : Nat} (hkn : k ≤ n)
    (habove : ∀ i, k ≤ i → i < n → base < (regions.getD i filler).base)
    (hbelow : ∀ i, i+1 = k → (regions.getD i filler).base ≤ base) : slot regions base n = k := by
  induction n with
  | zero => exact (le_zero.mp hkn).symm
  | succ n ih =>
    rw [slot]
    by_cases hk : k = n+1
    · rw [if_neg (not_lt.mpr (hbelow n hk.symm)),hk]
    rw [if_pos (habove n (by omega) (by omega))]
    exact ih (by omega) fun i hki hin => habove i hki (by omega)

lemma insertIdx_append (lo hi : List Region) (block : Region) :
    (lo++hi).insertIdx lo.length block = lo++block::hi := by
  induction lo with
  | nil => simp
  | cons first rest ih => simp [ih]

lemma insertRegion_eq {block : Region} (h : Sorted (lo++block::hi)) (hne : lo++hi ≠ []) :
    insertRegion (lo++hi) block = (lo++block::hi,lo.length) := by
  obtain ⟨hlo,hmid,hcross⟩ := pairwise_append.mp h
  have hslot : slot (lo++hi) block.base (lo++hi).length = lo.length := by
    apply slot_eq
    · simp
    · intro i hki hin
      have hlt : i-lo.length < hi.length := by
        rw [length_append] at hin
        omega
      rw [getD_eq_getElem?_getD,getElem?_append_right hki,getElem?_eq_getElem hlt]
      have := rel_of_pairwise_cons hmid (getElem_mem hlt)
      simp only [getD_some]
      omega
    intro i hik
    have hlt : i < lo.length := by omega
    rw [getD_eq_getElem?_getD,getElem?_append_left hlt,getElem?_eq_getElem hlt]
    have := hcross _ (getElem_mem hlt) block mem_cons_self
    simp only [getD_some]
    omega
  unfold insertRegion
  rw [hslot]
  rcases lo with _ | ⟨first,rest⟩
  · rcases hi with _ | ⟨first,rest⟩
    · exact absurd rfl hne
    have hlt : block.base+block.size < first.base :=
      rel_of_pairwise_cons hmid mem_cons_self
    have hlt' : block.base < first.base := by omega
    simp [hlt']
  have hlt := hcross first mem_cons_self block mem_cons_self
  have hnot : ¬block.base < first.base := by omega
  simp [hnot,insertIdx_append]

lemma removeRegion_eq {block : Region} (hne : lo++hi ≠ []) :
    removeRegion (lo++block::hi) lo.length = lo++hi := by
  have herase : (lo++block::hi).eraseIdx lo.length = lo++hi := by
    simp [eraseIdx_append_of_length_le]
  rw [removeRegion,herase,refill,if_neg hne]

/-- The array does not fill up while a new one would come out of the map itself. -/
def Env.Fits (env : Env) (t : RegionType) : Prop :=
  env.slab = true ∨ env.canResize = false ∨ t.regions.length+1 < t.max

def RegionType.Adds (t : RegionType) (base stop : Nat) (after : RegionType) : Prop :=
  ∀ a, Denotes after.regions a ↔ Denotes t.regions a ∨ (base ≤ a ∧ a < stop)

def RegionType.Removes (t : RegionType) (base stop : Nat) (after : RegionType) : Prop :=
  ∀ a, Denotes after.regions a ↔ Denotes t.regions a ∧ ¬(base ≤ a ∧ a < stop)

/-- A call has returned zero and left another array of the kind, or -1 and left everything. -/
def Returns (mb : Blocks) (kind : Kind) (effect : RegionType → Prop) (result : Option (Int × Blocks)) :
    Prop :=
  (∃ t, t.WellFormed ∧ effect t ∧ result = some (0,mb.set kind t)) ∨ result = some (-1,mb)

namespace Blocks

variable {mb : Blocks} {kind : Kind} {env : Env}
variable {base size : Nat} {before after : List Region} {rgn : Region}

lemma doubleArray_spec (mb : Blocks) (kind : Kind) (fuel : Nat) (henv : env.slab = true ∨ env.canResize = false) :
    mb.doubleArray env (fuel+1) kind = some (-1,mb) ∨ ∃ addr, mb.doubleArray env (fuel+1) kind =
        some (0,mb.set kind ⟨(mb.get kind).regions,(mb.get kind).max*2,some addr⟩) := by
  unfold doubleArray
  by_cases hresize : env.canResize = false
  · rw [if_pos hresize]
    exact .inl rfl
  have hslab : env.slab = true := henv.resolve_right hresize
  rw [if_neg hresize,if_pos hslab]
  by_cases haddr : env.kmalloc = 0
  · rw [if_pos haddr]
    exact .inl rfl
  rw [if_neg haddr,if_pos hslab]
  exact .inr ⟨env.kmalloc,rfl⟩

/-- A block that has still to be added is put in its place, or everything stays as it was. -/
theorem addRegion_pending (fuel : Nat) {regions : List Region} {block : Region}
    (hne : (mb.get kind).regions ≠ []) (hb : Bounded (mb.get kind).regions)
    (hs : Sorted (mb.get kind).regions) (hroom : (mb.get kind).regions.length < (mb.get kind).max)
    (hlt : base+size < word) (henv : env.Fits (mb.get kind))
    (hloop : addLoop ((base+size)%word) (mb.get kind).regions base size = (regions,some block))
    (h : Pending (mb.get kind).regions (range base (base+size) true) regions block) :
    Returns mb kind ((mb.get kind).Adds base (base+size)) (mb.addRegion env (fuel+2) kind base size) := by
  obtain ⟨lo,hi,rfl,hover⟩ := h.place
  have hcan := canonical_spans hb hs
  have hsorted := sorted_of_canonical hover.canonical
  have hbounded : Bounded (lo++block::hi) :=
    bounded_of_overwrites hb (by simp only [range]; unfold word at *; omega) hover
  have hadds : ∀ a, Denotes (lo++block::hi) a ↔ Denotes (mb.get kind).regions a ∨ (base ≤ a ∧ a < base+size) := by
    intro a
    rw [denotes_of_overwrites hcan hover a]
    by_cases hin : base ≤ a ∧ a < base+size <;> simp [hin]
  have hlen : (lo++hi).length ≤ (mb.get kind).regions.length := by
    rcases h.shrinks with heq | hlt
    · rw [heq]
    · exact hlt.le
  unfold addRegion
  dsimp only
  rw [hloop]
  dsimp only
  by_cases hempty : lo++hi = []
  · -- every region has been coalesced with the block
    have hlo : lo = [] := (append_eq_nil_iff.mp hempty).1
    have hhi : hi = [] := (append_eq_nil_iff.mp hempty).2
    subst hlo hhi
    left
    refine ⟨⟨[block],(mb.get kind).max,(mb.get kind).array⟩,⟨?_,?_⟩,hadds,?_⟩
    · exact .inr ⟨cons_ne_nil _ _,hbounded,hsorted⟩
    · have := length_pos_iff.mpr hne
      simp only [length_singleton]
      omega
    · simp [refill,filler,write_eq]
  have hrefill : refill (lo++hi) = lo++hi := if_neg hempty
  have hfirst : ¬((lo++hi).length = 1 ∧ ((lo++hi).headD filler).size = 0) := by
    rintro ⟨hone,hzero⟩
    obtain ⟨x,hx⟩ := length_eq_one_iff.mp hone
    have hsub : (lo++hi).Sublist (lo++block::hi) := .append_left (sublist_cons_self block hi) lo
    have hmem := hsub.subset (hx ▸ mem_singleton_self x)
    rw [hx] at hzero
    have := (hbounded x hmem).1
    simp only [headD_cons] at hzero
    omega
  rw [hrefill,if_neg hfirst,if_neg (by omega),insertRegion_eq hsorted hempty]
  have hins : (lo++block::hi).length = (lo++hi).length+1 := by
    simp only [length_append,length_cons]
    omega
  have hregular : Regular (lo++block::hi) := .inr ⟨by simp,hbounded,hsorted⟩
  by_cases hfull : (lo++block::hi).length = (mb.get kind).max
  · rw [if_pos hfull]
    have henv' : env.slab = true ∨ env.canResize = false := by
      rcases henv with h | h | h
      · exact .inl h
      · exact .inr h
      · omega
    rcases doubleArray_spec (mb.write kind (lo++block::hi)) kind fuel henv' with
      hfail | ⟨addr,hok⟩
    · -- no region has been coalesced: what is left is the array as it was
      rw [hfail]
      have hsame : lo++hi = (mb.get kind).regions := h.shrinks.resolve_right (by omega)
      right
      simp only [write_eq,get_set,removeRegion_eq hempty,set_set,hsame,set_get]
    rw [hok]
    left
    refine ⟨⟨lo++block::hi,(mb.get kind).max*2,some addr⟩,⟨hregular,?_⟩,hadds,?_⟩
    · simp only
      omega
    · simp only [write_eq,get_set,set_set]
  rw [if_neg hfull]
  left
  exact ⟨⟨lo++block::hi,(mb.get kind).max,(mb.get kind).array⟩,⟨hregular,by simp only; omega⟩,hadds,rfl⟩

/-- `memblock_add_region`. -/
theorem addRegion_spec (mb : Blocks) (kind : Kind) (env : Env) (fuel base size : Nat) (hwf : (mb.get kind).WellFormed)
    (hpos : 0 < size) (hlt : base+size < word) (henv : env.Fits (mb.get kind)) :
    Returns mb kind ((mb.get kind).Adds base (base+size)) (mb.addRegion env (fuel+2) kind base size) := by
  have hstop : (base+size)%word = base+size := mod_eq_of_lt hlt
  rcases hwf.regular with hfiller | ⟨hne,hb,hs⟩
  · -- the filler is replaced
    left
    refine ⟨⟨[⟨base,size⟩],(mb.get kind).max,(mb.get kind).array⟩,⟨?_,?_⟩,?_,?_⟩
    · refine .inr ⟨cons_ne_nil _ _,?_,pairwise_singleton _ _⟩
      intro rgn hrgn
      rw [mem_singleton] at hrgn
      subst hrgn
      exact ⟨hpos,hlt⟩
    · have hroom := hwf.room
      rw [hfiller] at hroom
      exact hroom
    · intro a
      rw [hfiller]
      have hnone := not_denotes_filler a
      simp only [denotes_cons,hnone,false_or]
      simp [Denotes]
    unfold addRegion
    dsimp only
    rw [hfiller]
    simp [addLoop,filler,refill,write_eq]
  have hspec := addLoop_spec base size hpos rfl hlt hb hs
  rw [← hstop] at hspec
  cases hloop : addLoop ((base+size)%word) (mb.get kind).regions base size with
  | mk regions block =>
    rw [hloop,hstop] at hspec
    cases block with
    | some block =>
      exact addRegion_pending fuel hne hb hs hwf.room hlt henv hloop hspec
    | none =>
      obtain ⟨hover,hlen⟩ := hspec
      left
      refine ⟨⟨regions,(mb.get kind).max,(mb.get kind).array⟩,⟨?_,?_⟩,?_,?_⟩
      · refine .inr ⟨?_,?_,sorted_of_canonical hover.canonical⟩
        · rintro rfl
          have := (denotes_of_overwrites (canonical_spans hb hs) hover base).mpr (by rw [if_pos (by omega)])
          simp [Denotes] at this
        · exact bounded_of_overwrites hb (by simp only [range]; unfold word at *; omega) hover
      · exact hlen.trans_lt hwf.room
      · intro a
        rw [denotes_of_overwrites (canonical_spans hb hs) hover a]
        by_cases hin : base ≤ a ∧ a < base+size <;> simp [hin]
      unfold addRegion
      dsimp only
      rw [hloop]
      rfl

lemma removes_of_split {stop : Nat} {t cut result : RegionType}
    (hsorted : Sorted (before++rgn::after)) (hle : base ≤ stop) (hlow : rgn.base < base)
    (hhigh : stop < rgn.base+rgn.size) (ht : t.regions = before++rgn::after)
    (hcut : cut.regions = before++⟨rgn.base,base-rgn.base⟩::after)
    (h : cut.Adds stop (stop+(rgn.base+rgn.size-stop)) result) : t.Removes base stop result := by
  intro a
  obtain ⟨-,hmid,hcross⟩ := pairwise_append.mp hsorted
  have hbelow : Denotes before a → a < rgn.base := by
    rintro ⟨x,hx,hin⟩
    have := hcross x hx rgn mem_cons_self
    omega
  have habove : Denotes after a → rgn.base+rgn.size ≤ a := by
    rintro ⟨x,hx,hin⟩
    have := rel_of_pairwise_cons hmid hx
    omega
  rw [h a,hcut,ht]
  simp only [denotes_append,denotes_cons]
  by_cases h1 : Denotes before a
  · have := hbelow h1
    simp only [h1,true_or,true_and,true_iff]
    omega
  by_cases h2 : Denotes after a
  · have := habove h2
    simp only [h2,or_true,true_or,true_and,true_iff]
    omega
  simp only [h1,h2,or_false,false_or]
  omega

lemma modify_append (before after : List Region) (rgn : Region) (f : Region → Region) :
    (before++rgn::after).modify before.length f = before++f rgn::after := by
  induction before with
  | nil => rfl
  | cons x before ih => simp [ih]

lemma removeLoop_length (base stop : Nat) (l : List Region) :
    match removeLoop base stop l with
    | .done l' => l'.length ≤ l.length
    | .split _ _ _ => True := by
  induction l with
  | nil => exact le_rfl
  | cons rgn rest ih =>
    rw [removeLoop]
    cases hrest : removeLoop base stop rest with
    | done l' =>
      rw [hrest] at ih
      split_ifs <;> simp [Cut.cons] <;> omega
    | split before x after =>
      split_ifs <;> simp [Cut.cons]

lemma bounded_shorten (h : Bounded (before++rgn::after)) (hpos : 0 < size)
    (hle : size ≤ rgn.size) : Bounded (before++⟨rgn.base,size⟩::after) := by
  intro x hx
  rcases mem_append.mp hx with hx | hx
  · exact h x (mem_append_left _ hx)
  rcases mem_cons.mp hx with rfl | hx
  · have := (h rgn (mem_append_right before mem_cons_self)).2
    exact ⟨hpos,by simp only; omega⟩
  · exact h x (mem_append_right _ (mem_cons_of_mem _ hx))

lemma sorted_shorten (h : Sorted (before++rgn::after)) (hle : size ≤ rgn.size) :
    Sorted (before++⟨rgn.base,size⟩::after) := by
  obtain ⟨hbefore,hmid,hcross⟩ := pairwise_append.mp h
  obtain ⟨habove,hafter⟩ := pairwise_cons.mp hmid
  refine pairwise_append.mpr ⟨hbefore,pairwise_cons.mpr ⟨?_,hafter⟩,?_⟩
  · intro y hy
    have := habove y hy
    simp only
    omega
  exact fun x hx => forall_mem_cons.mpr (forall_mem_cons.mp (hcross x hx))

/-- `__memblock_remove`. -/
theorem removeRange_spec (fuel : Nat) (hwf : (mb.get kind).WellFormed) (hlt : base+size < word)
    (henv : env.Fits (mb.get kind)) (hstop : ∀ rgn ∈ (mb.get kind).regions, 0 < rgn.size → rgn.base ≠ base+size) :
    Returns mb kind ((mb.get kind).Removes base (base+size)) (mb.removeRange env (fuel+3) kind base size) := by
  have hmod : (base+size)%word = base+size := mod_eq_of_lt hlt
  unfold removeRange
  dsimp only
  rw [hmod]
  rcases hwf.regular with hfiller | ⟨hne,hb,hs⟩
  · rw [hfiller]
    left
    refine ⟨mb.get kind,hwf,?_,?_⟩
    · intro a
      rw [hfiller]
      have hnone := not_denotes_filler a
      simp [hnone]
    have hrefill : refill [filler] = (mb.get kind).regions := hfiller.symm
    simp only [removeLoop,filler,or_true,if_true]
    rw [write_eq,show refill [⟨0,0⟩] = (mb.get kind).regions from hrefill]
  have hloop := removeLoop_spec base (base+size) (Nat.le_add_right base size) hb hs
    fun rgn hrgn => hstop rgn hrgn (hb rgn hrgn).1
  rcases hcut : removeLoop base (base+size) (mb.get kind).regions with regions | ⟨before,rgn,after⟩
  · rw [hcut] at hloop
    left
    refine ⟨⟨refill regions,(mb.get kind).max,(mb.get kind).array⟩,⟨?_,?_⟩,?_,rfl⟩
    · by_cases hempty : regions = []
      · exact .inl (if_pos hempty)
      rw [refill,if_neg hempty]
      refine .inr ⟨hempty,?_,sorted_of_canonical hloop.canonical⟩
      exact bounded_of_overwrites hb (by simp only [range]; unfold word at *; omega) hloop
    · have hlen := removeLoop_length base (base+size) (mb.get kind).regions
      rw [hcut] at hlen
      have hpos := length_pos_iff.mpr hne
      have hroom := hwf.room
      simp only [refill]
      split
      · simp only [length_singleton]
        omega
      · exact hlen.trans_lt hroom
    intro a
    rw [denotes_refill,denotes_of_overwrites (canonical_spans hb hs) hloop a]
    by_cases hin : base ≤ a ∧ a < base+size <;> simp [hin]
  rw [hcut] at hloop
  dsimp only at hloop ⊢
  obtain ⟨heq,hlow,hhigh⟩ := hloop
  rw [heq] at hb hs
  have hrgn := hb rgn (mem_append_right before mem_cons_self)
  have hrend : (rgn.base+rgn.size)%word = rgn.base+rgn.size := mod_eq_of_lt hrgn.2
  rw [hrend]
  have hlen : (before++⟨rgn.base,base-rgn.base⟩::after).length = (mb.get kind).regions.length := by
    rw [heq]
    simp
  have hregular : Regular (before++⟨rgn.base,base-rgn.base⟩::after) :=
    .inr ⟨by simp,bounded_shorten hb (by omega) (by omega),sorted_shorten hs (by omega)⟩
  have hget : (mb.write kind (before++⟨rgn.base,base-rgn.base⟩::after)).get kind =
      ⟨before++⟨rgn.base,base-rgn.base⟩::after,(mb.get kind).max,(mb.get kind).array⟩ :=
    get_set mb kind _
  have hadd := addRegion_spec (mb.write kind (before++⟨rgn.base,base-rgn.base⟩::after)) kind
    env fuel (base+size) (rgn.base+rgn.size-(base+size))
    (by rw [hget]; exact ⟨hregular,by rw [hlen]; exact hwf.room⟩) (by omega) (by omega)
    (by rw [hget,Env.Fits,hlen]; exact henv)
  rcases hadd with ⟨t,ht,hadds,hok⟩ | hfail
  · rw [hok]
    left
    refine ⟨t,ht,?_,by simp only [write_eq,set_set]⟩
    rw [hget] at hadds
    exact removes_of_split hs (Nat.le_add_right base size) hlow hhigh heq rfl hadds
  rw [hfail]
  right
  have hsize : (rgn.base+rgn.size+word-rgn.base)%word = rgn.size := by
    unfold word at *
    omega
  simp only [write_eq,get_set,set_set,modify_append,hsize]
  rw [← heq,set_get]

end Blocks

/-- The call does what it is for: the range ends below the top of the
address space, a range that is added is not empty, and no region begins where a range that is
removed ends. -/
def Call.Ok (c : Call) (mb : Blocks) : Prop :=
  c.base+c.size < word ∧ c.env.Fits (mb.get c.op.kind) ∧
    match c.op with
    | .add | .reserve => 0 < c.size
    | .remove | .free =>
      ∀ rgn ∈ (mb.get c.op.kind).regions, 0 < rgn.size → rgn.base ≠ c.base+c.size

def Call.Effect (c : Call) (t after : RegionType) : Prop :=
  match c.op with
  | .add | .reserve => t.Adds c.base (c.base+c.size) after
  | .remove | .free => t.Removes c.base (c.base+c.size) after

/-- The states of runs whose calls are all `Ok`. -/
inductive Reaches (fuel : Nat) : Blocks → Prop
  | init : Reaches fuel init
  | limit {mb : Blocks} (limit : Nat) : Reaches fuel mb → Reaches fuel {mb with currentLimit := limit}
  | call {mb mb' : Blocks} {ret : Int} (c : Call) : Reaches fuel mb → c.Ok mb →
      mb.call fuel c = some (ret,mb') → Reaches fuel mb'

lemma call_returns (fuel : Nat) {mb : Blocks} {c : Call} (hwf : (mb.get c.op.kind).WellFormed)
    (hok : c.Ok mb) : Returns mb c.op.kind (c.Effect (mb.get c.op.kind)) (mb.call (fuel+3) c) := by
  obtain ⟨op,base,size,env⟩ := c
  obtain ⟨hlt,henv,hop⟩ := hok
  cases op with
  | add => exact Blocks.addRegion_spec mb .memory env (fuel+1) base size hwf hop hlt henv
  | remove | free => exact Blocks.removeRange_spec fuel hwf hlt henv hop
  | reserve =>
    have hne : size ≠ 0 := Nat.pos_iff_ne_zero.mp hop
    have hcall : mb.call (fuel+3) ⟨.reserve,base,size,env⟩ =
        mb.addRegion env (fuel+3) .reserved base size := if_neg hne
    rw [hcall]
    exact Blocks.addRegion_spec mb .reserved env (fuel+1) base size hwf hop hlt henv

lemma Returns.wellFormed {mb mb' : Blocks} {kind : Kind} {effect : RegionType → Prop} {ret : Int}
    (hwf : ∀ k, (mb.get k).WellFormed) (h : Returns mb kind effect (some (ret,mb'))) :
    ∀ k, (mb'.get k).WellFormed := by
  intro k
  rcases h with ⟨t,ht,-,hresult⟩ | hresult
  · obtain ⟨-,rfl⟩ := Prod.mk.inj (Option.some.inj hresult)
    by_cases hk : k = kind
    · subst hk
      rw [Blocks.get_set]
      exact ht
    rw [Blocks.get_set_ne mb kind t hk]
    exact hwf k
  obtain ⟨-,rfl⟩ := Prod.mk.inj (Option.some.inj hresult)
  exact hwf k

lemma Reaches.wellFormed {fuel : Nat} {mb : Blocks} (h : Reaches (fuel+3) mb) : ∀ kind, (mb.get kind).WellFormed := by
  induction h with
  | init =>
    intro kind
    cases kind
    · exact ⟨.inl rfl,by decide⟩
    · exact ⟨.inl rfl,by decide⟩
  | limit l _ ih =>
    intro kind
    cases kind
    · exact ih .memory
    · exact ih .reserved
  | call c _ hok hcall ih =>
    have hreturns := call_returns fuel (ih c.op.kind) hok
    rw [hcall] at hreturns
    exact hreturns.wellFormed ih

/-- In every run whose calls are `Ok`, the arrays are regular in every state, and the next such call
returns, keeps them regular, and changes the addresses of its own array by its range if it returns
zero, and none if it returns -1. -/
theorem region_arrays_exact {fuel : Nat} {mb : Blocks} (hfuel : 3 ≤ fuel) (h : Reaches fuel mb) :
    (∀ kind, Regular (mb.get kind).regions) ∧ ∀ c : Call, c.Ok mb → ∃ ret mb', mb.call fuel c = some (ret,mb') ∧
      (∀ kind, Regular (mb'.get kind).regions) ∧ (∀ kind, kind ≠ c.op.kind → mb'.get kind = mb.get kind) ∧
      ((ret = 0 ∧ c.Effect (mb.get c.op.kind) (mb'.get c.op.kind)) ∨
        (ret = -1 ∧ ∀ kind a, Denotes (mb'.get kind).regions a ↔ Denotes (mb.get kind).regions a)) := by
  obtain ⟨fuel,rfl⟩ := Nat.exists_eq_add_of_le' hfuel
  have hwf := h.wellFormed
  refine ⟨fun kind => (hwf kind).regular,?_⟩
  intro c hok
  have hreturns := call_returns fuel (hwf c.op.kind) hok
  rcases hreturns with ⟨t,ht,heffect,hcall⟩ | hcall
  · refine ⟨0,mb.set c.op.kind t,hcall,?_,?_,.inl ⟨rfl,?_⟩⟩
    · intro kind
      by_cases hk : kind = c.op.kind
      · rw [hk,Blocks.get_set]
        exact ht.regular
      rw [Blocks.get_set_ne mb _ t hk]
      exact (hwf kind).regular
    · intro kind hk
      exact Blocks.get_set_ne mb _ t hk
    rw [Blocks.get_set]
    exact heffect
  · exact ⟨-1,mb,hcall,fun kind => (hwf kind).regular,fun _ _ => rfl,.inr ⟨rfl,fun _ _ => Iff.rfl⟩⟩

instance (env : Env) (t : RegionType) : Decidable (env.Fits t) :=
  inferInstanceAs (Decidable (_ ∨ _ ∨ _))

instance (c : Call) (mb : Blocks) : Decidable (c.Ok mb) :=
  match c with
  | ⟨.add,_,_,_⟩ => inferInstanceAs (Decidable (_ ∧ _ ∧ 0 < _))
  | ⟨.reserve,_,_,_⟩ => inferInstanceAs (Decidable (_ ∧ _ ∧ 0 < _))
  | ⟨.remove,_,_,_⟩ => inferInstanceAs (Decidable (_ ∧ _ ∧ ∀ rgn ∈ _, _))
  | ⟨.free,_,_,_⟩ => inferInstanceAs (Decidable (_ ∧ _ ∧ ∀ rgn ∈ _, _))

instance (l : List Region) (a : Nat) : Decidable (Denotes l a) :=
  inferInstanceAs (Decidable (∃ rgn ∈ l, _))

def early : Env := ⟨false,false,0⟩

/-- Removing the middle of a region splits it. -/
theorem region_arrays_exact_split :
    ∃ mb, Reaches 3 mb ∧ (⟨.remove,0x2400,0x400,early⟩ : Call).Ok mb ∧ Denotes mb.memory.regions 0x2400 ∧
      ∃ ret mb', mb.call 3 ⟨.remove,0x2400,0x400,early⟩ = some (ret,mb') ∧
        ∀ kind, Regular (mb'.get kind).regions := by
  have hok : (⟨.add,0x2000,0x1000,early⟩ : Call).Ok init := by decide
  have hreach : Reaches 3 (init.write .memory [⟨0x2000,0x1000⟩]) :=
    Reaches.call ⟨.add,0x2000,0x1000,early⟩ Reaches.init hok rfl
  have hok' : (⟨.remove,0x2400,0x400,early⟩ : Call).Ok (init.write .memory [⟨0x2000,0x1000⟩]) := by
    decide
  obtain ⟨ret,mb',hcall,hregular,-⟩ := (region_arrays_exact (le_refl 3) hreach).2 _ hok'
  exact ⟨_,hreach,hok',by decide,ret,mb',hcall,hregular⟩

/-- Removing the range below a region, which is not in the map, makes the region reach to the top of
the address space. -/
theorem remove_below_region_grows : ∃ mb mb', init.call 3 ⟨.add,0x2000,0x1000,early⟩ = some (0,mb) ∧
      mb.call 3 ⟨.remove,0x1000,0x1000,early⟩ = some (0,mb') ∧
      ¬Denotes mb.memory.regions 0x3000 ∧ Denotes mb'.memory.regions 0x3000 := by
  refine ⟨init.write .memory [⟨0x2000,0x1000⟩],init.write .memory [⟨0x2000,0xfffff000⟩],?_,?_,?_,?_⟩
  · rfl
  · rfl
  · decide
  · decide

/-- `memblock_search`, from one turn of its loop on -/
def search (l : List Region) (addr left right : Nat) : Option Nat :=
  let mid := (right+left)/2
  let rgn := l.getD mid filler
  if addr < rgn.base then if left < mid then search l addr left mid else none
  else if addr ≥ (rgn.base+rgn.size)%word then if mid+1 < right then search l addr (mid+1) right else none
  else some mid
termination_by right-left

def Blocks.holds (mb : Blocks) (kind : Kind) (addr : Nat) : Bool :=
  (search (mb.get kind).regions addr 0 (mb.get kind).regions.length).isSome

def Blocks.isReserved (mb : Blocks) : Nat → Bool := mb.holds .reserved

def Blocks.isMemory (mb : Blocks) : Nat → Bool := mb.holds .memory

/-- Only the regions from `left` to below `right` can have the address. -/
def Between (l : List Region) (addr left right : Nat) : Prop :=
  ∀ i (h : i < l.length), l[i].base ≤ addr → addr < l[i].base+l[i].size → left ≤ i ∧ i < right

section Search
variable {l : List Region} {addr left right : Nat}

lemma Between.not_denotes (h : Between l addr left right) (hle : right ≤ left) : ¬Denotes l addr := by
  rintro ⟨rgn,hrgn,hin⟩
  obtain ⟨i,hi,rfl⟩ := getElem_of_mem hrgn
  have := h i hi hin.1 hin.2
  omega

lemma search_spec (hb : Bounded l) (hs : Sorted l) (hlr : left < right) (hr : right ≤ l.length)
    (hin : Between l addr left right) : (search l addr left right).isSome ↔ Denotes l addr := by
  have hsorted := pairwise_iff_getElem.mp hs
  induction hn : right-left using Nat.strongRec generalizing left right with
  | ind n ih =>
    rw [search]
    generalize hmid : (right+left)/2 = mid
    have hm : mid < l.length := by omega
    simp only [getD_eq_getElem _ _ hm,Nat.mod_eq_of_lt (hb _ (getElem_mem hm)).2]
    split
    · next hbase =>
      have hin : Between l addr left mid := by
        intro i hi hle hlt
        rcases Nat.lt_trichotomy i mid with h | rfl | h
        · exact ⟨(hin i hi hle hlt).1,h⟩
        · omega
        · have := hsorted mid i hm hi h
          omega
      split
      · next hlt => exact ih _ (by omega) hlt (by omega) hin rfl
      · simp [hin.not_denotes (by omega)]
    next hbase =>
    split
    · next hend =>
      have hin : Between l addr (mid+1) right := by
        intro i hi hle hlt
        rcases Nat.lt_trichotomy i mid with h | rfl | h
        · have := hsorted i mid hi hm h
          omega
        · omega
        · exact ⟨h,(hin i hi hle hlt).2⟩
      split
      · next hlt => exact ih _ (by omega) hlt hr hin rfl
      · simp [hin.not_denotes (by omega)]
    next hend =>
    exact iff_of_true rfl ⟨_,getElem_mem hm,by omega⟩

end Search

end LinuxToradex.Memblock

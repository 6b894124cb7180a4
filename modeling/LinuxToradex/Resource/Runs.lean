import LinuxToradex.Resource.Edits

/-! Every function of the tree keeps `Inv`, whatever its fuel, or reports an error and has changed at most a
resource that is in no list. -/
namespace LinuxToradex.Resource
open Option List Function Forest Nat Prod

variable {x old : Id} {start stop size low res : Nat} {c : Heap.Constraint} {ret : Int}

structure SameBut (h h' : Heap) (x : Id) : Prop where
  parent : ∀ y, y ≠ x → h'.links.parent y = h.links.parent y
  child : ∀ y, y ≠ x → h'.links.child y = h.links.child y
  sibling : ∀ y, y ≠ x → h'.links.sibling y = h.links.sibling y
  start : ∀ y, y ≠ x → h'.start y = h.start y
  stop : ∀ y, y ≠ x → h'.stop y = h.stop y
  flags : ∀ y, y ≠ x → h'.flags y = h.flags y

lemma SameBut.refl (h : Heap) (x : Id) : SameBut h h x :=
  ⟨fun _ _ => rfl,fun _ _ => rfl,fun _ _ => rfl,fun _ _ => rfl,fun _ _ => rfl,fun _ _ => rfl⟩

lemma SameBut.setRange (h : Heap) (x : Id) (start stop : Nat) : SameBut h (h.setRange x start stop) x :=
  ⟨fun _ _ => rfl,fun _ _ => rfl,fun _ _ => rfl,fun _ hy => update_of_ne hy _ _,
    fun _ hy => update_of_ne hy _ _,fun _ _ => rfl⟩

lemma SameBut.write (h : Heap) (x : Id) (node : Node) : SameBut h (h.write x node) x :=
  ⟨fun _ hy => update_of_ne hy _ _,fun _ hy => update_of_ne hy _ _,
    fun _ hy => update_of_ne hy _ _,fun _ hy => update_of_ne hy _ _,
    fun _ hy => update_of_ne hy _ _,fun _ hy => update_of_ne hy _ _⟩

section Calls

variable {roots : Id → Prop} {h h' : Heap} {kids : Id → List Id} {root new : Id} {fuel steps : Nat}

lemma Inv.of_sameBut (hinv : Inv roots h kids) (hx : ∀ n, x ∉ kids n) (hsame : SameBut h h' x)
    (hleaf : h'.links.child x = none) (hbound : h'.stop x < word) : Inv roots h' (update kids x []) :=
  hinv.scratch hx hsame.parent hsame.child hsame.sibling hsame.start hsame.stop hleaf hbound

lemma Inv.write (node : Node) (hinv : Inv roots h kids) (hx : ∀ n, x ∉ kids n)
    (hleaf : node.child = none) (hbound : node.stop < word) :
    Inv roots (h.write x node) (update kids x []) ∧ ∀ n, x ∉ update kids x [] n := by
  constructor
  · apply hinv.of_sameBut hx (SameBut.write h x node)
    · rw [← hleaf]
      exact update_self x _ _
    rw [show (h.write x node).stop x = node.stop from update_self x _ _]
    exact hbound
  exact (forall_update_iff _ fun _ l => x ∉ l).mpr ⟨not_mem_nil,fun n _ => hx n⟩

section
variable (hinv : Inv roots h kids) (hx : ∀ n, new ∉ kids n)
include hinv hx

lemma insertLoop_spec {result : Option Id} (hfree : ¬roots new) (hne : new ≠ root)
    (hcall : h.insertLoop steps new fuel root = some (result,h')) :
    (result = none ∧ ∃ kids', Inv roots h' kids') ∨ (result ≠ none ∧ h' = h) := by
  induction fuel generalizing root with
  | zero => exact absurd hcall (by simp [Heap.insertLoop])
  | succ fuel ih =>
    rw [Heap.insertLoop] at hcall
    rcases hreq : h.requestResource steps root new with _ | r
    · rw [hreq] at hcall
      cases hcall
    obtain ⟨conflict,granted⟩ := r
    rw [hreq] at hcall
    rcases requestResource_spec hinv hx hfree hreq with ⟨rfl,hgranted⟩ | ⟨first,rfl,-,hfirst⟩
    · obtain ⟨rfl,rfl⟩ := returned hcall
      exact .inl ⟨rfl,hgranted⟩
    dsimp only at hcall
    split at hcall
    · next hstop =>
      obtain ⟨rfl,rfl⟩ := returned hcall
      exact .inr ⟨by simp,rfl⟩
    next hstop =>
    rw [not_or] at hstop
    split_ifs at hcall
    · exact insertOver_spec hinv hx hfree hne (hfirst.resolve_left hstop.1) hcall
    · exact ih (fun heq => hstop.2 heq.symm) hcall

lemma Inv.grow (hstart : start ≤ h.start new) (hstop : h.stop new ≤ stop) (hbound : stop < word) :
    Inv roots (h.setRange new start stop) kids := by
  by_cases hle : start ≤ stop
  · refine hinv.resize hle hbound ?_ ?_
    · intro c hc
      have := (hinv.nested new).inside c hc
      omega
    intro n before after heq
    exact absurd (by rw [heq]; simp) (hx n)
  -- an empty range has no children
  have hnil : kids new = [] := by
    rw [eq_nil_iff_forall_not_mem]
    intro c hc
    have := (hinv.nested new).inside c hc
    omega
  have hleaf : h.links.child new = none := by
    have hchain := hinv.linked.chain new
    rw [hnil] at hchain
    exact hchain
  have hscratch := hinv.of_sameBut hx (SameBut.setRange h new start stop) hleaf
    (by simpa [Heap.setRange] using hbound)
  rwa [← hnil,update_eq_self] at hscratch

/-- `insert_resource_expand_to_fit`. -/
theorem expandLoop_spec (hfree : ¬roots new) (hne : new ≠ root)
    (hcall : Heap.expandLoop steps root new fuel h = some h') : ∃ kids', Inv roots h' kids' := by
  induction fuel generalizing h with
  | zero => exact absurd hcall (by simp [Heap.expandLoop])
  | succ fuel ih =>
    rw [Heap.expandLoop] at hcall
    rcases hins : h.insertResource steps root new with _ | r
    · rw [hins] at hcall
      cases hcall
    obtain ⟨conflict,inserted⟩ := r
    rw [hins] at hcall
    rcases insertLoop_spec hinv hx hfree hne hins with ⟨rfl,hgood⟩ | ⟨hconflict,rfl⟩
    · have heq := some.inj hcall
      rw [← heq]
      exact hgood
    rcases conflict with _ | conflict
    · exact absurd rfl hconflict
    dsimp only at hcall
    split_ifs at hcall
    · have heq := some.inj hcall
      rw [← heq]
      exact ⟨kids,hinv⟩
    refine ih (hinv.grow hx (min_le_right _ _) (le_max_right _ _) ?_) hcall
    have h1 := hinv.bound conflict
    have h2 := hinv.bound new
    omega

end

structure FreeBut (h : Heap) (kids : Id → List Id) (root old : Id) (start stop : Nat) : Prop where
  low : h.start root ≤ start
  high : stop ≤ h.stop root
  free : ∀ c ∈ kids root, c ≠ old → h.stop c < start ∨ stop < h.start c

lemma tryGap_spec {high : Nat} {next : Nat → Option (Option (Nat × Nat))}
    (hcall : Heap.tryGap size c low high next = some (some (start,stop))) :
    (∃ low', low ≤ low' ∧ max low' c.min = max low c.min ∧ next low' = some (some (start,stop))) ∨
      (low ≤ start ∧ stop ≤ high ∧ start = Align.up (max low c.min) c.align ∧
        stop = (start+size+word-1)%word) := by
  unfold Heap.tryGap at hcall
  split at hcall
  · next hempty => exact .inl ⟨low,le_refl low,rfl,hcall⟩
  next hempty =>
  by_cases hfit : max low c.min ≤ Align.up (max low c.min) c.align ∧
      (Align.up (max low c.min) c.align+size+word-1)%word ≤ min high c.max
  · rw [if_pos hfit] at hcall
    obtain ⟨rfl,rfl⟩ := mk.inj (some.inj (some.inj hcall))
    exact .inr ⟨by omega,by omega,rfl,rfl⟩
  rw [if_neg hfit] at hcall
  exact .inl ⟨max low c.min,le_max_left _ _,by omega,hcall⟩

/-- The loop of `__find_resource` has left the children `before` behind, which end below `low`. -/
theorem findLoop_spec (before after : List Id) (hinv : Inv roots h kids)
    (hkids : kids root = before++after) (hlow : h.start root ≤ low)
    (hbefore : ∀ x ∈ before, x ≠ old → h.stop x < low)
    (hfirst : before = [] → ∀ x ∈ after.head?, h.start root < h.start x)
    (hcall : h.findLoop root (some old) size c fuel low after.head? = some (some (start,stop))) :
    FreeBut h kids root old start stop := by
  induction fuel generalizing before after low with
  | zero => exact absurd hcall (by simp [Heap.findLoop])
  | succ fuel ih =>
    have hnested := hinv.nested root
    have hchain := hinv.linked.chain root
    rw [hkids] at hnested hchain
    obtain ⟨-,hsorted,hcross⟩ := pairwise_append.mp hnested.sorted
    rcases after with _ | ⟨x,after⟩
    · rcases tryGap_spec hcall with ⟨low',-,-,hnext⟩ | ⟨hstart,hstop,-⟩
      · cases hnext
      refine ⟨by omega,hstop,?_⟩
      intro x hx hxo
      rw [hkids,append_nil] at hx
      have := hbefore x hx hxo
      omega
    have hx := hnested.inside x (mem_append_right _ mem_cons_self)
    have hpos : 0 < h.start x := by
      cases before with
      | nil =>
        have := hfirst rfl x rfl
        omega
      | cons b before =>
        have := hcross b mem_cons_self x mem_cons_self
        omega
    have hrootBound := hinv.bound root
    have hhigh : (h.start x+word-1)%word = h.start x-1 := by
      unfold word at *
      omega
    -- the rest of the loop, from a bound that is not lower
    have hnext : ∀ low', low ≤ low' → (if h.stop x = h.stop root then some none else
        h.findLoop root (some old) size c fuel
          (if some x = some old then low' else (h.stop x+1)%word) (h.links.sibling x)) =
        some (some (start,stop)) → FreeBut h kids root old start stop := by
      intro low' hle hcall
      split_ifs at hcall with hend hxo
      · exact absurd (some.inj hcall) (by simp)
      · rw [hchain.sibling_eq] at hcall
        refine ih (before++[x]) after (by rw [hkids]; simp) (by omega) ?_ (by simp) hcall
        refine forall_mem_append.mpr ⟨fun y hy hyo => ?_,forall_mem_singleton.mpr (absurd (some.inj hxo))⟩
        have := hbefore y hy hyo
        omega
      rw [hchain.sibling_eq] at hcall
      have hwrap : (h.stop x+1)%word = h.stop x+1 := by
        unfold word at *
        omega
      refine ih (before++[x]) after (by rw [hkids]; simp) (by omega) ?_ (by simp) hcall
      refine forall_mem_append.mpr ⟨fun y hy hyo => ?_,forall_mem_singleton.mpr fun _ => by omega⟩
      have := hcross y hy x mem_cons_self
      omega
    rcases tryGap_spec hcall with ⟨low',hle,-,hcall'⟩ | ⟨hstart,hstop,-⟩
    · exact hnext low' hle hcall'
    by_cases hxo : x = old
    · -- the gap ends with `old`
      rw [if_pos (congrArg some hxo)] at hstop
      refine ⟨by omega,by omega,?_⟩
      intro y hy hyo
      rw [hkids] at hy
      rcases mem_append.mp hy with hy | hy
      · have := hbefore y hy hyo
        omega
      rcases mem_cons.mp hy with rfl | hy
      · exact absurd hxo hyo
      have := rel_of_pairwise_cons hsorted hy
      omega
    rw [if_neg fun heq => hxo (some.inj heq)] at hstop
    refine ⟨by omega,by omega,?_⟩
    intro y hy hyo
    rw [hkids] at hy
    rcases mem_append.mp hy with hy | hy
    · have := hbefore y hy hyo
      omega
    right
    have habove := hnested.above (sub_lt hpos Nat.one_pos) y hy
    omega

/-- A gap between the children of `root` begins where `root` does or behind one of them. -/
def GapStart (h : Heap) (root : Id) (low : Nat) : Prop :=
  low = h.start root ∨ ∃ x, h.links.parent x = some root ∧ low = (h.stop x+1)%word

/-- No range of the size that begins in a gap as low as the constraint allows ends beyond the word. -/
def NoWrap (h : Heap) (root : Id) (size : Nat) (c : Heap.Constraint) : Prop :=
  0 < size ∧ ∀ low, GapStart h root low → Align.up (max low c.min) c.align+size ≤ word

def FoundIn (h : Heap) (root : Id) (size : Nat) (c : Heap.Constraint) (start stop : Nat) : Prop :=
  stop = (start+size+word-1)%word ∧ ∃ low, GapStart h root low ∧ start = Align.up (max low c.min) c.align

lemma FoundIn.lt_word (hfound : FoundIn h root size c start stop) : stop < word := by
  rw [hfound.1]
  exact mod_lt _ (by decide)

lemma FoundIn.le (hfound : FoundIn h root size c start stop) (hwrap : NoWrap h root size c) : start ≤ stop := by
  obtain ⟨hstop,low,hlow,hstart⟩ := hfound
  have hfits := hwrap.2 low hlow
  have hpos := hwrap.1
  rw [← hstart] at hfits
  unfold word at *
  omega

section
variable (hinv : Inv roots h kids)
include hinv

lemma findLoop_found {old : Option Id} (before after : List Id) (hkids : kids root = before++after)
    (hlow : ∃ g, GapStart h root g ∧ max low c.min = max g c.min)
    (hcall : h.findLoop root old size c fuel low after.head? = some (some (start,stop))) :
    FoundIn h root size c start stop := by
  induction fuel generalizing before after low with
  | zero => exact absurd hcall (by simp [Heap.findLoop])
  | succ fuel ih =>
    obtain ⟨g,hg,hclip⟩ := hlow
    rcases after with _ | ⟨x,after⟩
    · rcases tryGap_spec hcall with ⟨low',-,-,hnext⟩ | ⟨-,-,hstart,hstop⟩
      · cases hnext
      · exact ⟨hstop,g,hg,by rw [hstart,hclip]⟩
    rcases tryGap_spec hcall with ⟨low',-,hlow',hnext⟩ | ⟨-,-,hstart,hstop⟩
    · have hchain := hinv.linked.chain root
      rw [hkids] at hchain
      have hx : h.links.parent x = some root := hinv.linked.parent root x (by rw [hkids]; simp)
      rw [hchain.sibling_eq] at hnext
      split_ifs at hnext with hend hxo
      · exact absurd (some.inj hnext) (by simp)
      · exact ih (before++[x]) after (by rw [hkids]; simp) ⟨g,hg,hlow'.trans hclip⟩ hnext
      · exact ih (before++[x]) after (by rw [hkids]; simp) ⟨_,.inr ⟨x,hx,rfl⟩,rfl⟩ hnext
    · exact ⟨hstop,g,hg,by rw [hstart,hclip]⟩

lemma findResource_found {old : Option Id}
    (hcall : h.findResource fuel root old size c = some (some (start,stop))) : FoundIn h root size c start stop := by
  have hchain := hinv.linked.chain root
  unfold Heap.findResource at hcall
  rcases hkids : kids root with _ | ⟨x,after⟩
  · rw [hkids] at hchain
    rw [hchain.first_eq] at hcall
    exact findLoop_found hinv [] [] hkids ⟨_,.inl rfl,rfl⟩ hcall
  have hx : h.links.parent x = some root := hinv.linked.parent root x (by rw [hkids]; simp)
  rw [hkids] at hchain
  rw [hchain.1] at hcall
  dsimp only at hcall
  split at hcall
  · next hfirst =>
    rw [hchain.2.first_eq,hfirst] at hcall
    refine findLoop_found hinv [x] after hkids ?_ hcall
    split
    · exact ⟨_,.inl rfl,rfl⟩
    · exact ⟨_,.inr ⟨x,hx,rfl⟩,rfl⟩
  · exact findLoop_found hinv [] (x::after) hkids ⟨_,.inl rfl,rfl⟩ hcall

/-- `__find_resource`, for a child of `root`. -/
theorem findResource_spec (hold : old ∈ kids root)
    (hcall : h.findResource fuel root (some old) size c = some (some (start,stop))) :
    FreeBut h kids root old start stop := by
  have hnested := hinv.nested root
  have hchain := hinv.linked.chain root
  unfold Heap.findResource at hcall
  rcases hkids : kids root with _ | ⟨x,after⟩
  · rw [hkids] at hold
    exact absurd hold not_mem_nil
  rw [hkids] at hnested hchain hold
  have hx := hnested.inside x mem_cons_self
  rw [hchain.1] at hcall
  dsimp only at hcall
  split at hcall
  · next hfirst =>
    rw [hchain.2.first_eq] at hcall
    by_cases hxo : x = old
    · rw [if_pos (congrArg some hxo)] at hcall
      exact findLoop_spec [x] after hinv hkids (by omega) (forall_mem_singleton.mpr (absurd hxo)) (by simp) hcall
    have hlt := rel_of_pairwise_cons hnested.sorted ((mem_cons.mp hold).resolve_left fun heq => hxo heq.symm)
    have hin := hnested.inside old hold
    have hbound := hinv.bound old
    have hwrap : (h.stop x+1)%word = h.stop x+1 := by
      unfold word at *
      omega
    rw [if_neg fun heq => hxo (some.inj heq),hwrap] at hcall
    exact findLoop_spec [x] after hinv hkids (by omega) (forall_mem_singleton.mpr fun _ => lt_succ_self _)
      (by simp) hcall
  next hfirst =>
  refine findLoop_spec [] (x::after) hinv hkids le_rfl (by simp) ?_ hcall
  intro _ y hy
  have hxy : x = y := some.inj hy
  rw [← hxy]
  omega

lemma Inv.kids_eq_nil (hleaf : h.links.child x = none) : kids x = [] := by
  have hchain := hinv.linked.chain x
  rw [hleaf] at hchain
  cases hkids : kids x with
  | nil => rfl
  | cons y l =>
    rw [hkids] at hchain
    exact absurd hchain.1 (by simp)

lemma Inv.resizeIn {before after : List Id} (hkids : kids root = before++x::after)
    (hle : start ≤ stop) (hlow : h.start root ≤ start) (hhigh : stop ≤ h.stop root)
    (hbefore : ∀ c ∈ before, h.stop c < start) (hafter : ∀ c ∈ after, stop < h.start c)
    (hin : ∀ c ∈ kids x, start ≤ h.start c ∧ h.stop c ≤ stop) : Inv roots (h.setRange x start stop) kids := by
  have hbound := hinv.bound root
  refine hinv.resize hle (by omega) hin ?_
  intro n before' after' heq
  have hmem : x ∈ kids root := by
    rw [hkids]
    simp
  have hn : n = root := hinv.linked.unique (by rw [heq]; simp) hmem
  subst hn
  have hnodup := hinv.linked.nodup n
  rw [hkids] at heq hnodup
  have hnot := (nodup_cons.mp (perm_middle.nodup_iff.mp hnodup)).1
  rw [mem_append,not_or] at hnot
  obtain ⟨rfl,-,rfl⟩ := (append_cons_inj_of_notMem hnot.1 hnot.2).mp heq
  exact ⟨fun _ => ⟨hlow,hhigh⟩,hbefore,hafter⟩

lemma Inv.growInside (hold : old ∈ kids root) (hfree : FreeBut h kids root old start stop)
    (hstart : start ≤ h.start old) (hstop : h.stop old ≤ stop) : Inv roots (h.setRange old start stop) kids := by
  obtain ⟨before,after,heq⟩ := append_of_mem hold
  have hnested := hinv.nested root
  have hnodup := hinv.linked.nodup root
  have hfree' := hfree.free
  rw [heq] at hnested hnodup hfree'
  have hin := hnested.inside old (mem_append_right _ mem_cons_self)
  obtain ⟨-,hafter,hcross⟩ := pairwise_append.mp hnested.sorted
  obtain ⟨-,hnot,hapart⟩ := nodup_append.mp hnodup
  apply hinv.resizeIn heq (by omega) hfree.low hfree.high
  · intro c hc
    have h1 := hcross c hc old mem_cons_self
    have h2 := hnested.inside c (mem_append_left _ hc)
    have h3 := hfree' c (mem_append_left _ hc) (hapart c hc old mem_cons_self)
    omega
  · intro c hc
    have h1 := rel_of_pairwise_cons hafter hc
    have hmem : c ∈ before++old::after := mem_append_right _ (mem_cons_of_mem _ hc)
    have h2 := hnested.inside c hmem
    have h3 := hfree' c hmem fun heq => (nodup_cons.mp hnot).1 (heq ▸ hc)
    omega
  intro c hc
  have := (hinv.nested old).inside c hc
  omega

lemma Inv.shrink (hleaf : h.links.child x = none) (hle : start ≤ stop)
    (hstart : h.start x ≤ start) (hstop : stop ≤ h.stop x) : Inv roots (h.setRange x start stop) kids := by
  have hbound := hinv.bound x
  have hnil := hinv.kids_eq_nil hleaf
  refine hinv.resize hle (by omega) (by rw [hnil]; simp) ?_
  intro n before after heq
  have hnested := hinv.nested n
  rw [heq] at hnested
  have hin := hnested.inside x (mem_append_right _ mem_cons_self)
  obtain ⟨-,hafter,hcross⟩ := pairwise_append.mp hnested.sorted
  refine ⟨fun _ => by omega,?_,?_⟩
  · intro c hc
    have := hcross c hc x mem_cons_self
    omega
  intro c hc
  have := rel_of_pairwise_cons hafter hc
  omega

lemma releaseResource_spec (hcall : h.releaseResource fuel old = some (ret,h')) :
    (ret = 0 ∧ ∃ kids', Inv roots h' kids' ∧ ∀ n, old ∉ kids' n) ∨ (ret = einval ∧ h' = h ∧ ∀ n, old ∉ kids n) := by
  unfold Heap.releaseResource at hcall
  split at hcall
  · cases hcall
  next parent hparent =>
  rcases releaseLoop_spec [] (kids parent) hinv rfl hcall with
    ⟨hret,before,after,hkids,hgood⟩ | ⟨hret,hsame,hnot⟩
  · refine .inl ⟨hret,_,hgood,(forall_update_iff _ fun _ l => old ∉ l).mpr ⟨?_,fun n hn hmem => ?_⟩⟩
    · have hnodup := hinv.linked.nodup parent
      rw [hkids] at hnodup
      exact (nodup_cons.mp (perm_middle.nodup_iff.mp hnodup)).1
    exact hn (hinv.linked.unique hmem (by rw [hkids]; simp))
  refine .inr ⟨hret,hsame,?_⟩
  intro n hn
  have hsame := hinv.linked.parent n old hn
  rw [hparent] at hsame
  exact hnot (some.inj hsame ▸ hn)

/-- `reallocate_resource`, of a child of `root`, when no range of the size wraps. -/
theorem reallocateResource_spec (hroot : h.links.parent old = some root) (hfree : ¬roots old)
    (hwrap : NoWrap h root size c)
    (hcall : h.reallocateResource fuel root old size c = some (ret,h')) :
    (ret = 0 ∧ ∃ kids', Inv roots h' kids') ∨ (ret = ebusy ∧ h' = h) := by
  unfold Heap.reallocateResource at hcall
  rcases hfind : h.findResource fuel root (some old) size c with _ | found
  · rw [hfind] at hcall
    cases hcall
  rw [hfind] at hcall
  rcases found with _ | range
  · exact .inr (returned hcall)
  obtain ⟨start,stop⟩ := range
  have hle := (findResource_found hinv hfind).le hwrap
  dsimp only at hcall
  split at hcall
  · next hgrow =>
    obtain ⟨rfl,rfl⟩ := returned hcall
    refine .inl ⟨rfl,kids,?_⟩
    by_cases hmem : old ∈ kids root
    · exact hinv.growInside hmem (findResource_spec hinv hmem hfind) hgrow.1 hgrow.2
    refine hinv.grow ?_ hgrow.1 hgrow.2 (findResource_found hinv hfind).lt_word
    intro n hn
    have := hinv.linked.parent n old hn
    rw [hroot] at this
    exact hmem (some.inj this ▸ hn)
  next hgrow =>
  split at hcall
  · next hchild => exact .inr (returned hcall)
  next hchild =>
  rw [ne_eq,not_not] at hchild
  split at hcall
  · next hshrink =>
    obtain ⟨rfl,rfl⟩ := returned hcall
    exact .inl ⟨rfl,kids,hinv.shrink hchild hle hshrink.1 hshrink.2⟩
  next hshrink =>
  rcases hrel : h.releaseResource fuel old with _ | r
  · rw [hrel] at hcall
    cases hcall
  obtain ⟨_,released⟩ := r
  rw [hrel] at hcall
  dsimp only at hcall
  have hout : ∃ kids', Inv roots released kids' ∧ ∀ n, old ∉ kids' n := by
    rcases releaseResource_spec hinv hrel with ⟨-,hgood⟩ | ⟨-,rfl,hnot⟩
    · exact hgood
    · exact ⟨kids,hinv,hnot⟩
  obtain ⟨kids',hinv',hnot⟩ := hout
  split at hcall
  · rename_i granted hreq
    have heq := mk.inj (some.inj hcall)
    obtain ⟨hcopied,hnot'⟩ := hinv'.write
      ⟨h.links.parent old,h.links.child old,h.links.sibling old,start,stop,h.flags old⟩
      hnot hchild (findResource_found hinv hfind).lt_word
    rcases requestResource_spec hcopied hnot' hfree hreq with ⟨-,hgood⟩ | ⟨x,hx,-⟩
    · rw [← heq.2]
      exact .inl ⟨heq.1.symm,hgood⟩
    · cases hx
  · cases hcall

/-- `allocate_resource`, of a resource outside the tree and without children. -/
theorem allocateResource_spec (hx : ∀ n, new ∉ kids n) (hfree : ¬roots new)
    (hparent : h.links.parent new = none) (hleaf : h.links.child new = none)
    (hcall : h.allocateResource fuel root new size c = some (ret,h')) : (ret = 0 ∧ ∃ kids', Inv roots h' kids') ∨
      (ret = ebusy ∧ SameBut h h' new ∧ ∃ kids', Inv roots h' kids') := by
  unfold Heap.allocateResource at hcall
  rw [if_neg (by rw [hparent]; simp)] at hcall
  rcases hfind : h.findResource fuel root none size c with _ | found
  · rw [hfind] at hcall
    cases hcall
  rw [hfind] at hcall
  rcases found with _ | range
  · obtain ⟨rfl,rfl⟩ := returned hcall
    exact .inr ⟨rfl,SameBut.refl _ new,kids,hinv⟩
  obtain ⟨start,stop⟩ := range
  dsimp only at hcall
  have hsame := SameBut.setRange h new start stop
  have hbound : (h.setRange new start stop).stop new < word := by
    rw [show (h.setRange new start stop).stop new = stop from update_self new _ _]
    exact (findResource_found hinv hfind).lt_word
  have hset := hinv.of_sameBut hx hsame hleaf hbound
  rw [← hinv.kids_eq_nil hleaf,update_eq_self] at hset
  rcases hreq : (h.setRange new start stop).requestResource fuel root new with _ | r
  · rw [hreq] at hcall
    cases hcall
  obtain ⟨conflict,granted⟩ := r
  rw [hreq] at hcall
  rcases requestResource_spec hset hx hfree hreq with ⟨rfl,hgood⟩ | ⟨x,rfl,rfl,-⟩
  · obtain ⟨rfl,rfl⟩ := returned hcall
    exact .inl ⟨rfl,hgood⟩
  obtain ⟨rfl,rfl⟩ := returned hcall
  exact .inr ⟨rfl,hsame,kids,hset⟩

end

lemma insideLoop_spec {first : Option Id} {l : List Id} (hchain : Chain h.links.sibling first l)
    (hcall : h.insideLoop start stop fuel first = some true) : ∀ c ∈ l, start ≤ h.start c ∧ h.stop c ≤ stop := by
  induction fuel generalizing first l with
  | zero => exact absurd hcall (by simp [Heap.insideLoop])
  | succ fuel ih =>
    rcases l with _ | ⟨x,l⟩
    · simp
    rw [hchain.1,Heap.insideLoop] at hcall
    split at hcall
    · next hout => cases hcall
    next hout =>
    exact forall_mem_cons.mpr ⟨by omega,ih hchain.2 hcall⟩

/-- `adjust_resource`, when the new end does not wrap. -/
theorem adjustResource_spec (hinv : Inv roots h kids) (hvalid : start ≤ (start+size+word-1)%word)
    (hcall : h.adjustResource fuel res start size = some (ret,h')) :
    (ret = 0 ∧ Inv roots h' kids) ∨ (ret = ebusy ∧ h' = h) := by
  unfold Heap.adjustResource at hcall
  rcases hparent : h.links.parent res with _ | parent
  · rw [hparent] at hcall
    cases hcall
  rw [hparent] at hcall
  dsimp only at hcall
  generalize hstopEq : (start+size+word-1)%word = stop at hcall hvalid
  by_cases hout : start < h.start parent ∨ h.stop parent < stop
  · rw [if_pos hout] at hcall
    exact .inr (returned hcall)
  rw [if_neg hout] at hcall
  rcases hinside : h.insideLoop start stop fuel (h.links.child res) with _ | inside
  · rw [hinside] at hcall
    cases hcall
  rw [hinside] at hcall
  rcases inside with _ | _
  · exact .inr (returned hcall)
  have hkids := insideLoop_spec (hinv.linked.chain res) hinside
  have hchain := hinv.linked.chain parent
  have hnested := hinv.nested parent
  by_cases hnext : ((h.links.sibling res).any fun s => decide (h.start s ≤ stop)) = true
  · rw [if_pos hnext] at hcall
    exact .inr (returned hcall)
  rw [if_neg hnext] at hcall
  -- the siblings behind `res` begin above the new end
  have hafter : ∀ before after, kids parent = before++res::after → ∀ c ∈ after, stop < h.start c := by
    intro before after heq
    rw [heq] at hchain hnested
    rw [hchain.sibling_eq] at hnext
    rcases after with _ | ⟨s,after⟩
    · simp
    have habove : stop < h.start s := by simpa using hnext
    have hnested' : Nested h.start h.stop parent ((before++[res])++s::after) := by
      rw [append_assoc]
      exact hnested
    exact hnested'.above habove
  have hresize : ∀ before after, kids parent = before++res::after →
      (∀ c ∈ before, h.stop c < start) → Inv roots (h.setRange res start stop) kids :=
    fun before after heq hbefore => hinv.resizeIn heq hvalid (by omega) (by omega) hbefore
      (hafter before after heq) hkids
  rcases hc : h.links.child parent with _ | c
  · rw [hc] at hcall
    cases hcall
  rw [hc] at hcall hchain
  dsimp only at hcall
  split at hcall
  · next hcr =>
    have heq := mk.inj (some.inj hcall)
    rw [← heq.2]
    have hfirst := hchain.first_eq
    rw [hcr] at hfirst
    obtain ⟨after,hlist⟩ := head?_eq_some_iff.mp hfirst.symm
    exact .inl ⟨heq.1.symm,hresize [] after hlist (by simp)⟩
  next hcr =>
  rcases hprev : Heap.prevLoop h.links res fuel c with _ | prev
  · rw [hprev] at hcall
    cases hcall
  rw [hprev] at hcall
  dsimp only at hcall
  obtain ⟨before,after,hlist⟩ := prevLoop_spec hchain hprev
  split at hcall
  · next hoverlap => exact .inr (returned hcall)
  next hoverlap =>
  obtain ⟨rfl,rfl⟩ := returned hcall
  refine .inl ⟨rfl,hresize (before++[prev]) after (by rw [hlist]; simp) ?_⟩
  rw [hlist] at hnested
  obtain ⟨-,-,hcross⟩ := pairwise_append.mp hnested.sorted
  refine forall_mem_append.mpr ⟨fun x hx => ?_,forall_mem_singleton.mpr (by omega)⟩
  have h1 := hcross x hx prev mem_cons_self
  have h2 := hnested.inside prev (mem_append_right _ mem_cons_self)
  omega

lemma regionLoop_spec {flags : Nat} {result : Heap.Region} (hinv : Inv roots h kids)
    (hx : ∀ n, res ∉ kids n) (hfree : ¬roots res)
    (hcall : h.regionLoop steps res flags fuel root = some (result,h')) :
    (result = .granted ∧ ∃ kids', Inv roots h' kids') ∨ (result ≠ .granted ∧ h' = h) := by
  induction fuel generalizing root with
  | zero => exact absurd hcall (by simp [Heap.regionLoop])
  | succ fuel ih =>
    rw [Heap.regionLoop] at hcall
    rcases hreq : h.requestResource steps root res with _ | r
    · rw [hreq] at hcall
      cases hcall
    obtain ⟨conflict,granted⟩ := r
    rw [hreq] at hcall
    rcases requestResource_spec hinv hx hfree hreq with ⟨rfl,hgood⟩ | ⟨x,rfl,-,-⟩
    · obtain ⟨rfl,rfl⟩ := returned hcall
      exact .inl ⟨rfl,hgood⟩
    dsimp only at hcall
    split_ifs at hcall
    · exact ih hcall
    · obtain ⟨rfl,rfl⟩ := returned hcall
      exact .inr ⟨by simp,rfl⟩
    obtain ⟨rfl,rfl⟩ := returned hcall
    exact .inr ⟨by simp,rfl⟩

lemma releaseRegionLoop_spec (n : Id) (before after : List Id) (hinv : Inv roots h kids)
    (hkids : kids n = before++after) (hcall : h.releaseRegionLoop start stop fuel (place n before) = some h') :
    ∃ kids', Inv roots h' kids' := by
  induction fuel generalizing n before after with
  | zero => exact absurd hcall (by simp [Heap.releaseRegionLoop])
  | succ fuel ih =>
    rw [Heap.releaseRegionLoop,hinv.linked.get_place hkids] at hcall
    rcases after with _ | ⟨res,after⟩
    · rw [← some.inj hcall]
      exact ⟨kids,hinv⟩
    dsimp only [head?_cons] at hcall
    split_ifs at hcall
    · exact ih res [] (kids res) rfl hcall
    · rw [← some.inj hcall]
      exact ⟨kids,hinv⟩
    · rw [← some.inj hcall]
      exact ⟨_,hinv.unlink hkids rfl rfl fun y _ => by rw [Links.put_parent]⟩
    rw [← place_append n before res] at hcall
    exact ih n (before++[res]) after (by rw [hkids]; simp) hcall

end Calls

def InTree (h : Heap) (x : Id) : Prop :=
  ∃ n l, Chain h.links.sibling (h.links.child n) l ∧ x ∈ l

inductive Op
  | describe (x : Id) (start stop flags : Nat)
  | request (root new : Id)
  | release (old : Id)
  | insert (parent new : Id)
  | expand (root new : Id)
  | allocate (root new : Id) (size : Nat) (c : Heap.Constraint)
  | reallocate (root old : Id) (size : Nat) (c : Heap.Constraint)
  | adjust (res : Id) (start size : Nat)
  | requestRegion (parent : Id) (start n flags : Nat) (res : Option Id)
  /-- The rest of a `__request_region` that has slept, from the resource it met. -/
  | resume (conflict : Id) (flags : Nat) (res : Id)
  | releaseRegion (parent : Id) (start n : Nat)

inductive Result
  | done
  | error
  | sleeps
deriving DecidableEq

def Heap.Region.result : Heap.Region → Result
  | .granted => .done
  | .refused => .error
  | .sleeps _ => .sleeps

def ofConflict (r : Option Id × Heap) : Result × Heap :=
  (if r.1 = none then .done else .error,r.2)

def ofCode (r : Int × Heap) : Result × Heap :=
  (if r.1 = 0 then .done else .error,r.2)

def ofRegion (r : Heap.Region × Heap) : Result × Heap :=
  (r.1.result,r.2)

namespace Heap

def call (fuel : Nat) (h : Heap) : Op → Option (Result × Heap)
  | .describe x start stop flags => some (.done,h.write x ⟨none,none,none,start,stop,flags⟩)
  | .request root new => (h.requestResource fuel root new).map ofConflict
  | .release old => (h.releaseResource fuel old).map ofCode
  | .insert parent new => (h.insertResource fuel parent new).map ofConflict
  | .expand root new => (h.insertResourceExpandToFit fuel root new).map fun h => (.done,h)
  | .allocate root new size c => (h.allocateResource fuel root new size c).map ofCode
  | .reallocate root old size c => (h.reallocateResource fuel root old size c).map ofCode
  | .adjust res start size => (h.adjustResource fuel res start size).map ofCode
  | .requestRegion parent start n flags res => (h.requestRegion fuel parent start n flags res).map ofRegion
  | .resume conflict flags res => (h.regionLoop fuel res flags fuel conflict).map ofRegion
  | .releaseRegion parent start n => (h.releaseRegion fuel parent start n).map fun h => (.done,h)

end Heap

/-- What the callers see to: only a resource outside the tree is described or requested, and no root;
and no end address wraps where it is not checked. -/
def Op.Ok (roots : Id → Prop) (h : Heap) : Op → Prop
  | .describe x _ stop _ => ¬InTree h x ∧ h.links.child x = none ∧ stop < word
  | .request _ new => ¬InTree h new ∧ ¬roots new
  | .release _ => True
  | .insert parent new => ¬InTree h new ∧ ¬roots new ∧ new ≠ parent
  | .expand root new => ¬roots new ∧ new ≠ root
  | .allocate root new size c =>
    ¬roots new ∧ ((h.links.parent new = none ∧ h.links.child new = none) ∨
      (h.links.parent new = some root ∧ NoWrap h root size c))
  | .reallocate root old size c =>
    ¬roots old ∧ h.links.parent old = some root ∧ NoWrap h root size c
  | .adjust _ start size => start ≤ (start+size+word-1)%word
  | .requestRegion _ _ _ _ res => ∀ x, res = some x → ¬InTree h x ∧ ¬roots x
  | .resume _ _ res => ¬InTree h res ∧ ¬roots res
  | .releaseRegion _ _ _ => True

/-- The states of runs whose calls are all `Ok`, each with any fuel that is enough for it. -/
inductive Reaches (roots : Id → Prop) : Heap → Prop
  | start (h : Heap) : (∀ x, h.links.parent x = none) → (∀ x, h.links.child x = none) →
      (∀ x, h.links.sibling x = none) → (∀ x, h.stop x < word) → Reaches roots h
  | call {h h' : Heap} {fuel : Nat} {result : Result} (op : Op) : Reaches roots h → op.Ok roots h →
      h.call fuel op = some (result,h') → Reaches roots h'

/-- Every resource has its list of children, consistently linked; they are sorted, disjoint, not
empty and inside it; and below the roots there is no cycle. -/
def Sound (roots : Id → Prop) (h : Heap) : Prop :=
  ∃ kids, Linked h.links kids ∧ (∀ n, Nested h.start h.stop n (kids n)) ∧
    ∀ r n, roots r → Relation.ReflTransGen (fun m c => c ∈ kids m) r n →
      ¬Relation.TransGen (fun m c => c ∈ kids m) n n

/-- The tree is as it was; at most a resource outside it has been written. -/
def Unchanged (h h' : Heap) : Prop := h' = h ∨ ∃ x, ¬InTree h x ∧ SameBut h h' x

section Runs

variable {roots : Id → Prop} {h h' : Heap} {kids : Id → List Id} {fuel : Nat}

lemma Inv.sound (hinv : Inv roots h kids) : Sound roots h :=
  ⟨kids,hinv.linked,hinv.nested,fun r _ hr hreach => hinv.linked.acyclic (hinv.free r hr) hreach⟩

lemma Inv.not_mem {x : Id} (hinv : Inv roots h kids) (hx : ¬InTree h x) (n : Id) : x ∉ kids n :=
  fun hmem => hx ⟨n,kids n,hinv.linked.chain n,hmem⟩

lemma Inv.not_mem_of_parent {x : Id} (hinv : Inv roots h kids) (hx : h.links.parent x = none) (n : Id) :
    x ∉ kids n := by
  intro hmem
  have := hinv.linked.parent n x hmem
  rw [hx] at this
  exact absurd this (by simp)

def Keeps (roots : Id → Prop) (h : Heap) (r : Result × Heap) : Prop :=
  (∃ kids', Inv roots r.2 kids') ∧ (r.1 = .error → Unchanged h r.2)

lemma keeps_of_conflict {r : Option Id × Heap} (hinv : Inv roots h kids)
    (hr : (r.1 = none ∧ ∃ kids', Inv roots r.2 kids') ∨ (r.1 ≠ none ∧ r.2 = h)) : Keeps roots h (ofConflict r) := by
  obtain ⟨conflict,h'⟩ := r
  rcases hr with ⟨rfl,hgood⟩ | ⟨-,rfl⟩
  · exact ⟨hgood,fun herr => absurd herr (by simp [ofConflict])⟩
  · exact ⟨⟨kids,hinv⟩,fun _ => .inl rfl⟩

lemma keeps_of_code {r : Int × Heap} (hinv : Inv roots h kids)
    (hr : (r.1 = 0 ∧ ∃ kids', Inv roots r.2 kids') ∨ r.2 = h) : Keeps roots h (ofCode r) := by
  obtain ⟨ret,h'⟩ := r
  rcases hr with ⟨rfl,hgood⟩ | rfl
  · exact ⟨hgood,fun herr => absurd herr (by simp [ofCode])⟩
  · exact ⟨⟨kids,hinv⟩,fun _ => .inl rfl⟩

lemma keeps_reallocate {root old size : Nat} {c : Heap.Constraint} {r : Int × Heap}
    (hinv : Inv roots h kids) (hfree : ¬roots old) (hroot : h.links.parent old = some root)
    (hwrap : NoWrap h root size c)
    (hcall : h.reallocateResource fuel root old size c = some r) : Keeps roots h (ofCode r) := by
  apply keeps_of_code hinv
  rcases reallocateResource_spec hinv hroot hfree hwrap hcall with hgood | ⟨-,hsame⟩
  · exact .inl hgood
  · exact .inr hsame

lemma keeps_region {start : Heap} {parent flags : Nat} {res : Id} {r : Heap.Region × Heap}
    {kids' : Id → List Id} (hstart : Unchanged h start) (hinv : Inv roots start kids')
    (hx : ∀ n, res ∉ kids' n) (hfree : ¬roots res)
    (hcall : start.regionLoop fuel res flags fuel parent = some r) : Keeps roots h (ofRegion r) := by
  obtain ⟨result,h'⟩ := r
  rcases regionLoop_spec hinv hx hfree hcall with ⟨rfl,hgood⟩ | ⟨-,rfl⟩
  · exact ⟨hgood,fun herr => absurd herr (by simp [ofRegion,Heap.Region.result])⟩
  · exact ⟨⟨kids',hinv⟩,fun _ => hstart⟩

lemma call_keeps {op : Op} {r : Result × Heap} (hinv : Inv roots h kids) (hok : op.Ok roots h)
    (hcall : h.call fuel op = some r) : Keeps roots h r := by
  cases op with
  | describe x start stop flags =>
    obtain ⟨hx,hleaf,hbound⟩ := hok
    rw [← some.inj hcall]
    exact ⟨⟨_,(hinv.write _ (hinv.not_mem hx) rfl hbound).1⟩,fun herr => absurd herr (by simp)⟩
  | request root new =>
    obtain ⟨r,hrun,rfl⟩ := map_eq_some_iff.mp hcall
    apply keeps_of_conflict hinv
    rcases requestResource_spec hinv (hinv.not_mem hok.1) hok.2 hrun with hgood | ⟨x,hx,hsame,-⟩
    · exact .inl hgood
    · exact .inr ⟨by rw [hx]; simp,hsame⟩
  | release old =>
    obtain ⟨r,hrun,rfl⟩ := map_eq_some_iff.mp hcall
    apply keeps_of_code hinv
    rcases releaseResource_spec hinv hrun with ⟨hret,kids',hgood,-⟩ | ⟨-,hsame,-⟩
    · exact .inl ⟨hret,kids',hgood⟩
    · exact .inr hsame
  | insert parent new =>
    obtain ⟨r,hrun,rfl⟩ := map_eq_some_iff.mp hcall
    exact keeps_of_conflict hinv (insertLoop_spec hinv (hinv.not_mem hok.1) hok.2.1 hok.2.2 hrun)
  | expand root new =>
    obtain ⟨r,hrun,rfl⟩ := map_eq_some_iff.mp hcall
    refine ⟨?_,fun herr => absurd herr (by simp)⟩
    unfold Heap.insertResourceExpandToFit at hrun
    split at hrun
    · next hparent => exact expandLoop_spec hinv (hinv.not_mem_of_parent hparent) hok.1 hok.2 hrun
    next hparent =>
    rw [← some.inj hrun]
    exact ⟨kids,hinv⟩
  | allocate root new size c =>
    obtain ⟨r,hrun,rfl⟩ := map_eq_some_iff.mp hcall
    obtain ⟨hfree,⟨hparent,hleaf⟩ | ⟨hroot,hwrap⟩⟩ := hok
    · have hx := hinv.not_mem_of_parent hparent
      rcases allocateResource_spec hinv hx hfree hparent hleaf hrun with hgood | ⟨-,hsame,hgood⟩
      · exact keeps_of_code hinv (.inl hgood)
      refine ⟨hgood,fun _ => .inr ⟨new,?_,hsame⟩⟩
      rintro ⟨n,l,hchain,hmem⟩
      rw [hchain.eq (hinv.linked.chain n)] at hmem
      exact hx n hmem
    have hne : h.links.parent new ≠ none := by
      rw [hroot]
      simp
    unfold Heap.allocateResource at hrun
    rw [if_pos hne] at hrun
    exact keeps_reallocate hinv hfree hroot hwrap hrun
  | reallocate root old size c =>
    obtain ⟨r,hrun,rfl⟩ := map_eq_some_iff.mp hcall
    exact keeps_reallocate hinv hok.1 hok.2.1 hok.2.2 hrun
  | adjust res start size =>
    obtain ⟨r,hrun,rfl⟩ := map_eq_some_iff.mp hcall
    apply keeps_of_code hinv
    rcases adjustResource_spec hinv hok hrun with ⟨hret,hgood⟩ | ⟨-,hsame⟩
    · exact .inl ⟨hret,kids,hgood⟩
    · exact .inr hsame
  | requestRegion parent start n flags res =>
    obtain ⟨r,hrun,rfl⟩ := map_eq_some_iff.mp hcall
    rcases res with _ | res
    · rw [← some.inj hrun]
      exact ⟨⟨kids,hinv⟩,fun _ => .inl rfl⟩
    obtain ⟨hx,hfree⟩ := hok res rfl
    obtain ⟨hinv',hx'⟩ := hinv.write ⟨none,none,none,start,(start+n+word-1)%word,busy ||| flags⟩
      (hinv.not_mem hx) rfl (mod_lt _ (by decide))
    exact keeps_region (.inr ⟨res,hx,SameBut.write h res _⟩) hinv' hx' hfree hrun
  | resume conflict flags res =>
    obtain ⟨r,hrun,rfl⟩ := map_eq_some_iff.mp hcall
    exact keeps_region (.inl rfl) hinv (hinv.not_mem hok.1) hok.2 hrun
  | releaseRegion parent start n =>
    obtain ⟨r,hrun,rfl⟩ := map_eq_some_iff.mp hcall
    exact ⟨releaseRegionLoop_spec parent [] (kids parent) hinv rfl hrun,fun herr => absurd herr (by simp)⟩

lemma Reaches.inv (hreach : Reaches roots h) : ∃ kids, Inv roots h kids := by
  induction hreach with
  | start h hparent hchild hsibling hbound =>
    refine ⟨fun _ => [],⟨hchild,by simp,by simp⟩,?_,by simp,hbound⟩
    intro n
    exact ⟨by simp,List.Pairwise.nil⟩
  | call op _ hok hcall ih =>
    obtain ⟨kids,hinv⟩ := ih
    exact (call_keeps hinv hok hcall).1

/-- In every run whose calls are `Ok` the tree is sound in every state, and a next call that is `Ok`
keeps it sound, and does not change it if it reports an error. -/
theorem resource_tree_sound (hreach : Reaches roots h) : Sound roots h ∧ ∀ op : Op, op.Ok roots h → ∀ fuel result h',
      h.call fuel op = some (result,h') → Sound roots h' ∧ (result = .error → Unchanged h h') := by
  obtain ⟨kids,hinv⟩ := hreach.inv
  refine ⟨hinv.sound,?_⟩
  intro op hok fuel result h' hcall
  obtain ⟨⟨kids',hinv'⟩,herr⟩ := call_keeps hinv hok hcall
  exact ⟨hinv'.sound,herr⟩

end Runs

def described : Heap where
  links := ⟨fun _ => none,fun _ => none,fun _ => none⟩
  start := fun x => if x = 0 then 0 else 0x100
  stop := fun x => if x = 0 then 0xffff else 0x1ff
  flags := fun _ => 0

def requested : Heap := {described with links := described.links.link (.child 0) 1 none 0}

lemma described_request : described.call 2 (.request 0 1) = some (.done,requested) := rfl

lemma reaches_requested : Reaches (fun x => x = 0) requested := by
  have hstart : Reaches (fun x => x = 0) described :=
    Reaches.start described (fun _ => rfl) (fun _ => rfl) (fun _ => rfl) fun x => by
      simp only [described,word]
      split <;> omega
  refine Reaches.call (.request 0 1) hstart ⟨?_,by decide⟩ described_request
  rintro ⟨n,l,hchain,hmem⟩
  cases l with
  | nil => exact absurd hmem List.not_mem_nil
  | cons x l => exact absurd hchain.1 (by simp [described])

lemma requested_noWrap : NoWrap requested 0 0x400 ⟨0,0xffff,0x100⟩ := by
  refine ⟨by decide,?_⟩
  rintro low (rfl | ⟨x,-,rfl⟩)
  · decide
  by_cases hx : x = 0
  · subst hx
    decide
  · rw [show requested.stop x = 0x1ff from if_neg hx]
    decide

/-- Moving a resource in its root, and letting it grow. -/
theorem resource_tree_sound_adjust :
    (∃ h', requested.call 2 (.adjust 1 0x200 0x100) = some (.done,h') ∧ Sound (fun x => x = 0) h') ∧
      ∃ h', requested.call 2 (.reallocate 0 1 0x400 ⟨0,0xffff,0x100⟩) = some (.done,h') ∧
        Sound (fun x => x = 0) h' := by
  have hadjust : Op.Ok (fun x => x = 0) requested (.adjust 1 0x200 0x100) := by
    show 0x200 ≤ (0x200+0x100+word-1)%word
    decide
  have hgrow : Op.Ok (fun x => x = 0) requested (.reallocate 0 1 0x400 ⟨0,0xffff,0x100⟩) :=
    ⟨by decide,rfl,requested_noWrap⟩
  have hsound := (resource_tree_sound reaches_requested).2
  refine ⟨⟨requested.setRange 1 0x200 0x2ff,rfl,?_⟩,⟨requested.setRange 1 0 0x3ff,rfl,?_⟩⟩
  · exact (hsound _ hadjust 2 .done _ rfl).1
  · exact (hsound _ hgrow 2 .done _ rfl).1

/-- A resource that is adjusted to size zero ends before it begins. -/
theorem adjust_to_nothing_unsound : Reaches (fun x => x = 0) requested ∧
      ∃ h', requested.call 2 (.adjust 1 0x100 0) = some (.done,h') ∧ h'.links.child 0 = some 1 ∧
        h'.stop 1 < h'.start 1 ∧ ¬Sound (fun x => x = 0) h' := by
  refine ⟨reaches_requested,requested.setRange 1 0x100 0xff,rfl,rfl,by decide,?_⟩
  rintro ⟨kids,hlinked,hnested,-⟩
  have hfirst : (kids 0).head? = some 1 := (hlinked.chain 0).first_eq.symm
  have hin := (hnested 0).inside 1 (List.mem_of_mem_head? hfirst)
  exact absurd hin.2.1 (by decide)

end LinuxToradex.Resource

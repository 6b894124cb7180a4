import LinuxToradex.Resource.Tree

/-! `Inv` gives every resource its list of children, also outside the tree, so that a resource keeps its
children when it is released and requested again. -/
namespace LinuxToradex.Resource
open Option List Function Forest Prod

lemma returned {α β : Type} {a a' : α} {c c' : β} (h : some (a,c) = some (a',c')) : a' = a ∧ c' = c := by
  obtain ⟨rfl,rfl⟩ := mk.inj (some.inj h)
  exact ⟨rfl,rfl⟩

variable {start stop : Id → Nat} {n x old last first c prev : Id} {before after l run : List Id}
    {result : Option Id} {t : Links Id}

structure Nested (start stop : Id → Nat) (n : Id) (l : List Id) : Prop where
  inside : ∀ c ∈ l, start n ≤ start c ∧ start c ≤ stop c ∧ stop c ≤ stop n
  sorted : l.Pairwise fun x y => stop x < start y

structure Inv (roots : Id → Prop) (h : Heap) (kids : Id → List Id) : Prop where
  linked : Linked h.links kids
  nested : ∀ n, Nested h.start h.stop n (kids n)
  free : ∀ r, roots r → ∀ n, r ∉ kids n
  bound : ∀ x, h.stop x < word

lemma Nested.insert (h : Nested start stop n (before++after)) (hlow : start n ≤ start x)
    (hle : start x ≤ stop x) (hhigh : stop x ≤ stop n) (hbefore : ∀ c ∈ before, stop c < start x)
    (hafter : ∀ c ∈ after, stop x < start c) : Nested start stop n (before++x::after) := by
  obtain ⟨hb,ha,hcross⟩ := pairwise_append.mp h.sorted
  constructor
  · obtain ⟨hin,hin'⟩ := forall_mem_append.mp h.inside
    exact forall_mem_append.mpr ⟨hin,forall_mem_cons.mpr ⟨⟨hlow,hle,hhigh⟩,hin'⟩⟩
  refine pairwise_append.mpr ⟨hb,pairwise_cons.mpr ⟨hafter,ha⟩,?_⟩
  exact fun c hc => forall_mem_cons.mpr ⟨hbefore c hc,hcross c hc⟩

lemma Nested.sublist {l' : List Id} (h : Nested start stop n l) (hsub : List.Sublist l' l) : Nested start stop n l' :=
  ⟨fun c hc => h.inside c (hsub.subset hc),h.sorted.sublist hsub⟩

lemma Nested.above {a : Nat} (h : Nested start stop n (before++x::after)) (hx : a < start x) :
    ∀ c ∈ x::after, a < start c := by
  intro c hc
  obtain ⟨-,ha,-⟩ := pairwise_append.mp h.sorted
  have hle := (h.inside x (mem_append_right _ mem_cons_self)).2.1
  rcases mem_cons.mp hc with rfl | hc
  · exact hx
  have hlt := rel_of_pairwise_cons ha hc
  omega

section Functions

variable {roots : Id → Prop} {h h' : Heap} {kids : Id → List Id} {root new : Id} {fuel : Nat}

/-- A resource that is in no list may be in any state without children. -/
theorem Inv.scratch (hinv : Inv roots h kids) (hx : ∀ n, x ∉ kids n)
    (hparent : ∀ y ≠ x, h'.links.parent y = h.links.parent y) (hchild : ∀ y ≠ x, h'.links.child y = h.links.child y)
    (hsibling : ∀ y ≠ x, h'.links.sibling y = h.links.sibling y)
    (hstart : ∀ y ≠ x, h'.start y = h.start y) (hstop : ∀ y ≠ x, h'.stop y = h.stop y)
    (hleaf : h'.links.child x = none) (hbound : h'.stop x < word) : Inv roots h' (update kids x []) := by
  have hsame : ∀ n, ∀ c ∈ kids n, c ≠ x := fun n c hc => ne_of_mem_of_not_mem hc (hx n)
  constructor
  · apply hinv.linked.edit
    intro m
    by_cases hm : m = x
    · subst hm
      right
      rw [update_self]
      exact ⟨hleaf,by simp,nodup_nil⟩
    left
    refine ⟨update_of_ne hm _ _,hchild m hm,?_⟩
    intro y hy
    exact ⟨hsibling y (hsame m y hy),hparent y (hsame m y hy)⟩
  · refine (forall_update_iff _ (Nested h'.start h'.stop)).mpr ⟨⟨by simp,List.Pairwise.nil⟩,fun n hn => ?_⟩
    have hold := hinv.nested n
    constructor
    · intro c hc
      have hcx := hsame n c hc
      rw [hstart n hn,hstop n hn,hstart c hcx,hstop c hcx]
      exact hold.inside c hc
    apply hold.sorted.imp_of_mem
    intro c d hc hd hlt
    rw [hstop c (hsame n c hc),hstart d (hsame n d hd)]
    exact hlt
  · intro r hr
    exact (forall_update_iff _ fun _ l => r ∉ l).mpr ⟨not_mem_nil,fun n _ => hinv.free r hr n⟩
  intro y
  by_cases hy : y = x
  · subst hy
    exact hbound
  rw [hstop y hy]
  exact hinv.bound y

/-- Another range for a resource: its children are in it, and so are its place in its list. -/
theorem Inv.resize {start stop : Nat} (hinv : Inv roots h kids) (hle : start ≤ stop)
    (hbound : stop < word) (hkids : ∀ c ∈ kids x, start ≤ h.start c ∧ h.stop c ≤ stop)
    (hplace : ∀ n before after, kids n = before++x::after → (n ≠ x → h.start n ≤ start ∧ stop ≤ h.stop n) ∧
      (∀ c ∈ before, h.stop c < start) ∧ ∀ c ∈ after, stop < h.start c) :
    Inv roots (h.setRange x start stop) kids := by
  have hstart : ∀ y ≠ x, (h.setRange x start stop).start y = h.start y :=
    fun y hy => update_of_ne hy _ _
  have hstop : ∀ y ≠ x, (h.setRange x start stop).stop y = h.stop y :=
    fun y hy => update_of_ne hy _ _
  have hstart' : (h.setRange x start stop).start x = start := update_self _ _ _
  have hstop' : (h.setRange x start stop).stop x = stop := update_self _ _ _
  refine ⟨hinv.linked,?_,hinv.free,?_⟩
  · intro n
    have hold := hinv.nested n
    constructor
    · intro c hc
      obtain ⟨h1,h2,h3⟩ := hold.inside c hc
      by_cases hcx : c = x
      · subst hcx
        rw [hstart',hstop']
        by_cases hn : n = c
        · subst hn
          rw [hstart',hstop']
          exact ⟨le_rfl,hle,le_rfl⟩
        obtain ⟨before,after,heq⟩ := append_of_mem hc
        obtain ⟨hin,-,-⟩ := hplace n before after heq
        rw [hstart n hn,hstop n hn]
        exact ⟨(hin hn).1,hle,(hin hn).2⟩
      rw [hstart c hcx,hstop c hcx]
      by_cases hn : n = x
      · subst hn
        rw [hstart',hstop']
        exact ⟨(hkids c hc).1,h2,(hkids c hc).2⟩
      rw [hstart n hn,hstop n hn]
      exact ⟨h1,h2,h3⟩
    by_cases hmem : x ∈ kids n
    · obtain ⟨before,after,heq⟩ := append_of_mem hmem
      obtain ⟨-,hbefore,hafter⟩ := hplace n before after heq
      have hsorted := hold.sorted
      have hnodup := hinv.linked.nodup n
      rw [heq] at hsorted hnodup ⊢
      obtain ⟨hb,ha,hcross⟩ := pairwise_append.mp hsorted
      obtain ⟨-,hnx,hapart⟩ := nodup_append.mp hnodup
      have hbx : ∀ c ∈ before, c ≠ x := fun c hc => hapart c hc x mem_cons_self
      have hax : ∀ c ∈ after, c ≠ x := fun c hc heq => (nodup_cons.mp hnx).1 (heq ▸ hc)
      refine pairwise_append.mpr ⟨?_,pairwise_cons.mpr ⟨?_,?_⟩,?_⟩
      · apply hb.imp_of_mem
        intro c d hc hd hlt
        rw [hstop c (hbx c hc),hstart d (hbx d hd)]
        exact hlt
      · intro c hc
        rw [hstop',hstart c (hax c hc)]
        exact hafter c hc
      · apply ha.of_cons.imp_of_mem
        intro c d hc hd hlt
        rw [hstop c (hax c hc),hstart d (hax d hd)]
        exact hlt
      intro c hc d hd
      rw [hstop c (hbx c hc)]
      rcases mem_cons.mp hd with rfl | hd
      · rw [hstart']
        exact hbefore c hc
      rw [hstart d (hax d hd)]
      exact hcross c hc d (mem_cons_of_mem _ hd)
    apply hold.sorted.imp_of_mem
    intro c d hc hd hlt
    rw [hstop c (ne_of_mem_of_not_mem hc hmem),hstart d (ne_of_mem_of_not_mem hd hmem)]
    exact hlt
  intro y
  by_cases hy : y = x
  · rw [hy,hstop']
    exact hbound
  rw [hstop y hy]
  exact hinv.bound y

structure Conflict (h : Heap) (kids : Id → List Id) (root new conflict : Id) : Prop where
  low : h.start root ≤ h.start new
  valid : h.start new ≤ h.stop new
  high : h.stop new ≤ h.stop root
  found : ∃ before after, kids root = before++conflict::after ∧
    (∀ c ∈ before, h.stop c < h.start new) ∧ h.start conflict ≤ h.stop new ∧
      h.start new ≤ h.stop conflict

lemma Inv.link (hinv : Inv roots h kids) (hx : ∀ n, new ∉ kids n) (hfree : ¬roots new)
    (hkids : kids root = before++after) (hlow : h.start root ≤ h.start new)
    (hle : h.start new ≤ h.stop new) (hhigh : h.stop new ≤ h.stop root)
    (hbefore : ∀ c ∈ before, h.stop c < h.start new) (hafter : ∀ c ∈ after, h.stop new < h.start c) :
    Inv roots {h with links := h.links.link (place root before) new after.head? root}
      (update kids root (before++new::after)) := by
  refine ⟨hinv.linked.link hkids hx,?_,?_,hinv.bound⟩
  · refine (forall_update_iff _ (Nested h.start h.stop)).mpr ⟨?_,fun n _ => hinv.nested n⟩
    have hold := hinv.nested root
    rw [hkids] at hold
    exact hold.insert hlow hle hhigh hbefore hafter
  intro r hr
  refine (forall_update_iff _ fun _ l => r ∉ l).mpr ⟨?_,fun n _ => hinv.free r hr n⟩
  have hold := hinv.free r hr root
  rw [hkids] at hold
  have hne : r ≠ new := fun heq => hfree (heq ▸ hr)
  simpa [hne] using hold

def Granted (roots : Id → Prop) (h : Heap) (kids : Id → List Id) (root new : Id) (h' : Heap) : Prop :=
  ∃ before after links, kids root = before++after ∧ h' = {h with links := links} ∧
    Inv roots h' (update kids root (before++new::after))

lemma requestLoop_spec (before after : List Id) (hinv : Inv roots h kids) (hx : ∀ n, new ∉ kids n)
    (hfree : ¬roots new) (hkids : kids root = before++after) (hlow : h.start root ≤ h.start new)
    (hle : h.start new ≤ h.stop new) (hhigh : h.stop new ≤ h.stop root)
    (hbefore : ∀ c ∈ before, h.stop c < h.start new)
    (hcall : h.requestLoop root new fuel (place root before) = some (result,h')) :
    (result = none ∧ Granted roots h kids root new h') ∨
      ∃ conflict, result = some conflict ∧ h' = h ∧ Conflict h kids root new conflict := by
  induction fuel generalizing before after with
  | zero => exact absurd hcall (by simp [Heap.requestLoop])
  | succ fuel ih =>
    rw [Heap.requestLoop,hinv.linked.get_place hkids] at hcall
    rcases after with _ | ⟨tmp,after⟩
    · obtain ⟨rfl,rfl⟩ := returned hcall
      have hlink := hinv.link hx hfree hkids hlow hle hhigh hbefore (by simp)
      exact .inl ⟨rfl,_,_,_,hkids,rfl,hlink⟩
    have hnested := hinv.nested root
    rw [hkids] at hnested
    dsimp only [head?_cons] at hcall
    split at hcall
    · next habove =>
      obtain ⟨rfl,rfl⟩ := returned hcall
      have hlink := hinv.link hx hfree hkids hlow hle hhigh hbefore (hnested.above habove)
      exact .inl ⟨rfl,_,_,_,hkids,rfl,hlink⟩
    next habove =>
    split at hcall
    · next hbelow =>
      rw [← place_append root before tmp] at hcall
      refine ih (before++[tmp]) after (by rw [hkids]; simp) ?_ hcall
      exact forall_mem_append.mpr ⟨hbefore,forall_mem_singleton.mpr hbelow⟩
    next hbelow =>
    have heq := mk.inj (some.inj hcall)
    exact .inr ⟨tmp,heq.1.symm,heq.2.symm,hlow,hle,hhigh,before,after,hkids,hbefore, by omega,by omega⟩

lemma requestResource_spec (hinv : Inv roots h kids) (hx : ∀ n, new ∉ kids n)
    (hfree : ¬roots new) (hcall : h.requestResource fuel root new = some (result,h')) :
    (result = none ∧ ∃ kids', Inv roots h' kids') ∨ ∃ conflict, result = some conflict ∧ h' = h ∧
        (conflict = root ∨ Conflict h kids root new conflict) := by
  unfold Heap.requestResource at hcall
  split_ifs at hcall with h1 h2 h3
  iterate 3
    · obtain ⟨rfl,rfl⟩ := returned hcall
      exact .inr ⟨root,rfl,rfl,.inl rfl⟩
  rcases requestLoop_spec [] _ hinv hx hfree rfl (by omega) (by omega) (by omega)
    (by simp) hcall with ⟨hresult,_,_,_,-,-,hinv'⟩ | ⟨conflict,hresult,hsame,hconflict⟩
  · exact .inl ⟨hresult,_,hinv'⟩
  · exact .inr ⟨conflict,hresult,hsame,.inr hconflict⟩

lemma Inv.unlink (hinv : Inv roots h kids) (hkids : kids root = before++old::after)
    (hchild : t.child = (h.links.put (place root before) (h.links.sibling old)).child)
    (hsibling : t.sibling = (h.links.put (place root before) (h.links.sibling old)).sibling)
    (hparent : ∀ y ≠ old, t.parent y = h.links.parent y) :
    Inv roots {h with links := t} (update kids root (before++after)) := by
  have hsub : List.Sublist (before++after) (kids root) := by
    rw [hkids]
    exact List.Sublist.append_left (sublist_cons_self old after) before
  refine ⟨hinv.linked.unlink hkids hchild hsibling hparent,?_,?_,hinv.bound⟩
  · refine (forall_update_iff _ (Nested h.start h.stop)).mpr ⟨?_,fun n _ => hinv.nested n⟩
    exact (hinv.nested root).sublist hsub
  intro r hr
  refine (forall_update_iff _ fun _ l => r ∉ l).mpr ⟨?_,fun n _ => hinv.free r hr n⟩
  exact fun hmem => hinv.free r hr root (hsub.subset hmem)

lemma releaseLoop_spec (before after : List Id) {ret : Int} (hinv : Inv roots h kids)
    (hkids : kids root = before++after) (hcall : h.releaseLoop old fuel (place root before) = some (ret,h')) :
    (ret = 0 ∧ ∃ before after, kids root = before++old::after ∧
        Inv roots h' (update kids root (before++after))) ∨ (ret = einval ∧ h' = h ∧ old ∉ after) := by
  induction fuel generalizing before after with
  | zero => exact absurd hcall (by simp [Heap.releaseLoop])
  | succ fuel ih =>
    rw [Heap.releaseLoop,hinv.linked.get_place hkids] at hcall
    rcases after with _ | ⟨tmp,after⟩
    · obtain ⟨rfl,rfl⟩ := returned hcall
      exact .inr ⟨rfl,rfl,not_mem_nil⟩
    dsimp only [head?_cons] at hcall
    by_cases hold : tmp = old
    · subst hold
      rw [if_pos rfl] at hcall
      have heq := mk.inj (some.inj hcall)
      refine .inl ⟨heq.1.symm,before,after,hkids,?_⟩
      rw [← heq.2]
      refine hinv.unlink (t := Links.mk _ _ _) hkids rfl rfl ?_
      intro y hy
      dsimp only
      rw [update_of_ne hy,Links.put_parent]
    rw [if_neg hold,← place_append root before tmp] at hcall
    rcases ih (before++[tmp]) after (by rw [hkids]; simp) hcall with hgood | ⟨hret,hsame,hnot⟩
    · exact .inl hgood
    refine .inr ⟨hret,hsame,?_⟩
    rw [mem_cons,not_or]
    exact ⟨fun heq => hold heq.symm,hnot⟩

/-- The siblings that the new resource covers. -/
theorem runLoop_spec {next : Id} (before after : List Id) (hinv : Inv roots h kids)
    (hkids : kids root = before++next::after) (hcall : h.runLoop new fuel next = some (.inr last)) :
    ∃ run rest, next::after = run++last::rest ∧
      (∀ c ∈ run++[last], h.start new ≤ h.start c ∧ h.stop c ≤ h.stop new) ∧
        ∀ c ∈ rest, h.stop new < h.start c := by
  induction fuel generalizing next before after with
  | zero => exact absurd hcall (by simp [Heap.runLoop])
  | succ fuel ih =>
    have hchain := hinv.linked.chain root
    have hnested := hinv.nested root
    rw [hkids] at hchain hnested
    rw [Heap.runLoop] at hcall
    split at hcall
    · next hpart => exact absurd (some.inj hcall) Sum.inl_ne_inr
    next hpart =>
    rw [hchain.sibling_eq] at hcall
    have hnext : ∀ c ∈ []++[next], h.start new ≤ h.start c ∧ h.stop c ≤ h.stop new := by
      intro c hc
      rw [nil_append,mem_singleton] at hc
      subst hc
      omega
    rcases after with _ | ⟨s,after⟩
    · have heq := Sum.inr.inj (some.inj hcall)
      subst heq
      exact ⟨[],[],rfl,hnext,by simp⟩
    dsimp only [head?_cons] at hcall
    split at hcall
    · next habove =>
      have heq := Sum.inr.inj (some.inj hcall)
      subst heq
      have hnested' : Nested h.start h.stop root ((before++[next])++s::after) := by
        rw [append_assoc]
        exact hnested
      exact ⟨[],s::after,rfl,hnext,hnested'.above habove⟩
    next habove =>
    obtain ⟨run,rest,heq,hrun,hrest⟩ :=
      ih (before++[next]) after (by rw [hkids]; simp) hcall
    exact ⟨next::run,rest,by rw [heq]; rfl,forall_mem_cons.mpr ⟨hnext _ (mem_singleton_self _),hrun⟩,hrest⟩

lemma adoptLoop_spec {t' : Links Id} {first : Option Id}
    (hcall : Heap.adoptLoop new fuel t first = some t') (hchain : Chain t.sibling first l) :
    t'.child = t.child ∧ t'.sibling = t.sibling ∧ (∀ c ∈ l, t'.parent c = some new) ∧
      ∀ c, c ∉ l → t'.parent c = t.parent c := by
  induction fuel generalizing t first l with
  | zero => exact absurd hcall (by simp [Heap.adoptLoop])
  | succ fuel ih =>
    rcases l with _ | ⟨x,l⟩
    · rw [show first = none from hchain,Heap.adoptLoop] at hcall
      have heq := some.inj hcall
      subst heq
      exact ⟨rfl,rfl,by simp,fun _ _ => rfl⟩
    rw [hchain.1,Heap.adoptLoop] at hcall
    have hrest : Chain (Links.mk (update t.parent x (some new)) t.child t.sibling).sibling (t.sibling x) l := hchain.2
    obtain ⟨hchild,hsibling,hin,hout⟩ := ih hcall hrest
    refine ⟨hchild,hsibling,?_,?_⟩
    · intro c hc
      by_cases hl : c ∈ l
      · exact hin c hl
      have hcx : c = x := (mem_cons.mp hc).resolve_right hl
      subst hcx
      rw [hout c hl]
      exact update_self c _ _
    intro c hc
    rw [mem_cons,not_or] at hc
    rw [hout c hc.2]
    exact update_of_ne hc.1 _ _

/-- The sibling before `x`. -/
theorem prevLoop_spec (hchain : Chain t.sibling (some c) l) (hcall : Heap.prevLoop t x fuel c = some prev) :
    ∃ before after, l = before++prev::x::after := by
  induction fuel generalizing c l with
  | zero => exact absurd hcall (by simp [Heap.prevLoop])
  | succ fuel ih =>
    rcases l with _ | ⟨y,l⟩
    · exact absurd hchain (by simp [Forest.Chain])
    have hcy : c = y := some.inj hchain.1
    subst hcy
    have hrest := hchain.2
    rw [Heap.prevLoop] at hcall
    rcases hs : t.sibling c with _ | s
    · rw [hs] at hcall
      cases hcall
    rw [hs] at hcall hrest
    dsimp only at hcall
    split at hcall
    · next hsx =>
      have heq := some.inj hcall
      subst heq hsx
      rcases l with _ | ⟨z,l⟩
      · exact absurd hrest (by simp [Forest.Chain])
      have hsz : s = z := some.inj hrest.1
      subst hsz
      exact ⟨[],l,rfl⟩
    next hsx =>
    obtain ⟨before,after,heq⟩ := ih hrest hcall
    exact ⟨c::before,after,by rw [heq]; rfl⟩

/-- The resource takes the place of the siblings it covers. -/
theorem Inv.adopt {rest : List Id} (hinv : Inv roots h kids) (hfree : ¬roots new)
    (hkids : kids root = before++((run++[last])++rest)) (hlow : h.start root ≤ h.start new)
    (hle : h.start new ≤ h.stop new) (hhigh : h.stop new ≤ h.stop root)
    (hbefore : ∀ c ∈ before, h.stop c < h.start new)
    (hcovered : ∀ c ∈ run++[last], h.start new ≤ h.start c ∧ h.stop c ≤ h.stop new)
    (habove : ∀ c ∈ rest, h.stop new < h.start c)
    (hlinked : Linked t (update (update kids root (before++new::rest)) new (run++[last]))) :
    ∃ kids', Inv roots {h with links := t} kids' := by
  have hold := hinv.nested root
  have hroots := hinv.free
  have hsub : List.Sublist (before++rest) (before++((run++[last])++rest)) :=
    List.Sublist.append_left (sublist_append_right _ _) before
  have hsubRun : List.Sublist (run++[last]) (before++((run++[last])++rest)) :=
    (sublist_append_left _ _).trans (sublist_append_right _ _)
  rw [hkids] at hold
  refine ⟨_,hlinked,?_,?_,hinv.bound⟩
  · have hlist := (forall_update_iff _ (Nested h.start h.stop)).mpr
      ⟨(hold.sublist hsub).insert hlow hle hhigh hbefore habove,fun n _ => hinv.nested n⟩
    refine (forall_update_iff _ (Nested h.start h.stop)).mpr ⟨⟨fun c hc => ?_,?_⟩,fun n _ => hlist n⟩
    · exact ⟨(hcovered c hc).1,(hold.inside c (hsubRun.subset hc)).2.1,(hcovered c hc).2⟩
    · exact hold.sorted.sublist hsubRun
  intro r hr
  have hout := hroots r hr root
  rw [hkids] at hout
  have hne : r ≠ new := fun heq => hfree (heq ▸ hr)
  have hlist : ∀ n, r ∉ update kids root (before++new::rest) n := by
    refine (forall_update_iff _ fun _ l => r ∉ l).mpr ⟨fun hmem => ?_,fun n _ => hroots r hr n⟩
    exact hout (hsub.subset (by simpa [hne] using hmem))
  refine (forall_update_iff _ fun _ l => r ∉ l).mpr ⟨?_,fun n _ => hlist n⟩
  exact fun hmem => hout (hsubRun.subset hmem)

lemma place_of_prev (hchain : Chain t.sibling (some c) (before++(run++[last])))
    (hnodup : (before++(run++[last])).Nodup) (hfirst : (run++[last]).head? = some first)
    (hcall : Heap.prevLoop t first fuel c = some prev) : place root before = .sibling prev := by
  obtain ⟨b,a,heq⟩ := prevLoop_spec hchain hcall
  obtain ⟨tail,htail⟩ := head?_eq_some_iff.mp hfirst
  rw [htail] at heq hnodup
  have heq' : before++first::tail = (b++[prev])++first::a := by
    rw [heq]
    simp
  obtain ⟨-,htailNodup,hapart⟩ := nodup_append.mp hnodup
  have hnot : first ∉ before := fun hmem => hapart first hmem first mem_cons_self rfl
  have hnot' : first ∉ tail := (nodup_cons.mp htailNodup).1
  have hbefore : before = b++[prev] :=
    ((append_cons_inj_of_notMem hnot hnot').mp heq').1
  rw [hbefore,place_append]

/-- `__insert_resource`, over the children of `root` that are in the way. -/
theorem insertOver_spec (hinv : Inv roots h kids) (hx : ∀ n, new ∉ kids n) (hfree : ¬roots new)
    (hne : new ≠ root) (hconflict : Conflict h kids root new first)
    (hcall : h.insertOver fuel root first new = some (result,h')) :
    (result = none ∧ ∃ kids', Inv roots h' kids') ∨ (result ≠ none ∧ h' = h) := by
  obtain ⟨before,after,hkids,hbefore,-,-⟩ := hconflict.found
  unfold Heap.insertOver at hcall
  rcases hrun : h.runLoop new fuel first with _ | next
  · rw [hrun] at hcall
    cases hcall
  rw [hrun] at hcall
  rcases next with next | last
  · obtain ⟨rfl,rfl⟩ := returned hcall
    exact .inr ⟨by simp,rfl⟩
  obtain ⟨run,rest,hsplit,hcovered,habove⟩ := runLoop_spec before after hinv hkids hrun
  have hkids' : kids root = before++((run++[last])++rest) := by
    rw [hkids,hsplit]
    simp
  have hfirst : (run++[last]).head? = some first := by
    have hhead : (run++last::rest).head? = (run++[last]).head? := by
      cases run <;> rfl
    rw [← hhead,← hsplit]
    rfl
  have hnodup : (before++(run++[last])).Nodup := by
    have hall := hinv.linked.nodup root
    rw [hkids',← append_assoc] at hall
    exact (nodup_append.mp hall).1
  have hover := hinv.linked.over_chain hkids' hx hne (some first)
  have hnewRun : new ∉ run++[last] := by
    have hout := hx root
    rw [hkids'] at hout
    exact fun hmem => hout (mem_append_right _ (mem_append_left _ hmem))
  have hrunChain := hover.rest
  rw [hfirst] at hrunChain
  dsimp only at hcall
  cases hadopt : Heap.adoptLoop new fuel (Links.mk (update h.links.parent new (some root))
      (update h.links.child new (some first))
      (update (update h.links.sibling new (h.links.sibling last)) last none))
      (some first) with
  | none =>
    rw [hadopt] at hcall
    cases hcall
  | some t =>
    rw [hadopt] at hcall
    obtain ⟨hchild,hsibling,hin,hout⟩ := adoptLoop_spec hadopt hrunChain
    have hinserted : ∀ p, place root before = p → ∃ kids', Inv roots {h with links := t.put p (some new)} kids' := by
      rintro p rfl
      refine hinv.adopt hfree hkids' hconflict.low hconflict.valid hconflict.high hbefore hcovered habove ?_
      apply hinv.linked.adopt hkids' hx hne
      · rw [hfirst]
        exact Links.put_child_congr _ _ hchild
      · rw [hfirst]
        exact Links.put_sibling_congr _ _ hsibling
      · intro c hc
        rw [Links.put_parent]
        exact hin c hc
      · rw [Links.put_parent,hout new hnewRun]
        exact update_self new _ _
      intro c hc hcn
      rw [Links.put_parent,hout c hc]
      exact update_of_ne hcn _ _
    dsimp only at hcall
    rcases hc : t.child root with _ | c
    · rw [hc] at hcall
      cases hcall
    rw [hc] at hcall
    dsimp only at hcall
    have hlist : Chain t.sibling (some c) (before++(run++[last])) := by
      rw [← hc,hchild,hsibling]
      exact hover
    split at hcall
    · next hcf =>
      have heq := mk.inj (some.inj hcall)
      have hnil : place root before = .child root := by
        rcases before with _ | ⟨b,before⟩
        · rfl
        have hcb : c = b := some.inj hlist.1
        have hmem : first ∈ run++[last] := mem_of_mem_head? hfirst
        exact absurd (hcb.symm.trans hcf) ((nodup_append.mp hnodup).2.2 b mem_cons_self first hmem)
      rw [← heq.2]
      exact .inl ⟨heq.1.symm,hinserted _ hnil⟩
    next hcf =>
    rcases hprev : Heap.prevLoop t first fuel c with _ | prev
    · rw [hprev] at hcall
      cases hcall
    rw [hprev] at hcall
    have heq := mk.inj (some.inj hcall)
    rw [← heq.2]
    exact .inl ⟨heq.1.symm,hinserted _ (place_of_prev hlist hnodup hfirst hprev)⟩

end Functions

end LinuxToradex.Resource

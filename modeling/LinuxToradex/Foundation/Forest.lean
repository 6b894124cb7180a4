import Mathlib.Data.List.Basic
import Mathlib.Logic.Relation

/-! Forests linked by parent, child and sibling. `Linked` says which list of children each node has. -/
namespace Forest
open List Function

structure Links (α : Type) where
  parent : α → Option α
  child : α → Option α
  sibling : α → Option α

inductive Place (α : Type)
  | child (n : α)
  | sibling (n : α)
deriving DecidableEq

def Links.get {α : Type} (t : Links α) : Place α → Option α
  | .child n => t.child n
  | .sibling n => t.sibling n

def place {α : Type} (n : α) (before : List α) : Place α :=
  match before.getLast? with
  | none => .child n
  | some x => .sibling x

def Chain {α : Type} (sibling : α → Option α) : Option α → List α → Prop
  | first, [] => first = none
  | first, x::l => first = some x ∧ Chain sibling (sibling x) l

structure Linked {α : Type} (t : Links α) (kids : α → List α) : Prop where
  chain : ∀ n, Chain t.sibling (t.child n) (kids n)
  parent : ∀ n, ∀ c ∈ kids n, t.parent c = some n
  nodup : ∀ n, (kids n).Nodup

section Chains

variable {α : Type} {sibling sibling' : α → Option α} {first : Option α} {l before after : List α} {x : α}

lemma Chain.congr (h : Chain sibling first l) (hsame : ∀ y ∈ l, sibling' y = sibling y) : Chain sibling' first l := by
  induction l generalizing first with
  | nil => exact h
  | cons y l ih =>
    refine ⟨h.1,?_⟩
    rw [hsame y mem_cons_self]
    exact ih h.2 fun z hz => hsame z (mem_cons_of_mem y hz)

lemma Chain.eq {l' : List α} (h : Chain sibling first l) (h' : Chain sibling first l') : l = l' := by
  induction l generalizing first l' with
  | nil =>
    cases l' with
    | nil => rfl
    | cons y l' => exact absurd (h'.1.symm.trans h) (by simp)
  | cons x l ih =>
    rcases l' with _ | ⟨y,l'⟩
    · exact absurd (h.1.symm.trans h') (by simp)
    have hxy : x = y := Option.some.inj (h.1.symm.trans h'.1)
    subst hxy
    rw [ih h.2 h'.2]

lemma Chain.first_eq (h : Chain sibling first l) : first = l.head? := by
  cases l with
  | nil => exact h
  | cons y l => exact h.1

lemma Chain.rest (h : Chain sibling first (before++after)) : Chain sibling after.head? after := by
  induction before generalizing first with
  | nil =>
    have heq := h.first_eq
    rwa [heq] at h
  | cons y before ih => exact ih h.2

lemma Chain.sibling_eq (h : Chain sibling first (before++x::after)) : sibling x = after.head? := by
  induction before generalizing first with
  | nil => exact h.2.first_eq
  | cons y before ih => exact ih h.2

lemma Chain.rest_cons (h : Chain sibling first (before++x::after)) : Chain sibling after.head? after := by
  have heq := h.rest.2.first_eq
  rw [← heq]
  exact h.rest.2

lemma place_append (n : α) (before : List α) (x : α) : place n (before++[x]) = .sibling x := by
  simp [place]

lemma Chain.relink [DecidableEq α] {v : Option α} {tail : List α}
    (h : Chain sibling first (before++x::after)) (hx : x ∉ before)
    (htail : Chain (update sibling x v) v tail) : Chain (update sibling x v) first (before++x::tail) := by
  induction before generalizing first with
  | nil =>
    refine ⟨h.1,?_⟩
    rwa [update_self]
  | cons y before ih =>
    refine ⟨h.1,?_⟩
    have hne : y ≠ x := fun heq => hx (heq ▸ mem_cons_self)
    rw [update_of_ne hne]
    exact ih h.2 fun hmem => hx (mem_cons_of_mem y hmem)

lemma Linked.unique {t : Links α} {kids : α → List α} {n m : α} (h : Linked t kids)
    (hn : x ∈ kids n) (hm : x ∈ kids m) : n = m :=
  Option.some.inj ((h.parent n x hn).symm.trans (h.parent m x hm))

lemma Linked.get_place {t : Links α} {kids : α → List α} {n : α} (h : Linked t kids) (hn : kids n = before++after) :
    t.get (place n before) = after.head? := by
  have hchain := h.chain n
  rw [hn] at hchain
  rcases before.eq_nil_or_concat' with rfl | ⟨init,y,rfl⟩
  · exact hchain.first_eq
  rw [append_assoc] at hchain
  rw [place_append]
  exact hchain.sibling_eq

lemma Linked.edit {t t' : Links α} {kids kids' : α → List α} (h : Linked t kids)
    (hedit : ∀ m, (kids' m = kids m ∧ t'.child m = t.child m ∧
        ∀ y ∈ kids m, t'.sibling y = t.sibling y ∧ t'.parent y = t.parent y) ∨
      (Chain t'.sibling (t'.child m) (kids' m) ∧ (∀ c ∈ kids' m, t'.parent c = some m) ∧
        (kids' m).Nodup)) : Linked t' kids' := by
  constructor
  · intro m
    rcases hedit m with ⟨hkids,hchild,hsame⟩ | ⟨hchain,-,-⟩
    · rw [hkids,hchild]
      exact (h.chain m).congr fun y hy => (hsame y hy).1
    · exact hchain
  · intro m c hc
    rcases hedit m with ⟨hkids,hchild,hsame⟩ | ⟨-,hparent,-⟩
    · rw [hkids] at hc
      rw [(hsame c hc).2]
      exact h.parent m c hc
    · exact hparent c hc
  intro m
  rcases hedit m with ⟨hkids,-,-⟩ | ⟨-,-,hnodup⟩
  · rw [hkids]
    exact h.nodup m
  · exact hnodup

lemma Linked.acyclic {t : Links α} {kids : α → List α} {root n : α} (h : Linked t kids)
    (hroot : ∀ m, root ∉ kids m) (hreach : Relation.ReflTransGen (fun m c => c ∈ kids m) root n) :
    ¬Relation.TransGen (fun m c => c ∈ kids m) n n := by
  induction hreach with
  | refl =>
    intro hcycle
    obtain ⟨m,-,hm⟩ := Relation.TransGen.tail'_iff.mp hcycle
    exact hroot m hm
  | tail _ hstep ih =>
    intro hcycle
    obtain ⟨m,hdown,hm⟩ := Relation.TransGen.tail'_iff.mp hcycle
    have heq := h.unique hm hstep
    subst heq
    exact ih (Relation.TransGen.head' hstep hdown)

end Chains

section Editing

variable {α : Type} [DecidableEq α] {t : Links α} {kids : α → List α} {n x : α} {before after : List α}

namespace Links

def put (t : Links α) : Place α → Option α → Links α
  | .child n, v => {t with child := update t.child n v}
  | .sibling n, v => {t with sibling := update t.sibling n v}

@[simp] lemma put_parent (p : Place α) (v : Option α) : (t.put p v).parent = t.parent := by
  cases p <;> rfl

lemma put_child_congr {t' : Links α} (p : Place α) (v : Option α) (h : t'.child = t.child) :
    (t'.put p v).child = (t.put p v).child := by
  cases p with
  | child n => exact congrArg (fun f => update f n v) h
  | sibling n => exact h

lemma put_sibling_congr {t' : Links α} (p : Place α) (v : Option α) (h : t'.sibling = t.sibling) :
    (t'.put p v).sibling = (t.put p v).sibling := by
  cases p with
  | child n => exact h
  | sibling n => exact congrArg (fun f => update f n v) h

lemma put_place_sibling {y : α} (v : Option α) (hy : y ∉ before) :
    (t.put (place n before) v).sibling y = t.sibling y := by
  rcases before.eq_nil_or_concat' with rfl | ⟨init,z,rfl⟩
  · rfl
  rw [place_append]
  have hne : y ≠ z := fun heq => hy (by rw [heq]; simp)
  exact update_of_ne hne v t.sibling

lemma put_place_child {m : α} (v : Option α) (hm : m ≠ n) : (t.put (place n before) v).child m = t.child m := by
  rcases before.eq_nil_or_concat' with rfl | ⟨init,z,rfl⟩
  · exact update_of_ne hm v t.child
  rw [place_append]
  rfl

end Links

lemma chain_put (t : Links α) (after : List α) {v : Option α} {tail : List α}
    (hchain : Chain t.sibling (t.child n) (before++after))
    (hnodup : before.Nodup) (htail : Chain (t.put (place n before) v).sibling v tail) :
    Chain (t.put (place n before) v).sibling ((t.put (place n before) v).child n) (before++tail) := by
  rcases before.eq_nil_or_concat' with rfl | ⟨init,y,rfl⟩
  · have hchild : (t.put (place n []) v).child n = v := by
      simp [place,Links.put]
    rw [hchild]
    exact htail
  rw [place_append] at htail ⊢
  rw [append_assoc] at hchain ⊢
  have hy : y ∉ init := by
    rw [nodup_append] at hnodup
    exact fun hmem => hnodup.2.2 y hmem y (mem_singleton_self y) rfl
  exact hchain.relink hy htail

/-- `x` is taken out of the list of `n`. What becomes of the parent of `x` does not matter. -/
theorem Linked.unlink (h : Linked t kids) (hn : kids n = before++x::after) {t' : Links α}
    (hchild : t'.child = (t.put (place n before) (t.sibling x)).child)
    (hsibling : t'.sibling = (t.put (place n before) (t.sibling x)).sibling)
    (hparent : ∀ y ≠ x, t'.parent y = t.parent y) : Linked t' (update kids n (before++after)) := by
  have hchain := h.chain n
  have hnodup := h.nodup n
  have hparents := h.parent n
  rw [hn] at hchain hnodup hparents
  have hsplit := nodup_append.mp hnodup
  have hsub : List.Sublist (before++after) (before++x::after) := .append_left (sublist_cons_self x after) before
  apply h.edit
  intro m
  by_cases hm : m = n
  · subst hm
    right
    rw [update_self,hchild,hsibling]
    refine ⟨?_,?_,?_⟩
    · apply chain_put t _ hchain hsplit.1
      rw [hchain.sibling_eq]
      apply hchain.rest_cons.congr
      intro y hy
      exact Links.put_place_sibling _ fun hmem =>
        hsplit.2.2 y hmem y (mem_cons_of_mem x hy) rfl
    · intro c hc
      rw [hparent c (ne_of_mem_of_not_mem hc (nodup_cons.mp (perm_middle.nodup_iff.mp hnodup)).1)]
      exact hparents c (hsub.subset hc)
    · exact hnodup.sublist hsub
  left
  refine ⟨update_of_ne hm _ kids,?_,?_⟩
  · rw [hchild]
    exact Links.put_place_child _ hm
  intro y hy
  have hout : y ∉ before++x::after := by
    rw [← hn]
    exact fun hmem => hm (h.unique hy hmem)
  constructor
  · rw [hsibling]
    exact Links.put_place_sibling _ fun hmem => hout (mem_append_left _ hmem)
  · exact hparent y fun heq => hout (by rw [heq]; simp)

def Links.link (t : Links α) (p : Place α) (x : α) (next : Option α) (n : α) : Links α :=
  let linked := {t with sibling := update t.sibling x next}.put p (some x)
  {linked with parent := update linked.parent x (some n)}

/-- `x`, which is in no list, is linked into the list of `n`. -/
theorem Linked.link (h : Linked t kids) (hn : kids n = before++after) (hx : ∀ m, x ∉ kids m) :
    Linked (t.link (place n before) x after.head? n) (update kids n (before++x::after)) := by
  have hchain := h.chain n
  have hnodup := h.nodup n
  have hxn := hx n
  rw [hn] at hchain hnodup hxn
  have hsplit := nodup_append.mp hnodup
  have hxb : x ∉ before := fun hmem => hxn (mem_append_left _ hmem)
  have hxa : x ∉ after := fun hmem => hxn (mem_append_right _ hmem)
  have hparent : ∀ y ≠ x, (t.link (place n before) x after.head? n).parent y = t.parent y := by
    intro y hy
    simp only [Links.link,Links.put_parent]
    exact update_of_ne hy _ _
  apply h.edit
  intro m
  by_cases hm : m = n
  · subst hm
    right
    rw [update_self]
    refine ⟨?_,?_,?_⟩
    · refine chain_put {t with sibling := update t.sibling x after.head?} after ?_ hsplit.1 ⟨rfl,?_⟩
      · apply hchain.congr
        intro y hy
        exact update_of_ne (ne_of_mem_of_not_mem hy hxn) _ _
      rw [Links.put_place_sibling _ hxb]
      dsimp only
      rw [update_self]
      apply hchain.rest.congr
      intro y hy
      rw [Links.put_place_sibling _ fun hmem => hsplit.2.2 y hmem y hy rfl]
      exact update_of_ne (ne_of_mem_of_not_mem hy hxa) _ _
    · intro c hc
      by_cases hcx : c = x
      · subst hcx
        exact update_self c _ _
      rw [hparent c hcx]
      apply h.parent m c
      rw [hn]
      simpa [hcx] using hc
    · exact (perm_middle.nodup_iff).mpr (nodup_cons.mpr ⟨hxn,hnodup⟩)
  left
  refine ⟨update_of_ne hm _ kids,Links.put_place_child _ hm,?_⟩
  intro y hy
  have hyx : y ≠ x := ne_of_mem_of_not_mem hy (hx m)
  refine ⟨?_,hparent y hyx⟩
  have hyb : y ∉ before := by
    intro hmem
    refine hm (h.unique hy ?_)
    rw [hn]
    exact mem_append_left _ hmem
  exact (Links.put_place_sibling _ hyb).trans (update_of_ne hyx _ _)

/-- `x`, which is in no list, takes the place of a run of nodes in the list of `n` and gets the run
for its own list: the links before `x` is linked. -/
def Links.over (t : Links α) (x : α) (first : Option α) (last : α) : Links α where
  parent := t.parent
  child := update t.child x first
  sibling := update (update t.sibling x (t.sibling last)) last none

lemma Linked.over_chain {run : List α} {last : α} (h : Linked t kids)
    (hn : kids n = before++((run++[last])++after)) (hx : ∀ m, x ∉ kids m) (hne : x ≠ n) (first : Option α) :
    Chain (t.over x first last).sibling ((t.over x first last).child n) (before++(run++[last])) := by
  have hwhole : before++((run++[last])++after) = (before++run)++last::after := by simp
  have hchain := h.chain n
  have hnodup := h.nodup n
  have hxn := hx n
  rw [hn,hwhole] at hchain hnodup hxn
  have hchild : (t.over x first last).child n = t.child n := update_of_ne hne.symm _ _
  have hupdate : Chain (update t.sibling x (t.sibling last)) (t.child n) ((before++run)++last::after) := by
    apply hchain.congr
    intro y hy
    exact update_of_ne (ne_of_mem_of_not_mem hy hxn) _ _
  rw [hchild,← append_assoc]
  refine hupdate.relink ?_ rfl
  intro hmem
  exact (nodup_append.mp hnodup).2.2 last hmem last mem_cons_self rfl

lemma Linked.adopt {t' : Links α} {run : List α} {last : α} (h : Linked t kids)
    (hn : kids n = before++((run++[last])++after)) (hx : ∀ m, x ∉ kids m) (hne : x ≠ n)
    (hchild : t'.child = ((t.over x (run++[last]).head? last).put (place n before) (some x)).child)
    (hsibling : t'.sibling = ((t.over x (run++[last]).head? last).put (place n before) (some x)).sibling)
    (hrun : ∀ c ∈ run++[last], t'.parent c = some x) (hself : t'.parent x = some n)
    (hparent : ∀ c, c ∉ run++[last] → c ≠ x → t'.parent c = t.parent c) :
    Linked t' (update (update kids n (before++x::after)) x (run++[last])) := by
  have hover := h.over_chain hn hx hne (run++[last]).head?
  have hchain := h.chain n
  have hnodup := h.nodup n
  have hxn := hx n
  rw [hn] at hchain hnodup hxn
  obtain ⟨hbefore,hrest,hapart⟩ := nodup_append.mp hnodup
  obtain ⟨hrunNodup,hafter,hapart'⟩ := nodup_append.mp hrest
  have hlast : last ∈ run++[last] := mem_append_right _ (mem_singleton_self last)
  have hxb : x ∉ before := fun hmem => hxn (mem_append_left _ hmem)
  have hxa : x ∉ after := fun hmem => hxn (mem_append_right _ (mem_append_right _ hmem))
  have hxl : x ≠ last := by
    rintro rfl
    exact hxn (mem_append_right _ (mem_append_left _ hlast))
  -- nodes away from `before`, `last` and `x` keep their sibling
  have hkeep : ∀ y, y ∉ before → y ≠ last → y ≠ x → t'.sibling y = t.sibling y := by
    intro y hb hl hyx
    rw [hsibling,Links.put_place_sibling _ hb]
    simp only [Links.over]
    rw [update_of_ne hl,update_of_ne hyx]
  apply h.edit
  intro m
  by_cases hmx : m = x
  · subst hmx
    right
    rw [update_self]
    refine ⟨?_,hrun,hrunNodup⟩
    have hfirst : t'.child m = (run++[last]).head? := by
      rw [hchild,Links.put_place_child _ hne]
      exact update_self m _ _
    rw [hfirst,hsibling]
    apply hover.rest.congr
    intro y hy
    exact Links.put_place_sibling _ fun hmem => hapart y hmem y (mem_append_left _ hy) rfl
  rw [update_of_ne hmx]
  by_cases hmn : m = n
  · subst hmn
    right
    rw [update_self]
    refine ⟨?_,?_,?_⟩
    · rw [hchild,hsibling]
      refine chain_put _ _ hover hbefore ⟨rfl,?_⟩
      rw [← hsibling]
      have hsx : t'.sibling x = after.head? := by
        rw [hsibling,Links.put_place_sibling _ hxb]
        simp only [Links.over]
        rw [update_of_ne hxl,update_self]
        have hpart := hchain.rest
        rw [append_assoc] at hpart
        exact hpart.sibling_eq
      rw [hsx]
      apply hchain.rest.rest.congr
      intro y hy
      refine hkeep y (fun hmem => hapart y hmem y (mem_append_right _ hy) rfl) ?_ (ne_of_mem_of_not_mem hy hxa)
      rintro rfl
      exact hapart' y hlast y hy rfl
    · intro c hc
      by_cases hcx : c = x
      · subst hcx
        exact hself
      have hold : c ∈ before ∨ c ∈ after := by simpa [hcx] using hc
      rw [hparent c ?_ hcx]
      · apply h.parent m c
        rw [hn]
        rcases hold with hc | hc
        · exact mem_append_left _ hc
        · exact mem_append_right _ (mem_append_right _ hc)
      intro hmem
      rcases hold with hc | hc
      · exact hapart c hc c (mem_append_left _ hmem) rfl
      · exact hapart' c hmem c hc rfl
    have hsub : List.Sublist (before++after) (before++((run++[last])++after)) :=
      List.Sublist.append_left (sublist_append_right _ _) before
    exact (perm_middle.nodup_iff).mpr (nodup_cons.mpr ⟨fun hmem => hxn (hsub.subset hmem),hnodup.sublist hsub⟩)
  rw [update_of_ne hmn]
  left
  refine ⟨rfl,?_,?_⟩
  · rw [hchild,Links.put_place_child _ hmn]
    exact update_of_ne hmx _ _
  intro y hy
  have hout : y ∉ before++((run++[last])++after) := by
    rw [← hn]
    exact fun hmem => hmn (h.unique hy hmem)
  have hyx : y ≠ x := ne_of_mem_of_not_mem hy (hx m)
  refine ⟨hkeep y (fun hmem => hout (mem_append_left _ hmem)) ?_ hyx,hparent y ?_ hyx⟩
  · rintro rfl
    exact hout (mem_append_right _ (mem_append_left _ hlast))
  · exact fun hmem => hout (mem_append_right _ (mem_append_left _ hmem))

end Editing

end Forest

import Mathlib.Logic.Relation
import Mathlib.Data.List.Nodup

/-! A search that keeps its stack in the nodes: a node on the current path points back to the node it was
entered from and has a busy mark. -/
namespace BackDfs
open List Function Option
variable {α : Type*}

structure Graph (α : Type*) where
  leaf : α → Prop
  next : α → α
  jump : α → Option α

inductive Graph.Child (g : Graph α) (x : α) : α → Prop
  | next : ¬g.leaf x → g.Child x (g.next x)
  | jump {y : α} : ¬g.leaf x → g.jump x = some y → g.Child x y

def Graph.Reach (g : Graph α) : α → α → Prop := Relation.ReflTransGen g.Child

def Graph.first (g : Graph α) (x : α) : α := (g.jump x).getD (g.next x)

variable {x : α} {g : Graph α} {l : List α}

lemma Graph.child_first (g : Graph α) (h : ¬g.leaf x) : g.Child x (g.first x) := by
  unfold Graph.first
  cases hj : g.jump x with
  | none => exact .next h
  | some y => exact .jump h hj

inductive Topo (g : Graph α) : List α → Prop
  | nil : Topo g []
  | cons {x : α} {l : List α} : x ∉ l → (∀ y, g.Child x y → y ∈ l) → Topo g l → Topo g (x::l)

variable {y : α}

lemma Topo.closed (h : Topo g l) (hx : x ∈ l) (hc : g.Child x y) : y ∈ l := by
  induction h with
  | nil => cases hx
  | cons _ hall _ ih =>
    rcases mem_cons.mp hx with rfl | hx
    · exact mem_cons_of_mem _ (hall y hc)
    · exact mem_cons_of_mem _ (ih hx)

lemma Topo.reach (h : Topo g l) (hx : x ∈ l) (hr : g.Reach x y) : y ∈ l := by
  induction hr with
  | refl => exact hx
  | tail _ hc ih => exact h.closed ih hc

/-- A weight that pays for both children of every listed node. -/
theorem Topo.weight [DecidableEq α] (h : Topo g l) : ∃ w : α → Nat, (∀ x, 0 < w x) ∧ ∀ x ∈ l, ¬g.leaf x →
      w (g.next x) < w x ∧ ∀ y, g.jump x = some y → w y+w (g.next x) < w x := by
  induction h with
  | nil => exact ⟨fun _ => 1,fun _ => Nat.one_pos,by simp⟩
  | @cons x l hx hall hl ih =>
    obtain ⟨w,hpos,hw⟩ := ih
    let v := w (g.next x)+w (g.first x)+1
    have hold : ∀ y ∈ l, update w x v y = w y := by
      intro y hy
      refine update_of_ne ?_ v w
      rintro rfl
      exact hx hy
    refine ⟨update w x v,?_,?_⟩
    · intro y
      by_cases hy : y = x
      · subst hy; rw [update_self]; omega
      · rw [update_of_ne hy]; exact hpos y
    intro y hy hleaf
    have hnext : g.next y ∈ l := by
      rcases mem_cons.mp hy with rfl | hy
      · exact hall _ (.next hleaf)
      · exact hl.closed hy (.next hleaf)
    have hjump : ∀ z, g.jump y = some z → z ∈ l := by
      intro z hz
      rcases mem_cons.mp hy with rfl | hy
      · exact hall _ (.jump hleaf hz)
      · exact hl.closed hy (.jump hleaf hz)
    rw [hold _ hnext]
    by_cases hyx : y = x
    · subst hyx
      rw [update_self]
      refine ⟨by omega,fun z hz => ?_⟩
      have hf : g.first y = z := by simp [Graph.first,hz]
      rw [hold _ (hjump z hz)]
      have : v = w (g.next y)+w z+1 := by simp only [v,hf]
      omega
    have hyl : y ∈ l := (mem_cons.mp hy).resolve_left hyx
    rw [hold _ hyl]
    refine ⟨(hw y hyl hleaf).1,fun z hz => ?_⟩
    rw [hold _ (hjump z hz)]
    exact (hw y hyl hleaf).2 z hz

inductive Mode where
  | visit
  | pop
  deriving DecidableEq

structure State (α : Type*) where
  mode : Mode
  cur : α
  seen : α → Bool
  busy : α → Bool
  back : α → α

section Search
variable [DecidableEq α] (g : Graph α)

/-- The moves of a search that is not rejected. Entering a busy node is no move: it
closes a cycle. The back pointer of a node that is left is overwritten. -/
inductive Step : State α → State α → Prop
  | descend {x : α} {seen busy : α → Bool} {back : α → α} :
      busy x = false → seen x = false → ¬g.leaf x →
      Step ⟨.visit,x,seen,busy,back⟩
        ⟨.visit,g.first x,update seen x true,update busy x true, update back (g.first x) x⟩
  | turn {x : α} {seen busy : α → Bool} {back : α → α} :
      busy x = false → g.leaf x ∨ seen x = true →
      Step ⟨.visit,x,seen,busy,back⟩
        ⟨.pop,x,update seen x true,update busy x true,back⟩
  | ascend {x p r : α} {seen busy : α → Bool} {back : α → α} :
      back x = p → p ≠ x → g.next p = x →
      Step ⟨.pop,x,seen,busy,back⟩
        ⟨.pop,p,seen,update busy x false,update back x r⟩
  | along {x p r : α} {seen busy : α → Bool} {back : α → α} :
      back x = p → p ≠ x → g.next p ≠ x →
      Step ⟨.pop,x,seen,busy,back⟩
        ⟨.visit,g.next p,seen,update busy x false, update (update back x r) (g.next p) p⟩

/-- The path from the current node back to the root, with the invariant of its edges:
an edge that is not the first child has its jump finished. -/
inductive Chain (root : α) (fin : List α) (back : α → α) : α → List α → Prop
  | root : back root = root → Chain root fin back root []
  | cons {x p : α} {ps : List α} : back x = p → x ≠ p → ¬g.leaf p →
      (x = g.first p ∨ x = g.next p ∧ ∀ y, g.jump p = some y → y ∈ fin) →
      Chain root fin back p ps → Chain root fin back x (p::ps)

variable {g}

variable {root p r : α} {fin path : List α} {back : α → α} {s : State α} {seen busy : α → Bool}

omit [DecidableEq α] in
lemma Chain.congr {fin' : List α} {back' : α → α} {x : α}
    (h : Chain g root fin back x path) (hfin : ∀ y ∈ fin, y ∈ fin')
    (hback : ∀ y ∈ x::path, back' y = back y) : Chain g root fin' back' x path := by
  induction h with
  | root hr => exact .root (by rw [hback _ mem_cons_self,hr])
  | cons hb hne hleaf hedge _ ih =>
    refine .cons (by rw [hback _ mem_cons_self,hb]) hne hleaf ?_ (ih fun y hy => hback y (mem_cons_of_mem _ hy))
    exact hedge.imp id fun ⟨he,hj⟩ => ⟨he,fun y hy => hfin y (hj y hy)⟩

omit [DecidableEq α] in
lemma Chain.reach {x : α} (h : Chain g root fin back x path) : ∀ y ∈ x::path, g.Reach root y := by
  induction h with
  | root _ =>
    intro y hy
    rw [mem_singleton.mp hy]
    exact .refl
  | @cons x p ps _ _ hleaf hedge _ ih =>
    intro y hy
    rcases mem_cons.mp hy with rfl | hy
    · refine Relation.ReflTransGen.tail (ih p mem_cons_self) ?_
      rcases hedge with rfl | ⟨rfl,_⟩
      · exact g.child_first hleaf
      · exact .next hleaf
    · exact ih y hy

/-- The invariant of a search from `root`: `fin` lists the finished nodes, `path` leads
from the current node back to the root. -/
structure Good (g : Graph α) (root : α) (fin path : List α) (s : State α) : Prop where
  topo : Topo g fin
  finReach : ∀ y ∈ fin, g.Reach root y
  chain : Chain g root fin s.back s.cur path
  nodup : (s.cur::path).Nodup
  disj : ∀ y ∈ path, y ∉ fin
  busy : ∀ y, s.busy y = true ↔ y ∈ path ∨ s.mode = .pop ∧ y = s.cur
  seen : ∀ y, s.seen y = true ↔ y ∈ fin ∨ y ∈ path ∨ s.mode = .pop ∧ y = s.cur
  ready : s.mode = .pop → s.cur ∈ fin ∨ ∀ y, g.Child s.cur y → y ∈ fin

def Inv (g : Graph α) (root : α) (s : State α) : Prop :=
  g.Reach root s.cur ∧ ((s.mode = .visit ∧ s.busy s.cur = true) ∨ ∃ fin path, Good g root fin path s)

def finish (fin : List α) (x : α) : List α := if x ∈ fin then fin else x::fin

lemma mem_finish {x y : α} : y ∈ finish fin x ↔ y = x ∨ y ∈ fin := by
  unfold finish
  split
  · rename_i hx
    constructor
    · exact .inr
    rintro (rfl | h)
    · exact hx
    · exact h
  · exact mem_cons

lemma Good.topo_finish (h : Good g root fin path s) (hm : s.mode = .pop) : Topo g (finish fin s.cur) := by
  unfold finish
  split
  · exact h.topo
  rename_i hx
  exact .cons hx ((h.ready hm).resolve_left hx) h.topo

lemma Good.finish_reach (h : Good g root fin path s) : ∀ y ∈ finish fin s.cur, g.Reach root y := by
  intro y hy
  rcases mem_finish.mp hy with rfl | hy
  · exact h.chain.reach _ mem_cons_self
  · exact h.finReach y hy

lemma Good.descend {x : α} (h : Good g root fin path ⟨.visit,x,seen,busy,back⟩) (hs : seen x = false) (hl : ¬g.leaf x)
    (hfresh : g.first x ∉ x::path) : Good g root fin (x::path)
      ⟨.visit,g.first x,update seen x true,update busy x true,update back (g.first x) x⟩ := by
  have hxfin : x ∉ fin := by
    intro hx
    have hseen : seen x = true := (h.seen x).mpr (.inl hx)
    rw [hs] at hseen
    cases hseen
  refine ⟨h.topo,h.finReach,?_,nodup_cons.mpr ⟨hfresh,h.nodup⟩,?_,?_,?_,by simp⟩
  · dsimp only
    refine .cons (update_self ..) ?_ hl (.inl rfl) ?_
    · intro he
      exact hfresh (mem_cons.mpr (.inl he))
    refine h.chain.congr (fun _ hy => hy) fun y hy => update_of_ne ?_ _ _
    intro he
    exact hfresh (he ▸ hy)
  · exact forall_mem_cons.mpr ⟨hxfin,h.disj⟩
  · intro y
    by_cases hy : y = x
    · subst hy; simp
    · simpa [hy] using h.busy y
  intro y
  by_cases hy : y = x
  · subst hy; simp
  · simpa [hy] using h.seen y

lemma Good.turn {x : α} (h : Good g root fin path ⟨.visit,x,seen,busy,back⟩) (hx : g.leaf x ∨ seen x = true) :
    Good g root fin path ⟨.pop,x,update seen x true,update busy x true,back⟩ := by
  have hpath : x ∉ path := (nodup_cons.mp h.nodup).1
  refine ⟨h.topo,h.finReach,h.chain,h.nodup,h.disj,?_,?_,?_⟩
  · intro y
    by_cases hy : y = x
    · subst hy; simp
    · simpa [hy] using h.busy y
  · intro y
    by_cases hy : y = x
    · subst hy; simp
    · simpa [hy] using h.seen y
  intro _
  rcases hx with hleaf | hseen
  · right
    intro y hc
    cases hc <;> contradiction
  left
  have := (h.seen x).mp hseen
  simpa [hpath] using this

omit [DecidableEq α] in
lemma Good.parent {x : α} (h : Good g root fin path ⟨.pop,x,seen,busy,back⟩) (hb : back x = p) (hne : p ≠ x) :
    ∃ ps, path = p::ps ∧ ¬g.leaf p ∧ (x = g.first p ∨ x = g.next p ∧ ∀ y, g.jump p = some y → y ∈ fin) ∧
      Chain g root fin back p ps := by
  have hc := h.chain
  rcases hc with hr | ⟨hb',_,hleaf,hedge,hrest⟩
  · exact absurd (hb.symm.trans hr) hne
  dsimp only at hb'
  rw [hb] at hb'
  subst hb'
  exact ⟨_,rfl,hleaf,hedge,hrest⟩

lemma Good.leave {x : α} {ps : List α}
    (h : Good g root fin (p::ps) ⟨.pop,x,seen,busy,back⟩) (hrest : Chain g root fin back p ps) :
    (p::ps).Nodup ∧ (∀ y ∈ p::ps, y ∉ finish fin x) ∧ Chain g root (finish fin x) (update back x r) p ps ∧
      (∀ y, update busy x false y = true ↔ y ∈ p::ps) ∧ ∀ y, seen y = true ↔ y ∈ finish fin x ∨ y ∈ p::ps := by
  obtain ⟨hx,hnd⟩ := nodup_cons.mp h.nodup
  refine ⟨hnd,?_,?_,?_,?_⟩
  · intro y hy hf
    rcases mem_finish.mp hf with rfl | hf
    · exact hx hy
    · exact h.disj y hy hf
  · refine hrest.congr (fun y hy => mem_finish.mpr (.inr hy)) fun y hy => update_of_ne ?_ _ _
    intro he
    exact hx (he ▸ hy)
  · intro y
    by_cases hy : y = x
    · subst hy
      simpa using hx
    rw [update_of_ne hy]
    have := h.busy y
    simpa [hy] using this
  intro y
  have := h.seen y
  rw [this,mem_finish]
  tauto

lemma inv_ascend {x : α} (h : ∃ fin path, Good g root fin path ⟨.pop,x,seen,busy,back⟩)
    (hb : back x = p) (hne : p ≠ x) (hnext : g.next p = x) :
    Inv g root ⟨.pop,p,seen,update busy x false,update back x r⟩ := by
  obtain ⟨fin,path,good⟩ := h
  obtain ⟨ps,rfl,hleaf,hedge,hrest⟩ := good.parent hb hne
  obtain ⟨hnd,hdisj,hchain,hbusy,hseen⟩ := good.leave (r := r) hrest
  refine ⟨hrest.reach p mem_cons_self,.inr ⟨finish fin x,ps,good.topo_finish rfl,good.finish_reach,
    hchain,hnd,fun y hy => hdisj y (mem_cons_of_mem p hy),?_,?_,?_⟩⟩
  · intro y
    rw [hbusy y,mem_cons]
    tauto
  · intro y
    rw [hseen y,mem_cons]
    tauto
  intro _
  right
  intro y hc
  rcases hc with _ | ⟨_,hj⟩
  · rw [hnext]; exact mem_finish.mpr (.inl rfl)
  rcases hedge with he | ⟨_,hdone⟩
  · refine mem_finish.mpr (.inl ?_)
    rw [he,Graph.first,hj,getD_some]
  · exact mem_finish.mpr (.inr (hdone y hj))

lemma inv_along {x : α} (h : ∃ fin path, Good g root fin path ⟨.pop,x,seen,busy,back⟩)
    (hb : back x = p) (hne : p ≠ x) (hnext : g.next p ≠ x) :
    Inv g root ⟨.visit,g.next p,seen,update busy x false,update (update back x r) (g.next p) p⟩ := by
  obtain ⟨fin,path,good⟩ := h
  obtain ⟨ps,rfl,hleaf,hedge,hrest⟩ := good.parent hb hne
  obtain ⟨hnd,hdisj,hchain,hbusy,hseen⟩ := good.leave (r := r) hrest
  refine ⟨(hrest.reach p mem_cons_self).tail (.next hleaf),?_⟩
  by_cases hfresh : g.next p ∈ p::ps
  · exact .inl ⟨rfl,(hbusy _).mpr hfresh⟩
  -- `x` is not the ordinary successor, so it was entered by the jump
  have hjump : ∀ y, g.jump p = some y → y = x := by
    intro y hj
    rcases hedge with he | ⟨he,_⟩
    · rw [he,Graph.first,hj,getD_some]
    · exact absurd he.symm hnext
  refine .inr ⟨finish fin x,p::ps,good.topo_finish rfl,good.finish_reach,?_,
    nodup_cons.mpr ⟨hfresh,hnd⟩,hdisj,?_,?_,by simp⟩
  · refine .cons (update_self ..) ?_ hleaf (.inr ⟨rfl,fun y hj => mem_finish.mpr (.inl (hjump y hj))⟩) ?_
    · intro he
      exact hfresh (mem_cons.mpr (.inl he))
    refine hchain.congr (fun _ hy => hy) fun y hy => update_of_ne ?_ _ _
    intro he
    exact hfresh (he ▸ hy)
  · intro y
    simpa using hbusy y
  intro y
  simpa using hseen y

lemma inv_step {t : State α} (h : Inv g root s) (hst : Step g s t) : Inv g root t := by
  obtain ⟨hreach,hinv⟩ := h
  cases hst with
  | @descend x seen busy back hb hs hl =>
    refine ⟨hreach.tail (g.child_first hl),?_⟩
    rcases hinv with ⟨_,hbusy⟩ | ⟨fin,path,good⟩
    · exact absurd (hb.symm.trans hbusy) Bool.false_ne_true
    by_cases hfresh : g.first x ∈ x::path
    · refine .inl ⟨rfl,?_⟩
      dsimp only
      by_cases hx : g.first x = x
      · rw [hx,update_self]
      have := (mem_cons.mp hfresh).resolve_left hx
      exact (update_of_ne hx true busy).trans ((good.busy _).mpr (.inl this))
    · exact .inr ⟨fin,x::path,good.descend hs hl hfresh⟩
  | turn hb hx =>
    refine ⟨hreach,?_⟩
    rcases hinv with ⟨_,hbusy⟩ | ⟨fin,path,good⟩
    · exact absurd (hb.symm.trans hbusy) Bool.false_ne_true
    · exact .inr ⟨fin,path,good.turn hx⟩
  | ascend hb hne hnext =>
    exact inv_ascend (hinv.resolve_left (fun h => by cases h.1)) hb hne hnext
  | along hb hne hnext =>
    exact inv_along (hinv.resolve_left (fun h => by cases h.1)) hb hne hnext

def start (root : α) (back : α → α) : State α :=
  ⟨.visit,root,fun _ => false,fun _ => false,update back root root⟩

lemma inv_start (root : α) (back : α → α) : Inv g root (start root back) := by
  refine ⟨.refl,.inr ⟨[],[],.nil,by simp,.root (update_self ..),by simp [start],
    by simp,by simp [start],by simp [start],by simp [start]⟩⟩

omit [DecidableEq α] in
lemma Inv.good (h : Inv g root s) (hm : s.mode = .pop) : ∃ fin path, Good g root fin path s :=
  h.2.resolve_left fun hv => by rw [hm] at hv; cases hv.1

omit [DecidableEq α] in
lemma Inv.busy_cur (h : Inv g root s) (hm : s.mode = .pop) : s.busy s.cur = true := by
  obtain ⟨fin,path,good⟩ := h.good hm
  exact (good.busy _).mpr (.inr ⟨hm,rfl⟩)

omit [DecidableEq α] in
lemma Inv.back_reach (h : Inv g root s) (hm : s.mode = .pop) : g.Reach root (s.back s.cur) := by
  obtain ⟨fin,path,good⟩ := h.good hm
  have hreach := good.chain.reach
  cases good.chain with
  | root hr => rw [hr]; exact .refl
  | cons hb _ _ _ _ => rw [hb]; exact hreach _ (mem_cons_of_mem _ mem_cons_self)

/-- A search that is back at a node pointing to itself is at its root, and has listed
exactly the nodes it saw, each before its children. -/
theorem finished (h : Inv g root s) (hm : s.mode = .pop)
    (hb : s.back s.cur = s.cur) : s.cur = root ∧ (∀ y, s.busy y = true → y = root) ∧
      ∃ fin, Topo g fin ∧ root ∈ fin ∧ ∀ y, s.seen y = true ↔ y ∈ fin := by
  obtain ⟨fin,path,good⟩ := h.good hm
  have hroot : s.cur = root ∧ path = [] := by
    have hc := good.chain
    cases hc with
    | root _ => exact ⟨rfl,rfl⟩
    | cons hb' hne _ _ _ => exact absurd (hb.symm.trans hb') hne
  obtain ⟨hcur,rfl⟩ := hroot
  refine ⟨hcur,?_,finish fin s.cur,good.topo_finish hm,mem_finish.mpr (.inl hcur.symm),?_⟩
  · intro y hy
    simpa [hm,hcur] using (good.busy y).mp hy
  intro y
  rw [good.seen y,mem_finish]
  simp only [hm,not_mem_nil,false_or,true_and]
  exact or_comm

end Search
end BackDfs

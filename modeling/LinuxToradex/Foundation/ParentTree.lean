import Mathlib.Data.List.Nodup
import Mathlib.Data.List.Perm.Basic

/-! A heap of cells that point to their parent and to two children. `Stored` says that a heap holds a tree
at the end of a path of ancestors. -/
namespace ParentTree
open List Function

inductive Side
  | left
  | right
deriving DecidableEq

def Side.flip : Side → Side
  | .left => .right
  | .right => .left

@[simp] lemma Side.flip_flip (s : Side) : s.flip.flip = s := by cases s <;> rfl

structure Cell (α γ : Type) where
  parent : Option α
  tag : γ
  left : Option α
  right : Option α
deriving DecidableEq

inductive Tree (α γ : Type)
  | nil
  | node (tag : γ) (left : Tree α γ) (key : α) (right : Tree α γ)
deriving DecidableEq

/-- A step of the path from a place up to the root: the place is the child of `key` on `side`. -/
structure Frame (α γ : Type) where
  side : Side
  tag : γ
  key : α
  sibling : Tree α γ

structure Heap (α γ : Type) where
  cell : α → Cell α γ
  root : Option α

section Shapes

variable {α γ : Type}

namespace Cell

def child (c : Cell α γ) : Side → Option α
  | .left => c.left
  | .right => c.right

def setChild (c : Cell α γ) : Side → Option α → Cell α γ
  | .left, v => {c with left := v}
  | .right, v => {c with right := v}

def setParent (c : Cell α γ) (p : Option α) : Cell α γ := {c with parent := p}

def setTag (c : Cell α γ) (tag : γ) : Cell α γ := {c with tag := tag}

def fork (s : Side) (parent : Option α) (tag : γ) (near far : Option α) : Cell α γ :=
  match s with
  | .left => ⟨parent,tag,near,far⟩
  | .right => ⟨parent,tag,far,near⟩

variable {s : Side} {p : Option α} {g : γ} {a b v : Option α}

@[simp] lemma fork_parent : (fork s p g a b).parent = p := by cases s <;> rfl

@[simp] lemma fork_tag : (fork s p g a b).tag = g := by cases s <;> rfl

@[simp] lemma fork_child : (fork s p g a b).child s = a := by cases s <;> rfl

@[simp] lemma fork_child_flip : (fork s p g a b).child s.flip = b := by cases s <;> rfl

@[simp] lemma fork_setChild : (fork s p g a b).setChild s v = fork s p g v b := by cases s <;> rfl

@[simp] lemma fork_setChild_flip : (fork s p g a b).setChild s.flip v = fork s p g a v := by
  cases s <;> rfl

@[simp] lemma fork_setParent : (fork s p g a b).setParent v = fork s v g a b := by cases s <;> rfl

@[simp] lemma fork_setTag {g' : γ} : (fork s p g a b).setTag g' = fork s p g' a b := by cases s <;> rfl

end Cell

namespace Tree

def root : Tree α γ → Option α
  | nil => none
  | node _ _ x _ => some x

def inorder : Tree α γ → List α
  | nil => []
  | node _ l x r => l.inorder++x::r.inorder

def fork (s : Side) (tag : γ) (near : Tree α γ) (key : α) (far : Tree α γ) : Tree α γ :=
  match s with
  | .left => node tag near key far
  | .right => node tag far key near

variable {s : Side} {g : γ} {a b t : Tree α γ} {x y : α}

@[simp] lemma root_fork : (fork s g a x b).root = some x := by cases s <;> rfl

lemma fork_flip : fork s.flip g a x b = fork s g b x a := by cases s <;> rfl

lemma inorder_fork_perm : (fork s g a x b).inorder.Perm (x::(a.inorder++b.inorder)) := by
  cases s with
  | left => exact perm_middle
  | right => exact perm_middle.trans (List.Perm.cons x perm_append_comm)

lemma eq_nil_or_fork (s : Side) (t : Tree α γ) : t = nil ∨ ∃ g a x b, t = fork s g a x b := by
  rcases t with _ | ⟨g,l,x,r⟩
  · exact .inl rfl
  right
  cases s with
  | left => exact ⟨g,l,x,r,rfl⟩
  | right => exact ⟨g,r,x,l,rfl⟩

lemma root_mem (h : t.root = some x) : x ∈ t.inorder := by
  cases t with
  | nil => cases h
  | node g l y r =>
    obtain rfl := Option.some.inj h
    simp [inorder]

lemma root_eq_none_iff : t.root = none ↔ t = nil := by
  cases t <;> simp [root]

end Tree

def plug : Tree α γ → List (Frame α γ) → Tree α γ
  | t, [] => t
  | t, f::fs => plug (Tree.fork f.side f.tag t f.key f.sibling) fs

/-- The parent of a place, where the path goes up to a node with the parent `p`. -/
def above (p : Option α) : List (Frame α γ) → Option α
  | [] => p
  | f::_ => some f.key

def beside : List (Frame α γ) → List α
  | [] => []
  | f::fs => f.key::(f.sibling.inorder++beside fs)

lemma plug_append (t : Tree α γ) (fs gs : List (Frame α γ)) : plug t (fs++gs) = plug (plug t fs) gs := by
  induction fs generalizing t with
  | nil => rfl
  | cons f fs ih => exact ih _

lemma inorder_plug_perm (t : Tree α γ) (fs : List (Frame α γ)) :
    (plug t fs).inorder.Perm (t.inorder++beside fs) := by
  induction fs generalizing t with
  | nil => rw [beside,append_nil]; rfl
  | cons f fs ih =>
    refine (ih _).trans ?_
    refine (Tree.inorder_fork_perm.append_right _).trans ?_
    rw [beside,cons_append,append_assoc]
    exact perm_middle.symm

lemma inorder_plug (fs : List (Frame α γ)) :
    ∃ before after : List α, ∀ t, (plug t fs).inorder = before++t.inorder++after := by
  induction fs with
  | nil => exact ⟨[],[],fun t => by simp [plug]⟩
  | cons f fs ih =>
    obtain ⟨before,after,h⟩ := ih
    rcases hs : f.side with _ | _
    · refine ⟨before,f.key::f.sibling.inorder++after,fun t => ?_⟩
      rw [plug,h,hs]
      simp [Tree.fork,Tree.inorder]
    refine ⟨before++f.sibling.inorder++[f.key],after,fun t => ?_⟩
    rw [plug,h,hs]
    simp [Tree.fork,Tree.inorder]

lemma inorder_plug_congr {t u : Tree α γ} (fs : List (Frame α γ)) (h : t.inorder = u.inorder) :
    (plug t fs).inorder = (plug u fs).inorder := by
  obtain ⟨before,after,hplug⟩ := inorder_plug fs
  rw [hplug,hplug,h]

def top (hole : Option α) : List (Frame α γ) → Option α
  | [] => hole
  | f::fs => top (some f.key) fs

lemma root_plug (t : Tree α γ) (fs : List (Frame α γ)) : (plug t fs).root = top t.root fs := by
  induction fs generalizing t with
  | nil => rfl
  | cons f fs ih =>
    rw [plug,ih,Tree.root_fork]
    rfl

lemma top_append_singleton (hole : Option α) (fs : List (Frame α γ)) (f : Frame α γ) :
    top hole (fs++[f]) = some f.key := by
  induction fs generalizing hole with
  | nil => rfl
  | cons g gs ih => exact ih _

lemma exists_top (x : α) (fs : List (Frame α γ)) : ∃ y, top (some x) fs = some y := by
  induction fs generalizing x with
  | nil => exact ⟨x,rfl⟩
  | cons f fs ih => exact ih f.key

lemma top_mem {y : α} {f : Frame α γ} {fs : List (Frame α γ)} (h : top (some f.key) fs = some y) :
    y ∈ beside (f::fs) := by
  induction fs generalizing f with
  | nil =>
    obtain rfl := Option.some.inj h
    exact mem_cons_self
  | cons g gs ih => exact mem_cons_of_mem _ (mem_append_right _ (ih h))

def Holds (cell : α → Cell α γ) (p : Option α) : Tree α γ → Prop
  | .nil => True
  | .node g l x r => cell x = ⟨p,g,l.root,r.root⟩ ∧ Holds cell (some x) l ∧ Holds cell (some x) r

/-- The cells hold a path up to a node with the parent `p`, and the pointer to the place at its end. -/
def HoldsPath (cell : α → Cell α γ) (p : Option α) : Option α → List (Frame α γ) → Prop
  | _, [] => True
  | hole, f::fs => cell f.key = Cell.fork f.side (above p fs) f.tag hole f.sibling.root ∧
      Holds cell (some f.key) f.sibling ∧ HoldsPath cell p (some f.key) fs

/-- The heap holds a tree without sharing. -/
structure Stored (h : Heap α γ) (t : Tree α γ) : Prop where
  holds : Holds h.cell none t
  root : h.root = t.root
  nodup : t.inorder.Nodup

section Cells

variable {cell cell' : α → Cell α γ} {p : Option α} {s : Side} {g : γ} {a b t : Tree α γ} {x : α}

lemma holds_fork : Holds cell p (Tree.fork s g a x b) ↔
    cell x = Cell.fork s p g a.root b.root ∧ Holds cell (some x) a ∧ Holds cell (some x) b := by
  cases s with
  | left => exact Iff.rfl
  | right =>
    refine and_congr Iff.rfl ?_
    exact and_comm

lemma holds_plug {fs : List (Frame α γ)} :
    Holds cell p (plug t fs) ↔ Holds cell (above p fs) t ∧ HoldsPath cell p t.root fs := by
  induction fs generalizing t with
  | nil => exact (and_iff_left trivial).symm
  | cons f fs ih =>
    rw [plug,ih,holds_fork,Tree.root_fork]
    constructor
    · rintro ⟨⟨hcell,ht,hsib⟩,hpath⟩
      exact ⟨ht,hcell,hsib,hpath⟩
    rintro ⟨ht,hcell,hsib,hpath⟩
    exact ⟨⟨hcell,ht,hsib⟩,hpath⟩

lemma Holds.congr (h : Holds cell p t) (hsame : ∀ x ∈ t.inorder, cell' x = cell x) : Holds cell' p t := by
  induction t generalizing p with
  | nil => trivial
  | node g l x r ihl ihr =>
    obtain ⟨hx,hl,hr⟩ := h
    refine ⟨?_,ihl hl fun y hy => ?_,ihr hr fun y hy => ?_⟩
    · rw [hsame x (by simp [Tree.inorder]),hx]
    · exact hsame y (by simp [Tree.inorder,hy])
    · exact hsame y (by simp [Tree.inorder,hy])

lemma HoldsPath.congr {hole : Option α} {fs : List (Frame α γ)} (h : HoldsPath cell p hole fs)
    (hsame : ∀ x ∈ beside fs, cell' x = cell x) : HoldsPath cell' p hole fs := by
  induction fs generalizing hole with
  | nil => trivial
  | cons f fs ih =>
    obtain ⟨hf,hsib,hpath⟩ := h
    refine ⟨?_,hsib.congr fun y hy => ?_,ih hpath fun y hy => ?_⟩
    · rw [hsame f.key (by simp [beside]),hf]
    · exact hsame y (by simp [beside,hy])
    · exact hsame y (by simp [beside,hy])

lemma exists_plug (hx : x ∈ t.inorder) : ∃ g l r fs, t = plug (Tree.node g l x r : Tree α γ) fs := by
  induction t with
  | nil => exact absurd hx not_mem_nil
  | node g l y r ihl ihr =>
    rw [Tree.inorder,mem_append,mem_cons] at hx
    rcases hx with hl | rfl | hr
    · obtain ⟨g',l',r',fs,rfl⟩ := ihl hl
      exact ⟨g',l',r',fs++[⟨.left,g,y,r⟩],by rw [plug_append]; rfl⟩
    · exact ⟨g,l,r,[],rfl⟩
    obtain ⟨g',l',r',fs,rfl⟩ := ihr hr
    exact ⟨g',l',r',fs++[⟨.right,g,y,l⟩],by rw [plug_append]; rfl⟩

lemma exists_first (ht : t ≠ Tree.nil) : ∃ g y r fs,
    t = plug (Tree.node g Tree.nil y r : Tree α γ) fs ∧ ∀ f ∈ fs, f.side = Side.left := by
  induction t with
  | nil => exact absurd rfl ht
  | node g l y r ihl _ =>
    by_cases hl : l = Tree.nil
    · exact ⟨g,y,r,[],hl ▸ rfl,nofun⟩
    obtain ⟨g',y',r',fs,rfl,hleft⟩ := ihl hl
    refine ⟨g',y',r',fs++[⟨.left,g,y,r⟩],by rw [plug_append]; rfl,?_⟩
    exact forall_mem_append.mpr ⟨hleft,forall_mem_singleton.mpr rfl⟩

lemma stored_plug {h : Heap α γ} {fs : List (Frame α γ)} : Stored h (plug t fs) ↔
    Holds h.cell (above none fs) t ∧ HoldsPath h.cell none t.root fs ∧ h.root = top t.root fs ∧
      (t.inorder++beside fs).Nodup := by
  constructor
  · rintro ⟨hholds,hroot,hnodup⟩
    obtain ⟨ht,hpath⟩ := holds_plug.mp hholds
    exact ⟨ht,hpath,hroot.trans (root_plug t fs),(inorder_plug_perm t fs).nodup_iff.mp hnodup⟩
  rintro ⟨ht,hpath,hroot,hnodup⟩
  exact ⟨holds_plug.mpr ⟨ht,hpath⟩,hroot.trans (root_plug t fs).symm, (inorder_plug_perm t fs).nodup_iff.mpr hnodup⟩

lemma Stored.cell_eq {h : Heap α γ} {fs : List (Frame α γ)} (hs : Stored h (plug (Tree.fork s g a x b) fs)) :
    h.cell x = Cell.fork s (above none fs) g a.root b.root :=
  (holds_fork.mp (stored_plug.mp hs).1).1

lemma Stored.frame_eq {h : Heap α γ} {f : Frame α γ} {fs : List (Frame α γ)} (hs : Stored h (plug t (f::fs))) :
    h.cell f.key = Cell.fork f.side (above none fs) f.tag t.root f.sibling.root :=
  (stored_plug.mp hs).2.1.1

lemma Stored.unique {h : Heap α γ} {t u : Tree α γ} (ht : Stored h t) (hu : Stored h u) : t = u := by
  have key : ∀ (t u : Tree α γ) (p : Option α), Holds h.cell p t → Holds h.cell p u → t.root = u.root → t = u := by
    intro t
    induction t with
    | nil =>
      intro u p _ _ hroot
      exact (Tree.root_eq_none_iff.mp hroot.symm).symm
    | node g l x r ihl ihr =>
      intro u p hht hhu hroot
      rcases u with _ | ⟨g',l',x',r'⟩
      · cases hroot
      obtain rfl := Option.some.inj hroot
      have hcell := hht.1.symm.trans hhu.1
      rw [Cell.mk.injEq] at hcell
      obtain ⟨-,rfl,hl,hr⟩ := hcell
      rw [ihl l' _ hht.2.1 hhu.2.1 hl,ihr r' _ hht.2.2 hhu.2.2 hr]
  exact key t u none ht.holds hu.holds (ht.root.symm.trans hu.root)

end Cells

section Pieces

/-- A part of a heap that a write touches as a whole: a cell, a subtree with the parent of its root, or
a path from a place up to a node with the parent `p`. -/
inductive Piece (α γ : Type)
  | cell (x : α) (c : Cell α γ)
  | tree (p : Option α) (t : Tree α γ)
  | path (p hole : Option α) (fs : List (Frame α γ))

namespace Piece

def names : Piece α γ → List α
  | cell x _ => [x]
  | tree _ t => t.inorder
  | path _ _ fs => beside fs

def In (h : Heap α γ) : Piece α γ → Prop
  | cell x c => h.cell x = c
  | tree p t => Holds h.cell p t
  | path p hole fs => HoldsPath h.cell p hole fs

lemma In.congr {h h' : Heap α γ} {q : Piece α γ} (hq : q.In h) (hsame : ∀ y ∈ q.names, h'.cell y = h.cell y) :
    q.In h' := by
  cases q with
  | cell x c => exact (hsame x mem_cons_self).trans hq
  | tree p t => exact Holds.congr hq hsame
  | path p hole fs => exact HoldsPath.congr hq hsame

end Piece

structure Sep (h : Heap α γ) (r : Option α) (l : List (Piece α γ)) : Prop where
  root : h.root = r
  holds : ∀ q ∈ l, q.In h
  nodup : (l.flatMap Piece.names).Nodup

variable {h h' : Heap α γ} {r r' : Option α} {q q' : Piece α γ} {l l2 : List (Piece α γ)}
  {x : α} {c : Cell α γ} {p : Option α} {s : Side} {g : γ} {a b t : Tree α γ} {fs : List (Frame α γ)}

namespace Sep

/-- A write to one of the pieces leaves the others as they are. -/
theorem write (hs : Sep h r (q::l)) (hq : q'.In h') (hnames : q'.names = q.names)
    (hsame : ∀ y ∉ q.names, h'.cell y = h.cell y) (hroot : h'.root = r') : Sep h' r' (q'::l) := by
  have hnodup := hs.nodup
  refine ⟨hroot,forall_mem_cons.mpr ⟨hq,fun q1 hq1 => ?_⟩,?_⟩
  · refine (hs.holds q1 (mem_cons_of_mem q hq1)).congr fun y hy => hsame y fun hyq => ?_
    exact (nodup_append.mp hnodup).2.2 y hyq y (mem_flatMap_of_mem hq1 hy) rfl
  · rwa [flatMap_cons,hnames]

lemma pick (l1 : List (Piece α γ)) (hs : Sep h r (l1++q::l2)) : Sep h r (q::(l1++l2)) :=
  ⟨hs.root,fun q1 hq1 => hs.holds q1 (perm_middle.mem_iff.mpr hq1),
    (perm_middle.flatMap_right _).nodup_iff.mp hs.nodup⟩

lemma replace {m n : List (Piece α γ)} (hs : Sep h r (m++l)) (hm : (∀ q ∈ m, q.In h) → ∀ q ∈ n, q.In h)
    (hnames : (m.flatMap Piece.names).Perm (n.flatMap Piece.names)) : Sep h r (n++l) := by
  obtain ⟨hroot,hholds,hnodup⟩ := hs
  rw [forall_mem_append] at hholds
  rw [flatMap_append] at hnodup
  refine ⟨hroot,forall_mem_append.mpr ⟨hm hholds.1,hholds.2⟩,?_⟩
  rw [flatMap_append]
  exact (hnames.append_right _).nodup_iff.mp hnodup

lemma cell_eq (hs : Sep h r (.cell x c::l)) : h.cell x = c := hs.holds _ mem_cons_self

lemma drop (hs : Sep h r (q::l)) : Sep h r l :=
  ⟨hs.root,fun q1 hq1 => hs.holds q1 (mem_cons_of_mem q hq1),(nodup_append.mp hs.nodup).2.1⟩

lemma notMem (hs : Sep h r (.cell x c::q::l)) : x ∉ q.names := by
  have hnodup := hs.nodup
  exact fun hx => (nodup_cons.mp hnodup).1 (mem_append_left _ hx : x ∈ q.names++_)

end Sep

lemma sep_fork : Sep h r (.tree p (Tree.fork s g a x b)::l) ↔
    Sep h r (.cell x (Cell.fork s p g a.root b.root) :: .tree (some x) a :: .tree (some x) b::l) := by
  have hperm : ([Piece.tree p (Tree.fork s g a x b)].flatMap Piece.names).Perm
      ([Piece.cell x (Cell.fork s p g a.root b.root),.tree (some x) a,.tree (some x) b].flatMap
        Piece.names) := by
    simpa [Piece.names] using Tree.inorder_fork_perm
  constructor
  · intro hs
    refine Sep.replace (m := [_]) (n := [_,_,_]) hs (fun hm => ?_) hperm
    simpa [Piece.In] using holds_fork.mp (hm _ mem_cons_self)
  intro hs
  refine Sep.replace (m := [_,_,_]) (n := [_]) hs (fun hm => ?_) hperm.symm
  simpa [Piece.In,holds_fork] using hm

lemma sep_plug : Sep h r (.tree p (plug t fs)::l) ↔ Sep h r (.tree (above p fs) t :: .path p t.root fs::l) := by
  have hperm : ([Piece.tree p (plug t fs)].flatMap Piece.names).Perm
      ([Piece.tree (above p fs) t,.path p t.root fs].flatMap Piece.names) := by
    simpa [Piece.names] using inorder_plug_perm t fs
  constructor
  · intro hs
    refine Sep.replace (m := [_]) (n := [_,_]) hs (fun hm => ?_) hperm
    simpa [Piece.In] using holds_plug.mp (hm _ mem_cons_self)
  intro hs
  refine Sep.replace (m := [_,_]) (n := [_]) hs (fun hm => ?_) hperm.symm
  simpa [Piece.In,holds_plug] using hm

lemma sep_frame {hole : Option α} {f : Frame α γ} : Sep h r (.path p hole (f::fs)::l) ↔
    Sep h r (.cell f.key (Cell.fork f.side (above p fs) f.tag hole f.sibling.root) ::
      .tree (some f.key) f.sibling :: .path p (some f.key) fs::l) := by
  have hnames : [Piece.path p hole (f::fs)].flatMap Piece.names =
      [Piece.cell f.key (Cell.fork f.side (above p fs) f.tag hole f.sibling.root),
        .tree (some f.key) f.sibling,.path p (some f.key) fs].flatMap Piece.names := by
    simp [Piece.names,beside]
  constructor
  · intro hs
    refine Sep.replace (m := [_]) (n := [_,_,_]) hs (fun hm => ?_) (.of_eq hnames)
    simpa [Piece.In,HoldsPath] using hm
  intro hs
  refine Sep.replace (m := [_,_,_]) (n := [_]) hs (fun hm => ?_) (.of_eq hnames.symm)
  simpa [Piece.In,HoldsPath] using hm

lemma sep_stored : Stored h t ↔ Sep h t.root [.tree none t] := by
  constructor
  · rintro ⟨hholds,hroot,hnodup⟩
    exact ⟨hroot,by simpa [Piece.In] using hholds,by simpa [Piece.names] using hnodup⟩
  rintro ⟨hroot,hholds,hnodup⟩
  exact ⟨hholds _ mem_cons_self,hroot,by simpa [Piece.names] using hnodup⟩

lemma sep_stored_plug : Stored h (plug t fs) ↔
    Sep h (top t.root fs) [.tree (above none fs) t,.path none t.root fs] := by
  rw [sep_stored,sep_plug,root_plug]

end Pieces

end Shapes

section Writes

variable {α γ : Type} [DecidableEq α]

namespace Heap

def modify (h : Heap α γ) (x : α) (f : Cell α γ → Cell α γ) : Heap α γ :=
  {h with cell := Function.update h.cell x (f (h.cell x))}

def setParentOf (h : Heap α γ) (x : Option α) (p : Option α) : Heap α γ :=
  match x with
  | none => h
  | some x => h.modify x (·.setParent p)

/-- Let the pointer to one node, from its parent or as the root, point to another. The parent is asked
whether the node is its child on one side. -/
def replaceChild (h : Heap α γ) (s : Side) (parent old new : Option α) : Heap α γ :=
  match parent with
  | none => {h with root := new}
  | some p =>
    if (h.cell p).child s = old then h.modify p (·.setChild s new)
    else h.modify p (·.setChild s.flip new)

variable {h : Heap α γ} {x y : α} {f : Cell α γ → Cell α γ} {p q : Option α} {t : Tree α γ}

@[simp] lemma modify_self : (h.modify x f).cell x = f (h.cell x) := update_self ..

lemma modify_of_ne (hne : y ≠ x) : (h.modify x f).cell y = h.cell y := update_of_ne hne ..

end Heap

open Heap

variable {h : Heap α γ} {r : Option α} {l : List (Piece α γ)} {x : α} {c : Cell α γ} {p : Option α}
  {s : Side} {g : γ} {a b t : Tree α γ} {fs : List (Frame α γ)}

lemma Sep.modify (hs : Sep h r (.cell x c::l)) (f : Cell α γ → Cell α γ) :
    Sep (h.modify x f) r (.cell x (f c)::l) := by
  refine hs.write ?_ rfl (fun y hy => modify_of_ne fun heq => hy (mem_singleton.mpr heq)) hs.root
  exact modify_self.trans (congrArg f hs.cell_eq)

lemma Sep.alloc (hs : Sep h r l) (hx : x ∉ l.flatMap Piece.names) (f : Cell α γ → Cell α γ) :
    Sep (h.modify x f) r (.cell x (f (h.cell x))::l) := by
  refine ⟨hs.root,forall_mem_cons.mpr ⟨modify_self,fun q hq => ?_⟩,nodup_cons.mpr ⟨hx,hs.nodup⟩⟩
  refine (hs.holds q hq).congr fun y hy => modify_of_ne fun heq => hx ?_
  exact heq ▸ mem_flatMap_of_mem hq hy

lemma Sep.setParentOf (hs : Sep h r (.tree p t::l)) (p' : Option α) :
    Sep (h.setParentOf t.root p') r (.tree p' t::l) := by
  cases t with
  | nil => exact hs.write trivial rfl (fun _ _ => rfl) hs.root
  | node g a x b =>
    have hset := Sep.modify ((sep_fork (s := .left)).mp hs) (·.setParent p')
    exact (sep_fork (s := .left)).mpr hset

lemma Sep.replaceChild (hs : Sep h (top (some x) fs) (.path none (some x) fs::l)) (hx : x ∉ beside fs)
    (s : Side) (new : Option α) :
    Sep (h.replaceChild s (above none fs) (some x) new) (top new fs) (.path none new fs::l) := by
  rcases fs with _ | ⟨f,fs⟩
  · exact hs.write trivial rfl (fun _ _ => rfl) rfl
  have hs' := sep_frame.mp hs
  have hne : f.sibling.root ≠ some x := fun heq =>
    hx (mem_cons_of_mem _ (mem_append_left _ (Tree.root_mem heq)))
  have hwrite : h.replaceChild s (above none (f::fs)) (some x) new = h.modify f.key (·.setChild f.side new) := by
    unfold Heap.replaceChild above
    dsimp only
    rw [hs'.cell_eq]
    by_cases hs : s = f.side
    · subst hs
      rw [Cell.fork_child,if_pos rfl]
    have hflip : s = f.side.flip := by
      cases s <;> cases hf : f.side <;> simp_all [Side.flip]
    rw [hflip,Cell.fork_child_flip,if_neg hne,Side.flip_flip]
  have hset := hs'.modify (·.setChild f.side new)
  rw [Cell.fork_setChild] at hset
  rw [hwrite]
  exact sep_frame.mpr hset

lemma Stored.setTag {g' : γ} (hs : Stored h (plug (Tree.fork s g a x b) fs)) :
    Stored (h.modify x (·.setTag g')) (plug (Tree.fork s g' a x b) fs) := by
  rw [sep_stored_plug,Tree.root_fork] at hs ⊢
  have hset := (sep_fork.mp hs).modify (·.setTag g')
  rw [Cell.fork_setTag] at hset
  exact sep_fork.mpr hset

end Writes

end ParentTree

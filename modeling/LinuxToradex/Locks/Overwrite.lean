import LinuxToradex.Locks.FileLock

/-! The second loop of `__posix_lock_file` passes locks below the request, possibly cuts one of them (`left`),
and then ends or makes one lock of the list the request, into which the rest are merged. -/
namespace LinuxToradex.Locks
open Option List Ranges

variable {Owner : Type}
variable {l m : List (Span LockType)} {pre rest : List (FileLock Owner)} {fl : FileLock Owner}

abbrev spans (l : List (FileLock Owner)) : List (Span LockType) := l.map FileLock.toSpan

abbrev ids (l : List (FileLock Owner)) : List Nat := l.map FileLock.id

section Modify
variable {p : Option Nat} {f : FileLock Owner → FileLock Owner} {l : List (FileLock Owner)}

@[simp] lemma modify_none : modify none f l = l := by
  unfold modify
  simp

@[simp] lemma modify_append : modify p f (l++rest) = modify p f l++modify p f rest :=
  map_append

lemma modify_of_ne (h : ∀ fl ∈ l, some fl.id ≠ p) : modify p f l = l := by
  conv_rhs => rw [← map_id l]
  exact map_congr_left fun fl hfl => if_neg (h fl hfl)

lemma modify_of_notMem {id : Nat} (h : id ∉ ids l) : modify (some id) f l = l := by
  refine modify_of_ne fun fl hfl heq => h ?_
  rw [← some.inj heq]
  exact mem_map_of_mem hfl

lemma modify_cons_self (h : fl.id ∉ ids l) : modify (some fl.id) f (fl::l) = f fl::l := by
  change (if some fl.id = some fl.id then f fl else fl)::modify (some fl.id) f l = f fl::l
  rw [if_pos rfl,modify_of_notMem h]

lemma modify_front (hp : ∀ id, p = some id → id ∈ ids pre) (hrest : ∀ fl ∈ rest, fl.id ∉ ids pre) :
    modify p f (pre++rest) = modify p f pre++rest := by
  rw [modify_append,modify_of_ne (l := rest)]
  exact fun fl hfl heq => hrest fl hfl (hp fl.id (Eq.symm heq))

lemma modify_middle (f : FileLock Owner → FileLock Owner) (hpre : fl.id ∉ ids pre) (hrest : fl.id ∉ ids rest) :
    modify (some fl.id) f (pre++fl::rest) = pre++f fl::rest := by
  rw [modify_append,modify_of_notMem hpre,modify_cons_self hrest]

lemma notMem_of_nodup (h : (ids (pre++fl::rest)).Nodup) : fl.id ∉ ids pre ∧ fl.id ∉ ids rest := by
  rw [ids,map_append,map_cons,(perm_middle).nodup_iff,nodup_cons,mem_append,not_or] at h
  exact h.1

lemma disjoint_of_nodup (h : (ids (pre++rest)).Nodup) : ∀ fl ∈ rest, fl.id ∉ ids pre := by
  intro fl hfl hmem
  rw [ids,map_append] at h
  exact (nodup_append.mp h).2.2 _ hmem _ (mem_map_of_mem hfl) rfl

lemma nodup_write (h : (ids (pre++fl::rest)).Nodup) (fl' : FileLock Owner) (hid : fl'.id = fl.id) :
    (ids (pre++fl'::rest)).Nodup := by
  rw [ids,map_append,map_cons] at h ⊢
  rw [hid]
  exact h

lemma nodup_insert (h : (ids (pre++rest)).Nodup) (fl : FileLock Owner) (hid : fl.id ∉ ids (pre++rest)) :
    (ids (pre++fl::rest)).Nodup := by
  rw [ids,map_append] at h hid
  rw [ids,map_append,map_cons,perm_middle.nodup_iff]
  exact nodup_cons.mpr ⟨hid,h⟩

lemma find_by_id (hnodup : (ids l).Nodup) (hfl : fl ∈ l) : l.find? (fun x => decide (x.id = fl.id)) = some fl := by
  induction l with
  | nil => exact absurd hfl not_mem_nil
  | cons x l ih =>
    obtain ⟨hx,hnodup⟩ := nodup_cons.mp hnodup
    rcases mem_cons.mp hfl with rfl | hfl
    · exact find?_cons_of_pos (decide_eq_true rfl)
    have hne : x.id ≠ fl.id := fun heq => hx (heq ▸ mem_map_of_mem hfl)
    rw [find?_cons_of_neg (by simpa using hne)]
    exact ih hnodup hfl

end Modify

section Finish
variable {w : Walk Owner}

lemma cut_right (mid : List (FileLock Owner)) (n : Nat) (hright : w.right = some fl.id)
    (hleft : ∀ id, w.left = some id → id ∈ ids pre) (hlist : w.passed++w.rest = pre++(mid++fl::rest))
    (hnodup : (ids (pre++(mid++fl::rest))).Nodup) :
    (w.cut n).1 = modify w.left (fun fl => {fl with stop := w.request.start - 1}) pre ++
      (mid++{fl with start := w.request.stop+1}::rest) := by
  have hne : w.left ≠ some fl.id := fun heq => disjoint_of_nodup hnodup fl (by simp) (hleft fl.id heq)
  rw [← append_assoc] at hnodup hlist
  obtain ⟨hfront,hrest⟩ := notMem_of_nodup hnodup
  unfold Walk.cut
  rw [hright]
  simp only [isSome_some,Bool.true_and,decide_eq_true_eq,if_neg hne]
  rw [hlist,modify_middle _ hfront hrest,append_assoc,modify_front hleft]
  refine disjoint_of_nodup ?_
  rw [← append_assoc]
  exact nodup_write hnodup _ rfl

lemma cut_apart (n : Nat) (mid : List (FileLock Owner)) (hright : w.right = some fl.id)
    (hleft : w.left = some fl.id) (hpassed : w.passed = pre) (hrest : w.rest = mid++fl::rest)
    (hnodup : (ids (pre++mid++fl::rest)).Nodup) (hn : n ∉ ids (pre++mid++fl::rest)) :
    (w.cut n).1 = pre++{fl with id := n, stop := w.request.start - 1}::(mid ++
      {fl with start := w.request.stop+1}::rest) := by
  have hfind : (w.passed++w.rest).find? (fun x => decide (some x.id = some fl.id)) = some fl := by
    simp only [some.injEq]
    rw [hpassed,hrest,← append_assoc]
    exact find_by_id hnodup (mem_append_right _ mem_cons_self)
  unfold Walk.cut Walk.insertLock
  rw [hright,hleft]
  simp only [isSome_some,decide_true,Bool.true_and,if_true]
  rw [hfind]
  rw [hpassed,hrest]
  simp only [ids,map_append,map_cons,mem_append,mem_cons,not_or] at hn
  obtain ⟨⟨hnpre,hnnew⟩,hne,hnrest⟩ := hn
  obtain ⟨hflfront,hflrest⟩ := notMem_of_nodup hnodup
  have hfirst := modify_middle (fun x => {x with start := w.request.stop+1})
    (show fl.id ∉ ids (pre++{fl with id := n}::mid) by simpa [Ne.symm hne] using hflfront) hflrest
  rw [append_assoc,cons_append] at hfirst
  have hsecond := modify_middle (fun x => {x with stop := w.request.start - 1})
    (show ({fl with id := n} : FileLock Owner).id ∉ ids pre from hnpre)
    (show n ∉ ids (mid++{fl with start := w.request.stop+1}::rest) by simp [hnnew,hne,hnrest])
  rw [hfirst,append_assoc,cons_append,hsecond]

end Finish

section Ends
variable {newFl newFl2 : Option Nat} {flExists : Bool} {own mid : List (FileLock Owner)}
  {w : Walk Owner} {fl' : FileLock Owner} {left : Option Nat} {r : Span LockType}
  {new : Option LockType} {result : Ret × List (FileLock Owner) × List Nat} {owner : Owner}

def Owned (owner : Owner) (l : List (FileLock Owner)) : Prop := ∀ fl ∈ l, fl.owner = owner ∧ fl.posix = true

lemma Owned.middle (h : Owned owner (mid++fl::own)) (hsame : fl'.owner = fl.owner ∧ fl'.posix = fl.posix) :
    Owned owner (mid++fl'::own) := by
  obtain ⟨hmid,hown⟩ := forall_mem_append.mp h
  obtain ⟨hfl,hown⟩ := forall_mem_cons.mp hown
  refine forall_mem_append.mpr ⟨hmid,forall_mem_cons.mpr ⟨?_,hown⟩⟩
  rw [hsame.1,hsame.2]
  exact hfl

lemma spans_append (l m : List (FileLock Owner)) : spans (l++m) = spans l++spans m :=
  map_append

lemma spans_cons (fl : FileLock Owner) (l : List (FileLock Owner)) : spans (fl::l) = fl.toSpan::spans l :=
  rfl

lemma before_all {x r : Span LockType} (h : Canonical (x::l)) (hr : r.Before x) : ∀ y ∈ x::l, r.Before y := by
  intro y hy
  rcases mem_cons.mp hy with rfl | hy
  · exact hr
  have hlt := (h.before y hy).1
  have hx := h.1 x mem_cons_self
  have hrx := hr.1
  exact ⟨by omega,fun _ => by omega⟩

def Written (r : Span LockType) (new : Option LockType) (l : List (Span LockType)) : Prop :=
  (new = some r.value ∧ l = [r]) ∨ (new = none ∧ l = [])

lemma Written.overwrites (h : Written r new m) (hcanon : Canonical l) (hr : r.start ≤ r.stop)
    (hbefore : ∀ y ∈ l, r.Before y) : Overwrites l r new (m++l) := by
  rcases h with ⟨rfl,rfl⟩ | ⟨rfl,rfl⟩
  · exact Overwrites.set hcanon hr hbefore
  · exact Overwrites.clear hcanon fun y hy => (hbefore y hy).1

lemma Written.raised {x : Span LockType} (h : Written r new m) (hcanon : Canonical (x::l))
    (hr : r.start ≤ r.stop) (hvalue : r.value ≠ x.value) (hstop : r.stop < x.stop) :
    Overwrites ({x with start := r.stop+1}::l) r new (m++{x with start := r.stop+1}::l) :=
  h.overwrites (hcanon.raise hstop) hr
    (before_all (hcanon.raise hstop) ⟨by dsimp only; omega,fun heq => absurd heq hvalue⟩)

/-- A call succeeds, cuts the lock on the left and overwrites the range in the locks of the owner that
are left. -/
def Ends (owner : Owner) (r : Span LockType) (new : Option LockType) (left : Option Nat)
    (pre own rest : List (FileLock Owner)) (result : Ret × List (FileLock Owner) × List Nat) : Prop :=
  result.1 = .ok ∧ ∃ own', result.2.1 = modify left (fun fl => {fl with stop := r.start - 1}) pre++(own' ++ rest) ∧
    Overwrites (spans own) r new (spans own') ∧ Owned owner own'

def Refused (pre own rest : List (FileLock Owner)) (result : Ret × List (FileLock Owner) × List Nat) : Prop :=
  result.1 ≠ .ok ∧ result.2.1 = pre++(own++rest)

/-- The request is in the list or will not be: what is left is to cut the locks on both sides. -/
structure Cuts (w : Walk Owner) (owner : Owner) (new : Option LockType)
    (pre mid own rest : List (FileLock Owner)) : Prop where
  valid : w.request.start ≤ w.request.stop
  written : Written w.request.toSpan new (spans mid)
  owned : Owned owner (mid++own)
  canonical : Canonical (spans own)
  list : w.passed++w.rest = pre++(mid++(own++rest))
  nodup : (ids (pre++(mid++(own++rest)))).Nodup

namespace Cuts

lemma ends_break (h : Cuts w owner new pre mid own rest) (hright : w.right = none)
    (hleft : ∀ id, w.left = some id → id ∈ ids pre) (hbefore : ∀ y ∈ spans own, w.request.toSpan.Before y)
    (n : Nat) : Ends owner w.request.toSpan new w.left pre own rest (.ok,w.cut n) := by
  refine ⟨rfl,mid++own,?_,?_,h.owned⟩
  · unfold Walk.cut
    rw [hright]
    simp only [isSome_none,Bool.false_and,Bool.false_eq_true,if_false]
    rw [modify_none,h.list,modify_front hleft (disjoint_of_nodup h.nodup),append_assoc]
  rw [spans_append]
  exact h.written.overwrites h.canonical h.valid hbefore

lemma ends_right (h : Cuts w owner new pre mid (fl::own) rest) (hright : w.right = some fl.id)
    (hleft : ∀ id, w.left = some id → id ∈ ids pre) (hvalue : w.request.value ≠ fl.value)
    (hstart : w.request.start ≤ fl.start) (hin : fl.start ≤ w.request.stop) (hstop : w.request.stop < fl.stop)
    (n : Nat) : Ends owner w.request.toSpan new w.left pre (fl::own) rest (.ok,w.cut n) := by
  refine ⟨rfl,mid++{fl with start := w.request.stop+1}::own,?_,?_,h.owned.middle ⟨rfl,rfl⟩⟩
  · rw [cut_right mid n hright hleft h.list h.nodup,append_assoc]
    rfl
  rw [spans_append]
  exact Overwrites.trim hstart hin (h.written.raised h.canonical h.valid hvalue hstop)

/-- The request lies inside a lock, which is cut in two. -/
theorem ends_apart (h : Cuts w owner new pre mid (fl::own) rest) (hpassed : w.passed = pre)
    (hright : w.right = some fl.id) (hleft : w.left = some fl.id) (hvalue : w.request.value ≠ fl.value)
    (hstart : fl.start < w.request.start) (hstop : w.request.stop < fl.stop) {n : Nat}
    (hn : n ∉ ids (pre++(mid++(fl::own++rest)))) :
    Ends owner w.request.toSpan new none pre (fl::own) rest (.ok,w.cut n) := by
  have hrest : w.rest = mid++fl::(own++rest) :=
    append_cancel_left ((congrArg (· ++ w.rest) hpassed.symm).trans h.list)
  have hnodup := h.nodup
  rw [cons_append,← append_assoc] at hnodup hn
  refine ⟨rfl,{fl with id := n, stop := w.request.start - 1}::(mid ++
    {fl with start := w.request.stop+1}::own),?_,?_,?_⟩
  · rw [modify_none,cut_apart n mid hright hleft hpassed hrest hnodup hn]
    simp
  · rw [spans_cons,spans_cons,spans_append]
    exact Overwrites.split h.canonical.before h.valid hstart hstop hvalue.symm
      (h.written.raised h.canonical h.valid hvalue hstop)
  · exact forall_mem_cons.mpr ⟨h.owned fl (by simp),h.owned.middle ⟨rfl,rfl⟩⟩

end Cuts

def Settles (owner : Owner) (r : Span LockType) (new : Option LockType) (left : Option Nat)
    (pre own rest : List (FileLock Owner)) (result : Ret × List (FileLock Owner) × List Nat) : Prop :=
  Refused pre own rest result ∨ Ends owner r new left pre own rest result

lemma finish_added (hadded : w.added = true) (hapart : ¬(w.right.isSome ∧ w.left = w.right ∧ newFl2 = none)) :
    w.finish newFl newFl2 flExists = (.ok,w.cut (newFl2.getD 0)) := by
  unfold Walk.finish
  rw [if_neg hapart,if_pos hadded]

/-- The loop ends before the request is in the list: it is inserted, if there is a structure for it. -/
theorem settles_new (hadded : w.added = false) (hvalue : w.request.value ≠ .unlck)
    (hlist : w.passed++w.rest = pre++(own++rest))
    (hends : ∀ id, newFl = some id → (w.right.isSome → w.left = w.right → newFl2 ≠ none) →
      Ends owner r new left pre own rest (.ok,(w.insertLock {w.request with id := id}).cut (newFl2.getD 0))) :
    Settles owner r new left pre own rest (w.finish newFl newFl2 flExists) := by
  unfold Walk.finish
  by_cases hapart : w.right.isSome ∧ w.left = w.right ∧ newFl2 = none
  · rw [if_pos hapart]
    exact .inl ⟨nofun,hlist⟩
  rw [if_neg hapart,hadded,if_neg (by decide),if_neg hvalue]
  cases newFl with
  | none => exact .inl ⟨nofun,hlist⟩
  | some id => exact .inr (hends id rfl fun hsome heq hnone => hapart ⟨hsome,heq,hnone⟩)

/-- The loop of an unlock request ends above it. -/
theorem clear_break {added : Bool} {woken : List Nat} {q : FileLock Owner} (hvalue : q.value = .unlck)
    (hadded : added = false → left = none) (hleft : ∀ id, left = some id → id ∈ ids pre)
    (h : Cuts ⟨pre,own++rest,q,left,none,added,woken⟩ owner none pre [] own rest)
    (hbefore : ∀ y ∈ spans own, q.toSpan.Before y) : (added = false ∧ Refused pre own rest
      ((Walk.mk pre (own++rest) q left none added woken).finish newFl newFl2 flExists)) ∨
    Ends owner q.toSpan none left pre own rest
      ((Walk.mk pre (own++rest) q left none added woken).finish newFl newFl2 flExists) := by
  cases added with
  | true =>
    rw [finish_added rfl (by simp)]
    exact .inr (h.ends_break rfl hleft hbefore _)
  | false =>
    obtain rfl := hadded rfl
    unfold Walk.finish
    rw [if_neg (by simp),if_neg (by simp),if_pos hvalue]
    cases flExists with
    | true => exact .inl ⟨rfl,nofun,rfl⟩
    | false =>
      refine .inr ⟨rfl,own,?_,Overwrites.clear h.canonical fun y hy => (hbefore y hy).1,h.owned⟩
      rw [modify_none]

lemma Refused.pass (h : Refused (pre++[fl]) own rest result) : Refused pre (fl::own) rest result :=
  ⟨h.1,h.2.trans (append_assoc pre [fl] _)⟩

section
variable (hown : Owned owner (fl::own)) (hcanon : Canonical (spans (fl::own)))
include hown hcanon

lemma Ends.pass (hbefore : fl.toSpan.Before r) (h : Ends owner r new none (pre++[fl]) own rest result) :
    Ends owner r new none pre (fl::own) rest result := by
  obtain ⟨hok,own',hlist,hover,hown'⟩ := h
  refine ⟨hok,fl::own',?_,hover.below (hcanon.1 _ mem_cons_self) hcanon.before hbefore,
    forall_mem_cons.mpr ⟨hown fl mem_cons_self,hown'⟩⟩
  rw [hlist,modify_none,modify_none,append_assoc]
  rfl

lemma Ends.passLeft (hpre : fl.id ∉ ids pre) (hstart : fl.start < r.start)
    (hin : r.start ≤ fl.stop) (hstop : fl.stop ≤ r.stop) (hvalue : fl.value ≠ r.value)
    (h : Ends owner r new (some fl.id) (pre++[fl]) own rest result) :
    Ends owner r new none pre (fl::own) rest result := by
  obtain ⟨hok,own',hlist,hover,hown'⟩ := h
  refine ⟨hok,{fl with stop := r.start - 1}::own',?_, hover.left hcanon.before hstart hin hstop hvalue,
    forall_mem_cons.mpr ⟨hown fl mem_cons_self,hown'⟩⟩
  rw [hlist,modify_none,modify_middle _ hpre (fun h => absurd h not_mem_nil),append_assoc]
  rfl

end

lemma Ends.covered (hstart : r.start ≤ fl.start) (hstop : fl.stop ≤ r.stop)
    (h : Ends owner r new left pre own rest result) : Ends owner r new left pre (fl::own) rest result := by
  obtain ⟨hok,own',hlist,hover,hown'⟩ := h
  exact ⟨hok,own',hlist,hover.covered hstart hstop,hown'⟩

lemma Ends.absorb (hull : Span LockType) (hvalue : fl.value = r.value) (htouch : fl.start ≤ r.stop+1)
    (htouch' : r.start ≤ fl.stop+1) (hr : r.start ≤ r.stop) (hstart : hull.start = min r.start fl.start)
    (hstop : hull.stop = max r.stop fl.stop) (hhull : hull.value = r.value)
    (hleft : left ≠ none → r.start ≤ fl.start) (h : Ends owner hull (some r.value) left pre own rest result) :
    Ends owner r (some r.value) left pre (fl::own) rest result := by
  obtain ⟨hok,own',hlist,hover,hown'⟩ := h
  refine ⟨hok,own',hlist.trans ?_,hover.absorb hull hvalue htouch htouch' hr hstart hstop hhull,hown'⟩
  by_cases hnone : left = none
  · rw [hnone,modify_none,modify_none]
  have hsame : hull.start = r.start := by
    have hle := hleft hnone
    omega
  rw [hsame]

end Ends

section Loop
variable [DecidableEq Owner] {newFl newFl2 : Option Nat} {flExists : Bool}
  {pre own rest : List (FileLock Owner)} {q fl : FileLock Owner} {left : Option Nat}

lemma processLoop_stop {w : Walk Owner} (h : ∀ fl ∈ rest.head?, fl.owner ≠ w.request.owner) :
    processLoop w rest = {w with rest := rest} := by
  rcases rest with _ | ⟨fl,rest⟩
  · rfl
  have hne := h fl rfl
  rw [processLoop,if_pos]
  simpa [posixSameOwner] using hne.symm

lemma start_eq_min {a b : Int} : (if a > b then b else a) = min b a := by
  split <;> omega

lemma stop_eq_max {a b : Int} : (if a < b then b else a) = max b a := by
  split <;> omega

/-- Once a lock of the list is the request, the locks after it are merged into it, deleted or cut. -/
theorem processLoop_added (hC : ∀ fl ∈ rest.head?, fl.owner ≠ q.owner) (hvalue : q.value ≠ .unlck)
    (hq : q.start ≤ q.stop) (hown : Owned q.owner (q::own)) (hcanon : Canonical (spans own))
    (habove : ∀ fl ∈ own, q.start ≤ fl.start) (hleft : ∀ id, left = some id → id ∈ ids pre)
    (hnodup : (ids (pre++q::(own++rest))).Nodup) (old : List (FileLock Owner)) (woken : List Nat) :
    Ends q.owner q.toSpan (some q.value) left pre own rest
      ((processLoop ⟨pre++[q],old,q,left,none,true,woken⟩ (own++rest)).finish newFl newFl2 flExists) := by
  induction own generalizing q woken with
  | nil =>
    rw [nil_append,processLoop_stop hC,finish_added rfl (by simp)]
    exact Cuts.ends_break ⟨hq,.inl ⟨rfl,rfl⟩,hown,hcanon,append_assoc pre [q] _,hnodup⟩ rfl hleft
      (fun y hy => absurd hy not_mem_nil) _
  | cons fl own ih =>
    obtain ⟨hqown,hrestown⟩ := forall_mem_cons.mp hown
    obtain ⟨⟨hflowner,hflposix⟩,hownown⟩ := forall_mem_cons.mp hrestown
    have hflstart := habove fl mem_cons_self
    have hflvalid : fl.start ≤ fl.stop := hcanon.1 fl.toSpan (by simp)
    have hsame : posixSameOwner q fl = true := by simp [posixSameOwner,hflowner]
    have hcuts : ∀ right, Cuts ⟨pre++[q],fl::(own++rest),q,left,right,true,woken⟩ q.owner
        (some q.value) pre [q] (fl::own) rest := fun right =>
      ⟨hq,.inl ⟨rfl,rfl⟩,hown,hcanon,append_assoc pre [q] _,hnodup⟩
    have hnodup' : (ids (pre++q::(own++rest))).Nodup :=
      hnodup.sublist (List.Sublist.map _ (List.Sublist.append_left
        (List.Sublist.cons_cons q (sublist_cons_self fl _)) pre))
    rw [cons_append,processLoop]
    dsimp only
    rw [if_neg (by simp [hsame])]
    by_cases htype : q.value = fl.value
    · rw [if_pos htype,if_neg (by omega)]
      by_cases hfar : fl.start-1 > q.stop
      · rw [if_pos hfar,finish_added rfl (by simp)]
        exact (hcuts none).ends_break rfl hleft
          (before_all hcanon ⟨by dsimp only; omega,fun _ => by dsimp only; omega⟩) _
      rw [if_neg hfar,if_pos rfl,start_eq_min,Int.min_eq_left hflstart]
      rw [stop_eq_max,modify_middle _ (notMem_of_nodup hnodup).1 (fun h => absurd h not_mem_nil)]
      have hrun := ih (q := {q with stop := max q.stop fl.stop}) hC hvalue (by dsimp only; omega)
        (forall_mem_cons.mpr ⟨hqown,hownown⟩) hcanon.tail
        (fun x hx => habove x (mem_cons_of_mem fl hx)) (nodup_write hnodup' _ rfl) (woken++[fl.id])
      exact hrun.absorb ⟨q.start,max q.stop fl.stop,q.value⟩ htype.symm (by omega) (by omega) hq
        (by dsimp only; omega) rfl rfl (fun _ => hflstart)
    rw [if_neg htype,if_neg (by omega)]
    by_cases hfar : fl.start > q.stop
    · rw [if_pos hfar,finish_added rfl (by simp)]
      exact (hcuts none).ends_break rfl hleft (before_all hcanon ⟨hfar,fun heq => absurd heq htype⟩) _
    rw [if_neg hfar,if_neg (Int.not_lt.mpr hflstart),Bool.true_or]
    by_cases hend : fl.stop > q.stop
    · have hne : left ≠ some fl.id := fun heq => disjoint_of_nodup hnodup fl (by simp) (hleft fl.id heq)
      rw [if_pos hend,finish_added rfl (by simp [hne])]
      exact (hcuts (some fl.id)).ends_right rfl hleft htype hflstart (Int.not_lt.mp hfar) hend _
    rw [if_neg hend,if_pos hflstart,if_pos rfl]
    exact Ends.covered hflstart (by omega) (ih hC hvalue hq (forall_mem_cons.mpr ⟨hqown,hownown⟩)
      hcanon.tail (fun x hx => habove x (mem_cons_of_mem fl hx)) hnodup' (woken++[fl.id]))

/-- The loop of a lock request, while the request is not in the list. -/
theorem processLoop_set (left : Option Nat) (hC : ∀ fl ∈ rest.head?, fl.owner ≠ q.owner) (hvalue : q.value ≠ .unlck)
    (hq : q.start ≤ q.stop) (hposix : q.posix = true) (hown : Owned q.owner own)
    (hcanon : Canonical (spans own)) (hleft : ∀ id, left = some id → id ∈ ids pre)
    (habove : left ≠ none → ∀ fl ∈ own, q.start ≤ fl.start) (hnodup : (ids (pre++(own++rest))).Nodup)
    (hnew : ∀ id, newFl = some id → id ∉ ids (pre++(own++rest)))
    (hnew2 : ∀ id, newFl2 = some id → id ∉ ids (pre++(own++rest)) ∧ newFl ≠ some id)
    (old : List (FileLock Owner)) (woken : List Nat) : Settles q.owner q.toSpan (some q.value) left pre own rest
      ((processLoop ⟨pre,old,q,left,none,false,woken⟩ (own++rest)).finish newFl newFl2 flExists) := by
  induction own generalizing pre left woken with
  | nil =>
    rw [nil_append,processLoop_stop hC]
    have hcuts : ∀ id, newFl = some id → Cuts ((Walk.mk pre rest q left none false woken).insertLock
        {q with id := id}) q.owner (some q.value) pre [{q with id := id}] [] rest := fun id hid =>
      ⟨hq,.inl ⟨rfl,rfl⟩,forall_mem_cons.mpr ⟨⟨rfl,hposix⟩,hown⟩,hcanon,rfl, nodup_insert hnodup _ (hnew id hid)⟩
    exact settles_new rfl hvalue rfl fun id hid _ =>
      (hcuts id hid).ends_break rfl hleft (fun y hy => absurd hy not_mem_nil) _
  | cons fl own ih =>
    obtain ⟨⟨hflowner,hflposix⟩,hownown⟩ := forall_mem_cons.mp hown
    have hflvalid : fl.start ≤ fl.stop := hcanon.1 fl.toSpan (by simp)
    have hafter : ∀ x ∈ own, fl.stop < x.start := fun x hx =>
      (hcanon.before x.toSpan (mem_map_of_mem hx)).1
    have hsame : posixSameOwner q fl = true := by simp [posixSameOwner,hflowner]
    have hassoc : pre++(fl::own++rest) = (pre++[fl])++(own++rest) := by simp
    -- a lock below the request is only met while nothing was cut
    have hpass : fl.start < q.start → left = none := by
      intro hlt
      by_contra hsome
      have hge := habove hsome fl mem_cons_self
      omega
    have hcuts : ∀ id, newFl = some id → ∀ left right, Cuts
        ((Walk.mk pre (fl::(own++rest)) q left right false woken).insertLock {q with id := id}) q.owner
        (some q.value) pre [{q with id := id}] (fl::own) rest := fun id hid left right =>
      ⟨hq,.inl ⟨rfl,rfl⟩,forall_mem_cons.mpr ⟨⟨rfl,hposix⟩,hown⟩,hcanon,rfl, nodup_insert hnodup _ (hnew id hid)⟩
    have hbreak : q.toSpan.Before fl.toSpan → Settles q.owner q.toSpan (some q.value) left pre (fl::own) rest
        ((Walk.mk pre (fl::(own++rest)) q left none false woken).finish newFl newFl2 flExists) := fun hbefore =>
      settles_new rfl hvalue rfl fun id hid _ =>
        (hcuts id hid left none).ends_break rfl hleft (before_all hcanon hbefore) _
    have hnext : fl.toSpan.Before q.toSpan → Settles q.owner q.toSpan (some q.value) left pre (fl::own) rest
        ((processLoop ⟨pre++[fl],old,q,left,none,false,woken⟩ (own++rest)).finish
          newFl newFl2 flExists) := by
      intro hbefore
      have hlt := hbefore.1
      rw [hpass (by omega)]
      rw [hassoc] at hnodup hnew hnew2
      rcases ih none hownown hcanon.tail nofun (fun h => absurd rfl h) hnodup hnew hnew2 woken with hrefused | hends
      · exact .inl hrefused.pass
      · exact .inr (hends.pass hown hcanon hbefore)
    rw [cons_append,processLoop]
    dsimp only
    rw [if_neg (by simp [hsame])]
    split
    · next htype =>
      split
      · next hbelow => exact hnext ⟨by omega,fun _ => by omega⟩
      next hbelow =>
      split
      · next hfar => exact hbreak ⟨by omega,fun _ => by omega⟩
      next hfar =>
      rw [if_neg (by simp),start_eq_min,stop_eq_max]
      refine .inr (Ends.absorb ⟨min q.start fl.start,max q.stop fl.stop,q.value⟩ htype.symm (by omega)
        (by omega) hq rfl rfl rfl (fun hsome => habove hsome fl mem_cons_self) ?_)
      rw [htype,← hflowner]
      refine processLoop_added (q := {fl with start := min q.start fl.start, stop := max q.stop fl.stop})
        (by rw [hflowner]; exact hC) (by rw [← htype]; exact hvalue) (by dsimp only; omega)
        (forall_mem_cons.mpr ⟨⟨rfl,hflposix⟩,by rw [hflowner]; exact hownown⟩) hcanon.tail
        (fun x hx => ?_) hleft (nodup_write hnodup _ rfl) old woken
      have hlt := hafter x hx
      dsimp only
      omega
    next htype =>
    split
    · next hbelow => exact hnext ⟨by omega,fun heq => absurd heq.symm htype⟩
    next hbelow =>
    split
    · next hfar => exact hbreak ⟨by omega,fun heq => absurd heq htype⟩
    next hfar =>
    rw [Bool.false_or,decide_eq_false hvalue]
    by_cases hstart : fl.start < q.start
    · rw [if_pos hstart,hpass hstart]
      split
      · next hend =>
        refine settles_new rfl hvalue rfl fun id hid hpresent => ?_
        obtain ⟨n,rfl⟩ := ne_none_iff_exists'.mp (hpresent rfl rfl)
        obtain ⟨hn,hdiff⟩ := hnew2 n rfl
        refine (hcuts id hid (some fl.id) (some fl.id)).ends_apart rfl rfl rfl htype hstart hend ?_
        simpa [show n ≠ id from fun heq => hdiff (heq ▸ hid)] using hn
      next hend =>
      rw [if_neg (by omega)]
      have hrest : ∀ x ∈ own, q.start ≤ x.start := by
        intro x hx
        have hlt := hafter x hx
        omega
      have hpre := (notMem_of_nodup hnodup).1
      rw [hassoc] at hnodup hnew hnew2
      rcases ih (some fl.id) hownown hcanon.tail (fun id hid => by simp [some.inj hid])
        (fun _ => hrest) hnodup hnew hnew2 woken with hrefused | hends
      · exact .inl hrefused.pass
      · exact .inr (hends.passLeft hown hcanon hpre hstart (by omega) (by omega) (Ne.symm htype))
    rw [if_neg hstart]
    by_cases hend : fl.stop > q.stop
    · rw [if_pos hend]
      exact settles_new rfl hvalue rfl fun id hid _ =>
        (hcuts id hid left (some fl.id)).ends_right rfl hleft htype (Int.not_lt.mp hstart) (Int.not_lt.mp hfar) hend _
    rw [if_neg hend,if_pos (by omega),if_neg (by simp)]
    refine .inr (Ends.covered (by omega) (by omega) ?_)
    rw [← hflowner]
    refine processLoop_added (q := {fl with start := q.start, stop := q.stop, value := q.value})
      (by rw [hflowner]; exact hC) hvalue hq
      (forall_mem_cons.mpr ⟨⟨rfl,hflposix⟩,by rw [hflowner]; exact hownown⟩) hcanon.tail
      (fun x hx => ?_) hleft (nodup_write hnodup _ rfl) old (woken++[fl.id])
    have hlt := hafter x hx
    dsimp only
    omega

/-- The loop of an unlock request. -/
theorem processLoop_clear (left : Option Nat) (added : Bool) (hC : ∀ fl ∈ rest.head?, fl.owner ≠ q.owner)
    (hvalue : q.value = .unlck) (hq : q.start ≤ q.stop) (hown : Owned q.owner own)
    (htypes : ∀ fl ∈ own, fl.value ≠ .unlck) (hcanon : Canonical (spans own))
    (hleft : ∀ id, left = some id → id ∈ ids pre) (hadded : added = false → left = none)
    (habove : added = true → ∀ fl ∈ own, q.start ≤ fl.start) (hnodup : (ids (pre++(own++rest))).Nodup)
    (hnew2 : ∀ id, newFl2 = some id → id ∉ ids (pre++(own++rest)))
    (old : List (FileLock Owner)) (woken : List Nat) : (added = false ∧ Refused pre own rest
      ((processLoop ⟨pre,old,q,left,none,added,woken⟩ (own++rest)).finish newFl newFl2 flExists)) ∨
    Ends q.owner q.toSpan none left pre own rest
      ((processLoop ⟨pre,old,q,left,none,added,woken⟩ (own++rest)).finish newFl newFl2 flExists) := by
  induction own generalizing pre left added woken with
  | nil =>
    rw [nil_append,processLoop_stop hC]
    exact clear_break hvalue hadded hleft ⟨hq,.inr ⟨rfl,rfl⟩,hown,hcanon,rfl,hnodup⟩ fun y hy => absurd hy not_mem_nil
  | cons fl own ih =>
    obtain ⟨⟨hflowner,hflposix⟩,hownown⟩ := forall_mem_cons.mp hown
    obtain ⟨hfltype,htypes⟩ := forall_mem_cons.mp htypes
    have htype : q.value ≠ fl.value := fun heq => hfltype (heq.symm.trans hvalue)
    have hflvalid : fl.start ≤ fl.stop := hcanon.1 fl.toSpan (by simp)
    have hafter : ∀ x ∈ own, fl.stop < x.start := fun x hx =>
      (hcanon.before x.toSpan (mem_map_of_mem hx)).1
    have hsame : posixSameOwner q fl = true := by simp [posixSameOwner,hflowner]
    have hassoc : pre++(fl::own++rest) = (pre++[fl])++(own++rest) := by simp
    have hcuts : ∀ left right added, Cuts (Walk.mk pre (fl::(own++rest)) q left right added woken) q.owner
        none pre [] (fl::own) rest := fun left right added =>
      ⟨hq,.inr ⟨rfl,rfl⟩,hown,hcanon,rfl,hnodup⟩
    -- a lock that begins below the request is only met while nothing was unlocked
    have hfirst : fl.start < q.start → added = false := by
      intro hlt
      by_contra hnot
      have hge := habove (eq_true_of_ne_false hnot) fl mem_cons_self
      omega
    rw [cons_append,processLoop]
    dsimp only
    rw [if_neg (by simp [hsame]),if_neg htype]
    by_cases hbelow : fl.stop < q.start
    · rw [if_pos hbelow,hadded (hfirst (by omega)),hfirst (by omega)]
      rw [hassoc] at hnodup hnew2
      rcases ih none false hownown htypes hcanon.tail (fun _ h => by cases h) (fun _ => rfl)
        (fun h => by cases h) hnodup hnew2 woken
        with ⟨-,hrefused⟩ | hends
      · exact .inl ⟨rfl,hrefused.pass⟩
      · exact .inr (hends.pass hown hcanon ⟨hbelow,fun heq => absurd heq.symm htype⟩)
    rw [if_neg hbelow]
    by_cases hfar : fl.start > q.stop
    · rw [if_pos hfar]
      exact clear_break hvalue hadded hleft (hcuts left none added)
        (before_all hcanon ⟨hfar,fun heq => absurd heq htype⟩)
    rw [if_neg hfar,decide_eq_true hvalue,Bool.or_true]
    by_cases hstart : fl.start < q.start
    · rw [if_pos hstart]
      by_cases hend : fl.stop > q.stop
      · rw [if_pos hend,hadded (hfirst hstart)]
        cases newFl2 with
        | none => exact .inl ⟨hfirst hstart,by simp [Walk.finish],by simp [Walk.finish]⟩
        | some n =>
          rw [finish_added rfl (by simp)]
          exact .inr ((hcuts (some fl.id) (some fl.id) true).ends_apart rfl rfl rfl htype hstart hend (hnew2 n rfl))
      rw [if_neg hend,if_neg (by omega)]
      have hrest : ∀ x ∈ own, q.start ≤ x.start := by
        intro x hx
        have hlt := hafter x hx
        omega
      have hpre := (notMem_of_nodup hnodup).1
      rw [hassoc] at hnodup hnew2
      rcases ih (some fl.id) true hownown htypes hcanon.tail (fun id hid => by simp [some.inj hid])
        (fun h => by cases h) (fun _ => hrest) hnodup hnew2 woken with ⟨hfalse,-⟩ | hends
      · exact absurd hfalse (by decide)
      rw [hadded (hfirst hstart)]
      exact .inr (hends.passLeft hown hcanon hpre hstart (by omega) (by omega) htype.symm)
    rw [if_neg hstart]
    by_cases hend : fl.stop > q.stop
    · have hne : left ≠ some fl.id := fun heq => (notMem_of_nodup hnodup).1 (hleft fl.id heq)
      rw [if_pos hend,finish_added rfl (by simp [hne])]
      exact .inr ((hcuts left (some fl.id) true).ends_right rfl hleft htype (Int.not_lt.mp hstart)
        (Int.not_lt.mp hfar) hend _)
    rw [if_neg hend,if_pos (by omega),if_pos rfl]
    have hsub : (pre++(own++rest)).Sublist (pre++(fl::own++rest)) :=
      List.Sublist.append_left (sublist_cons_self fl _) pre
    have hrest : ∀ x ∈ own, q.start ≤ x.start := by
      intro x hx
      have hlt := hafter x hx
      omega
    rcases ih left true hownown htypes hcanon.tail hleft (fun h => by cases h) (fun _ => hrest)
      (hnodup.sublist (hsub.map _)) (fun id hid hmem => hnew2 id hid ((hsub.map _).subset hmem))
      (woken++[fl.id]) with ⟨hfalse,-⟩ | hends
    · exact absurd hfalse (by decide)
    · exact .inr (hends.covered (by omega) (by omega))

end Loop

end LinuxToradex.Locks

import LinuxToradex.Locks.Overwrite

/-! A structure that was in the list before the call stays there under its address, with its owner,
unless its waiters were woken. The addresses stay distinct. -/
namespace LinuxToradex.Locks
open List Ranges

variable {Owner : Type}
variable {w1 : Walk Owner} {fresh : Nat → Prop}
variable {woken : List Nat} {l rest : List (FileLock Owner)}

/-- The structures of `l` are in `l'`, with their owners, if their waiters were not woken. -/
def Kept (woken : List Nat) (l l' : List (FileLock Owner)) : Prop :=
  ∀ fl ∈ l, fl.id ∈ woken ∨ ∃ fl' ∈ l', fl'.id = fl.id ∧ fl'.owner = fl.owner

section Kept
variable {woken' : List Nat} {l' l'' : List (FileLock Owner)}

lemma Kept.of_subset (h : l ⊆ l') : Kept woken l l' := fun fl hfl => .inr ⟨fl,h hfl,rfl,rfl⟩

lemma Kept.trans (h : Kept woken l l') (h' : Kept woken' l' l'') (hsub : woken ⊆ woken') : Kept woken' l l'' := by
  intro fl hfl
  rcases h fl hfl with hwoken | ⟨fl',hfl',hid,howner⟩
  · exact .inl (hsub hwoken)
  rcases h' fl' hfl' with hwoken | ⟨fl'',hfl'',hid',howner'⟩
  · exact .inl (hid ▸ hwoken)
  · exact .inr ⟨fl'',hfl'',hid'.trans hid,howner'.trans howner⟩

variable {p : Option Nat} {f : FileLock Owner → FileLock Owner}

lemma Kept.modify (hf : ∀ fl ∈ l, some fl.id = p → (f fl).id = fl.id ∧ (f fl).owner = fl.owner) :
    Kept woken l (modify p f l) := by
  intro fl hfl
  refine .inr ⟨_,mem_map_of_mem hfl,?_⟩
  split
  · next hp => exact hf fl hfl hp
  next hp =>
  exact ⟨rfl,rfl⟩

lemma ids_modify (hf : ∀ fl, some fl.id = p → (f fl).id = fl.id) : ids (modify p f l) = ids l := by
  unfold ids modify
  rw [map_map]
  refine map_congr_left fun fl _ => ?_
  dsimp only [Function.comp]
  by_cases hp : some fl.id = p
  · rw [if_pos hp]
    exact hf fl hp
  · rw [if_neg hp]

end Kept

structure LoopKeeps (w : Walk Owner) (l : List (FileLock Owner)) (w' : Walk Owner) : Prop where
  ids : (ids (w'.passed++w'.rest)).Sublist (ids (w.passed++l))
  kept : Kept w'.woken (w.passed++l) (w'.passed++w'.rest)
  woken : w.woken ⊆ w'.woken

section Loop
variable {w w' : Walk Owner} {fl : FileLock Owner}

lemma LoopKeeps.stop (hpassed : w'.passed = w.passed) (hrest : w'.rest = l) (hwoken : w'.woken = w.woken) :
    LoopKeeps w l w' := by
  refine ⟨?_,?_,?_⟩
  · rw [hpassed,hrest]
  · rw [hpassed,hrest]
    exact Kept.of_subset (List.Subset.refl _)
  rw [hwoken]
  exact List.Subset.refl _

lemma LoopKeeps.pass (h : LoopKeeps w1 rest w') (fl' : FileLock Owner) (hid : fl'.id = fl.id)
    (howner : fl'.owner = fl.owner) (hpassed : w1.passed = w.passed++[fl'])
    (hwoken : w.woken ⊆ w1.woken) : LoopKeeps w (fl::rest) w' := by
  have hids : Locks.ids (w1.passed++rest) = Locks.ids (w.passed++fl::rest) := by
    rw [hpassed]
    simp [Locks.ids,hid]
  refine ⟨hids ▸ h.ids,?_,List.Subset.trans hwoken h.woken⟩
  refine Kept.trans (show Kept w1.woken _ _ from ?_) h.kept h.woken
  intro x hx
  rcases mem_append.mp hx with hx | hx
  · exact .inr ⟨x,by simp [hpassed,hx],rfl,rfl⟩
  rcases mem_cons.mp hx with rfl | hx
  · exact .inr ⟨fl',by simp [hpassed],hid,howner⟩
  · exact .inr ⟨x,by simp [hx],rfl,rfl⟩

lemma LoopKeeps.delete (h : LoopKeeps w1 rest w')
    (hids : Locks.ids w1.passed = Locks.ids w.passed) (hkept : Kept [] w.passed w1.passed)
    (hwoken : w1.woken = w.woken++[fl.id]) : LoopKeeps w (fl::rest) w' := by
  have hsub : w.woken ⊆ w1.woken := by
    rw [hwoken]
    exact subset_append_left _ _
  refine ⟨h.ids.trans ?_,?_,List.Subset.trans hsub h.woken⟩
  · rw [Locks.ids,map_append,Locks.ids,map_append,map_cons]
    rw [Locks.ids,Locks.ids] at hids
    rw [hids]
    exact List.Sublist.append_left (sublist_cons_self _ _) _
  refine Kept.trans (show Kept w1.woken _ _ from ?_) h.kept h.woken
  intro x hx
  rcases mem_append.mp hx with hx | hx
  · obtain ⟨x',hx',hsame⟩ := (hkept x hx).resolve_left not_mem_nil
    exact .inr ⟨x',mem_append_left _ hx',hsame⟩
  rcases mem_cons.mp hx with rfl | hx
  · exact .inl (by simp [hwoken])
  · exact .inr ⟨x,by simp [hx],rfl,rfl⟩

def RequestOwner (w : Walk Owner) : Prop := ∀ fl ∈ w.passed, fl.id = w.request.id → fl.owner = w.request.owner

lemma RequestOwner.pass (h : RequestOwner w) (howner : w.request.owner = fl.owner)
    (hpassed : w1.passed = w.passed++[fl]) (hrequest : w1.request = w.request) : RequestOwner w1 := by
  intro x hx hid
  rw [hrequest] at hid ⊢
  rw [hpassed] at hx
  rcases mem_append.mp hx with hx | hx
  · exact h x hx hid
  rw [mem_singleton.mp hx]
  exact howner.symm

lemma RequestOwner.take (hnodup : (ids (w.passed++fl::rest)).Nodup) (fl' : FileLock Owner)
    (hid : fl'.id = fl.id) (hpassed : w1.passed = w.passed++[fl']) (hrequest : w1.request = fl') :
    RequestOwner w1 := by
  intro x hx hxid
  rw [hrequest] at hxid ⊢
  rw [hpassed] at hx
  rcases mem_append.mp hx with hx | hx
  · refine absurd ?_ (notMem_of_nodup hnodup).1
    rw [← hid,← hxid]
    exact mem_map_of_mem hx
  · rw [mem_singleton.mp hx]

lemma nodup_pass (h : (ids (l++fl::rest)).Nodup) (fl' : FileLock Owner) (hid : fl'.id = fl.id) :
    (ids (l++[fl']++rest)).Nodup := by
  rw [append_assoc]
  exact nodup_write h fl' hid

lemma nodup_delete (h : (ids (l++fl::rest)).Nodup) : (ids (l++rest)).Nodup :=
  h.sublist ((List.Sublist.append_left (sublist_cons_self fl rest) l).map _)

variable [DecidableEq Owner] in
lemma processLoop_keeps (w : Walk Owner) (l : List (FileLock Owner)) (hnodup : (ids (w.passed++l)).Nodup)
    (hreq : RequestOwner w) : LoopKeeps w l (processLoop w l) := by
  fun_induction processLoop w l with
  | case1 | case2 | case4 | case8 | case9 => exact LoopKeeps.stop rfl rfl rfl
  | case3 w fl rest hsame htype hbelow ih | case7 w fl rest hsame htype hbelow ih
  | case12 w fl rest hsame htype hbelow hfar added left hend hstart ih =>
    have howner : w.request.owner = fl.owner := by simpa [posixSameOwner] using hsame
    exact (ih (nodup_pass hnodup fl rfl) (hreq.pass howner rfl rfl)).pass fl rfl rfl rfl (List.Subset.refl _)
  | case5 w fl rest hsame htype hbelow hfar start stop request added ih =>
    -- the write goes to the request itself
    have hids : ids (modify (some request.id) (fun _ => request) w.passed) = ids w.passed :=
      ids_modify fun x hx => (Option.some.inj hx).symm
    have hkept : Kept [] w.passed (modify (some request.id) (fun _ => request) w.passed) :=
      Kept.modify fun x hx hid => ⟨(Option.some.inj hid).symm,(hreq x hx (Option.some.inj hid)).symm⟩
    refine (ih ?_ ?_).delete hids hkept rfl
    · have hrest := nodup_delete hnodup
      rw [ids,map_append] at hrest ⊢
      rw [ids,ids] at hids
      rw [hids]
      exact hrest
    intro x hx hid
    obtain ⟨y,hy,rfl⟩ := mem_map.mp hx
    by_cases hy' : some y.id = some request.id
    · rw [if_pos hy']
    rw [if_neg hy'] at hid
    exact absurd (congrArg some hid) hy'
  | case6 w fl rest hsame htype hbelow hfar start stop fl' added ih =>
    exact (ih (nodup_pass hnodup fl' rfl) (RequestOwner.take hnodup fl' rfl rfl rfl)).pass fl' rfl rfl rfl
      (List.Subset.refl _)
  | case10 w fl rest hsame htype hbelow hfar added left hend hstart hadded ih =>
    exact (ih (nodup_delete hnodup) hreq).delete rfl (Kept.of_subset (List.Subset.refl _)) rfl
  | case11 w fl rest hsame htype hbelow hfar added left hend hstart hadded fl' ih =>
    exact (ih (nodup_pass hnodup fl' rfl) (RequestOwner.take hnodup fl' rfl rfl rfl)).pass fl' rfl rfl rfl
      (subset_append_left _ _)

end Loop

/-- What a call makes of a list and of the locks whose waiters were woken; `fresh` are the addresses of
the structures that were allocated. -/
structure Keeps (fresh : Nat → Prop) (l : List (FileLock Owner)) (woken : List Nat)
    (result : List (FileLock Owner) × List Nat) : Prop where
  nodup : (ids result.1).Nodup
  ids : ∀ id ∈ ids result.1, id ∈ ids l ∨ fresh id
  kept : Kept result.2 l result.1
  woken : woken ⊆ result.2

section Finish
variable {w : Walk Owner}

lemma Keeps.cutWrites {list : List (FileLock Owner)} (left right : Option Nat) (start stop : Int)
    (h : Keeps fresh l woken (list,woken)) (woken' : List Nat) (hsub : woken ⊆ woken') :
    Keeps fresh l woken (modify left (fun fl => {fl with stop := stop})
      (modify right (fun fl => {fl with start := start}) list),woken') := by
  have hids : Locks.ids (modify left (fun fl => {fl with stop := stop})
      (modify right (fun fl => {fl with start := start}) list)) = Locks.ids list := by
    rw [ids_modify,ids_modify]
    · exact fun _ _ => rfl
    · exact fun _ _ => rfl
  refine ⟨hids ▸ h.nodup,hids ▸ h.ids,?_,hsub⟩
  have hright : Kept woken list (modify right (fun fl => {fl with start := start}) list) :=
    Kept.modify fun _ _ _ => ⟨rfl,rfl⟩
  have hleft : Kept woken' (modify right (fun fl => {fl with start := start}) list)
      (modify left (fun fl => {fl with stop := stop})
        (modify right (fun fl => {fl with start := start}) list)) :=
    Kept.modify fun _ _ _ => ⟨rfl,rfl⟩
  exact (h.kept.trans hright (List.Subset.refl _)).trans hleft hsub

lemma Keeps.insert {pre : List (FileLock Owner)} (h : Keeps fresh l woken (pre++rest,woken))
    (fl : FileLock Owner) (hfresh : fresh fl.id) (hnew : fl.id ∉ Locks.ids (pre++rest)) :
    Keeps fresh l woken (pre++fl::rest,woken) := by
  refine ⟨nodup_insert h.nodup fl hnew,?_,?_,h.woken⟩
  · intro id hid
    have hid' : id = fl.id ∨ id ∈ Locks.ids (pre++rest) := by
      simp only [Locks.ids,map_append,map_cons,mem_append,mem_cons] at hid ⊢
      exact or_left_comm.mp hid
    rcases hid' with rfl | hid'
    · exact .inr hfresh
    · exact h.ids id hid'
  refine h.kept.trans (Kept.of_subset ?_) (List.Subset.refl _)
  exact (List.Sublist.append_left (sublist_cons_self fl rest) pre).subset

lemma cut_keeps {n : Nat} (h : Keeps fresh l w.woken (w.passed++w.rest,w.woken))
    (hn : w.right.isSome → w.left = w.right → fresh n ∧ n ∉ ids (w.passed++w.rest)) :
    Keeps fresh l w.woken (w.cut n) := by
  have hsub : ∀ left : Option Nat, w.woken ⊆ w.woken++w.right.toList++left.toList := by
    intro left
    rw [append_assoc]
    exact subset_append_left _ _
  unfold Walk.cut
  dsimp only
  split
  · next hapart =>
    obtain ⟨hsome,heq⟩ := Bool.and_eq_true_iff.mp hapart
    obtain ⟨hfresh,hnew⟩ := hn hsome (of_decide_eq_true heq)
    cases hfind : (w.passed++w.rest).find? fun fl => decide (some fl.id = w.right) with
    | none => exact h.cutWrites _ _ _ _ _ (hsub _)
    | some right => exact (h.insert {right with id := n} hfresh hnew).cutWrites _ _ _ _ _ (hsub _)
  next hapart =>
  exact h.cutWrites _ _ _ _ _ (hsub _)

lemma finish_keeps (newFl newFl2 : Option Nat) (flExists : Bool)
    (h : Keeps fresh l w.woken (w.passed++w.rest,w.woken))
    (hnew : ∀ id, newFl = some id → fresh id ∧ id ∉ ids (w.passed++w.rest))
    (hnew2 : ∀ id, newFl2 = some id → fresh id ∧ id ∉ ids (w.passed++w.rest) ∧ newFl ≠ some id) :
    Keeps fresh l w.woken (w.finish newFl newFl2 flExists).2 := by
  unfold Walk.finish
  split
  · next hluck => exact h
  next hluck =>
  -- the second structure is there when it is used
  have hsecond : w.right.isSome → w.left = w.right → ∃ n, newFl2 = some n := by
    intro hsome heq
    cases hsnd : newFl2 with
    | none => exact absurd ⟨hsome,heq,hsnd⟩ hluck
    | some n => exact ⟨n,rfl⟩
  split
  · next hadded =>
    refine cut_keeps h fun hsome heq => ?_
    obtain ⟨n,rfl⟩ := hsecond hsome heq
    exact ⟨(hnew2 n rfl).1,(hnew2 n rfl).2.1⟩
  next hadded =>
  split
  · next hvalue => exact h
  next hvalue =>
  rcases hfst : newFl with _ | id
  · exact h
  obtain ⟨hfresh,hid⟩ := hnew id hfst
  refine cut_keeps (w := w.insertLock {w.request with id := id}) (h.insert _ hfresh hid) fun hsome heq => ?_
  obtain ⟨n,rfl⟩ := hsecond hsome heq
  obtain ⟨hfresh',hn,hdiff⟩ := hnew2 n rfl
  refine ⟨hfresh',?_⟩
  have hne : n ≠ id := fun heq => hdiff (hfst.trans (congrArg some heq.symm))
  simpa [Walk.insertLock,hne] using hn

end Finish

section Apply
variable [DecidableEq Owner]

lemma skipOthers_append (request : FileLock Owner) (passed l : List (FileLock Owner)) :
    (skipOthers request passed l).1++(skipOthers request passed l).2 = passed++l := by
  induction l generalizing passed with
  | nil => rfl
  | cons fl rest ih =>
    rw [skipOthers]
    by_cases hskip : (!fl.posix || !posixSameOwner request fl) = true
    · rw [if_pos hskip,ih,append_assoc,singleton_append]
    · rw [if_neg hskip]

lemma applyRequest_keeps {request : FileLock Owner} (newFl newFl2 : Option Nat) (flExists : Bool)
    (hnodup : (ids l).Nodup) (hreq : request.id ∉ ids l) (hnew : ∀ id, newFl = some id → fresh id ∧ id ∉ ids l)
    (hnew2 : ∀ id, newFl2 = some id → fresh id ∧ id ∉ ids l ∧ newFl ≠ some id) :
    Keeps fresh l [] (applyRequest request newFl newFl2 flExists l).2 := by
  unfold applyRequest
  dsimp only
  have hparts : (skipOthers request [] l).1++(skipOthers request [] l).2 = l := skipOthers_append request [] l
  generalize skipOthers request [] l = parts at hparts
  have hloop := processLoop_keeps ⟨parts.1,[],request,none,none,false,[]⟩ parts.2 (by rw [hparts]; exact hnodup) (by
      intro fl hfl hid
      refine absurd ?_ hreq
      rw [← hparts,← show fl.id = request.id from hid]
      exact mem_map_of_mem (mem_append_left _ hfl))
  generalize processLoop ⟨parts.1,[],request,none,none,false,[]⟩ parts.2 = w at hloop
  obtain ⟨hids,hkept,-⟩ := hloop
  rw [hparts] at hids hkept
  have hkeeps : Keeps fresh l w.woken (w.passed++w.rest,w.woken) :=
    ⟨hnodup.sublist hids,fun id hid => .inl (hids.subset hid),hkept,List.Subset.refl _⟩
  have hfinish := finish_keeps newFl newFl2 flExists hkeeps
    (fun id hid => ⟨(hnew id hid).1,fun hmem => (hnew id hid).2 (hids.subset hmem)⟩)
    (fun id hid => ⟨(hnew2 id hid).1,fun hmem => (hnew2 id hid).2.1 (hids.subset hmem),(hnew2 id hid).2.2⟩)
  exact ⟨hfinish.nodup,hfinish.ids,hfinish.kept,nil_subset _⟩

end Apply

open Function

variable {Owner : Type}

structure Block (owner : Owner) (own : List (FileLock Owner)) : Prop where
  owned : Owned owner own
  canonical : Canonical (spans own)
  valid : ∀ fl ∈ own, fl.value ≠ .unlck ∧ 0 ≤ fl.start ∧ fl.stop ≤ offsetMax

structure Layout (l other : List (FileLock Owner)) (blocks : List (Owner × List (FileLock Owner))) : Prop where
  list : l = other++blocks.flatMap Prod.snd
  other : ∀ fl ∈ other, fl.posix = false
  owners : (blocks.map Prod.fst).Nodup
  block : ∀ b ∈ blocks, Block b.1 b.2
  nonempty : ∀ b ∈ blocks, b.2 ≠ []

/-- The locks of each owner are contiguous, sorted by their start and disjoint, and two locks of one
type do not touch. -/
def WellFormed (l : List (FileLock Owner)) : Prop := ∃ other blocks, Layout l other blocks

def newType (type : LockType) : Option LockType := if type = .unlck then none else some type

variable {l other own : List (FileLock Owner)} {blocks X Y : List (Owner × List (FileLock Owner))}
  {owner : Owner} {q : FileLock Owner}

structure Around (owner : Owner) (other : List (FileLock Owner)) (X Y : List (Owner × List (FileLock Owner))) :
    Prop where
  other : ∀ fl ∈ other, fl.posix = false
  owners : (owner::(X++Y).map Prod.fst).Nodup
  block : ∀ b ∈ X++Y, Block b.1 b.2
  nonempty : ∀ b ∈ X++Y, b.2 ≠ []

lemma Layout.around (h : Layout l other blocks) (owner : Owner) :
    ∃ X Y own, l = (other++X.flatMap Prod.snd)++(own++Y.flatMap Prod.snd) ∧
      Around owner other X Y ∧ Block owner own ∧ (own = [] → Y = []) := by
  by_cases hmem : owner ∈ blocks.map Prod.fst
  · obtain ⟨⟨o,own⟩,hb,rfl⟩ := mem_map.mp hmem
    obtain ⟨X,Y,rfl⟩ := append_of_mem hb
    have hsub : (X++Y).Sublist (X++(o,own)::Y) := .append_left (sublist_cons_self _ Y) X
    refine ⟨X,Y,own,?_,⟨h.other,?_,fun b hb => h.block b (hsub.subset hb),
      fun b hb => h.nonempty b (hsub.subset hb)⟩,h.block _ hb,fun hnil => absurd hnil (h.nonempty _ hb)⟩
    · rw [h.list]
      simp
    have howners := h.owners
    rw [map_append,map_cons,perm_middle.nodup_iff,← map_append] at howners
    exact howners
  refine ⟨blocks,[],[],?_,⟨h.other,?_,?_,?_⟩,⟨nofun,⟨nofun,List.Pairwise.nil⟩,nofun⟩,fun _ => rfl⟩
  · rw [h.list]
    simp
  · rw [append_nil]
    exact nodup_cons.mpr ⟨hmem,h.owners⟩
  · rw [append_nil]
    exact h.block
  rw [append_nil]
  exact h.nonempty


section
variable (h : Around owner other X Y)
include h

lemma Around.wellFormed (hown : Block owner own) :
    WellFormed ((other++X.flatMap Prod.snd)++(own++Y.flatMap Prod.snd)) := by
  by_cases hnil : own = []
  · refine ⟨other,X++Y,?_,h.other,(nodup_cons.mp h.owners).2,h.block,h.nonempty⟩
    rw [hnil]
    simp
  obtain ⟨hX,hY⟩ := forall_mem_append.mp h.block
  obtain ⟨hX',hY'⟩ := forall_mem_append.mp h.nonempty
  refine ⟨other,X++(owner,own)::Y,by simp,h.other,?_,?_,?_⟩
  · rw [map_append,map_cons,perm_middle.nodup_iff,← map_append]
    exact h.owners
  · exact forall_mem_append.mpr ⟨hX,forall_mem_cons.mpr ⟨hown,hY⟩⟩
  exact forall_mem_append.mpr ⟨hX',forall_mem_cons.mpr ⟨hnil,hY'⟩⟩

lemma Around.owner_ne {b : Owner × List (FileLock Owner)} (hb : b ∈ X++Y) : b.1 ≠ owner := by
  rintro rfl
  exact (nodup_cons.mp h.owners).1 (mem_map_of_mem hb)

lemma Around.before : ∀ fl ∈ other++X.flatMap Prod.snd, ¬(fl.posix = true ∧ fl.owner = owner) := by
  rintro fl hfl ⟨hposix,howner⟩
  rcases mem_append.mp hfl with hfl | hfl
  · exact absurd ((h.other fl hfl).symm.trans hposix) (by decide)
  obtain ⟨b,hb,hfl⟩ := mem_flatMap.mp hfl
  have hb' : b ∈ X++Y := mem_append_left Y hb
  exact h.owner_ne hb' (((h.block b hb').owned fl hfl).1.symm.trans howner)

lemma Around.after : ∀ fl ∈ Y.flatMap Prod.snd, fl.owner ≠ owner := by
  intro fl hfl howner
  obtain ⟨b,hb,hfl⟩ := mem_flatMap.mp hfl
  have hb' : b ∈ X++Y := mem_append_right X hb
  exact h.owner_ne hb' (((h.block b hb').owned fl hfl).1.symm.trans howner)

end

lemma Block.overwrite {own' : List (FileLock Owner)} (h : Block owner own) (hown : Owned owner own')
    (hover : Overwrites (spans own) q.toSpan (newType q.value) (spans own')) (hstart : 0 ≤ q.start)
    (hstop : q.stop ≤ offsetMax) : Block owner own' := by
  refine ⟨hown,hover.canonical,fun fl hfl => ?_⟩
  have hmem : fl.toSpan ∈ spans own' := mem_map_of_mem hfl
  have hle : fl.start ≤ fl.stop := hover.canonical.1 _ hmem
  have horigin : ∀ b, fl.start ≤ b ∧ b ≤ fl.stop → fl.value ≠ .unlck ∧ 0 ≤ b ∧ b ≤ offsetMax := by
    intro b hb
    rcases hover.origin hmem hb with ⟨hin,hnew⟩ | ⟨y,hy,hin,hvalue⟩
    · refine ⟨fun hunlck => ?_,by omega,by omega⟩
      by_cases hvalue : q.value = .unlck
      · rw [newType,if_pos hvalue] at hnew
        cases hnew
      rw [newType,if_neg hvalue] at hnew
      exact hvalue ((Option.some.inj hnew).trans hunlck)
    obtain ⟨x,hx,rfl⟩ := mem_map.mp hy
    obtain ⟨htype,hxstart,hxstop⟩ := h.valid x hx
    exact ⟨hvalue ▸ htype,by omega,by omega⟩
  exact ⟨(horigin fl.start ⟨Int.le_refl _,hle⟩).1,(horigin fl.start ⟨Int.le_refl _,hle⟩).2.1,
    (horigin fl.stop ⟨hle,Int.le_refl _⟩).2.2⟩

section Request
variable [DecidableEq Owner]

def typeAt (l : List (FileLock Owner)) (owner : Owner) (b : Int) : Option LockType :=
  valueAt (spans (l.filter fun fl => fl.posix && decide (fl.owner = owner))) b

variable {pre rest : List (FileLock Owner)} {newFl newFl2 : Option Nat} {flExists : Bool}

lemma skipOthers_eq (hpre : ∀ fl ∈ pre, ¬(fl.posix = true ∧ fl.owner = q.owner))
    (hrest : ∀ fl ∈ rest.head?, fl.posix = true ∧ fl.owner = q.owner) (passed : List (FileLock Owner)) :
    skipOthers q passed (pre++rest) = (passed++pre,rest) := by
  induction pre generalizing passed with
  | nil =>
    rw [nil_append,append_nil]
    cases rest with
    | nil => rfl
    | cons fl rest =>
      obtain ⟨hposix,howner⟩ := hrest fl rfl
      rw [skipOthers,if_neg (by simp [hposix,posixSameOwner,howner])]
  | cons fl pre ih =>
    have hfl := hpre fl mem_cons_self
    have hskip : (!fl.posix || !posixSameOwner q fl) = true := by
      cases hposix : fl.posix with
      | false => rfl
      | true =>
        have hne : q.owner ≠ fl.owner := fun heq => hfl ⟨hposix,heq.symm⟩
        simp [posixSameOwner,hne]
    rw [cons_append,skipOthers,if_pos hskip,
      ih (fun x hx => hpre x (mem_cons_of_mem fl hx)),append_assoc,singleton_append]

/-- The requesting owner's part of the list is overwritten. -/
theorem applyRequest_spec (hq : q.start ≤ q.stop) (hposix : q.posix = true)
    (hpre : ∀ fl ∈ pre, ¬(fl.posix = true ∧ fl.owner = q.owner))
    (hrest : ∀ fl ∈ rest, fl.owner ≠ q.owner) (hempty : own = [] → rest = [])
    (hown : Owned q.owner own) (htypes : ∀ fl ∈ own, fl.value ≠ .unlck) (hcanon : Canonical (spans own))
    (hnodup : (ids (pre++(own++rest))).Nodup) (hnew : ∀ id, newFl = some id → id ∉ ids (pre++(own++rest)))
    (hnew2 : ∀ id, newFl2 = some id → id ∉ ids (pre++(own++rest)) ∧ newFl ≠ some id) :
    Settles q.owner q.toSpan (newType q.value) none pre own rest
      (applyRequest q newFl newFl2 flExists (pre++(own++rest))) := by
  have hhead : ∀ fl ∈ (own++rest).head?, fl.posix = true ∧ fl.owner = q.owner := by
    rcases own with _ | ⟨x,own⟩
    · rw [hempty rfl]
      exact fun fl hfl => absurd hfl (by simp)
    intro fl hfl
    obtain rfl : x = fl := by simpa using hfl
    exact ⟨(hown x mem_cons_self).2,(hown x mem_cons_self).1⟩
  have hC : ∀ fl ∈ rest.head?, fl.owner ≠ q.owner := fun fl hfl => hrest fl (mem_of_mem_head? hfl)
  unfold applyRequest
  rw [skipOthers_eq hpre hhead,nil_append]
  by_cases hvalue : q.value = .unlck
  · rw [newType,if_pos hvalue]
    rcases processLoop_clear none false hC hvalue hq hown htypes hcanon nofun (fun _ => rfl) nofun hnodup
      (fun id hid => (hnew2 id hid).1) [] [] with ⟨-,hrefused⟩ | hends
    · exact .inl hrefused
    · exact .inr hends
  rw [newType,if_neg hvalue]
  exact processLoop_set none hC hvalue hq hposix hown hcanon nofun (fun h => absurd rfl h) hnodup hnew hnew2 [] []

lemma typeAt_own (hpre : ∀ fl ∈ pre, ¬(fl.posix = true ∧ fl.owner = owner))
    (hrest : ∀ fl ∈ rest, fl.owner ≠ owner) (hown : Owned owner own) :
    typeAt (pre++(own++rest)) owner = valueAt (spans own) := by
  funext b
  have hfront : pre.filter (fun fl => fl.posix && decide (fl.owner = owner)) = [] := by
    rw [filter_eq_nil_iff]
    intro fl hfl
    simpa using hpre fl hfl
  have hback : rest.filter (fun fl => fl.posix && decide (fl.owner = owner)) = [] := by
    rw [filter_eq_nil_iff]
    intro fl hfl
    simp [hrest fl hfl]
  have hall : own.filter (fun fl => fl.posix && decide (fl.owner = owner)) = own := by
    rw [filter_eq_self]
    intro fl hfl
    simp [hown fl hfl]
  rw [typeAt,filter_append,filter_append,hfront,hback,hall,nil_append,append_nil]

lemma typeAt_other {owner' : Owner} (hne : owner' ≠ owner) (hown : Owned owner own) :
    typeAt (pre++(own++rest)) owner' = typeAt (pre++rest) owner' := by
  funext b
  have hnone : own.filter (fun fl => fl.posix && decide (fl.owner = owner')) = [] := by
    rw [filter_eq_nil_iff]
    intro fl hfl
    simp [(hown fl hfl).1,hne.symm]
  rw [typeAt,typeAt,filter_append,filter_append,hnone,nil_append,filter_append]

def overwritten (f : Owner → Int → Option LockType) (q : FileLock Owner) (owner : Owner) (b : Int) :
    Option LockType :=
  if owner = q.owner ∧ q.start ≤ b ∧ b ≤ q.stop then newType q.value else f owner b

lemma applyRequest_wellFormed (h : WellFormed l) (hstart : 0 ≤ q.start) (hq : q.start ≤ q.stop)
    (hstop : q.stop ≤ offsetMax) (hposix : q.posix = true) (hnodup : (ids l).Nodup)
    (hnew : ∀ id, newFl = some id → id ∉ ids l) (hnew2 : ∀ id, newFl2 = some id → id ∉ ids l ∧ newFl ≠ some id) :
    ((applyRequest q newFl newFl2 flExists l).1 ≠ .ok ∧ (applyRequest q newFl newFl2 flExists l).2.1 = l) ∨
    ((applyRequest q newFl newFl2 flExists l).1 = .ok ∧ WellFormed (applyRequest q newFl newFl2 flExists l).2.1 ∧
      typeAt (applyRequest q newFl newFl2 flExists l).2.1 = overwritten (typeAt l) q) := by
  obtain ⟨other,blocks,h⟩ := h
  obtain ⟨X,Y,own,rfl,haround,hblock,hempty⟩ := h.around q.owner
  rcases applyRequest_spec hq hposix haround.before haround.after (fun hnil => by rw [hempty hnil]; rfl)
    hblock.owned (fun fl hfl => (hblock.valid fl hfl).1) hblock.canonical hnodup hnew hnew2
    with hrefused | ⟨hok,own',hlist,hover,hown'⟩
  · exact .inl hrefused
  rw [modify_none] at hlist
  refine .inr ⟨hok,?_,?_⟩
  · rw [hlist]
    exact haround.wellFormed (hblock.overwrite hown' hover hstart hstop)
  rw [hlist]
  funext owner b
  unfold overwritten
  by_cases howner : owner = q.owner
  · rw [howner,typeAt_own haround.before haround.after hown',hover.value,
      typeAt_own haround.before haround.after hblock.owned,Ranges.overwrite]
    simp
  · rw [if_neg (fun hand => howner hand.1),typeAt_other howner hown',typeAt_other howner hblock.owned]

end Request

section Call
variable {Ino : Type}

def Call.Valid (c : Call Ino Owner) : Prop := 0 ≤ c.start ∧ c.start ≤ c.stop ∧ c.stop ≤ offsetMax

/-- The lists are well formed, the structures have addresses of their own, and a request waits for a lock
that is in a list. -/
structure Inv (s : State Ino Owner) : Prop where
  wellFormed : ∀ i, WellFormed (s.locks i)
  nodup : ∀ i, (ids (s.locks i)).Nodup
  fresh : ∀ i, ∀ id ∈ ids (s.locks i), id < s.nextId
  live : ∀ w ∈ s.blocked, w.next ∈ ids (s.locks w.ino)

variable [DecidableEq Ino] [DecidableEq Owner] {s : State Ino Owner} {c : Call Ino Owner}

/-- What a call does: the request waits, or nothing changes, or the list of the inode is written to. -/
inductive Step (s : State Ino Owner) (c : Call Ino Owner) : Ret × State Ino Owner → Prop
  | waits (fl : FileLock Owner) (hfl : fl ∈ s.locks c.ino) (howner : fl.owner ≠ c.owner)
      (hdeadlock : s.posixLocksDeadlock (s.request c) fl = false) :
      Step s c (.deferred,{s with nextId := s.nextId+3}.insertBlock c.ino fl (s.request c))
  | same (ret : Ret) (h : ret = .ok → c.flAccess = true) : Step s c (ret,{s with nextId := s.nextId+3})
  | writes (ret : Ret) (list : List (FileLock Owner)) (woken : List Nat) (haccess : c.flAccess = false)
      (hkeeps : Keeps (fun id => id < s.nextId+3) (s.locks c.ino) [] (list,woken))
      (hlist : (ret ≠ .ok ∧ list = s.locks c.ino) ∨ (ret = .ok ∧ WellFormed list ∧
        typeAt list = overwritten (typeAt (s.locks c.ino)) (s.request c))) :
      Step s c (ret,{s with
        nextId := s.nextId+3, locks := update s.locks c.ino list}.wakeUp c.ino woken)

lemma posixLockFile_step (h : Inv s) (hc : c.Valid) : Step s c (s.posixLockFile c) := by
  unfold State.posixLockFile
  dsimp only
  split
  · next fl hfind =>
    -- there is a conflicting lock
    have hsome : (s.locks c.ino).find? (fun fl => fl.posix && posixLocksConflict (s.request c) fl) = some fl := by
      split at hfind
      · next htype => exact absurd hfind (by simp)
      next htype =>
      exact hfind
    have hconflict := find?_some hsome
    have howner : fl.owner ≠ c.owner := by
      intro heq
      rw [posixLocksConflict,if_pos] at hconflict
      · exact absurd hconflict (by simp)
      · simp [posixSameOwner,State.request,heq]
    rcases c.flSleep with _ | _
    · exact Step.same .again (by simp)
    cases hdead : s.posixLocksDeadlock (s.request c) fl with
    | true => exact Step.same .deadlk (by simp)
    | false => exact Step.waits fl (mem_of_find?_eq_some hsome) howner hdead
  split
  · next haccess => exact Step.same .ok fun _ => haccess
  next haccess =>
  have hfresh : ∀ n, s.nextId+n ∉ ids (s.locks c.ino) := fun n hmem => by
    have hlt := h.fresh c.ino _ hmem
    omega
  generalize hfst : (if (c.allocates && c.alloc) = true then some (s.nextId+1) else none) = newFl
  generalize hsnd : (if (c.allocates && c.alloc2) = true then some (s.nextId+2) else none) = newFl2
  have hnew : ∀ id, newFl = some id → id = s.nextId+1 := by
    intro id hid
    rw [← hfst,Option.ite_none_right_eq_some] at hid
    exact (Option.some.inj hid.2).symm
  have hnew2 : ∀ id, newFl2 = some id → id = s.nextId+2 := by
    intro id hid
    rw [← hsnd,Option.ite_none_right_eq_some] at hid
    exact (Option.some.inj hid.2).symm
  have hdiff : ∀ id, newFl2 = some id → newFl ≠ some id := by
    intro id hid hid'
    have hfirst := hnew id hid'
    have hsecond := hnew2 id hid
    omega
  refine Step.writes _ _ _ (eq_false_of_ne_true haccess) ?_ ?_
  · refine applyRequest_keeps newFl newFl2 c.flExists (h.nodup c.ino) (hfresh 0) (fun id hid => ?_) fun id hid => ?_
    · rw [hnew id hid]
      exact ⟨by omega,hfresh 1⟩
    refine ⟨?_,?_,hdiff id hid⟩
    · rw [hnew2 id hid]
      omega
    rw [hnew2 id hid]
    exact hfresh 2
  refine applyRequest_wellFormed (h.wellFormed c.ino) hc.1 hc.2.1 hc.2.2 rfl (h.nodup c.ino)
    (fun id hid => ?_) fun id hid => ⟨?_,hdiff id hid⟩
  · rw [hnew id hid]
    exact hfresh 1
  rw [hnew2 id hid]
  exact hfresh 2

omit [DecidableEq Owner] in
/-- The invariant after the list of an inode was written to. -/
theorem Inv.writes {list : List (FileLock Owner)} {woken : List Nat} (h : Inv s) (i : Ino)
    (hkeeps : Keeps (fun id => id < s.nextId+3) (s.locks i) [] (list,woken)) (hlist : WellFormed list) :
    Inv ({s with nextId := s.nextId+3, locks := update s.locks i list}.wakeUp i woken) := by
  constructor
  · exact (forall_update_iff _ fun _ l => WellFormed l).mpr ⟨hlist,fun j _ => h.wellFormed j⟩
  · exact (forall_update_iff _ fun _ l => (ids l).Nodup).mpr ⟨hkeeps.nodup,fun j _ => h.nodup j⟩
  · refine (forall_update_iff _ fun _ l => ∀ id ∈ ids l, id < s.nextId+3).mpr ⟨fun id hid => ?_,fun j _ id hid => ?_⟩
    · rcases hkeeps.ids id hid with hold | hnew
      · have hlt := h.fresh i id hold
        omega
      · exact hnew
    have hlt := h.fresh j id hid
    omega
  intro w hw
  obtain ⟨hw,hnot⟩ := mem_filter.mp hw
  have hlive := h.live w hw
  change w.next ∈ ids (update s.locks i list w.ino)
  by_cases hi : w.ino = i
  · -- a structure that is gone had its waiters woken
    rw [hi] at hlive
    rw [hi,update_self]
    obtain ⟨fl,hfl,hid⟩ := mem_map.mp hlive
    rcases hkeeps.kept fl hfl with hwoken | ⟨fl',hfl',hid',-⟩
    · simp [hi,← hid,show fl.id ∈ woken from hwoken] at hnot
    rw [← hid,← hid']
    exact mem_map_of_mem hfl'
  rw [update_of_ne hi]
  exact hlive

variable {r : Ret × State Ino Owner}

lemma Inv.step (h : Inv s) (hstep : Step s c r) : Inv r.2 := by
  have hfresh : ∀ i, ∀ id ∈ ids (s.locks i), id < s.nextId+3 := by
    intro i id hid
    have hlt := h.fresh i id hid
    omega
  cases hstep with
  | waits fl hfl howner hdeadlock =>
    refine ⟨h.wellFormed,h.nodup,hfresh,?_⟩
    exact forall_mem_cons.mpr ⟨mem_map_of_mem hfl,h.live⟩
  | same ret hret => exact ⟨h.wellFormed,h.nodup,hfresh,h.live⟩
  | writes ret list woken haccess hkeeps hlist =>
    refine h.writes c.ino hkeeps ?_
    rcases hlist with ⟨-,rfl⟩ | ⟨-,hlist,-⟩
    · exact h.wellFormed c.ino
    · exact hlist

lemma typeAt_step (hstep : Step s c r) (i : Ino) : (r.1 ≠ .ok → r.2.locks i = s.locks i) ∧
    (r.1 = .ok → typeAt (r.2.locks i) = if i = c.ino ∧ c.flAccess = false then
      overwritten (typeAt (s.locks i)) (s.request c) else typeAt (s.locks i)) := by
  cases hstep with
  | waits fl hfl howner hdeadlock => exact ⟨fun _ => rfl,nofun⟩
  | same ret hret =>
    refine ⟨fun _ => rfl,fun hok => ?_⟩
    rw [if_neg (by simp [hret hok])]
  | writes ret list woken haccess hkeeps hlist =>
    change (ret ≠ .ok → update s.locks c.ino list i = s.locks i) ∧
      (ret = .ok → typeAt (update s.locks c.ino list i) = _)
    by_cases hi : i = c.ino
    · rw [hi,update_self,if_pos ⟨rfl,haccess⟩]
      rcases hlist with ⟨hne,rfl⟩ | ⟨hok,-,htype⟩
      · exact ⟨fun _ => rfl,fun hok => absurd hok hne⟩
      · exact ⟨fun hne => absurd hok hne,fun _ => htype⟩
    rw [update_of_ne hi,if_neg (fun hand => hi hand.1)]
    exact ⟨fun _ => rfl,fun _ => rfl⟩

end Call

section Runs
variable {Ino : Type} [DecidableEq Ino] [DecidableEq Owner]

def Event.Valid : Event Ino Owner → Prop
  | .lock c => c.Valid
  | .deleteBlock _ => True

lemma Inv.apply {s : State Ino Owner} (h : Inv s) {e : Event Ino Owner} (he : e.Valid) : Inv (s.apply e) := by
  cases e with
  | lock c => exact h.step (posixLockFile_step h he)
  | deleteBlock waiter =>
    exact ⟨h.wellFormed,h.nodup,h.fresh,fun w hw => h.live w (mem_filter.mp hw).1⟩

lemma Inv.run {s : State Ino Owner} (h : Inv s) (events : List (Event Ino Owner))
    (hvalid : ∀ e ∈ events, e.Valid) : Inv (s.run events) := by
  induction events generalizing s with
  | nil => exact h
  | cons e events ih =>
    obtain ⟨he,hvalid⟩ := forall_mem_cons.mp hvalid
    exact ih (h.apply he) hvalid

/-- Locks of other kinds that an inode has before the first call. -/
def Others (nextId : Nat) (l : List (FileLock Owner)) : Prop :=
  (∀ fl ∈ l, fl.posix = false ∧ fl.id < nextId) ∧ (ids l).Nodup

omit [DecidableEq Ino] [DecidableEq Owner] in
lemma Inv.init {other : Ino → List (FileLock Owner)} {nextId : Nat} (h : ∀ i, Others nextId (other i)) :
    Inv (State.init other nextId) := by
  refine ⟨fun i => ⟨other i,[],?_,fun fl hfl => ((h i).1 fl hfl).1,nodup_nil,nofun,nofun⟩,
    fun i => (h i).2,fun i id hid => ?_,nofun⟩
  · exact (append_nil _).symm
  obtain ⟨fl,hfl,rfl⟩ := mem_map.mp hid
  exact ((h i).1 fl hfl).2

/-- After any run of requests, the lists are well formed, and the next call keeps them so. If it returns 0,
the range of the request, and nothing else, is overwritten in the map of the requesting owner. -/
theorem lock_overwrites_range (other : Ino → List (FileLock Owner)) (nextId : Nat)
    (hother : ∀ i, Others nextId (other i)) (events : List (Event Ino Owner))
    (hvalid : ∀ e ∈ events, e.Valid) (c : Call Ino Owner) (hc : c.Valid) :
    let s := (State.init other nextId).run events
    let r := s.posixLockFile c
    (∀ i, WellFormed (s.locks i) ∧ WellFormed (r.2.locks i)) ∧
    (r.1 = .ok → ∀ i owner b, typeAt (r.2.locks i) owner b =
      if i = c.ino ∧ c.flAccess = false ∧ owner = c.owner ∧ c.start ≤ b ∧ b ≤ c.stop then newType c.type
      else typeAt (s.locks i) owner b) ∧
    (r.1 ≠ .ok → r.2.locks = s.locks) := by
  intro s r
  have hinv : Inv s := (Inv.init hother).run events hvalid
  have hstep : Step s c r := posixLockFile_step hinv hc
  refine ⟨fun i => ⟨hinv.wellFormed i,(hinv.step hstep).wellFormed i⟩,fun hok i owner b => ?_,
    fun hne => funext fun i => (typeAt_step hstep i).1 hne⟩
  rw [(typeAt_step hstep i).2 hok]
  split
  · next hi =>
    rw [overwritten]
    exact if_congr (by simp [hi,State.request]) rfl rfl
  · next hi =>
    rw [if_neg (fun hand => hi ⟨hand.1,hand.2.1⟩)]

def ask {Ino : Type} (ino : Ino) (owner : Nat) (type : LockType) (start stop : Int) : Call Ino Nat :=
  ⟨ino,owner,type,start,stop,true,false,false,true,true⟩

/-- Two readers, one of which unlocks a part in the middle and then asks for the end of it again. -/
def twoReaders : List (Event Unit Nat) :=
  [.lock (ask () 1 .rdlck 0 99),.lock (ask () 2 .rdlck 50 offsetMax),.lock (ask () 1 .unlck 20 59)]

theorem lock_overwrites_range_merge :
    let s := (State.init (fun _ => [⟨⟨0,offsetMax,.wrlck⟩,0,false,1⟩]) 1).run twoReaders
    let r := s.posixLockFile (ask () 1 .rdlck 40 59)
    r.1 = .ok ∧ WellFormed (r.2.locks ()) ∧ ∀ owner b, typeAt (r.2.locks ()) owner b =
      if owner = 1 ∧ 40 ≤ b ∧ b ≤ 59 then some .rdlck else typeAt (s.locks ()) owner b := by
  have hmain := lock_overwrites_range (fun _ : Unit => [⟨⟨0,offsetMax,.wrlck⟩,0,false,1⟩]) 1
    (fun _ => ⟨by decide,by decide⟩) twoReaders (by simp [twoReaders,Event.Valid,Call.Valid,ask,offsetMax])
    (ask () 1 .rdlck 40 59) (by simp [Call.Valid,ask,offsetMax])
  have hok : (((State.init (fun _ => [⟨⟨0,offsetMax,.wrlck⟩,0,false,1⟩]) 1).run twoReaders).posixLockFile
      (ask () 1 .rdlck 40 59)).1 = .ok := by decide +kernel
  refine ⟨hok,(hmain.1 ()).2,fun owner b => ?_⟩
  rw [hmain.2.1 hok () owner b]
  exact if_congr (by simp [ask]) rfl rfl

/-- A call that fails leaves the lists as they are, whichever of its allocations failed. -/
theorem lock_error_keeps_lists (other : Ino → List (FileLock Owner)) (nextId : Nat)
    (hother : ∀ i, Others nextId (other i)) (events : List (Event Ino Owner))
    (hvalid : ∀ e ∈ events, e.Valid) (c : Call Ino Owner) (hc : c.Valid) :
    let s := (State.init other nextId).run events
    let r := s.posixLockFile c
    r.1 = .again ∨ r.1 = .deadlk ∨ r.1 = .nolck ∨ r.1 = .noent → r.2.locks = s.locks := by
  intro s r herror
  have hstep : Step s c r := posixLockFile_step ((Inv.init hother).run events hvalid) hc
  have hne : r.1 ≠ .ok := by
    rcases herror with h | h | h | h <;> rw [h] <;> decide
  exact funext fun i => (typeAt_step hstep i).1 hne

theorem lock_error_keeps_lists_split :
    let s := (State.init (fun _ : Unit => []) 1).run twoReaders
    let r := s.posixLockFile {ask () 2 .unlck 60 70 with alloc2 := false}
    r.1 = .nolck ∧ r.2.locks = s.locks := by
  have hnolck : (((State.init (fun _ : Unit => []) 1).run twoReaders).posixLockFile
      {ask () 2 .unlck 60 70 with alloc2 := false}).1 = .nolck := by decide +kernel
  exact ⟨hnolck,lock_error_keeps_lists (fun _ => []) 1 (fun _ => ⟨nofun,nodup_nil⟩) twoReaders
    (by simp [twoReaders,Event.Valid,Call.Valid,ask,offsetMax]) _ (by simp [Call.Valid,ask,offsetMax])
    (.inr (.inr (.inl hnolck)))⟩

/-- What one owner may write, no other owner has locked. -/
def Excludes (l : List (FileLock Owner)) : Prop :=
  ∀ owner owner' b, owner ≠ owner' → typeAt l owner b = some .wrlck → typeAt l owner' b = none

/-- Where a call has locked, other owners have no locks that conflict. -/
lemma compatible_of_ok {s : State Ino Owner} {c : Call Ino Owner} {owner : Owner} {b : Int} {v : LockType}
    (hok : (s.posixLockFile c).1 = .ok) (htype : c.type ≠ .unlck) (hne : owner ≠ c.owner)
    (hb : c.start ≤ b ∧ b ≤ c.stop) (hv : typeAt (s.locks c.ino) owner b = some v) :
    v ≠ .wrlck ∧ c.type ≠ .wrlck := by
  obtain ⟨_,hx,hin,rfl⟩ := exists_of_valueAt hv
  obtain ⟨fl,hfl,rfl⟩ := mem_map.mp hx
  obtain ⟨hmem,hown⟩ := mem_filter.mp hfl
  obtain ⟨hposix,howner⟩ := (Bool.and_eq_true ..).mp hown
  unfold State.posixLockFile at hok
  dsimp only at hok
  rw [if_neg htype] at hok
  split at hok
  · split at hok
    · cases hok
    split at hok
    · cases hok
    · cases hok
  next hfind =>
  have hnone := find?_eq_none.mp hfind fl hmem
  have hother : c.owner ≠ fl.owner := fun heq => hne ((of_decide_eq_true howner).symm.trans heq.symm)
  have hover : fl.start ≤ c.stop ∧ c.start ≤ fl.stop := by omega
  simp [posixLocksConflict,posixSameOwner,locksOverlap,locksConflict,State.request,hposix,hother,hover] at hnone
  exact hnone.imp_right fun h heq => by simp [heq] at h

theorem Excludes.step {s : State Ino Owner} {c : Call Ino Owner} {i : Ino} (hex : Excludes (s.locks i)) (h : Inv s)
    (hc : c.Valid) : Excludes ((s.posixLockFile c).2.locks i) := by
  obtain ⟨hsame,hover⟩ := typeAt_step (posixLockFile_step h hc) i
  by_cases hok : (s.posixLockFile c).1 = .ok
  swap
  · rwa [hsame hok]
  intro owner owner' b hne hwrite
  rw [hover hok] at hwrite ⊢
  split at hwrite
  swap
  · next hi =>
    rw [if_neg hi]
    exact hex owner owner' b hne hwrite
  next hi =>
  rw [if_pos hi]
  obtain ⟨rfl,-⟩ := hi
  rw [overwritten] at hwrite ⊢
  split at hwrite
  · next hin =>
    rw [if_neg fun hin' => hne (hin.1.trans hin'.1.symm)]
    rcases hv : typeAt (s.locks c.ino) owner' b with _ | v
    · rfl
    have htype : c.type = .wrlck := Option.some.inj ((Option.ite_none_left_eq_some ..).mp hwrite).2
    exact absurd htype (compatible_of_ok hok (by simp [htype]) (fun h => hne (hin.1.trans h.symm)) hin.2 hv).2
  split
  · next hin =>
    refine if_pos (by_contra fun htype => ?_)
    exact (compatible_of_ok hok htype (fun h => hne (h.trans hin.1.symm)) hin.2 hwrite).1 rfl
  · exact hex owner owner' b hne hwrite

/-- In every run no two owners ever hold locks that exclude each other. -/
theorem no_conflicting_locks (other : Ino → List (FileLock Owner)) (nextId : Nat)
    (hother : ∀ i, Others nextId (other i))
    (events : List (Event Ino Owner)) (hvalid : ∀ e ∈ events, e.Valid) (i : Ino) :
    Excludes (((State.init other nextId).run events).locks i) := by
  suffices ∀ s : State Ino Owner, Inv s → Excludes (s.locks i) → Excludes ((s.run events).locks i) by
    refine this _ (Inv.init hother) fun owner owner' b _ hwrite => ?_
    obtain ⟨_,hx,-⟩ := exists_of_valueAt hwrite
    obtain ⟨fl,hfl,-⟩ := mem_map.mp hx
    simp [((hother i).1 fl (mem_filter.mp hfl).1).1] at hfl
  induction events with
  | nil => exact fun _ _ h => h
  | cons e events ih =>
    obtain ⟨he,hvalid⟩ := forall_mem_cons.mp hvalid
    intro s h hex
    refine ih hvalid _ (h.apply he) ?_
    cases e with
    | lock c => exact hex.step h he
    | deleteBlock waiter => exact hex

/-- A writer, and a reader that asks for a part of what it has locked. -/
theorem no_conflicting_locks_writer :
    let s := (State.init (fun _ : Unit => []) 1).run [.lock (ask () 1 .wrlck 0 9),.lock (ask () 2 .rdlck 5 20)]
    typeAt (s.locks ()) 1 5 = some .wrlck ∧ Excludes (s.locks ()) :=
  ⟨by decide +kernel,no_conflicting_locks _ 1 (fun _ => ⟨by decide,by decide⟩) _
    (by simp [Event.Valid,Call.Valid,ask,offsetMax]) ()⟩

end Runs

end LinuxToradex.Locks

import LinuxToradex.IpTables.Rules

/-! `mark_source_chains` keeps back pointers in the packet counters and marks in `comefrom`. -/
namespace LinuxToradex.IpTables
open List Function ByteMem

variable {fuel root : Nat} {s s' : MarkState} {log : List Nat} {l : BackDfs.State Nat} {m' : Mem}
variable {m0 m : Mem} {size x : Nat} {hook : Fin 5}

lemma testBit_one_shiftLeft (n k : Nat) : (1 <<< n).testBit k = decide (n = k) := by
  rw [Nat.one_shiftLeft,Nat.testBit_two_pow]

lemma testBit_mark (c h k : Nat) (hk : k < 32) : ((c ||| (1 <<< h ||| 1 <<< 5))%4294967296).testBit k =
      (c.testBit k || decide (h = k) || decide (5 = k)) := by
  rw [show (4294967296 : Nat) = 2^32 from rfl,Nat.testBit_mod_two_pow,Nat.testBit_or,
    Nat.testBit_or,testBit_one_shiftLeft,testBit_one_shiftLeft]
  simp [hk,Bool.or_assoc]

lemma testBit_unmark (c k : Nat) (hk : k < 32) :
    ((c ^^^ 1 <<< 5)%4294967296).testBit k = (c.testBit k ^^ decide (5 = k)) := by
  rw [show (4294967296 : Nat) = 2^32 from rfl,Nat.testBit_mod_two_pow,Nat.testBit_xor, testBit_one_shiftLeft]
  simp [hk]

lemma bind_ok {ε α β : Type} {x : Except ε α} {f : α → Except ε β} {b : β}
    (h : (x >>= f) = .ok b) : ∃ a, x = .ok a ∧ f a = .ok b := by
  cases x with
  | error _ => cases h
  | ok a => exact ⟨a,rfl,h⟩

lemma markLoop_head (h : markLoop size hook fuel s = .ok (m,log)) : s.pos ∈ log := by
  have hhead : s.pos ∈ markDerefs s := by
    unfold markDerefs
    cases s.mode <;> simp
  rcases fuel with _ | fuel
  · cases h
  unfold markLoop at h
  split at h
  · cases h
  · cases h
    exact hhead
  obtain ⟨_,_,hpure⟩ := bind_ok h
  cases hpure
  exact mem_append_left _ hhead

section Search
/-- The marks in the rules: those of `hook`, those of the current path, and none yet of the
hooks in `rest`. -/
def Marks (m0 : Mem) (size : Nat) (hook : Fin 5) (rest : List (Fin 5)) (m : Mem)
    (seen busy : Nat → Bool) : Prop :=
  ∀ e ∈ xtEntries m0 size, (comefrom m e).testBit hook = seen e ∧
    (comefrom m e).testBit 5 = busy e ∧ ∀ h ∈ rest, (comefrom m e).testBit h = false

def Backs (m0 : Mem) (size : Nat) (m : Mem) (back : Nat → Nat) : Prop :=
  ∀ e ∈ xtEntries m0 size, pcnt m e = back e

variable (hlay : Layout m0 size) {rest : List (Fin 5)}
  {seen busy : Nat → Bool} {back : Nat → Nat}
include hlay

section
variable (h : Marks m0 size hook rest m seen busy)
include h

lemma Marks.mark (hrest : hook ∉ rest) (hx : x ∈ xtEntries m0 size) : Marks m0 size hook rest
      (setComefrom m x (comefrom m x ||| (1 <<< hook.val ||| 1 <<< 5)))
      (update seen x true) (update busy x true) := by
  intro e he
  rw [hlay.comefrom_setComefrom m hx he]
  by_cases hex : e = x
  · subst hex
    obtain ⟨_,_,hlater⟩ := h e he
    rw [if_pos rfl,update_self,update_self]
    refine ⟨?_,?_,fun k hk => ?_⟩
    · rw [testBit_mark _ _ _ (by omega)]
      simp
    · rw [testBit_mark _ _ _ (by omega)]
      simp
    have hne : hook.val ≠ k.val := fun heq => hrest (Fin.ext heq ▸ hk)
    have h5 : 5 ≠ k.val := by omega
    rw [testBit_mark _ _ _ (by omega),hlater k hk]
    simp [hne,h5]
  rw [if_neg hex,update_of_ne hex,update_of_ne hex]
  exact h e he

lemma Marks.unmark (hx : x ∈ xtEntries m0 size) (hbusy : busy x = true) :
    Marks m0 size hook rest (setComefrom m x (comefrom m x ^^^ 1 <<< 5)) seen (update busy x false) := by
  intro e he
  rw [hlay.comefrom_setComefrom m hx he]
  by_cases hex : e = x
  · subst hex
    obtain ⟨hseen,hold,hlater⟩ := h e he
    rw [if_pos rfl,update_self]
    refine ⟨?_,?_,fun k hk => ?_⟩
    · have h5 : 5 ≠ hook.val := by omega
      rw [testBit_unmark _ _ (by omega),hseen]
      simp [h5]
    · rw [testBit_unmark _ _ (by omega),hold,hbusy]
      rfl
    have h5 : 5 ≠ k.val := by omega
    rw [testBit_unmark _ _ (by omega),hlater k hk]
    simp [h5]
  rw [if_neg hex,update_of_ne hex]
  exact h e he

lemma Marks.setPcnt (hx : x ∈ xtEntries m0 size) (v : Nat) : Marks m0 size hook rest (setPcnt m x v) seen busy := by
  intro e he
  rw [hlay.comefrom_setPcnt m hx he]
  exact h e he

end

lemma Backs.setComefrom (h : Backs m0 size m back) (hx : x ∈ xtEntries m0 size) (v : Nat) :
    Backs m0 size (setComefrom m x v) back := by
  intro e he
  rw [hlay.pcnt_setComefrom m hx he]
  exact h e he

lemma Backs.setPcnt (h : Backs m0 size m back) (hx : x ∈ xtEntries m0 size) {v : Nat}
    (hv : v < 4294967296) : Backs m0 size (setPcnt m x v) (update back x v) := by
  intro e he
  rw [hlay.pcnt_setPcnt m hx he]
  by_cases hex : e = x
  · subst hex
    rw [if_pos rfl,update_self,Nat.mod_eq_of_lt hv]
  rw [if_neg hex,update_of_ne hex]
  exact h e he

section
variable (hst : Static m0 size m0 m) (hx : x ∈ xtEntries m0 size) (v : Nat)
include hst hx v

lemma Layout.static_setComefrom : Static m0 size m0 (setComefrom m x v) :=
  hst.trans (hlay.static_put m hx (by omega) (by rw [le_length]; omega))

lemma Layout.static_setPcnt : Static m0 size m0 (setPcnt m x v) :=
  hst.trans (hlay.static_put m hx (by omega) (by rw [le_length]; omega))

end

end Search

def MarkMode.dfs : MarkMode → BackDfs.Mode
  | .visit => .visit
  | .back => .pop

/-- The search state that the marks and back pointers in the rules stand for. -/
structure Sim (m0 : Mem) (size : Nat) (hook : Fin 5) (rest : List (Fin 5)) (s : MarkState)
    (l : BackDfs.State Nat) : Prop where
  mode : l.mode = s.mode.dfs
  cur : l.cur = s.pos
  pos : s.pos ∈ xtEntries m0 size
  static : Static m0 size m0 s.mem
  marks : Marks m0 size hook rest s.mem l.seen l.busy
  backs : Backs m0 size s.mem l.back
  seen : ∀ e, l.seen e = true → e ∈ xtEntries m0 size

section Simulation
variable (hlay : Layout m0 size) (hsize : size+65536 ≤ 4294967296) {rest : List (Fin 5)} (hrest : hook ∉ rest)
include hlay hsize hrest

omit hlay hrest in
lemma entry_lt {e : Nat} (he : e ∈ xtEntries m0 size) : e < 4294967296 := by
  have := xtEntries_lt he
  omega

omit hlay hsize hrest in
lemma update_seen_mem {seen : Nat → Bool} (hx : x ∈ xtEntries m0 size)
    (h : ∀ e, seen e = true → e ∈ xtEntries m0 size) : ∀ e, update seen x true e = true → e ∈ xtEntries m0 size := by
  exact (forall_update_iff _ fun e b => b = true → e ∈ xtEntries m0 size).mpr ⟨fun _ => hx,fun e _ => h e⟩

omit hsize hrest in
lemma chains_first (hst : Static m0 size m0 m) (hx : x ∈ xtEntries m0 size) : (chains m0).first x =
      if isStandard m (getTarget m0 x) && decide (0 ≤ verdict m (getTarget m0 x)) then
        (verdict m (getTarget m0 x)).toNat else iptNextEntry m x := by
  have hrule := hst x hx
  unfold BackDfs.Graph.first chains
  dsimp only
  rw [hrule.isStandard (hlay x hx),hrule.iptNextEntry (hlay x hx)]
  cases hs : isStandard m0 (getTarget m0 x) with
  | false => rfl
  | true =>
    rw [hrule.verdict (hlay x hx) hs]
    split <;> rfl

lemma Sim.visit_step (sim : Sim m0 size hook rest s l) (hm : s.mode = .visit)
    (hstep : markVisit size hook s.pos s.mem = .more s') : ∃ l', BackDfs.Step (chains m0) l l' ∧ l'.cur = s'.pos ∧
      (s'.pos ∈ xtEntries m0 size → Sim m0 size hook rest s' l') := by
  obtain ⟨lmode,x,seen,busy,back⟩ := l
  obtain ⟨smode,pos,m⟩ := s
  obtain ⟨hmode,hcur,hpos,hst,hmarks,hbacks,hseen⟩ := sim
  dsimp only at hm hmode hcur hpos hst hmarks hbacks hseen hstep
  subst hm hcur
  subst hmode
  unfold markVisit at hstep
  dsimp only at hstep
  obtain ⟨hbit,hpath,_⟩ := hmarks x hpos
  rw [hbit,hpath] at hstep
  have hst1 := hlay.static_setComefrom hst hpos (comefrom m x ||| (1 <<< hook.val ||| 1 <<< 5))
  have hmarks1 := hmarks.mark hlay hrest hpos
  have hbacks1 := hbacks.setComefrom hlay hpos (comefrom m x ||| (1 <<< hook.val ||| 1 <<< 5))
  have hfirst := chains_first hlay hst1 hpos
  generalize setComefrom m x (comefrom m x ||| (1 <<< hook.val ||| 1 <<< 5)) = m1 at *
  rw [(hst x hpos).getTarget (hlay x hpos)] at hstep
  rw [(hst1 x hpos).unconditionalEnd (hlay x hpos)] at hstep
  split at hstep
  · cases hstep
  rename_i hbusy
  rw [Bool.not_eq_true] at hbusy
  split at hstep
  · rename_i hend
    split at hstep
    · cases hstep
    cases hstep
    refine ⟨_,.turn hbusy ?_,rfl,fun _ => ⟨rfl,rfl,hpos,hst1,hmarks1,hbacks1, update_seen_mem hpos hseen⟩⟩
    rwa [Bool.or_eq_true] at hend
  rename_i hend
  rw [Bool.or_eq_true,not_or,Bool.not_eq_true (seen x)] at hend
  have hmove {newpos : Nat} (hnew : (chains m0).first x = newpos) :
      ∃ l', BackDfs.Step (chains m0) ⟨.visit,x,seen,busy,back⟩ l' ∧ l'.cur = newpos ∧
        (newpos ∈ xtEntries m0 size →
          Sim m0 size hook rest ⟨.visit,newpos,setPcnt m1 newpos x⟩ l') := by
    refine ⟨_,.descend hbusy hend.2 hend.1,hnew,fun hin => ?_⟩
    rw [hnew]
    exact ⟨rfl,rfl,hin,hlay.static_setPcnt hst1 hin x,hmarks1.setPcnt hlay hin x,
      hbacks1.setPcnt hlay hin (entry_lt hsize hpos),update_seen_mem hpos hseen⟩
  split at hstep
  · rename_i hjump
    split at hstep
    · cases hstep
    cases hstep
    exact hmove (by rw [hfirst,if_pos hjump])
  rename_i hjump
  cases hstep
  exact hmove (by rw [hfirst,if_neg hjump])

omit hrest in
lemma Sim.back_step (sim : Sim m0 size hook rest s l) (hinv : BackDfs.Inv (chains m0) root l)
    (hm : s.mode = .back) (hback : pcnt s.mem s.pos ∈ xtEntries m0 size)
    (hstep : markBack s.pos s.mem = .more s') : ∃ l', BackDfs.Step (chains m0) l l' ∧ l'.cur = s'.pos ∧
      (s'.pos ∈ xtEntries m0 size → Sim m0 size hook rest s' l') := by
  have hbusy := hinv.busy_cur (by rw [sim.mode,hm]; rfl)
  obtain ⟨lmode,x,seen,busy,back⟩ := l
  obtain ⟨smode,pos,m⟩ := s
  obtain ⟨hmode,hcur,hpos,hst,hmarks,hbacks,hseen⟩ := sim
  dsimp only at hm hmode hcur hpos hst hmarks hbacks hseen hstep hback hbusy
  subst hm hcur
  subst hmode
  unfold markBack at hstep
  dsimp only at hstep
  have hst1 := hlay.static_setComefrom hst hpos (comefrom m x ^^^ 1 <<< 5)
  have hmarks1 := hmarks.unmark hlay hpos hbusy
  have hbacks1 := hbacks.setComefrom hlay hpos (comefrom m x ^^^ 1 <<< 5)
  rw [hbacks x hpos] at hback
  rw [hbacks1 x hpos] at hstep
  have hst2 := hlay.static_setPcnt hst1 hpos 0
  have hmarks2 := hmarks1.setPcnt hlay hpos 0
  have hbacks2 := hbacks1.setPcnt (v := 0) hlay hpos (by omega)
  rw [(hst2 _ hback).iptNextEntry (hlay _ hback)] at hstep
  split at hstep
  · cases hstep
  rename_i hne
  split at hstep
  · rename_i hlast
    cases hstep
    exact ⟨_,.ascend (r := 0) rfl hne hlast.symm,rfl, fun _ => ⟨rfl,rfl,hback,hst2,hmarks2,hbacks2,hseen⟩⟩
  rename_i hlast
  cases hstep
  refine ⟨_,.along (r := 0) rfl hne (fun h => hlast h.symm),rfl,fun hin => ?_⟩
  exact ⟨rfl,rfl,hin,hlay.static_setPcnt hst2 hin _,hmarks2.setPcnt hlay hin _,
    hbacks2.setPcnt hlay hin (entry_lt hsize hback),hseen⟩

omit hsize hrest in
lemma Sim.finish (sim : Sim m0 size hook rest s l) (hinv : BackDfs.Inv (chains m0) root l)
    (hm : s.mode = .back) (hstep : markBack s.pos s.mem = .next m') :
    l.mode = .pop ∧ l.back l.cur = l.cur ∧ Static m0 size m0 m' ∧
      Marks m0 size hook rest m' l.seen (update l.busy l.cur false) := by
  have hmode : l.mode = .pop := by rw [sim.mode,hm]; rfl
  have hmarks := sim.marks.unmark hlay sim.pos (sim.cur ▸ hinv.busy_cur hmode)
  have hst := hlay.static_setComefrom sim.static sim.pos (comefrom s.mem s.pos ^^^ 1 <<< 5)
  have hbacks := sim.backs.setComefrom hlay sim.pos (comefrom s.mem s.pos ^^^ 1 <<< 5)
  unfold markBack at hstep
  dsimp only at hstep
  rw [hbacks s.pos sim.pos] at hstep
  split at hstep
  · rename_i heq
    cases hstep
    rw [sim.cur]
    exact ⟨hmode,heq,hlay.static_setPcnt hst sim.pos 0,hmarks.setPcnt hlay sim.pos 0⟩
  · split at hstep <;> cases hstep

/-- What a completed search of a hook establishes: the rules reachable from the hook's
entry are rules of the table and can be listed with every rule before the rules it leads
to. -/
def Searched (m0 : Mem) (size root : Nat) : Prop :=
  ∃ fin, BackDfs.Topo (chains m0) fin ∧ root ∈ fin ∧ ∀ e ∈ fin, e ∈ xtEntries m0 size

def Unmarked (m0 : Mem) (size : Nat) (rest : List (Fin 5)) (m : Mem) : Prop :=
  ∀ e ∈ xtEntries m0 size, (comefrom m e).testBit 5 = false ∧
    ∀ h ∈ rest, (comefrom m e).testBit h = false

omit hsize hrest in
lemma Sim.searched (sim : Sim m0 size hook rest s l) (hinv : BackDfs.Inv (chains m0) root l)
    (hm : s.mode = .back) (hstep : markBack s.pos s.mem = .next m') :
    Static m0 size m0 m' ∧ Unmarked m0 size rest m' ∧ Searched m0 size root := by
  obtain ⟨hmode,hback,hst,hmarks⟩ := sim.finish hlay hinv hm hstep
  obtain ⟨hcur,hbusy,fin,htopo,hroot,hfin⟩ := BackDfs.finished hinv hmode hback
  refine ⟨hst,fun e he => ⟨?_,(hmarks e he).2.2⟩,fin,htopo,hroot,?_⟩
  · rw [(hmarks e he).2.1]
    by_cases hex : e = l.cur
    · rw [hex,update_self]
    rw [update_of_ne hex,← Bool.not_eq_true]
    intro hb
    exact hex (by rw [hbusy e hb,hcur])
  intro e he
  exact sim.seen e ((hfin e).mpr he)

/-- The search of one hook, on a table where it cannot leave the rules or did not. -/
theorem markLoop_spec (fuel : Nat) (sim : Sim m0 size hook rest s l)
    (hinv : BackDfs.Inv (chains m0) root l) (hrun : markLoop size hook fuel s = .ok (m',log))
    (hstay : Lands m0 size root ∨ ∀ a ∈ log, a ∈ xtEntries m0 size) :
    (∀ a ∈ log, a ∈ xtEntries m0 size) ∧ Static m0 size m0 m' ∧ Unmarked m0 size rest m' ∧ Searched m0 size root := by
  induction fuel generalizing s l log with
  | zero => cases hrun
  | succ fuel ih =>
    -- the back pointer of a rule that is left
    have hback : s.mode = .back → (∀ a ∈ markDerefs s, a ∈ log) → pcnt s.mem s.pos ∈ xtEntries m0 size := by
      intro hm hlog
      rcases hstay with hlands | hin
      · refine hlands _ ?_
        rw [sim.backs s.pos sim.pos,← sim.cur]
        exact hinv.back_reach (by rw [sim.mode,hm]; rfl)
      · exact hin _ (hlog _ (by simp [markDerefs,hm]))
    have hderefs : (∀ a ∈ markDerefs s, a ∈ log) → ∀ a ∈ markDerefs s, a ∈ xtEntries m0 size := by
      intro hlog a ha
      cases hm : s.mode with
      | visit =>
        simp only [markDerefs,hm,mem_singleton] at ha
        exact ha ▸ sim.pos
      | back =>
        have hpb := hback hm hlog
        simp only [markDerefs,hm,mem_cons,not_mem_nil,or_false] at ha
        rcases ha with rfl | rfl
        · exact sim.pos
        · exact hpb
    unfold markLoop at hrun
    split at hrun
    · cases hrun
    · rename_i m1 hstep
      cases hrun
      have hm : s.mode = .back := by
        cases hm : s.mode with
        | back => rfl
        | visit =>
          rw [markStep,hm] at hstep
          dsimp only [markVisit] at hstep
          repeat' split at hstep
          all_goals cases hstep
      rw [markStep,hm] at hstep
      exact ⟨hderefs fun _ h => h,sim.searched hlay hinv hm hstep⟩
    rename_i s' hstep
    obtain ⟨⟨m1,log1⟩,hrest',hpure⟩ := bind_ok hrun
    cases hpure
    have hlog : ∀ a ∈ markDerefs s, a ∈ markDerefs s++log1 :=
      fun a ha => mem_append_left _ ha
    obtain ⟨l',hst,hcur,hsim⟩ : ∃ l', BackDfs.Step (chains m0) l l' ∧ l'.cur = s'.pos ∧
        (s'.pos ∈ xtEntries m0 size → Sim m0 size hook rest s' l') := by
      cases hm : s.mode with
      | visit =>
        rw [markStep,hm] at hstep
        exact sim.visit_step hlay hsize hrest hm hstep
      | back =>
        rw [markStep,hm] at hstep
        exact sim.back_step hlay hsize hinv hm (hback hm hlog) hstep
    have hinv' := BackDfs.inv_step hinv hst
    have hpos : s'.pos ∈ xtEntries m0 size := by
      rcases hstay with hlands | hin
      · rw [← hcur]
        exact hlands _ hinv'.1
      · exact hin _ (mem_append_right _ (markLoop_head hrest'))
    obtain ⟨hin,hfinal⟩ := ih (hsim hpos) hinv' hrest' (hstay.imp id fun h a ha => h a (mem_append_right _ ha))
    exact ⟨forall_mem_append.mpr ⟨hderefs hlog,hin⟩,hfinal⟩

omit hrest in
lemma sim_start (hst : Static m0 size m0 m) (hun : Unmarked m0 size (hook::rest) m)
    (hroot : root ∈ xtEntries m0 size) :
    Sim m0 size hook rest ⟨.visit,root,setPcnt m root root⟩ (BackDfs.start root (pcnt m)) := by
  have hmarks : Marks m0 size hook rest m (fun _ => false) (fun _ => false) := fun e he =>
    ⟨(hun e he).2 hook mem_cons_self,(hun e he).1,fun h hh => (hun e he).2 h (mem_cons_of_mem _ hh)⟩
  have hbacks : Backs m0 size m (pcnt m) := fun e _ => rfl
  exact ⟨rfl,rfl,hroot,hlay.static_setPcnt hst hroot root,hmarks.setPcnt hlay hroot root,
    hbacks.setPcnt hlay hroot (entry_lt hsize hroot),by simp [BackDfs.start]⟩

omit hlay hsize hrest in
lemma markHooks_log {newinfo : XtTableInfo} {repl : IptReplace} (hs : List (Fin 5))
    (acc : Mem × List Nat) (hrun : hs.foldlM (markHook fuel newinfo repl) acc = .ok (m',log)) :
    ∀ a ∈ acc.2, a ∈ log := by
  induction hs generalizing acc with
  | nil =>
    cases hrun
    exact fun a ha => ha
  | cons hook rest ih =>
    obtain ⟨acc',hhook,hrun⟩ := bind_ok hrun
    intro a ha
    refine ih acc' hrun a ?_
    unfold markHook at hhook
    split at hhook
    · cases hhook
      exact ha
    obtain ⟨_,_,hpure⟩ := bind_ok hhook
    cases hpure
    exact mem_append_left _ ha

omit hrest in
lemma markHooks_spec {newinfo : XtTableInfo} {repl : IptReplace} (hinfo : newinfo.size = size)
    (hs : List (Fin 5)) (hnd : hs.Nodup)
    (hentry : ∀ h ∈ hs, repl.valid h = true → newinfo.hookEntry h ∈ xtEntries m0 size)
    (acc : Mem × List Nat) (hst : Static m0 size m0 acc.1) (hun : Unmarked m0 size hs acc.1)
    (hrun : hs.foldlM (markHook fuel newinfo repl) acc = .ok (m',log))
    (hstay : (∀ h ∈ hs, repl.valid h = true → Lands m0 size (newinfo.hookEntry h)) ∨
      ∀ a ∈ log, a ∈ xtEntries m0 size) :
    (∀ a ∈ log, a ∈ acc.2 ∨ a ∈ xtEntries m0 size) ∧ Static m0 size m0 m' ∧
      ∀ h ∈ hs, repl.valid h = true → Searched m0 size (newinfo.hookEntry h) := by
  induction hs generalizing acc with
  | nil =>
    cases hrun
    exact ⟨fun a ha => .inl ha,hst,by simp⟩
  | cons hook rest ih =>
    obtain ⟨hnotin,hnd'⟩ := nodup_cons.mp hnd
    obtain ⟨acc',hhook,hrun⟩ := bind_ok hrun
    have hentry' := fun h hh => hentry h (mem_cons_of_mem _ hh)
    have hstay' := hstay.imp (fun hl h hh => hl h (mem_cons_of_mem _ hh)) id
    unfold markHook at hhook
    split at hhook
    · -- a hook that is not in use is skipped
      rename_i hvalid
      cases hhook
      obtain ⟨hin,hst',hall⟩ := ih hnd' hentry' acc hst
        (fun e he => ⟨(hun e he).1,fun h hh => (hun e he).2 h (mem_cons_of_mem _ hh)⟩)
        hrun hstay'
      refine ⟨hin,hst',fun h hh hv => ?_⟩
      rcases mem_cons.mp hh with rfl | hh
      · rw [hv] at hvalid
        cases hvalid
      · exact hall h hh hv
    rename_i hvalid
    rw [Bool.not_eq_true,Bool.not_eq_false'] at hvalid
    obtain ⟨⟨m1,log1⟩,hloop,hpure⟩ := bind_ok hhook
    cases hpure
    have hroot := hentry hook mem_cons_self hvalid
    rw [hinfo] at hloop
    have hlogged : ∀ a ∈ log1, a ∈ log := fun a ha =>
      markHooks_log rest _ hrun a (mem_append_right _ ha)
    have hstay1 : Lands m0 size (newinfo.hookEntry hook) ∨ ∀ a ∈ log1, a ∈ xtEntries m0 size :=
      hstay.imp (fun hl => hl hook mem_cons_self hvalid) fun h a ha => h a (hlogged a ha)
    have hsim := sim_start hlay hsize hst hun hroot
    have hinv := BackDfs.inv_start (g := chains m0) (newinfo.hookEntry hook) (pcnt acc.1)
    obtain ⟨hin1,hst1,hun1,hsearched⟩ :=
      markLoop_spec hlay hsize hnotin fuel hsim hinv hloop hstay1
    obtain ⟨hin,hst',hall⟩ := ih hnd' hentry' (m1,acc.2++log1) hst1 hun1 hrun hstay'
    refine ⟨fun a ha => ?_,hst',fun h hh hv => ?_⟩
    · rcases hin a ha with ha | ha
      · exact (mem_append.mp ha).imp id (hin1 a)
      · exact .inr ha
    rcases mem_cons.mp hh with rfl | hh
    · exact hsearched
    · exact hall h hh hv

end Simulation
end LinuxToradex.IpTables

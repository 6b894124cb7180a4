import LinuxToradex.SocketFilter.Safety

/-! Uninitialised scratch cells do not influence a filter: `check_load_and_stores` computes a set of cells for
every instruction. -/
namespace LinuxToradex.SocketFilter
open List Function BpfS

/-- The pass at one instruction: `v` is `memvalid` after it was met with `masks[pc]`. -/
structure Transfer (pc : Nat) (f : SockFilter) (op : BpfS) (m m' : Masks) (v : BitVec 16) : Prop where
  masks_le : ∀ q i, (m'.masks q).getLsbD i = true → (m.masks q).getLsbD i = true
  load : op.isLoad = true → v.getLsbD f.k.toNat = true
  fall : op ≠ jmpJa → op.isCondJump = false → ∀ i, m'.memvalid.getLsbD i = true →
    v.getLsbD i = true ∨ op.isStore = true ∧ i = f.k.toNat
  ja : op = jmpJa → ∀ i, (m'.masks (pc+1+f.k.toNat)).getLsbD i = true → v.getLsbD i = true
  jt : op.isCondJump = true → ∀ i, (m'.masks (pc+1+f.jt.toNat)).getLsbD i = true → v.getLsbD i = true
  jf : op.isCondJump = true → ∀ i, (m'.masks (pc+1+f.jf.toNat)).getLsbD i = true → v.getLsbD i = true

lemma meet_le (masks : Nat → BitVec 16) (p q i : Nat) (v : BitVec 16)
    (h : (Masks.meet masks p v q).getLsbD i = true) : (masks q).getLsbD i = true := by
  by_cases hq : q = p
  · subst hq
    simp only [Masks.meet,update_self,BitVec.getLsbD_and,Bool.and_eq_true] at h
    exact h.1
  · rwa [Masks.meet,update_of_ne hq] at h

lemma meet_self_le (masks : Nat → BitVec 16) (p i : Nat) (v : BitVec 16)
    (h : (Masks.meet masks p v p).getLsbD i = true) : v.getLsbD i = true := by
  simp only [Masks.meet,update_self,BitVec.getLsbD_and,Bool.and_eq_true] at h
  exact h.2

lemma getLsbD_cell (k : UInt32) (i : Nat) (h : (cell k).getLsbD i = true) : i = k.toNat := by
  simp only [cell,BitVec.getLsbD_shiftLeft,Bool.and_eq_true,decide_eq_true_eq,
    Bool.not_eq_true',decide_eq_false_iff_not] at h
  have h1 := h.2
  simp only [BitVec.getLsbD_one,Bool.and_eq_true,decide_eq_true_eq] at h1
  omega

lemma and_cell_ne_zero {v : BitVec 16} {k : UInt32} (h : v &&& cell k ≠ 0) : v.getLsbD k.toNat = true := by
  by_contra hv
  apply h
  apply BitVec.eq_of_getLsbD_eq
  intro i _
  rw [BitVec.getLsbD_and]
  cases hc : (cell k).getLsbD i with
  | false => simp
  | true =>
    rw [getLsbD_cell k i hc]
    simpa using hv

variable {pc : Nat} {op : BpfS} {v : Nat → Prop}

/-- The masks step read as inequalities between cell sets. -/
theorem checkLoadStore_transfer {f : SockFilter} {m m' : Masks}
    (hop : BpfS.ofCode f.code = some op) (h : checkLoadStore pc f m = .ok m') :
    Transfer pc f op m m' (m.memvalid &&& m.masks pc) := by
  unfold checkLoadStore at h
  rw [hop] at h
  cases op <;> dsimp only at h
  case ldMem | ldxMem =>
    all_goals
      split at h
      · cases h
      rename_i hv
      cases h
      exact ⟨fun _ _ hi => hi,fun _ => and_cell_ne_zero hv,fun _ _ _ hi => .inl hi,
        by simp,by simp [BpfS.isCondJump],by simp [BpfS.isCondJump]⟩
  case st | stx =>
    all_goals
      cases h
      refine ⟨fun _ _ hi => hi,by simp [BpfS.isLoad],fun _ _ i hi => ?_,
        by simp,by simp [BpfS.isCondJump],by simp [BpfS.isCondJump]⟩
      rw [BitVec.getLsbD_or,Bool.or_eq_true] at hi
      exact hi.imp id fun hc => ⟨rfl,getLsbD_cell _ _ hc⟩
  case jmpJa =>
    cases h
    exact ⟨fun q i hi => meet_le _ _ q i _ hi,by simp [BpfS.isLoad],by simp,
      fun _ i hi => meet_self_le _ _ i _ hi,by simp [BpfS.isCondJump],by simp [BpfS.isCondJump]⟩
  case jmpJgtK | jmpJgeK | jmpJeqK | jmpJsetK | jmpJgtX | jmpJgeX | jmpJeqX | jmpJsetX =>
    all_goals
      cases h
      exact ⟨fun q i hi => meet_le _ _ q i _ (meet_le _ _ q i _ hi),by simp [BpfS.isLoad],
        by simp [BpfS.isCondJump],by simp,fun _ i hi => meet_self_le _ _ i _ (meet_le _ _ _ i _ hi),
        fun _ i hi => meet_self_le _ _ i _ hi⟩
  all_goals
    cases h
    exact ⟨fun _ _ hi => hi,by simp [BpfS.isLoad],fun _ _ _ hi => .inl hi,by simp,
      by simp [BpfS.isCondJump],by simp [BpfS.isCondJump]⟩

/-- Cell sets `V` that are consistent with an instruction: a load finds its cell, and
whatever a successor relies on was available here or is stored here. -/
structure Consistent (V : Nat → BitVec 16) (pc : Nat) (f : SockFilter) (op : BpfS) : Prop where
  load : op.isLoad = true → (V pc).getLsbD f.k.toNat = true
  edge : ∀ q, Succ f op pc q → ∀ i, (V q).getLsbD i = true →
    (V pc).getLsbD i = true ∨ op.isStore = true ∧ i = f.k.toNat

/-- Invariant of the pass from `pc` on: sets for the remaining instructions exist that stay
below the current masks, and the first of them is the current `memvalid`. -/
theorem checkLoadStoreLoop_sets (flen : Nat) {fs : List SockFilter} {m m' : Masks}
    (h : checkLoadStoreLoop pc fs m = .ok m') (hok : ∀ i f, fs[i]? = some f → ∃ op, InsnOk flen (pc+i) f op) :
    ∃ V : Nat → BitVec 16, (∀ i, (V pc).getLsbD i = true → (m.memvalid &&& m.masks pc).getLsbD i = true) ∧
      (∀ q, pc ≤ q → ∀ i, (V q).getLsbD i = true → (m.masks q).getLsbD i = true) ∧
      ∀ i f op, fs[i]? = some f → BpfS.ofCode f.code = some op → Consistent V (pc+i) f op := by
  induction fs generalizing pc m with
  | nil => exact ⟨fun _ => 0,by simp,by simp,by simp⟩
  | cons f fs ih =>
    obtain ⟨op,ok⟩ := hok 0 f rfl
    simp only [checkLoadStoreLoop] at h
    split at h
    · cases h
    rename_i m1 hm1
    have tr := checkLoadStore_transfer ok.decodes hm1
    obtain ⟨V,hfirst,hmask,hcons⟩ := ih h (fun i f' hi => by
      have := hok (i+1) f' hi
      simpa only [Nat.add_assoc,Nat.add_comm 1 i] using this)
    have hne : ∀ q, pc+1 ≤ q → q ≠ pc := fun q hq => by omega
    refine ⟨update V pc (m.memvalid &&& m.masks pc),?_,?_,?_⟩
    · intro i hi
      rwa [update_self] at hi
    · intro q hq i hi
      by_cases hqp : q = pc
      · subst hqp
        rw [update_self,BitVec.getLsbD_and,Bool.and_eq_true] at hi
        exact hi.2
      rw [update_of_ne hqp] at hi
      exact tr.masks_le q i (hmask q (by omega) i hi)
    intro i f' op' hi hop'
    rcases i with _ | i
    · simp only [getElem?_cons_zero,Option.some.injEq] at hi
      subst hi
      obtain rfl : op' = op := by rw [ok.decodes,Option.some.injEq] at hop'; exact hop'.symm
      constructor
      · intro hl
        rw [Nat.add_zero,update_self]
        exact tr.load hl
      intro q hs j hj
      rw [Nat.add_zero] at hs ⊢
      rw [update_self]
      cases hs with
      | next _ hja hcj =>
        rw [update_of_ne (hne _ le_rfl)] at hj
        have := hfirst j hj
        rw [BitVec.getLsbD_and,Bool.and_eq_true] at this
        exact tr.fall hja hcj j this.1
      | ja he =>
        rw [update_of_ne (hne _ (by omega))] at hj
        exact .inl (tr.ja he j (hmask _ (by omega) j hj))
      | jt he =>
        rw [update_of_ne (hne _ (by omega))] at hj
        exact .inl (tr.jt he j (hmask _ (by omega) j hj))
      | jf he =>
        rw [update_of_ne (hne _ (by omega))] at hj
        exact .inl (tr.jf he j (hmask _ (by omega) j hj))
    have hc := hcons i f' op' (by simpa using hi) hop'
    have hidx : pc+(i+1) = pc+1+i := by omega
    rw [hidx]
    constructor
    · intro hl
      rw [update_of_ne (hne _ (by omega))]
      exact hc.load hl
    intro q hs j hj
    have hq : pc+1 ≤ q := by cases hs <;> omega
    rw [update_of_ne (hne _ (by omega))]
    rw [update_of_ne (hne _ hq)] at hj
    exact hc.edge q hs j hj

lemma Accepted.sets {prog : List SockFilter} (acc : Accepted prog) :
    ∃ V : Nat → BitVec 16, (∀ i, (V 0).getLsbD i = false) ∧
      ∀ pc f op, prog[pc]? = some f → BpfS.ofCode f.code = some op → Consistent V pc f op := by
  obtain ⟨m,hm⟩ := acc.scratch
  obtain ⟨V,h0,_,hcons⟩ := checkLoadStoreLoop_sets prog.length hm (fun i f hi => by
    simpa only [Nat.zero_add] using acc.insn i f hi)
  refine ⟨V,?_,fun pc f op hf hop => by simpa only [Nat.zero_add] using hcons pc f op hf hop⟩
  intro i
  by_contra hi
  have := h0 i (by simpa using hi)
  simp [initialMasks] at this

structure Agree (v : Nat → Prop) (s t : State) : Prop where
  pc : s.pc = t.pc
  a : s.a = t.a
  x : s.x = t.x
  mem : ∀ i : Fin bpfMemwords, v i → s.mem i = t.mem i

/-- Two executions of one instruction: the same exit, or agreement on what was
available before together with the cell just stored. -/
inductive Lockstep (v : Nat → Prop) (op : BpfS) (k : Nat) : Except Stop State → Except Stop State → Prop
  | ok {s t : State} : Agree (fun i => v i ∨ op.isStore = true ∧ i = k) s t →
      Lockstep v op k (.ok s) (.ok t)
  | stop (e : Stop) : Lockstep v op k (.error e) (.error e)

lemma lockstep_same {k : Nat} {a x : UInt32} {mem mem' : Fin bpfMemwords → UInt32}
    (hop : op.isStore = false) (hm : ∀ i : Fin bpfMemwords, v i → mem i = mem' i) :
    Lockstep v op k (.ok ⟨pc,a,x,mem⟩) (.ok ⟨pc,a,x,mem'⟩) :=
  .ok ⟨rfl,rfl,rfl,fun i hi => hm i (hi.elim id (by simp [hop]))⟩

lemma lockstep_store {k : Nat} {a x y : UInt32} {mem mem' : Fin bpfMemwords → UInt32}
    (hk : k < bpfMemwords) (hm : ∀ i : Fin bpfMemwords, v i → mem i = mem' i) :
    Lockstep v op k (.ok ⟨pc,a,x,update mem ⟨k,hk⟩ y⟩) (.ok ⟨pc,a,x,update mem' ⟨k,hk⟩ y⟩) := by
  refine .ok ⟨rfl,rfl,rfl,fun i hi => ?_⟩
  by_cases hik : i = ⟨k,hk⟩
  · subst hik; simp only [update_self]
  simp only [update_of_ne hik]
  rcases hi with hv | ⟨_,he⟩
  · exact hm i hv
  · exact absurd (Fin.ext he) hik

lemma exec_lockstep (host : Host) (skb : SkBuff) {flen : Nat} {f : SockFilter} {s t : State}
    (ok : InsnOk flen s.pc f op) (hl : op.isLoad = true → v f.k.toNat) (h : Agree v s t) :
    Lockstep v op f.k.toNat (exec host skb op f s) (exec host skb op f t) := by
  obtain ⟨pc,a,x,mem⟩ := s
  obtain ⟨rfl,rfl,rfl,hm⟩ := h
  dsimp only at hm ok
  cases op <;> unfold exec <;> dsimp only [State.next,State.jump]
  case retK | retA => all_goals exact .stop _
  case ldMem | ldxMem =>
    all_goals
      have hk := ok.mem_lt rfl
      rw [dif_pos hk,dif_pos hk,hm ⟨_,hk⟩ (hl rfl)]
      exact lockstep_same rfl hm
  case st | stx =>
    all_goals
      have hk := ok.mem_lt rfl
      rw [dif_pos hk,dif_pos hk]
      exact lockstep_store hk hm
  case ldWAbs | ldHAbs | ldBAbs | ldWInd | ldHInd | ldBInd =>
    all_goals
      unfold loadA
      split
      · exact lockstep_same rfl hm
      · exact .stop _
  case ancIfindex | ancHatype =>
    all_goals
      unfold ancDev
      split
      · exact .stop _
      · exact lockstep_same rfl hm
  case aluDivX =>
    split
    · exact .stop _
    · exact lockstep_same rfl hm
  case ldxBMsh =>
    split
    · exact lockstep_same rfl hm
    · exact .stop _
  case ancNlattr =>
    split
    · exact .stop _
    split
    · exact .stop _
    unfold nlattrResult
    split <;> exact lockstep_same rfl hm
  case ancNlattrNest =>
    split
    · exact .stop _
    split
    · exact .stop _
    split
    · exact .stop _
    unfold nlattrResult
    split <;> exact lockstep_same rfl hm
  all_goals exact lockstep_same rfl hm

def readsCell (prog : List SockFilter) (pc : Nat) : Option Nat := cellOf BpfS.isLoad prog pc
def writesCell (prog : List SockFilter) (pc : Nat) : Option Nat := cellOf BpfS.isStore prog pc

section Pass
variable {prog : List SockFilter} (acc : Accepted prog) {V : Nat → BitVec 16}
  (hV : ∀ pc f op, prog[pc]? = some f → BpfS.ofCode f.code = some op → Consistent V pc f op)
include acc hV

lemma run_agree (host : Host) (skb : SkBuff) (fuel : Nat) {s t : State} (hs : s.pc < prog.length)
    (h : Agree (fun i => (V s.pc).getLsbD i = true) s t) :
    (run host skb prog fuel s).2 = (run host skb prog fuel t).2 := by
  induction fuel generalizing s t with
  | zero => rfl
  | succ fuel ih =>
    have hf : prog[s.pc]? = some prog[s.pc] := getElem?_eq_getElem hs
    obtain ⟨op,ok⟩ := acc.insn s.pc prog[s.pc] hf
    have con := hV s.pc prog[s.pc] op hf ok.decodes
    have flow := exec_flow host skb ok
    have lock := exec_lockstep host skb ok con.load h
    have hstep := step_eq_exec host skb hf ok.decodes
    have hstep' := step_eq_exec (s := t) host skb (by rw [← h.pc]; exact hf) ok.decodes
    simp only [run,hstep,hstep']
    generalize exec host skb op prog[s.pc] s = r at flow lock
    generalize exec host skb op prog[s.pc] t = r' at lock
    cases lock with
    | ok hag =>
      cases flow with
      | cont hsucc =>
        exact ih (acc.succ_forward hf ok hsucc).2 ⟨hag.pc,hag.a,hag.x,fun i hi => hag.mem i (con.edge _ hsucc i hi)⟩
    | stop e => rfl

/-- Along a run every read finds a cell of the entry set or one written earlier in the run. -/
theorem run_reads (host : Host) (skb : SkBuff) (fuel : Nat) {s : State} (hs : s.pc < prog.length)
    {pre post : List Nat} {pc k : Nat} (hrun : (run host skb prog fuel s).1 = pre++pc::post)
    (hread : readsCell prog pc = some k) : (V s.pc).getLsbD k = true ∨ ∃ pc' ∈ pre, writesCell prog pc' = some k := by
  induction fuel generalizing s pre with
  | zero => simp [run] at hrun
  | succ fuel ih =>
    have hf : prog[s.pc]? = some prog[s.pc] := getElem?_eq_getElem hs
    obtain ⟨op,ok⟩ := acc.insn s.pc prog[s.pc] hf
    have con := hV s.pc prog[s.pc] op hf ok.decodes
    have flow := exec_flow host skb ok
    simp only [run,step_eq_exec host skb hf ok.decodes] at hrun
    generalize exec host skb op prog[s.pc] s = r at flow hrun
    have hhere : pc = s.pc → (V s.pc).getLsbD k = true := by
      intro he
      rw [he,readsCell,cellOf_eq hf ok.decodes,Option.ite_none_right_eq_some,Option.some.injEq] at hread
      exact hread.2 ▸ con.load hread.1
    cases flow with
    | @cont s' hsucc =>
      rcases pre with _ | ⟨q,pre⟩
      · simp only [nil_append,List.cons.injEq] at hrun
        exact .inl (hhere hrun.1.symm)
      simp only [cons_append,List.cons.injEq] at hrun
      rcases ih (acc.succ_forward hf ok hsucc).2 hrun.2 with hv | ⟨pc',hmem,hw⟩
      · rcases con.edge _ hsucc k hv with hin | ⟨hst,rfl⟩
        · exact .inl hin
        refine .inr ⟨q,mem_cons_self,?_⟩
        rw [← hrun.1,writesCell,cellOf_eq hf ok.decodes,if_pos hst]
      · exact .inr ⟨pc',mem_cons_of_mem q hmem,hw⟩
    | ret v =>
      cases pre with
      | nil =>
        simp only [nil_append,List.cons.injEq] at hrun
        exact .inl (hhere hrun.1.symm)
      | cons q pre => simp at hrun

end Pass

/-- The result of an accepted filter on a packet does not depend on the initial
contents of the scratch array, and no run reads a cell it has not written. -/
theorem skRunFilter_scratch {kmalloc : Bool} {filter prog : List SockFilter}
    (h : skChkFilter kmalloc filter = .ok prog) (host : Host) (skb : SkBuff) :
    (∃ v, ∀ mem fuel, filter.length ≤ fuel → skRunFilter host skb prog fuel mem = some v) ∧
      ∀ mem fuel pre pc post k, (run host skb prog fuel (start mem)).1 = pre++pc::post →
        readsCell prog pc = some k → ∃ pc' ∈ pre, writesCell prog pc' = some k := by
  obtain ⟨hlen,acc⟩ := skChkFilter_ok h
  obtain ⟨V,hempty,hV⟩ := acc.sets
  have hpos : ∀ mem, (start mem).pc < prog.length := fun _ => acc.pos
  constructor
  · obtain ⟨pcs,v,_,hrun⟩ := run_safe acc host skb filter.length (hpos fun _ => 0) (by simp only [start]; omega)
    refine ⟨v,fun mem fuel hfuel => ?_⟩
    have hagree : Agree (fun i => (V (start mem).pc).getLsbD i = true) (start mem) (start fun _ => 0) :=
      ⟨rfl,rfl,rfl,fun i hi => by rw [show (start mem).pc = 0 from rfl,hempty] at hi; cases hi⟩
    rw [skRunFilter,run_agree acc hV host skb fuel (hpos mem) hagree,hrun fuel hfuel]
    rfl
  intro mem fuel pre pc post k hsplit hread
  rcases run_reads acc hV host skb fuel (hpos mem) hsplit hread with hv | hw
  · rw [show (start mem).pc = 0 from rfl,hempty] at hv
    cases hv
  · exact hw

theorem sampleFilter_scratch : skChkFilter true sampleFilter = .ok sampleProg ∧
    (∃ v, ∀ mem fuel, sampleFilter.length ≤ fuel →
        skRunFilter sampleHost samplePacket sampleProg fuel mem = some v) ∧ ∀ mem fuel pre pc post k,
        (run sampleHost samplePacket sampleProg fuel (start mem)).1 = pre++pc::post →
        readsCell sampleProg pc = some k → ∃ pc' ∈ pre, writesCell sampleProg pc' = some k :=
  have accepted : skChkFilter true sampleFilter = .ok sampleProg := by decide
  ⟨accepted,skRunFilter_scratch accepted sampleHost samplePacket⟩

end LinuxToradex.SocketFilter

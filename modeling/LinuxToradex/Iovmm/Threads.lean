import LinuxToradex.Iovmm.Areas

/-! What a thread does under `block_lock` is one step. -/
namespace LinuxToradex.Iovmm
open List Function SearchTree Tiling Option

/-- Where a thread is: outside, with the lock released in `iovmm_split_free_block`, or in
`iovmm_free_block` after its first put. -/
inductive Pc where
  | idle
  | window (r : Request) (ph : Phase)
  | freeing (b : BlockId)
  deriving DecidableEq

structure World (n : Nat) where
  domain : Domain
  pc : Fin n → Pc
  live : List BlockId

inductive Action (n : Nat) where
  | allocBlock (t : Fin n) (size align : Nat) (rot : Rotations)
  | allocateVm (t : Fin n) (size align iovmStart : Nat) (rot : Rotations)
  | split (t : Fin n) (ok : Bool) (rot : Rotations)
  | put (t : Fin n) (b : BlockId)
  | free (t : Fin n) (rot : Rotations)

namespace World

variable {n : Nat}
variable {r : Request} {ph : Phase}

def leave (w : World n) (t : Fin n) (r : Request) (d : Domain) : Phase → World n
  | .done best => {domain := d, pc := update w.pc t .idle, live := best.toList++w.live}
  | ph => {w with domain := d, pc := update w.pc t (.window r ph)}

def enter (w : World n) (t : Fin n) (r : Request) (rot : Rotations) : Option (World n) :=
  if w.pc t ≠ .idle ∨ w.domain.splitting = true then some w
  else do
    let (d,ph) ← w.domain.search r rot
    some (w.leave t r d ph)

/-- One step of a thread; `none` if it uses a freed block, unlinks a node that is not linked or
runs into a `BUG_ON`. A step that is not the thread's next one does nothing. -/
def step (w : World n) : Action n → Option (World n)
  | .allocBlock t size align rot =>
    if size = 0 then none
    else w.enter t (.floating (Align.roundUp size w.domain.pageSize)
      (Align.roundUp align w.domain.pageSize)) rot
  | .allocateVm t size align iovmStart rot =>
    if iovmStart%align ≠ 0 then none
    else if size = 0 then none
    else w.enter t (.fixed (Align.roundUp size w.domain.pageSize) iovmStart) rot
  | .split t ok rot =>
    match w.pc t with
    | .window r ph => do
      let (d,ph) ← w.domain.resume r ph ok rot
      some (w.leave t r d ph)
    | _ => some w
  | .put t b =>
    if w.pc t = .idle ∧ b ∈ w.live then do
      let d ← w.domain.blockPut b
      some {domain := d, pc := update w.pc t (.freeing b), live := w.live.filter (· ≠ b)}
    else some w
  | .free t rot =>
    match w.pc t with
    | .freeing b => do
      let d ← w.domain.freeLocked b rot
      some {w with domain := d, pc := update w.pc t .idle}
    | _ => some w

def run (w : World n) : List (Action n) → Option (World n)
  | [] => some w
  | a::as => (w.step a).bind fun w' => w'.run as

def init (n pgsizeBits start stop : Nat) : World n :=
  {domain := domainInit pgsizeBits start stop, pc := fun _ => .idle, live := []}

def Held (w : World n) (i : BlockId) : Prop := i ∈ w.live ∨ ∃ t, w.pc t = .freeing i

def Disjoint (w : World n) : Prop :=
  ∀ i j, w.Held i → w.Held j → i ≠ j →
    (w.domain.block i).areaStart+(w.domain.block i).areaLength ≤ (w.domain.block j).areaStart ∨
    (w.domain.block j).areaStart+(w.domain.block j).areaLength ≤ (w.domain.block i).areaStart

/-- What is asked for fits a word, and no block is freed right in front of a free block that a
thread is splitting. -/
def Met (w : World n) : Action n → Prop
  | .allocBlock _ size align _ => size ≠ 0 ∧
      w.domain.NoWrap (.floating (Align.roundUp size w.domain.pageSize)
        (Align.roundUp align w.domain.pageSize))
  | .allocateVm _ size align iovmStart _ => iovmStart%align = 0 ∧ size ≠ 0 ∧
      w.domain.NoWrap (.fixed (Align.roundUp size w.domain.pageSize) iovmStart)
  | .free t _ => ∀ t', match w.pc t, w.pc t' with
      | .freeing b, .window _ (.front c _) => Neighbours.nextIn w.domain.all b ≠ some c
      | _, _ => True
  | _ => True

def AllMet (w : World n) : List (Action n) → Prop
  | [] => True
  | a::as => w.Met a ∧ ∀ w' ∈ w.step a, w'.AllMet as

def Dropped (w : World n) (i : BlockId) : Prop := ∃ t, w.pc t = .freeing i

structure Inv (w : World n) (lo hi : Nat) : Prop where
  domain : w.domain.Inv lo hi w.Dropped
  window : ∀ t r ph, w.pc t = .window r ph → w.domain.PhaseOk r ph ∧ 0 < r.size ∧
    ph.splitting = true ∧ w.domain.splitting = true
  alone : ∀ t t' r ph r' ph', w.pc t = .window r ph → w.pc t' = .window r' ph' → t = t'
  taken : ∀ t r ph i, w.pc t = .window r ph → ph.taken = some i → i ∉ w.live ∧ ¬w.Dropped i
  live : ∀ i ∈ w.live, w.domain.Used i ∧ ¬w.Dropped i
  nodup : w.live.Nodup
  once : ∀ t t' i, w.pc t = .freeing i → w.pc t' = .freeing i → t = t'
  idle : (∀ t r ph, w.pc t ≠ .window r ph) → w.domain.splitting = false

variable {w w' : World n} {lo hi : Nat}

lemma Inv.used_of_held (h : w.Inv lo hi) {i : BlockId} (hi : w.Held i) : w.domain.Used i := by
  rcases hi with hi | hi
  · exact (h.live i hi).1
  obtain ⟨hall,hused,-⟩ := h.domain.droppedRef i hi
  exact ⟨hall,hused⟩

lemma Inv.disjoint (h : w.Inv lo hi) : w.Disjoint := by
  intro i j hi hj hne
  obtain ⟨halli,husedi⟩ := h.used_of_held hi
  obtain ⟨hallj,husedj⟩ := h.used_of_held hj
  have hsep := h.domain.tiles.disjoint halli hallj hne
  have hareai := h.domain.area i halli husedi
  have hareaj := h.domain.area j hallj husedj
  omega

section Move

variable {t : Fin n} {p : Pc}

lemma dropped_move (hpc : w'.pc = update w.pc t p) (hold : ∀ b, w.pc t ≠ .freeing b)
    (hnew : ∀ b, p ≠ .freeing b) : w'.Dropped = w.Dropped := by
  funext i
  refine propext ⟨?_,?_⟩
  · rintro ⟨t',ht'⟩
    rw [hpc] at ht'
    by_cases he : t' = t
    · rw [he,update_self] at ht'
      exact absurd ht' (hnew i)
    rw [update_of_ne he] at ht'
    exact ⟨t',ht'⟩
  rintro ⟨t',ht'⟩
  have he : t' ≠ t := by
    rintro rfl
    exact hold i ht'
  refine ⟨t',?_⟩
  rw [hpc,update_of_ne he]
  exact ht'

lemma dropped_begin {b : BlockId} (hpc : w'.pc = update w.pc t (.freeing b))
    (hidle : w.pc t = .idle) : w'.Dropped = fun i => w.Dropped i ∨ i = b := by
  funext i
  refine propext ⟨?_,?_⟩
  · rintro ⟨t',ht'⟩
    rw [hpc] at ht'
    by_cases he : t' = t
    · rw [he,update_self] at ht'
      exact .inr (Pc.freeing.inj ht').symm
    rw [update_of_ne he] at ht'
    exact .inl ⟨t',ht'⟩
  rintro (⟨t',ht'⟩ | rfl)
  · have he : t' ≠ t := by
      rintro rfl
      exact nomatch hidle.symm.trans ht'
    refine ⟨t',?_⟩
    rw [hpc,update_of_ne he]
    exact ht'
  refine ⟨t,?_⟩
  rw [hpc,update_self]

lemma Inv.dropped_end (h : w.Inv lo hi) {b : BlockId} (hpc : w'.pc = update w.pc t .idle)
    (ht : w.pc t = .freeing b) : w'.Dropped = fun i => w.Dropped i ∧ i ≠ b := by
  funext i
  refine propext ⟨?_,?_⟩
  · rintro ⟨t',ht'⟩
    rw [hpc] at ht'
    have he : t' ≠ t := by
      rintro rfl
      rw [update_self] at ht'
      cases ht'
    rw [update_of_ne he] at ht'
    refine ⟨⟨t',ht'⟩,?_⟩
    rintro rfl
    exact he (h.once t' t i ht' ht)
  rintro ⟨⟨t',ht'⟩,hib⟩
  have he : t' ≠ t := by
    rintro rfl
    exact hib (Pc.freeing.inj (ht'.symm.trans ht))
  refine ⟨t',?_⟩
  rw [hpc,update_of_ne he]
  exact ht'

lemma Inv.once_move (h : w.Inv lo hi) (hnew : ∀ b, p ≠ .freeing b) (t1 t2 : Fin n) (i : BlockId)
    (h1 : update w.pc t p t1 = .freeing i) (h2 : update w.pc t p t2 = .freeing i) : t1 = t2 := by
  have hback : ∀ t', update w.pc t p t' = .freeing i → w.pc t' = .freeing i := by
    exact (forall_update_iff _ fun t' q => q = Pc.freeing i → w.pc t' = .freeing i).mpr
      ⟨fun ht => absurd ht (hnew i),fun _ _ ht => ht⟩
  exact h.once t1 t2 i (hback t1 h1) (hback t2 h2)

lemma window_move (hother : ∀ t' r ph, t' ≠ t → w.pc t' ≠ .window r ph) {t' : Fin n}
    (ht' : update w.pc t p t' = .window r ph) : t' = t ∧ p = .window r ph := by
  by_cases he : t' = t
  · rw [he,update_self] at ht'
    exact ⟨he,ht'⟩
  rw [update_of_ne he] at ht'
  exact absurd ht' (hother t' r ph he)

end Move

section Leave

variable {t : Fin n} {old new : Phase} {d : Domain}

lemma Inv.after_step (h : w.Inv lo hi) (hstep : Domain.Step w.domain d old new)
    (hold : ∀ i, old.taken = some i → i ∉ w.live ∧ ¬w.Dropped i) : (∀ i ∈ w.live, d.Used i) ∧
      ∀ i, new.taken = some i → d.Used i ∧ i ∉ w.live ∧ ¬w.Dropped i := by
  refine ⟨fun i hi => (hstep.used i).mpr (.inl (h.live i hi).1),fun i hi => ⟨?_,?_,?_⟩⟩
  · exact (hstep.used i).mpr (.inr hi)
  · intro hl
    exact (hstep.same i (h.live i hl).1 fun ht => (hold i ht).1 hl).2 hi
  intro hdrop
  obtain ⟨hall,hused,-⟩ := h.domain.droppedRef i hdrop
  exact (hstep.same i ⟨hall,hused⟩ fun ht => (hold i ht).2 hdrop).2 hi

section
variable (h : w.Inv lo hi) (hnf : ∀ b, w.pc t ≠ .freeing b)
    (hother : ∀ t' r ph, t' ≠ t → w.pc t' ≠ .window r ph)
include h hnf hother

lemma Inv.leave_window (hpos : 0 < r.size) (hd : d.Inv lo hi w.Dropped) (hok : d.PhaseOk r new)
    (hstep : Domain.Step w.domain d old new)
    (hold : ∀ i, old.taken = some i → i ∉ w.live ∧ ¬w.Dropped i) (hnew : new.splitting = true) :
    Inv {w with domain := d, pc := update w.pc t (.window r new)} lo hi := by
  obtain ⟨hlive,htaken⟩ := h.after_step hstep hold
  have hp : ∀ b, Pc.window r new ≠ .freeing b := fun b he => by cases he
  have hdrop : Dropped {w with domain := d, pc := update w.pc t (.window r new)} =
      w.Dropped := dropped_move rfl hnf hp
  refine ⟨?_,?_,?_,?_,?_,h.nodup,h.once_move hp,?_⟩
  · rw [hdrop]
    exact hd
  · intro t' r' ph' ht'
    obtain ⟨-,he⟩ := window_move hother ht'
    cases he
    exact ⟨hok,hpos,hnew,hstep.splitting.trans hnew⟩
  · intro t1 t2 r1 ph1 r2 ph2 h1 h2
    exact (window_move hother h1).1.trans (window_move hother h2).1.symm
  · intro t' r' ph' i ht' hi
    obtain ⟨-,he⟩ := window_move hother ht'
    cases he
    rw [hdrop]
    exact (htaken i hi).2
  · intro i hi
    rw [hdrop]
    exact ⟨hlive i hi,(h.live i hi).2⟩
  intro hno
  exact absurd (update_self t _ w.pc) (hno t r new)

lemma Inv.leave_done {best : Option BlockId} (hd : d.Inv lo hi w.Dropped)
    (hstep : Domain.Step w.domain d old (.done best)) (hold : ∀ i, old.taken = some i → i ∉ w.live ∧ ¬w.Dropped i) :
    Inv ⟨d,update w.pc t .idle,best.toList++w.live⟩ lo hi := by
  obtain ⟨hlive,htaken⟩ := h.after_step hstep hold
  have hp : ∀ b, Pc.idle ≠ .freeing b := fun b he => by cases he
  have hdrop : Dropped ⟨d,update w.pc t .idle,best.toList++w.live⟩ = w.Dropped :=
    dropped_move rfl hnf hp
  have hno : ∀ t' r ph, update w.pc t .idle t' ≠ .window r ph := by
    intro t' r ph ht'
    exact nomatch (window_move hother ht').2
  refine ⟨?_,fun t' r ph ht' => absurd ht' (hno t' r ph), fun t' _ r ph _ _ ht' => absurd ht' (hno t' r ph),
    fun t' r ph _ ht' => absurd ht' (hno t' r ph),?_,?_,h.once_move hp,
    fun _ => hstep.splitting⟩
  · rw [hdrop]
    exact hd
  · intro i hi
    rw [hdrop]
    rcases mem_append.mp hi with hi | hi
    · have hbest : best = some i := mem_toList.mp hi
      exact ⟨(htaken i hbest).1,(htaken i hbest).2.2⟩
    · exact ⟨hlive i hi,(h.live i hi).2⟩
  cases best with
  | none => exact h.nodup
  | some b => exact nodup_cons.mpr ⟨(htaken b rfl).2.1,h.nodup⟩

lemma Inv.leave (hpos : 0 < r.size) (hd : d.Inv lo hi w.Dropped) (hok : d.PhaseOk r new)
    (hstep : Domain.Step w.domain d old new)
    (hold : ∀ i, old.taken = some i → i ∉ w.live ∧ ¬w.Dropped i) : (w.leave t r d new).Inv lo hi := by
  cases new with
  | front b cut | rear b cut => exact h.leave_window hnf hother hpos hd hok hstep hold rfl
  | done best => exact h.leave_done hnf hother hd hstep hold

end

end Leave

lemma Inv.enter (h : w.Inv lo hi) (hwrap : w.domain.NoWrap r) (t : Fin n) (rot : Rotations) :
    ∃ w', w.enter t r rot = some w' ∧ w'.Inv lo hi := by
  unfold World.enter
  split
  · next hwait => exact ⟨w,rfl,h⟩
  next hwait =>
  rw [not_or,not_not,Bool.not_eq_true] at hwait
  obtain ⟨hidle,hsplit⟩ := hwait
  obtain ⟨d,ph,hsearch,hd,hok,hstep⟩ := h.domain.search hwrap hsplit rot
  refine ⟨_,some_bind hsearch rfl,h.leave ?_ ?_ hwrap.pos hd hok hstep ?_⟩
  · intro b hb
    exact nomatch hidle.symm.trans hb
  · intro t' r' ph' _ ht
    exact nomatch hsplit.symm.trans (h.window t' r' ph' ht).2.2.2
  intro i hi
  cases hi

lemma Inv.split (h : w.Inv lo hi) (t : Fin n) (ok : Bool) (rot : Rotations) :
    ∃ w', w.step (.split t ok rot) = some w' ∧ w'.Inv lo hi := by
  simp only [World.step]
  cases hpc : w.pc t with
  | idle | freeing b => exact ⟨w,rfl,h⟩
  | window r ph =>
    obtain ⟨hok,hpos,hph,hsplit⟩ := h.window t r ph hpc
    obtain ⟨d,ph',hres,hd,hok',hstep,-⟩ :=
      h.domain.resume hpos hok (hsplit.trans hph.symm) ok rot
    refine ⟨_,some_bind hres rfl,h.leave ?_ ?_ hpos hd hok' hstep ?_⟩
    · intro b hb
      exact nomatch hpc.symm.trans hb
    · intro t' r' ph'' hne ht'
      exact hne (h.alone t' t r' ph'' r ph ht' hpc)
    intro i hi
    exact h.taken t r ph i hpc hi

/-- What the next part of an allocation relies on survives if a free block it is splitting only
grows and a block it has taken stays. -/
theorem phaseOk_stable {d d' : Domain} (hok : d.PhaseOk r ph)
    (hfront : ∀ b cut, ph = .front b cut → b ∈ d'.frees ∧ (d'.block b).start = (d.block b).start ∧
      (d.block b).length ≤ (d'.block b).length)
    (htaken : ∀ i, ph.taken = some i → d.Used i → d'.Used i ∧ d'.block i = d.block i) : d'.PhaseOk r ph := by
  match ph with
  | .front b cut =>
    obtain ⟨-,hcut,hfit,hmeets⟩ := hok
    obtain ⟨hb,hstart,hlen⟩ := hfront b cut rfl
    refine ⟨hb,hcut,hfit.trans hlen,?_⟩
    rw [hstart]
    exact hmeets
  | .rear b cut =>
    obtain ⟨hused,hrest⟩ := hok
    obtain ⟨hused',hsame⟩ := htaken b rfl hused
    refine ⟨hused',?_⟩
    rw [hsame]
    exact hrest
  | .done (some b) =>
    obtain ⟨hused,hrest⟩ := hok
    obtain ⟨hused',hsame⟩ := htaken b rfl hused
    refine ⟨hused',?_⟩
    rw [hsame]
    exact hrest
  | .done none => trivial

lemma window_of_move {t : Fin n} {p : Pc} (hp : ∀ r ph, p ≠ .window r ph) {t' : Fin n}
    (ht' : update w.pc t p t' = .window r ph) : w.pc t' = .window r ph := by
  by_cases he : t' = t
  · rw [he,update_self] at ht'
    exact absurd ht' (hp r ph)
  rw [update_of_ne he] at ht'
  exact ht'

lemma Inv.put (h : w.Inv lo hi) (t : Fin n) (b : BlockId) : ∃ w', w.step (.put t b) = some w' ∧ w'.Inv lo hi := by
  simp only [World.step]
  by_cases hgo : w.pc t = .idle ∧ b ∈ w.live
  swap
  · rw [if_neg hgo]
    exact ⟨w,rfl,h⟩
  rw [if_pos hgo]
  obtain ⟨hidle,hb⟩ := hgo
  obtain ⟨⟨hall,hused⟩,hnd⟩ := h.live b hb
  obtain ⟨d,hput,hd,hinv⟩ := h.domain.blockPut hall hused hnd
  have hsame : ∀ i ≠ b, d.block i = w.domain.block i := by
    intro i hi
    rw [hd]
    exact update_of_ne hi ..
  have hself : d.block b = {w.domain.block b with ref := 1} := by
    rw [hd]
    exact update_self ..
  have husedAll : ∀ i, w.domain.Used i → d.Used i := by
    rintro i ⟨hi,hu⟩
    refine ⟨by rw [hd]; exact hi,?_⟩
    by_cases hib : i = b
    · rw [hib,hself]
      exact hused
    rw [hsame i hib]
    exact hu
  refine ⟨_,some_bind hput rfl,?_⟩
  have hp : ∀ r ph, Pc.freeing b ≠ .window r ph := fun r ph he => by cases he
  have hdrop : Dropped ⟨d,update w.pc t (.freeing b),w.live.filter (· ≠ b)⟩ =
      fun i => w.Dropped i ∨ i = b := dropped_begin rfl hidle
  have hback : ∀ t', t' ≠ t → ∀ i, update w.pc t (.freeing b) t' = .freeing i → w.pc t' = .freeing i := by
    intro t' he i ht'
    rw [update_of_ne he] at ht'
    exact ht'
  refine ⟨?_,?_,?_,?_,?_,h.nodup.filter _,?_,?_⟩
  · rw [hdrop]
    exact hinv
  · intro t' r ph ht'
    have ht := window_of_move hp ht'
    obtain ⟨hok,hpos,hph,hsplit⟩ := h.window t' r ph ht
    refine ⟨phaseOk_stable hok ?_ ?_,hpos,hph,by rw [hd]; exact hsplit⟩
    · rintro c cut rfl
      obtain ⟨hc,-⟩ := hok
      have hcb : c ≠ b := by
        rintro rfl
        exact nomatch hused.symm.trans ((h.domain.free_iff c).mp hc).2
      rw [hsame c hcb]
      exact ⟨by rw [hd]; exact hc,rfl,le_rfl⟩
    intro i hi hui
    have hib : i ≠ b := by
      rintro rfl
      exact (h.taken t' r ph i ht hi).1 hb
    exact ⟨husedAll i hui,hsame i hib⟩
  · intro t1 t2 r1 ph1 r2 ph2 h1 h2
    exact h.alone t1 t2 r1 ph1 r2 ph2 (window_of_move hp h1) (window_of_move hp h2)
  · intro t' r ph i ht' hi
    obtain ⟨hl,hd'⟩ := h.taken t' r ph i (window_of_move hp ht') hi
    refine ⟨fun hin => hl (mem_filter.mp hin).1,fun hdr => ?_⟩
    rw [hdrop] at hdr
    rcases hdr with hdr | rfl
    · exact hd' hdr
    · exact hl hb
  · intro i hi
    obtain ⟨hi,hib⟩ := mem_filter.mp hi
    rw [decide_eq_true_iff] at hib
    refine ⟨husedAll i (h.live i hi).1,fun hdr => ?_⟩
    rw [hdrop] at hdr
    rcases hdr with hdr | he
    · exact (h.live i hi).2 hdr
    · exact hib he
  · intro t1 t2 i h1 h2
    -- only the thread that begins this free can be freeing this block
    have hnew : ∀ t', update w.pc t (.freeing b) t' = .freeing b → t' = t := by
      intro t' ht'
      by_contra he
      exact hnd ⟨t',hback t' he b ht'⟩
    by_cases hib : i = b
    · subst hib
      exact (hnew t1 h1).trans (hnew t2 h2).symm
    have hne : ∀ t', update w.pc t (.freeing b) t' = .freeing i → t' ≠ t := by
      rintro t' ht' rfl
      rw [update_self] at ht'
      exact hib (Pc.freeing.inj ht').symm
    exact h.once t1 t2 i (hback t1 (hne t1 h1) i h1) (hback t2 (hne t2 h2) i h2)
  intro hno
  rw [hd]
  refine h.idle fun t' r ph ht' => hno t' r ph ?_
  have he : t' ≠ t := by
    rintro rfl
    exact nomatch hidle.symm.trans ht'
  change update w.pc t (.freeing b) t' = _
  rw [update_of_ne he]
  exact ht'

lemma Inv.free (h : w.Inv lo hi) (t : Fin n) (rot : Rotations) (hmet : w.Met (.free t rot)) :
    ∃ w', w.step (.free t rot) = some w' ∧ w'.Inv lo hi := by
  simp only [World.step]
  cases hpc : w.pc t with
  | idle | window r ph => exact ⟨w,rfl,h⟩
  | freeing b =>
    have hdropb : w.Dropped b := ⟨t,hpc⟩
    obtain ⟨d,into,gone,m1,m2,hfree,hf⟩ := h.domain.freeLocked hdropb rot
    have hinv := hf.inv h.domain hdropb
    have hused : ∀ i, w.domain.Used i → i ≠ b → d.Used i ∧ d.block i = w.domain.block i := by
      rintro i ⟨hall,hu⟩ hib
      have hnotin := hf.used hu hib
      have hsame := hf.same i hnotin
      refine ⟨⟨(hf.mem_all h.domain i).mpr ⟨hall,fun hg => ?_⟩,?_⟩,hsame⟩
      · exact hnotin (mem_cons_of_mem _ hg)
      rw [hsame]
      exact hu
    refine ⟨_,some_bind hfree rfl,?_⟩
    have hp : ∀ r ph, Pc.idle ≠ .window r ph := fun r ph he => by cases he
    have hpf : ∀ i, Pc.idle ≠ .freeing i := fun i he => by cases he
    have hdrop : Dropped {w with domain := d, pc := update w.pc t .idle} =
        fun i => w.Dropped i ∧ i ≠ b := h.dropped_end rfl hpc
    refine ⟨?_,?_,?_,?_,?_,h.nodup,h.once_move hpf,?_⟩
    · rw [hdrop]
      exact hinv
    · intro t' r ph ht'
      have ht := window_of_move hp ht'
      obtain ⟨hok,hpos,hph,hsplit⟩ := h.window t' r ph ht
      refine ⟨phaseOk_stable hok ?_ ?_,hpos,hph,hf.splitting.trans hsplit⟩
      · rintro c cut rfl
        have hsucc : Neighbours.nextIn w.domain.all b ≠ some c := by
          have hm := hmet t'
          rw [hpc,ht] at hm
          exact hm
        obtain ⟨hall,hcfree,hstart,hlen⟩ :=
          hf.free_stays h.domain hdropb hok.1 hsucc
        exact ⟨(hinv.free_iff c).mpr ⟨hall,hcfree⟩,hstart,hlen⟩
      intro i hi hui
      refine hused i hui ?_
      rintro rfl
      exact (h.taken t' r ph i ht hi).2 hdropb
    · intro t1 t2 r1 ph1 r2 ph2 h1 h2
      exact h.alone t1 t2 r1 ph1 r2 ph2 (window_of_move hp h1) (window_of_move hp h2)
    · intro t' r ph i ht' hi
      obtain ⟨hl,hd'⟩ := h.taken t' r ph i (window_of_move hp ht') hi
      rw [hdrop]
      exact ⟨hl,fun hdr => hd' hdr.1⟩
    · intro i hi
      obtain ⟨hui,hnd⟩ := h.live i hi
      rw [hdrop]
      refine ⟨(hused i hui ?_).1,fun hdr => hnd hdr.1⟩
      rintro rfl
      exact hnd hdropb
    intro hno
    refine hf.splitting.trans (h.idle fun t' r ph ht' => hno t' r ph ?_)
    have he : t' ≠ t := by
      rintro rfl
      exact nomatch hpc.symm.trans ht'
    change update w.pc t .idle t' = _
    rw [update_of_ne he]
    exact ht'

lemma Inv.step (h : w.Inv lo hi) {a : Action n} (hmet : w.Met a) : ∃ w', w.step a = some w' ∧ w'.Inv lo hi := by
  cases a with
  | allocBlock t size align rot =>
    obtain ⟨hsize,hwrap⟩ := hmet
    simp only [World.step,if_neg hsize]
    exact h.enter hwrap t rot
  | allocateVm t size align iovmStart rot =>
    obtain ⟨halign,hsize,hwrap⟩ := hmet
    simp only [World.step,if_neg (not_not.mpr halign),if_neg hsize]
    exact h.enter hwrap t rot
  | split t ok rot => exact h.split t ok rot
  | put t b => exact h.put t b
  | free t rot => exact h.free t rot hmet

lemma Inv.run (h : w.Inv lo hi) {as : List (Action n)} (hmet : w.AllMet as) :
    ∃ w', w.run as = some w' ∧ w'.Inv lo hi := by
  induction as generalizing w with
  | nil => exact ⟨w,rfl,h⟩
  | cons a as ih =>
    obtain ⟨w1,hstep,h1⟩ := h.step hmet.1
    obtain ⟨w2,hrun,h2⟩ := ih h1 (hmet.2 w1 hstep)
    exact ⟨w2,some_bind hstep hrun,h2⟩

lemma init_inv {pgsizeBits start stop : Nat} (h : Areas.DomainOk pgsizeBits start stop) :
    (init n pgsizeBits start stop).Inv (Align.roundUp start (2^pgsizeBits)) (Align.down stop (2^pgsizeBits)) := by
  have hdrop : (init n pgsizeBits start stop).Dropped = fun _ => False := by
    funext i
    refine propext ⟨?_,False.elim⟩
    rintro ⟨t,ht⟩
    cases ht
  refine ⟨?_,fun _ _ _ ht => (nomatch ht),fun _ _ _ _ _ _ ht => (nomatch ht),
    fun _ _ _ _ ht => (nomatch ht),fun _ hi => (nomatch hi),.nil,fun _ _ _ ht => (nomatch ht),
    fun _ => rfl⟩
  rw [hdrop]
  exact (Areas.init_inv h).domain

/-- As long as nothing overflows and no block is freed right in front of one that is being split
in its window, no freed block is used, no node is unlinked twice, and the areas held stay
disjoint. -/
theorem threads_safe {pgsizeBits start stop : Nat} {as : List (Action n)}
    (hdomain : Areas.DomainOk pgsizeBits start stop) (hmet : (init n pgsizeBits start stop).AllMet as) :
    ∃ w, (init n pgsizeBits start stop).run as = some w ∧ w.Disjoint := by
  obtain ⟨w,hrun,h⟩ := (init_inv hdomain).run hmet
  exact ⟨w,hrun,h.disjoint⟩

instance (w : World n) : (a : Action n) → Decidable (w.Met a)
  | .allocBlock _ size align _ => inferInstanceAs (Decidable (size ≠ 0 ∧
      w.domain.NoWrap (.floating (Align.roundUp size w.domain.pageSize)
        (Align.roundUp align w.domain.pageSize))))
  | .allocateVm _ size align iovmStart _ => inferInstanceAs (Decidable
      (iovmStart%align = 0 ∧ size ≠ 0 ∧
        w.domain.NoWrap (.fixed (Align.roundUp size w.domain.pageSize) iovmStart)))
  | .free t _ =>
    have (t' : Fin n) : Decidable (match w.pc t,w.pc t' with
        | .freeing b,.window _ (.front c _) => Neighbours.nextIn w.domain.all b ≠ some c
        | _,_ => True) := by
      split <;> infer_instance
    inferInstanceAs (Decidable (∀ t', match w.pc t,w.pc t' with
      | .freeing b,.window _ (.front c _) => Neighbours.nextIn w.domain.all b ≠ some c
      | _,_ => True))
  | .split .. => inferInstanceAs (Decidable True)
  | .put .. => inferInstanceAs (Decidable True)

instance decidableAllMet : (as : List (Action n)) → (w : World n) → Decidable (w.AllMet as)
  | [], _ => inferInstanceAs (Decidable True)
  | a::as, w =>
    have : DecidablePred fun w' : World n => w'.AllMet as := decidableAllMet as
    inferInstanceAs (Decidable (w.Met a ∧ ∀ w' ∈ w.step a, w'.AllMet as))

local instance neZero_two : NeZero 2 := ⟨two_ne_zero⟩

/-- Two areas are handed out; while the first thread splits the free block behind them, the
second one frees the first area, and then the one that is handed out at a fixed address. -/
def overlapping : List (Action 2) :=
  [.allocBlock 1 4096 4096 fun _ => [],.split 1 true fun _ => [],
    .allocBlock 1 4096 4096 fun _ => [],.split 1 true fun _ => [],
    .allocBlock 0 4096 65536 fun _ => [],.put 1 0,.free 1 fun _ => [],
    .split 0 true fun _ => [],.split 0 true fun _ => [],
    .allocateVm 0 8192 4096 131072 fun _ => [],.split 0 true fun _ => [],
    .split 0 false fun _ => [],.put 1 1,.free 1 fun _ => []]

theorem threads_safe_overlapping : Areas.DomainOk 12 4096 1048576 ∧ (init 2 12 4096 1048576).AllMet overlapping ∧
    ∃ w, (init 2 12 4096 1048576).run overlapping = some w ∧ w.Disjoint := by
  have hdomain : Areas.DomainOk 12 4096 1048576 := by
    unfold Areas.DomainOk
    decide
  have hmet : (init 2 12 4096 1048576).AllMet overlapping := by decide +kernel
  exact ⟨hdomain,hmet,threads_safe hdomain hmet⟩

def race : List (Action 2) :=
  [.allocBlock 1 4096 4096 fun _ => [],.split 1 true fun _ => [],
    .allocBlock 0 4096 65536 fun _ => [],.put 1 0,.free 1 fun _ => []]

/-- The block is freed in the window, and then the first thread splits it. -/
theorem race_uses_freed_block : ∃ w r b cut, (init 2 12 4096 1048576).run race = some w ∧
    w.pc 0 = .window r (.front b cut) ∧ (w.domain.block b).poison = true ∧
    w.step (.split 0 true fun _ => []) = none := by
  have hcheck : (match (init 2 12 4096 1048576).run race with
      | some w => decide (w.pc 0 = .window (.floating 4096 65536) (.front 1 57344) ∧
          (w.domain.block 1).poison = true ∧ (w.step (.split 0 true fun _ => [])).isNone = true)
      | none => false) = true := by decide +kernel
  rcases hrun : (init 2 12 4096 1048576).run race with _ | w
  · rw [hrun] at hcheck
    cases hcheck
  rw [hrun] at hcheck
  obtain ⟨hpc,hpoison,hstep⟩ := of_decide_eq_true hcheck
  exact ⟨w,_,1,_,rfl,hpc,hpoison,isNone_iff_eq_none.mp hstep⟩

end World

end LinuxToradex.Iovmm

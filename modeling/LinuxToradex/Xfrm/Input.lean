import LinuxToradex.Xfrm.Replay

/-! The lock of a state is held for the replay check before the transform and for the advance of the window
after it. Only a packet that was resumed asynchronously is checked a second time before the advance. -/
namespace LinuxToradex.Xfrm

inductive Phase
  | arrived | inTransform | finished
deriving DecidableEq

/-- The replay part of one `xfrm_state`, how far each packet is, and the numbers of the packets that
were handed on. -/
structure Input where
  replay : ReplayEsn
  phase : Nat → Phase
  delivered : List Nat

/-- A locked section of the packet `i`. In the first one, `valid`: the state is valid, has the encapsulation
of the packet and is not expired. In the second one, `authentic`: the transform returned a positive `nexthdr`,
and `async`: it had returned `-EINPROGRESS` before. -/
inductive Section
  | check (i : Nat) (valid : Bool)
  | resume (i : Nat) (authentic async : Bool)
deriving DecidableEq

namespace Input

def init (window : Nat) : Input := ⟨.init window,fun _ => .arrived,[]⟩

def moveTo (s : Input) (i : Nat) (phase : Phase) : Input :=
  {s with phase := Function.update s.phase i phase}

/-- `x->repl->advance`, after which the packet goes to the inner mode without the lock. -/
def accept (s : Input) (i n : Nat) : Input :=
  {s.moveTo i .finished with replay := s.replay.advanceBmp n, delivered := n::s.delivered}

/-- One locked section; `none` where the packet is not at that section. The packet `i` carries the
number `seq i`. -/
def step (seq : Nat → Nat) (s : Input) : Section → Option Input
  | .check i valid =>
    if s.phase i = .arrived then
      if valid ∧ s.replay.checkBmp (seq i) = .accepted then some (s.moveTo i .inTransform)
      else some (s.moveTo i .finished)
    else none
  | .resume i authentic async =>
    if s.phase i = .inTransform then
      if ¬authentic then some (s.moveTo i .finished)
      else if async ∧ s.replay.checkBmp (seq i) ≠ .accepted then some (s.moveTo i .finished)
      else some (s.accept i (seq i))
    else none

/-- The states of the interleavings whose sections are all allowed where they are run. -/
inductive Reaches (window : Nat) (seq : Nat → Nat) (allowed : Input → Section → Prop) : Input → Prop
  | init : Reaches window seq allowed (init window)
  | step {s s' : Input} {a : Section} (h : Reaches window seq allowed s) (ha : allowed s a)
      (hs : s.step seq a = some s') : Reaches window seq allowed s'

/-- An authentic packet that was not resumed asynchronously would pass the check again where it advances the
window. -/
def StillFresh (seq : Nat → Nat) (s : Input) : Section → Prop
  | .check _ _ => True
  | .resume i authentic async => authentic = true → async = false → s.replay.checkBmp (seq i) = .accepted

section
variable {seq : Nat → Nat} {s s' : Input} {a : Section}

/-- What a section does to the window: nothing, or it advances it for a number that is then handed
on. -/
theorem step_cases (h : s.step seq a = some s') (ha : StillFresh seq s a) :
    (s'.replay = s.replay ∧ s'.delivered = s.delivered) ∨
      ∃ i, s.replay.checkBmp (seq i) = .accepted ∧ s'.replay = s.replay.advanceBmp (seq i) ∧
        s'.delivered = seq i::s.delivered := by
  rcases a with ⟨i,valid⟩ | ⟨i,authentic,async⟩
  · simp only [step] at h
    split at h
    · left
      split at h <;> cases h <;> exact ⟨rfl,rfl⟩
    · cases h
  simp only [step] at h
  split at h
  · split at h
    · cases h
      exact .inl ⟨rfl,rfl⟩
    rename_i hauth
    split at h
    · cases h
      exact .inl ⟨rfl,rfl⟩
    rename_i hcheck
    cases h
    refine .inr ⟨i,?_,rfl,rfl⟩
    cases async with
    | false => exact ha (not_not.mp hauth) rfl
    | true =>
      by_contra hnot
      exact hcheck ⟨rfl,hnot⟩
  · cases h

lemma bmpInv_step {window : Nat} (hinv : BmpInv window (s.replay,s.delivered)) (hw : 0 < window)
    (hlt : window < word) (hdvd : window ∣ word) (hseq : ∀ i, seq i < word) (h : s.step seq a = some s')
    (ha : StillFresh seq s a) : BmpInv window (s'.replay,s'.delivered) := by
  rcases step_cases h ha with ⟨hr,hd⟩ | ⟨i,hcheck,hr,hd⟩
  · rw [hr,hd]
    exact hinv
  have hnext := hinv.receive hw hlt hdvd (hseq i)
  rw [receiveBmp,if_pos hcheck] at hnext
  rw [hr,hd]
  exact hnext

lemma Reaches.bmpInv {window : Nat} (hw : 0 < window) (hlt : window < word) (hdvd : window ∣ word)
    (hseq : ∀ i, seq i < word) (h : Reaches window seq (StillFresh seq) s) :
    BmpInv window (s.replay,s.delivered) := by
  induction h with
  | init => exact ⟨rfl,Nat.zero_lt_succ _,RingInv.init window⟩
  | step _ ha hs ih => exact bmpInv_step ih hw hlt hdvd hseq hs ha

end

/-- With a window that divides 2³², where every authentic packet whose transform ended at once would still pass
the check when it advances the window, no number is handed on twice. -/
theorem delivered_once {window : Nat} (hw : 0 < window) (hlt : window < word) (hdvd : window ∣ word)
    (seq : Nat → Nat) (hseq : ∀ i, seq i < word) (s : Input)
    (h : Reaches window seq (StillFresh seq) s) : s.delivered.Nodup :=
  (h.bmpInv hw hlt hdvd hseq).ring.nodup

/-- Two copies of the number 1 and a forged one are checked before any of them advances the window; the second
one is resumed asynchronously. -/
theorem delivered_once_async : ∃ s, Reaches 64 (fun _ => 1) (StillFresh fun _ => 1) s ∧
    s.phase 1 = .finished ∧ s.phase 2 = .finished ∧ s.delivered = [1] ∧ s.delivered.Nodup := by
  have h1 : Reaches 64 (fun _ => 1) (StillFresh fun _ => 1) _ :=
    Reaches.init.step (a := .check 0 true) trivial rfl
  have h2 := h1.step (a := .check 1 true) trivial rfl
  have h3 := h2.step (a := .check 2 true) trivial rfl
  have h4 := h3.step (a := .resume 0 true false) (fun _ _ => rfl) rfl
  have h5 := h4.step (a := .resume 1 true true) (fun _ h => by cases h) rfl
  have h6 := h5.step (a := .resume 2 false false) (fun h => by cases h) rfl
  exact ⟨_,h6,rfl,rfl,rfl,delivered_once (by decide) (by decide) (by decide) _ (fun _ => by decide) _ h6⟩

/-- The same two copies where both transforms end at once: the second advance is made although the
number was accepted in between. -/
theorem copies_delivered_twice : ∃ s, Reaches 64 (fun _ => 1) (fun _ _ => True) s ∧ s.delivered = [1,1] ∧
    ¬s.delivered.Nodup := by
  have h1 : Reaches 64 (fun _ => 1) (fun _ _ => True) _ :=
    Reaches.init.step (a := .check 0 true) trivial rfl
  have h2 := h1.step (a := .check 1 true) trivial rfl
  have h3 := h2.step (a := .resume 0 true false) trivial rfl
  have h4 := h3.step (a := .resume 1 true false) trivial rfl
  refine ⟨_,h4,rfl,?_⟩
  exact of_decide_eq_false rfl

end Input

end LinuxToradex.Xfrm

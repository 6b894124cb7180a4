import LinuxToradex.IpTables.Marking

/-! What an accepted table is. The first pass assigns hook entries and underflows only to entries. -/
namespace LinuxToradex.IpTables
open List Function ByteMem Nat Bool

variable {repl : IptReplace} {a iter i fuel : Nat} {info info' info1 : XtTableInfo}
    {m1 m' entry0 : Mem} {reg : XtRegistry} {ext : XtExt}
variable {m m0 : Mem} {e : Nat}

section Ahead
variable (h : ∀ x, e ≤ x → m x = m0 x)
include h

lemma nextOffset_ahead : nextOffset m e = nextOffset m0 e :=
  u16_congr fun i _ => h _ (by omega)

lemma getTarget_ahead : getTarget m e = getTarget m0 e := by
  unfold getTarget targetOffset
  rw [u16_congr fun i _ => h (e+88+i) (by omega)]

lemma checkUnderflow_ahead : checkUnderflow m e = checkUnderflow m0 e := by
  have hge : e ≤ getTarget m0 e := Nat.le_add_right ..
  have huncond : unconditional m e = unconditional m0 e := by
    rw [Bool.eq_iff_iff,unconditional_iff,unconditional_iff]
    refine forall₂_congr fun i _ => ?_
    rw [h _ (by omega)]
  have hstd : isStandard m (getTarget m0 e) = isStandard m0 (getTarget m0 e) := by
    rw [Bool.eq_iff_iff,isStandard_iff,isStandard_iff,h _ (by omega)]
  have hverdict : verdict m (getTarget m0 e) = verdict m0 (getTarget m0 e) :=
    s32_congr fun i _ => h _ (by omega)
  rw [checkUnderflow,checkUnderflow,getTarget_ahead h,huncond,hstd,hverdict]

end Ahead

/-- From one table info to another, hook entries and underflows are only assigned to rule
`e`, where user space wants them, and underflows only if it is fit for one. -/
def Assigned (repl : IptReplace) (m : Mem) (e : Nat) (info info' : XtTableInfo) : Prop :=
  info'.size = info.size ∧ ∀ h,
    (info'.hookEntry h = info.hookEntry h ∨ info'.hookEntry h = e ∧ repl.hookEntry h = e) ∧
    (info'.underflow h = info.underflow h ∨
      (info'.underflow h = e ∧ repl.underflow h = e) ∧ checkUnderflow m e = true)

lemma Assigned.refl (repl : IptReplace) (m : Mem) (e : Nat) (info : XtTableInfo) : Assigned repl m e info info :=
  ⟨rfl,fun _ => ⟨.inl rfl,.inl rfl⟩⟩

lemma Assigned.trans {a b c : XtTableInfo} (h : Assigned repl m e a b)
    (h' : Assigned repl m e b c) : Assigned repl m e a c := by
  refine ⟨h'.1.trans h.1,fun k => ⟨?_,?_⟩⟩
  · rcases (h'.2 k).1 with hk | hk
    · rw [hk]
      exact (h.2 k).1
    · exact .inr hk
  rcases (h'.2 k).2 with hk | hk
  · rw [hk]
    exact (h.2 k).2
  · exact .inr hk

lemma checkHook_assigned {h : Fin 5} (hok : checkHook repl m e info h = .ok info') :
    Assigned repl m e info info' := by
  have hentry : Assigned repl m e info (if e = repl.hookEntry h then
      {info with hookEntry := Function.update info.hookEntry h (repl.hookEntry h)} else info) := by
    split
    · rename_i he
      refine ⟨rfl,fun k => ⟨?_,.inl rfl⟩⟩
      by_cases hk : k = h
      · subst hk
        exact .inr ⟨(update_self ..).trans he.symm,he.symm⟩
      · exact .inl (update_of_ne hk _ _)
    · exact .refl ..
  unfold checkHook at hok
  split at hok
  · cases hok
    exact .refl ..
  dsimp only at hok
  split at hok
  · rename_i he
    split at hok
    · cases hok
    rename_i hunder
    cases hok
    rw [not_eq_true,not_eq_false'] at hunder
    refine hentry.trans ⟨rfl,fun k => ⟨.inl rfl,?_⟩⟩
    by_cases hk : k = h
    · subst hk
      exact .inr ⟨⟨(update_self ..).trans he.symm,he.symm⟩,hunder⟩
    · exact .inl (update_of_ne hk _ _)
  cases hok
  exact hentry

lemma checkHooks_assigned (hs : List (Fin 5))
    (hok : hs.foldlM (checkHook repl m e) info = .ok info') : Assigned repl m e info info' := by
  induction hs generalizing info with
  | nil =>
    cases hok
    exact .refl ..
  | cons h hs ih =>
    obtain ⟨info1,hhook,hok⟩ := bind_ok hok
    exact (checkHook_assigned hhook).trans (ih hok)

structure Checked (repl : IptReplace) (m0 : Mem) (k iter : Nat) (m m' : Mem)
    (info info' : XtTableInfo) : Prop where
  below : ∀ x < iter, m' x = m x
  rules : ∀ e ∈ entriesFrom m0 repl.size k iter, SameRule m0 e m0 m' ∧ comefrom m' e = 0
  size_eq : info'.size = info.size
  hookEntry : ∀ h, info'.hookEntry h = info.hookEntry h ∨
    info'.hookEntry h = repl.hookEntry h ∧ repl.hookEntry h ∈ entriesFrom m0 repl.size k iter
  underflow : ∀ h, info'.underflow h = info.underflow h ∨
    info'.underflow h = repl.underflow h ∧ repl.underflow h ∈ entriesFrom m0 repl.size k iter ∧
      checkUnderflow m0 (repl.underflow h) = true

/-- One more entry in front of those that were checked. -/
theorem Checked.cons {k : Nat} (hlt : iter < repl.size) (hnext : 144 ≤ nextOffset m0 iter)
    (hahead : ∀ x, iter ≤ x → m x = m0 x) (hkeep : ∀ x, x < iter+92 ∨ iter+112 ≤ x → m1 x = m x)
    (hclear : comefrom m1 iter = 0) (hassigned : Assigned repl m0 iter info info1)
    (later : Checked repl m0 k (iter+nextOffset m0 iter) m1 m' info1 info') :
    Checked repl m0 (k+1) iter m m' info info' := by
  have hmem : entriesFrom m0 repl.size (k+1) iter = iter::entriesFrom m0 repl.size k (iter+nextOffset m0 iter) := by
    rw [entriesFrom,if_pos hlt]
  refine ⟨?_,?_,later.size_eq.trans hassigned.1,?_,?_⟩
  · intro x hx
    rw [later.below x (by omega),hkeep x (by omega)]
  · intro e he
    rw [hmem] at he
    rcases mem_cons.mp he with rfl | he
    · refine ⟨fun i hi hr => ?_,?_⟩
      · rw [later.below _ (by omega),hkeep _ (by omega),hahead _ (by omega)]
      rw [← hclear]
      exact u32_congr fun i hi => later.below _ (by omega)
    · exact later.rules e he
  · intro h
    rw [hmem,mem_cons]
    rcases later.hookEntry h with hh | ⟨hh,hin⟩
    · rw [hh]
      exact (hassigned.2 h).1.imp id fun ⟨he,hr⟩ => ⟨he.trans hr.symm,.inl hr⟩
    · exact .inr ⟨hh,.inr hin⟩
  intro h
  rw [hmem,mem_cons]
  rcases later.underflow h with hh | ⟨hh,hin,hcheck⟩
  · rw [hh]
    refine (hassigned.2 h).2.imp id ?_
    rintro ⟨⟨he,hr⟩,hcheck⟩
    exact ⟨he.trans hr.symm,.inl hr,by rwa [hr]⟩
  · exact .inr ⟨hh,.inr hin,hcheck⟩

lemma checkEntrySizeAndHooks_spec (hok : checkEntrySizeAndHooks repl m e info = .ok (m1,info1)) :
    144 ≤ nextOffset m e ∧ Assigned repl m e info info1 ∧ comefrom m1 e = 0 ∧
      ∀ x, x < e+92 ∨ e+112 ≤ x → m1 x = m x := by
  unfold checkEntrySizeAndHooks at hok
  split at hok
  · cases hok
  split at hok
  · cases hok
  obtain ⟨info2,hhooks,hpure⟩ := bind_ok hok
  cases hpure
  refine ⟨by omega,checkHooks_assigned _ hhooks,u32_put_le _ _ _ _,fun x hx => ?_⟩
  unfold setComefrom clearCounters
  rw [put_of_disjoint (by rw [le_length]; omega),put_of_disjoint (by rw [le_length]; omega)]

lemma checkEntries_spec {n : Nat} (fuel k : Nat) (hk : repl.size ≤ k+iter)
    (hahead : ∀ x, iter ≤ x → m x = m0 x) (hok : checkEntries repl fuel m iter i info = .ok (m',n,info')) :
    Checked repl m0 k iter m m' info info' := by
  induction fuel generalizing k m iter i info with
  | zero => cases hok
  | succ fuel ih =>
    unfold checkEntries at hok
    split at hok
    · rename_i hlt
      obtain ⟨⟨m1,info1⟩,hentry,hok⟩ := bind_ok hok
      dsimp only at hok
      obtain ⟨hnext,hassigned,hclear,hkeep⟩ := checkEntrySizeAndHooks_spec hentry
      obtain ⟨k,rfl⟩ : ∃ j, k = j+1 := ⟨k-1,by omega⟩
      have hoff : nextOffset m1 iter = nextOffset m0 iter := by
        rw [← nextOffset_ahead hahead]
        exact u16_congr fun i hi => hkeep _ (by omega)
      rw [nextOffset_ahead hahead] at hnext
      rw [hoff] at hok
      -- counting the user chains assigns nothing
      have hcount : Assigned repl m iter info (if userName m1 (getTarget m1 iter) = errorTarget then
          {info1 with stacksize := info1.stacksize+1} else info1) := by
        refine hassigned.trans ?_
        split <;> exact ⟨rfl,fun _ => ⟨.inl rfl,.inl rfl⟩⟩
      rw [Assigned,checkUnderflow_ahead hahead] at hcount
      refine Checked.cons hlt hnext hahead hkeep hclear hcount (ih k (by omega) ?_ hok)
      intro x hx
      rw [hkeep x (by omega)]
      exact hahead x (by omega)
    rename_i hge
    cases hok
    have hnil : entriesFrom m0 repl.size k iter = [] := by
      cases k with
      | zero => rfl
      | succ k => rw [entriesFrom,if_neg hge]
    exact ⟨fun _ _ => rfl,by simp [hnil],rfl,fun _ => .inl rfl,fun _ => .inl rfl⟩

/-- What the third pass makes of rule `e` of the blob `m0`: its header, verdict and matches
are those the loop check saw, and its target has a handler unless it is standard. -/
structure RuleInstalled (reg : XtRegistry) (m0 m : Mem) (e : Nat) : Prop where
  next : nextOffset m e = nextOffset m0 e
  target : targetOffset m e = targetOffset m0 e
  uncond : unconditional m e = unconditional m0 e
  handler : (reg.targetAt (kernelPtr m (getTarget m0 e))).handler = !isStandard m0 (getTarget m0 e)
  verdict : isStandard m0 (getTarget m0 e) = true →
    verdict m (getTarget m0 e) = verdict m0 (getTarget m0 e)
  fit : matchesFit m e 65536 112 = true

lemma RuleInstalled.congr (h : RuleInstalled reg m0 m e) (hfit : ruleFits m0 e = true)
    (hsame : SameRule m0 e m m') : RuleInstalled reg m0 m' e where
  next := (hsame.nextOffset (ruleFits_next_ge hfit)).trans h.next
  target := (hsame.targetOffset (ruleFits_next_ge hfit)).trans h.target
  uncond := (hsame.unconditional (ruleFits_next_ge hfit)).trans h.uncond
  handler := by rw [hsame.kernelPtr hfit]; exact h.handler
  verdict hs := (hsame.verdict hfit hs).trans (h.verdict hs)
  fit := (hsame.matchesFit hfit h.target _ _ (by omega)).trans h.fit

lemma extSize_lt (m : Mem) (a : Nat) : extSize m a < 65536 := u16_lt m a

lemma dataSize_eq (h : 32 ≤ extSize m a) : dataSize m a = extSize m a-32 := by
  have := extSize_lt m a
  unfold dataSize
  omega

lemma xtCheck_checkentry {exempt : Bool} (hok : xtCheck exempt repl ext m e a = .ok m') :
    callCheckentry ext m a = .ok m' := by
  unfold xtCheck at hok
  repeat' split at hok
  all_goals first | exact hok | cases hok

lemma xtCheck_keeps {exempt : Bool} (hok : xtCheck exempt repl ext m e a = .ok m')
    (hsize : 32 ≤ extSize m a) : ∀ x, x < a+32 ∨ a+extSize m a ≤ x → m' x = m x := by
  intro x hx
  have hcall := xtCheck_checkentry hok
  unfold callCheckentry at hcall
  split at hcall
  · cases hcall
    rfl
  dsimp only at hcall
  split at hcall
  · cases hcall
  split at hcall
  · cases hcall
  cases hcall
  refine put_of_disjoint ?_
  rw [length_take,dataSize_eq hsize]
  omega

lemma setKernelPtr_keeps {p : UInt32} {x : Nat} (hx : x < a+4 ∨ a+8 ≤ x) : setKernelPtr m a p x = m x :=
  put_of_disjoint (by rw [le_length]; omega)

lemma extSize_setKernelPtr (m : Mem) (a : Nat) (p : UInt32) : extSize (setKernelPtr m a p) a = extSize m a :=
  u16_congr fun i hi => setKernelPtr_keeps (by omega)

lemma findCheckMatch_keeps (hok : findCheckMatch reg repl m e a = .ok m')
    (hsize : 32 ≤ extSize m a) :
    ∀ x, x < a+4 ∨ a+8 ≤ x ∧ x < a+32 ∨ a+extSize m a ≤ x → m' x = m x := by
  intro x hx
  obtain ⟨p,_,hcheck⟩ := bind_ok hok
  have hs := extSize_setKernelPtr m a p
  rw [xtCheck_keeps hcheck (by omega) x (by omega),setKernelPtr_keeps (by omega)]

lemma matchesFit_below (fuel i : Nat) (ht : targetOffset m' e = targetOffset m e)
    (h : ∀ x, e+i ≤ x → x < e+targetOffset m e+2 → m' x = m x) : matchesFit m' e fuel i = matchesFit m e fuel i := by
  induction fuel generalizing i with
  | zero => rfl
  | succ fuel ih =>
    rw [matchesFit,matchesFit,ht]
    by_cases hlt : i < targetOffset m e
    · have hsize : extSize m' (e+i) = extSize m (e+i) :=
        u16_congr fun j hj => h _ (by omega) (by omega)
      rw [hsize,ih _ fun x hx => h x (by omega)]
    · rw [if_neg hlt,if_neg hlt]

lemma findCheckMatches_keeps (fuel k : Nat) (hi : 112 ≤ i)
    (hok : findCheckMatches reg repl e fuel m i = .ok m') (hfit : matchesFit m e k i = true) :
    (∀ x, x < e+i ∨ e+targetOffset m e ≤ x → m' x = m x) ∧ matchesFit m' e k i = true := by
  induction fuel generalizing k m i with
  | zero => cases hok
  | succ fuel ih =>
    rcases k with _ | k
    · cases hfit
    unfold findCheckMatches at hok
    unfold matchesFit at hfit
    split at hok
    · rename_i hlt
      obtain ⟨m1,hmatch,hok⟩ := bind_ok hok
      rw [if_pos hlt] at hfit
      simp only [and_eq_true,decide_eq_true_eq] at hfit
      obtain ⟨⟨⟨hsize,hptr⟩,hend⟩,hrest⟩ := hfit
      have hkeep := findCheckMatch_keeps hmatch hsize
      have htarget : targetOffset m1 e = targetOffset m e :=
        u16_congr fun j hj => hkeep _ (by omega)
      have hsize1 : extSize m1 (e+i) = extSize m (e+i) :=
        u16_congr fun j hj => hkeep _ (by omega)
      rw [hsize1] at hok
      have hrest1 : matchesFit m1 e k (i+extSize m (e+i)) = true := by
        rw [matchesFit_below _ _ htarget fun x hx _ => hkeep x (by omega)]
        exact hrest
      obtain ⟨hkeep',hfit'⟩ := ih k (by omega) hok hrest1
      have htarget' : targetOffset m' e = targetOffset m e := by
        rw [← htarget]
        exact u16_congr fun j hj => hkeep' _ (by omega)
      have hsize' : extSize m' (e+i) = extSize m (e+i) := by
        rw [← hsize1]
        exact u16_congr fun j hj => hkeep' _ (by omega)
      refine ⟨fun x hx => ?_,?_⟩
      · rw [hkeep' x (by omega),hkeep x (by omega)]
      unfold matchesFit
      rw [htarget',hsize',if_pos hlt]
      simp only [and_eq_true,decide_eq_true_eq]
      exact ⟨⟨⟨hsize,hptr⟩,hend⟩,hfit'⟩
    rename_i hge
    cases hok
    refine ⟨fun _ _ => rfl,?_⟩
    unfold matchesFit
    rw [if_neg hge]

lemma xtCheckTarget_size (hok : xtCheckTarget repl ext m e a = .ok m') :
    ∃ n, ext.extsize = some n ∧ xtAlign n = dataSize m a := by
  unfold xtCheckTarget xtCheck at hok
  split at hok
  · cases hok
  rename_i hsize
  cases hn : ext.extsize with
  | none => simp [hn] at hsize
  | some n => exact ⟨n,rfl,by simpa [hn] using hsize⟩

/-- The target's own check: where it writes, and what the pointer it installs says. -/
theorem findCheckTarget_spec (hok : findCheckTarget reg repl m e = .ok m') : 32 ≤ extSize m (getTarget m e) ∧
      (∀ x, x < getTarget m e+4 ∨ getTarget m e+extSize m (getTarget m e) ≤ x → m' x = m x) ∧
      (reg.targetAt (kernelPtr m' (getTarget m e))).handler = !isStandard m (getTarget m e) ∧
      (isStandard m (getTarget m e) = true → verdict m' (getTarget m e) = verdict m (getTarget m e)) := by
  unfold findCheckTarget at hok
  generalize getTarget m e = t at *
  obtain ⟨p,hfind,hcheck⟩ := bind_ok hok
  have hfound : reg.findTarget (userName m t) (revision m t) = .ok p := by
    unfold xtRequestFind at hfind
    split at hfind
    · cases hfind
    cases hfind
    assumption
  obtain ⟨n,hn,halign⟩ := xtCheckTarget_size hcheck
  have hs := extSize_setKernelPtr m t p
  have hsmall := reg.small p n hn
  have hsize : 32 ≤ extSize m t := by
    unfold dataSize xtAlign at halign
    omega
  have hkeep := xtCheck_keeps hcheck (by omega)
  have hptr : kernelPtr m' t = p := by
    have hword : u32 m' (t+4) = u32 (setKernelPtr m t p) (t+4) :=
      u32_congr fun i hi => hkeep _ (by omega)
    have hlow : u32 (setKernelPtr m t p) (t+4) = p.toNat := by
      have := u32_put_le m (t+4) p.toNat 0
      rw [setKernelPtr]
      rw [this,mod_eq_of_lt p.toNat_lt]
    rw [kernelPtr,hword,hlow,UInt32.ofNat_toNat]
  refine ⟨hsize,fun x hx => ?_,?_,fun hstd => ?_⟩
  · rw [hkeep x (by omega),setKernelPtr_keeps (by omega)]
  · rw [hptr]
    cases hstd : isStandard m t with
    | true =>
      rw [isStandard,beq_iff_eq] at hstd
      rw [hstd] at hfound
      exact (reg.standard _ _ hfound).1
    | false =>
      rw [isStandard,beq_eq_false_iff_ne] at hstd
      exact reg.extension _ _ _ hstd hfound
  rw [isStandard,beq_iff_eq] at hstd
  rw [hstd] at hfound
  obtain ⟨_,_,hnone⟩ := reg.standard _ _ hfound
  have hcall := xtCheck_checkentry hcheck
  rw [callCheckentry,hnone] at hcall
  cases hcall
  exact s32_congr fun i hi => setKernelPtr_keeps (by omega)

lemma checkEntry_spec (hok : checkEntry m e = .ok ()) :
    targetOffset m e+extSize m (getTarget m e) ≤ nextOffset m e := by
  unfold checkEntry at hok
  split at hok
  · cases hok
  split at hok
  · cases hok
  split at hok
  · cases hok
  · omega

/-- The third pass at one entry: it writes behind the header and inside the entry. -/
theorem findCheckEntry_spec (hok : findCheckEntry reg repl fuel m e = .ok m')
    (hfit : ruleFits m0 e = true) (hsame : SameRule m0 e m0 m) :
    (∀ x, x < e+112 ∨ e+nextOffset m0 e ≤ x → m' x = m x) ∧ RuleInstalled reg m0 m' e := by
  have h1 := ruleFits_target_ge hfit
  have hn := ruleFits_next_ge hfit
  have htarget := hsame.targetOffset hn
  have ht := hsame.getTarget hfit
  obtain ⟨⟨⟩,hentry,hok⟩ := bind_ok hok
  obtain ⟨m1,hmatches,hok⟩ := bind_ok hok
  have hroom := checkEntry_spec hentry
  rw [htarget,ht,hsame.nextOffset hn] at hroom
  have hfit1 : matchesFit m e 65536 112 = true := by
    rw [hsame.matchesFit hfit rfl _ _ (by omega)]
    exact ruleFits_matches hfit
  obtain ⟨hkeep1,hfit1⟩ := findCheckMatches_keeps fuel 65536 le_rfl hmatches hfit1
  have htarget1 : targetOffset m1 e = targetOffset m e :=
    u16_congr fun i hi => hkeep1 _ (by omega)
  have ht1 : getTarget m1 e = getTarget m0 e := by
    rw [getTarget,htarget1,htarget,getTarget]
  have htge : getTarget m0 e = e+targetOffset m0 e := rfl
  obtain ⟨hsize,hkeep,hhandler,hverdict⟩ := findCheckTarget_spec hok
  rw [ht1] at hsize hkeep hhandler hverdict
  have hsize1 : extSize m1 (getTarget m0 e) = extSize m (getTarget m0 e) :=
    u16_congr fun i hi => hkeep1 _ (by omega)
  -- the target is as the loop check saw it, up to the pointer
  have hstd1 : isStandard m1 (getTarget m0 e) = isStandard m0 (getTarget m0 e) := by
    rw [← hsame.isStandard hfit,Bool.eq_iff_iff,isStandard_iff,isStandard_iff,hkeep1 _ (by omega)]
  have hall : ∀ x, x < e+112 ∨ e+nextOffset m0 e ≤ x → m' x = m x := by
    intro x hx
    rw [hkeep x (by omega),hkeep1 x (by omega)]
  have hheader : ∀ i < 92, m' (e+i) = m0 (e+i) := by
    intro i hi
    rw [hall _ (by omega),hsame i (by omega) (by omega)]
  have htarget' : targetOffset m' e = targetOffset m0 e :=
    u16_congr fun i hi => by
      rw [add_assoc]
      exact hheader _ (by omega)
  refine ⟨hall,⟨?_,htarget',?_,?_,?_,?_⟩⟩
  · refine u16_congr fun i hi => ?_
    rw [add_assoc]
    exact hheader _ (by omega)
  · rw [Bool.eq_iff_iff,unconditional_iff,unconditional_iff]
    refine forall₂_congr fun i hi => ?_
    rw [hheader i (by omega)]
  · rw [hhandler,hstd1]
  · intro hs
    rw [hverdict (hstd1.trans hs),← hsame.verdict hfit hs]
    exact s32_congr fun i hi => hkeep1 _ (by omega)
  rw [matchesFit_below _ _ (by rw [htarget',htarget1,htarget]) fun x hx _ => hkeep x (by omega)]
  exact hfit1

/-- The third pass from `iter` on. -/
theorem findCheckEntries_spec (fuel k : Nat) (hk : repl.size ≤ k+iter)
    (hfit : ∀ e ∈ entriesFrom m0 repl.size k iter, ruleFits m0 e = true)
    (hsame : ∀ e ∈ entriesFrom m0 repl.size k iter, SameRule m0 e m0 m)
    (hok : findCheckEntries reg repl fuel m iter = .ok m') : (∀ x < iter, m' x = m x) ∧
      ∀ e ∈ entriesFrom m0 repl.size k iter, RuleInstalled reg m0 m' e := by
  induction fuel generalizing k m iter with
  | zero => cases hok
  | succ fuel ih =>
    unfold findCheckEntries at hok
    split at hok
    · rename_i hlt
      obtain ⟨m1,hentry,hok⟩ := bind_ok hok
      obtain ⟨k,rfl⟩ : ∃ j, k = j+1 := ⟨k-1,by omega⟩
      rw [entriesFrom,if_pos hlt] at hfit hsame ⊢
      have hfit0 := hfit iter mem_cons_self
      have hn := ruleFits_next_ge hfit0
      obtain ⟨hkeep,hinstalled⟩ :=
        findCheckEntry_spec hentry hfit0 (hsame iter mem_cons_self)
      rw [hinstalled.next] at hok
      obtain ⟨hbelow,hlater⟩ := ih k (by omega) (fun e he => hfit e (mem_cons_of_mem _ he)) (fun e he i hi hr => by
          have := (entriesFrom_bounds he).1
          rw [hkeep _ (by omega)]
          exact hsame e (mem_cons_of_mem _ he) i hi hr) hok
      refine ⟨fun x hx => ?_,forall_mem_cons.mpr ⟨?_,hlater⟩⟩
      · rw [hbelow x (by omega),hkeep x (by omega)]
      exact hinstalled.congr hfit0 fun i hi _ => hbelow _ (by omega)
    rename_i hge
    cases hok
    refine ⟨fun _ _ => rfl,fun e he => ?_⟩
    have := entriesFrom_bounds he
    omega

/-- An accepted table: every valid hook enters at an entry, and underflows to an entry that
`check_underflow` took. -/
theorem translateTable_hooks {table : Translated}
    (hok : translateTable reg repl fuel entry0 = .ok table) (h : Fin 5) (hv : repl.valid h = true) :
    (table.info.hookEntry h = repl.hookEntry h ∧ repl.hookEntry h ∈ xtEntries entry0 repl.size) ∧
    table.info.underflow h = repl.underflow h ∧ repl.underflow h ∈ xtEntries entry0 repl.size ∧
      checkUnderflow entry0 (repl.underflow h) = true := by
  obtain ⟨⟨m,i,newinfo⟩,hentries,hok⟩ := bind_ok hok
  dsimp only at hok
  split at hok
  · cases hok
  split at hok
  · cases hok
  rename_i hassigned
  rw [not_eq_true,not_eq_false',hooksAssigned,all_eq_true] at hassigned
  have hset := hassigned h (mem_finRange h)
  simp only [hv,Bool.not_true,Bool.false_or,and_eq_true,bne_iff_ne] at hset
  obtain ⟨⟨m1,log⟩,_,hok⟩ := bind_ok hok
  obtain ⟨m2,_,hpure⟩ := bind_ok hok
  cases hpure
  have checked : Checked repl entry0 repl.size 0 entry0 m (initInfo repl) newinfo :=
    checkEntries_spec fuel repl.size (by omega) (fun _ _ => rfl) hentries
  exact ⟨(checked.hookEntry h).resolve_left hset.1,(checked.underflow h).resolve_left hset.2⟩

/-- An accepted table whose rules lie apart, when the loop check cannot leave the rules or
did not. -/
theorem translateTable_spec {table : Translated}
    (hok : translateTable reg repl fuel entry0 = .ok table) (hlay : Layout entry0 repl.size)
    (hstay : (∀ h, repl.valid h = true → Lands entry0 repl.size (repl.hookEntry h)) ∨
      ∀ a ∈ table.log, a ∈ xtEntries entry0 repl.size) :
    table.info.size = repl.size ∧ (∀ a ∈ table.log, a ∈ xtEntries entry0 repl.size) ∧
      (∀ e ∈ xtEntries entry0 repl.size, RuleInstalled reg entry0 table.mem e) ∧
      ∀ h, repl.valid h = true → Searched entry0 repl.size (repl.hookEntry h) := by
  have hhooks := translateTable_hooks hok
  obtain ⟨⟨m,i,newinfo⟩,hentries,hok⟩ := bind_ok hok
  dsimp only at hok
  split at hok
  · cases hok
  split at hok
  · cases hok
  obtain ⟨⟨m1,log⟩,hmark,hok⟩ := bind_ok hok
  obtain ⟨m2,hfind,hpure⟩ := bind_ok hok
  cases hpure
  have checked : Checked repl entry0 repl.size 0 entry0 m (initInfo repl) newinfo :=
    checkEntries_spec fuel repl.size (by omega) (fun _ _ => rfl) hentries
  have hst : Static entry0 repl.size entry0 m := fun e he => (checked.rules e he).1
  have hun : Unmarked entry0 repl.size (finRange 5) m := by
    intro e he
    rw [(checked.rules e he).2]
    exact ⟨zero_testBit _,fun _ _ => zero_testBit _⟩
  have hentry : ∀ h ∈ finRange 5, repl.valid h = true →
      newinfo.hookEntry h ∈ xtEntries entry0 repl.size := fun h _ hv => by
    rw [(hhooks h hv).1.1]
    exact (hhooks h hv).1.2
  have hstay' : (∀ h ∈ finRange 5, repl.valid h = true →
      Lands entry0 repl.size (newinfo.hookEntry h)) ∨ ∀ a ∈ log, a ∈ xtEntries entry0 repl.size :=
    hstay.imp (fun hl h _ hv => (hhooks h hv).1.1 ▸ hl h hv) id
  obtain ⟨hlog,hst1,hsearched⟩ := markHooks_spec hlay repl.fits checked.size_eq _
    (nodup_finRange 5) hentry (m,[]) hst hun hmark hstay'
  have hinstalled := findCheckEntries_spec fuel repl.size (by omega) hlay hst1 hfind
  refine ⟨checked.size_eq,fun a ha => ?_,hinstalled.2,fun h hv => ?_⟩
  · exact (hlog a ha).resolve_left (by simp)
  rw [← (hhooks h hv).1.1]
  exact hsearched h (mem_finRange h) hv

end LinuxToradex.IpTables

import LinuxToradex.Hashtable.Table
import Mathlib.Data.Finmap

/-! Each live entry can be reached from the first slot of its key without meeting a slot that was never used. -/
namespace LinuxToradex.Hashtable
open Option Probing

abbrev Env := Finmap fun _ : Bytes => Bytes

/-- The map with at most `size` keys. -/
def Env.apply (size : Nat) (m : Env) : Op → Answer × Env
  | .enter key data =>
    if key ∈ m ∨ m.keys.card ≠ size then (.done,m.insert key data) else (.failed,m)
  | .find key =>
    match m.lookup key with
    | some data => (.data data,m)
    | none => (.failed,m)
  | .delete key => if key ∈ m then (.done,m.erase key) else (.failed,m)

def Env.run (size : Nat) (m : Env) : List Op → List Answer × Env
  | [] => ([],m)
  | op::ops =>
    ((m.apply size op).1::(Env.run size (m.apply size op).2 ops).1, (Env.run size (m.apply size op).2 ops).2)

def slotAt (size : Nat) (key : Bytes) (m : Nat) : Nat :=
  (back size (hash2 size (hash size key)))^[m] (hash size key)

section Slots

variable {size : Nat} (hsize : size.Prime) (hlow : 5 ≤ size) (key : Bytes)
include hlow

lemma hash_range : 0 < hash size key ∧ hash size key < size := by
  unfold hash
  have hlt := Nat.mod_lt (stringValue key) (show 0 < size by omega)
  split <;> omega

lemma hash2_range (hval : Nat) : 0 < hash2 size hval ∧ hash2 size hval < size := by
  unfold hash2
  have hlt := Nat.mod_lt hval (show 0 < size-2 by omega)
  omega

lemma slotAt_range (m : Nat) : 0 < slotAt size key m ∧ slotAt size key m ≤ size := by
  obtain ⟨hpos,hlt⟩ := hash2_range hlow (hash size key)
  obtain ⟨hhpos,hhlt⟩ := hash_range hlow key
  exact back_iterate_range hpos hlt hhpos hhlt.le m

include hsize

lemma hash2_coprime (hval : Nat) : (hash2 size hval).Coprime size := by
  obtain ⟨hpos,hlt⟩ := hash2_range hlow hval
  exact (Nat.coprime_of_lt_prime hpos.ne' hlt hsize).symm

lemma exists_slotAt {i : Nat} (hi : 0 < i) (hin : i ≤ size) : ∃ m < size, slotAt size key m = i := by
  obtain ⟨hpos,hlt⟩ := hash2_range hlow (hash size key)
  obtain ⟨hhpos,hhlt⟩ := hash_range hlow key
  exact exists_back_iterate hpos hlt (hash2_coprime hsize hlow _) hhpos hhlt.le hi hin

end Slots

lemma findSlot_ends {h : Htab} (hsize : h.size.Prime) (hlow : 5 ≤ h.size) (key : Bytes) :
    ∃ r, h.findSlot key = some r ∧ Ends (slotAt h.size key) (h.holds key) h.unused h.size r := by
  obtain ⟨hpos,hlt⟩ := hash2_range hlow (hash h.size key)
  obtain ⟨hhpos,hhlt⟩ := hash_range hlow key
  apply search_ends (by omega) (back_iterate_self hpos hlt hhpos hhlt.le)
  intro m hm hmn
  exact back_iterate_ne hlt (hash2_coprime hsize hlow _) hm hmn

def Path (h : Htab) (key : Bytes) (i : Nat) : Prop :=
  ∃ m < h.size, slotAt h.size key m = i ∧ ∀ l < m, (h.table (slotAt h.size key l)).used ≠ 0

structure Reach (h : Htab) : Prop where
  prime : h.size.Prime
  low : 5 ≤ h.size
  idle : ∀ i, (h.table i).entry = none → (h.table i).used = 0 ∨ (h.table i).used = -1
  live : ∀ i key data, (h.table i).entry = some (key,data) →
    (h.table i).used = hash h.size key ∧ Path h key i
  once : ∀ i j key data data', (h.table i).entry = some (key,data) →
    (h.table j).entry = some (key,data') → i = j

variable {h : Htab} {key : Bytes} {i : Nat}

lemma Reach.used_ne (hr : Reach h) {data : Bytes} (hi : (h.table i).entry = some (key,data)) :
    (h.table i).used ≠ 0 ∧ (h.table i).used ≠ -1 := by
  have hpos := (hash_range hr.low key).1
  have hused := (hr.live i key data hi).1
  omega

lemma Reach.range (hr : Reach h) {data : Bytes} (hi : (h.table i).entry = some (key,data)) : 0 < i ∧ i ≤ h.size := by
  obtain ⟨m,-,rfl,-⟩ := (hr.live i key data hi).2
  exact slotAt_range hr.low key m

lemma Reach.holds_iff (hr : Reach h) : h.holds key i = true ↔ ∃ data, (h.table i).entry = some (key,data) := by
  unfold Htab.holds
  rw [Bool.and_eq_true,decide_eq_true_eq,decide_eq_true_eq]
  constructor
  · rintro ⟨-,hmap⟩
    obtain ⟨⟨key',data⟩,he,rfl⟩ := map_eq_some_iff.mp hmap
    exact ⟨data,he⟩
  rintro ⟨data,he⟩
  exact ⟨(hr.live i key data he).1,by rw [he]; rfl⟩

lemma unused_iff : h.unused i = true ↔ (h.table i).used = 0 := decide_eq_true_iff

lemma unused_false : h.unused i = false ↔ (h.table i).used ≠ 0 := decide_eq_false_iff_not

lemma Reach.findSlot_hit (hr : Reach h) {data : Bytes}
    (hi : (h.table i).entry = some (key,data)) : h.findSlot key = some (.hit i) := by
  obtain ⟨m,hm,hmi,hpath⟩ := (hr.live i key data hi).2
  have hhit : h.holds key (slotAt h.size key m) = true := hr.holds_iff.mpr ⟨data,hmi ▸ hi⟩
  obtain ⟨r,hfind,hends⟩ := findSlot_ends hr.prime hr.low key
  rw [hfind]
  cases hends with
  | hit m' _ hh _ =>
    obtain ⟨data',he⟩ := hr.holds_iff.mp hh
    rw [hr.once _ i key data' data he hi]
  | free m' _ hf before =>
    -- the unused slot would be in front of the entry
    rcases lt_or_ge m m' with hlt | hge
    · exact absurd hhit (by rw [(before m hlt).1]; exact Bool.false_ne_true)
    have hused : (h.table (slotAt h.size key m')).used ≠ 0 := by
      rcases lt_or_eq_of_le hge with hlt | rfl
      · exact hpath m' hlt
      · exact hmi.symm ▸ (hr.used_ne hi).1
    exact absurd (unused_iff.mp hf) hused
  | round all => exact absurd hhit (by rw [(all m hm).1]; exact Bool.false_ne_true)

lemma Reach.findSlot_free (hr : Reach h) (hkey : ∀ i data, (h.table i).entry ≠ some (key,data)) :
    ∃ i, h.findSlot key = some (.free i) ∧ ((Path h key i ∧ (h.table i).used = 0) ∨
        (i = hash h.size key ∧ ∀ m < h.size, (h.table (slotAt h.size key m)).used ≠ 0)) := by
  obtain ⟨r,hfind,hends⟩ := findSlot_ends hr.prime hr.low key
  rw [hfind]
  cases hends with
  | hit m _ hh _ =>
    obtain ⟨data,he⟩ := hr.holds_iff.mp hh
    exact absurd he (hkey _ data)
  | free m hm hf before =>
    exact ⟨_,rfl,.inl ⟨⟨m,hm,rfl,fun l hl => unused_false.mp (before l hl).2⟩,unused_iff.mp hf⟩⟩
  | round all => exact ⟨_,rfl,.inr ⟨rfl,fun m hm => unused_false.mp (all m hm).2⟩⟩

lemma entry_setSlot (i j : Nat) (slot : Slot) : (h.setSlot i slot).table j = if j = i then slot else h.table j :=
  Function.update_apply h.table i slot j

/-- A slot can be changed if it does not become unused, and if an entry that is put there is the
only one for its key and can be reached. -/
theorem Reach.setSlot (hr : Reach h) (i : Nat) (slot : Slot) (filled : Nat) (hused : slot.used ≠ 0)
    (hidle : slot.entry = none → slot.used = -1)
    (hlive : ∀ key data, slot.entry = some (key,data) → slot.used = hash h.size key ∧ Path h key i ∧
      ∀ j data', j ≠ i → (h.table j).entry ≠ some (key,data')) : Reach {h.setSlot i slot with filled := filled} := by
  have hpath : ∀ key j, Path h key j → Path {h.setSlot i slot with filled := filled} key j := by
    rintro key j ⟨m,hm,hmj,hbefore⟩
    refine ⟨m,hm,hmj,fun l hl => ?_⟩
    rw [entry_setSlot]
    split
    · exact hused
    · exact hbefore l hl
  constructor
  · exact hr.prime
  · exact hr.low
  · intro j
    rw [entry_setSlot]
    split
    · exact fun hn => .inr (hidle hn)
    · exact hr.idle j
  · intro j key data
    rw [entry_setSlot]
    split
    · rename_i hj
      intro he
      obtain ⟨hval,hp,-⟩ := hlive key data he
      exact ⟨hval,hpath key j (hj ▸ hp)⟩
    intro he
    obtain ⟨hval,hp⟩ := hr.live j key data he
    exact ⟨hval,hpath key j hp⟩
  intro j j' key data data'
  rw [entry_setSlot,entry_setSlot]
  split
  · split
    · exact fun _ _ => by simp only [*]
    · exact fun he he' => absurd he' ((hlive key data he).2.2 j' data' ‹_›)
  split
  · exact fun he he' => absurd he ((hlive key data' he').2.2 j data ‹_›)
  · exact hr.once j j' key data data'

structure Rep (h : Htab) (m : Env) : Prop where
  reach : Reach h
  lookup : ∀ key data, m.lookup key = some data ↔ ∃ i, (h.table i).entry = some (key,data)
  filled : h.filled = m.keys.card
  room : h.filled ≤ h.size

variable {m : Env}

lemma Rep.not_mem (hr : Rep h m) (hkey : key ∉ m) : ∀ i data, (h.table i).entry ≠ some (key,data) := by
  intro i data he
  exact hkey (Finmap.mem_of_lookup_eq_some ((hr.lookup key data).mpr ⟨i,he⟩))

lemma Rep.mem (hr : Rep h m) (hkey : key ∈ m) :
    ∃ i data, (h.table i).entry = some (key,data) ∧ m.lookup key = some data := by
  obtain ⟨data,hdata⟩ := Finmap.mem_iff.mp hkey
  obtain ⟨i,hi⟩ := (hr.lookup key data).mp hdata
  exact ⟨i,data,hi,hdata⟩

lemma keys_insert (m : Env) (key data : Bytes) : (m.insert key data).keys = insert key m.keys := by
  ext k
  rw [Finset.mem_insert,Finmap.mem_keys,Finmap.mem_keys,Finmap.mem_insert]

lemma Rep.lookup_put (hr : Rep h m) (hold : ∀ j data, (h.table j).entry = some (key,data) → j = i)
    (hi : ∀ key' data, (h.table i).entry = some (key',data) → key' = key) (used : Int)
    (data key' data' : Bytes) : (m.insert key data).lookup key' = some data' ↔
      ∃ j, ((h.setSlot i ⟨used,some (key,data)⟩).table j).entry = some (key',data') := by
  by_cases hk : key' = key
  · subst hk
    rw [Finmap.lookup_insert]
    constructor
    · intro hd
      exact ⟨i,by rw [entry_setSlot,if_pos rfl,some.inj hd]⟩
    rintro ⟨j,hj⟩
    rw [entry_setSlot] at hj
    split at hj
    · simpa using hj
    rename_i hne
    exact absurd (hold j data' hj) hne
  rw [Finmap.lookup_insert_of_ne _ hk,hr.lookup]
  constructor
  · rintro ⟨j,hj⟩
    have hne : j ≠ i := fun he => hk (hi key' data' (he ▸ hj))
    exact ⟨j,by rw [entry_setSlot,if_neg hne,hj]⟩
  rintro ⟨j,hj⟩
  rw [entry_setSlot] at hj
  split at hj
  · exact absurd (congrArg Prod.fst (some.inj hj)).symm hk
  · exact ⟨j,hj⟩

lemma Rep.enter_old (hr : Rep h m) (hkey : key ∈ m) (data : Bytes) :
    ∃ h', h.apply (.enter key data) = some (.done,h') ∧ Rep h' (m.insert key data) ∧ h'.size = h.size := by
  obtain ⟨i,old,hi,-⟩ := hr.mem hkey
  obtain ⟨hused,hpath⟩ := hr.reach.live i key old hi
  have honly : ∀ j d, (h.table j).entry = some (key,d) → j = i := fun j d hj =>
    hr.reach.once j i key d old hj hi
  have hslot : ({h.table i with entry := (h.table i).entry.map fun e => (e.1,data)} : Slot) =
      ⟨(h.table i).used,some (key,data)⟩ := by
    rw [hi]
    rfl
  refine ⟨h.setSlot i ⟨(h.table i).used,some (key,data)⟩,?_,⟨?_,?_,?_,hr.room⟩,rfl⟩
  · rw [Htab.apply,hsearchR]
    rw [hr.reach.findSlot_hit hi]
    dsimp only [Htab.overwrite]
    rw [hslot]
    rfl
  · apply hr.reach.setSlot i ⟨(h.table i).used,some (key,data)⟩ h.filled (hr.reach.used_ne hi).1
    · exact fun hn => nomatch hn
    intro key' data' he
    obtain ⟨rfl,-⟩ : key = key' ∧ data = data' := by simpa using he
    exact ⟨hused,hpath,fun j d hj hej => hj (honly j d hej)⟩
  · apply hr.lookup_put honly
    intro key' d he
    exact congrArg Prod.fst (some.inj (he.symm.trans hi))
  rw [keys_insert,Finset.insert_eq_of_mem (Finmap.mem_keys.mpr hkey)]
  exact hr.filled

lemma Rep.put (hr : Rep h m) (hkey : key ∉ m) (hroom : h.filled ≠ h.size)
    (hpath : Path h key i) (hi : (h.table i).entry = none) (data : Bytes) :
    Rep {h.setSlot i ⟨hash h.size key,some (key,data)⟩ with filled := h.filled+1}
      (m.insert key data) := by
  have hpos := (hash_range hr.reach.low key).1
  have hnone := hr.not_mem hkey
  constructor
  · apply hr.reach.setSlot i ⟨hash h.size key,some (key,data)⟩ (h.filled+1)
    · dsimp only
      omega
    · exact fun hn => nomatch hn
    intro key' data' he
    obtain ⟨rfl,-⟩ : key = key' ∧ data = data' := by simpa using he
    exact ⟨rfl,hpath,fun j d _ => hnone j d⟩
  · apply hr.lookup_put
    · exact fun j d hj => absurd hj (hnone j d)
    · exact fun key' d he => nomatch hi.symm.trans he
  · rw [keys_insert,Finset.card_insert_of_notMem (fun hmem => hkey (Finmap.mem_keys.mp hmem)), ← hr.filled]
  · exact lt_of_le_of_ne hr.room hroom

/-- The condition under which entering a key is right: the key is there already, all slots have
entries, the first slot of the key has none, or some slot was never used. -/
def Htab.Fits (h : Htab) : Op → Prop
  | .enter key _ => (∃ i < h.size+1, (h.table i).entry.map Prod.fst = some key) ∨
      h.filled = h.size ∨ (h.table (hash h.size key)).entry = none ∨
      ∃ i < h.size+1, 0 < i ∧ (h.table i).used = 0
  | _ => True

/-- The slot that a new entry gets. -/
theorem Rep.enter_new (hr : Rep h m) (hkey : key ∉ m) (data : Bytes)
    (hfits : h.Fits (.enter key data)) (hroom : h.filled ≠ h.size) :
    ∃ h', h.apply (.enter key data) = some (.done,h') ∧ Rep h' (m.insert key data) ∧ h'.size = h.size := by
  obtain ⟨i,hfind,hi⟩ := hr.reach.findSlot_free (hr.not_mem hkey)
  have hpos := (hash_range hr.reach.low key).1
  have hfirst : Path h key (hash h.size key) :=
    ⟨0,hr.reach.prime.pos,rfl,fun l hl => absurd hl (Nat.not_lt_zero l)⟩
  have happly : ∀ j, (if (if (h.table (hash h.size key)).used = -1 then hash h.size key else 0) ≠ 0
        then (if (h.table (hash h.size key)).used = -1 then hash h.size key else 0) else i) = j →
      h.apply (.enter key data) = some (.done,
        {h.setSlot j ⟨hash h.size key,some (key,data)⟩ with filled := h.filled+1}) := by
    rintro j rfl
    rw [Htab.apply,hsearchR]
    rw [hfind]
    dsimp only
    rw [if_pos rfl,if_neg hroom]
    rfl
  by_cases hdel : (h.table (hash h.size key)).used = -1
  · -- the mark of a deleted entry is replaced
    refine ⟨_,happly (hash h.size key) ?_,hr.put hkey hroom hfirst ?_ data,rfl⟩
    · rw [if_pos hdel,if_pos hpos.ne']
    rcases hentry : (h.table (hash h.size key)).entry with _ | ⟨key',data'⟩
    · rfl
    · exact absurd hdel (hr.reach.used_ne hentry).2
  have hslot : Path h key i ∧ (h.table i).used = 0 := by
    rcases hi with hi | ⟨-,hround⟩
    · exact hi
    -- the search went round, so no slot is unused and the first one has an entry
    exfalso
    rcases hfits with ⟨j,-,hj⟩ | hfull | hempty | ⟨j,hj,hjpos,hjused⟩
    · obtain ⟨⟨key',data'⟩,he,rfl⟩ := map_eq_some_iff.mp hj
      exact hr.not_mem hkey j data' he
    · exact hroom hfull
    · rcases hr.reach.idle _ hempty with hzero | hmark
      · exact hround 0 hr.reach.prime.pos hzero
      · exact hdel hmark
    obtain ⟨l,hl,hlj⟩ :=
      exists_slotAt hr.reach.prime hr.reach.low key hjpos (Nat.le_of_lt_succ hj)
    exact hround l hl (hlj ▸ hjused)
  refine ⟨_,happly i ?_,hr.put hkey hroom hslot.1 ?_ data,rfl⟩
  · rw [if_neg hdel,if_neg (not_not.mpr rfl)]
  rcases hentry : (h.table i).entry with _ | ⟨key',data'⟩
  · rfl
  · exact absurd hslot.2 (hr.reach.used_ne hentry).1

lemma Rep.find (hr : Rep h m) (key : Bytes) : h.apply (.find key) = some ((m.apply h.size (.find key)).1,h) := by
  rw [Htab.apply,hsearchR,Env.apply]
  by_cases hkey : key ∈ m
  · obtain ⟨i,data,hi,hdata⟩ := hr.mem hkey
    rw [hr.reach.findSlot_hit hi,hdata]
    dsimp only [Htab.overwrite]
    rw [bind_some]
    dsimp only
    rw [hi]
    rfl
  obtain ⟨i,hfind,-⟩ := hr.reach.findSlot_free (hr.not_mem hkey)
  rw [hfind,Finmap.lookup_eq_none.mpr hkey]
  rfl

lemma Rep.delete (hr : Rep h m) (hkey : key ∈ m) :
    ∃ h', h.apply (.delete key) = some (.done,h') ∧ Rep h' (m.erase key) ∧ h'.size = h.size := by
  obtain ⟨i,data,hi,-⟩ := hr.mem hkey
  refine ⟨{h.setSlot i ⟨-1,none⟩ with filled := h.filled - 1},?_,?_,rfl⟩
  · rw [Htab.apply,hdeleteR,hsearchR]
    rw [hr.reach.findSlot_hit hi]
    rfl
  constructor
  · apply hr.reach.setSlot i ⟨-1,none⟩ (h.filled-1) (by decide) (fun _ => rfl)
    exact fun key' data' he => nomatch he
  · intro key' data'
    by_cases hk : key' = key
    · subst hk
      rw [Finmap.lookup_erase]
      constructor
      · exact fun he => nomatch he
      rintro ⟨j,hj⟩
      rw [entry_setSlot] at hj
      split at hj
      · exact nomatch hj
      rename_i hne
      exact absurd (hr.reach.once j i key' data' data hj hi) hne
    rw [Finmap.lookup_erase_ne hk,hr.lookup]
    constructor
    · rintro ⟨j,hj⟩
      have hne : j ≠ i := by
        rintro rfl
        exact hk (congrArg Prod.fst (some.inj (hj.symm.trans hi)))
      exact ⟨j,by rw [entry_setSlot,if_neg hne,hj]⟩
    rintro ⟨j,hj⟩
    rw [entry_setSlot] at hj
    split at hj
    · exact nomatch hj
    · exact ⟨j,hj⟩
  · rw [Finmap.keys_erase,Finset.card_erase_of_mem (Finmap.mem_keys.mpr hkey),← hr.filled]
  · exact (Nat.sub_le h.filled 1).trans hr.room

/-- A call that meets the condition does what it does to the map. -/
theorem Rep.step (hr : Rep h m) {op : Op} (hfits : h.Fits op) :
    ∃ h', h.apply op = some ((m.apply h.size op).1,h') ∧ Rep h' (m.apply h.size op).2 ∧ h'.size = h.size := by
  cases op with
  | find key =>
    have hsame : (m.apply h.size (.find key)).2 = m := by
      rw [Env.apply]
      split <;> rfl
    exact ⟨h,hr.find key,hsame.symm ▸ hr,rfl⟩
  | delete key =>
    rw [Env.apply]
    by_cases hkey : key ∈ m
    · rw [if_pos hkey]
      exact hr.delete hkey
    obtain ⟨i,hfind,-⟩ := hr.reach.findSlot_free (hr.not_mem hkey)
    rw [if_neg hkey]
    refine ⟨h,?_,hr,rfl⟩
    rw [Htab.apply,hdeleteR,hsearchR]
    rw [hfind]
    rfl
  | enter key data =>
    rw [Env.apply]
    by_cases hkey : key ∈ m
    · rw [if_pos (.inl hkey)]
      exact hr.enter_old hkey data
    by_cases hroom : h.filled = h.size
    · obtain ⟨i,hfind,-⟩ := hr.reach.findSlot_free (hr.not_mem hkey)
      have hfull : ¬(key ∈ m ∨ m.keys.card ≠ h.size) := by
        rw [← hr.filled,hroom]
        exact fun hor => hor.elim hkey fun hne => hne rfl
      rw [if_neg hfull]
      refine ⟨h,?_,hr,rfl⟩
      rw [Htab.apply,hsearchR]
      rw [hfind]
      dsimp only
      rw [if_pos rfl,if_pos hroom]
      rfl
    rw [if_pos (.inr (hr.filled ▸ hroom))]
    exact hr.enter_new hkey data hfits hroom

def Agrees (h : Htab) (m : Env) : Prop :=
  h.filled = m.keys.card ∧ ∀ key data, m.lookup key = some data ↔
    ∃ i, 0 < i ∧ i ≤ h.size ∧ (h.table i).entry = some (key,data)

lemma Rep.agrees (hr : Rep h m) : Agrees h m := by
  refine ⟨hr.filled,fun key data => ?_⟩
  rw [hr.lookup]
  constructor
  · rintro ⟨i,hi⟩
    obtain ⟨hpos,hle⟩ := hr.reach.range hi
    exact ⟨i,hpos,hle,hi⟩
  rintro ⟨i,-,-,hi⟩
  exact ⟨i,hi⟩

def StepAgrees (h : Htab) (m : Env) (op : Op) : Prop :=
  ∃ h', h.apply op = some ((m.apply h.size op).1,h') ∧ Agrees h' (m.apply h.size op).2

/-- Without the condition the entry in the first slot of the new key is lost. -/
theorem Rep.enter_loses (hr : Rep h m) {op : Op} (hfits : ¬h.Fits op) : ¬StepAgrees h m op := by
  cases op with
  | find key | delete key => exact absurd trivial hfits
  | enter key data =>
    simp only [Htab.Fits,not_or,not_exists,not_and] at hfits
    obtain ⟨hnew,hroom,hfirst,hused⟩ := hfits
    have hnone : ∀ i data, (h.table i).entry ≠ some (key,data) := by
      intro i d hi
      refine hnew i (Nat.lt_succ_of_le (hr.reach.range hi).2) ?_
      rw [hi]
      rfl
    obtain ⟨⟨key',data'⟩,hlive⟩ := ne_none_iff_exists'.mp hfirst
    have hround : ∀ i, (Path h key i ∧ (h.table i).used = 0) ∨ (i = hash h.size key ∧
        ∀ m < h.size, (h.table (slotAt h.size key m)).used ≠ 0) → i = hash h.size key := by
      rintro i (⟨⟨m,-,rfl,-⟩,hzero⟩ | ⟨hi,-⟩)
      · obtain ⟨hpos,hle⟩ := slotAt_range hr.reach.low key m
        exact absurd hzero (hused _ (Nat.lt_succ_of_le hle) hpos)
      · exact hi
    obtain ⟨i,hfind,hi⟩ := hr.reach.findSlot_free hnone
    obtain rfl := hround i hi
    have happly : h.apply (.enter key data) = some (.done,
        {h.setSlot (hash h.size key) ⟨hash h.size key,some (key,data)⟩ with
          filled := h.filled+1}) := by
      rw [Htab.apply,hsearchR]
      rw [hfind]
      dsimp only
      rw [if_pos rfl,if_neg hroom,if_neg (hr.reach.used_ne hlive).2,if_neg (not_not.mpr rfl)]
      rfl
    have hkey : key' ≠ key := fun he => hnone _ data' (he ▸ hlive)
    rintro ⟨h',happly',-,hlookup⟩
    rw [happly] at happly'
    obtain ⟨-,rfl⟩ := Prod.mk.inj (some.inj happly')
    have hkept : (m.apply h.size (.enter key data)).2.lookup key' = some data' := by
      rw [Env.apply]
      split
      · rw [Finmap.lookup_insert_of_ne _ hkey]
        exact (hr.lookup key' data').mpr ⟨_,hlive⟩
      · exact (hr.lookup key' data').mpr ⟨_,hlive⟩
    obtain ⟨j,-,-,hj⟩ := (hlookup key' data').mp hkept
    rw [entry_setSlot] at hj
    split at hj
    · exact hkey (congrArg Prod.fst (some.inj hj)).symm
    rename_i hne
    exact hne (hr.reach.once j _ key' data' data' hj hlive)

def Htab.AllFit (h : Htab) : List Op → Prop
  | [] => True
  | op::ops => h.Fits op ∧
      match h.apply op with
      | some r => r.2.AllFit ops
      | none => True

instance (h : Htab) : ∀ op, Decidable (h.Fits op)
  | .enter _ _ => inferInstanceAs (Decidable (_ ∨ _ ∨ _ ∨ _))
  | .find _ => isTrue trivial
  | .delete _ => isTrue trivial

instance decidableAllFit : ∀ (h : Htab) ops, Decidable (h.AllFit ops)
  | _, [] => isTrue trivial
  | h, op::ops =>
    have : Decidable (match h.apply op with
        | some r => r.2.AllFit ops
        | none => True) :=
      match h.apply op with
      | some r => decidableAllFit r.2 ops
      | none => isTrue trivial
    inferInstanceAs (Decidable (_ ∧ _))

lemma Rep.run : ∀ {ops : List Op} {h : Htab} {m : Env}, Rep h m → h.AllFit ops →
    ∃ h', h.run ops = some ((Env.run h.size m ops).1,h') ∧ Rep h' (Env.run h.size m ops).2 ∧ h'.size = h.size := by
  intro ops
  induction ops with
  | nil => exact fun hr _ => ⟨_,rfl,hr,rfl⟩
  | cons op ops ih =>
    intro h m hr hfit
    obtain ⟨h1,happly,hr1,hsize1⟩ := hr.step hfit.1
    have hrest := hfit.2
    rw [happly] at hrest
    obtain ⟨h2,hrun,hr2,hsize2⟩ := ih hr1 hrest
    rw [hsize1] at hrun hr2 hsize2
    refine ⟨h2,?_,hr2,hsize2⟩
    rw [Htab.run,happly,bind_some,hrun]
    rfl

lemma rep_created {size : Nat} (hsize : size.Prime) (hlow : 5 ≤ size) :
    Rep {table := fun _ => ⟨0,none⟩, size := size, filled := 0} ∅ := by
  constructor
  · exact ⟨hsize,hlow,fun _ _ => .inl rfl,fun _ _ _ he => (nomatch he), fun _ _ _ _ _ he => (nomatch he)⟩
  · intro key data
    constructor
    · exact fun he => nomatch he
    rintro ⟨i,hi⟩
    exact nomatch hi
  · rfl
  · exact Nat.zero_le _

/-- A table that fits into the memory behaves as a map of at most `size` keys in every run whose
calls meet the condition, and in a state reached by such a run exactly the calls that meet it
behave so. -/
theorem table_behaves_as_map (nel : Nat) (hlow : 64 ≤ nel) (hhigh : nel ≤ 2^27) :
    ∃ h, hcreateR nel none = some h ∧ nel ≤ h.size ∧ ∀ ops, h.AllFit ops →
      ∃ h', h.run ops = some ((Env.run h.size ∅ ops).1,h') ∧ Agrees h' (Env.run h.size ∅ ops).2 ∧
        h'.filled ≤ h.size ∧ h'.size = h.size ∧ ∀ op, StepAgrees h' (Env.run h.size ∅ ops).2 op ↔ h'.Fits op := by
  obtain ⟨size,hprime,hge,-,hcreate⟩ := hcreateR_spec hlow hhigh
  refine ⟨_,hcreate,hge,fun ops hfit => ?_⟩
  obtain ⟨h',hrun,hr,hsize⟩ := (rep_created hprime (by omega)).run hfit
  refine ⟨h',hrun,hr.agrees,hsize ▸ hr.room,hsize,fun op => ?_⟩
  constructor
  · intro hstep
    by_contra hfits
    exact hr.enter_loses hfits hstep
  intro hfits
  obtain ⟨h'',happly,hr',-⟩ := hr.step hfits
  exact ⟨h'',happly,hr'.agrees⟩

/-- Keys of one byte, with a slot of its own for each in a table of 67 slots, and one more key,
which gets the last slot. -/
def fillTable : List Op :=
  (List.range 66).map (fun i => .enter [UInt8.ofNat (i+52)] [1])++[.enter [51] [1]]

/-- In a table without unused slots one key is deleted. The next one that is entered overwrites
another. -/
theorem enter_overwrites_another_key :
    ((hcreateR 64 none).bind fun h => (h.run (fillTable++[.delete [53],.enter [121] [2],
      .find [54]])).bind fun r => r.1.getLast?) = some .failed ∧
    (Env.run 67 ∅ (fillTable++[.delete [53],.enter [121] [2],.find [54]])).1.getLast? = some (.data [1]) := by
  decide +kernel

theorem table_behaves_as_map_after_delete : ∃ h, hcreateR 64 none = some h ∧
      ∃ h', h.run [.enter [65] [1],.enter [66] [2],.delete [65],.find [66]] =
          some ([.done,.done,.done,.data [2]],h') ∧ h'.filled = 1 := by
  obtain ⟨h,hcreate,-,hruns⟩ := table_behaves_as_map 64 (by decide) (by decide)
  have hfit : ∀ h, hcreateR 64 none = some h →
      h.AllFit [.enter [65] [1],.enter [66] [2],.delete [65],.find [66]] := by
    have hall : ∀ h ∈ hcreateR 64 none, h.AllFit [.enter [65] [1],.enter [66] [2],.delete [65],.find [66]] := by
      decide +kernel
    exact fun h hh => hall h hh
  have hsize : (hcreateR 64 none).map Htab.size = some 67 := by decide +kernel
  rw [hcreate] at hsize
  obtain ⟨h',hrun,hagree,-⟩ := hruns _ (hfit h hcreate)
  rw [some.inj hsize] at hrun hagree
  refine ⟨h,hcreate,h',hrun.trans ?_,hagree.1.trans (by decide +kernel)⟩
  exact congrArg (fun answers => some (answers,h')) (by decide +kernel)

end LinuxToradex.Hashtable

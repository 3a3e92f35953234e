import CS352.Verification.Blocks.Ownership

/-! # Runs of calls on inodes -/

namespace CS352.Blocks

open Ownership Transition Function

variable {sb : Superblock} {busy : Option ℕ} {d d' : Disk} {i k b : ℕ} {s : Slot}

/-! ## Reading and writing -/

/-- Overwriting a file block changes no address. -/
theorem grows_setBlock (data : ℕ → ℕ) (h : Inv sb busy d) (hs : s ≠ .pointer)
    (hb : held d (i, s) = some b) : Grows sb i d (d.setBlock b data) := by
  have hheld : held (d.setBlock b data) = held d := by
    funext p
    obtain ⟨k, t⟩ := p
    refine held_congr rfl fun a ha => ?_
    have hab : a ≠ b := by
      intro hab
      subst hab
      exact hs (congrArg Prod.snd (h.owns.once hb ha))
    exact update_of_ne hab _ _
  refine ⟨frame_setBlock, fun _ hc => hc, ?_, ?_⟩
  · rw [hheld]
    exact fun _ _ hp => hp
  · rw [hheld]
    exact h.owns

/-- One pass of a loop stays within one block. -/
theorem PresentBelow.extend {off tot n : ℕ} (h : PresentBelow d i off)
    (hp : Present d i (off / bsize)) : PresentBelow d i (off + chunk off tot n) := by
  have hchunk : chunk off tot n ≤ bsize - off % bsize := Nat.min_le_right _ _
  intro bn hbn
  by_cases hlow : bn * bsize < off
  · exact h bn hlow
  · have heq : bn = off / bsize := by
      unfold bsize at *
      omega
    exact heq ▸ hp

theorem writeLoop_spec (copyin : ℕ → Copyin) (n : ℕ) (hsb : sb.nblocks < sb.size) :
    ∀ (d : Disk) (off tot : ℕ), Inv sb (some i) d → Loaded d i → PresentBelow d i off →
      off + (n - tot) ≤ maxfile * bsize →
      ∃ r, writeLoop sb d i copyin n off tot = .ok r ∧ Grows sb i d r.1 ∧
        PresentBelow r.1 i r.2.1 := by
  intro d off tot
  -- The induction is on the bytes that are left.
  induction hm : n - tot using Nat.strongRecOn generalizing d off tot with
  | ind m ih =>
    intro h hl hp hbound
    rw [writeLoop]
    by_cases htot : tot < n
    · rw [dif_pos htot]
      have hbn : off / bsize < maxfile := by
        rw [Nat.div_lt_iff_lt_mul (by decide)]
        omega
      obtain ⟨r, hr, hgrows, hheld⟩ := bmap_spec h hsb hl hbn
      simp only [hr, Except.bind]
      by_cases hzero : r.2 = 0
      · rw [if_pos hzero]
        exact ⟨_, rfl, hgrows, hgrows.presentBelow hp⟩
      · rw [if_neg hzero]
        obtain ⟨s, hslot, hs⟩ := hheld hzero
        have hdata := grows_setBlock (copyin tot).data (hgrows.inv h)
          (slotOf_ne_pointer hslot) hs
        have hgrows' := hgrows.trans hdata
        have hp' := hgrows'.presentBelow hp
        by_cases hok : (copyin tot).ok = false
        · rw [if_pos hok]
          exact ⟨_, rfl, hgrows', hp'⟩
        · rw [if_neg hok]
          have hchunk : chunk off tot n ≤ n - tot := Nat.min_le_left _ _
          have hpos := chunk_pos off htot
          have hpass : PresentBelow (r.1.setBlock r.2 (copyin tot).data) i
              (off + chunk off tot n) :=
            hp'.extend ⟨s, r.2, hslot, hdata.held_le _ _ hs⟩
          obtain ⟨r', hr', hrest, hpr⟩ := ih (n - (tot + chunk off tot n)) (by omega) _
            (off + chunk off tot n) (tot + chunk off tot n) rfl (hgrows'.inv h)
            (hgrows'.loaded_iff.mpr hl) hpass (by omega)
          exact ⟨r', hr', hgrows'.trans hrest, hpr⟩
    · rw [dif_neg htot]
      exact ⟨_, rfl, Grows.refl h i, hp⟩

theorem readLoop_spec {copyout : ℕ → Bool} {n : ℕ} :
    ∀ off tot : ℕ, Inv sb busy d → Loaded d i → PresentBelow d i (off + (n - tot)) →
      ∃ v, readLoop sb d i copyout n off tot = .ok (d, v) := by
  intro off tot
  induction hm : n - tot using Nat.strongRecOn generalizing off tot with
  | ind m ih =>
    intro h hl hp
    rw [readLoop]
    by_cases htot : tot < n
    · rw [dif_pos htot]
      have hpos := chunk_pos off htot
      have hchunk : chunk off tot n ≤ n - tot := Nat.min_le_left _ _
      have hstart : off / bsize * bsize ≤ off := Nat.div_mul_le_self _ _
      obtain ⟨b, hb, heq⟩ := bmap_present h hl (hp (off / bsize) (by omega))
      simp only [heq, Except.bind, hb, if_false]
      by_cases hok : copyout tot = false
      · rw [if_pos hok]
        exact ⟨_, rfl⟩
      · rw [if_neg hok]
        apply ih (n - (tot + chunk off tot n)) (by omega) _ _ rfl h hl
        intro bn hbn
        exact hp bn (by omega)
    · rw [dif_neg htot]
      exact ⟨_, rfl⟩

/-- The sum of two `uint` values does not wrap if it is not below the first. -/
theorem uint_add {off n : ℕ} (hoff : off < 2 ^ 32) (hn : n < 2 ^ 32)
    (h : ¬ uint (off + n) < off) : uint (off + n) = off + n := by
  unfold uint at *
  omega

theorem uint_lt (n : ℕ) : uint n < 2 ^ 32 := Nat.mod_lt _ (by decide)

theorem Inv.presentBelow (h : Inv sb none d) (hl : Loaded d i) :
    PresentBelow d i (d.inode i).copy.size := by
  have hp := h.present i (by simp)
  rw [live_of_loaded hl] at hp
  exact hp (h.typed i hl)

/-- Reading changes nothing on disk or in the inode. -/
theorem readi_spec (copyout : ℕ → Bool) {off n : ℕ} (h : Inv sb none d) (hl : Loaded d i)
    (hoff : off < 2 ^ 32) (hn : n < 2 ^ 32) :
    ∃ v, readi sb d i copyout off n = .ok (d, v) := by
  have hpresent := h.presentBelow hl
  unfold readi
  by_cases hrange : off > (d.inode i).copy.size ∨ uint (off + n) < off
  · rw [if_pos hrange]
    exact ⟨_, rfl⟩
  · rw [if_neg hrange]
    obtain ⟨hsize, hwrap⟩ := not_or.mp hrange
    have hsum := uint_add hoff hn hwrap
    apply readLoop_spec off 0 h hl
    intro bn hbn
    apply hpresent bn
    split at hbn <;> omega

/-! ## Writing an inode back -/

theorem loaded_setCopy {x : Dinode} : Loaded (d.setCopy i x) k ↔ Loaded d k := by
  by_cases hk : k = i
  · subst hk
    simp [Loaded, Disk.setCopy, Disk.setInode]
  · simp [Loaded, Disk.setCopy, Disk.setInode, update_of_ne hk]

theorem setCopy_copy {x : Dinode} : ((d.setCopy i x).inode i).copy = x := by
  simp [Disk.setCopy, Disk.setInode]

theorem setCopy_inode_ne {x : Dinode} (hk : k ≠ i) : (d.setCopy i x).inode k = d.inode k :=
  update_of_ne hk _ _

/-- A call ends by writing the inode back, with other values for the fields that are neither
its type nor an address. -/
theorem Inv.writeBack {x : Dinode} (h : Inv sb (some i) d) (hl : Loaded d i)
    (htype : x.type = (d.inode i).copy.type) (haddrs : x.addrs = (d.inode i).copy.addrs)
    (hpresent : PresentBelow d i x.size) : Inv sb none (iupdate (d.setCopy i x) i) := by
  have hcopy : ((iupdate (d.setCopy i x) i).inode i).copy = x := setCopy_copy
  have hdinode : (iupdate (d.setCopy i x) i).dinode i = x := by
    simp [iupdate, setCopy_copy]
  have hinode_ne : ∀ k, k ≠ i → (iupdate (d.setCopy i x) i).inode k = d.inode k :=
    fun k hk => setCopy_inode_ne hk
  have hdinode_ne : ∀ k, k ≠ i → (iupdate (d.setCopy i x) i).dinode k = d.dinode k :=
    fun k hk => update_of_ne hk _ _
  have hloaded : ∀ k, Loaded (iupdate (d.setCopy i x) i) k ↔ Loaded d k :=
    fun k => loaded_setCopy
  have htyped : ∀ k, Loaded (iupdate (d.setCopy i x) i) k →
      ((iupdate (d.setCopy i x) i).inode k).copy.type ≠ .free := by
    intro k hk
    by_cases hki : k = i
    · subst hki
      rw [hcopy, htype]
      exact h.typed k hl
    · rw [hinode_ne k hki]
      exact h.typed k ((hloaded k).mp hk)
  have hlive_ne : ∀ k, k ≠ i → live (iupdate (d.setCopy i x) i) k = live d k :=
    fun k hk => live_congr (hinode_ne k hk) (hdinode_ne k hk)
  have hheld : held (iupdate (d.setCopy i x) i) = held d := by
    funext p
    obtain ⟨k, s⟩ := p
    by_cases hki : k = i
    · subst hki
      have hl' := (hloaded k).mpr hl
      rw [h.held_loaded hl, Blocks.held_loaded hl' (htyped k hl'), hcopy]
      cases s <;> simp only [slots, haddrs]
      rfl
    · exact held_congr (hlive_ne k hki) fun _ _ => rfl
  refine ⟨h.reserved, ?_, ?_, ?_, htyped⟩
  · rw [hheld]
    exact h.owns
  · intro k _ ht
    by_cases hki : k = i
    · subst hki
      rw [live_of_loaded ((hloaded k).mpr hl), hcopy]
      exact hpresent.mono fun s b hb => hheld ▸ hb
    · rw [hlive_ne k hki] at ht ⊢
      exact (h.present k (by simpa using Ne.symm hki) ht).mono fun s b hb => hheld ▸ hb
  · intro k _ hk
    by_cases hki : k = i
    · subst hki
      rw [hcopy, hdinode]
    · rw [hinode_ne k hki, hdinode_ne k hki]
      exact h.synced k (by simpa using Ne.symm hki) ((hloaded k).mp hk)

theorem writei_spec (copyin : ℕ → Copyin) {off n : ℕ} (h : Inv sb none d)
    (hsb : sb.nblocks < sb.size) (hl : Loaded d i) (hoff : off < 2 ^ 32) (hn : n < 2 ^ 32) :
    ∃ r, writei sb d i copyin off n = .ok r ∧ Inv sb none r.1 := by
  have hpresent := h.presentBelow hl
  unfold writei
  by_cases hrange : off > (d.inode i).copy.size ∨ uint (off + n) < off
  · rw [if_pos hrange]
    exact ⟨_, rfl, h⟩
  · rw [if_neg hrange]
    obtain ⟨hsize, hwrap⟩ := not_or.mp hrange
    have hsum := uint_add hoff hn hwrap
    by_cases hmax : uint (off + n) > maxfile * bsize
    · rw [if_pos hmax]
      exact ⟨_, rfl, h⟩
    · rw [if_neg hmax]
      have hbelow : PresentBelow d i off := fun bn hbn => hpresent bn (by omega)
      obtain ⟨r, hr, hgrows, hp⟩ := writeLoop_spec copyin n hsb d off 0
        (h.weaken i) hl hbelow (by omega)
      rw [hr]
      have hend : PresentBelow r.1 i
          (if r.2.1 > (r.1.inode i).copy.size then r.2.1 else (r.1.inode i).copy.size) := by
        split
        · exact hp
        · rw [hgrows.size_eq]
          exact hgrows.presentBelow hpresent
      exact ⟨_, rfl, (hgrows.inv (h.weaken i)).writeBack (hgrows.loaded_iff.mpr hl)
        (x := { (r.1.inode i).copy with
          size := if r.2.1 > (r.1.inode i).copy.size then r.2.1 else (r.1.inode i).copy.size })
        rfl rfl hend⟩

/-! ## Truncation -/

theorem bfree_ok (hb : d.bitmap b = true) :
    bfree d b = .ok { d with bitmap := update d.bitmap b false } := by
  simp [bfree, hb]

/-- Slots of inode `i` give up their blocks. -/
theorem Inv.release (h : Inv sb (some i) d) (hf : Frame i d d') (S : Slot → Prop)
    (hout : ∀ s, S s → held d' (i, s) = none)
    (hin : ∀ s, ¬ S s → held d' (i, s) = held d (i, s)) (hblock : d'.block = d.block)
    (hbits : ∀ b, d'.bitmap b = true ↔ d.bitmap b = true ∧ ∀ s, S s → held d (i, s) ≠ some b) :
    Inv sb (some i) d' := by
  have hne : ∀ k s, k ≠ i → held d' (k, s) = held d (k, s) :=
    fun k s hk => held_congr (hf.live_eq hk) fun a _ => by rw [hblock]
  apply h.frame hf
  · intro b hb
    refine (hbits b).mpr ⟨h.reserved b hb, ?_⟩
    intro s _ hs
    have hdata := (h.owns.inDom hs).1
    omega
  · apply h.owns.release fun p => p.1 = i ∧ S p.2
    · rintro ⟨k, s⟩ ⟨rfl, hs⟩
      exact hout s hs
    · rintro ⟨k, s⟩ hp
      by_cases hk : k = i
      · subst hk
        exact hin s fun hs => hp ⟨rfl, hs⟩
      · exact hne k s hk
    · intro b
      rw [hbits b]
      constructor
      · rintro ⟨hb, hfree⟩
        refine ⟨hb, ?_⟩
        rintro ⟨k, s⟩ ⟨rfl, hs⟩
        exact hfree s hs
      · rintro ⟨hb, hfree⟩
        exact ⟨hb, fun s hs => hfree (i, s) ⟨rfl, hs⟩⟩
  · intro k s b hk hb
    rw [hne k s hk]
    exact hb

/-- The disk with another bitmap and a slot of `addrs` cleared. -/
def dropAddr (d : Disk) (bits : ℕ → Bool) (i k : ℕ) : Disk :=
  ({ d with bitmap := bits } : Disk).setAddr i k 0

theorem frame_dropAddr {bits : ℕ → Bool} : Frame i d (dropAddr d bits i k) := by
  have hbits : Frame i d { d with bitmap := bits } := ⟨rfl, fun _ _ => rfl, _, rfl⟩
  exact hbits.trans frame_setAddr

theorem dropAddr_addrs {bits : ℕ → Bool} :
    ((dropAddr d bits i k).inode i).copy.addrs =
      update (d.inode i).copy.addrs k 0 := setAddr_addrs

theorem held_dropAddr {bits : ℕ → Bool} (h : Inv sb busy d) (hl : Loaded d i) :
    held (dropAddr d bits i k) (i, s) =
      slots d.block { (d.inode i).copy with
        addrs := update (d.inode i).copy.addrs k 0 } s := by
  have hf : Frame i d (dropAddr d bits i k) := frame_dropAddr
  have ht : ((dropAddr d bits i k).inode i).copy.type ≠ .free := by
    rw [hf.type_eq]
    exact h.typed i hl
  rw [Blocks.held_loaded (hf.loaded_iff.mpr hl) ht]
  cases s <;> simp only [slots, dropAddr_addrs]
  rfl

/-- Freeing one direct block. -/
theorem Inv.dropDirect (h : Inv sb (some i) d) (hl : Loaded d i) (hk : k < ndirect)
    (hne : (d.inode i).copy.addrs k ≠ 0) :
    Inv sb (some i)
      (dropAddr d (update d.bitmap ((d.inode i).copy.addrs k) false) i k) := by
  have hold : held d (i, .direct ⟨k, hk⟩) = some ((d.inode i).copy.addrs k) := by
    rw [h.held_loaded hl]
    exact nonzero_of_ne hne
  apply h.release frame_dropAddr fun s => s = .direct ⟨k, hk⟩
  · intro s hs
    rw [hs, held_dropAddr h hl]
    simp [slots]
  · intro s hs
    rw [held_dropAddr h hl, h.held_loaded hl]
    have hpointer : ndirect ≠ k := by omega
    cases s with
    | direct m =>
      have hm : (m : ℕ) ≠ k := fun hmk => hs (congrArg Slot.direct (Fin.ext hmk))
      simp [slots, update_of_ne hm]
    | pointer => simp [slots, update_of_ne hpointer]
    | entry m => simp [slots, update_of_ne hpointer]
  · rfl
  · intro b
    simp only [forall_eq, hold, ne_eq, Option.some.injEq]
    show update d.bitmap ((d.inode i).copy.addrs k) false b = true ↔ _
    by_cases hb : b = (d.inode i).copy.addrs k
    · simp [hb]
    · simp [update_of_ne hb, Ne.symm hb]

theorem freeDirect_spec {ks : List ℕ} (hks : ∀ k ∈ ks, k < ndirect) :
    ∀ d : Disk, Inv sb (some i) d → Loaded d i →
      ∃ d', freeDirect d i ks = .ok d' ∧ Inv sb (some i) d' ∧ Loaded d' i ∧
        ∀ k, (d'.inode i).copy.addrs k = if k ∈ ks then 0 else (d.inode i).copy.addrs k := by
  induction ks with
  | nil => exact fun d h hl => ⟨d, rfl, h, hl, by simp⟩
  | cons k ks ih =>
    intro d h hl
    have hk : k < ndirect := hks k (by simp)
    have hrest : ∀ k ∈ ks, k < ndirect := fun m hm => hks m (by simp [hm])
    by_cases hzero : (d.inode i).copy.addrs k = 0
    · obtain ⟨d', hd', hinv, hl', haddrs⟩ := ih hrest d h hl
      refine ⟨d', by simp only [freeDirect, hzero, if_true, hd'], hinv, hl', ?_⟩
      intro m
      rw [haddrs m]
      by_cases hm : m = k
      · simp [hm, hzero]
      · simp [hm]
    · have hmarked : d.bitmap ((d.inode i).copy.addrs k) = true := by
        apply h.owns.marked (p := (i, .direct ⟨k, hk⟩))
        rw [h.held_loaded hl]
        exact nonzero_of_ne hzero
      have hdrop := h.dropDirect hl hk hzero
      obtain ⟨d', hd', hinv, hl', haddrs⟩ := ih hrest _ hdrop (frame_dropAddr.loaded_iff.mpr hl)
      refine ⟨d', ?_, hinv, hl', ?_⟩
      · simp only [freeDirect, hzero, if_false, bfree_ok hmarked, Except.bind]
        exact hd'
      · intro m
        rw [haddrs m, dropAddr_addrs]
        by_cases hm : m = k
        · simp [hm]
        · simp [hm]

/-- Distinct blocks in use can be freed one after the other. -/
theorem freeEntries_spec {a : ℕ → ℕ} {js : List ℕ} (hnodup : js.Nodup) :
    ∀ d : Disk, (∀ j ∈ js, a j ≠ 0 → d.bitmap (a j) = true) →
      (∀ j ∈ js, ∀ m ∈ js, a j ≠ 0 → a j = a m → j = m) →
      ∃ bits, freeEntries d a js = .ok { d with bitmap := bits } ∧
        ∀ b, bits b = true ↔ d.bitmap b = true ∧ ∀ j ∈ js, a j ≠ 0 → a j ≠ b := by
  induction js with
  | nil => exact fun d _ _ => ⟨d.bitmap, rfl, by simp⟩
  | cons j js ih =>
    intro d hused hdistinct
    obtain ⟨hj, hnodup⟩ := List.nodup_cons.mp hnodup
    have hdistinct' : ∀ n ∈ js, ∀ m ∈ js, a n ≠ 0 → a n = a m → n = m :=
      fun n hn m hm => hdistinct n (by simp [hn]) m (by simp [hm])
    by_cases hzero : a j = 0
    · obtain ⟨bits, hbits, hiff⟩ :=
        ih hnodup d (fun m hm => hused m (by simp [hm])) hdistinct'
      exact ⟨bits, by simp only [freeEntries, hzero, if_true, hbits], by simp [hiff, hzero]⟩
    · have hother : ∀ m ∈ js, a m ≠ 0 → a m ≠ a j := by
        intro m hm hne heq
        have hmj := hdistinct m (by simp [hm]) j (by simp) hne heq
        exact hj (hmj ▸ hm)
      obtain ⟨bits, hbits, hiff⟩ := ih hnodup
        { d with bitmap := update d.bitmap (a j) false } (by
          intro m hm hne
          simp only [update_of_ne (hother m hm hne)]
          exact hused m (by simp [hm]) hne) hdistinct'
      refine ⟨bits, ?_, ?_⟩
      · simp only [freeEntries, hzero, if_false, bfree_ok (hused j (by simp) hzero), Except.bind,
          hbits]
      · intro b
        rw [hiff b]
        by_cases hb : b = a j
        · simp [hb, hzero]
        · simp [update_of_ne hb, hzero, Ne.symm hb]

theorem freeIndirect_spec (h : Inv sb (some i) d) (hl : Loaded d i) :
    ∃ d', freeIndirect d i = .ok d' ∧ Inv sb (some i) d' ∧ Loaded d' i ∧
      ∀ k, (d'.inode i).copy.addrs k = if k = ndirect then 0 else (d.inode i).copy.addrs k := by
  by_cases hzero : (d.inode i).copy.addrs ndirect = 0
  · refine ⟨d, by simp only [freeIndirect, hzero, if_true], h, hl, ?_⟩
    intro k
    by_cases hk : k = ndirect
    · simp [hk, hzero]
    · simp [hk]
  · have hpointer : held d (i, .pointer) = some ((d.inode i).copy.addrs ndirect) := by
      rw [h.held_loaded hl]
      exact nonzero_of_ne hzero
    have hentry : ∀ j (hj : j < nindirect), d.block ((d.inode i).copy.addrs ndirect) j ≠ 0 →
        held d (i, .entry ⟨j, hj⟩) = some (d.block ((d.inode i).copy.addrs ndirect) j) := by
      intro j hj hne
      rw [h.held_loaded hl]
      simp [slots, hzero, nonzero_of_ne hne]
    obtain ⟨bits, hbits, hiff⟩ := freeEntries_spec (a := d.block ((d.inode i).copy.addrs ndirect))
      (List.nodup_range (n := nindirect)) d
      (fun j hj hne => h.owns.marked (hentry j (List.mem_range.mp hj) hne)) (by
        intro j hj m hm hne heq
        have hj := List.mem_range.mp hj
        have hm := List.mem_range.mp hm
        have hplace := h.owns.once (hentry j hj hne) (heq ▸ hentry m hm (heq ▸ hne))
        simpa using hplace)
    have hlast : bits ((d.inode i).copy.addrs ndirect) = true := by
      refine (hiff _).mpr ⟨h.owns.marked hpointer, ?_⟩
      intro j hj hne heq
      have hplace := h.owns.once (hentry j (List.mem_range.mp hj) hne) (heq ▸ hpointer)
      simp at hplace
    have hfree : freeIndirect d i = .ok
        (dropAddr d (update bits ((d.inode i).copy.addrs ndirect) false) i ndirect) := by
      have hbfree := bfree_ok (d := { d with bitmap := bits }) hlast
      simp only [freeIndirect, hzero, if_false, hbits, bind, Except.bind, hbfree]
      rfl
    refine ⟨_, hfree, ?_, frame_dropAddr.loaded_iff.mpr hl, ?_⟩
    · apply h.release frame_dropAddr fun s => s = .pointer ∨ ∃ j, s = .entry j
      · intro s hs
        rw [held_dropAddr h hl]
        rcases hs with rfl | ⟨j, rfl⟩ <;> simp [slots]
      · intro s hs
        cases s with
        | direct m =>
          have hm : (m : ℕ) ≠ ndirect := Nat.ne_of_lt m.isLt
          rw [held_dropAddr h hl, h.held_loaded hl]
          simp [slots, update_of_ne hm]
        | pointer => simp at hs
        | entry j => simp at hs
      · rfl
      · intro b
        show update bits ((d.inode i).copy.addrs ndirect) false b = true ↔ _
        by_cases hb : b = (d.inode i).copy.addrs ndirect
        · simp only [hb, update_self, Bool.false_eq_true, false_iff, not_and]
          intro _ hall
          exact hall .pointer (.inl rfl) hpointer
        · rw [update_of_ne hb, hiff b]
          refine and_congr_right fun _ => ⟨?_, ?_⟩
          · intro hall s hs
            rcases hs with rfl | ⟨j, rfl⟩
            · rw [hpointer]
              simpa using Ne.symm hb
            · rw [h.held_loaded hl]
              intro heq
              simp only [slots, hzero, if_false] at heq
              obtain ⟨hne, heq⟩ := nonzero_eq_some.mp heq
              exact hall j (List.mem_range.mpr j.isLt) hne heq
          · intro hall j hj hne heq
            have hj := List.mem_range.mp hj
            exact hall (.entry ⟨j, hj⟩) (.inr ⟨_, rfl⟩) (heq ▸ hentry j hj hne)
    · intro k
      rw [dropAddr_addrs]
      by_cases hk : k = ndirect
      · simp [hk]
      · simp [hk]

/-- `itrunc` never panics and leaves an inode without blocks. -/
theorem itrunc_spec (h : Inv sb none d) (hl : Loaded d i) :
    ∃ d', itrunc d i = .ok d' ∧ Inv sb none d' ∧ Loaded d' i ∧ (∀ s, held d' (i, s) = none) := by
  obtain ⟨d₁, hd₁, hinv₁, hl₁, haddrs₁⟩ :=
    freeDirect_spec (fun k hk => List.mem_range.mp hk) d (h.weaken i) hl
  obtain ⟨d₂, hd₂, hinv₂, hl₂, haddrs₂⟩ := freeIndirect_spec hinv₁ hl₁
  have hok : itrunc d i = .ok (iupdate (d₂.setCopy i { (d₂.inode i).copy with size := 0 }) i) := by
    simp only [itrunc, hd₁, hd₂, bind, Except.bind, pure, Except.pure]
  have hinv := hinv₂.writeBack (x := { (d₂.inode i).copy with size := 0 }) hl₂ rfl rfl
    (fun bn hbn => by simp at hbn)
  have hl₃ : Loaded (iupdate (d₂.setCopy i { (d₂.inode i).copy with size := 0 }) i) i :=
    loaded_setCopy.mpr hl₂
  refine ⟨_, hok, hinv, hl₃, ?_⟩
  have hzero : ∀ k ≤ ndirect, (d₂.inode i).copy.addrs k = 0 := by
    intro k hk
    rw [haddrs₂ k, haddrs₁ k]
    by_cases heq : k = ndirect
    · simp [heq]
    · have hlt : k < ndirect := by omega
      simp [hlt]
  intro s
  rw [hinv.held_loaded hl₃]
  have hcopy : ((iupdate (d₂.setCopy i { (d₂.inode i).copy with size := 0 }) i).inode i).copy =
    { (d₂.inode i).copy with size := 0 } := setCopy_copy
  rw [hcopy]
  cases s with
  | direct k => simp [slots, hzero k (Nat.le_of_lt k.isLt)]
  | pointer => simp [slots, hzero ndirect (Nat.le_refl _)]
  | entry j => simp [slots, hzero ndirect (Nat.le_refl _)]

/-! ## The inode table -/

theorem Inv.live_eq_dinode (h : Inv sb none d) (i : ℕ) : live d i = d.dinode i := by
  by_cases hl : Loaded d i
  · rw [live_of_loaded hl, h.synced i (by simp) hl]
  · exact live_of_not_loaded hl

/-- Nothing changes when the same inode is seen through its copy or on disk. -/
theorem Inv.of_live (h : Inv sb none d) (hbitmap : d'.bitmap = d.bitmap)
    (hblock : d'.block = d.block) (hlive : live d' = live d)
    (hsynced : ∀ i, Loaded d' i → (d'.inode i).copy = d'.dinode i)
    (htyped : ∀ i, Loaded d' i → (d'.inode i).copy.type ≠ .free) : Inv sb none d' := by
  have hheld : held d' = held d := by
    funext p
    exact held_congr (congrFun hlive p.1) fun a _ => by rw [hblock]
  refine ⟨?_, ?_, ?_, fun i _ => hsynced i, htyped⟩
  · rw [hbitmap]
    exact h.reserved
  · rw [hbitmap, hheld]
    exact h.owns
  · intro i _ ht
    rw [hlive] at ht ⊢
    exact (h.present i (by simp) ht).mono fun s b hb => hheld ▸ hb

/-- One entry of the inode table is replaced by one that shows the same inode. -/
theorem Inv.setInode {x : Inode} (h : Inv sb none d)
    (hsynced : 0 < x.ref → x.valid = true → x.copy = d.dinode i)
    (htyped : 0 < x.ref → x.valid = true → x.copy.type ≠ .free) :
    Inv sb none (d.setInode i x) := by
  have hinode_ne : ∀ k, k ≠ i → (d.setInode i x).inode k = d.inode k :=
    fun k hk => update_of_ne hk _ _
  have hinode : (d.setInode i x).inode i = x := update_self ..
  have hloaded : Loaded (d.setInode i x) i ↔ 0 < x.ref ∧ x.valid = true := by
    rw [Loaded, hinode]
  refine h.of_live rfl rfl ?_ ?_ ?_
  · funext k
    by_cases hk : k = i
    · subst hk
      have hnew : live (d.setInode k x) k = d.dinode k := by
        by_cases hl : Loaded (d.setInode k x) k
        · obtain ⟨href, hvalid⟩ := hloaded.mp hl
          rw [live_of_loaded hl, hinode, hsynced href hvalid]
        · rw [live_of_not_loaded hl]
          rfl
      rw [hnew, h.live_eq_dinode]
    · exact live_congr (hinode_ne k hk) rfl
  · intro k hl
    by_cases hk : k = i
    · subst hk
      rw [hinode]
      exact hsynced (hloaded.mp hl).1 (hloaded.mp hl).2
    · rw [Loaded, hinode_ne k hk] at hl
      rw [hinode_ne k hk]
      exact h.synced k (by simp) hl
  · intro k hl
    by_cases hk : k = i
    · subst hk
      rw [hinode]
      exact htyped (hloaded.mp hl).1 (hloaded.mp hl).2
    · rw [Loaded, hinode_ne k hk] at hl
      rw [hinode_ne k hk]
      exact h.typed k hl

theorem iget_inv (h : Inv sb none d) (hd : iget sb d i = .ok d') : Inv sb none d' := by
  unfold iget at hd
  split at hd
  · rename_i href
    rw [← Except.ok.inj hd]
    exact h.setInode (fun _ hvalid => h.synced i (by simp) ⟨href, hvalid⟩)
      fun _ hvalid => h.typed i ⟨href, hvalid⟩
  · split at hd
    · cases hd
    · rw [← Except.ok.inj hd]
      exact h.setInode (by simp) (by simp)

theorem iget_ne_error (sb : Superblock) (d : Disk) (i : ℕ) :
    iget sb d i ≠ .error .freeingFreeBlock := by
  unfold iget
  split
  · simp
  · split <;> simp

theorem ilock_inv (h : Inv sb none d) (hd : ilock d i = .ok d') : Inv sb none d' := by
  unfold ilock at hd
  split at hd
  · cases hd
  · split at hd
    · rwa [← Except.ok.inj hd]
    · split at hd
      · cases hd
      · rename_i ht
        rw [← Except.ok.inj hd]
        exact h.setInode (fun _ _ => rfl) fun _ _ => ht

/-- An inode without blocks changes its type, on disk only. -/
theorem Inv.setDinode {x : Dinode} (h : Inv sb none d) (hl : ¬ Loaded d i)
    (hold : ∀ s, held d (i, s) = none) (hnew : x.type = .free ∨ x = newDinode x.type) :
    Inv sb none { d with dinode := update d.dinode i x } := by
  have hlive_ne : ∀ k, k ≠ i →
      live { d with dinode := update d.dinode i x } k = live d k :=
    fun k hk => live_congr rfl (update_of_ne hk _ _)
  have hlive : live { d with dinode := update d.dinode i x } i = x := by
    exact (live_of_not_loaded (d := { d with dinode := update d.dinode i x }) hl).trans
      (update_self ..)
  have hheld : held { d with dinode := update d.dinode i x } = held d := by
    funext p
    obtain ⟨k, s⟩ := p
    by_cases hk : k = i
    · subst hk
      rw [hold s, held, hlive]
      rcases hnew with hfree | heq
      · rw [if_pos hfree]
      · rw [heq]
        split <;> cases s <;> simp [slots, newDinode]
    · exact held_congr (hlive_ne k hk) fun _ _ => rfl
  refine ⟨h.reserved, hheld ▸ h.owns, ?_, ?_, h.typed⟩
  · intro k _ ht
    by_cases hk : k = i
    · subst hk
      rw [hlive] at ht ⊢
      rcases hnew with hfree | heq
      · exact absurd hfree ht
      · intro bn hbn
        rw [heq] at hbn
        simp [newDinode] at hbn
    · rw [hlive_ne k hk] at ht ⊢
      exact (h.present k (by simp) ht).mono fun s b hb => hheld ▸ hb
  · intro k _ hk
    have hki : k ≠ i := fun hki => hl (hki ▸ hk)
    exact (h.synced k (by simp) hk).trans (update_of_ne hki _ _).symm

theorem ialloc_ne_error (sb : Superblock) (d : Disk) (type : FileType) :
    ialloc sb d type ≠ .error .freeingFreeBlock := by
  unfold ialloc
  split
  · rename_i i _
    have hget := iget_ne_error sb
      { d with dinode := update d.dinode i (newDinode type) } i
    cases hr : iget sb { d with dinode := update d.dinode i (newDinode type) } i with
    | error e =>
      rw [hr] at hget
      simpa [Except.map] using hget
    | ok d' => simp [Except.map]
  · simp

theorem ialloc_inv {type : FileType} {r : Disk × Option ℕ} (h : Inv sb none d)
    (hr : ialloc sb d type = .ok r) : Inv sb none r.1 := by
  unfold ialloc at hr
  split at hr
  · rename_i i hfind
    have hfree : (d.dinode i).type = .free := by
      have hsome := List.find?_some hfind
      simp only [decide_eq_true_eq] at hsome
      exact hsome.2
    have hl : ¬ Loaded d i := by
      intro hl
      apply h.typed i hl
      rw [h.synced i (by simp) hl, hfree]
    have hold : ∀ s, held d (i, s) = none := by
      intro s
      rw [held, live_of_not_loaded hl, if_pos hfree]
    have hnew := h.setDinode (x := newDinode type) hl hold (.inr rfl)
    cases hget : iget sb { d with dinode := update d.dinode i (newDinode type) } i with
    | error e =>
      rw [hget] at hr
      cases hr
    | ok d' =>
      rw [hget] at hr
      rw [← Except.ok.inj hr]
      exact iget_inv hnew hget
  · rw [← Except.ok.inj hr]
    exact h

/-- `iput` never panics. -/
theorem iput_spec (h : Inv sb none d) : ∃ d', iput d i = .ok d' ∧ Inv sb none d' := by
  by_cases hlast : (d.inode i).ref = 1 ∧ (d.inode i).valid = true ∧ (d.inode i).copy.nlink = 0
  · have hl : Loaded d i := ⟨by omega, hlast.2.1⟩
    obtain ⟨d', hd', hinv, -, hempty⟩ := itrunc_spec h hl
    let freed : Dinode := { (d'.inode i).copy with type := .free }
    have hok : iput d i = .ok { d'.setInode i ⟨(d'.inode i).ref - 1, false, freed⟩ with
        dinode := update d'.dinode i freed } := by
      simp [iput, hlast, hd', freed, bind, Except.bind, pure, Except.pure, iupdate, Disk.setCopy,
        Disk.setInode]
    have hput := hinv.setInode (i := i) (x := ⟨(d'.inode i).ref - 1, false, freed⟩)
      (by simp) (by simp)
    refine ⟨_, hok, hput.setDinode (by simp [Loaded, Disk.setInode]) ?_ (.inl rfl)⟩
    intro s
    rw [← hempty s]
    refine held_congr ?_ fun _ _ => rfl
    rw [hput.live_eq_dinode, hinv.live_eq_dinode]
    rfl
  · have hok : iput d i = .ok (d.setInode i { d.inode i with ref := (d.inode i).ref - 1 }) := by
      simp only [iput, hlast, if_false, bind, Except.bind, pure, Except.pure]
    refine ⟨_, hok, h.setInode ?_ ?_⟩
    · intro href hvalid
      exact h.synced i (by simp) ⟨Nat.lt_of_lt_of_le href (Nat.sub_le _ _), hvalid⟩
    · intro href hvalid
      exact h.typed i ⟨Nat.lt_of_lt_of_le href (Nat.sub_le _ _), hvalid⟩

/-! ## Runs -/

/-- Every call keeps the invariant, and none frees a free block. -/
theorem call_spec {op : Op} (h : Inv sb none d) (hsb : sb.nblocks < sb.size)
    (he : enabled sb d op) :
    (∀ d', call sb d op = .ok d' → Inv sb none d') ∧
      call sb d op ≠ .error .freeingFreeBlock := by
  cases op with
  | iget i =>
    refine ⟨fun d' => iget_inv h, ?_⟩
    exact iget_ne_error sb d _
  | ilock i =>
    refine ⟨fun d' => ilock_inv h, ?_⟩
    simp only [call, ilock]
    split
    · simp
    · split
      · simp
      · split <;> simp
  | ialloc type =>
    cases hr : ialloc sb d type with
    | error e =>
      have hne := ialloc_ne_error sb d type
      rw [hr] at hne
      simp only [call, hr, Except.map]
      exact ⟨by simp, by simpa using hne⟩
    | ok r =>
      simp only [call, hr, Except.map]
      refine ⟨fun d' hd' => ?_, by simp⟩
      rw [← Except.ok.inj hd']
      exact ialloc_inv h hr
  | readi i copyout off n =>
    obtain ⟨v, hv⟩ := readi_spec copyout h he (uint_lt off) (uint_lt n)
    simp only [call, hv, Except.map]
    exact ⟨fun d' hd' => Except.ok.inj hd' ▸ h, by simp⟩
  | writei i copyin off n =>
    obtain ⟨r, hr, hinv⟩ :=
      writei_spec copyin h hsb he (uint_lt off) (uint_lt n)
    simp only [call, hr, Except.map]
    exact ⟨fun d' hd' => Except.ok.inj hd' ▸ hinv, by simp⟩
  | itrunc i =>
    obtain ⟨d', hd', hinv, -⟩ := itrunc_spec h he
    simp only [call, hd']
    exact ⟨fun e he => Except.ok.inj he ▸ hinv, by simp⟩
  | iput i =>
    obtain ⟨d', hd', hinv⟩ := iput_spec (i := i) h
    simp only [call, hd']
    exact ⟨fun e he => Except.ok.inj he ▸ hinv, by simp⟩
  | setFields i major minor nlink =>
    refine ⟨fun d' hd' => ?_, by simp [call]⟩
    rw [← Except.ok.inj hd']
    exact (h.weaken i).writeBack he rfl rfl (h.presentBelow he)

theorem reach_inv (himage : Image sb d) (h : Reach (blockStep sb) d d') : Inv sb none d' := by
  refine h.invariant (I := Inv sb none) (Inv.ofImage himage) ?_
  intro u op v hu _ hstep
  obtain ⟨he, hcall⟩ := Option.ite_none_right_eq_some.mp hstep
  apply (call_spec hu himage.boot he).1
  cases hok : call sb u op with
  | error e => simp [hok, Except.toOption] at hcall
  | ok w =>
    simp only [hok, Except.toOption, Option.some.injEq] at hcall
    rw [hcall]

/-- After every sequence of calls from a consistent image, the bitmap marks exactly the data
blocks that occur in a slot of an allocated inode, no block occurs twice, every block below
the size of an inode is present, and no call frees a free block. -/
theorem reach_consistent (himage : Image sb d) (h : Reach (blockStep sb) d d') :
    Consistent sb d' ∧
      ∀ op, enabled sb d' op → call sb d' op ≠ .error .freeingFreeBlock := by
  have hinv := reach_inv himage h
  exact ⟨hinv.consistent, fun op he => (call_spec hinv himage.boot he).2⟩

/-- The superblock that `mkfs` writes. -/
def mkfsSuperblock : Superblock := { size := 2000, nblocks := 1954, ninodes := 200 }

/-- The image with an empty root directory. -/
def rootImage : Disk where
  bitmap b := b < 47
  block _ _ := 0
  dinode i := if i = 1 then { newDinode .dir with
    nlink := 1, size := 1024, addrs := fun k => if k = 0 then 46 else 0 } else newDinode .free
  inode _ := { ref := 0, valid := false, copy := newDinode .free }

theorem live_rootImage (i : ℕ) : live rootImage i = rootImage.dinode i :=
  live_of_not_loaded (by simp [Loaded, rootImage])

theorem held_rootImage {p : ℕ × Slot} :
    held rootImage p = some b ↔ p = (1, .direct ⟨0, by decide⟩) ∧ b = 46 := by
  obtain ⟨i, s⟩ := p
  rw [held, live_rootImage]
  by_cases hi : i = 1
  · subst hi
    cases s with
    | direct k =>
      by_cases hk : (k : ℕ) = 0
      · simp [rootImage, newDinode, slots, nonzero, hk, Fin.ext_iff, eq_comm]
      · simp [rootImage, newDinode, slots, nonzero, hk, Fin.ext_iff]
    | pointer => simp [rootImage, newDinode, slots, nonzero, ndirect]
    | entry j => simp [rootImage, newDinode, slots, ndirect]
  · simp [rootImage, hi, newDinode]

theorem image_rootImage : Image mkfsSuperblock rootImage where
  boot := by decide
  reserved b hb := by
    have hmeta : nmeta mkfsSuperblock = 46 := rfl
    have hlt : b < 47 := by omega
    simp [rootImage, hlt]
  unloaded _ := rfl
  consistent := by
    have hmeta : nmeta mkfsSuperblock = 46 := rfl
    refine ⟨?_, ?_, ?_, ?_⟩
    · intro b hb
      have hlow := hb.1
      simp only [held_rootImage, ExistsUnique]
      constructor
      · intro hbit
        have hlt : b < 47 := by simpa [rootImage] using hbit
        exact ⟨_, ⟨rfl, by omega⟩, fun p hp => hp.1⟩
      · intro hex
        obtain ⟨p, ⟨-, hb⟩, -⟩ := hex
        simp [rootImage, hb]
    · intro p q b hp hq
      exact (held_rootImage.mp hp).1.trans (held_rootImage.mp hq).1.symm
    · intro p b hp
      rw [(held_rootImage.mp hp).2]
      exact ⟨by decide, by decide⟩
    · intro i ht bn hbn
      rw [live_rootImage] at ht hbn
      by_cases hi : i = 1
      · subst hi
        have hzero : bn = 0 := by
          have hlt : bn * 1024 < 1024 := hbn
          omega
        subst hzero
        exact ⟨_, 46, rfl, held_rootImage.mpr ⟨rfl, rfl⟩⟩
      · simp [rootImage, hi, newDinode] at ht

/-- A new file gets three blocks; a second write to it fills the last of them, takes a fourth
one and stops there because its copy fails. -/
def writeFile : List Op :=
  [.ialloc .file, .ilock 2, .writei 2 (fun _ => ⟨fun _ => 7, true⟩) 0 2500,
    .writei 2 (fun tot => ⟨fun _ => 8, tot < 572⟩) 2500 3000]

/-- Whether the blocks from the root directory's on are marked. -/
def marks (d : Disk) : List Bool := (List.range' 46 6).map d.bitmap

/-- The image is consistent with the block beyond the end of the file, and when the file has
been truncated. -/
theorem reach_consistent_writeFile :
    ∃ d d', exec (blockStep mkfsSuperblock) rootImage writeFile = some d ∧
      exec (blockStep mkfsSuperblock) d [.itrunc 2, .iput 2] = some d' ∧
      (d.inode 2).copy.size = 3072 ∧ marks d = [true, true, true, true, true, false] ∧
      marks d' = [true, false, false, false, false, false] ∧
      Consistent mkfsSuperblock d ∧ Consistent mkfsSuperblock d' ∧
      ∀ op, enabled mkfsSuperblock d' op →
        call mkfsSuperblock d' op ≠ .error .freeingFreeBlock := by
  have hrun : (exec (blockStep mkfsSuperblock) rootImage writeFile).bind (fun d =>
      (exec (blockStep mkfsSuperblock) d [.itrunc 2, .iput 2]).map fun d' =>
        ((d.inode 2).copy.size, marks d, marks d')) =
      some (3072, [true, true, true, true, true, false],
        [true, false, false, false, false, false]) := by
    decide +kernel
  obtain ⟨d, hd, hrest⟩ := Option.bind_eq_some_iff.mp hrun
  obtain ⟨d', hd', hview⟩ := Option.map_eq_some_iff.mp hrest
  simp only [Prod.mk.injEq] at hview
  have hreach := reach_of_exec hd
  have hreach' := hreach.trans (reach_of_exec hd')
  exact ⟨d, d', hd, hd', hview.1, hview.2.1, hview.2.2,
    (reach_consistent image_rootImage hreach).1, reach_consistent image_rootImage hreach'⟩

end CS352.Blocks

import CS352.Library.Ownership
import CS352.Library.Transition
import CS352.Model.Blocks

/-! # Block ownership

Every block of the data area belongs to at most one slot of one inode, and the bitmap marks
exactly those that belong to one. -/

namespace CS352.Blocks

open Ownership Transition Function

/-- Where an address can stand: in `addrs`, as a file block or as the pointer to the indirect
block, or in the indirect block. -/
inductive Slot where
  | direct (k : Fin ndirect)
  | pointer
  | entry (j : Fin nindirect)
  deriving DecidableEq, Repr

/-- The slot for the block with number `bn` of a file. -/
def slotOf (bn : ℕ) : Option Slot :=
  if h : bn < ndirect then some (.direct ⟨bn, h⟩)
  else if h : bn - ndirect < nindirect then some (.entry ⟨bn - ndirect, h⟩)
  else none

def nonzero (addr : ℕ) : Option ℕ := if addr = 0 then none else some addr

/-- What the slots of an inode hold. -/
def slots (block : ℕ → ℕ → ℕ) (x : Dinode) : Slot → Option ℕ
  | .direct k => nonzero (x.addrs k)
  | .pointer => nonzero (x.addrs ndirect)
  | .entry j => if x.addrs ndirect = 0 then none else nonzero (block (x.addrs ndirect) j)

/-- The inode is in the table and has been read from disk. -/
def Loaded (d : Disk) (i : ℕ) : Prop :=
  0 < (d.inode i).ref ∧ (d.inode i).valid = true

instance (d : Disk) (i : ℕ) : Decidable (Loaded d i) := inferInstanceAs (Decidable (_ ∧ _))

/-- The in-memory copy of the inode when it is valid, the one on disk otherwise. -/
def live (d : Disk) (i : ℕ) : Dinode :=
  if Loaded d i then (d.inode i).copy else d.dinode i

/-- The block that a slot of an allocated inode holds. -/
def held (d : Disk) (p : ℕ × Slot) : Option ℕ :=
  if (live d p.1).type = .free then none else slots d.block (live d p.1) p.2

/-- The blocks before the data area: boot block, superblock, log, inodes and bitmap. -/
def nmeta (sb : Superblock) : ℕ := sb.size - sb.nblocks

def IsData (sb : Superblock) (b : ℕ) : Prop := nmeta sb ≤ b ∧ b < sb.size

def Present (d : Disk) (i bn : ℕ) : Prop :=
  ∃ s b, slotOf bn = some s ∧ held d (i, s) = some b

/-- Every block of the file that starts before byte `n` is present. -/
def PresentBelow (d : Disk) (i n : ℕ) : Prop := ∀ bn, bn * bsize < n → Present d i bn

structure Consistent (sb : Superblock) (d : Disk) : Prop where
  bitmap_iff : ∀ b, IsData sb b → (d.bitmap b = true ↔ ∃! p, held d p = some b)
  once : ∀ p q b, held d p = some b → held d q = some b → p = q
  inData : ∀ p b, held d p = some b → IsData sb b
  present : ∀ i, (live d i).type ≠ .free → PresentBelow d i (live d i).size

/-- A consistent disk with its boot block and metadata in use, before any inode is loaded. -/
structure Image (sb : Superblock) (d : Disk) : Prop where
  boot : sb.nblocks < sb.size
  reserved : ∀ b < nmeta sb, d.bitmap b = true
  unloaded : ∀ i, (d.inode i).ref = 0
  consistent : Consistent sb d

variable {sb : Superblock} {busy : Option ℕ} {d d' : Disk} {i k b : ℕ} {s : Slot}

/-! ## Slots -/

theorem nonzero_eq_some {a : ℕ} : nonzero a = some b ↔ a ≠ 0 ∧ a = b := by
  unfold nonzero
  split <;> simp_all

@[simp] theorem nonzero_zero : nonzero 0 = none := rfl

theorem nonzero_of_ne {a : ℕ} (h : a ≠ 0) : nonzero a = some a := if_neg h

theorem slotOf_ne_pointer {bn : ℕ} (h : slotOf bn = some s) : s ≠ .pointer := by
  unfold slotOf at h
  split at h
  · simp [← Option.some.inj h]
  · split at h
    · simp [← Option.some.inj h]
    · cases h

theorem slots_congr {block block' : ℕ → ℕ → ℕ} {x : Dinode}
    (h : x.addrs ndirect ≠ 0 → block' (x.addrs ndirect) = block (x.addrs ndirect)) :
    slots block' x s = slots block x s := by
  cases s with
  | direct k => rfl
  | pointer => rfl
  | entry j =>
    by_cases ha : x.addrs ndirect = 0
    · simp [slots, ha]
    · simp [slots, ha, h ha]

theorem live_of_loaded (h : Loaded d i) : live d i = (d.inode i).copy := if_pos h

theorem live_of_not_loaded (h : ¬ Loaded d i) : live d i = d.dinode i := if_neg h

theorem live_congr (hinode : d'.inode k = d.inode k) (hdinode : d'.dinode k = d.dinode k) :
    live d' k = live d k := by
  by_cases hl : Loaded d k
  · have hl' : Loaded d' k := by rwa [Loaded, hinode]
    rw [live_of_loaded hl, live_of_loaded hl', hinode]
  · have hl' : ¬ Loaded d' k := by rwa [Loaded, hinode]
    rw [live_of_not_loaded hl, live_of_not_loaded hl', hdinode]

theorem held_loaded (h : Loaded d i) (ht : (d.inode i).copy.type ≠ .free) :
    held d (i, s) = slots d.block (d.inode i).copy s := by
  simp [held, live_of_loaded h, ht]

/-- The slots of an inode depend on its own fields and on its indirect block. -/
theorem held_congr (hlive : live d' k = live d k)
    (hblock : ∀ a, held d (k, .pointer) = some a → d'.block a = d.block a) :
    held d' (k, s) = held d (k, s) := by
  by_cases ht : (live d k).type = .free
  · simp [held, hlive, ht]
  · have hpointer : (live d k).addrs ndirect ≠ 0 →
        d'.block ((live d k).addrs ndirect) = d.block ((live d k).addrs ndirect) := by
      intro ha
      apply hblock
      simp [held, ht, slots, nonzero_of_ne ha]
    simp only [held, hlive, ht, if_false]
    exact slots_congr hpointer

theorem Present.mono {bn : ℕ} (h : Present d i bn)
    (hle : ∀ s b, held d (i, s) = some b → held d' (i, s) = some b) : Present d' i bn := by
  obtain ⟨s, b, hs, hb⟩ := h
  exact ⟨s, b, hs, hle s b hb⟩

theorem PresentBelow.mono {n : ℕ} (h : PresentBelow d i n)
    (hle : ∀ s b, held d (i, s) = some b → held d' (i, s) = some b) : PresentBelow d' i n :=
  fun bn hbn => (h bn hbn).mono hle

/-! ## The invariant -/

/-- What holds between calls. While a call works on inode `busy`, the copy of that inode may
differ from the one on disk, and some of its blocks may be missing. -/
structure Inv (sb : Superblock) (busy : Option ℕ) (d : Disk) : Prop where
  reserved : ∀ b < nmeta sb, d.bitmap b = true
  owns : Owns (IsData sb) d.bitmap (held d)
  present : ∀ i, busy ≠ some i → (live d i).type ≠ .free → PresentBelow d i (live d i).size
  synced : ∀ i, busy ≠ some i → Loaded d i → (d.inode i).copy = d.dinode i
  typed : ∀ i, Loaded d i → (d.inode i).copy.type ≠ .free

theorem Inv.weaken (h : Inv sb none d) (i : ℕ) : Inv sb (some i) d where
  reserved := h.reserved
  owns := h.owns
  present k _ := h.present k (by simp)
  synced k _ := h.synced k (by simp)
  typed := h.typed

theorem Inv.held_loaded (h : Inv sb busy d) (hl : Loaded d i) :
    held d (i, s) = slots d.block (d.inode i).copy s :=
  Blocks.held_loaded hl (h.typed i hl)

theorem Inv.pointer_eq {a : ℕ} (h : Inv sb busy d) (hl : Loaded d i)
    (ha : held d (i, .pointer) = some a) : (d.inode i).copy.addrs ndirect = a ∧ a ≠ 0 := by
  rw [h.held_loaded hl] at ha
  obtain ⟨hne, heq⟩ := nonzero_eq_some.mp ha
  exact ⟨heq, heq ▸ hne⟩

theorem Inv.ofImage (h : Image sb d) : Inv sb none d where
  reserved := h.reserved
  owns := by
    apply Owns.of_used_iff h.consistent.inData _ h.consistent.once
    intro b hb
    rw [h.consistent.bitmap_iff b hb]
    constructor
    · intro hex
      exact hex.exists
    · intro hex
      obtain ⟨p, hp⟩ := hex
      exact ⟨p, hp, fun q hq => h.consistent.once q p b hq hp⟩
  present i _ := h.consistent.present i
  synced i _ hl := by simp [Loaded, h.unloaded i] at hl
  typed i hl := by simp [Loaded, h.unloaded i] at hl

theorem Inv.consistent (h : Inv sb none d) : Consistent sb d where
  bitmap_iff _ hb := h.owns.used_iff hb
  once _ _ _ hp hq := h.owns.once hp hq
  inData _ _ hp := h.owns.inDom hp
  present i := h.present i (by simp)

/-- The states differ in the addresses of the copy of inode `i`, in the bitmap and in the
contents of blocks. -/
structure Frame (i : ℕ) (d d' : Disk) : Prop where
  dinode_eq : d'.dinode = d.dinode
  inode_ne : ∀ k, k ≠ i → d'.inode k = d.inode k
  inode_self : ∃ addrs,
    d'.inode i = { d.inode i with copy := { (d.inode i).copy with addrs := addrs } }

namespace Frame

theorem refl (i : ℕ) (d : Disk) : Frame i d d := ⟨rfl, fun _ _ => rfl, (d.inode i).copy.addrs, rfl⟩

theorem trans {d'' : Disk} (h : Frame i d d') (h' : Frame i d' d'') : Frame i d d'' where
  dinode_eq := h'.dinode_eq.trans h.dinode_eq
  inode_ne k hk := (h'.inode_ne k hk).trans (h.inode_ne k hk)
  inode_self := by
    obtain ⟨addrs, heq⟩ := h.inode_self
    obtain ⟨addrs', heq'⟩ := h'.inode_self
    exact ⟨addrs', by rw [heq', heq]⟩

theorem loaded_iff (h : Frame i d d') : Loaded d' k ↔ Loaded d k := by
  by_cases hk : k = i
  · subst hk
    obtain ⟨addrs, heq⟩ := h.inode_self
    simp [Loaded, heq]
  · simp [Loaded, h.inode_ne k hk]

theorem type_eq (h : Frame i d d') : (d'.inode k).copy.type = (d.inode k).copy.type := by
  by_cases hk : k = i
  · subst hk
    obtain ⟨addrs, heq⟩ := h.inode_self
    simp [heq]
  · rw [h.inode_ne k hk]

theorem size_eq (h : Frame i d d') : (d'.inode i).copy.size = (d.inode i).copy.size := by
  obtain ⟨addrs, heq⟩ := h.inode_self
  simp [heq]

theorem live_eq (h : Frame i d d') (hk : k ≠ i) : live d' k = live d k :=
  live_congr (h.inode_ne k hk) (by rw [h.dinode_eq])

end Frame

theorem Inv.frame (h : Inv sb (some i) d) (hf : Frame i d d')
    (hreserved : ∀ b < nmeta sb, d'.bitmap b = true)
    (howns : Owns (IsData sb) d'.bitmap (held d'))
    (hothers : ∀ k s b, k ≠ i → held d (k, s) = some b → held d' (k, s) = some b) :
    Inv sb (some i) d' where
  reserved := hreserved
  owns := howns
  present k hk ht := by
    have hne : k ≠ i := fun hki => hk (by rw [hki])
    rw [hf.live_eq hne] at ht ⊢
    exact (h.present k hk ht).mono fun s b => hothers k s b hne
  synced k hk hl := by
    have hne : k ≠ i := fun hki => hk (by rw [hki])
    rw [hf.inode_ne k hne, hf.dinode_eq]
    exact h.synced k hk (hf.loaded_iff.mp hl)
  typed k hl := by
    rw [hf.type_eq]
    exact h.typed k (hf.loaded_iff.mp hl)

/-! ## Growing a file -/

/-- Every slot keeps the block that it holds, and ownership is kept. -/
structure Grows (sb : Superblock) (i : ℕ) (d d' : Disk) : Prop extends Frame i d d' where
  bits : ∀ b, d.bitmap b = true → d'.bitmap b = true
  held_le : ∀ p b, held d p = some b → held d' p = some b
  owns : Owns (IsData sb) d'.bitmap (held d')

namespace Grows

theorem refl (h : Inv sb busy d) (i : ℕ) : Grows sb i d d :=
  ⟨Frame.refl i d, fun _ hb => hb, fun _ _ hp => hp, h.owns⟩

theorem trans {d'' : Disk} (h : Grows sb i d d') (h' : Grows sb i d' d'') : Grows sb i d d'' :=
  ⟨h.toFrame.trans h'.toFrame, fun b hb => h'.bits b (h.bits b hb),
    fun p b hp => h'.held_le p b (h.held_le p b hp), h'.owns⟩

theorem inv (h : Grows sb i d d') (hi : Inv sb (some i) d) : Inv sb (some i) d' :=
  hi.frame h.toFrame (fun b hb => h.bits b (hi.reserved b hb)) h.owns
    fun k s b _ => h.held_le (k, s) b

theorem presentBelow {n : ℕ} (h : Grows sb i d d') (hp : PresentBelow d i n) :
    PresentBelow d' i n :=
  hp.mono fun s b => h.held_le (i, s) b

/-- An empty slot takes a free block. -/
theorem of_fill {s : Slot} (hi : Inv sb busy d) (hf : Frame i d d')
    (hdata : IsData sb b) (hfree : d.bitmap b = false)
    (hempty : held d (i, s) = none) (hbits : d'.bitmap = update d.bitmap b true)
    (hheld : held d' = update (held d) (i, s) (some b)) : Grows sb i d d' where
  toFrame := hf
  bits c hc := by
    rw [hbits]
    by_cases hcb : c = b
    · simp [hcb]
    · rwa [update_of_ne hcb]
  held_le p c hp := by
    have hne : p ≠ (i, s) := by
      intro heq
      simp [heq, hempty] at hp
    rw [hheld, update_of_ne hne, hp]
  owns := by
    rw [hbits, hheld]
    exact hi.owns.fill hdata hfree hempty

end Grows

/-- The disk after `balloc` has returned `b`. -/
def take (d : Disk) (b : ℕ) : Disk :=
  ({ d with bitmap := update d.bitmap b true }).setBlock b fun _ => 0

theorem take_block_ne {a : ℕ} (h : a ≠ b) : (take d b).block a = d.block a :=
  update_of_ne h _ _

theorem take_block_self : (take d b).block b = fun _ => 0 := update_self ..

/-- `balloc` finds a free data block, or returns 0 and changes nothing. -/
theorem balloc_spec (h : Inv sb busy d) (hsb : sb.nblocks < sb.size) :
    balloc sb d = (d, 0) ∨
      ∃ b, balloc sb d = (take d b, b) ∧ b ≠ 0 ∧ IsData sb b ∧ d.bitmap b = false := by
  unfold balloc
  cases hfind : (List.range sb.size).find? fun b => d.bitmap b = false with
  | none => exact .inl rfl
  | some b =>
    have hfree : d.bitmap b = false := by simpa using List.find?_some hfind
    have hlt : b < sb.size := List.mem_range.mp (List.mem_of_find?_eq_some hfind)
    have hdata : nmeta sb ≤ b := by
      by_contra hlow
      simp [h.reserved b (by omega)] at hfree
    have hpos : 0 < nmeta sb := by
      unfold nmeta
      omega
    exact .inr ⟨b, rfl, by omega, ⟨hdata, hlt⟩, hfree⟩

/-- A free block is not the indirect block of any inode. -/
theorem Inv.pointer_ne (h : Inv sb busy d) (hfree : d.bitmap b = false) {a : ℕ}
    (ha : held d (k, .pointer) = some a) : a ≠ b :=
  h.owns.ne_of_free ha hfree

/-- The slot of `addrs` with the given index. -/
def addrsSlot (k : ℕ) : Slot := if h : k < ndirect then .direct ⟨k, h⟩ else .pointer

theorem slots_addrsSlot {block : ℕ → ℕ → ℕ} {x : Dinode} (hk : k ≤ ndirect) :
    slots block x (addrsSlot k) = nonzero (x.addrs k) := by
  unfold addrsSlot
  split
  · rfl
  · have heq : k = ndirect := by omega
    rw [heq]
    rfl

theorem frame_setAddr {a : ℕ} : Frame i d (d.setAddr i k a) where
  dinode_eq := rfl
  inode_ne _ hj := update_of_ne hj _ _
  inode_self := ⟨_, update_self ..⟩

theorem setAddr_addrs {a : ℕ} :
    ((d.setAddr i k a).inode i).copy.addrs = update (d.inode i).copy.addrs k a := by
  simp [Disk.setAddr, Disk.setCopy, Disk.setInode]

theorem frame_setBlock {data : ℕ → ℕ} : Frame i d (d.setBlock b data) :=
  ⟨rfl, fun _ _ => rfl, _, rfl⟩

theorem frame_take (i : ℕ) : Frame i d (take d b) := ⟨rfl, fun _ _ => rfl, _, rfl⟩

/-- Storing a new block in an empty slot of `addrs` changes what that slot holds only. -/
theorem held_setAddr_take (h : Inv sb busy d) (hl : Loaded d i) (hk : k ≤ ndirect)
    (hempty : (d.inode i).copy.addrs k = 0) (hb : b ≠ 0) (hfree : d.bitmap b = false) :
    held ((take d b).setAddr i k b) =
      update (held d) (i, addrsSlot k) (some b) := by
  have hf : Frame i d ((take d b).setAddr i k b) := (frame_take i).trans frame_setAddr
  have hblock : ∀ a, a ≠ b → ((take d b).setAddr i k b).block a = d.block a :=
    fun a ha => take_block_ne ha
  funext p
  obtain ⟨j, s⟩ := p
  by_cases hj : j = i
  · subst hj
    have hl' := hf.loaded_iff.mpr hl
    have ht' : (((take d b).setAddr j k b).inode j).copy.type ≠ .free := by
      rw [hf.type_eq]
      exact h.typed j hl
    by_cases hs : s = addrsSlot k
    · subst hs
      rw [update_self, held_loaded hl' ht', slots_addrsSlot hk, setAddr_addrs,
        update_self, nonzero_of_ne hb]
    · rw [update_of_ne (by simpa using hs), held_loaded hl' ht', h.held_loaded hl]
      cases s with
      | direct m =>
        have hm : (m : ℕ) ≠ k := by
          intro hmk
          apply hs
          subst hmk
          simp [addrsSlot]
        simp only [slots, setAddr_addrs]
        rw [update_of_ne hm]
        rfl
      | pointer =>
        have hm : ndirect ≠ k := by
          intro hmk
          apply hs
          subst hmk
          simp [addrsSlot]
        simp only [slots, setAddr_addrs]
        rw [update_of_ne hm]
        rfl
      | entry m =>
        simp only [slots, setAddr_addrs]
        by_cases hm : ndirect = k
        · subst hm
          have hzero : ((take d b).setAddr j ndirect b).block b = fun _ => 0 := take_block_self
          simp [hempty, hb, hzero]
        · rw [update_of_ne hm]
          by_cases ha : (d.inode j).copy.addrs ndirect = 0
          · have ha' : ((take d b).inode j).copy.addrs ndirect = 0 := ha
            simp [ha, ha']
          · have hp : held d (j, .pointer) = some ((d.inode j).copy.addrs ndirect) := by
              rw [h.held_loaded hl]
              exact nonzero_of_ne ha
            have heq := hblock _ (h.pointer_ne hfree hp)
            have hsame : ((take d b).inode j).copy.addrs = (d.inode j).copy.addrs := rfl
            simp [ha, hsame, heq]
  · rw [update_of_ne (by simp [hj])]
    exact held_congr (hf.live_eq hj) fun a ha => hblock a (h.pointer_ne hfree ha)

/-- A slot of `addrs` is found or filled, unless the disk is full. -/
theorem addrSlot_spec (h : Inv sb busy d) (hsb : sb.nblocks < sb.size) (hl : Loaded d i)
    (hk : k ≤ ndirect) :
    Grows sb i d (addrSlot sb d i k).1 ∧
      ((addrSlot sb d i k).2 ≠ 0 →
        ((addrSlot sb d i k).1.inode i).copy.addrs k = (addrSlot sb d i k).2) := by
  unfold addrSlot
  by_cases hempty : (d.inode i).copy.addrs k = 0
  · rw [if_pos hempty]
    rcases balloc_spec h hsb with heq | ⟨b, heq, hb, hdata, hfree⟩
    · simp only [heq, if_true]
      exact ⟨Grows.refl h i, by simp⟩
    · simp only [heq, hb, if_false]
      have hnone : held d (i, addrsSlot k) = none := by
        rw [h.held_loaded hl, slots_addrsSlot hk, hempty, nonzero_zero]
      refine ⟨?_, fun _ => ?_⟩
      · apply Grows.of_fill h ((frame_take i).trans frame_setAddr) hdata hfree hnone rfl
        exact held_setAddr_take h hl hk hempty hb hfree
      · rw [setAddr_addrs, update_self]
  · simp only [hempty, if_false]
    exact ⟨Grows.refl h i, by simp⟩

/-- Storing a new block in an empty entry of the indirect block changes what that entry
holds only. -/
theorem held_setBlock_take {a : ℕ} {j : Fin nindirect} (h : Inv sb busy d) (hl : Loaded d i)
    (ha : held d (i, .pointer) = some a) (hb : b ≠ 0) (hfree : d.bitmap b = false) :
    held ((take d b).setBlock a (update ((take d b).block a) j b)) =
      update (held d) (i, .entry j) (some b) := by
  have hab : a ≠ b := h.pointer_ne hfree ha
  have hblock : ∀ c, c ≠ a → c ≠ b →
      ((take d b).setBlock a (update ((take d b).block a) j b)).block c = d.block c := by
    intro c hca hcb
    exact (update_of_ne hca _ _).trans (take_block_ne hcb)
  have hself : ((take d b).setBlock a (update ((take d b).block a) j b)).block a =
      update (d.block a) j b := by
    rw [take_block_ne hab]
    exact update_self ..
  have hcopy := h.pointer_eq hl ha
  funext p
  obtain ⟨m, s⟩ := p
  by_cases hm : m = i
  · subst hm
    have hheld : held ((take d b).setBlock a (update ((take d b).block a) j b)) (m, s) =
        slots (update (take d b).block a (update ((take d b).block a) j b))
          (d.inode m).copy s := Blocks.held_loaded hl (h.typed m hl)
    have hself' : update (take d b).block a (update ((take d b).block a) j b) a =
        update (d.block a) j b := hself
    rw [hheld]
    by_cases hs : s = .entry j
    · subst hs
      rw [update_self]
      simp only [slots, hcopy.1, hcopy.2, if_false, hself', update_self]
      exact nonzero_of_ne hb
    · rw [update_of_ne (by simpa using hs), h.held_loaded hl]
      cases s with
      | direct n => rfl
      | pointer => rfl
      | entry n =>
        have hn : (n : ℕ) ≠ j := by
          intro hnj
          exact hs (congrArg Slot.entry (Fin.ext hnj))
        simp only [slots, hcopy.1, hself', update_of_ne hn]
  · rw [update_of_ne (by simp [hm])]
    refine held_congr rfl fun c hc => hblock c ?_ (h.pointer_ne hfree hc)
    intro hca
    subst hca
    exact hm (congrArg Prod.fst (h.owns.once hc ha))

theorem entrySlot_spec {a : ℕ} {j : Fin nindirect} (h : Inv sb busy d)
    (hsb : sb.nblocks < sb.size) (hl : Loaded d i) (ha : held d (i, .pointer) = some a) :
    Grows sb i d (entrySlot sb d a j).1 ∧
      ((entrySlot sb d a j).2 ≠ 0 →
        held (entrySlot sb d a j).1 (i, .entry j) = some (entrySlot sb d a j).2) := by
  have hcopy := h.pointer_eq hl ha
  have hentry : held d (i, .entry j) = nonzero (d.block a j) := by
    rw [h.held_loaded hl]
    simp [slots, hcopy.1, hcopy.2]
  unfold entrySlot
  by_cases hempty : d.block a j = 0
  · rw [if_pos hempty]
    rcases balloc_spec h hsb with heq | ⟨b, heq, hb, hdata, hfree⟩
    · simp only [heq, if_true]
      exact ⟨Grows.refl h i, by simp⟩
    · simp only [heq, hb, if_false]
      have hnone : held d (i, .entry j) = none := by rw [hentry, hempty, nonzero_zero]
      have hheld := held_setBlock_take (j := j) h hl ha hb hfree
      refine ⟨Grows.of_fill h ((frame_take i).trans frame_setBlock) hdata hfree hnone rfl hheld,
        fun _ => ?_⟩
      rw [hheld, update_self]
  · simp only [hempty, if_false]
    exact ⟨Grows.refl h i, fun _ => by rw [hentry, nonzero_of_ne hempty]⟩

/-- What `bmap` does to an inode: it never panics below `MAXFILE`, and an address that it
returns is that of the block. -/
theorem bmap_spec {bn : ℕ} (h : Inv sb (some i) d) (hsb : sb.nblocks < sb.size)
    (hl : Loaded d i) (hbn : bn < maxfile) :
    ∃ r, bmap sb d i bn = .ok r ∧ Grows sb i d r.1 ∧
      (r.2 ≠ 0 → ∃ s, slotOf bn = some s ∧ held r.1 (i, s) = some r.2) := by
  unfold bmap slotOf
  by_cases hdirect : bn < ndirect
  · simp only [hdirect, if_true, dif_pos]
    obtain ⟨hgrows, haddr⟩ := addrSlot_spec h hsb hl (k := bn) (by omega)
    refine ⟨_, rfl, hgrows, fun hne => ⟨_, rfl, ?_⟩⟩
    rw [(hgrows.inv h).held_loaded (hgrows.loaded_iff.mpr hl)]
    simp only [slots]
    rw [haddr hne, nonzero_of_ne hne]
  · have hentry : bn - ndirect < nindirect := by
      unfold maxfile at hbn
      omega
    simp only [hdirect, hentry, if_false, if_true, dif_pos, dif_neg, not_false_eq_true]
    obtain ⟨hgrows, haddr⟩ := addrSlot_spec h hsb hl (k := ndirect) (Nat.le_refl _)
    by_cases hzero : (addrSlot sb d i ndirect).2 = 0
    · rw [if_pos hzero]
      exact ⟨_, rfl, hgrows, by simp⟩
    · rw [if_neg hzero]
      have hinv := hgrows.inv h
      have hl' := hgrows.loaded_iff.mpr hl
      have hpointer : held (addrSlot sb d i ndirect).1 (i, .pointer) =
          some (addrSlot sb d i ndirect).2 := by
        rw [hinv.held_loaded hl']
        simp only [slots]
        rw [haddr hzero, nonzero_of_ne hzero]
      obtain ⟨hgrows', hheld⟩ := entrySlot_spec hinv hsb hl' hpointer (j := ⟨_, hentry⟩)
      exact ⟨_, rfl, hgrows.trans hgrows', fun hne => ⟨_, rfl, hheld hne⟩⟩

/-- A block that is present is found, and nothing changes. -/
theorem bmap_present {bn : ℕ} (h : Inv sb busy d) (hl : Loaded d i)
    (hp : Present d i bn) : ∃ b, b ≠ 0 ∧ bmap sb d i bn = .ok (d, b) := by
  obtain ⟨s, b, hs, hb⟩ := hp
  rw [h.held_loaded hl] at hb
  unfold slotOf at hs
  split at hs
  · rename_i hdirect
    rw [← Option.some.inj hs] at hb
    obtain ⟨hne, -⟩ := nonzero_eq_some.mp hb
    exact ⟨_, hne, by simp only [bmap, hdirect, if_true, addrSlot, if_neg hne]⟩
  · split at hs
    · rename_i hdirect hentry
      rw [← Option.some.inj hs] at hb
      simp only [slots] at hb
      obtain ⟨hpointer, hb⟩ := Option.ite_none_left_eq_some.mp hb
      obtain ⟨hne, -⟩ := nonzero_eq_some.mp hb
      refine ⟨_, hne, ?_⟩
      simp only [bmap, hdirect, hentry, if_true, if_false, addrSlot, if_neg hpointer, entrySlot,
        if_neg hne]
    · cases hs

end CS352.Blocks

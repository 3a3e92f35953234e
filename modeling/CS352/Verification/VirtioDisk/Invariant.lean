import CS352.Verification.VirtioDisk.Requests

/-! # What the driver keeps -/

namespace CS352.VirtioDisk

open RingBuffer Transition

variable {ι β : Type*} {s t : State ι β} {queued reported : List ℕ} {p q : ι} {place : Place β}

/-! ## The invariant -/

/-- Byte `k` of a block is the same on the disk and in the buffer. -/
def Copied (s : State ι β) (b : β) (k : ℕ) : Prop :=
  s.device.platter ((s.buf b).blockno * bsize + k) = (s.buf b).data k

/-- Why a thread may sleep. -/
def Waits (s : State ι β) : Chan β → Prop
  | .free => Scarce s.disk
  | .buf b => (s.buf b).disk = true

/-- What a thread at `place` relies on. -/
structure Place.Ok (s : State ι β) (place : Place β) : Prop where
  small : ∀ c, place.call = some c → (s.buf c.b).blockno < 2 ^ 31
  formatted : ∀ r, place.request = some r → Formatted s.disk (s.buf r.call.b).blockno r
  publishing : ∀ r, place.request = some r → place.publishing = true →
    s.disk.avail.ring (s.disk.avail.idx % num) = r.idx.head ∧ (s.buf r.call.b).disk = true
  copied : ∀ r, place.request = some r → ∀ k < bsize, (s.disk.info r.idx.head).status = 0 ∨
    r.idx.head ∈ s.device.busy ∧ s.device.moved r.idx.head k = true → Copied s r.call.b k
  seen : ∀ r, place.request = some r → (s.buf r.call.b).disk = false →
    (s.disk.info r.idx.head).status = 0
  waiting : ∀ chan, place.chan = some chan → Waits s chan

/-- The device has the request, or has answered it and the handler has not seen the answer. -/
def Pending (s : State ι β) (p : ι) (r : Request β) : Prop :=
  (s.place p).request = some r ∧ (s.place p).publishing = false ∧ (s.buf r.call.b).disk = true

/-- The heads of the chains on their way through the device. -/
def heads (s : State ι β) (queued reported : List ℕ) : List ℕ :=
  queued ++ s.device.busy ++ s.device.done ++ reported

/-- `queued` and `reported` are the entries of the two rings that are still to be taken. -/
structure Inv (s : State ι β) (queued reported : List ℕ) : Prop where
  calm : s.panicked = none
  locked : ∀ p, (s.place p).locked = true ↔ s.lock = some (.thread p)
  blocks : ∀ p q c c', (s.place p).call = some c → (s.place q).call = some c' →
    (s.buf c.b).blockno = (s.buf c'.b).blockno → p = q
  threads : ∀ p, (s.place p).Ok s
  chains : Chains s.disk.free fun p => (s.place p).request
  avail : Counts num (2 ^ 16) s.disk.avail.ring s.device.lastAvail s.disk.avail.idx queued
  used : Counts num (2 ^ 16) s.disk.used.ring s.disk.usedIdx s.disk.used.idx reported
  nodup : (heads s queued reported).Nodup
  mem_heads : ∀ h, h ∈ heads s queued reported ↔ ∃ p r, Pending s p r ∧ r.idx.head = h
  served : s.device.failed = false →
    ∀ i ∈ s.device.done ++ reported, (s.disk.info i).status = 0
  /-- The device looks at the ring, or is about to be told to. -/
  notified : queued ≠ [] → s.device.notified = true ∨ ∃ p, (s.place p).notifying = true
  /-- The handler runs, or will be called. -/
  interrupt : reported ≠ [] → s.device.raising = true ∨ s.device.interrupt = true ∨
    ∃ acked, s.lock = some (.handler acked)

/-- What the callers are trusted with: the block of a call is not in another call, its number is
below `2 ^ 31`, and its buffer is not touched. -/
def Permitted (s : State ι β) : Action ι β → Prop
  | .call _ c => (s.buf c.b).blockno < 2 ^ 31 ∧
      ∀ q, ∀ c' ∈ (s.place q).call, (s.buf c'.b).blockno ≠ (s.buf c.b).blockno
  | .modify b _ _ => ∀ q, ∀ c ∈ (s.place q).call, c.b ≠ b
  | _ => True

theorem inv_init (platter : ℕ → UInt8) (blockno : β → ℕ) (data : β → ℕ → UInt8) :
    Inv (init platter blockno data : State ι β) [] [] := by
  have hcounts : ∀ cells : ℕ → ℕ, Counts num (2 ^ 16) cells 0 0 [] := fun cells =>
    counts_nil (by decide) (by decide) (by decide)
  have hok : (Place.out : Place β).Ok (init platter blockno data : State ι β) := by
    constructor <;> simp [Place.call, Place.request, Place.chan]
  refine ⟨rfl, ?_, ?_, fun _ => hok, ⟨?_, ?_, ?_⟩, hcounts _, hcounts _, ?_, ?_, ?_, ?_, ?_⟩ <;>
    simp [init, heads, Pending, Place.locked, Place.call, Place.request]

/-! ## What follows from it -/

theorem Inv.head_inj (h : Inv s queued reported) {r r' : Request β}
    (hp : (s.place p).request = some r) (hq : (s.place q).request = some r')
    (heq : r.idx.head = r'.idx.head) : p = q :=
  h.chains.disjoint p q r r' _ hp hq r.idx.head_mem (heq ▸ r'.idx.head_mem)

/-- Different threads have different buffers. -/
theorem Inv.buf_ne (h : Inv s queued reported) {c c' : Call β} (hne : q ≠ p)
    (hp : (s.place p).call = some c) (hq : (s.place q).call = some c') : c'.b ≠ c.b :=
  fun heq => hne (h.blocks q p c' c hq hp (by rw [heq]))

theorem Inv.head_lt (h : Inv s queued reported) {i : ℕ} (hi : i ∈ heads s queued reported) :
    i < num := by
  obtain ⟨p, r, hr, rfl⟩ := (h.mem_heads i).mp hi
  exact (h.chains.busy hr.1 _ r.idx.head_mem).2

/-- There are fewer than `num` different heads besides one more. -/
theorem length_lt_num {i : ℕ} {l : List ℕ} (hnodup : (i :: l).Nodup) (hi : i < num)
    (hl : ∀ j ∈ l, j < num) : l.length < num := by
  have hsub : i :: l ⊆ List.range num := by
    intro j hj
    rcases List.mem_cons.mp hj with rfl | hj
    · exact List.mem_range.mpr hi
    · exact List.mem_range.mpr (hl j hj)
  have hle := (List.subperm_of_subset hnodup hsub).length_le
  rw [List.length_cons, List.length_range] at hle
  omega

theorem Inv.queued_lt (h : Inv s queued reported) {i : ℕ} (hi : i < num)
    (hnot : i ∉ heads s queued reported) : queued.length < num := by
  have hlen := length_lt_num (List.nodup_cons.mpr ⟨hnot, h.nodup⟩) hi fun j => h.head_lt
  simp only [heads, List.length_append] at hlen
  omega

/-- Whoever holds the lock is the only one that does. -/
theorem Inv.not_locked (h : Inv s queued reported) (hp : (s.place p).locked = true)
    (hne : q ≠ p) : (s.place q).locked = false := by
  by_contra hq
  rw [Bool.not_eq_false] at hq
  have heq := ((h.locked p).mp hp).symm.trans ((h.locked q).mp hq)
  cases heq
  exact hne rfl

/-- No thread holds the lock while the handler does or nobody does. -/
theorem Inv.no_thread (h : Inv s queued reported) (hlock : ∀ p, s.lock ≠ some (.thread p)) (p : ι) :
    (s.place p).locked = false := by
  by_contra hp
  rw [Bool.not_eq_false] at hp
  exact hlock p ((h.locked p).mp hp)

theorem Place.locked_of_notifying (h : place.notifying = true) : place.locked = true := by
  cases place with
  | notify => rfl
  | _ => cases h

/-- Unless a thread is about to notify it, the device looks at a ring that is not empty. -/
theorem Inv.looking (h : Inv s queued reported) (hnone : ∀ p, (s.place p).notifying = false)
    (hne : queued ≠ []) : s.device.notified = true := by
  refine (h.notified hne).resolve_right ?_
  rintro ⟨p, hp⟩
  simp [hnone p] at hp

theorem Inv.no_notify (h : Inv s queued reported) (hlock : ∀ p, s.lock ≠ some (.thread p)) (p : ι) :
    (s.place p).notifying = false := by
  by_contra hp
  have hlocked := Place.locked_of_notifying (Bool.not_eq_false _ ▸ hp)
  rw [h.no_thread hlock p] at hlocked
  cases hlocked

/-- A thread that holds the lock and is not about to notify the device. -/
theorem Inv.no_notify_of_locked (h : Inv s queued reported) (hlocked : (s.place p).locked = true)
    (hp : (s.place p).notifying = false) (q : ι) : (s.place q).notifying = false := by
  by_cases hqp : q = p
  · rwa [hqp]
  · by_contra hq
    have hlocked' := Place.locked_of_notifying (Bool.not_eq_false _ ▸ hq)
    rw [h.not_locked hlocked hqp] at hlocked'
    cases hlocked'

theorem Place.call_of_chan {b : β} (h : place.chan = some (.buf b)) :
    ∃ c, place.call = some c ∧ c.b = b := by
  cases place with
  | asleep c idx =>
    cases h
    exact ⟨c, rfl, rfl⟩
  | _ => cases h

/-! ## Threads that a step does not touch -/

/-- A step leaves a request alone. -/
structure Kept (s t : State ι β) (r : Request β) : Prop where
  desc : ∀ i ∈ r.idx.toList, t.disk.desc i = s.disk.desc i
  op : t.disk.ops r.idx.head = s.disk.ops r.idx.head
  info : t.disk.info r.idx.head = s.disk.info r.idx.head
  busy : r.idx.head ∈ t.device.busy → r.idx.head ∈ s.device.busy
  moved : t.device.moved r.idx.head = s.device.moved r.idx.head
  copied : ∀ k < bsize, Copied s r.call.b k → Copied t r.call.b k

/-- The same call at another place. -/
structure Place.Similar (place place' : Place β) : Prop where
  call : place.call = place'.call
  request : place.request = place'.request
  publishing : place.publishing = place'.publishing

theorem Place.Ok.congr {place' : Place β} (h : place.Ok s) (hsim : place'.Similar place)
    (hbuf : ∀ c, place.call = some c → (t.buf c.b).blockno = (s.buf c.b).blockno ∧
      (t.buf c.b).disk = (s.buf c.b).disk)
    (hkept : ∀ r, place.request = some r → Kept s t r)
    (hring : place.publishing = true → t.disk.avail.ring (t.disk.avail.idx % num) =
      s.disk.avail.ring (s.disk.avail.idx % num))
    (hwaiting : ∀ chan, place'.chan = some chan → Waits t chan) : place'.Ok t := by
  refine ⟨?_, ?_, ?_, ?_, ?_, hwaiting⟩
  · intro c hc
    rw [hsim.call] at hc
    rw [(hbuf c hc).1]
    exact h.small c hc
  all_goals
    intro r hr
    rw [hsim.request] at hr
    have hkept := hkept r hr
    obtain ⟨hblockno, hdisk⟩ := hbuf r.call (Place.call_of_request hr)
  · rw [hblockno]
    exact (h.formatted r hr).congr hkept.desc hkept.op (by rw [hkept.info])
  · intro hpub
    rw [hsim.publishing] at hpub
    rw [hring hpub, hdisk]
    exact h.publishing r hr hpub
  · rw [hkept.info, hkept.moved]
    exact fun k hk hor => hkept.copied k hk
      (h.copied r hr k hk (hor.imp_right fun ⟨hbusy, hk⟩ => ⟨hkept.busy hbusy, hk⟩))
  · rw [hdisk, hkept.info]
    exact h.seen r hr

/-- A step leaves the device, the buffer of a call and its request alone. -/
theorem Place.Ok.of_buf {place' : Place β} (h : place.Ok s) (hsim : place'.Similar place)
    (hdevice : t.device = s.device) (hbuf : ∀ c, place.call = some c → t.buf c.b = s.buf c.b)
    (hdisk : ∀ r, place.request = some r → (∀ i ∈ r.idx.toList, t.disk.desc i = s.disk.desc i) ∧
      t.disk.ops r.idx.head = s.disk.ops r.idx.head ∧
      t.disk.info r.idx.head = s.disk.info r.idx.head)
    (hring : place.publishing = true → t.disk.avail.ring (t.disk.avail.idx % num) =
      s.disk.avail.ring (s.disk.avail.idx % num))
    (hwaiting : ∀ chan, place'.chan = some chan → Waits t chan) : place'.Ok t := by
  refine h.congr hsim (fun c hc => by simp [hbuf c hc]) (fun r hr => ?_) hring hwaiting
  obtain ⟨hdesc, hop, hinfo⟩ := hdisk r hr
  refine ⟨hdesc, hop, hinfo, by rw [hdevice]; exact id, by rw [hdevice], fun k _ hk => ?_⟩
  unfold Copied
  rw [hbuf r.call (Place.call_of_request hr), hdevice]
  exact hk

/-- A thread without a request. -/
theorem Place.Ok.of_none (hrequest : place.request = none) (hchan : place.chan = none)
    (hsmall : ∀ c, place.call = some c → (s.buf c.b).blockno < 2 ^ 31) : place.Ok s := by
  refine ⟨hsmall, ?_, ?_, ?_, ?_, by simp [hchan]⟩
  all_goals simp [hrequest]

theorem Place.Ok.of_eq (h : place.Ok s) (hdisk : t.disk = s.disk) (hbuf : t.buf = s.buf)
    (hdevice : t.device = s.device) : place.Ok t := by
  obtain ⟨disk, buf, device, lock, places, panicked⟩ := t
  dsimp only at hdisk hbuf hdevice
  subst hdisk hbuf hdevice
  exact ⟨h.small, h.formatted, h.publishing, h.copied, h.seen, h.waiting⟩

theorem Place.Similar.refl (place : Place β) : place.Similar place := ⟨rfl, rfl, rfl⟩

theorem Restored.refl (d : Disk β) : Restored d d :=
  ⟨rfl, fun _ _ => rfl, rfl, rfl, rfl, rfl, rfl⟩

/-- Threads move, and the lock changes hands, between the parts of a call. The device changes
what it is told, and what it tells. -/
theorem Inv.frame (h : Inv s queued reported) (hcalm : t.panicked = none)
    (hdisk : Restored s.disk t.disk) (hbuf : t.buf = s.buf)
    (hdevice : ∃ notified raising interrupt, t.device = { s.device with
      notified := notified, raising := raising, interrupt := interrupt })
    (hplace : ∀ q, (t.place q).Similar (s.place q))
    (hwaiting : ∀ q chan, (t.place q).chan = some chan → Waits s chan)
    (hlocked : ∀ q, (t.place q).locked = true ↔ t.lock = some (.thread q))
    (hnotified : queued ≠ [] → t.device.notified = true ∨ ∃ q, (t.place q).notifying = true)
    (hinterrupt : reported ≠ [] → t.device.raising = true ∨ t.device.interrupt = true ∨
      ∃ acked, t.lock = some (.handler acked)) : Inv t queued reported := by
  obtain ⟨_, _, _, hdevice⟩ := hdevice
  have hbusy : t.device.busy = s.device.busy := by rw [hdevice]
  have hdone : t.device.done = s.device.done := by rw [hdevice]
  have hheads : heads t queued reported = heads s queued reported := by
    simp only [heads, hbusy, hdone]
  have hpending : ∀ p r, Pending t p r ↔ Pending s p r := by
    intro p r
    simp only [Pending, (hplace p).request, (hplace p).publishing, hbuf]
  have hwaits : ∀ chan, Waits s chan → Waits t chan := by
    intro chan hchan
    cases chan with
    | free => simpa only [Waits, Scarce, hdisk.free] using hchan
    | buf b => simpa only [Waits, hbuf] using hchan
  refine ⟨hcalm, hlocked, ?_, ?_, ?_, ?_, ?_, hheads ▸ h.nodup, ?_, ?_, hnotified, hinterrupt⟩
  · intro q q' c c' hq hq'
    rw [(hplace q).call] at hq
    rw [(hplace q').call] at hq'
    rw [hbuf]
    exact h.blocks q q' c c' hq hq'
  · intro q
    refine (h.threads q).congr (hplace q) (fun c _ => by rw [hbuf]; exact ⟨rfl, rfl⟩) ?_
      (fun _ => by rw [hdisk.avail]) fun chan hchan => hwaits chan (hwaiting q chan hchan)
    intro r hr
    refine ⟨fun i hi => hdisk.desc i (h.chains.busy hr i hi).1, by rw [hdisk.ops],
      by rw [hdisk.info], by rw [hbusy]; exact id, by rw [hdevice], fun k _ hk => ?_⟩
    unfold Copied
    rw [hbuf, hdevice]
    exact hk
  · simpa only [hdisk.free, fun q => (hplace q).request] using h.chains
  · rw [hdisk.avail, hdevice]
    exact h.avail
  · rw [hdisk.used, hdisk.usedIdx]
    exact h.used
  · simpa only [hheads, hpending] using h.mem_heads
  · rw [hdisk.info, hdone, hdevice]
    exact h.served

variable [DecidableEq ι]

theorem forall_moveTo {P : ι → Place β → Prop} :
    (∀ q, P q ((s.moveTo p place).place q)) ↔ P p place ∧ ∀ q, q ≠ p → P q (s.place q) :=
  Function.forall_update_iff s.place P

theorem Inv.locked_moveTo (h : Inv s queued reported) (hp : (s.place p).locked = true)
    (hplace : place.locked = true) (q : ι) :
    ((s.moveTo p place).place q).locked = true ↔ s.lock = some (.thread q) :=
  forall_moveTo (P := fun q place => place.locked = true ↔ s.lock = some (.thread q)).mpr
    ⟨iff_of_true hplace ((h.locked p).mp hp), fun q _ => h.locked q⟩ q

/-- One thread moves. -/
theorem Inv.move (h : Inv s queued reported) {lock : Option (Owner ι)}
    (hsim : place.Similar (s.place p)) (hchan : ∀ chan, place.chan = some chan → Waits s chan)
    (hlock : place.locked = true ↔ lock = some (.thread p))
    (hothers : ∀ q, q ≠ p → ((s.place q).locked = true ↔ lock = some (.thread q)))
    (hnotify : place.notifying = (s.place p).notifying)
    (hhandler : ∀ acked, s.lock = some (.handler acked) → lock = s.lock) :
    Inv { s.moveTo p place with lock := lock } queued reported := by
  refine h.frame h.calm (.refl _) rfl ⟨_, _, _, rfl⟩ ?_ ?_ ?_ ?_ ?_
  · exact forall_moveTo (P := fun q place => place.Similar (s.place q)).mpr
      ⟨hsim, fun q _ => .refl _⟩
  · exact forall_moveTo (P := fun q place => ∀ chan, place.chan = some chan → Waits s chan).mpr
      ⟨hchan, fun q _ => (h.threads q).waiting⟩
  · exact forall_moveTo (P := fun q place => place.locked = true ↔ lock = some (.thread q)).mpr
      ⟨hlock, hothers⟩
  · intro hne
    refine (h.notified hne).imp_right ?_
    rintro ⟨q, hq⟩
    refine ⟨q, ?_⟩
    by_cases hqp : q = p
    · rw [hqp] at hq ⊢
      simpa [State.moveTo, hnotify] using hq
    · simpa [State.moveTo, hqp] using hq
  · intro hne
    refine (h.interrupt hne).imp_right (Or.imp_right ?_)
    rintro ⟨acked, hlock⟩
    exact ⟨acked, (hhandler acked hlock).trans hlock⟩

end CS352.VirtioDisk

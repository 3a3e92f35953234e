import CS352.Verification.VirtioDisk.Driver

/-! # The device, and runs

Every step is one of a few effects, and each of them keeps the invariant. -/

namespace CS352.VirtioDisk

open RingBuffer Transition Function

variable {ι β : Type*} {s t : State ι β} {queued reported : List ℕ} {p q : ι} {c : Call β}
  {idx : Idx} {r : Request β}

/-! ## The device -/

/-- A step of the device moves chains on. -/
theorem Inv.device (h : Inv s queued reported) {queued' reported' : List ℕ}
    (hplace : t.place = s.place) (hlock : t.lock = s.lock) (hcalm : t.panicked = none)
    (hfree : t.disk.free = s.disk.free)
    (hbuf : ∀ b, (t.buf b).blockno = (s.buf b).blockno ∧ (t.buf b).disk = (s.buf b).disk)
    (hthreads : ∀ p, (s.place p).Ok t)
    (havail : Counts num (2 ^ 16) t.disk.avail.ring t.device.lastAvail t.disk.avail.idx queued')
    (hused : Counts num (2 ^ 16) t.disk.used.ring t.disk.usedIdx t.disk.used.idx reported')
    (hheads : (heads t queued' reported').Perm (heads s queued reported))
    (hserved : t.device.failed = false →
      ∀ i ∈ t.device.done ++ reported', (t.disk.info i).status = 0)
    (hnotified : queued' ≠ [] → t.device.notified = true ∨ ∃ p, (s.place p).notifying = true)
    (hinterrupt : reported' ≠ [] → t.device.raising = true ∨ t.device.interrupt = true ∨
      ∃ acked, s.lock = some (.handler acked)) : Inv t queued' reported' := by
  have hpending : ∀ p r, Pending t p r ↔ Pending s p r := by
    intro p r
    simp only [Pending, hplace, hbuf]
  refine ⟨hcalm, ?_, ?_, ?_, ?_, havail, hused, hheads.nodup_iff.mpr h.nodup, ?_, hserved, ?_, ?_⟩
  · simpa only [hplace, hlock] using h.locked
  · simpa only [hplace, hbuf] using h.blocks
  · simpa only [hplace] using hthreads
  · simpa only [hplace, hfree] using h.chains
  · intro i
    simp only [hpending]
    exact hheads.mem_iff.trans (h.mem_heads i)
  · simpa only [hplace] using hnotified
  · simpa only [hlock] using hinterrupt

/-- The device has taken the chain at `head`. -/
def fetched (s : State ι β) (head : ℕ) : State ι β :=
  s.setDevice { s.device with
    lastAvail := uint16 (s.device.lastAvail + 1)
    busy := s.device.busy ++ [head]
    moved := update s.device.moved head fun _ => false }

theorem Inv.take {head : ℕ} (h : Inv s (head :: queued) reported) :
    Inv (fetched s head) queued reported := by
  refine h.device rfl rfl h.calm rfl (fun _ => ⟨rfl, rfl⟩) ?_ h.avail.pop.2 h.used ?_ h.served ?_
    h.interrupt
  · intro q
    have hok := h.threads q
    refine ⟨hok.small, hok.formatted, hok.publishing, ?_, hok.seen, hok.waiting⟩
    intro r hr k hk hor
    refine hok.copied r hr k hk (hor.imp_right ?_)
    rintro ⟨hbusy, hmoved⟩
    by_cases heq : r.idx.head = head
    · simp [fetched, State.setDevice, heq] at hmoved
    · simp only [fetched, State.setDevice, update_of_ne heq, List.mem_append,
        List.mem_singleton, heq, or_false] at hbusy hmoved
      exact ⟨hbusy, hmoved⟩
  · simp only [heads, fetched, State.setDevice, List.append_assoc, List.cons_append,
      List.nil_append]
    rw [← List.append_assoc]
    exact List.perm_middle.trans (by rw [List.append_assoc])
  · exact fun _ => h.notified (by simp)

theorem uint_sector {blockno : ℕ} (h : blockno < 2 ^ 31) :
    uint (blockno * (bsize / 512)) * 512 = blockno * bsize := by
  have hlt : blockno * 2 < 2 ^ 32 := by omega
  have hdiv : bsize / 512 = 2 := rfl
  rw [hdiv, uint, Nat.mod_eq_of_lt hlt, bsize]
  omega

section

variable [DecidableEq β]

/-- The bytes of a request from `lo` to `hi` are moved. -/
def movedBytes (s : State ι β) (r : Request β) (lo hi : ℕ) : State ι β :=
  let first := (s.buf r.call.b).blockno * bsize
  let data := (s.buf r.call.b).data
  let device := { s.device with
    moved := update s.device.moved r.idx.head fun k =>
      decide (lo ≤ k ∧ k < hi) || s.device.moved r.idx.head k }
  if r.call.write then
    s.setDevice { device with platter := fun a =>
      if first + lo ≤ a ∧ a < first + hi then data (a - first) else s.device.platter a }
  else
    (s.setDevice device).setBuf r.call.b { s.buf r.call.b with
      data := fun k => if lo ≤ k ∧ k < hi then s.device.platter (first + k) else data k }

/-- A move changes the contents of one block or one buffer. -/
theorem movedBytes_same (s : State ι β) (r : Request β) (lo hi : ℕ) :
    (movedBytes s r lo hi).place = s.place ∧ (movedBytes s r lo hi).lock = s.lock ∧
      (movedBytes s r lo hi).panicked = s.panicked ∧ (movedBytes s r lo hi).disk = s.disk ∧
      (∀ b, ((movedBytes s r lo hi).buf b).blockno = (s.buf b).blockno ∧
        ((movedBytes s r lo hi).buf b).disk = (s.buf b).disk) ∧
      (movedBytes s r lo hi).device = { s.device with
        moved := update s.device.moved r.idx.head fun k =>
          decide (lo ≤ k ∧ k < hi) || s.device.moved r.idx.head k
        platter := (movedBytes s r lo hi).device.platter } := by
  unfold movedBytes
  dsimp only
  split
  · exact ⟨rfl, rfl, rfl, rfl, fun _ => ⟨rfl, rfl⟩, rfl⟩
  · refine ⟨rfl, rfl, rfl, rfl, fun b => ?_, rfl⟩
    by_cases hb : b = r.call.b <;> simp [State.setBuf, State.setDevice, hb]

theorem copied_movedBytes {lo hi k : ℕ}
    (h : lo ≤ k ∧ k < hi ∨ Copied s r.call.b k) : Copied (movedBytes s r lo hi) r.call.b k := by
  unfold Copied movedBytes at *
  by_cases hk : lo ≤ k ∧ k < hi
  · dsimp only
    split
    · simp [State.setDevice, hk.1, hk.2]
    · simp [State.setDevice, State.setBuf, hk.1, hk.2]
  · have hcopied := h.resolve_left hk
    dsimp only
    split
    · simpa only [State.setDevice, Nat.add_le_add_iff_left, Nat.add_lt_add_iff_left, hk, if_false]
        using hcopied
    · simpa [State.setDevice, State.setBuf, hk] using hcopied

theorem copied_movedBytes_of_ne {lo hi k : ℕ} {b : β} (hhi : hi ≤ bsize) (hk : k < bsize)
    (hne : (s.buf b).blockno ≠ (s.buf r.call.b).blockno) (h : Copied s b k) :
    Copied (movedBytes s r lo hi) b k := by
  have hb : b ≠ r.call.b := by
    rintro rfl
    exact hne rfl
  have hrange : ¬ ((s.buf r.call.b).blockno * bsize + lo ≤ (s.buf b).blockno * bsize + k ∧
      (s.buf b).blockno * bsize + k < (s.buf r.call.b).blockno * bsize + hi) := by
    simp only [bsize] at hhi hk ⊢
    omega
  unfold Copied movedBytes at *
  dsimp only
  split
  · simpa only [State.setDevice, if_neg hrange] using h
  · simpa only [State.setBuf, State.setDevice, update_of_ne hb] using h

theorem Inv.transfer (h : Inv s queued reported) (hr : Pending s p r) {lo hi : ℕ}
    (hhi : hi ≤ bsize) : Inv (movedBytes s r lo hi) queued reported := by
  obtain ⟨hplace, hlock, hpanicked, hdisk, hbuf, hdevice⟩ := movedBytes_same s r lo hi
  have hcall := Place.call_of_request hr.1
  generalize hplatter : (movedBytes s r lo hi).device.platter = platter at hdevice
  have hwaits : ∀ chan, Waits s chan → Waits (movedBytes s r lo hi) chan := by
    intro chan hchan
    cases chan with
    | free => simpa only [Waits, hdisk] using hchan
    | buf b => simpa only [Waits, hbuf] using hchan
  refine h.device hplace hlock (hpanicked.trans h.calm) (by rw [hdisk]) hbuf ?_ ?_ ?_ ?_ ?_ ?_ ?_
  · intro q
    have hwaiting := fun chan hchan => hwaits chan ((h.threads q).waiting chan hchan)
    by_cases hqp : q = p
    · subst hqp
      have hok := h.threads q
      refine ⟨?_, ?_, ?_, ?_, ?_, hwaiting⟩
      · intro c hc
        rw [(hbuf c.b).1]
        exact hok.small c hc
      all_goals
        intro r' hr'
        cases hr.1.symm.trans hr'
      · rw [(hbuf r.call.b).1, hdisk]
        exact hok.formatted r hr.1
      · rw [(hbuf r.call.b).2, hdisk]
        exact hok.publishing r hr.1
      · intro k hk hor
        refine copied_movedBytes ?_
        rw [hdisk, hdevice] at hor
        simp only [update_self, Bool.or_eq_true, decide_eq_true_eq] at hor
        rcases hor with hstatus | ⟨hbusy, hmoved | hmoved⟩
        · exact .inr (hok.copied r hr.1 k hk (.inl hstatus))
        · exact .inl hmoved
        · exact .inr (hok.copied r hr.1 k hk (.inr ⟨hbusy, hmoved⟩))
      · rw [(hbuf r.call.b).2, hdisk]
        exact hok.seen r hr.1
    · refine (h.threads q).congr (.refl _) (fun c _ => hbuf c.b) ?_ (fun _ => by rw [hdisk])
        hwaiting
      intro r' hr'
      have hne : r'.idx.head ≠ r.idx.head := fun heq => hqp (h.head_inj hr' hr.1 heq)
      have hblock : (s.buf r'.call.b).blockno ≠ (s.buf r.call.b).blockno :=
        fun heq => hqp (h.blocks q p _ _ (Place.call_of_request hr') hcall heq)
      refine ⟨fun i _ => by rw [hdisk], by rw [hdisk], by rw [hdisk], by rw [hdevice]; exact id, ?_,
        fun k hk => copied_movedBytes_of_ne hhi hk hblock⟩
      rw [hdevice]
      exact update_of_ne hne ..
  · rw [hdisk, hdevice]
    exact h.avail
  · rw [hdisk]
    exact h.used
  · rw [heads, hdevice]
    exact .refl _
  · rw [hdisk, hdevice]
    exact h.served
  · rw [hdevice]
    exact h.notified
  · rw [hdevice]
    exact h.interrupt

end

/-- The device is done with the chain at `head`. -/
def answered (s : State ι β) (head : ℕ) (ok : Bool) : State ι β :=
  let info := update s.disk.info head
    { s.disk.info head with status := if ok then 0 else 1 }
  (s.setDisk { s.disk with info := info }).setDevice { s.device with
    busy := s.device.busy.erase head
    done := s.device.done ++ [head]
    failed := s.device.failed || !ok }

theorem Inv.answer (h : Inv s queued reported) (hr : Pending s p r) {ok : Bool}
    (hbusy : r.idx.head ∈ s.device.busy)
    (hall : ok = true → ∀ k < bsize, s.device.moved r.idx.head k = true) :
    Inv (answered s r.idx.head ok) queued reported := by
  have hnodup := (List.nodup_append.mp (List.nodup_append.mp h.nodup).1)
  have hinfo : ∀ i, i ≠ r.idx.head →
      (answered s r.idx.head ok).disk.info i = s.disk.info i :=
    fun i hi => update_of_ne hi ..
  have hself : (answered s r.idx.head ok).disk.info r.idx.head =
      { s.disk.info r.idx.head with status := if ok then 0 else 1 } := update_self ..
  refine h.device rfl rfl h.calm rfl (fun _ => ⟨rfl, rfl⟩) ?_ h.avail h.used ?_ ?_ h.notified
    h.interrupt
  · intro q
    by_cases hqp : q = p
    · subst hqp
      have hok := h.threads q
      refine ⟨hok.small, ?_, hok.publishing, ?_, ?_, hok.waiting⟩ <;> intro r' hr' <;>
        cases hr.1.symm.trans hr'
      · exact (hok.formatted r hr.1).congr (fun _ _ => rfl) rfl (by rw [hself])
      · rintro k hk (hstatus | ⟨hmem, -⟩)
        · rw [hself] at hstatus
          have htrue : ok = true := by
            by_contra hfalse
            simp [hfalse] at hstatus
          exact hok.copied r hr.1 k hk (.inr ⟨hbusy, hall htrue k hk⟩)
        · have hnot : r.idx.head ∉ s.device.busy.erase r.idx.head :=
            (List.nodup_append.mp hnodup.1).2.1.not_mem_erase
          exact absurd hmem hnot
      · intro hfalse
        cases hr.2.2.symm.trans hfalse
    · refine (h.threads q).congr (.refl _) (fun _ _ => ⟨rfl, rfl⟩) ?_ (fun _ => rfl)
        (h.threads q).waiting
      intro r' hr'
      have hne : r'.idx.head ≠ r.idx.head := fun heq => hqp (h.head_inj hr' hr.1 heq)
      exact ⟨fun _ _ => rfl, rfl, hinfo _ hne, List.mem_of_mem_erase, rfl, fun _ _ hk => hk⟩
  · have hmove : (s.device.busy.erase r.idx.head ++ (s.device.done ++ [r.idx.head])).Perm
        (s.device.busy ++ s.device.done) := by
      rw [← List.append_assoc]
      refine List.perm_append_comm.trans ?_
      exact (List.perm_cons_erase hbusy).symm.append_right s.device.done
    refine List.Perm.append_right reported ?_
    simp only [answered, State.setDevice, State.setDisk, List.append_assoc]
    exact hmove.append_left queued
  · intro hok i hi
    obtain ⟨hold, htrue⟩ : s.device.failed = false ∧ ok = true := by
      simpa [answered, State.setDevice] using hok
    by_cases hne : i = r.idx.head
    · rw [hne, hself, if_pos htrue]
    · rw [hinfo i hne]
      refine h.served hold i ?_
      simp only [answered, State.setDevice, List.mem_append, List.mem_singleton, hne,
        or_false] at hi
      exact List.mem_append.mpr hi

/-- The device has put the chain at `head` into the used ring. -/
def reportedChain (s : State ι β) (head : ℕ) : State ι β :=
  let used := { ring := update s.disk.used.ring (s.disk.used.idx % num) head
                idx := uint16 (s.disk.used.idx + 1) }
  (s.setDisk { s.disk with used := used }).setDevice
    { s.device with done := s.device.done.erase head, raising := true }

theorem Inv.putUsed (h : Inv s queued reported) {head : ℕ} (hdone : head ∈ s.device.done) :
    Inv (reportedChain s head) queued (reported ++ [head]) := by
  have hnotMem : head ∉ reported := by
    intro hmem
    exact (List.nodup_append.mp h.nodup).2.2 head (by simp [hdone]) head hmem rfl
  have hreported : reported.Nodup := (List.nodup_append.mp h.nodup).2.1
  have hlen : reported.length < num := by
    refine length_lt_num (List.nodup_cons.mpr ⟨hnotMem, hreported⟩) ?_ ?_
    · exact h.head_lt (by simp [heads, hdone])
    · exact fun j hj => h.head_lt (by simp [heads, hj])
  refine h.device rfl rfl h.calm rfl (fun _ => ⟨rfl, rfl⟩) ?_ h.avail (h.used.push hlen) ?_ ?_
    h.notified fun _ => .inl rfl
  · intro q
    have hok := h.threads q
    exact ⟨hok.small, fun r hr => (hok.formatted r hr).congr (fun _ _ => rfl) rfl rfl,
      hok.publishing, hok.copied, hok.seen, hok.waiting⟩
  · simp only [heads, List.append_assoc]
    refine List.Perm.append_left queued (List.Perm.append_left s.device.busy ?_)
    calc (s.device.done.erase head ++ (reported ++ [head])).Perm
          (head :: (s.device.done.erase head ++ reported)) := by
            rw [← List.append_assoc]
            exact List.perm_append_comm
      _ = (head :: s.device.done.erase head) ++ reported := rfl
      _ |>.Perm (s.device.done ++ reported) :=
        (List.perm_cons_erase hdone).symm.append_right reported
  · intro hok i hi
    refine h.served hok i ?_
    simp only [reportedChain, State.setDevice, List.mem_append,
      List.mem_singleton] at hi ⊢
    rcases hi with hi | hi | rfl
    · exact .inl (List.mem_of_mem_erase hi)
    · exact .inr hi
    · exact .inl hdone

variable [DecidableEq β]

theorem Inv.modify (h : Inv s queued reported) {b : β}
    (hfree : ∀ q, ∀ c ∈ (s.place q).call, c.b ≠ b) (blockno : ℕ) (data : ℕ → UInt8) :
    Inv (s.setBuf b ⟨blockno, data, (s.buf b).disk⟩) queued reported := by
  have hsame : ∀ q c, (s.place q).call = some c →
      (s.setBuf b ⟨blockno, data, (s.buf b).disk⟩).buf c.b = s.buf c.b :=
    fun q c hq => update_of_ne (hfree q c hq) ..
  have hpending : ∀ q r, Pending (s.setBuf b ⟨blockno, data, (s.buf b).disk⟩) q r ↔
      Pending s q r := by
    intro q r
    unfold Pending
    refine and_congr_right fun hq => ?_
    rw [hsame q r.call (Place.call_of_request hq)]
    rfl
  refine ⟨h.calm, h.locked, ?_, ?_, h.chains, h.avail, h.used, h.nodup, ?_, h.served, h.notified,
    h.interrupt⟩
  · intro q q' c c' hq hq'
    rw [hsame q c hq, hsame q' c' hq']
    exact h.blocks q q' c c' hq hq'
  · intro q
    refine (h.threads q).of_buf (.refl _) rfl (hsame q) (fun _ _ => ⟨fun _ _ => rfl, rfl, rfl⟩)
      (fun _ => rfl) fun chan hchan => ?_
    have hwaits := (h.threads q).waiting chan hchan
    cases chan with
    | free => exact hwaits
    | buf b' =>
      obtain ⟨c, hc, rfl⟩ := Place.call_of_chan hchan
      change ((s.setBuf b ⟨blockno, data, (s.buf b).disk⟩).buf c.b).disk = true
      rw [hsame q c hc]
      exact hwaits
  · simp only [hpending]
    exact h.mem_heads

/-- The device moves the bytes that a request is about. -/
theorem move_eq {lo hi : ℕ} (hbusy : r.idx.head ∈ s.device.busy)
    (hsmall : (s.buf r.call.b).blockno < 2 ^ 31)
    (hchain : readChain s.disk r.idx.head =
      some ⟨blkReq (s.buf r.call.b).blockno r.call.write, r.call.b, bsize, r.idx.head⟩) :
    move s r.idx.head lo hi = if hi ≤ bsize then some (movedBytes s r lo hi) else none := by
  rw [move, if_pos hbusy, hchain, Option.bind_some]
  cases hwrite : r.call.write <;> simp [blkReq, uint_sector hsmall, movedBytes, hwrite]

omit [DecidableEq β] in
/-- The chains that the device works on are requests, and it reads them as they were written. -/
theorem Inv.busy_pending (h : Inv s queued reported) {head : ℕ} (hbusy : head ∈ s.device.busy) :
    ∃ p r, Pending s p r ∧ r.idx.head = head ∧ (s.buf r.call.b).blockno < 2 ^ 31 ∧
      readChain s.disk head =
        some ⟨blkReq (s.buf r.call.b).blockno r.call.write, r.call.b, bsize, head⟩ := by
  obtain ⟨p, r, hr, rfl⟩ := (h.mem_heads head).mp (by simp [heads, hbusy])
  exact ⟨p, r, hr, rfl, (h.threads p).small _ (Place.call_of_request hr.1),
    ((h.threads p).formatted r hr.1).readChain_eq⟩

/-! ## Runs -/

variable [DecidableEq ι]

/-- What a step can do, and what is in the rings after it. -/
inductive Effect (s : State ι β) (queued reported : List ℕ) :
    Action ι β → State ι β → List ℕ → List ℕ → Prop where
  | call (p : ι) (c : Call β) (hp : s.place p = .out) :
      Effect s queued reported (.call p c) (s.moveTo p (.enter c)) queued reported
  | enter (p : ι) (c : Call β) (hp : s.place p = .enter c) (hlock : s.lock = none) :
      Effect s queued reported (.acquire p) (acquired s p (.alloc c)) queued reported
  | woken (p : ι) (c : Call β) (idx : Idx) (hp : s.place p = .woken c idx) (hlock : s.lock = none) :
      Effect s queued reported (.acquire p) (acquired s p (.await c idx)) queued reported
  | requested (p : ι) (c : Call β) (idx : Idx) (hp : s.place p = .alloc c)
      (hnodup : idx.toList.Nodup) (hfree : ∀ i ∈ idx.toList, s.disk.free i = true ∧ i < num) :
      Effect s queued reported (.run p) (requested s p c idx) queued reported
  | waitFree (p : ι) (c : Call β) (d : Disk β) (woken : Bool) (hp : s.place p = .alloc c)
      (hdisk : Restored s.disk d) (hscarce : Scarce s.disk) :
      Effect s queued reported (.run p)
        (((if woken then s.wakeup .free else s).setDisk d).moveTo p (.waitFree c)).release
        queued reported
  | publish (p : ι) (c : Call β) (idx : Idx) (hp : s.place p = .publish c idx) :
      Effect s queued reported (.run p) (publishSection s p c idx) (queued ++ [idx.head]) reported
  | notify (p : ι) (c : Call β) (idx : Idx) (hp : s.place p = .notify c idx) :
      Effect s queued reported (.run p) (notifySection s p c idx) queued reported
  | asleep (p : ι) (c : Call β) (idx : Idx) (hp : s.place p = .await c idx)
      (hdisk : (s.buf c.b).disk = true) :
      Effect s queued reported (.run p) (s.moveTo p (.asleep c idx)).release queued reported
  | finished (p : ι) (c : Call β) (idx : Idx) (hp : s.place p = .await c idx)
      (hdisk : (s.buf c.b).disk = false) :
      Effect s queued reported (.run p) (finished s p idx) queued reported
  | kill (p : ι) : Effect s queued reported (.kill p) (s.moveTo p (s.place p).wake) queued reported
  | intr (hinterrupt : s.device.interrupt = true) (hlock : s.lock = none) :
      Effect s queued reported .intr { s with lock := some (.handler false) } queued reported
  | ack (hlock : s.lock = some (.handler false)) : Effect s queued reported .intrPass
      { s with lock := some (.handler true), device := { s.device with interrupt := false } }
      queued reported
  | seen (p : ι) (r : Request β) (rest : List ℕ) (hlock : s.lock = some (.handler true))
      (hr : Pending s p r) (hreported : reported = r.idx.head :: rest)
      (hstatus : (s.disk.info r.idx.head).status = 0) :
      Effect s queued reported .intrPass (seen s r.call.b) queued rest
  | failed (hfailed : s.device.failed = true) :
      Effect s queued reported .intrPass { s with panicked := some .intrStatus } queued reported
  | intrEnd (hlock : s.lock = some (.handler true)) (hreported : reported = []) :
      Effect s queued reported .intrPass s.release queued reported
  | fetch (head : ℕ) (rest : List ℕ) (hqueued : queued = head :: rest) :
      Effect s queued reported .fetch (fetched s head) rest reported
  | pause (hqueued : queued = []) : Effect s queued reported .pause
      { s with device := { s.device with notified := false } } queued reported
  | move (p : ι) (r : Request β) (lo hi : ℕ) (hr : Pending s p r) (hhi : hi ≤ bsize) :
      Effect s queued reported (.move r.idx.head lo hi) (movedBytes s r lo hi) queued reported
  | finish (p : ι) (r : Request β) (ok : Bool) (hr : Pending s p r)
      (hbusy : r.idx.head ∈ s.device.busy)
      (hall : ok = true → ∀ k < bsize, s.device.moved r.idx.head k = true) :
      Effect s queued reported (.finish r.idx.head ok) (answered s r.idx.head ok) queued reported
  | report (head : ℕ) (hdone : head ∈ s.device.done) : Effect s queued reported (.report head)
      (reportedChain s head) queued (reported ++ [head])
  | raise (hraising : s.device.raising = true) : Effect s queued reported .raise
      { s with device := { s.device with raising := false, interrupt := true } } queued reported
  | modify (b : β) (blockno : ℕ) (data : ℕ → UInt8) : Effect s queued reported
      (.modify b blockno data) (s.setBuf b ⟨blockno, data, (s.buf b).disk⟩) queued reported

theorem Inv.effect_run (h : Inv s queued reported) {p : ι} (hs : step s (.run p) = some t) :
    ∃ queued', Effect s queued reported (.run p) t queued' reported := by
  obtain ⟨-, hs⟩ := Option.ite_none_left_eq_some.mp hs
  dsimp only at hs
  cases hp : s.place p with
  | alloc c =>
    rw [hp] at hs
    cases hs
    rcases alloc3Desc_spec s with ⟨d, woken, hd, hdisk, hscarce⟩ | ⟨idx, hnodup, hfree, hd⟩
    · simp only [allocSection, hd, State.orPanic, Except.map]
      exact ⟨_, .waitFree p c d woken hp hdisk hscarce⟩
    · simp only [allocSection, hd, State.orPanic, Except.map]
      exact ⟨_, .requested p c idx hp hnodup hfree⟩
  | publish c idx =>
    rw [hp] at hs
    cases hs
    exact ⟨_, .publish p c idx hp⟩
  | notify c idx =>
    rw [hp] at hs
    cases hs
    exact ⟨_, .notify p c idx hp⟩
  | await c idx =>
    rw [hp] at hs
    cases hs
    cases hdisk : (s.buf c.b).disk with
    | true =>
      simp only [awaitSection, hdisk, if_true]
      exact ⟨_, .asleep p c idx hp hdisk⟩
    | false =>
      have hrequest : (s.place p).request = some ⟨c, idx⟩ := by rw [hp]; rfl
      have hformatted := (h.threads p).formatted _ hrequest
      have hfree := freeChain_eq (s := s.setDisk { s.disk with
          info := update s.disk.info idx.head { s.disk.info idx.head with b := none } })
        ⟨hformatted.head, hformatted.middle, hformatted.last⟩ (h.chains.nodup p _ hrequest)
        (h.chains.busy hrequest)
      simp only [awaitSection, hdisk, Bool.false_eq_true, if_false, hfree, State.orPanic,
        Except.map]
      exact ⟨_, .finished p c idx hp hdisk⟩
  | _ => simp [hp] at hs

/-- A pass of the handler finds a request that the device has answered. -/
theorem Inv.effect_intrPass (h : Inv s queued reported) (hs : step s .intrPass = some t) :
    ∃ reported', Effect s queued reported .intrPass t queued reported' := by
  obtain ⟨-, hs⟩ := Option.ite_none_left_eq_some.mp hs
  dsimp only at hs
  split at hs
  next acked hlock =>
    cases hs
    cases acked with
    | false => exact ⟨_, .ack hlock⟩
    | true =>
      cases reported with
      | nil =>
        have hend := h.used.nread_eq_nwrite_iff.mpr rfl
        simp only [intrPass, Bool.true_eq_false, if_false, hend, if_true]
        exact ⟨_, .intrEnd hlock rfl⟩
      | cons id rest =>
        have hne : s.disk.usedIdx ≠ s.disk.used.idx := fun heq =>
          List.cons_ne_nil _ _ (h.used.nread_eq_nwrite_iff.mp heq)
        obtain ⟨p, r, hr, rfl⟩ := (h.mem_heads id).mp (by simp [heads])
        have hb := ((h.threads p).formatted r hr.1).info
        simp only [intrPass, Bool.true_eq_false, if_false, hne, h.used.pop.1, hb]
        split_ifs with hstatus
        · refine ⟨_, .failed ?_⟩
          by_contra hok
          exact hstatus (h.served (by simpa using hok) _ (by simp))
        · exact ⟨_, .seen p r rest hlock hr rfl (not_not.mp hstatus)⟩
  next => cases hs

theorem Inv.effect (h : Inv s queued reported) {a : Action ι β} (hs : step s a = some t) :
    ∃ queued' reported', Effect s queued reported a t queued' reported' := by
  have hstep := hs
  obtain ⟨-, hs⟩ := Option.ite_none_left_eq_some.mp hs
  cases a with
  | call p c =>
    obtain ⟨hp, heq⟩ := Option.ite_none_right_eq_some.mp hs
    cases heq
    exact ⟨_, _, .call p c hp⟩
  | acquire p =>
    dsimp only at hs
    split at hs
    next c hp =>
      obtain ⟨hlock, heq⟩ := Option.ite_none_right_eq_some.mp hs
      cases heq
      exact ⟨_, _, .enter p c hp hlock⟩
    next c idx hp =>
      obtain ⟨hlock, heq⟩ := Option.ite_none_right_eq_some.mp hs
      cases heq
      exact ⟨_, _, .woken p c idx hp hlock⟩
    next => cases hs
  | run p =>
    obtain ⟨queued', heffect⟩ := h.effect_run hstep
    exact ⟨_, _, heffect⟩
  | kill p =>
    obtain ⟨-, heq⟩ := Option.ite_none_right_eq_some.mp hs
    cases heq
    exact ⟨_, _, .kill p⟩
  | intr =>
    obtain ⟨hinterrupt, hs⟩ := Option.ite_none_right_eq_some.mp hs
    obtain ⟨hlock, heq⟩ := Option.ite_none_right_eq_some.mp hs
    cases heq
    exact ⟨_, _, .intr hinterrupt hlock⟩
  | intrPass =>
    obtain ⟨reported', heffect⟩ := h.effect_intrPass hstep
    exact ⟨_, _, heffect⟩
  | fetch =>
    obtain ⟨⟨-, hne⟩, heq⟩ := Option.ite_none_right_eq_some.mp hs
    cases heq
    cases queued with
    | nil => exact absurd (h.avail.nread_eq_nwrite_iff.mpr rfl) hne
    | cons head rest =>
      dsimp only
      rw [h.avail.pop.1]
      exact ⟨_, _, .fetch head rest rfl⟩
  | pause =>
    obtain ⟨hempty, heq⟩ := Option.ite_none_right_eq_some.mp hs
    cases heq
    exact ⟨_, _, .pause (h.avail.nread_eq_nwrite_iff.mp hempty)⟩
  | move head lo hi =>
    obtain ⟨hbusy, -⟩ := Option.ite_none_right_eq_some.mp hs
    obtain ⟨p, r, hr, rfl, hsmall, hchain⟩ := h.busy_pending hbusy
    obtain ⟨hhi, heq⟩ :=
      Option.ite_none_right_eq_some.mp ((move_eq hbusy hsmall hchain).symm.trans hs)
    cases heq
    exact ⟨_, _, .move p r lo hi hr hhi⟩
  | finish head ok =>
    obtain ⟨hbusy, hs⟩ := Option.ite_none_right_eq_some.mp hs
    obtain ⟨p, r, hr, rfl, -, hchain⟩ := h.busy_pending hbusy
    rw [hchain, Option.bind_some] at hs
    obtain ⟨hall, heq⟩ := Option.ite_none_right_eq_some.mp hs
    cases heq
    exact ⟨_, _, .finish p r ok hr hbusy hall⟩
  | report head =>
    obtain ⟨hdone, heq⟩ := Option.ite_none_right_eq_some.mp hs
    cases heq
    exact ⟨_, _, .report head hdone⟩
  | raise =>
    obtain ⟨hraising, heq⟩ := Option.ite_none_right_eq_some.mp hs
    cases heq
    exact ⟨_, _, .raise hraising⟩
  | modify b blockno data =>
    cases hs
    exact ⟨_, _, .modify b blockno data⟩

/-- Only a device that has failed makes the driver panic. -/
theorem Inv.of_effect (h : Inv s queued reported) {a : Action ι β} {queued' reported' : List ℕ}
    (hc : Permitted s a) (he : Effect s queued reported a t queued' reported') :
    Inv t queued' reported' ∨
      s.device.failed = true ∧ t.panicked = some .intrStatus ∧ t.device.failed = true := by
  cases he with
  | call p c hp => exact .inl (h.call hp hc)
  | enter p _ hp hlock | woken p _ _ hp hlock =>
    exact .inl (h.acquire hlock (by rw [hp]; exact ⟨rfl, rfl, rfl⟩) rfl rfl rfl)
  | requested p c idx hp hnodup hfree => exact .inl (h.request hp hnodup hfree)
  | waitFree p c d woken hp hdisk hscarce =>
    refine .inl (h.sleep woken (by rw [hp]; rfl) (by rw [hp]; rfl) ?_ rfl ?_ hdisk)
    · rw [hp]
      exact ⟨rfl, rfl, rfl⟩
    · rintro _ ⟨⟩
      exact hscarce
  | publish p c idx hp => exact .inl (h.publish hp)
  | notify p c idx hp => exact .inl (h.notify hp)
  | asleep p c idx hp hdisk =>
    refine .inl (h.sleep false (by rw [hp]; rfl) (by rw [hp]; rfl) ?_ rfl ?_ (.refl _))
    · rw [hp]
      exact ⟨rfl, rfl, rfl⟩
    · rintro _ ⟨⟩
      exact hdisk
  | finished p c idx hp hdisk =>
    exact .inl (h.complete (r := ⟨c, idx⟩) (by rw [hp]; rfl) (by rw [hp]; rfl) (by rw [hp]; rfl)
      hdisk)
  | kill p => exact .inl h.kill
  | intr hinterrupt hlock =>
    exact .inl (h.signal ⟨_, _, _, rfl⟩ (.inr ⟨by simp [hlock], by simp⟩) h.notified
      fun _ => .inr (.inr ⟨false, rfl⟩))
  | ack hlock =>
    exact .inl (h.signal ⟨_, _, _, rfl⟩ (.inr ⟨by simp [hlock], by simp⟩) h.notified
      fun _ => .inr (.inr ⟨true, rfl⟩))
  | seen p r rest hlock hr hreported hstatus =>
    subst hreported
    exact .inl (h.handle hr rfl hstatus hlock)
  | failed hfailed => exact .inr ⟨hfailed, rfl, hfailed⟩
  | intrEnd hlock hreported =>
    exact .inl (h.signal ⟨_, _, _, rfl⟩ (.inr ⟨by simp [hlock], by simp⟩) h.notified
      fun hne => absurd hreported hne)
  | fetch head rest hqueued =>
    subst hqueued
    exact .inl h.take
  | pause hqueued =>
    exact .inl (h.signal ⟨_, _, _, rfl⟩ (.inl rfl) (fun hne => absurd hqueued hne) h.interrupt)
  | move p r lo hi hr hhi => exact .inl (h.transfer hr hhi)
  | finish p r ok hr hbusy hall => exact .inl (h.answer hr hbusy hall)
  | report head hdone => exact .inl (h.putUsed hdone)
  | raise hraising =>
    exact .inl (h.signal ⟨_, _, _, rfl⟩ (.inl rfl) h.notified fun _ => .inr (.inl rfl))
  | modify b blockno data => exact .inl (h.modify hc blockno data)

/-- The driver is in order, or has stopped because the device has failed a request. -/
def Good (s : State ι β) : Prop :=
  (∃ queued reported, Inv s queued reported) ∨
    s.panicked = some .intrStatus ∧ s.device.failed = true

theorem Good.step (h : Good s) {a : Action ι β} (hc : Permitted s a) (hs : step s a = some t) :
    Good t := by
  rcases h with ⟨queued, reported, h⟩ | ⟨hpanicked, -⟩
  · obtain ⟨queued', reported', heffect⟩ := h.effect hs
    exact (h.of_effect hc heffect).imp (fun hinv => ⟨queued', reported', hinv⟩) And.right
  · simp [VirtioDisk.step, hpanicked] at hs

end CS352.VirtioDisk

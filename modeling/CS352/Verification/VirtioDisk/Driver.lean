import CS352.Verification.VirtioDisk.Invariant

/-! # The steps of the driver and of the device -/

namespace CS352.VirtioDisk

open RingBuffer Transition Function

variable {ι β : Type*} {s t : State ι β} {queued reported : List ℕ} {p q : ι} {c : Call β}
  {idx : Idx} {r : Request β}

/-- The new head is in no ring and not with the device. -/
theorem Inv.publish_notMem (h : Inv s queued reported) (hp : (s.place p).request = some r)
    (hpub : (s.place p).publishing = true) : r.idx.head ∉ heads s queued reported := by
  intro hmem
  obtain ⟨q, r', hr', heq⟩ := (h.mem_heads _).mp hmem
  cases h.head_inj hr'.1 hp heq
  rw [hr'.2.1] at hpub
  cases hpub

/-- Nobody but the lock and the signals of the device change. -/
theorem Inv.signal (h : Inv s queued reported) {lock : Option (Owner ι)} {device : Device}
    (hdevice : ∃ notified raising interrupt, device = { s.device with
      notified := notified, raising := raising, interrupt := interrupt })
    (hlock : lock = s.lock ∨ (∀ p, s.lock ≠ some (.thread p)) ∧ ∀ p, lock ≠ some (.thread p))
    (hnotified : queued ≠ [] → device.notified = true ∨ ∃ q, (s.place q).notifying = true)
    (hinterrupt : reported ≠ [] → device.raising = true ∨ device.interrupt = true ∨
      ∃ acked, lock = some (.handler acked)) :
    Inv { s with lock := lock, device := device } queued reported := by
  refine h.frame h.calm (.refl _) rfl hdevice (fun q => .refl _) (fun q => (h.threads q).waiting) ?_
    hnotified hinterrupt
  intro q
  rcases hlock with rfl | ⟨hold, hnew⟩
  · exact h.locked q
  · exact iff_of_false (by simp [h.no_thread hold q]) (hnew q)

/-! ## Calls -/

section

variable [DecidableEq ι]

theorem Inv.call (h : Inv s queued reported) (hout : s.place p = .out)
    (hc : Permitted s (.call p c)) : Inv (s.moveTo p (.enter c)) queued reported := by
  have hsame : ∀ q, ((s.moveTo p (.enter c)).place q).request = (s.place q).request ∧
      ((s.moveTo p (.enter c)).place q).publishing = (s.place q).publishing ∧
      ((s.moveTo p (.enter c)).place q).notifying = (s.place q).notifying ∧
      ((s.moveTo p (.enter c)).place q).locked = (s.place q).locked := by
    refine forall_moveTo (P := fun q place => place.request = (s.place q).request ∧
      place.publishing = (s.place q).publishing ∧ place.notifying = (s.place q).notifying ∧
      place.locked = (s.place q).locked).mpr ⟨?_, fun q _ => ⟨rfl, rfl, rfl, rfl⟩⟩
    rw [hout]
    exact ⟨rfl, rfl, rfl, rfl⟩
  have hcall : ∀ q, ((s.moveTo p (.enter c)).place q).call =
      if q = p then some c else (s.place q).call := by
    intro q
    by_cases hqp : q = p <;> simp [State.moveTo, hqp, Place.call]
  have hpending : ∀ q r, Pending (s.moveTo p (.enter c)) q r ↔ Pending s q r := by
    intro q r
    rw [Pending, (hsame q).1, (hsame q).2.1]
    rfl
  refine ⟨h.calm, ?_, ?_, ?_, ?_, h.avail, h.used, h.nodup, ?_, h.served, ?_, h.interrupt⟩
  · simp only [hsame]
    exact h.locked
  · intro q q' c₁ c₂ hq hq' heq
    rw [hcall] at hq hq'
    split_ifs at hq hq' with hqp hqp' hqp'
    · rw [hqp, hqp']
    · cases hq
      exact absurd heq.symm (hc.2 q' c₂ hq')
    · cases hq'
      exact absurd heq (hc.2 q c₁ hq)
    · exact h.blocks q q' c₁ c₂ hq hq' heq
  · refine forall_moveTo (P := fun _ place => place.Ok (s.moveTo p (.enter c))).mpr
      ⟨.of_none rfl rfl ?_, fun q _ => (h.threads q).of_eq rfl rfl rfl⟩
    rintro _ ⟨⟩
    exact hc.1
  · simp only [hsame]
    exact h.chains
  · simp only [hpending]
    exact h.mem_heads
  · simp only [hsame]
    exact h.notified

/-- A thread gets the lock. -/
def acquired (s : State ι β) (p : ι) (place : Place β) : State ι β :=
  { s.moveTo p place with lock := some (.thread p) }

theorem Inv.acquire (h : Inv s queued reported) {place : Place β} (hlock : s.lock = none)
    (hsim : place.Similar (s.place p)) (hchan : place.chan = none) (hlocked : place.locked = true)
    (hnotify : place.notifying = false) : Inv (acquired s p place) queued reported := by
  refine h.move hsim (by simp [hchan]) (by simp [hlocked]) ?_ ?_ (by simp [hlock])
  · intro q hqp
    rw [h.no_thread (by simp [hlock])]
    simp [Ne.symm hqp]
  · rw [hnotify, h.no_notify (by simp [hlock])]

theorem Inv.kill (h : Inv s queued reported) :
    Inv (s.moveTo p (s.place p).wake) queued reported := by
  refine h.move ⟨by simp, by simp, by simp⟩ (by simp) ?_ (fun q _ => h.locked q) (by simp)
    fun _ _ => rfl
  rw [Place.locked_wake]
  exact h.locked p

/-! ## A request is made -/

theorem Inv.notify (h : Inv s queued reported) (hp : s.place p = .notify c idx) :
    Inv (notifySection s p c idx) queued reported := by
  refine h.frame h.calm (.refl _) rfl ⟨_, _, _, rfl⟩ ?_ ?_ (h.locked_moveTo (by rw [hp]; rfl) rfl)
    (fun _ => .inl rfl) h.interrupt
  · refine forall_moveTo (P := fun q place => place.Similar (s.place q)).mpr
      ⟨?_, fun q _ => .refl _⟩
    rw [hp]
    exact ⟨rfl, rfl, rfl⟩
  · exact forall_moveTo (P := fun q place => ∀ chan, place.chan = some chan → Waits s chan).mpr
      ⟨by simp [Place.chan], fun q _ => (h.threads q).waiting⟩

theorem Inv.publish (h : Inv s queued reported) (hp : s.place p = .publish c idx) :
    Inv (publishSection s p c idx) (queued ++ [idx.head]) reported := by
  have hrequest : (s.place p).request = some ⟨c, idx⟩ := by rw [hp]; rfl
  have hpub : (s.place p).publishing = true := by rw [hp]; rfl
  have hlocked := Place.locked_of_publishing hpub
  have hnotMem : idx.head ∉ heads s queued reported := h.publish_notMem hrequest hpub
  obtain ⟨hentry, hbusy⟩ := (h.threads p).publishing _ hrequest hpub
  have hsame : ∀ q, ((publishSection s p c idx).place q).request =
        (s.place q).request ∧
      ((publishSection s p c idx).place q).call = (s.place q).call := by
    refine forall_moveTo (P := fun q place => place.request = (s.place q).request ∧
      place.call = (s.place q).call).mpr ⟨?_, fun q _ => ⟨rfl, rfl⟩⟩
    rw [hp]
    exact ⟨rfl, rfl⟩
  have hpending : ∀ q r, Pending (publishSection s p c idx) q r ↔
      Pending s q r ∨ q = p ∧ r = ⟨c, idx⟩ := by
    refine forall_moveTo (P := fun q place => ∀ r, place.request = some r ∧
      place.publishing = false ∧ (s.buf r.call.b).disk = true ↔
      Pending s q r ∨ q = p ∧ r = ⟨c, idx⟩).mpr ⟨fun r => ?_, fun q hqp r => ?_⟩
    · have hnot : ¬ Pending s p r := fun hr => by simp [hr.2.1] at hpub
      simp only [hnot, false_or, true_and]
      constructor
      · rintro ⟨hr, -⟩
        cases hr
        rfl
      · rintro rfl
        exact ⟨rfl, rfl, hbusy⟩
    · simp only [hqp, false_and, or_false]
      rfl
  have hheads : (heads (publishSection s p c idx) (queued ++ [idx.head])
      reported).Perm (idx.head :: heads s queued reported) := by
    simp only [heads, List.append_assoc]
    exact List.perm_middle
  refine ⟨h.calm, h.locked_moveTo hlocked rfl, ?_, ?_, ?_, ?_, h.used, ?_, ?_, h.served,
    fun _ => .inr ⟨p, ?_⟩, h.interrupt⟩
  · simp only [hsame]
    exact h.blocks
  · refine forall_moveTo (P := fun _ place => place.Ok (publishSection s p c idx)).mpr
      ⟨?_, fun q hqp => ?_⟩
    · have hok := h.threads p
      rw [hp] at hok
      exact ⟨hok.small, fun r hr => (hok.formatted r hr).congr (fun _ _ => rfl) rfl rfl,
        by simp [Place.publishing], hok.copied, hok.seen, by simp [Place.chan]⟩
    · refine (h.threads q).of_buf (.refl _) rfl (fun _ _ => rfl)
        (fun _ _ => ⟨fun _ _ => rfl, rfl, rfl⟩) (fun hq => ?_) (h.threads q).waiting
      have hnot := h.not_locked hlocked hqp
      rw [Place.locked_of_publishing hq] at hnot
      cases hnot
  · simp only [hsame]
    exact h.chains
  · have hlen := h.queued_lt (h.chains.busy hrequest _ idx.head_mem).2 hnotMem
    have hadvance := h.avail.advance hlen
    rwa [hentry] at hadvance
  · exact hheads.nodup_iff.mpr (List.nodup_cons.mpr ⟨hnotMem, h.nodup⟩)
  · intro i
    rw [hheads.mem_iff, List.mem_cons, h.mem_heads]
    simp only [hpending]
    constructor
    · rintro (rfl | ⟨q, r, hr, rfl⟩)
      · exact ⟨p, ⟨c, idx⟩, .inr ⟨rfl, rfl⟩, rfl⟩
      · exact ⟨q, r, .inl hr, rfl⟩
    · rintro ⟨q, r, hr | ⟨-, rfl⟩, rfl⟩
      · exact .inr ⟨q, r, hr, rfl⟩
      · exact .inl rfl
  · simp [publishSection, State.moveTo, Place.notifying]

end

section

variable [DecidableEq β]

theorem setBufDisk_buf (s : State ι β) (b b' : β) (x : Bool) :
    ((s.setBufDisk b x).buf b').blockno = (s.buf b').blockno ∧
      ((s.setBufDisk b x).buf b').data = (s.buf b').data ∧
      ((s.setBufDisk b x).buf b').disk = if b' = b then x else (s.buf b').disk := by
  by_cases hb : b' = b <;> simp [State.setBufDisk, State.setBuf, hb]

theorem wakeup_similar (s : State ι β) (chan : Chan β) (q : ι) :
    ((s.wakeup chan).place q).Similar (s.place q) := by
  by_cases hchan : (s.place q).chan = some chan <;> constructor <;> simp [State.wakeup, hchan]

theorem wakeup_locked (s : State ι β) (chan : Chan β) (q : ι) :
    ((s.wakeup chan).place q).locked = (s.place q).locked ∧
      ((s.wakeup chan).place q).notifying = (s.place q).notifying := by
  by_cases hchan : (s.place q).chan = some chan <;> simp [State.wakeup, hchan]

/-- Who still sleeps does so on another channel. -/
theorem wakeup_chan {chan chan' : Chan β} (h : ((s.wakeup chan).place q).chan = some chan') :
    chan' ≠ chan ∧ (s.place q).chan = some chan' := by
  by_cases hchan : (s.place q).chan = some chan
  · simp [State.wakeup, hchan] at h
  · rw [show (s.wakeup chan).place q = s.place q by simp [State.wakeup, hchan]] at h
    refine ⟨?_, h⟩
    rintro rfl
    exact hchan h

section

variable [DecidableEq ι]

/-- The state after `alloc3_desc` has found the descriptors of `idx`. -/
def requested (s : State ι β) (p : ι) (c : Call β) (idx : Idx) : State ι β :=
  ((s.setDisk (format (taken s.disk idx.toList) c (s.buf c.b).blockno idx)).setBufDisk c.b
    true).moveTo p (.publish c idx)

theorem requested_blockno (s : State ι β) (p : ι) (c : Call β) (idx : Idx) (b : β) :
    ((requested s p c idx).buf b).blockno = (s.buf b).blockno :=
  (setBufDisk_buf (s.setDisk (format (taken s.disk idx.toList) c (s.buf c.b).blockno idx)) c.b b
    true).1

/-- The new request is as it was written, and nothing has happened to it. -/
theorem Inv.requested_ok (h : Inv s queued reported) (hp : s.place p = .alloc c)
    (hnodup : idx.toList.Nodup) (hnew : idx.head ∉ heads s queued reported) :
    (Place.publish c idx).Ok (requested s p c idx) := by
  have hdisk : ((requested s p c idx).buf c.b).disk = true := by
    simp [requested, State.moveTo, State.setBufDisk, State.setBuf]
  refine ⟨?_, ?_, ?_, ?_, ?_, by simp [Place.chan]⟩
  · rintro _ ⟨⟩
    rw [requested_blockno]
    exact (h.threads p).small c (by rw [hp]; rfl)
  · rintro _ ⟨⟩
    rw [requested_blockno]
    exact formatted_format _ c _ hnodup
  · rintro _ ⟨⟩ -
    exact ⟨update_self .., hdisk⟩
  · rintro _ ⟨⟩ k - (hstatus | ⟨hbusy, -⟩)
    · simp [requested, State.moveTo, State.setBufDisk, State.setBuf, State.setDisk,
        format] at hstatus
    · exact absurd (by simp [heads, show idx.head ∈ s.device.busy from hbusy]) hnew
  · rintro _ ⟨⟩ hseen
    cases hdisk.symm.trans hseen

theorem Inv.request (h : Inv s queued reported) (hp : s.place p = .alloc c)
    (hnodup : idx.toList.Nodup) (hfree : ∀ i ∈ idx.toList, s.disk.free i = true ∧ i < num) :
    Inv (requested s p c idx) queued reported := by
  have hlocked : (s.place p).locked = true := by rw [hp]; rfl
  have hcall : (s.place p).call = some c := by rw [hp]; rfl
  have hnone : (s.place p).request = none := by rw [hp]; rfl
  have hsame : ∀ q c', q ≠ p → (s.place q).call = some c' →
      (requested s p c idx).buf c'.b = s.buf c'.b :=
    fun q c' hqp hq => update_of_ne (h.buf_ne hqp hcall hq) ..
  have hapart : ∀ q r, (s.place q).request = some r → ∀ i ∈ r.idx.toList, i ∉ idx.toList := by
    intro q r hq i hi hi'
    have hbusy := (h.chains.busy hq i hi).1
    rw [(hfree i hi').1] at hbusy
    cases hbusy
  have hkept := fun q r hq i hi => format_of_notMem (taken s.disk idx.toList) c (s.buf c.b).blockno
    (hapart q r hq i hi)
  have hheads : ∀ i ∈ heads s queued reported, i ∉ idx.toList := by
    intro i hi
    obtain ⟨q, r, hr, rfl⟩ := (h.mem_heads i).mp hi
    exact hapart q r hr.1 _ r.idx.head_mem
  have hnew : idx.head ∉ heads s queued reported := fun hi => hheads _ hi idx.head_mem
  have hcalls : ∀ q, ((requested s p c idx).place q).call = (s.place q).call :=
    forall_moveTo (P := fun q place => place.call = (s.place q).call).mpr
      ⟨hcall.symm, fun _ _ => rfl⟩
  have hpending : ∀ q r, Pending (requested s p c idx) q r ↔ Pending s q r := by
    refine forall_moveTo (P := fun q place => ∀ r, place.request = some r ∧
      place.publishing = false ∧ ((requested s p c idx).buf r.call.b).disk = true ↔
      Pending s q r).mpr ⟨fun r => ?_, fun q hqp r => ?_⟩
    · simp [Pending, hnone, Place.publishing]
    · refine and_congr_right fun hq => ?_
      rw [hsame q r.call hqp (Place.call_of_request hq)]
      rfl
  refine ⟨h.calm, h.locked_moveTo hlocked rfl, ?_, ?_, ?_, ?_, h.used, h.nodup, ?_, ?_, ?_,
    h.interrupt⟩
  · intro q q' c₁ c₂ hq hq' heq
    rw [hcalls] at hq hq'
    rw [requested_blockno, requested_blockno] at heq
    exact h.blocks q q' c₁ c₂ hq hq' heq
  · refine forall_moveTo (P := fun _ place => place.Ok (requested s p c idx)).mpr
      ⟨h.requested_ok hp hnodup hnew, fun q hqp => ?_⟩
    refine (h.threads q).of_buf (.refl _) rfl (fun c' => hsame q c' hqp) ?_ ?_ ?_
    · intro r hq
      have hhead := hkept q r hq _ r.idx.head_mem
      exact ⟨fun i hi => (hkept q r hq i hi).1, hhead.2.1, hhead.2.2⟩
    · intro hpub
      have hnot := h.not_locked hlocked hqp
      rw [Place.locked_of_publishing hpub] at hnot
      cases hnot
    · intro chan hchan
      have hwaits := (h.threads q).waiting chan hchan
      cases chan with
      | free =>
        intro l hl hfree'
        refine hwaits l hl fun i hi => ?_
        have hi := hfree' i hi
        by_cases hmem : i ∈ idx.toList
        · exact hfree i hmem
        · simpa [requested, State.moveTo, State.setBufDisk, State.setBuf, State.setDisk, format,
            taken, hmem] using hi
      | buf b =>
        obtain ⟨c', hc', rfl⟩ := Place.call_of_chan hchan
        change ((requested s p c idx).buf c'.b).disk = true
        rw [hsame q c' hqp hc']
        exact hwaits
  · have hrequest : (fun q => ((requested s p c idx).place q).request) =
        update (fun q => (s.place q).request) p (some ⟨c, idx⟩) :=
      comp_update Place.request s.place p (.publish c idx)
    rw [hrequest]
    exact h.chains.add (r := ⟨c, idx⟩) hnone hnodup hfree
  · exact h.avail.write (h.queued_lt (hfree _ idx.head_mem).2 hnew)
  · simp only [hpending]
    exact h.mem_heads
  · intro hok i hi
    have hmem : i ∈ heads s queued reported := by
      simp only [heads, List.append_assoc, List.mem_append] at hi ⊢
      exact .inr (.inr hi)
    have hinfo : (requested s p c idx).disk.info i = s.disk.info i :=
      (format_of_notMem _ c _ (hheads i hmem)).2.2
    rw [hinfo]
    exact h.served hok i hi
  · intro hne
    exact .inl (h.looking (h.no_notify_of_locked hlocked (by rw [hp]; rfl)) hne)

/-- A thread goes to sleep, after it may have woken those that wait for descriptors. -/
theorem Inv.sleep (h : Inv s queued reported) {place : Place β} {d : Disk β} (woken : Bool)
    (hlocked : (s.place p).locked = true) (hp : (s.place p).notifying = false)
    (hsim : place.Similar (s.place p)) (hlocked' : place.locked = false)
    (hchan : ∀ chan, place.chan = some chan → Waits s chan) (hdisk : Restored s.disk d) :
    Inv ((((if woken then s.wakeup .free else s).setDisk d).moveTo p place).release) queued
      reported := by
  have hothers : ∀ q, ((if woken then s.wakeup .free else s).place q).Similar (s.place q) ∧
      ((if woken then s.wakeup .free else s).place q).locked = (s.place q).locked ∧
      ∀ chan, ((if woken then s.wakeup .free else s).place q).chan = some chan → Waits s chan := by
    intro q
    cases woken with
    | false => exact ⟨.refl _, rfl, (h.threads q).waiting⟩
    | true => exact ⟨wakeup_similar s _ q, (wakeup_locked s _ q).1,
        fun chan hchan => (h.threads q).waiting chan (wakeup_chan hchan).2⟩
  have hlock := (h.locked p).mp hlocked
  have hstate : ∀ s' : State ι β, s' = (if woken then s.wakeup .free else s) →
      s'.buf = s.buf ∧ s'.device = s.device ∧ s'.panicked = s.panicked := by
    rintro _ rfl
    cases woken <;> exact ⟨rfl, rfl, rfl⟩
  generalize (if woken then s.wakeup .free else s) = s' at hothers hstate ⊢
  obtain ⟨hbuf, hdevice, hcalm⟩ := hstate s' rfl
  refine h.frame (hcalm.trans h.calm) hdisk hbuf ⟨_, _, _, hdevice⟩ ?_ ?_ ?_ ?_ ?_
  · exact forall_moveTo (P := fun q place => place.Similar (s.place q)).mpr
      ⟨hsim, fun q _ => (hothers q).1⟩
  · exact forall_moveTo (P := fun q place => ∀ chan, place.chan = some chan → Waits s chan).mpr
      ⟨hchan, fun q _ => (hothers q).2.2⟩
  · refine forall_moveTo (P := fun q place => place.locked = true ↔
      (none : Option (Owner ι)) = some (.thread q)).mpr ⟨by simp [hlocked'], fun q hqp => ?_⟩
    change (s'.place q).locked = true ↔ _
    simp [(hothers q).2.1, h.not_locked hlocked hqp]
  · intro hne
    change s'.device.notified = true ∨ _
    rw [hdevice]
    exact .inl (h.looking (h.no_notify_of_locked hlocked hp) hne)
  · intro hne
    change s'.device.raising = true ∨ s'.device.interrupt = true ∨ _
    rw [hdevice]
    rcases h.interrupt hne with hraising | hinterrupt | ⟨acked, hacked⟩
    · exact .inl hraising
    · exact .inr (.inl hinterrupt)
    · cases hlock.symm.trans hacked

/-- The state after `virtio_disk_rw` has returned. -/
def finished (s : State ι β) (p : ι) (idx : Idx) : State ι β :=
  let info := update s.disk.info idx.head { s.disk.info idx.head with b := none }
  ((givenBack (s.setDisk { s.disk with info := info }) idx.toList).moveTo p .out).release

theorem Inv.complete (h : Inv s queued reported) (hp : (s.place p).request = some r)
    (hlocked : (s.place p).locked = true) (hnotify : (s.place p).notifying = false)
    (hseen : (s.buf r.call.b).disk = false) : Inv (finished s p r.idx) queued reported := by
  have hlock := (h.locked p).mp hlocked
  have hinfo : ∀ i, ((finished s p r.idx).disk.info i).status =
      (s.disk.info i).status ∧
      (i ≠ r.idx.head → (finished s p r.idx).disk.info i = s.disk.info i) := by
    intro i
    refine ⟨?_, fun hne => update_of_ne hne ..⟩
    by_cases hi : i = r.idx.head <;>
      simp [finished, State.release, State.moveTo, givenBack, State.wakeup,
        State.setDisk, freed, hi]
  have hapart : ∀ q r', q ≠ p → (s.place q).request = some r' →
      ∀ i ∈ r'.idx.toList, i ∉ r.idx.toList :=
    fun q r' hqp hq i hi hi' => hqp (h.chains.disjoint q p r' r i hq hp hi hi')
  have hcalls : ∀ q c', ((finished s p r.idx).place q).call = some c' →
      (s.place q).call = some c' := by
    refine forall_moveTo (P := fun q place => ∀ c', place.call = some c' →
      (s.place q).call = some c').mpr ⟨by simp [Place.call], fun q _ c' hq => ?_⟩
    exact (wakeup_similar s .free q).call.symm.trans hq
  have hpending : ∀ q r', Pending (finished s p r.idx) q r' ↔ Pending s q r' := by
    refine forall_moveTo (P := fun q place => ∀ r', place.request = some r' ∧
      place.publishing = false ∧ (s.buf r'.call.b).disk = true ↔ Pending s q r').mpr
      ⟨fun r' => iff_of_false (by simp [Place.request]) ?_, fun q hqp r' => ?_⟩
    · rintro ⟨hr', -, hdisk⟩
      cases hp.symm.trans hr'
      rw [hseen] at hdisk
      cases hdisk
    · have hsim := wakeup_similar s .free q
      change ((s.wakeup .free).place q).request = _ ∧
        ((s.wakeup .free).place q).publishing = _ ∧ _ ↔ _
      rw [hsim.request, hsim.publishing]
      rfl
  refine ⟨h.calm, ?_, ?_, ?_, ?_, h.avail, h.used, h.nodup, ?_, ?_, ?_, ?_⟩
  · refine forall_moveTo (P := fun q place => place.locked = true ↔
      (none : Option (Owner ι)) = some (.thread q)).mpr ⟨by simp [Place.locked], fun q hqp => ?_⟩
    change ((s.wakeup .free).place q).locked = true ↔ _
    simp [(wakeup_locked s .free q).1, h.not_locked hlocked hqp]
  · exact fun q q' c c' hq hq' => h.blocks q q' c c' (hcalls q c hq) (hcalls q' c' hq')
  · refine forall_moveTo (P := fun _ place => place.Ok (finished s p r.idx)).mpr
      ⟨.of_none rfl rfl (by simp [Place.call]), fun q hqp => ?_⟩
    refine (h.threads q).of_buf (wakeup_similar s .free q) rfl (fun _ _ => rfl) ?_
      (fun _ => rfl) ?_
    · intro r' hq
      have hnot := hapart q r' hqp hq
      have hne : r'.idx.head ≠ r.idx.head :=
        fun heq => hnot _ r'.idx.head_mem (heq ▸ r.idx.head_mem)
      exact ⟨fun i hi => if_neg (hnot i hi), rfl, (hinfo _).2 hne⟩
    · intro chan hchan
      obtain ⟨hne, hold⟩ := wakeup_chan (s := s) hchan
      cases chan with
      | free => exact absurd rfl hne
      | buf b => exact (h.threads q).waiting _ hold
  · have hrequest : ∀ q, ((finished s p r.idx).place q).request =
        update (fun q => (s.place q).request) p none q := by
      refine forall_moveTo (P := fun q place => place.request =
        update (fun q => (s.place q).request) p none q).mpr ⟨?_, fun q hqp => ?_⟩
      · rw [update_self]
        rfl
      · rw [update_of_ne hqp]
        exact (wakeup_similar s .free q).request
    rw [funext hrequest]
    exact h.chains.remove hp
  · simp only [hpending]
    exact h.mem_heads
  · intro hok i hi
    rw [(hinfo i).1]
    exact h.served hok i hi
  · exact fun hne => .inl (h.looking (h.no_notify_of_locked hlocked hnotify) hne)
  · intro hne
    refine (h.interrupt hne).imp_right (Or.imp_right ?_)
    rintro ⟨acked, hacked⟩
    cases hlock.symm.trans hacked

end

/-! ## The handler -/

/-- The handler has seen that the request of buffer `b` is done. -/
def seen (s : State ι β) (b : β) : State ι β :=
  let s := (s.setBufDisk b false).wakeup (.buf b)
  s.setDisk { s.disk with usedIdx := uint16 (s.disk.usedIdx + 1) }

theorem seen_buf (s : State ι β) (b b' : β) :
    ((seen s b).buf b').blockno = (s.buf b').blockno ∧
      ((seen s b).buf b').data = (s.buf b').data ∧
      ((seen s b).buf b').disk = if b' = b then false else (s.buf b').disk :=
  setBufDisk_buf s b b' false

/-- Who still sleeps has a reason. -/
theorem Inv.seen_waits (h : Inv s queued reported) {b : β} {chan : Chan β}
    (hchan : ((seen s b).place q).chan = some chan) : Waits (seen s b) chan := by
  obtain ⟨hne, hold⟩ := wakeup_chan (s := s) hchan
  have hwaits := (h.threads q).waiting chan hold
  cases chan with
  | free => exact hwaits
  | buf b' =>
    refine (seen_buf s b b').2.2.trans ((if_neg ?_).trans hwaits)
    rintro rfl
    exact hne rfl

/-- The thread of the request finds it answered. -/
theorem Inv.seen_ok (h : Inv s queued reported) (hr : Pending s p r)
    (hstatus : (s.disk.info r.idx.head).status = 0) :
    ((seen s r.call.b).place p).Ok (seen s r.call.b) := by
  have hsim := wakeup_similar s (.buf r.call.b) p
  have hok := h.threads p
  obtain ⟨hblockno, hdata, -⟩ := seen_buf s r.call.b r.call.b
  refine ⟨?_, ?_, ?_, ?_, ?_, fun _ => h.seen_waits⟩
  · intro c' hq
    rw [(seen_buf s _ _).1]
    exact hok.small c' (hsim.call.symm.trans hq)
  all_goals
    intro r' hq
    cases hr.1.symm.trans (hsim.request.symm.trans hq)
  · rw [hblockno]
    exact (hok.formatted r hr.1).congr (fun _ _ => rfl) rfl rfl
  · intro hpub
    cases hr.2.1.symm.trans (hsim.publishing.symm.trans hpub)
  · intro k hk hor
    have hcopied := hok.copied r hr.1 k hk hor
    unfold Copied at hcopied ⊢
    rw [hblockno, hdata]
    exact hcopied
  · exact fun _ => hstatus

theorem Inv.handle {head : ℕ} (h : Inv s queued (head :: reported)) (hr : Pending s p r)
    (hid : r.idx.head = head) (hstatus : (s.disk.info head).status = 0)
    (hlock : s.lock = some (.handler true)) : Inv (seen s r.call.b) queued reported := by
  have hcall := Place.call_of_request hr.1
  have hblockno : ∀ b, ((seen s r.call.b).buf b).blockno = (s.buf b).blockno :=
    fun b => (seen_buf s r.call.b b).1
  have hsame : ∀ q c', q ≠ p → (s.place q).call = some c' →
      (seen s r.call.b).buf c'.b = s.buf c'.b :=
    fun q c' hqp hq => update_of_ne (h.buf_ne hqp hcall hq) ..
  have hsim := wakeup_similar s (.buf r.call.b)
  have hdisk : ((seen s r.call.b).buf r.call.b).disk = false :=
    (seen_buf s r.call.b r.call.b).2.2.trans (if_pos rfl)
  have hpending : ∀ q r', Pending (seen s r.call.b) q r' ↔ q ≠ p ∧ Pending s q r' := by
    intro q r'
    change ((s.wakeup (.buf r.call.b)).place q).request = _ ∧
      ((s.wakeup (.buf r.call.b)).place q).publishing = _ ∧ _ ↔ _
    rw [(hsim q).request, (hsim q).publishing]
    by_cases hqp : q = p
    · refine iff_of_false ?_ fun hq => hq.1 hqp
      rintro ⟨hq, -, hbusy⟩
      rw [hqp] at hq
      cases hr.1.symm.trans hq
      rw [hdisk] at hbusy
      cases hbusy
    · simp only [ne_eq, hqp, not_false_eq_true, true_and]
      refine and_congr_right fun hq => ?_
      rw [hsame q r'.call hqp (Place.call_of_request hq)]
  have hheads : (heads s queued (head :: reported)).Perm (head :: heads s queued reported) := by
    simp only [heads]
    exact List.perm_middle
  have hnodup := List.nodup_cons.mp (hheads.nodup_iff.mp h.nodup)
  refine ⟨h.calm, ?_, ?_, ?_, ?_, h.avail, h.used.pop.2, hnodup.2, ?_, ?_, ?_,
    fun _ => .inr (.inr ⟨true, hlock⟩)⟩
  · intro q
    change ((s.wakeup (.buf r.call.b)).place q).locked = true ↔ _
    rw [(wakeup_locked s _ q).1]
    exact h.locked q
  · intro q q' c₁ c₂ hq hq' heq
    exact h.blocks q q' c₁ c₂ ((hsim q).call.symm.trans hq) ((hsim q').call.symm.trans hq')
      ((hblockno c₁.b).symm.trans (heq.trans (hblockno c₂.b)))
  · intro q
    by_cases hqp : q = p
    · rw [hqp]
      exact h.seen_ok hr (hid ▸ hstatus)
    · exact (h.threads q).of_buf (hsim q) rfl (fun c' => hsame q c' hqp)
        (fun _ _ => ⟨fun _ _ => rfl, rfl, rfl⟩) (fun _ => rfl) fun _ => h.seen_waits
  · have hrequest : (fun q => ((seen s r.call.b).place q).request) =
        fun q => (s.place q).request := funext fun q => (hsim q).request
    rw [hrequest]
    exact h.chains
  · intro i
    change i ∈ heads s queued reported ↔ _
    simp only [hpending]
    constructor
    · intro hi
      obtain ⟨q, r', hr', rfl⟩ :=
        (h.mem_heads i).mp (hheads.mem_iff.mpr (List.mem_cons_of_mem _ hi))
      refine ⟨q, r', ⟨?_, hr'⟩, rfl⟩
      rintro rfl
      cases hr.1.symm.trans hr'.1
      exact hnodup.1 (hid ▸ hi)
    · rintro ⟨q, r', ⟨hqp, hr'⟩, rfl⟩
      have hmem := hheads.mem_iff.mp ((h.mem_heads _).mpr ⟨q, r', hr', rfl⟩)
      refine (List.mem_cons.mp hmem).resolve_left fun heq => ?_
      exact hqp (h.head_inj hr'.1 hr.1 (heq.trans hid.symm))
  · intro hok i hi
    refine h.served hok i ?_
    simp only [List.mem_append, List.mem_cons] at hi ⊢
    exact hi.imp_right .inr
  · intro hne
    refine (h.notified hne).imp_right ?_
    rintro ⟨q, hq⟩
    exact ⟨q, (wakeup_locked s _ q).2.trans hq⟩

end

end CS352.VirtioDisk

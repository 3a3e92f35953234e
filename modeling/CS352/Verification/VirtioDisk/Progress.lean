import CS352.Verification.VirtioDisk.Refinement
import Mathlib.Algebra.BigOperators.Group.Finset.Piecewise

/-! # No request is lost

Whatever has happened, the threads, the handler and the device can bring every call to its
return. A thread that sleeps is woken by the driver, the device is told of every chain, and the
handler is called for every answer. -/

namespace CS352.VirtioDisk

open RingBuffer Transition Function

variable {ι β : Type*} {s t : State ι β} {queued reported queued' reported' : List ℕ} {p q : ι}
  {place : Place β} {n : ℕ}

/-- Steps without new calls, signals from outside and failures of the device. -/
def Action.internal : Action ι β → Bool
  | .acquire _ | .run _ | .intr | .intrPass | .fetch | .move _ _ _ | .finish _ true | .report _
  | .raise => true
  | _ => false

/-! ## The distance to the return of all calls -/

@[simp] def Place.distance : Place β → ℕ
  | .out => 0
  | .asleep _ _ => 1
  | .await _ _ => 2
  | .notify _ _ | .woken _ _ => 3
  | .publish _ _ => 14
  | .enter _ | .waitFree _ => 15
  | .alloc _ => 16

def signalDistance (interrupt : Bool) : Option (Owner ι) → ℕ
  | some (.handler false) => 2
  | some (.handler true) => 3 * interrupt.toNat + 1
  | _ => 3 * interrupt.toNat

section

variable [Fintype ι]

def distance (s : State ι β) (queued reported : List ℕ) : ℕ :=
  ∑ p, (s.place p).distance + 10 * queued.length + 9 * s.device.busy.length +
    8 * s.device.done.length + 3 * reported.length + 4 * s.device.raising.toNat +
    signalDistance s.device.interrupt s.lock

variable [DecidableEq ι]

/-- One thread moves. -/
theorem sum_update (h : t.place = update s.place p place) :
    ∑ q, (t.place q).distance + (s.place p).distance =
      ∑ q, (s.place q).distance + place.distance := by
  have hupdate : (fun q => (t.place q).distance) =
      update (fun q => (s.place q).distance) p place.distance := by
    rw [h]
    exact comp_update Place.distance s.place p place
  rw [hupdate, Finset.sum_update_of_mem (Finset.mem_univ p),
    ← Finset.add_sum_erase _ _ (Finset.mem_univ p), Finset.sdiff_singleton_eq_erase]
  omega

variable [DecidableEq β]

omit [DecidableEq ι] in
theorem sum_wakeup_free (s : State ι β) :
    ∑ q, ((s.wakeup .free).place q).distance = ∑ q, (s.place q).distance := by
  refine Finset.sum_congr rfl fun q _ => ?_
  cases hq : s.place q <;> simp [State.wakeup, hq, Place.chan, Place.wake]

/-- At most the thread of the buffer is woken. -/
theorem sum_wakeup_buf (h : Inv s queued reported) {r : Request β} (hr : Pending s p r) :
    ∑ q, ((s.wakeup (.buf r.call.b)).place q).distance ≤ ∑ q, (s.place q).distance + 2 := by
  have hsame : (s.wakeup (.buf r.call.b)).place =
      update s.place p ((s.wakeup (.buf r.call.b)).place p) := by
    funext q
    by_cases hqp : q = p
    · rw [hqp, update_self]
    · rw [update_of_ne hqp]
      refine if_neg fun hchan => ?_
      obtain ⟨c, hc, hb⟩ := Place.call_of_chan hchan
      exact h.buf_ne hqp (Place.call_of_request hr.1) hc hb
  have hsum := sum_update hsame
  have hdistance : ((s.wakeup (.buf r.call.b)).place p).distance ≤ (s.place p).distance + 2 := by
    unfold State.wakeup
    dsimp only
    split_ifs
    · cases s.place p <;> simp [Place.wake]
    · omega
  omega

/-! ## Steps that come closer -/

omit [DecidableEq β] in
/-- A thread goes on, after it may have woken others. -/
theorem distance_lt {u : State ι β} (hplace : t.place = update u.place p place)
    (hsum : ∑ q, (u.place q).distance = ∑ q, (s.place q).distance)
    (hlt : place.distance + 10 * queued'.length < (u.place p).distance + 10 * queued.length)
    (hbusy : t.device.busy = s.device.busy) (hdone : t.device.done = s.device.done)
    (hraising : t.device.raising = s.device.raising)
    (hsignal : signalDistance t.device.interrupt t.lock =
      signalDistance s.device.interrupt s.lock) :
    distance t queued' reported < distance s queued reported := by
  have hmove := sum_update hplace
  simp only [distance, hbusy, hdone, hraising, hsignal]
  omega

theorem closer_run (h : Inv s queued reported)
    (he : Effect s queued reported (.run p) t queued' reported') :
    distance t queued' reported' < distance s queued reported := by
  have hlock : ∀ {place}, s.place p = place → place.locked = true →
      signalDistance s.device.interrupt (none : Option (Owner ι)) =
        signalDistance s.device.interrupt s.lock := fun hp hlocked => by
    rw [(h.locked p).mp (hp ▸ hlocked)]
    rfl
  have hawake : ∀ {place}, s.place p = place → place.chan = none →
      (s.wakeup .free).place p = place := fun hp hchan => by simp [State.wakeup, hp, hchan]
  cases he with
  | requested _ c idx hp | notify _ c idx hp =>
    exact distance_lt (u := s) rfl rfl (by rw [hp]; simp) rfl rfl rfl rfl
  | waitFree _ c d woken hp =>
    have hlock := hlock hp rfl
    cases woken with
    | false =>
      exact distance_lt (u := s) rfl rfl (by rw [hp]; simp) rfl rfl rfl hlock
    | true =>
      refine distance_lt (u := s.wakeup .free) rfl (sum_wakeup_free s) ?_ rfl rfl rfl hlock
      rw [hawake hp rfl]
      simp
  | publish _ c idx hp =>
    refine distance_lt (u := s) rfl rfl ?_ rfl rfl rfl rfl
    rw [hp, List.length_append]
    simp only [Place.distance, List.length_singleton]
    omega
  | asleep _ c idx hp =>
    have hlock := hlock hp rfl
    exact distance_lt (u := s) rfl rfl (by rw [hp]; simp) rfl rfl rfl hlock
  | finished _ c idx hp =>
    refine distance_lt (u := s.wakeup .free) rfl (sum_wakeup_free s) ?_ rfl rfl rfl (hlock hp rfl)
    rw [hawake hp rfl]
    simp

theorem closer_intrPass (h : Inv s queued reported) (hok : s.device.failed = false)
    (he : Effect s queued reported .intrPass t queued' reported') :
    distance t queued' reported' < distance s queued reported := by
  cases he with
  | ack hlock => simp [distance, signalDistance, hlock]
  | seen p r rest hlock hr hreported =>
    have hsum := sum_wakeup_buf h hr
    have hplace : ∑ q, ((seen s r.call.b).place q).distance =
      ∑ q, ((s.wakeup (.buf r.call.b)).place q).distance := rfl
    have hdevice : (seen s r.call.b).device = s.device := rfl
    have hsame : (seen s r.call.b).lock = s.lock := rfl
    simp only [distance, hplace, hdevice, hsame, hreported, List.length_cons]
    omega
  | failed hfailed => simp [hok] at hfailed
  | intrEnd hlock =>
    simp only [distance, State.release, signalDistance, hlock]
    omega

/-- The device moves a chain on, or signals. -/
theorem closer_device {a : Action ι β} (he : Effect s queued reported a t queued' reported')
    (ha : a = .fetch ∨ (∃ head, a = .finish head true) ∨ (∃ head, a = .report head) ∨
      a = .raise ∨ a = .intr) : distance t queued' reported' < distance s queued reported := by
  cases he with
  | intr hinterrupt hlock => simp [distance, signalDistance, hlock, hinterrupt]
  | fetch head rest hqueued =>
    simp only [distance, hqueued, fetched, State.setDevice, List.length_append, List.length_cons,
      List.length_nil]
    omega
  | finish p r ok hr hbusy hall =>
    have hlength := List.length_erase_of_mem hbusy
    have hpos := List.length_pos_of_mem hbusy
    simp only [distance, answered, State.setDevice, State.setDisk, List.length_append, hlength,
      List.length_singleton]
    omega
  | report head hdone =>
    have hlength := List.length_erase_of_mem hdone
    have hpos := List.length_pos_of_mem hdone
    simp only [distance, reportedChain, State.setDevice, State.setDisk, List.length_append,
      hlength, List.length_singleton, Bool.toNat_true]
    omega
  | raise hraising =>
    have hsignal : signalDistance true s.lock ≤ signalDistance s.device.interrupt s.lock + 3 := by
      have htrue : true.toNat = 1 := rfl
      unfold signalDistance
      split <;> omega
    simp only [distance, hraising, Bool.toNat_true, Bool.toNat_false]
    omega
  | _ => simp at ha

/-- Internal steps lead to a distance below `n`. -/
def Reaches (s : State ι β) (n : ℕ) : Prop :=
  ∃ as t queued reported, (∀ a ∈ as, Action.internal a = true) ∧ exec step s as = some t ∧
    Inv t queued reported ∧ t.device.failed = false ∧ distance t queued reported < n

theorem Reaches.cons {a : Action ι β} (ha : a.internal = true) (hs : step s a = some t)
    (h : Reaches t n) : Reaches s n := by
  obtain ⟨as, u, queued, reported, hinternal, hexec, hrest⟩ := h
  refine ⟨a :: as, u, queued, reported, ?_, by simpa [exec, hs] using hexec, hrest⟩
  simpa [ha] using hinternal

omit [Fintype ι] in
/-- An internal step keeps the invariant, and the device does not fail. -/
theorem Inv.internal (h : Inv s queued reported) (hok : s.device.failed = false)
    {a : Action ι β} (ha : a.internal = true)
    (he : Effect s queued reported a t queued' reported') :
    Inv t queued' reported' ∧ t.device.failed = false := by
  have hc : Permitted s a := by cases a <;> trivial
  refine ⟨(h.of_effect hc he).resolve_right fun hfailed => by simp [hok] at hfailed, ?_⟩
  cases he with
  | waitFree p c d woken => cases woken <;> exact hok
  | move p r lo hi => exact (congrArg Device.failed (movedBytes_same s r lo hi).2.2.2.2.2).trans hok
  | finish p r ok =>
    cases ok with
    | true => simpa [answered, State.setDevice] using hok
    | false => cases ha
  | _ => exact hok

/-- One step that comes closer is enough. -/
theorem Inv.reaches (h : Inv s queued reported) (hok : s.device.failed = false) {a : Action ι β}
    (ha : a.internal = true) (hs : (step s a).isSome = true)
    (hlt : ∀ {t queued' reported'}, Effect s queued reported a t queued' reported' →
      distance t queued' reported' < n) : Reaches s n := by
  obtain ⟨t, hs⟩ := Option.isSome_iff_exists.mp hs
  obtain ⟨queued', reported', he⟩ := h.effect hs
  obtain ⟨hinv, hok'⟩ := h.internal hok ha he
  exact .cons ha hs ⟨[], t, queued', reported', by simp, rfl, hinv, hok', hlt he⟩

/-- The chain that the device works on is served. -/
theorem Inv.reaches_busy (h : Inv s queued reported) (hok : s.device.failed = false) {head : ℕ}
    (hbusy : head ∈ s.device.busy) : Reaches s (distance s queued reported) := by
  obtain ⟨p, r, hr, rfl, hsmall, hchain⟩ := h.busy_pending hbusy
  have hmove : step s (.move r.idx.head 0 bsize) = some (movedBytes s r 0 bsize) := by
    simp [step, h.calm, move_eq hbusy hsmall hchain]
  obtain ⟨hplace, hlock, hpanicked, hdisk, -, hdevice⟩ := movedBytes_same s r 0 bsize
  obtain ⟨hinv, hok'⟩ := h.internal hok (by rfl) (.move p r 0 bsize hr le_rfl)
  have hfinish : (step (movedBytes s r 0 bsize) (.finish r.idx.head true)).isSome = true := by
    have hmoved : ∀ k < bsize, (movedBytes s r 0 bsize).device.moved r.idx.head k = true := by
      intro k hk
      rw [hdevice]
      simp [hk]
    have hbusy' : r.idx.head ∈ (movedBytes s r 0 bsize).device.busy := by
      rw [hdevice]
      exact hbusy
    simp only [step, finish, hpanicked, h.calm, hbusy', hdisk, hchain]
    simpa using hmoved
  refine .cons rfl hmove (hinv.reaches hok' rfl hfinish fun he => ?_)
  have hlt := closer_device he (.inr (.inl ⟨_, rfl⟩))
  have hsame : distance (movedBytes s r 0 bsize) queued reported = distance s queued reported := by
    simp only [distance, hplace, hlock]
    rw [hdevice]
  rwa [hsame] at hlt

/-- A thread that nothing keeps from its request makes it. -/
theorem Inv.reaches_enter (h : Inv s queued reported) (hok : s.device.failed = false) {c : Call β}
    (hp : s.place p = .enter c) (hlock : s.lock = none) (hfree : ¬ Scarce s.disk) :
    Reaches s (distance s queued reported) := by
  have hacquire : step s (.acquire p) = some (acquired s p (.alloc c)) := by
    simp [step, h.calm, hp, State.acquire, State.moveTo, hlock, acquired]
  obtain ⟨hinv, hok'⟩ := h.internal hok (by rfl) (.enter p c hp hlock)
  have hself : (acquired s p (.alloc c)).place p = .alloc c := update_self ..
  have hrun : (step (acquired s p (.alloc c)) (.run p)).isSome = true := by
    simp [step, hinv.calm, hself]
  refine .cons rfl hacquire (hinv.reaches hok' rfl hrun fun he => ?_)
  cases he with
  | requested _ c' idx hp' =>
    cases hself.symm.trans hp'
    have hplace : (requested (acquired s p (.alloc c)) p c idx).place =
        update s.place p (.publish c idx) := update_idem ..
    refine distance_lt (u := s) hplace rfl ?_ rfl rfl rfl ?_
    · rw [hp]
      simp
    · rw [hlock]
      rfl
  | waitFree _ c' d woken hp' hdisk hscarce => exact absurd hscarce hfree
  | publish _ c' idx hp' | notify _ c' idx hp' | asleep _ c' idx hp' | finished _ c' idx hp' =>
    cases hself.symm.trans hp'

/-- A thread whose request is done takes the lock. -/
theorem Inv.reaches_woken (h : Inv s queued reported) (hok : s.device.failed = false) {c : Call β}
    {idx : Idx} (hlock : s.lock = none) (hp : s.place p = .woken c idx) :
    Reaches s (distance s queued reported) := by
  refine h.reaches hok (a := .acquire p) rfl
    (by simp [step, h.calm, hp, State.acquire, State.moveTo, hlock]) fun he => ?_
  cases he with
  | enter _ c' hp' => cases hp.symm.trans hp'
  | woken _ c' idx' hp' =>
    refine distance_lt (u := s) rfl rfl ?_ rfl rfl rfl ?_
    · rw [hp']
      simp
    · rw [hlock]
      rfl

/-- While nobody holds the lock, the device has something to do, or no chain is on its way. -/
theorem Inv.reaches_or_empty (h : Inv s queued reported) (hok : s.device.failed = false)
    (hlock : s.lock = none) :
    Reaches s (distance s queued reported) ∨ heads s queued reported = [] := by
  by_cases hraising : s.device.raising = true
  · exact .inl (h.reaches hok (a := .raise) rfl (by simp [step, h.calm, raise, hraising])
      fun he => closer_device he (by simp))
  by_cases hinterrupt : s.device.interrupt = true
  · exact .inl (h.reaches hok (a := .intr) rfl
      (by simp [step, h.calm, hinterrupt, State.acquire, hlock])
      fun he => closer_device he (by simp))
  by_cases hbusy : s.device.busy = []
  swap
  · obtain ⟨head, hmem⟩ := List.exists_mem_of_ne_nil _ hbusy
    exact .inl (h.reaches_busy hok hmem)
  by_cases hdone : s.device.done = []
  swap
  · obtain ⟨head, hmem⟩ := List.exists_mem_of_ne_nil _ hdone
    exact .inl (h.reaches hok (a := .report head) rfl (by simp [step, h.calm, report, hmem])
      fun he => closer_device he (by simp))
  by_cases hqueued : queued = []
  swap
  · have hne : s.device.lastAvail ≠ s.disk.avail.idx :=
      fun heq => hqueued (h.avail.nread_eq_nwrite_iff.mp heq)
    have hlooking := h.looking (h.no_notify (by simp [hlock])) hqueued
    exact .inl (h.reaches hok (a := .fetch) rfl (by simp [step, h.calm, fetch, hne, hlooking])
      fun he => closer_device he (by simp))
  have hreported : reported = [] := by
    by_contra hne
    simpa [hraising, hinterrupt, hlock] using h.interrupt hne
  exact .inr (by simp [heads, hqueued, hbusy, hdone, hreported])

omit [Fintype ι] [DecidableEq ι] [DecidableEq β] in
/-- Then only a thread that has been woken has a request. -/
theorem Inv.request_eq_none (h : Inv s queued reported) (hlock : s.lock = none)
    (hempty : heads s queued reported = []) (hwoken : ∀ c idx, s.place p ≠ .woken c idx) :
    (s.place p).request = none := by
  have hlocked := h.no_thread (by simp [hlock]) p
  cases hp : s.place p with
  | out | enter | waitFree => rfl
  | alloc | publish | notify | await => simp [hp, Place.locked] at hlocked
  | asleep c idx =>
    have hdisk := (h.threads p).waiting (.buf c.b) (by rw [hp]; rfl)
    have hpending : Pending s p ⟨c, idx⟩ := ⟨by rw [hp]; rfl, by rw [hp]; rfl, hdisk⟩
    have hmem := (h.mem_heads _).mpr ⟨p, _, hpending, rfl⟩
    simp [hempty] at hmem
  | woken c idx => exact absurd hp (hwoken c idx)

omit [Fintype ι] [DecidableEq ι] [DecidableEq β] in
theorem Inv.not_scarce (h : Inv s queued reported) (hnone : ∀ p, (s.place p).request = none) :
    ¬ Scarce s.disk := by
  intro hscarce
  have hall : ∀ i < num, s.disk.free i = true := by
    intro i hi
    by_contra hbusy
    obtain ⟨q, r, hr, -⟩ := (h.chains.owned i).mp ⟨by simpa using hbusy, hi⟩
    simp [hnone q] at hr
  have hlt := hscarce [0, 1, 2] (by decide) fun i hi => by
    have hi : i < num := by
      simp only [List.mem_cons, List.not_mem_nil, or_false] at hi
      unfold num
      omega
    exact ⟨hall i hi, hi⟩
  simp at hlt

/-- While a call is under way, internal steps come closer to the return of all calls. -/
theorem Inv.closer (h : Inv s queued reported) (hok : s.device.failed = false)
    (hin : s.place p ≠ .out) : Reaches s (distance s queued reported) := by
  cases hlock : s.lock with
  | some owner =>
    cases owner with
    | thread q =>
      have hlocked := (h.locked q).mpr hlock
      refine h.reaches hok (a := .run q) rfl ?_ (closer_run h)
      cases hq : s.place q with
      | alloc | publish | notify | await => simp [step, h.calm, hq]
      | _ => simp [hq, Place.locked] at hlocked
    | handler acked =>
      exact h.reaches hok (a := .intrPass) rfl (by simp [step, h.calm, hlock])
        (closer_intrPass h hok)
  | none =>
    rcases h.reaches_or_empty hok hlock with hreaches | hempty
    · exact hreaches
    by_cases hwoken : ∃ q c idx, s.place q = .woken c idx
    · obtain ⟨q, c, idx, hq⟩ := hwoken
      exact h.reaches_woken hok hlock hq
    push Not at hwoken
    have hnone := fun q => h.request_eq_none hlock hempty (hwoken q)
    have hfree := h.not_scarce hnone
    cases hp : s.place p with
    | out => exact absurd hp hin
    | enter c => exact h.reaches_enter hok hp hlock hfree
    | waitFree c => exact absurd ((h.threads p).waiting .free (by rw [hp]; rfl)) hfree
    | _ =>
      have hrequest := hnone p
      have hlocked := h.no_thread (by simp [hlock]) p
      simp [hp, Place.request, Place.locked] at hrequest hlocked

/-- Internal steps can bring all calls to their return. -/
def Drains (s : State ι β) : Prop :=
  ∃ as t, (∀ a ∈ as, Action.internal a = true) ∧ exec step s as = some t ∧ ∀ p, t.place p = .out

theorem Inv.drains (h : Inv s queued reported) (hok : s.device.failed = false) : Drains s := by
  induction hn : distance s queued reported using Nat.strong_induction_on generalizing s queued
    reported with
  | _ n ih =>
    by_cases hout : ∀ p, s.place p = .out
    · exact ⟨[], s, by simp, rfl, hout⟩
    · push Not at hout
      obtain ⟨p, hp⟩ := hout
      obtain ⟨as, u, queued', reported', hinternal, hexec, hinv, hok', hlt⟩ := h.closer hok hp
      obtain ⟨bs, t, hinternal', hexec', hreturned⟩ := ih _ (hn ▸ hlt) hinv hok' rfl
      refine ⟨as ++ bs, t, ?_, ?_, hreturned⟩
      · simpa [or_imp, forall_and] using ⟨hinternal, hinternal'⟩
      · rw [exec_append, hexec]
        exact hexec'

end

/-! ## All states of all runs -/

structure Sound (s : State ι β) : Prop where
  owner : ∀ i < num, s.disk.free i = false ↔
    ∃! p, ∃ r, (s.place p).request = some r ∧ i ∈ r.idx.toList
  formatted : ∀ p r, (s.place p).request = some r → Formatted s.disk (s.buf r.call.b).blockno r
  waiting : ∀ p chan, (s.place p).chan = some chan → Waits s chan

theorem Inv.sound (h : Inv s queued reported) : Sound s := by
  refine ⟨fun i hi => ⟨fun hbusy => ?_, ?_⟩, fun p => (h.threads p).formatted,
    fun p => (h.threads p).waiting⟩
  · obtain ⟨p, r, hr, hir⟩ := (h.chains.owned i).mp ⟨hbusy, hi⟩
    refine ⟨p, ⟨r, hr, hir⟩, ?_⟩
    rintro q ⟨r', hr', hir'⟩
    exact h.chains.disjoint q p r' r i hr' hr hir' hir
  · rintro ⟨p, ⟨r, hr, hir⟩, -⟩
    exact (h.chains.busy hr i hir).1

variable [Fintype ι] [DecidableEq ι] [DecidableEq β]

/-- Only a failed request makes the driver panic. Until then every descriptor in use belongs to
the chain of one request, which is as it was written, and threads sleep only while what they wait
for has not happened. If no request has failed, all calls can be brought to their return. -/
theorem reachWhere_driver_sound (platter : ℕ → UInt8) (blockno : β → ℕ) (data : β → ℕ → UInt8)
    (h : ReachWhere step Permitted (init platter blockno data) s) :
    (s.panicked = none ∧ Sound s ∨ s.panicked = some .intrStatus ∧ s.device.failed = true) ∧
      (s.device.failed = false → Drains s) := by
  have hgood : Good s := h.invariant (I := Good) (.inl ⟨[], [], inv_init platter blockno data⟩)
    fun _ _ _ hu hc hs => hu.step hc hs
  rcases hgood with ⟨queued, reported, hinv⟩ | hfailed
  · exact ⟨.inl ⟨hinv.calm, hinv.sound⟩, hinv.drains⟩
  · refine ⟨.inr hfailed, fun hok => ?_⟩
    rw [hfailed.2] at hok
    cases hok

omit [Fintype ι] [DecidableEq ι] [DecidableEq β] in
theorem reachWhere_driver_sound_writeRead :
    ∃ t, ReachWhere step Permitted writeReadInit t ∧ t.place true = .asleep ⟨1, false⟩ ⟨3, 4, 5⟩ ∧
      (t.panicked = none ∧ Sound t ∨ t.panicked = some .intrStatus ∧ t.device.failed = true) ∧
      (t.device.failed = false → Drains t) := by
  have hsome : (exec (fun s a => if Permitted s a then step s a else none) writeReadInit
      (writeRead.take 17)).map (fun t => t.place true) = some (.asleep ⟨1, false⟩ ⟨3, 4, 5⟩) := by
    decide +kernel
  obtain ⟨t, ht, hplace⟩ := Option.map_eq_some_iff.mp hsome
  have hreach := reachWhere_of_exec ht
  exact ⟨t, hreach, hplace, reachWhere_driver_sound _ _ _ hreach⟩

end CS352.VirtioDisk

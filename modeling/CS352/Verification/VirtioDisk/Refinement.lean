import CS352.Library.Simulation
import CS352.Verification.VirtioDisk.Runs
import Mathlib.Data.Fintype.Basic

/-! # The driver as an atomic disk

To its callers the driver is a disk that reads or writes a block in one step, at some moment
between the call of `virtio_disk_rw` and its return, although the device moves the bytes of many
blocks piece by piece. -/

namespace CS352.VirtioDisk

open RingBuffer Simulation Transition Function

/-! ## The atomic disk -/

/-- A call comes with whether it has been carried out. -/
@[ext] structure Atomic (ι β : Type*) where
  platter : ℕ → UInt8
  blockno : β → ℕ
  data : β → ℕ → UInt8
  calls : ι → Option (Call β × Bool)

inductive AtomicAction (ι β : Type*) where
  | call (p : ι) (c : Call β)
  | perform (p : ι)
  | ret (p : ι)
  | modify (b : β) (blockno : ℕ) (data : ℕ → UInt8)

/-- The bytes of block `bn` in place of those of a buffer. -/
def readBlock (platter : ℕ → UInt8) (bn : ℕ) (data : ℕ → UInt8) : ℕ → UInt8 := fun k =>
  if k < bsize then platter (bn * bsize + k) else data k

def writeBlock (platter : ℕ → UInt8) (bn : ℕ) (data : ℕ → UInt8) : ℕ → UInt8 := fun a =>
  if a / bsize = bn then data (a % bsize) else platter a

variable {ι β : Type*} [DecidableEq ι] [DecidableEq β]

namespace Atomic

def setCall (d : Atomic ι β) (p : ι) (call : Option (Call β × Bool)) : Atomic ι β :=
  { d with calls := update d.calls p call }

def perform (d : Atomic ι β) (p : ι) (c : Call β) : Atomic ι β :=
  let d₁ := d.setCall p (some (c, true))
  if c.write then
    { d₁ with platter := writeBlock d.platter (d.blockno c.b) (d.data c.b) }
  else
    let block := readBlock d.platter (d.blockno c.b) (d.data c.b)
    { d₁ with data := update d.data c.b block }

def step (d : Atomic ι β) : AtomicAction ι β → Option (Atomic ι β)
  | .call p c => if (d.calls p).isNone then some (d.setCall p (some (c, false))) else none
  | .perform p =>
    match d.calls p with
    | some (c, false) => some (d.perform p c)
    | _ => none
  | .ret p =>
    match d.calls p with
    | some (_, true) => some (d.setCall p none)
    | _ => none
  | .modify b blockno data =>
    some { d with
      blockno := update d.blockno b blockno
      data := update d.data b data }

end Atomic

/-! ## What callers see -/

/-- A call returns with the bytes that its buffer holds then. -/
inductive Event (ι β : Type*) where
  | call (p : ι) (c : Call β)
  | ret (p : ι) (data : ℕ → UInt8)
  | modify (b : β) (blockno : ℕ) (data : ℕ → UInt8)

def observe (s : State ι β) : Action ι β → Option (Event ι β)
  | .call p c => some (.call p c)
  | .run p =>
    match s.place p with
    | .await c _ => if (s.buf c.b).disk then none else some (.ret p (s.buf c.b).data)
    | _ => none
  | .modify b blockno data => some (.modify b blockno data)
  | _ => none

def visible (d : Atomic ι β) : AtomicAction ι β → Option (Event ι β)
  | .call p c => some (.call p c)
  | .perform _ => none
  | .ret p => (d.calls p).map fun call => .ret p (d.data call.1.b)
  | .modify b blockno data => some (.modify b blockno data)

/-! ## The simulation

A call counts as carried out when it returns. Until then nothing is known of the block of a write
and of the buffer of a read. -/

structure Refines (s : State ι β) (d : Atomic ι β) : Prop where
  calls : ∀ p, d.calls p = (s.place p).call.map fun c => (c, false)
  blockno : ∀ b, d.blockno b = (s.buf b).blockno
  platter : ∀ a, (∀ p c, (s.place p).call = some c → c.write = true →
    (s.buf c.b).blockno ≠ a / bsize) → d.platter a = s.device.platter a
  data : ∀ b k, (k < bsize → ∀ p, (s.place p).call ≠ some ⟨b, false⟩) →
    d.data b k = (s.buf b).data k

variable {s t : State ι β} {d : Atomic ι β} {queued reported : List ℕ} {p : ι} {c : Call β}

omit [DecidableEq ι] [DecidableEq β] in
theorem Refines.congr (h : Refines s d) (hplatter : t.device.platter = s.device.platter)
    (hbuf : ∀ b, (t.buf b).blockno = (s.buf b).blockno ∧ (t.buf b).data = (s.buf b).data)
    (hcall : ∀ p, (t.place p).call = (s.place p).call) : Refines t d := by
  constructor <;> simp only [hplatter, hbuf, hcall]
  exacts [h.calls, h.blockno, h.platter, h.data]

omit [DecidableEq β] in
theorem call_moveTo {place : Place β} (h : place.call = (s.place p).call) :
    ∀ q, ((s.moveTo p place).place q).call = (s.place q).call :=
  forall_moveTo (P := fun q place => place.call = (s.place q).call).mpr ⟨h, fun _ _ => rfl⟩

omit [DecidableEq β] in
/-- A new call. -/
theorem Refines.call (h : Refines s d) (hout : s.place p = .out) :
    Refines (s.moveTo p (.enter c)) (d.setCall p (some (c, false))) := by
  have hcall : ∀ q c', (s.place q).call = some c' →
      ((s.moveTo p (.enter c)).place q).call = some c' := by
    intro q c' hq
    have hqp : q ≠ p := by
      rintro rfl
      simp [hout, Place.call] at hq
    simpa [State.moveTo, hqp] using hq
  refine ⟨?_, h.blockno, fun a ha => h.platter a fun q c' hq => ha q c' (hcall q c' hq),
    fun b k hb => h.data b k fun hk q hq => hb hk q (hcall q _ hq)⟩
  refine forall_moveTo (P := fun q place => update d.calls p (some (c, false)) q =
    place.call.map fun c => (c, false)).mpr ⟨update_self .., fun q hq => ?_⟩
  rw [update_of_ne hq]
  exact h.calls q

omit [DecidableEq ι] in
/-- Bytes that a call under way moves do not show. -/
theorem Refines.transfer (h : Refines s d) {r : Request β} (hr : (s.place p).request = some r)
    {lo hi : ℕ} (hhi : hi ≤ bsize) : Refines (movedBytes s r lo hi) d := by
  obtain ⟨hplace, -, -, -, hbuf, -⟩ := movedBytes_same s r lo hi
  have hcall := Place.call_of_request hr
  refine ⟨by simpa only [hplace] using h.calls, fun b => (h.blockno b).trans (hbuf b).1.symm, ?_,
    ?_⟩
  · intro a ha
    simp only [hplace, hbuf] at ha
    rw [h.platter a ha]
    cases hwrite : r.call.write with
    | false => simp [movedBytes, hwrite, State.setDevice, State.setBuf]
    | true =>
      have hrange : ¬ ((s.buf r.call.b).blockno * bsize + lo ≤ a ∧
          a < (s.buf r.call.b).blockno * bsize + hi) := by
        have hne := ha p r.call hcall hwrite
        unfold bsize at hne hhi ⊢
        omega
      simp only [movedBytes, hwrite, if_true, State.setDevice, if_neg hrange]
  · intro b k hb
    simp only [hplace] at hb
    rw [h.data b k hb]
    cases hwrite : r.call.write with
    | true => simp [movedBytes, hwrite, State.setDevice]
    | false =>
      by_cases hbr : b = r.call.b
      · have hrange : ¬ (lo ≤ k ∧ k < hi) := by
          rintro ⟨-, hk⟩
          refine hb (by omega) p ?_
          rw [hcall, hbr, ← hwrite]
        simp [movedBytes, hwrite, State.setDevice, State.setBuf, hbr, hrange]
      · simp [movedBytes, hwrite, State.setDevice, State.setBuf, hbr]

omit [DecidableEq ι] in
/-- A buffer in no call is given another block. -/
theorem Refines.modify (h : Refines s d) {b : β} (hfree : ∀ q, ∀ c ∈ (s.place q).call, c.b ≠ b)
    (bn : ℕ) (bytes : ℕ → UInt8) : Refines (s.setBuf b ⟨bn, bytes, (s.buf b).disk⟩)
      { d with blockno := update d.blockno b bn, data := update d.data b bytes } := by
  have hsame : ∀ c, c ≠ b → (s.setBuf b ⟨bn, bytes, (s.buf b).disk⟩).buf c = s.buf c :=
    fun c hc => update_of_ne hc ..
  have hself : (s.setBuf b ⟨bn, bytes, (s.buf b).disk⟩).buf b = ⟨bn, bytes, (s.buf b).disk⟩ :=
    update_self ..
  refine ⟨h.calls, fun c => ?_, fun a ha => h.platter a fun q c hq hwrite => ?_, fun c k hk => ?_⟩
  · by_cases hc : c = b
    · simp [hc, hself]
    · simpa [hc, hsame] using h.blockno c
  · simpa only [hsame c.b (hfree q c hq)] using ha q c hq hwrite
  · by_cases hc : c = b
    · simp [hc, hself]
    · simpa [hc, hsame] using h.data c k hk

omit [DecidableEq ι] [DecidableEq β] in
theorem Inv.call_eq (h : Inv s queued reported) {q : ι} {c' : Call β}
    (hp : (s.place p).call = some c) (hq : (s.place q).call = some c')
    (heq : (s.buf c'.b).blockno = (s.buf c.b).blockno) : c' = c := by
  cases h.blocks q p c' c hq hp heq
  exact Option.some.inj (hq.symm.trans hp)

/-- The buffer of a call whose bytes are where they belong. -/
theorem Refines.perform_data (hd : Refines s d) (h : Inv s queued reported)
    (hp : (s.place p).call = some c) (hcopied : ∀ k < bsize, Copied s c.b k) :
    (d.perform p c).data c.b = (s.buf c.b).data := by
  funext k
  cases hwrite : c.write with
  | true =>
    have hdata : d.data c.b k = (s.buf c.b).data k := by
      refine hd.data c.b k fun _ q hq => ?_
      rw [← h.call_eq hp hq rfl] at hwrite
      cases hwrite
    simpa [Atomic.perform, Atomic.setCall, hwrite] using hdata
  | false =>
    have hblock : readBlock d.platter (d.blockno c.b) (d.data c.b) k = (s.buf c.b).data k := by
      unfold readBlock
      split_ifs with hk
      · rw [hd.blockno, ← hcopied k hk]
        refine hd.platter _ fun q c' hq hwrite' heq => ?_
        rw [Nat.mul_comm, Nat.mul_add_div (by decide), Nat.div_eq_of_lt hk] at heq
        rw [h.call_eq hp hq heq, hwrite] at hwrite'
        cases hwrite'
      · exact hd.data c.b k fun hk' => absurd hk' hk
    simpa [Atomic.perform, hwrite] using hblock

/-- Such a call is carried out and returns. -/
theorem Refines.perform (hd : Refines s d) (h : Inv s queued reported)
    (hp : (s.place p).call = some c) (hcopied : ∀ k < bsize, Copied s c.b k)
    (hplatter : t.device.platter = s.device.platter) (hbuf : t.buf = s.buf)
    (hcall : ∀ q, (t.place q).call = update (fun q => (s.place q).call) p none q) :
    Refines t ((d.perform p c).setCall p none) := by
  have hother : ∀ q c', (s.place q).call = some c' → c' ≠ c → (t.place q).call = some c' := by
    intro q c' hq hne
    rw [hcall, update_of_ne, hq]
    rintro rfl
    exact hne (Option.some.inj (hq.symm.trans hp))
  have hdata := hd.perform_data h hp hcopied
  refine ⟨fun q => ?_, fun b => ?_, fun a ha => ?_, fun b k hb => ?_⟩
  · rw [hcall]
    by_cases hqp : q = p
    · simp [Atomic.setCall, hqp]
    · cases hwrite : c.write <;>
        simpa [Atomic.perform, Atomic.setCall, hwrite, hqp] using hd.calls q
  · rw [hbuf, ← hd.blockno]
    cases hwrite : c.write <;> simp [Atomic.perform, Atomic.setCall, hwrite]
  · rw [hplatter]
    simp only [hbuf] at ha
    by_cases hmine : c.write = true ∧ a / bsize = (s.buf c.b).blockno
    · have hlt : a % bsize < bsize := Nat.mod_lt _ (by decide)
      have hbyte := hcopied _ hlt
      rw [Copied, ← hmine.2, Nat.mul_comm, Nat.div_add_mod] at hbyte
      rw [hbyte, ← hdata]
      simp [Atomic.perform, Atomic.setCall, writeBlock, hmine, hd.blockno]
    · have hkeep : d.platter a = s.device.platter a := by
        refine hd.platter a fun q c' hq hwrite heq => ?_
        by_cases hc : c' = c
        · rw [hc] at hwrite heq
          exact hmine ⟨hwrite, heq.symm⟩
        · exact ha q c' (hother q c' hq hc) hwrite heq
      rw [← hkeep]
      cases hwrite : c.write with
      | true =>
        have hne : a / bsize ≠ (s.buf c.b).blockno := fun heq => hmine ⟨hwrite, heq⟩
        simp [Atomic.perform, Atomic.setCall, writeBlock, hwrite, hd.blockno, hne]
      | false => simp [Atomic.perform, Atomic.setCall, hwrite]
  · rw [hbuf]
    by_cases hbc : b = c.b
    · rw [hbc]
      exact congrFun hdata k
    · have hkeep : d.data b k = (s.buf b).data k := by
        refine hd.data b k fun hk q hq => hb hk q (hother q _ hq ?_)
        rintro rfl
        exact hbc rfl
      cases hwrite : c.write <;> simpa [Atomic.perform, Atomic.setCall, hwrite, hbc] using hkeep

theorem follows_return (hd : Refines s d) (h : Inv s queued reported) {idx : Idx}
    (hp : s.place p = .await c idx) (hdisk : (s.buf c.b).disk = false) :
    Follows Atomic.step visible d (observe s (.run p)).toList (Refines (finished s p idx)) := by
  have hcall : (s.place p).call = some c := by rw [hp]; rfl
  have hrequest : (s.place p).request = some ⟨c, idx⟩ := by rw [hp]; rfl
  have hok := h.threads p
  have hcopied : ∀ k < bsize, Copied s c.b k := fun k hk =>
    hok.copied _ hrequest k hk (.inl (hok.seen _ hrequest hdisk))
  have hcalls : ∀ q, ((finished s p idx).place q).call =
      update (fun q => (s.place q).call) p none q := by
    refine forall_moveTo (P := fun q place => place.call =
      update (fun q => (s.place q).call) p none q).mpr ⟨?_, fun q hqp => ?_⟩
    · rw [update_self]
      rfl
    · rw [update_of_ne hqp]
      exact (wakeup_similar s .free q).call
  have hperformed : (d.perform p c).calls p = some (c, true) := by
    cases hwrite : c.write <;> simp [Atomic.perform, Atomic.setCall, hwrite]
  have hperform : Atomic.step d (.perform p) = some (d.perform p c) := by
    simp [Atomic.step, hd.calls, hcall]
  have hreturn : Atomic.step (d.perform p c) (.ret p) = some ((d.perform p c).setCall p none) := by
    simp [Atomic.step, hperformed]
  have hvisible : visible (d.perform p c) (.ret p) = observe s (.run p) := by
    simp [visible, observe, hperformed, hp, hdisk, hd.perform_data h hcall hcopied]
  rw [← hvisible]
  exact .cons hperform (.one hreturn (hd.perform h hcall hcopied rfl rfl hcalls))

theorem simulates : Simulates (step (ι := ι) (β := β)) Atomic.step Permitted Good Refines observe
    visible := by
  intro s a t d hgood hd hc hs
  obtain ⟨queued, reported, h⟩ : ∃ queued reported, Inv s queued reported := by
    refine hgood.resolve_right fun hpanicked => ?_
    simp [step, hpanicked.1] at hs
  have hsilent (ht : Refines t d) (ha : observe s a = none) :
      Follows Atomic.step visible d (observe s a).toList (Refines t) := by
    rw [ha]
    exact .silent ht
  have hmoved {p : ι} {place : Place β} {lock : Option (Owner ι)} {disk : Disk β} {device : Device}
      (hcall : place.call = (s.place p).call) (hplatter : device.platter = s.device.platter) :
      Refines { s.moveTo p place with lock := lock, disk := disk, device := device } d :=
    hd.congr hplatter (fun _ => ⟨rfl, rfl⟩) (call_moveTo hcall)
  obtain ⟨queued', reported', heffect⟩ := h.effect hs
  cases heffect with
  | call p c hp =>
    refine Follows.one (e := AtomicAction.call p c) ?_ (hd.call hp)
    simp [Atomic.step, hd.calls, hp, Place.call]
  | enter p c hp | woken p c idx hp | publish p c idx hp | notify p c idx hp =>
    exact hsilent (hmoved (by rw [hp]; rfl) rfl) (by simp [observe, hp])
  | asleep p c idx hp hdisk =>
    exact hsilent (hmoved (by rw [hp]; rfl) rfl) (by simp [observe, hp, hdisk])
  | requested p c idx hp =>
    have hcall : (Place.publish c idx).call = (s.place p).call := by rw [hp]; rfl
    refine hsilent (hd.congr rfl (fun b => ?_) (call_moveTo hcall)) (by simp [observe, hp])
    exact ⟨(setBufDisk_buf _ c.b b true).1, (setBufDisk_buf _ c.b b true).2.1⟩
  | waitFree p c d woken hp =>
    have hwoken : ∀ q, ((if woken then s.wakeup .free else s).place q).call =
        (s.place q).call := by
      intro q
      cases woken with
      | false => rfl
      | true => exact (wakeup_similar s .free q).call
    refine hsilent (hd.congr (by cases woken <;> rfl) (fun b => by
      cases woken <;> exact ⟨rfl, rfl⟩) ?_) (by simp [observe, hp])
    exact forall_moveTo (P := fun q place => place.call = (s.place q).call).mpr
      ⟨by rw [hp]; rfl, fun q _ => hwoken q⟩
  | finished p c idx hp hdisk => exact follows_return hd h hp hdisk
  | kill p => exact hsilent (hmoved (by simp) rfl) rfl
  | seen p r =>
    refine hsilent (hd.congr rfl (fun b => ?_) fun q =>
      (wakeup_similar s (.buf r.call.b) q).call) rfl
    exact ⟨(setBufDisk_buf s r.call.b b false).1, (setBufDisk_buf s r.call.b b false).2.1⟩
  | move p r lo hi hr hhi => exact hsilent (hd.transfer hr.1 hhi) rfl
  | modify b blockno data =>
    exact Follows.one (e := AtomicAction.modify b blockno data) rfl (hd.modify hc blockno data)
  | intr | ack | failed | intrEnd | fetch | pause | finish | report | raise =>
    exact hsilent (hd.congr rfl (fun _ => ⟨rfl, rfl⟩) fun _ => rfl) rfl

/-- Every run of the driver, the handler and the device is a run of the atomic disk with the same
calls and the same returns. When all calls have returned, the disk and the buffers are those of
the atomic disk. -/
theorem exec_refines_atomicDisk (platter : ℕ → UInt8) (blockno : β → ℕ) (data : β → ℕ → UInt8)
    {as : List (Action ι β)} {t : State ι β}
    (hrun : exec step (init platter blockno data) as = some t)
    (halong : Along step Permitted (init platter blockno data) as) :
    ∃ es d, exec Atomic.step ⟨platter, blockno, data, fun _ => none⟩ es = some d ∧
      trace Atomic.step visible ⟨platter, blockno, data, fun _ => none⟩ es =
        trace step observe (init platter blockno data) as ∧
      ((∀ p, t.place p = .out) → d = ⟨t.device.platter, fun b => (t.buf b).blockno,
        fun b => (t.buf b).data, fun _ => none⟩) := by
  have hinit : Refines (init platter blockno data : State ι β)
      ⟨platter, blockno, data, fun _ => none⟩ :=
    ⟨fun _ => rfl, fun _ => rfl, fun _ _ => rfl, fun _ _ _ => rfl⟩
  obtain ⟨es, d, hexec, htrace, hd⟩ := simulates.exec (fun s a t h hc hs => Good.step h hc hs)
    (.inl ⟨[], [], inv_init platter blockno data⟩) hinit hrun halong
  refine ⟨es, d, hexec, htrace, fun hout => ?_⟩
  have hcall : ∀ p, (t.place p).call = none := fun p => by rw [hout]; rfl
  refine Atomic.ext (funext fun a => hd.platter a (by simp [hcall])) (funext hd.blockno)
    (funext fun b => funext fun k => hd.data b k (by simp [hcall])) (funext fun p => ?_)
  simp [hd.calls, hcall]

instance [Fintype ι] (s : State ι β) : ∀ a, Decidable (Permitted s a)
  | .call _ _ => inferInstanceAs (Decidable (_ ∧ _))
  | .modify _ _ _ => inferInstanceAs (Decidable (∀ _, _))
  | .acquire _ | .run _ | .kill _ | .intr | .intrPass | .fetch | .pause | .move _ _ _
  | .finish _ _ | .report _ | .raise => inferInstanceAs (Decidable True)

/-- One thread writes block 3 while the other reads block 4, and the device moves their bytes in
turns. Then the first reads block 3 into another buffer. -/
def writeRead : List (Action Bool ℕ) :=
  [.call false ⟨0, true⟩, .acquire false, .run false, .run false, .run false, .run false,
    .call true ⟨1, false⟩, .acquire true, .run true, .run true, .fetch, .fetch, .run true,
    .move 0 0 600, .move 3 500 1024, .run true, .move 0 600 1024, .move 3 0 500, .finish 3 true,
    .finish 0 true, .pause, .report 3, .raise, .report 0, .intr, .intrPass, .intrPass, .intrPass,
    .intrPass, .acquire false, .run false, .acquire true, .run true,
    .call false ⟨2, false⟩, .acquire false, .run false, .run false, .run false, .run false, .fetch,
    .move 0 0 1024, .finish 0 true, .report 0, .raise, .intr, .intrPass, .intrPass, .intrPass,
    .acquire false, .run false]

def writeReadInit : State Bool ℕ :=
  init (fun _ => 0) (fun b => if b = 1 then 4 else 3) fun b _ => if b = 0 then 7 else 1

omit [DecidableEq ι] [DecidableEq β] in
theorem exec_refines_atomicDisk_writeRead :
    ∃ t, exec step writeReadInit writeRead = some t ∧ (t.buf 2).data 5 = 7 ∧
      ∃ es d, exec Atomic.step ⟨fun _ => 0, fun b => if b = 1 then 4 else 3,
          fun b _ => if b = 0 then 7 else 1, fun _ => none⟩ es = some d ∧
        trace Atomic.step visible ⟨fun _ => 0, fun b => if b = 1 then 4 else 3,
          fun b _ => if b = 0 then 7 else 1, fun _ => none⟩ es =
          trace step observe writeReadInit writeRead ∧
        ((∀ p, t.place p = .out) → d = ⟨t.device.platter, fun b => (t.buf b).blockno,
          fun b => (t.buf b).data, fun _ => none⟩) := by
  have hread : (exec (fun s a => if Permitted s a then step s a else none) writeReadInit
      writeRead).map (fun t => (t.buf 2).data 5) = some 7 := by decide +kernel
  obtain ⟨t, ht, hdata⟩ := Option.map_eq_some_iff.mp hread
  obtain ⟨hrun, halong⟩ := along_of_exec ht
  exact ⟨t, hrun, hdata, exec_refines_atomicDisk _ _ _ hrun halong⟩

end CS352.VirtioDisk

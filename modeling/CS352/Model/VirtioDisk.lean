import Mathlib.Algebra.GroupWithZero.Nat
import Mathlib.Data.Int.Order.Basic
import Mathlib.Logic.Function.Basic

/-! # The disk driver

`kernel/virtio_disk.c` of the MLFQ kernel with a device at the other end of its rings. Any
number of threads are in `virtio_disk_rw`, and the interrupt handler and the device run beside
them. A step of a thread or of the handler goes up to the next point at which the device could
see or change something. `sleep` releases `vdisk_lock` and goes to sleep in one step, as its use
of `p->lock` makes it do.

The device is not part of the kernel, and little is assumed of it. Once notified it looks at the
available ring until it has found it empty. It moves the bytes of the chains that it has taken in
pieces of any size and in any order, several chains at a time, and reads the descriptors again for
every piece. It may fail. It puts the chains that it is done with into the used ring, in any
order, and raises its interrupt some time later. -/

namespace CS352.VirtioDisk

open Function

/-- `NUM`. -/
def num : ℕ := 8

/-- `BSIZE`. -/
def bsize : ℕ := 1024

/-- The value that a `uint16` holds after storing `x`. -/
def uint16 (x : ℕ) : ℕ := x % 2 ^ 16

/-- The value that a `uint` holds after storing `x`. -/
def uint (x : ℕ) : ℕ := x % 2 ^ 32

/-! ## Memory that the driver and the device share -/

/-- The addresses that the driver writes into descriptors. -/
inductive Addr (β : Type*) where
  | null
  /-- `&disk.ops[i]`. -/
  | op (i : ℕ)
  /-- `b->data`. -/
  | data (b : β)
  /-- `&disk.info[i].status`. -/
  | status (i : ℕ)
  deriving DecidableEq, Repr

/-- `struct virtq_desc`; the two flags are `VRING_DESC_F_NEXT` and `VRING_DESC_F_WRITE`. -/
structure Desc (β : Type*) where
  addr : Addr β
  len : ℕ
  hasNext : Bool
  deviceWrites : Bool
  next : ℕ
  deriving DecidableEq, Repr

def Desc.zero {β : Type*} : Desc β := ⟨.null, 0, false, false, 0⟩

/-- `VIRTIO_BLK_T_IN` reads the disk and `VIRTIO_BLK_T_OUT` writes it. -/
inductive BlkType where
  | blkIn
  | blkOut
  deriving DecidableEq, Repr

/-- `struct virtio_blk_req`. -/
structure BlkReq where
  type : BlkType
  reserved : ℕ
  sector : ℕ
  deriving DecidableEq, Repr

/-- `struct virtq_avail` and `struct virtq_used`, as far as they are used: a ring of descriptor
numbers and the count of entries that were put into it. -/
structure Ring where
  ring : ℕ → ℕ
  idx : ℕ

/-- An entry of `disk.info`. -/
structure Info (β : Type*) where
  b : Option β
  status : ℕ

/-- `struct disk` without its lock. -/
structure Disk (β : Type*) where
  desc : ℕ → Desc β
  avail : Ring
  used : Ring
  free : ℕ → Bool
  /-- How far the driver has looked in the used ring. -/
  usedIdx : ℕ
  info : ℕ → Info β
  ops : ℕ → BlkReq

/-- The fields of `struct buf` that the driver uses. -/
structure Buf where
  blockno : ℕ
  data : ℕ → UInt8
  disk : Bool

structure Device where
  /-- How far it has looked in the available ring. -/
  lastAvail : ℕ
  /-- It is looking at the available ring. -/
  notified : Bool
  /-- The chains that it has taken and is not done with. -/
  busy : List ℕ
  /-- The bytes of a chain that it has moved. -/
  moved : ℕ → ℕ → Bool
  /-- The chains that it is done with and has not put into the used ring. -/
  done : List ℕ
  /-- It has put chains into the used ring and is about to raise its interrupt. -/
  raising : Bool
  interrupt : Bool
  /-- It has failed some request. -/
  failed : Bool
  platter : ℕ → UInt8

/-! ## The driver's threads -/

inductive Panic where
  | freeDesc1
  | freeDesc2
  | intrStatus
  /-- The handler follows `disk.info[id].b`, which is null. -/
  | nullBuf
  /-- `free_chain` goes on after as many descriptors as there are. -/
  | endlessChain
  deriving DecidableEq, Repr

/-- The local `idx`. -/
structure Idx where
  head : ℕ
  middle : ℕ
  last : ℕ
  deriving DecidableEq, Repr

/-- The arguments of `virtio_disk_rw`. -/
structure Call (β : Type*) where
  b : β
  write : Bool
  deriving DecidableEq, Repr

/-- Where a thread is in `virtio_disk_rw`. -/
inductive Place (β : Type*) where
  | out
  /-- Before `acquire`, at the start or at the end of the first `sleep`. -/
  | enter (c : Call β)
  /-- Asleep on `&disk.free[0]`. -/
  | waitFree (c : Call β)
  /-- About to call `alloc3_desc`, holding the lock. -/
  | alloc (c : Call β)
  /-- The ring entry is written and `avail->idx` is not yet, holding the lock. -/
  | publish (c : Call β) (idx : Idx)
  /-- Before the write to `VIRTIO_MMIO_QUEUE_NOTIFY`, holding the lock. -/
  | notify (c : Call β) (idx : Idx)
  /-- At the test of `b->disk`, holding the lock. -/
  | await (c : Call β) (idx : Idx)
  /-- Asleep on `b`. -/
  | asleep (c : Call β) (idx : Idx)
  /-- Before `acquire` at the end of the second `sleep`. -/
  | woken (c : Call β) (idx : Idx)
  deriving DecidableEq, Repr

/-- What threads sleep on. -/
inductive Chan (β : Type*) where
  /-- `&disk.free[0]`. -/
  | free
  | buf (b : β)
  deriving DecidableEq, Repr

def Place.chan {β : Type*} : Place β → Option (Chan β)
  | .waitFree _ => some .free
  | .asleep c _ => some (.buf c.b)
  | _ => none

/-- A thread that sleeps becomes runnable. -/
def Place.wake {β : Type*} : Place β → Place β
  | .waitFree c => .enter c
  | .asleep c idx => .woken c idx
  | place => place

inductive Owner (ι : Type*) where
  | thread (p : ι)
  /-- `virtio_disk_intr`, before or after it has acknowledged the interrupt. -/
  | handler (acked : Bool)
  deriving DecidableEq, Repr

structure State (ι β : Type*) where
  disk : Disk β
  buf : β → Buf
  device : Device
  /-- Who holds `vdisk_lock`. -/
  lock : Option (Owner ι)
  place : ι → Place β
  panicked : Option Panic

variable {ι β : Type*} [DecidableEq ι] [DecidableEq β]

namespace State

def setDisk (s : State ι β) (d : Disk β) : State ι β := { s with disk := d }

def setDevice (s : State ι β) (d : Device) : State ι β := { s with device := d }

def moveTo (s : State ι β) (p : ι) (place : Place β) : State ι β :=
  { s with place := update s.place p place }

def setBuf (s : State ι β) (b : β) (buf : Buf) : State ι β :=
  { s with buf := update s.buf b buf }

/-- `b->disk = x`. -/
def setBufDisk (s : State ι β) (b : β) (x : Bool) : State ι β :=
  s.setBuf b { s.buf b with disk := x }

def wakeup (s : State ι β) (chan : Chan β) : State ι β :=
  { s with place := fun p =>
      if (s.place p).chan = some chan then (s.place p).wake else s.place p }

def release (s : State ι β) : State ι β := { s with lock := none }

def acquire (s : State ι β) (owner : Owner ι) : Option (State ι β) :=
  if s.lock = none then some { s with lock := some owner } else none

/-- A panic stops everything. -/
def orPanic (s : State ι β) (r : Except Panic (State ι β)) : State ι β :=
  match r with
  | .ok t => t
  | .error e => { s with panicked := some e }

end State

/-! ## Descriptors -/

def allocDesc (s : State ι β) : Option (ℕ × State ι β) :=
  ((List.range num).find? s.disk.free).map fun i =>
    (i, s.setDisk { s.disk with free := update s.disk.free i false })

def freeDesc (s : State ι β) (i : ℕ) : Except Panic (State ι β) :=
  if i ≥ num then .error .freeDesc1
  else if s.disk.free i then .error .freeDesc2
  else
    let desc := update s.disk.desc i .zero
    let free := update s.disk.free i true
    .ok ((s.setDisk { s.disk with desc := desc, free := free }).wakeup .free)

/-- The loop of `free_chain`, for at most as many passes as the first argument says. -/
def freeChain : ℕ → State ι β → ℕ → Except Panic (State ι β)
  | 0, _, _ => .error .endlessChain
  | fuel + 1, s, i => do
    let flag := (s.disk.desc i).hasNext
    let nxt := (s.disk.desc i).next
    let s ← freeDesc s i
    if flag then freeChain fuel s nxt else return s

/-- The descriptors in `idx`, or none of them if there are fewer than three. -/
def alloc3Desc (s : State ι β) : Except Panic (Option Idx × State ι β) :=
  match allocDesc s with
  | none => .ok (none, s)
  | some (i, s) =>
    match allocDesc s with
    | none => (freeDesc s i).map fun s => (none, s)
    | some (j, s) =>
      match allocDesc s with
      | none => do
        let s ← freeDesc s i
        let s ← freeDesc s j
        return (none, s)
      | some (k, s) => .ok (some ⟨i, j, k⟩, s)

/-! ## The driver -/

/-- The request in `disk.ops`. -/
def blkReq (blockno : ℕ) (write : Bool) : BlkReq :=
  { type := if write then .blkOut else .blkIn
    reserved := 0
    sector := uint (blockno * (bsize / 512)) }

/-- The assignments between `alloc3_desc` and the first barrier, except the one to `b->disk`. -/
def format (d : Disk β) (c : Call β) (blockno : ℕ) (idx : Idx) : Disk β :=
  let desc := update d.desc idx.head ⟨.op idx.head, 16, true, false, idx.middle⟩
  let desc := update desc idx.middle ⟨.data c.b, bsize, true, !c.write, idx.last⟩
  let desc := update desc idx.last ⟨.status idx.head, 1, false, true, 0⟩
  { d with
    ops := update d.ops idx.head (blkReq blockno c.write)
    desc := desc
    info := update d.info idx.head ⟨some c.b, 0xff⟩
    avail := { d.avail with
      ring := update d.avail.ring (d.avail.idx % num) idx.head } }

/-- The loop around `alloc3_desc`, and the format of the descriptors once there are three. -/
def allocSection (s : State ι β) (p : ι) (c : Call β) : State ι β :=
  s.orPanic <| (alloc3Desc s).map fun
    | (none, s) => (s.moveTo p (.waitFree c)).release
    | (some idx, s) =>
      ((s.setDisk (format s.disk c (s.buf c.b).blockno idx)).setBufDisk c.b true).moveTo p
        (.publish c idx)

/-- `disk.avail->idx += 1`. -/
def publishSection (s : State ι β) (p : ι) (c : Call β) (idx : Idx) : State ι β :=
  (s.setDisk { s.disk with
    avail := { s.disk.avail with idx := uint16 (s.disk.avail.idx + 1) } }).moveTo p (.notify c idx)

def notifySection (s : State ι β) (p : ι) (c : Call β) (idx : Idx) : State ι β :=
  (s.setDevice { s.device with notified := true }).moveTo p (.await c idx)

/-- The loop around the last `sleep`, and the end of `virtio_disk_rw`. -/
def awaitSection (s : State ι β) (p : ι) (c : Call β) (idx : Idx) : State ι β :=
  if (s.buf c.b).disk then (s.moveTo p (.asleep c idx)).release
  else
    let info := update s.disk.info idx.head { s.disk.info idx.head with b := none }
    s.orPanic <| (freeChain num (s.setDisk { s.disk with info := info }) idx.head).map fun s =>
      (s.moveTo p .out).release

/-- The acknowledgement in `virtio_disk_intr`, one pass of its loop, or its end. -/
def intrPass (s : State ι β) (acked : Bool) : State ι β :=
  if acked = false then
    { s.setDevice { s.device with interrupt := false } with lock := some (.handler true) }
  else if s.disk.usedIdx = s.disk.used.idx then s.release
  else
    let id := s.disk.used.ring (s.disk.usedIdx % num)
    if (s.disk.info id).status ≠ 0 then { s with panicked := some .intrStatus }
    else
      match (s.disk.info id).b with
      | none => { s with panicked := some .nullBuf }
      | some b =>
        let s := (s.setBufDisk b false).wakeup (.buf b)
        s.setDisk { s.disk with usedIdx := uint16 (s.disk.usedIdx + 1) }

/-! ## The device -/

/-- The device takes the next entry of the available ring. -/
def fetch (s : State ι β) : Option (State ι β) :=
  if s.device.notified ∧ s.device.lastAvail ≠ s.disk.avail.idx then
    let head := s.disk.avail.ring (s.device.lastAvail % num)
    some (s.setDevice { s.device with
      lastAvail := uint16 (s.device.lastAvail + 1)
      busy := s.device.busy ++ [head]
      moved := update s.device.moved head fun _ => false })
  else none

/-- It has found the ring empty, and stops looking. -/
def pause (s : State ι β) : Option (State ι β) :=
  if s.device.lastAvail = s.disk.avail.idx then
    some (s.setDevice { s.device with notified := false })
  else none

/-- A block request, as the device reads it from a chain. -/
structure Chain (β : Type*) where
  req : BlkReq
  b : β
  len : ℕ
  status : ℕ

/-- The device follows the descriptors from `head` on. It does not serve a chain that is not a
block request. -/
def readChain (d : Disk β) (head : ℕ) : Option (Chain β) :=
  let d₀ := d.desc head
  let d₁ := d.desc d₀.next
  let d₂ := d.desc d₁.next
  if d₀.hasNext ∧ d₁.hasNext ∧ d₂.hasNext = false ∧ d₂.deviceWrites then
    match d₀.addr, d₁.addr, d₂.addr with
    | .op i, .data b, .status k =>
      if d₁.deviceWrites = decide ((d.ops i).type = .blkIn) then some ⟨d.ops i, b, d₁.len, k⟩
      else none
    | _, _, _ => none
  else none

/-- The bytes from `lo` to `hi` of a chain are moved. -/
def move (s : State ι β) (head lo hi : ℕ) : Option (State ι β) :=
  if head ∈ s.device.busy then
    (readChain s.disk head).bind fun chain =>
      if hi ≤ chain.len then
        let first := chain.req.sector * 512
        let data := (s.buf chain.b).data
        let device := { s.device with
          moved := update s.device.moved head fun k =>
            decide (lo ≤ k ∧ k < hi) || s.device.moved head k }
        match chain.req.type with
        | .blkOut => some (s.setDevice { device with platter := fun a =>
          if first + lo ≤ a ∧ a < first + hi then data (a - first) else device.platter a })
        | .blkIn => some ((s.setDevice device).setBuf chain.b { s.buf chain.b with
            data := fun k => if lo ≤ k ∧ k < hi then device.platter (first + k) else data k })
      else none
  else none

/-- The device is done with a chain: all bytes are moved, or it fails. It writes the status. -/
def finish (s : State ι β) (head : ℕ) (ok : Bool) : Option (State ι β) :=
  if head ∈ s.device.busy then
    (readChain s.disk head).bind fun chain =>
      if ok = true → ∀ k < chain.len, s.device.moved head k = true then
        let info := update s.disk.info chain.status
          { s.disk.info chain.status with status := if ok then 0 else 1 }
        some ((s.setDisk { s.disk with info := info }).setDevice { s.device with
          busy := s.device.busy.erase head
          done := s.device.done ++ [head]
          failed := s.device.failed || !ok })
      else none
  else none

/-- The device puts a chain into the used ring. -/
def report (s : State ι β) (head : ℕ) : Option (State ι β) :=
  if head ∈ s.device.done then
    let used := { ring := update s.disk.used.ring (s.disk.used.idx % num) head
                  idx := uint16 (s.disk.used.idx + 1) }
    some ((s.setDisk { s.disk with used := used }).setDevice
      { s.device with done := s.device.done.erase head, raising := true })
  else none

def raise (s : State ι β) : Option (State ι β) :=
  if s.device.raising then
    some (s.setDevice { s.device with raising := false, interrupt := true })
  else none

/-! ## Steps -/

inductive Action (ι β : Type*) where
  | call (p : ι) (c : Call β)
  /-- The thread gets the lock, at the start or at the end of `sleep`. -/
  | acquire (p : ι)
  /-- The thread that holds the lock goes on. -/
  | run (p : ι)
  /-- `kill` makes a thread that sleeps runnable. -/
  | kill (p : ι)
  /-- The interrupt is taken, and the handler gets the lock. -/
  | intr
  | intrPass
  | fetch
  | pause
  | move (head lo hi : ℕ)
  | finish (head : ℕ) (ok : Bool)
  | report (head : ℕ)
  | raise
  /-- Whoever holds the buffer changes its contents or, in `bget`, what it stands for. -/
  | modify (b : β) (blockno : ℕ) (data : ℕ → UInt8)

def step (s : State ι β) (a : Action ι β) : Option (State ι β) :=
  if s.panicked.isSome then none
  else
    match a with
    | .call p c => if s.place p = .out then some (s.moveTo p (.enter c)) else none
    | .acquire p =>
      match s.place p with
      | .enter c => (s.moveTo p (.alloc c)).acquire (.thread p)
      | .woken c idx => (s.moveTo p (.await c idx)).acquire (.thread p)
      | _ => none
    | .run p =>
      match s.place p with
      | .alloc c => some (allocSection s p c)
      | .publish c idx => some (publishSection s p c idx)
      | .notify c idx => some (notifySection s p c idx)
      | .await c idx => some (awaitSection s p c idx)
      | _ => none
    | .kill p =>
      if (s.place p).chan.isSome then some (s.moveTo p (s.place p).wake) else none
    | .intr => if s.device.interrupt then s.acquire (.handler false) else none
    | .intrPass =>
      match s.lock with
      | some (.handler acked) => some (intrPass s acked)
      | _ => none
    | .fetch => fetch s
    | .pause => pause s
    | .move head lo hi => move s head lo hi
    | .finish head ok => finish s head ok
    | .report head => report s head
    | .raise => raise s
    | .modify b blockno data => some (s.setBuf b ⟨blockno, data, (s.buf b).disk⟩)

/-- As `virtio_disk_init` leaves it. -/
def init (platter : ℕ → UInt8) (blockno : β → ℕ) (data : β → ℕ → UInt8) : State ι β :=
  { disk :=
      { desc := fun _ => .zero
        avail := ⟨fun _ => 0, 0⟩
        used := ⟨fun _ => 0, 0⟩
        free := fun i => decide (i < num)
        usedIdx := 0
        info := fun _ => ⟨none, 0⟩
        ops := fun _ => ⟨.blkIn, 0, 0⟩ }
    buf := fun b => ⟨blockno b, data b, false⟩
    device :=
      { lastAvail := 0
        notified := false
        busy := []
        moved := fun _ _ => false
        done := []
        raising := false
        interrupt := false
        failed := false
        platter := platter }
    lock := none
    place := fun _ => .out
    panicked := none }

end CS352.VirtioDisk

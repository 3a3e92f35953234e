import Mathlib.Data.List.Basic
import Mathlib.Logic.Function.Basic

/-! # The buffer cache

`kernel/bio.c`: the ring of buffers through `next` and `prev`, and the calls of the processes
between the locks. One step is the section of a call under `bcache.lock`, or an operation on
the sleep lock of a buffer. -/

namespace CS352.BufferCache

open Function

/-- `NBUF`, that is `MAXOPBLOCKS*3`. -/
def nbuf : ℕ := 10 * 3

/-- Pointers to `struct buf` are indices: `bcache.buf[i]` is `i`, and this is `&bcache.head`. -/
def head : ℕ := nbuf

/-- The fields of `struct buf` besides the links and the data. `lock` is the process that holds
the sleep lock. -/
structure Buf (ι : Type*) where
  valid : Bool
  dev : UInt32
  blockno : UInt32
  refcnt : UInt32
  lock : Option ι
  deriving DecidableEq

/-- `bcache`. -/
structure Cache (ι : Type*) where
  buf : ℕ → Buf ι
  next : ℕ → ℕ
  prev : ℕ → ℕ

section

variable {ι : Type*}

def Cache.setBuf (c : Cache ι) (b : ℕ) (buf : Buf ι) : Cache ι :=
  { c with buf := update c.buf b buf }

def Cache.setNext (c : Cache ι) (b target : ℕ) : Cache ι :=
  { c with next := update c.next b target }

def Cache.setPrev (c : Cache ι) (b target : ℕ) : Cache ι :=
  { c with prev := update c.prev b target }

/-! ## The ring -/

/-- The writes with which `binit` and `brelse` put a buffer behind the head. -/
def pushFront (c : Cache ι) (b : ℕ) : Cache ι :=
  let c := c.setNext b (c.next head)
  let c := c.setPrev b head
  let c := c.setPrev (c.next head) b
  c.setNext head b

/-- The writes with which `brelse` takes a buffer out of the ring. -/
def unlink (c : Cache ι) (b : ℕ) : Cache ι :=
  let c := c.setPrev (c.next b) (c.prev b)
  c.setNext (c.prev b) (c.next b)

def binit (c : Cache ι) : Cache ι :=
  let c := c.setPrev head head
  let c := c.setNext head head
  (List.range nbuf).foldl
    (fun c b => pushFront (c.setBuf b { c.buf b with lock := none }) b) c

/-- How a loop over the ring ends. -/
inductive Found where
  | buf (b : ℕ)
  | missing
  /-- The head has not been reached. -/
  | outOfFuel
  deriving DecidableEq, Repr

/-- The loops of `bget`: `for(; b != &bcache.head; b = link(b)) if(test(b)) return b`. -/
def scan (link : ℕ → ℕ) (test : ℕ → Bool) : ℕ → ℕ → Found
  | fuel, b =>
    if b = head then .missing
    else match fuel with
      | 0 => .outOfFuel
      | fuel + 1 => if test b then .buf b else scan link test fuel (link b)

/-! ## Calls -/

/-- `bget` up to `acquiresleep`; `none` is the panic, or a loop that does not end. -/
def bget (c : Cache ι) (dev blockno : UInt32) : Option (Cache ι × ℕ) :=
  let cached := scan c.next (fun b => (c.buf b).dev = dev ∧ (c.buf b).blockno = blockno) nbuf
    (c.next head)
  match cached with
  | .buf b => some (c.setBuf b { c.buf b with refcnt := (c.buf b).refcnt + 1 }, b)
  | .outOfFuel => none
  | .missing =>
    match scan c.prev (fun b => (c.buf b).refcnt = 0) nbuf (c.prev head) with
    | .buf b =>
      some (c.setBuf b
        { c.buf b with dev := dev, blockno := blockno, valid := false, refcnt := 1 }, b)
    | .missing | .outOfFuel => none

/-- The part of `brelse` behind `releasesleep`. -/
def drop (c : Cache ι) (b : ℕ) : Cache ι :=
  let c := c.setBuf b { c.buf b with refcnt := (c.buf b).refcnt - 1 }
  if (c.buf b).refcnt = 0 then pushFront (unlink c b) b else c

def bpin (c : Cache ι) (b : ℕ) : Cache ι :=
  c.setBuf b { c.buf b with refcnt := (c.buf b).refcnt + 1 }

def bunpin (c : Cache ι) (b : ℕ) : Cache ι :=
  c.setBuf b { c.buf b with refcnt := (c.buf b).refcnt - 1 }

/-! ## Processes -/

/-- Where a process is with a buffer that `bget` has counted. -/
inductive Stage where
  /-- In `acquiresleep`. -/
  | waiting
  /-- Behind `bget`. -/
  | holding
  /-- In `brelse`, behind `releasesleep`. -/
  | releasing
  deriving DecidableEq, Repr

/-- A process and a buffer that it has called `bget` for and not yet given back, with the
arguments of `bget`. -/
structure Ref (ι : Type*) where
  proc : ι
  buf : ℕ
  dev : UInt32
  blockno : UInt32
  stage : Stage
  deriving DecidableEq

/-- The cache, who refers to its buffers, and how often each buffer is pinned. -/
structure State (ι : Type*) where
  cache : Cache ι
  refs : List (Ref ι)
  pins : ℕ → ℕ

inductive Action (ι : Type*) where
  | bget (p : ι) (dev blockno : UInt32)
  /-- `acquiresleep` in `bget` succeeds. -/
  | acquire (r : Ref ι)
  /-- The process calls `brelse`, up to `releasesleep`. -/
  | brelse (r : Ref ι)
  /-- The rest of `brelse`. -/
  | drop (r : Ref ι)
  | bpin (b : ℕ)
  | bunpin (b : ℕ)
  deriving DecidableEq

variable [DecidableEq ι]

/-- The process is in none of these calls. -/
def State.isFree (s : State ι) (p : ι) : Bool :=
  s.refs.all fun r => r.proc ≠ p ∨ r.stage = .holding

/-- `holdingsleep`. -/
def holdingsleep (c : Cache ι) (b : ℕ) (p : ι) : Bool := (c.buf b).lock = some p

def State.moveRef (s : State ι) (r : Ref ι) (stage : Stage) : State ι :=
  { s with refs := { r with stage := stage } :: s.refs.erase r }

/-- Processes release only buffers that they hold and take off only pins that were set. -/
def step (s : State ι) : Action ι → Option (State ι)
  | .bget p dev blockno =>
    if s.isFree p then
      (bget s.cache dev blockno).map fun (c, b) =>
        { s with cache := c, refs := ⟨p, b, dev, blockno, .waiting⟩ :: s.refs }
    else none
  | .acquire r =>
    if r ∈ s.refs ∧ r.stage = .waiting ∧ (s.cache.buf r.buf).lock = none then
      some { s.moveRef r .holding with
        cache := s.cache.setBuf r.buf { s.cache.buf r.buf with lock := some r.proc } }
    else none
  | .brelse r =>
    if r ∈ s.refs ∧ r.stage = .holding ∧ s.isFree r.proc then
      if holdingsleep s.cache r.buf r.proc then
        some { s.moveRef r .releasing with
          cache := s.cache.setBuf r.buf { s.cache.buf r.buf with lock := none } }
      else none
    else none
  | .drop r =>
    if r ∈ s.refs ∧ r.stage = .releasing then
      some { s with cache := drop s.cache r.buf, refs := s.refs.erase r }
    else none
  | .bpin b =>
    if b < nbuf then
      some { s with cache := bpin s.cache b, pins := update s.pins b (s.pins b + 1) }
    else none
  | .bunpin b =>
    if b < nbuf ∧ 0 < s.pins b then
      some { s with cache := bunpin s.cache b, pins := update s.pins b (s.pins b - 1) }
    else none

/-! ## Boot -/

/-- `bcache` in zeroed memory, with any links. -/
def zeroed (next prev : ℕ → ℕ) : Cache ι where
  buf := fun _ => { valid := false, dev := 0, blockno := 0, refcnt := 0, lock := none }
  next := next
  prev := prev

def boot (next prev : ℕ → ℕ) : State ι where
  cache := binit (zeroed next prev)
  refs := []
  pins := fun _ => 0

end

end CS352.BufferCache

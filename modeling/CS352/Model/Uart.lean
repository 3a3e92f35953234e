import Mathlib.Algebra.GroupWithZero.Nat
import Mathlib.Logic.Function.Basic

/-! # The output of the UART

`kernel/uart.c` with the device, for one hart: the sections under `uart_tx_lock` and the calls of
`uartputc_sync` have interrupts off, so that they are single steps. -/

namespace CS352.Uart

open Function

/-- `UART_TX_BUF_SIZE`. -/
def txBufSize : ℕ := 32

/-- The value that a `uint64` holds after storing `x`. -/
def uint64 (x : ℕ) : ℕ := x % 2 ^ 64

/-- A byte for the device. Where it comes from is history that nothing reads. -/
structure Byte where
  value : UInt8
  buffered : Bool
  deriving DecidableEq, Repr

/-- The buffer for output, and the device. -/
structure Tx where
  /-- `uart_tx_buf`. -/
  buf : ℕ → UInt8
  /-- `uart_tx_r`. -/
  r : ℕ
  /-- `uart_tx_w`. -/
  w : ℕ
  /-- The transmit holding register. The device is idle when it is empty. -/
  thr : Option Byte
  /-- The device has an interrupt for the hart. -/
  pending : Bool
  /-- What the device has sent. -/
  wire : List Byte

/-- The device sends the byte in its holding register, and says that it is ready for a new one. -/
def Tx.send (u : Tx) : Tx :=
  { u with thr := none, pending := true, wire := u.wire ++ u.thr.toList }

/-- The device sends the next `quick` bytes at once, while the loop goes on. -/
def uartstart : ℕ → Tx → Tx
  | 0, u =>
    if u.w = u.r ∨ u.thr.isSome then u
    else { u with r := uint64 (u.r + 1), thr := some ⟨u.buf (u.r % txBufSize), true⟩ }
  | quick + 1, u =>
    if u.w = u.r ∨ u.thr.isSome then u
    else
      uartstart quick
        { u with r := uint64 (u.r + 1), thr := some ⟨u.buf (u.r % txBufSize), true⟩ }.send

/-- A byte is stored and the device started. -/
def put (u : Tx) (c : UInt8) (quick : ℕ) : Tx :=
  uartstart quick
    { u with buf := update u.buf (u.w % txBufSize) c, w := uint64 (u.w + 1) }

/-- `waiting p` is the byte for which `p` is in `uartputc`. `stored` is history that nothing
reads: the bytes that `uartputc` has stored. -/
structure State (P : Type*) where
  tx : Tx
  waiting : P → Option UInt8
  stored : List UInt8

inductive Action (P : Type*) where
  | call (p : P) (c : UInt8)
  /-- A process that has called `uartputc` runs when the buffer is not full. -/
  | uartputc (p : P) (quick : ℕ)
  /-- `uartputc_sync` finds the device idle. -/
  | uartputcSync (c : UInt8)
  | send
  /-- The handler of the interrupt by which the device says that it is ready. -/
  | uartintr (quick : ℕ)
  /-- The handler of an interrupt for input. It may serve the other interrupt as well. -/
  | uartintrInput (served : Bool) (quick : ℕ)

section

variable {P : Type*} [DecidableEq P]

def step (s : State P) : Action P → Option (State P)
  | .call p c =>
    match s.waiting p with
    | some _ => none
    | none => some { s with waiting := update s.waiting p (some c) }
  | .uartputc p quick =>
    match s.waiting p with
    | some c =>
      if s.tx.w = uint64 (s.tx.r + txBufSize) then none
      else some ⟨put s.tx c quick, update s.waiting p none, s.stored ++ [c]⟩
    | none => none
  | .uartputcSync c =>
    if s.tx.thr.isSome then none
    else some { s with tx := { s.tx with thr := some ⟨c, false⟩ } }
  | .send => if s.tx.thr.isSome then some { s with tx := s.tx.send } else none
  | .uartintr quick =>
    if s.tx.pending then
      some { s with tx := uartstart quick { s.tx with pending := false } }
    else none
  | .uartintrInput served quick =>
    some { s with tx := uartstart quick { s.tx with pending := s.tx.pending && !served } }

def boot : State P := ⟨⟨fun _ => 0, 0, 0, none, false, []⟩, fun _ => none, []⟩

end

end CS352.Uart

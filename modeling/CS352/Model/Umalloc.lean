import Mathlib.Algebra.GroupWithZero.Nat
import Mathlib.Data.Int.Order.Basic
import Mathlib.Logic.Function.Basic

/-! # The user-level allocator

`malloc` and `free` of `user/umalloc.c`. Memory is counted in units of `sizeof(Header)`, which
is 16 bytes: an address is the number of a unit, and a unit holds a header or 16 bytes of a
caller. -/

namespace CS352.Umalloc

open Function

/-- `union header`. -/
structure Header where
  ptr : ℕ
  size : ℕ
  deriving DecidableEq, Repr

/-- The memory of the process with `freep` and the end of the memory. -/
structure Heap where
  mem : ℕ → Header
  freep : Option ℕ
  brk : ℕ

/-- The value that a `uint` holds after storing `x`. -/
def uint (x : ℕ) : ℕ := x % 2 ^ 32

namespace Heap

def setPtr (h : Heap) (p q : ℕ) : Heap :=
  { h with mem := update h.mem p { h.mem p with ptr := q } }

def setSize (h : Heap) (p n : ℕ) : Heap :=
  { h with mem := update h.mem p { h.mem p with size := n } }

/-- `p->s.ptr`. -/
def ptr (h : Heap) (p : ℕ) : ℕ := (h.mem p).ptr

/-- `p->s.size`. -/
def size (h : Heap) (p : ℕ) : ℕ := (h.mem p).size

end Heap

/-- More passes than any loop of the allocator makes: every pass goes to another header. -/
def fuel (h : Heap) : ℕ := 2 * h.brk + 4

/-! ## `free` -/

/-- The search for the place of `bp` in the list. -/
def freeLoop (h : Heap) (bp : ℕ) : ℕ → ℕ → Option ℕ
  | 0, _ => none
  | n + 1, p =>
    if bp > p ∧ bp < h.ptr p then some p
    else if p ≥ h.ptr p ∧ (bp > p ∨ bp < h.ptr p) then some p
    else freeLoop h bp n (h.ptr p)

/-- The block at `bp` is joined with the one behind it, if that follows directly. -/
def joinNext (h : Heap) (bp p : ℕ) : Heap :=
  if bp + h.size bp = h.ptr p then
    let h := h.setSize bp (uint (h.size bp + h.size (h.ptr p)))
    h.setPtr bp (h.ptr (h.ptr p))
  else h.setPtr bp (h.ptr p)

/-- The block at `bp` is joined with the one before it, if it follows that directly. -/
def joinPrev (h : Heap) (bp p : ℕ) : Heap :=
  if p + h.size p = bp then
    let h := h.setSize p (uint (h.size p + h.size bp))
    h.setPtr p (h.ptr bp)
  else h.setPtr p bp

/-- The argument is the address behind the header. -/
def free (h : Heap) (ap : ℕ) : Option Heap :=
  let bp := ap - 1
  h.freep.bind fun freep =>
    (freeLoop h bp (fuel h) freep).map fun p =>
      { joinPrev (joinNext h bp p) bp p with freep := some p }

/-! ## `malloc` -/

/-- `sbrk` with the number of units that it is asked for: the old end of memory, or nothing if
there is no more memory. A shrink below zero has no effect. -/
def sbrk (h : Heap) (n : ℤ) (granted : Bool) : Option (ℕ × Heap) :=
  if granted then some (h.brk, { h with brk := if 0 ≤ h.brk + n then (h.brk + n).toNat else h.brk })
  else none

/-- The number of units that `nu * sizeof(Header)` stands for as an `int`. -/
def sbrkUnits (nu : ℕ) : ℤ := Int.bmod (nu * 16) (2 ^ 32) / 16

/-- The new `freep`; `none` in the first component is the null pointer. -/
def morecore (h : Heap) (nu : ℕ) (granted : Bool) : Option (Option ℕ × Heap) :=
  let nu := if nu < 4096 then 4096 else nu
  match sbrk h (sbrkUnits nu) granted with
  | none => some (none, h)
  | some (hp, h) => (free (h.setSize hp nu) (hp + 1)).map fun h => (h.freep, h)

/-- The header of the block that is handed out, of `nunits` units, cut from the end of `p` or all
of it. -/
def take (h : Heap) (prevp p nunits : ℕ) : ℕ × Heap :=
  if h.size p = nunits then (p, { h.setPtr prevp (h.ptr p) with freep := some prevp })
  else
    let h := h.setSize p (h.size p - nunits)
    let q := p + h.size p
    (q, { h.setSize q nunits with freep := some prevp })

/-- The loop of `malloc`; `none` in the first component is the null pointer. -/
def mallocLoop (nunits : ℕ) (granted : Bool) : ℕ → Heap → ℕ → ℕ → Option (Option ℕ × Heap)
  | 0, _, _, _ => none
  | n + 1, h, prevp, p =>
    if h.size p ≥ nunits then
      let r := take h prevp p nunits
      some (some (r.1 + 1), r.2)
    else if some p = h.freep then
      (morecore h nunits granted).bind fun
        | (none, h) => some (none, h)
        | (some p, h) => mallocLoop nunits granted n h p (h.ptr p)
    else mallocLoop nunits granted n h p (h.ptr p)

/-- The units that a request takes, with its header. -/
def units (nbytes : ℕ) : ℕ := uint ((nbytes + 16 - 1) / 16 + 1)

/-- `base` is the address of the static header. -/
def malloc (base : ℕ) (h : Heap) (nbytes : ℕ) (granted : Bool) : Option (Option ℕ × Heap) :=
  let nunits := units nbytes
  match h.freep with
  | none =>
    let h := { (h.setPtr base base).setSize base 0 with freep := some base }
    mallocLoop nunits granted (fuel h) h base (h.ptr base)
  | some prevp => mallocLoop nunits granted (fuel h) h prevp (h.ptr prevp)

/-! ## Programs -/

/-- A process that uses the allocator. `live` and `obtained` are history that the allocator does
not read: the blocks that are handed out and not freed, and the memory that `morecore` got, each
with its first unit and its length. -/
structure Process where
  heap : Heap
  live : List (ℕ × ℕ)
  obtained : List (ℕ × ℕ)

inductive Action where
  | malloc (nbytes : ℕ) (granted : Bool)
  | free (ap : ℕ)
  /-- The program stores something in a unit. -/
  | store (u : ℕ) (x : Header)
  /-- The program gets memory for itself. -/
  | sbrk (n : ℕ)

/-- What `morecore` got in a call, if the end of memory has moved. -/
def grown (h h' : Heap) : List (ℕ × ℕ) :=
  if h.brk < h'.brk then [(h.brk, h'.brk - h.brk)] else []

def step (base : ℕ) (s : Process) : Action → Option Process
  | .malloc nbytes granted =>
    (malloc base s.heap nbytes granted).map fun r =>
      { heap := r.2
        live := (r.1.map fun ap => (ap - 1, units nbytes)).toList ++ s.live
        obtained := grown s.heap r.2 ++ s.obtained }
  | .free ap =>
    (free s.heap ap).map fun h =>
      { s with heap := h, live := s.live.eraseP fun b => b.1 = ap - 1 }
  | .store u x => some { s with heap := { s.heap with mem := update s.heap.mem u x } }
  | .sbrk n => some { s with heap := { s.heap with brk := s.heap.brk + n } }

/-- Before the first call: `freep` is null. -/
def init (mem : ℕ → Header) (brk : ℕ) : Process := ⟨⟨mem, none, brk⟩, [], []⟩

end CS352.Umalloc

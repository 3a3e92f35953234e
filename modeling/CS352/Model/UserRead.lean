import CS352.Model.UserCopy

/-! # Copying from user memory

`copyin` and `copyinstr` of `kernel/vm.c`. -/

namespace CS352.UserCopy

open Memory

/-- `dst` holds the bytes that the kernel's buffer has got so far. -/
def copyin (pagetable srcva len : ℕ) (ram : Ram) (dst : List UInt8) : Kernel (ℤ × List UInt8) :=
  if 0 < len then do
    let va0 := pgrounddown srcva
    let pa0 ← walkaddr pagetable va0
    if pa0 = 0 then return (-1, dst)
    else
      let n := if pgsize - (srcva - va0) > len then len else pgsize - (srcva - va0)
      copyin pagetable (uint64 (va0 + pgsize)) (len - n) ram
        (dst ++ (List.range n).map fun i => ram pa0 (srcva - va0 + i))
  else return (0, dst)
termination_by len
decreasing_by
  unfold pgrounddown pgsize
  split <;> omega

/-- The inner loop of `copyinstr` over `n` bytes of a page: the bytes before the first NUL byte, and
whether there is one. -/
def bytesIn (page : ℕ → UInt8) : ℕ → ℕ → List UInt8 × Bool
  | _, 0 => ([], false)
  | off, n + 1 =>
    if page off = 0 then ([], true)
    else
      let q := bytesIn page (off + 1) n
      (page off :: q.1, q.2)

/-- `dst` holds the bytes of the string so far, without the NUL byte. -/
def copyinstr (pagetable srcva max : ℕ) (ram : Ram) (dst : List UInt8) : Kernel (ℤ × List UInt8) :=
  if 0 < max then do
    let va0 := pgrounddown srcva
    let pa0 ← walkaddr pagetable va0
    if pa0 = 0 then return (-1, dst)
    else
      let n := if pgsize - (srcva - va0) > max then max else pgsize - (srcva - va0)
      let q := bytesIn (ram pa0) (srcva - va0) n
      if q.2 then return (0, dst ++ q.1)
      else copyinstr pagetable (uint64 (va0 + pgsize)) (max - n) ram (dst ++ q.1)
  else return (-1, dst)
termination_by max
decreasing_by
  unfold pgrounddown pgsize
  split <;> omega

end CS352.UserCopy

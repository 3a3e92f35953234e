import CS352.Model.Memory

/-! # Copying to user memory

`copyout` of `kernel/vm.c` with the bytes that it writes. Page tables are as in the model of
address spaces; the bytes of physical memory are kept beside them. -/

namespace CS352.UserCopy

open Memory

/-- The bytes of physical memory, by page and offset. -/
abbrev Ram := ℕ → ℕ → UInt8

/-- `memmove` to an address in a page, of bytes that all go to that page. -/
def memmove (ram : Ram) (page off : ℕ) (src : ℕ → UInt8) (n : ℕ) : Ram := fun q o =>
  if q = page ∧ off ≤ o ∧ o < off + n then src (o - off) else ram q o

/-- `src` gives the bytes of the kernel's buffer. -/
def copyout (pagetable dstva : ℕ) (src : ℕ → UInt8) (len : ℕ) (ram : Ram) : Kernel (ℤ × Ram) :=
  if 0 < len then do
    let va0 := pgrounddown dstva
    let pa0 ← walkaddr pagetable va0
    if pa0 = 0 then return (-1, ram)
    else
      let n := if pgsize - (dstva - va0) > len then len else pgsize - (dstva - va0)
      copyout pagetable (uint64 (va0 + pgsize)) (fun i => src (i + n)) (len - n)
        (memmove ram pa0 (dstva - va0) src n)
  else return (0, ram)
termination_by len
decreasing_by
  unfold pgrounddown pgsize
  split <;> omega

end CS352.UserCopy

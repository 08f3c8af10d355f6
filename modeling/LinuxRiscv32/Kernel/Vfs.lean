import LinuxRiscv32.Common.ByteLog
import LinuxRiscv32.Common.CInt

/-!
# The kernel around a character device

What Linux does for a driver: copies between kernel and user memory, `fixed_size_llseek`, and the
areas that `mmap` hands over. A copy may stop at a user page that cannot be accessed.
-/

namespace LinuxRiscv32.Kernel

open Common

abbrev Byte := UInt8

def PAGE_SIZE : ℤ := 4096

def EAGAIN : ℤ := 11

def ENOMEM : ℤ := 12

def EFAULT : ℤ := 14

def EINVAL : ℤ := 22

def ENOSPC : ℤ := 28

/-! ## User copies -/

/-- `copy_to_user` of `n` bytes from `src`: how many of them were not copied, and the others. At
most `fault` bytes at the end lie in pages that cannot be accessed. -/
def copyToUser (mem : ℤ → Byte) (src n : ℤ) (fault : ℕ) : ℤ × List Byte :=
  let uncopied := min fault n.toNat
  (uncopied, slice mem src (n.toNat - uncopied))

/-- `copy_from_user` of `n` bytes to `dst`: how many of them were not copied, and the memory after
it. The bytes that were not copied are filled with zeros. -/
def copyFromUser (mem : ℤ → Byte) (dst : ℤ) (buf : List Byte) (n : ℤ) (fault : ℕ) :
    ℤ × (ℤ → Byte) :=
  let uncopied := min fault n.toNat
  (uncopied, blit mem dst (buf.take (n.toNat - uncopied) ++ List.replicate uncopied 0))

/-- `simple_read_from_buffer`: what it copies of the buffer, from the offset on. It returns the
length and moves the offset by it. -/
def simpleReadFromBuffer (len offset : ℕ) (buf : List Byte) : List Byte :=
  (buf.drop offset).take len

/-! ## Seeking -/

inductive Whence where
  | set
  | cur
  | «end»
  | other
deriving DecidableEq, Repr

/-- A `fixed_size_llseek`: the value it returns and the position it leaves. It leaves the position
alone or sets it to one within the size. -/
structure FixedSizeLlseek where
  seek : (pos offset : ℤ) → Whence → (size : ℤ) → ℤ × ℤ
  keeps_or_sets : ∀ pos offset whence size, (seek pos offset whence size).2 = pos ∨
    0 ≤ (seek pos offset whence size).2 ∧ (seek pos offset whence size).2 ≤ size

/-- `vfs_setpos`. -/
def vfsSetpos (pos offset maxsize : ℤ) : ℤ × ℤ :=
  if offset < 0 ∨ maxsize < offset then (-EINVAL, pos) else (offset, offset)

/-- `fixed_size_llseek` as Linux has it. -/
def FixedSizeLlseek.linux : FixedSizeLlseek where
  seek pos offset whence size :=
    match whence with
    | .set => vfsSetpos pos offset size
    | .cur => if offset = 0 then (pos, pos) else vfsSetpos pos (s64 (pos + offset)) size
    | .end => vfsSetpos pos (s64 (offset + size)) size
    | .other => (-EINVAL, pos)
  keeps_or_sets pos offset whence size := by
    have hset : ∀ offset', (vfsSetpos pos offset' size).2 = pos ∨
        0 ≤ (vfsSetpos pos offset' size).2 ∧ (vfsSetpos pos offset' size).2 ≤ size := by
      intro offset'
      unfold vfsSetpos
      split
      · exact .inl rfl
      next h => exact .inr ⟨by omega, by omega⟩
    cases whence with
    | set | «end» => exact hset _
    | cur =>
      simp only
      split
      · exact .inl rfl
      · exact hset _
    | other => exact .inl rfl

/-! ## Mapped areas -/

/-- A `struct vm_area_struct`: whole pages of a 32-bit address space, mapped from page `pgoff`. The
flag `shared` is `VM_SHARED`; in an area without it a store makes a private copy of its page. -/
structure Vma where
  start : ℤ
  stop : ℤ
  pgoff : ℤ
  shared : Bool
  start_nonneg : 0 ≤ start
  stop_lt : stop < 2 ^ 32
  start_lt_stop : start < stop
  start_aligned : PAGE_SIZE ∣ start
  stop_aligned : PAGE_SIZE ∣ stop
deriving DecidableEq

/-- The length of an area. -/
def Vma.size (v : Vma) : ℤ := v.stop - v.start

theorem Vma.size_pos (v : Vma) : 0 < v.size := Int.sub_pos_of_lt v.start_lt_stop

/-- An area of at most one page is one page. -/
theorem Vma.size_eq_of_le (v : Vma) (h : v.size ≤ PAGE_SIZE) : v.size = PAGE_SIZE := by
  have hdvd : PAGE_SIZE ∣ v.size := Int.dvd_sub v.stop_aligned v.start_aligned
  have hle := Int.le_of_dvd v.size_pos hdvd
  omega

end LinuxRiscv32.Kernel

import LinuxRiscv32.Modules.Chardev

/-!
# `chardev`: writes from memory that cannot be read

Reference: `modules/chardev.c` (`dev_write`).

`copy_from_user` may stop in front of the end of the user's data. It fills the rest of its
destination with zeros, and the destination is the live page. `dev_write` takes the bytes that were
not copied off what it returns and off the position, but it does not restore them, and it compares
the position with `data_len` even if nothing was copied.
-/

namespace LinuxRiscv32.Chardev

open Common Kernel

/-- The write changes what it reports and nothing else: if it returns `k`, the bytes of the buffer
outside `[pos, pos + k)` are as before, `data_len` covers these bytes if there are any, and the
position has moved behind them. -/
structure ReportedOnly (d : Dev) (buf : List Byte) (pos : ℤ) (fault : ℕ) : Prop where
  mem : ∀ i, 0 ≤ i → i < BUFFER_SIZE →
    (i < pos ∨ pos + (devWrite d buf pos fault).ret ≤ i) →
      (devWrite d buf pos fault).dev.mem i = d.mem i
  dataLen_of_pos : 0 < (devWrite d buf pos fault).ret →
    (devWrite d buf pos fault).dev.dataLen = max d.dataLen (pos + (devWrite d buf pos fault).ret)
  dataLen_of_nonpos : (devWrite d buf pos fault).ret ≤ 0 →
    (devWrite d buf pos fault).dev.dataLen = d.dataLen
  pos : (devWrite d buf pos fault).pos = pos + max (devWrite d buf pos fault).ret 0

/-- The end of the write does no harm: where the copy stops the buffer was zero already, and a write
that copies nothing at all does not start behind the end of the data. -/
structure HarmlessFault (d : Dev) (count : ℕ) (pos : ℤ) (fault : ℕ) : Prop where
  zero : ∀ i, pos ≤ i → min (pos + count) PAGE_SIZE - fault ≤ i → i < min (pos + count) PAGE_SIZE →
    d.mem i = 0
  le_dataLen : 0 < count → min (count : ℤ) (PAGE_SIZE - pos) ≤ fault → pos ≤ d.dataLen

/-- Nothing can be copied of a byte for position 5 of an empty device, and the write returns 0. It
leaves a `data_len` of 5 and a zero in the page. -/
theorem unreadable_byte_breaks_reportedOnly :
    ¬ ∀ (d : Dev) (buf : List Byte) (pos : ℤ) (fault : ℕ), 0 ≤ pos → pos < PAGE_SIZE →
      ReportedOnly d buf pos fault := by
  intro h
  have hwrite := h { mem := fun _ => 7, dataLen := 0 } [1] 5 1 (by decide) (by decide)
  exact absurd (hwrite.dataLen_of_nonpos (by decide)) (by decide)

section Write

variable {d : Dev} {buf : List Byte} {pos : ℤ} {fault : ℕ}

/-- Where the copy stopped there are zeros. -/
theorem blit_uncopied {n : ℕ} (hn : n ≤ buf.length) (mem : ℤ → Byte) {i : ℤ}
    (h0 : pos + (n - fault : ℕ) ≤ i) (h : i < pos + n) :
    blit mem pos (buf.take (n - fault) ++ List.replicate (min fault n) 0) i = 0 := by
  have hlength := stored_length fault hn
  have htake : (buf.take (n - fault)).length = n - fault := by
    rw [List.length_take]
    omega
  obtain ⟨j, rfl⟩ : ∃ j : ℕ, i = pos + j := ⟨(i - pos).toNat, by omega⟩
  rw [blit_add mem (by omega), List.getElem_append_right (by omega), List.getElem_replicate]

/-- A write of `n` bytes keeps the rest of the page if and only if there were zeros where the copy
stopped. -/
theorem blit_keeps_iff (fault : ℕ) {n : ℕ} (hn : n ≤ buf.length) (h0 : 0 ≤ pos)
    (h : pos + n ≤ PAGE_SIZE) (mem : ℤ → Byte) :
    (∀ i, 0 ≤ i → i < BUFFER_SIZE → (i < pos ∨ pos + (n - fault : ℕ) ≤ i) →
      blit mem pos (buf.take (n - fault) ++ List.replicate (min fault n) 0) i = mem i) ↔
      ∀ i, pos + (n - fault : ℕ) ≤ i → i < pos + n → mem i = 0 := by
  have hsize : BUFFER_SIZE = PAGE_SIZE := rfl
  constructor
  · intro hkeeps i hi hin
    rw [← hkeeps i (by omega) (by omega) (.inr hi), blit_uncopied hn mem hi hin]
  · intro hzero i _ _ hi
    by_cases hin : pos ≤ i ∧ i < pos + n
    · rw [blit_uncopied hn mem (by omega) hin.2, hzero i (by omega) hin.2]
    · apply blit_of_not_mem
      rw [stored_length fault hn]
      omega

/-- A write that the driver refuses. -/
theorem reportedOnly_of_full (h : PAGE_SIZE ≤ pos ∨ 0 ≤ pos ∧ buf = []) :
    ReportedOnly d buf pos fault := by
  have hnospc : -ENOSPC ≤ 0 := by decide
  constructor <;> rw [devWrite_of_full fault h]
  · exact fun i _ _ _ => rfl
  · exact fun hpos => absurd hnospc (not_le.mpr hpos)
  · exact fun _ => rfl
  · rw [max_eq_right hnospc, add_zero]

/-- **What a faulting write leaves.** For every state of the device, every position inside the page
and every data, and wherever the copy stops: the write changes only what it reports if and only if
its fault is harmless. -/
theorem reportedOnly_iff (h0 : 0 ≤ pos) (h : pos < PAGE_SIZE) :
    ReportedOnly d buf pos fault ↔ HarmlessFault d buf.length pos fault := by
  by_cases hbuf : buf = []
  · -- nothing is written, and the range of the fault is empty
    subst hbuf
    refine iff_of_true (reportedOnly_of_full (.inr ⟨h0, rfl⟩))
      ⟨fun i hi _ hin => ?_, fun hpos => ?_⟩
    · rw [List.length_nil] at hin
      omega
    · exact absurd hpos (lt_irrefl 0)
  · have hpos := List.length_pos_iff.mpr hbuf
    obtain ⟨n, hn, hn0, hwrite⟩ := devWrite_of_lt (d := d) fault h0 h hbuf
    have hle : n ≤ buf.length := by omega
    have hkeeps := blit_keeps_iff fault hle h0 (by omega) d.mem
    constructor
    · rintro ⟨hmem, -, hdataLen, -⟩
      rw [hwrite] at hmem hdataLen
      dsimp only at hmem hdataLen
      refine ⟨fun i hi hstop hin => hkeeps.mp hmem i (by omega) (by omega), fun _ hnone => ?_⟩
      have := hdataLen (by omega)
      omega
    · rintro ⟨hzero, hle⟩
      constructor <;> rw [hwrite]
      · exact hkeeps.mpr fun i hi hin => hzero i (by omega) (by omega) (by omega)
      · exact fun _ => rfl
      · dsimp only
        intro hret
        have := hle hpos (by omega)
        omega
      · dsimp only
        omega

/-- The second byte of two cannot be read, and the page holds a zero in its place. -/
theorem reportedOnly_secondByte :
    ReportedOnly { mem := fun _ => 0, dataLen := 4 } [1, 2] 3 1 ↔
      HarmlessFault { mem := fun _ => 0, dataLen := 4 } 2 3 1 :=
  @reportedOnly_iff { mem := fun _ => 0, dataLen := 4 } [1, 2] 3 1 (by decide) (by decide)

end Write

end LinuxRiscv32.Chardev

import LinuxRiscv32.Kernel.Vfs

/-!
# `mychardev`: a buffer that starts over

Reference: `modules/mychardev.c`.

The driver has a buffer of 1024 bytes and no length. Every write stores to the front of the buffer
and sets the position to 0. A read returns the front of the buffer as long as the position is 0, and
the end of the file afterwards. So a reader gets one block, of the size it asks for first.
-/

namespace LinuxRiscv32.Mychardev

open Common Kernel

def BUFFER_SIZE : ℤ := 1024

/-- What `dev_read` returns, the position it leaves and what it copied to the user. -/
structure ReadResult where
  ret : ℤ
  pos : ℤ
  data : List Byte
deriving DecidableEq, Repr

/-- `dev_read(file, buf, count, pos)` on `kernel_buffer`. -/
def devRead (mem : ℤ → Byte) (count pos : ℤ) (fault : ℕ) : ReadResult :=
  if pos > 0 then { ret := 0, pos := pos, data := [] }
  else
    let bytesToRead := if BUFFER_SIZE > count then s32 count else BUFFER_SIZE
    let copy := copyToUser mem 0 (u32 bytesToRead) fault
    let bytesRead := s32 (u32 (bytesToRead - copy.1))
    { ret := bytesRead, pos := s64 (pos + bytesRead), data := copy.2 }

/-- What `dev_write` returns, and the position and the buffer it leaves. -/
structure WriteResult where
  ret : ℤ
  pos : ℤ
  mem : ℤ → Byte

/-- `dev_write(file, buf, count, pos)`, where `count` is the length of `buf`. It does not look at
the position. -/
def devWrite (mem : ℤ → Byte) (buf : List Byte) (_pos : ℤ) (fault : ℕ) : WriteResult :=
  let bytesToWrite := if BUFFER_SIZE > buf.length then s32 buf.length else BUFFER_SIZE
  let copy := copyFromUser mem 0 buf (u32 bytesToWrite) fault
  { ret := s32 (u32 (bytesToWrite - copy.1)), pos := 0, mem := copy.2 }

/-- The buffer after the writes of one handle that stands at `pos`. -/
def writeAll (mem : ℤ → Byte) (pos : ℤ) : List (List Byte) → ℤ → Byte
  | [] => mem
  | buf :: bufs => writeAll (devWrite mem buf pos 0).mem (devWrite mem buf pos 0).pos bufs

/-- What a handle that stands at `pos` reads until a read returns 0; `none` if none of them does. -/
def readUntilZero (mem : ℤ → Byte) (pos : ℤ) : List ℕ → Option (List Byte)
  | [] => none
  | count :: counts =>
    let r := devRead mem count pos 0
    if r.ret = 0 then some [] else (readUntilZero mem r.pos counts).map (r.data ++ ·)

/-- The data are in the buffer, but the reader asks for more and gets what is behind them. -/
theorem longer_read_breaks_stored :
    ¬ ∀ (mem : ℤ → Byte) (pos : ℤ) (bufs : List (List Byte)) (counts : List ℕ) (got : List Byte),
      (∀ buf ∈ bufs, buf ≠ []) → 1 ≤ bufs.flatten.length → bufs.flatten.length ≤ 1024 →
        (∀ c ∈ counts, 0 < c) → readUntilZero (writeAll mem pos bufs) 0 counts = some got →
          got = bufs.flatten := by
  intro h
  have hgot := h (fun _ => 0) 0 [[97, 98]] [3, 1] [97, 98, 0] (by decide) (by decide) (by decide)
    (by decide) (by decide)
  exact absurd hgot (by decide)

/-! ## One call -/

variable {mem : ℤ → Byte} {pos : ℤ}

/-- A read behind the first one returns 0. -/
theorem devRead_of_pos (count : ℤ) (fault : ℕ) (h : 0 < pos) :
    devRead mem count pos fault = { ret := 0, pos := pos, data := [] } :=
  if_pos h

/-- A read at the start of the file. -/
theorem devRead_start (mem : ℤ → Byte) (count : ℕ) :
    devRead mem count 0 0 =
      { ret := (min count 1024 : ℕ), pos := (min count 1024 : ℕ)
        data := slice mem 0 (min count 1024) } := by
  have hsize : BUFFER_SIZE = 1024 := rfl
  have hbytes : (if BUFFER_SIZE > count then s32 count else BUFFER_SIZE) =
      ((min count 1024 : ℕ) : ℤ) := by
    split
    · rw [s32_of_range] <;> omega
    · omega
  have hu : u32 (min count 1024 : ℕ) = (min count 1024 : ℕ) := u32_of_range (by omega) (by omega)
  have hs : s32 (min count 1024 : ℕ) = (min count 1024 : ℕ) := s32_of_range (by omega) (by omega)
  have hs64 : s64 (min count 1024 : ℕ) = (min count 1024 : ℕ) := s64_of_range (by omega) (by omega)
  rw [devRead, if_neg (lt_irrefl _)]
  simp only [hbytes, hu, copyToUser, Int.toNat_natCast, Nat.zero_min, Nat.cast_zero, Int.sub_zero,
    Nat.sub_zero, hs, zero_add, hs64]

/-- A write that fits into the buffer. -/
theorem devWrite_of_le {buf : List Byte} (mem : ℤ → Byte) (pos : ℤ) (h : buf.length ≤ 1024) :
    devWrite mem buf pos 0 = { ret := buf.length, pos := 0, mem := blit mem 0 buf } := by
  have hsize : BUFFER_SIZE = 1024 := rfl
  have hbytes : (if BUFFER_SIZE > buf.length then s32 buf.length else BUFFER_SIZE) =
      (buf.length : ℤ) := by
    split
    · rw [s32_of_range] <;> omega
    · omega
  have hu : u32 buf.length = buf.length := u32_of_range (by omega) (by omega)
  have hs : s32 buf.length = buf.length := s32_of_range (by omega) (by omega)
  simp only [devWrite, hbytes]
  simp only [hu, copyFromUser, Int.toNat_natCast, Nat.zero_min, Nat.cast_zero, Int.sub_zero,
    Nat.sub_zero, hs, List.take_length, List.replicate_zero, List.append_nil]

/-! ## Writers and readers -/

/-- Each write starts at the front of the buffer. -/
theorem writeAll_eq_foldl (mem : ℤ → Byte) (pos : ℤ) {bufs : List (List Byte)}
    (h : ∀ buf ∈ bufs, buf.length ≤ 1024) :
    writeAll mem pos bufs = (bufs.map ((0 : ℤ), ·)).foldl (fun m x => blit m x.1 x.2) mem := by
  induction bufs generalizing mem pos with
  | nil => rfl
  | cons buf bufs ih =>
    rw [List.forall_mem_cons] at h
    rw [writeAll, devWrite_of_le mem pos h.1, ih _ _ h.2, List.map_cons, List.foldl_cons]

/-- A fresh handle gets the front of the buffer with its first read and nothing with the second. -/
theorem readUntilZero_start (mem : ℤ → Byte) {count : ℕ} (h : 0 < count) (next : ℕ)
    (counts : List ℕ) :
    readUntilZero mem 0 (count :: next :: counts) = some (slice mem 0 (min count 1024)) := by
  have hpos : (0 : ℤ) < (min count 1024 : ℕ) := by omega
  rw [readUntilZero, devRead_start]
  simp only [hpos.ne', if_false]
  rw [readUntilZero, devRead_of_pos _ _ hpos]
  simp

theorem slice_eq_iff {n : ℕ} {bs : List Byte} :
    slice mem 0 n = bs ↔ n = bs.length ∧ ∀ i : ℕ, ∀ hi : i < bs.length, mem i = bs[i] := by
  constructor
  · rintro rfl
    refine ⟨(slice_length mem n).symm, fun i hi => ?_⟩
    rw [slice_getElem, zero_add]
  · rintro ⟨rfl, hmem⟩
    refine List.ext_getElem (slice_length mem _) fun i hi hi' => ?_
    rw [slice_getElem, zero_add, hmem i hi']

/-- **One block for every reader.** After the writes of one handle, a byte of the buffer is what was
stored there last, by a write that starts at the front. A fresh handle that reads until it gets 0
receives the front of the buffer, as long as its first count. So it receives the data written if and
only if its first count asks for their length and the buffer starts with them; and if they were
written at once, if and only if it asks for their length. -/
theorem received_of_writes (mem : ℤ → Byte) (pos : ℤ) {bufs : List (List Byte)}
    (hlength : bufs.flatten.length ≤ 1024) {count : ℕ} (hcount : 0 < count) (next : ℕ)
    (counts : List ℕ) :
    let mem' := writeAll mem pos bufs
    (∀ i, mem' i = (lastStored (bufs.map ((0 : ℤ), ·)) i).getD (mem i)) ∧
    ∃ got, readUntilZero mem' 0 (count :: next :: counts) = some got ∧
      got = slice mem' 0 (min count 1024) ∧
      (got = bufs.flatten ↔ min count 1024 = bufs.flatten.length ∧
        ∀ i : ℕ, ∀ hi : i < bufs.flatten.length, mem' i = bufs.flatten[i]) ∧
      ∀ buf, bufs = [buf] → (got = buf ↔ min count 1024 = buf.length) := by
  intro mem'
  have hbufs : ∀ buf ∈ bufs, buf.length ≤ 1024 := fun buf hbuf =>
    (List.Sublist.length_le (List.sublist_flatten_of_mem hbuf)).trans hlength
  have hmem : ∀ i, mem' i = (lastStored (bufs.map ((0 : ℤ), ·)) i).getD (mem i) := fun i => by
    rw [← foldl_blit, ← writeAll_eq_foldl mem pos hbufs]
  refine ⟨hmem, _, readUntilZero_start mem' hcount next counts, rfl, slice_eq_iff, ?_⟩
  rintro buf rfl
  rw [slice_eq_iff, and_iff_left]
  -- a single write puts every byte where it belongs
  intro i hi
  rw [hmem, List.map_singleton, ← List.nil_append [_], lastStored_concat, ← zero_add (i : ℤ),
    stores_add, List.getElem?_eq_getElem hi]
  rfl

/-- Two bytes are written at once to a buffer that was used before, and read with the right count.
-/
theorem received_twoBytes :
    let mem' := writeAll (fun _ => 7) 0 [[97, 98]]
    (∀ i, mem' i = (lastStored ([[97, 98]].map ((0 : ℤ), ·)) i).getD 7) ∧
    ∃ got, readUntilZero mem' 0 [2, 5] = some got ∧ got = slice mem' 0 (min 2 1024) ∧
      (got = [[97, 98]].flatten ↔ min 2 1024 = [[97, 98]].flatten.length ∧
        ∀ i : ℕ, ∀ hi : i < ([[97, 98]] : List (List Byte)).flatten.length,
          mem' i = [[97, 98]].flatten[i]) ∧
      ∀ buf, [[97, 98]] = [buf] → (got = buf ↔ min 2 1024 = buf.length) :=
  @received_of_writes (fun _ => 7) 0 [[97, 98]] (by decide) 2 (by decide) 5 []

end LinuxRiscv32.Mychardev

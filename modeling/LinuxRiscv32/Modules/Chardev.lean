import LinuxRiscv32.Common.Machine
import LinuxRiscv32.Kernel.Vfs
import Mathlib.Logic.Function.Basic

/-!
# `chardev`: a page behind a character device

Reference: `modules/chardev.c`.

The driver keeps one page, `kernel_buffer`, and the length `data_len` of what was written to it. On
RV32 a `size_t` has 32 bits and a `loff_t` is a signed 64-bit type; `bytes_to_read` and its like are
`int`. Each operation runs under `dev_mutex`, so it is one label of the machine.
-/

namespace LinuxRiscv32.Chardev

open Common Kernel

/-- `BUFFER_SIZE`. -/
def BUFFER_SIZE : ℤ := PAGE_SIZE

/-- The memory around `kernel_buffer`, by the distance from its first byte, and `data_len`. -/
structure Dev where
  mem : ℤ → Byte
  dataLen : ℤ

/-- What `dev_read` returns, the position it leaves, what it copied to the user, and the start and
the length of the range it handed to `copy_to_user`. -/
structure ReadResult where
  ret : ℤ
  pos : ℤ
  data : List Byte
  range : Option (ℤ × ℤ)
deriving DecidableEq, Repr

/-- `dev_read(file, buf, count, pos)`. -/
def devRead (d : Dev) (count pos : ℤ) (fault : ℕ) : ReadResult :=
  if pos ≥ d.dataLen then { ret := 0, pos := pos, data := [], range := none }
  else
    let availableData := s32 (s64 (d.dataLen - pos))
    let bytesToRead := s32 (min count (u32 availableData))
    let copy := copyToUser d.mem (u32 pos) (u32 bytesToRead) fault
    -- `copy_to_user` returns an `unsigned long`, so the difference is unsigned at first
    let bytesRead := s32 (u32 (bytesToRead - copy.1))
    { ret := bytesRead, pos := s64 (pos + bytesRead), data := copy.2
      range := some (u32 pos, u32 bytesToRead) }

/-- What `dev_write` returns, the position and the device it leaves, and the range it handed to
`copy_from_user`. -/
structure WriteResult where
  ret : ℤ
  pos : ℤ
  dev : Dev
  range : Option (ℤ × ℤ)

/-- `dev_write(file, buf, count, pos)`, where `count` is the length of `buf`. -/
def devWrite (d : Dev) (buf : List Byte) (pos : ℤ) (fault : ℕ) : WriteResult :=
  if pos ≥ BUFFER_SIZE then { ret := -ENOSPC, pos := pos, dev := d, range := none }
  else
    -- `min_t(size_t, ..)` converts both sides before it compares them
    let bytesToWrite := s32 (min buf.length (u32 (s64 (BUFFER_SIZE - pos))))
    if bytesToWrite = 0 then { ret := -ENOSPC, pos := pos, dev := d, range := none }
    else
      let copy := copyFromUser d.mem (u32 pos) buf (u32 bytesToWrite) fault
      let bytesWritten := s32 (u32 (bytesToWrite - copy.1))
      let pos' := s64 (pos + bytesWritten)
      { ret := bytesWritten, pos := pos'
        dev :=
          { mem := copy.2
            dataLen := if pos' > d.dataLen then min (u32 pos') BUFFER_SIZE else d.dataLen }
        range := some (u32 pos, u32 bytesToWrite) }

/-- `remap_mm(filp, vma)`; with `ok = false`, `remap_pfn_range` fails. Neither of the two asks for a
shared area: a private one only has to be mapped as a whole. -/
def remapMm (v : Vma) (ok : Bool) : ℤ :=
  if u32 (v.stop - v.start) > PAGE_SIZE then -EINVAL
  else if v.pgoff ≠ 0 then -EINVAL
  else if ok then 0
  else -EAGAIN

/-- The device after `mychar_init`: the page is zero, what lies around it is unknown. -/
def mycharInit (junk : ℤ → Byte) : Dev :=
  { mem := fun i => if 0 ≤ i ∧ i < PAGE_SIZE then 0 else junk i, dataLen := 0 }

/-- An accepted mapping: the area, and the copy of the page that a private one gets by its first
store. -/
structure Mapping where
  vma : Vma
  copy : Option (ℤ → Byte)

namespace Mapping

variable (m : Mapping) (d : Dev)

/-- The page that the mapping shows. -/
def page : ℤ → Byte := if m.vma.shared then d.mem else m.copy.getD d.mem

/-- A store of `bs` at offset `o`, as far as the mapping itself is concerned. -/
def store (o : ℕ) (bs : List Byte) : Mapping :=
  if m.vma.shared ∨ bs = [] then m else { m with copy := some (blit (m.page d) o bs) }

theorem page_of_shared (h : m.vma.shared = true) : m.page d = d.mem := if_pos h

theorem page_of_private (h : m.vma.shared = false) : m.page d = m.copy.getD d.mem :=
  if_neg (Bool.eq_false_iff.mp h)

/-- A shared mapping gets no copy. -/
theorem store_of_shared (o : ℕ) (bs : List Byte) (h : m.vma.shared = true) : m.store d o bs = m :=
  if_pos (.inl h)

theorem store_nil (o : ℕ) : m.store d o [] = m := if_pos (.inr rfl)

/-- A private mapping gets a copy, or stores into the one it has. -/
theorem store_of_private {o : ℕ} {bs : List Byte} (h : m.vma.shared = false) (hbs : bs ≠ []) :
    m.store d o bs = { m with copy := some (blit (m.page d) o bs) } := by
  refine if_neg ?_
  rintro (hshared | hnil)
  · exact Bool.eq_false_iff.mp h hshared
  · exact hbs hnil

/-- A store does not move the mapping to another area. -/
@[simp] theorem store_vma (o : ℕ) (bs : List Byte) : (m.store d o bs).vma = m.vma := by
  unfold store
  split <;> rfl

end Mapping

/-- The device, the position `f_pos` of every open file, and the accepted mappings in their
order. -/
structure State (F : Type*) where
  dev : Dev
  pos : F → Option ℤ
  maps : List Mapping

inductive Event (F : Type*) where
  | «open» (f : F)
  | release (f : F)
  | read (f : F) (count : ℕ) (fault : ℕ)
  | write (f : F) (buf : List Byte) (fault : ℕ)
  | llseek (f : F) (offset : ℤ) (whence : Whence)
  | pread (f : F) (count : ℕ) (pos : ℤ) (fault : ℕ)
  | pwrite (f : F) (buf : List Byte) (pos : ℤ) (fault : ℕ)
  | mmap (v : Vma) (ok : Bool)
  /-- A store of `bs` through the mapping `i`, at offset `o`. -/
  | store (i o : ℕ) (bs : List Byte)

/-- What the VFS lets through to the driver: a `size_t` and a `loff_t` that is not negative. -/
def Admits (count : ℕ) (pos : ℤ) : Prop := count < 2 ^ 32 ∧ 0 ≤ pos ∧ pos < 2 ^ 63

instance (count : ℕ) (pos : ℤ) : Decidable (Admits count pos) :=
  inferInstanceAs (Decidable (_ ∧ _ ∧ _))

/-- `read` and `write` store the position in the file unless the driver has failed. -/
def nextPos (pos ret pos' : ℤ) : ℤ := if ret ≥ 0 then pos' else pos

theorem nextPos_of_nonneg {ret : ℤ} (pos pos' : ℤ) (h : 0 ≤ ret) : nextPos pos ret pos' = pos' :=
  if_pos h

theorem nextPos_of_neg {ret : ℤ} (pos pos' : ℤ) (h : ret < 0) : nextPos pos ret pos' = pos :=
  if_neg (Int.not_le.mpr h)

/-- The byte that the mapping shows at offset `o`: `remap_pfn_range` puts the first byte of the page
at the start of the area. -/
def mapLoad (m : Mapping) (d : Dev) (o : ℤ) : Byte := m.page d o

section Program

variable {F : Type*} [DecidableEq F]

/-- One operation. -/
def step (L : FixedSizeLlseek) (s : State F) : Event F → Option (State F)
  | .open f =>
    if s.pos f = none then some { s with pos := Function.update s.pos f (some 0) } else none
  | .release f =>
    if s.pos f = none then none else some { s with pos := Function.update s.pos f none }
  | .read f count fault => (s.pos f).bind fun p =>
    if Admits count p then
      let r := devRead s.dev count p fault
      some { s with pos := Function.update s.pos f (some (nextPos p r.ret r.pos)) }
    else none
  | .write f buf fault => (s.pos f).bind fun p =>
    if Admits buf.length p then
      let r := devWrite s.dev buf p fault
      some { s with dev := r.dev, pos := Function.update s.pos f (some (nextPos p r.ret r.pos)) }
    else none
  | .llseek f offset whence => (s.pos f).bind fun p =>
    some { s with pos := Function.update s.pos f (some (L.seek p offset whence s.dev.dataLen).2) }
  | .pread f count pos _ => (s.pos f).bind fun _ => if Admits count pos then some s else none
  | .pwrite f buf pos fault => (s.pos f).bind fun _ =>
    if Admits buf.length pos then some { s with dev := (devWrite s.dev buf pos fault).dev }
    else none
  | .mmap v ok => some (if remapMm v ok = 0 then { s with maps := s.maps ++ [⟨v, none⟩] } else s)
  | .store i o bs => s.maps[i]?.bind fun m =>
    if o + bs.length ≤ m.vma.size then
      some { s with
        dev := if m.vma.shared then { s.dev with mem := blit s.dev.mem o bs } else s.dev
        maps := s.maps.set i (m.store s.dev o bs) }
    else none

/-- The device and its users. -/
def machine (F : Type*) [DecidableEq F] (L : FixedSizeLlseek) : Machine (State F) (Event F) :=
  ⟨step L⟩

/-- After `mychar_init`: no file is open, nothing is mapped. -/
def init (junk : ℤ → Byte) : State F :=
  { dev := mycharInit junk, pos := fun _ => none, maps := [] }

end Program

/-! ## Calls of the driver -/

section Calls

variable {F : Type*}

/-- The arguments `count`, `pos` and `fault` of the `dev_read` that an event leads to. -/
def readCall (s : State F) : Event F → Option (ℕ × ℤ × ℕ)
  | .read f count fault => (s.pos f).map fun p => (count, p, fault)
  | .pread _ count pos fault => some (count, pos, fault)
  | _ => none

/-- The arguments `buf`, `pos` and `fault` of the `dev_write` that an event leads to. -/
def writeCall (s : State F) : Event F → Option (List Byte × ℤ × ℕ)
  | .write f buf fault => (s.pos f).map fun p => (buf, p, fault)
  | .pwrite _ buf pos fault => some (buf, pos, fault)
  | _ => none

/-- The range of `kernel_buffer` that an event reads: start and length. -/
def readRange (s : State F) (e : Event F) : Option (ℤ × ℤ) :=
  (readCall s e).bind fun c =>
    if Admits c.1 c.2.1 then (devRead s.dev c.1 c.2.1 c.2.2).range else none

/-- The range of `kernel_buffer` that an event has the driver write. -/
def writeRange (s : State F) (e : Event F) : Option (ℤ × ℤ) :=
  (writeCall s e).bind fun c =>
    if Admits c.1.length c.2.1 then (devWrite s.dev c.1 c.2.1 c.2.2).range else none

/-- What a step does to the device and to the list of mappings. -/
inductive Effect (s t : State F) (e : Event F) : Prop where
  | keep (hdev : t.dev = s.dev) (hmaps : t.maps = s.maps) (hcall : writeCall s e = none)
  | map (v : Vma) (ok : Bool) (hv : remapMm v ok = 0) (hdev : t.dev = s.dev)
      (hmaps : t.maps = s.maps ++ [⟨v, none⟩]) (hcall : writeCall s e = none)
  | write (buf : List Byte) (pos : ℤ) (fault : ℕ) (hcall : writeCall s e = some (buf, pos, fault))
      (hadmits : Admits buf.length pos) (hdev : t.dev = (devWrite s.dev buf pos fault).dev)
      (hmaps : t.maps = s.maps)
  | store (i o : ℕ) (bs : List Byte) (m : Mapping) (he : e = .store i o bs)
      (hm : s.maps[i]? = some m) (hshared : m.vma.shared = true) (ho : o + bs.length ≤ m.vma.size)
      (hdev : t.dev = { s.dev with mem := blit s.dev.mem o bs }) (hmaps : t.maps = s.maps)
  /-- A store through a private mapping. -/
  | copy (i o : ℕ) (bs : List Byte) (m : Mapping) (he : e = .store i o bs)
      (hm : s.maps[i]? = some m) (hshared : m.vma.shared = false) (ho : o + bs.length ≤ m.vma.size)
      (hdev : t.dev = s.dev) (hmaps : t.maps = s.maps.set i (m.store s.dev o bs))

/-- To set an element to itself changes nothing. -/
theorem set_of_getElem? {α : Type*} {l : List α} {i : ℕ} {a : α} (h : l[i]? = some a) :
    l.set i a = l := by
  obtain ⟨hi, rfl⟩ := List.getElem?_eq_some_iff.mp h
  exact List.set_getElem_self hi

/-- Every step has one of these effects. -/
theorem step_effect [DecidableEq F] {L : FixedSizeLlseek} {s t : State F} {e : Event F}
    (h : step L s e = some t) : Effect s t e := by
  cases e with
  | «open» f =>
    obtain ⟨-, rfl⟩ := Machine.guard_eq_some.mp h
    exact .keep rfl rfl rfl
  | release f =>
    obtain ⟨-, rfl⟩ := Machine.refusal_eq_some.mp h
    exact .keep rfl rfl rfl
  | read f count fault =>
    obtain ⟨p, -, hp⟩ := Option.bind_eq_some_iff.mp h
    obtain ⟨-, rfl⟩ := Machine.guard_eq_some.mp hp
    exact .keep rfl rfl rfl
  | write f buf fault =>
    obtain ⟨p, hf, hp⟩ := Option.bind_eq_some_iff.mp h
    obtain ⟨hadmits, rfl⟩ := Machine.guard_eq_some.mp hp
    exact .write buf p fault (by rw [writeCall, hf, Option.map_some]) hadmits rfl rfl
  | llseek f offset whence =>
    obtain ⟨p, -, ht⟩ := Option.bind_eq_some_iff.mp h
    obtain rfl := Option.some.inj ht
    exact .keep rfl rfl rfl
  | pread f count pos fault =>
    obtain ⟨p, -, hp⟩ := Option.bind_eq_some_iff.mp h
    obtain ⟨-, rfl⟩ := Machine.guard_eq_some.mp hp
    exact .keep rfl rfl rfl
  | pwrite f buf pos fault =>
    obtain ⟨p, -, hp⟩ := Option.bind_eq_some_iff.mp h
    obtain ⟨hadmits, rfl⟩ := Machine.guard_eq_some.mp hp
    exact .write buf pos fault rfl hadmits rfl rfl
  | mmap v ok =>
    obtain rfl := Option.some.inj h
    by_cases hv : remapMm v ok = 0
    · rw [if_pos hv]
      exact .map v ok hv rfl rfl rfl
    · rw [if_neg hv]
      exact .keep rfl rfl rfl
  | store i o bs =>
    obtain ⟨m, hm, hp⟩ := Option.bind_eq_some_iff.mp h
    obtain ⟨ho, rfl⟩ := Machine.guard_eq_some.mp hp
    rcases Bool.eq_false_or_eq_true m.vma.shared with hshared | hshared
    · refine .store i o bs m rfl hm hshared ho (if_pos hshared) ?_
      rw [m.store_of_shared _ o bs hshared, set_of_getElem? hm]
    · exact .copy i o bs m rfl hm hshared ho (if_neg (Bool.eq_false_iff.mp hshared)) rfl

end Calls

/-! ## What the operations do

As long as `data_len` is at most a page, no conversion changes a value.
-/

/-- What the range of `data_len` makes of the arithmetic. -/
structure Dev.Ok (d : Dev) : Prop where
  nonneg : 0 ≤ d.dataLen
  le : d.dataLen ≤ PAGE_SIZE

/-- No conversion around a copy of `n` bytes at `pos` changes a value; the last `fault` bytes are
not copied. -/
structure CopyExact (pos : ℤ) (n fault : ℕ) : Prop where
  count : s32 n = n
  size : u32 n = n
  start : u32 pos = pos
  copied : n - min fault n = n - fault
  ret : s32 (u32 ((n : ℤ) - (min fault n : ℕ))) = (n - fault : ℕ)
  next : s64 (pos + (n - fault : ℕ)) = pos + (n - fault : ℕ)
  stop : u32 (pos + (n - fault : ℕ)) = pos + (n - fault : ℕ)

/-- A copy inside the page is one whose conversions change nothing. -/
theorem copyExact {pos : ℤ} {n : ℕ} (fault : ℕ) (h0 : 0 ≤ pos) (h : pos + n ≤ PAGE_SIZE) :
    CopyExact pos n fault := by
  have hpage : PAGE_SIZE = 4096 := rfl
  have hcopied : n - min fault n = n - fault := by omega
  have hsub : (n : ℤ) - (min fault n : ℕ) = (n - fault : ℕ) := by
    rw [← hcopied, Nat.cast_sub (Nat.min_le_right fault n)]
  constructor
  · exact s32_of_range (by omega) (by omega)
  · exact u32_of_range (by omega) (by omega)
  · exact u32_of_range h0 (by omega)
  · exact hcopied
  · rw [hsub, u32_of_range, s32_of_range] <;> omega
  · exact s64_of_range (by omega) (by omega)
  · exact u32_of_range (by omega) (by omega)

/-- A read at the end or behind it. -/
theorem devRead_of_ge {d : Dev} {count pos : ℤ} (fault : ℕ) (h : d.dataLen ≤ pos) :
    devRead d count pos fault = { ret := 0, pos := pos, data := [], range := none } :=
  if_pos h

/-- A read in front of the end: `n` bytes are handed to `copy_to_user`, which copies all of them but
the last `fault` ones. -/
theorem devRead_of_lt {d : Dev} {pos : ℤ} (count fault : ℕ) (hd : d.Ok) (h0 : 0 ≤ pos)
    (h : pos < d.dataLen) :
    ∃ n : ℕ, (n : ℤ) = min (count : ℤ) (d.dataLen - pos) ∧
      devRead d count pos fault =
        { ret := (n - fault : ℕ), pos := pos + (n - fault : ℕ), data := slice d.mem pos (n - fault)
          range := some (pos, n) } := by
  obtain ⟨hd0, hd1⟩ := hd
  have hpage : PAGE_SIZE = 4096 := rfl
  obtain ⟨n, hn⟩ := Int.eq_ofNat_of_zero_le (show 0 ≤ min (count : ℤ) (d.dataLen - pos) by omega)
  refine ⟨n, hn.symm, ?_⟩
  have havail : s32 (s64 (d.dataLen - pos)) = d.dataLen - pos := by
    rw [s64_of_range, s32_of_range] <;> omega
  have hu : u32 (d.dataLen - pos) = d.dataLen - pos := u32_of_range (by omega) (by omega)
  have hcopy : CopyExact pos n fault := copyExact fault h0 (by omega)
  rw [devRead, if_neg (not_le.mpr h)]
  simp only [havail, hu, hn, copyToUser, Int.toNat_natCast, hcopy.count, hcopy.size, hcopy.start,
    hcopy.copied, hcopy.ret, hcopy.next]

/-- A write at the end of the page or of no bytes fails and changes nothing. -/
theorem devWrite_of_full {d : Dev} {buf : List Byte} {pos : ℤ} (fault : ℕ)
    (h : PAGE_SIZE ≤ pos ∨ 0 ≤ pos ∧ buf = []) :
    devWrite d buf pos fault = { ret := -ENOSPC, pos := pos, dev := d, range := none } := by
  unfold devWrite
  split
  · rfl
  next hlt =>
    rcases h with h | ⟨h0, rfl⟩
    · exact absurd h hlt
    · have hsize : BUFFER_SIZE = 4096 := rfl
      have hu : u32 (s64 (BUFFER_SIZE - pos)) = BUFFER_SIZE - pos := by
        rw [s64_of_range, u32_of_range] <;> omega
      have hmin : min ((0 : ℕ) : ℤ) (BUFFER_SIZE - pos) = 0 := by omega
      refine if_pos ?_
      rw [hu, List.length_nil, hmin]
      rfl

/-- The bytes that were copied and the zeros behind them. -/
theorem stored_length {buf : List Byte} {n : ℕ} (fault : ℕ) (hn : n ≤ buf.length) :
    (buf.take (n - fault) ++ List.replicate (min fault n) (0 : Byte)).length = n := by
  rw [List.length_append, List.length_take, List.length_replicate]
  omega

/-- A write of `n > 0` bytes inside the page, of which `copy_from_user` copies all but the last
`fault` ones. -/
theorem devWrite_of_lt {d : Dev} {buf : List Byte} {pos : ℤ} (fault : ℕ) (h0 : 0 ≤ pos)
    (h : pos < PAGE_SIZE) (hbuf : buf ≠ []) :
    ∃ n : ℕ, (n : ℤ) = min (buf.length : ℤ) (PAGE_SIZE - pos) ∧ 0 < n ∧
      devWrite d buf pos fault =
        { ret := (n - fault : ℕ), pos := pos + (n - fault : ℕ)
          dev :=
            { mem := blit d.mem pos (buf.take (n - fault) ++ List.replicate (min fault n) 0)
              dataLen := max d.dataLen (pos + (n - fault : ℕ)) }
          range := some (pos, n) } := by
  have hpage : PAGE_SIZE = 4096 := rfl
  have hsize : BUFFER_SIZE = 4096 := rfl
  have hlen := List.length_pos_iff.mpr hbuf
  obtain ⟨n, hn⟩ := Int.eq_ofNat_of_zero_le
    (show 0 ≤ min (buf.length : ℤ) (BUFFER_SIZE - pos) by omega)
  refine ⟨n, hn.symm, by omega, ?_⟩
  have hu : u32 (s64 (BUFFER_SIZE - pos)) = BUFFER_SIZE - pos := by
    rw [s64_of_range, u32_of_range] <;> omega
  have hcopy : CopyExact pos n fault := copyExact fault h0 (by omega)
  have hdataLen : (if pos + (n - fault : ℕ) > d.dataLen then
      min (pos + (n - fault : ℕ)) BUFFER_SIZE else d.dataLen) =
      max d.dataLen (pos + (n - fault : ℕ)) := by
    split <;> omega
  have hne : (n : ℤ) ≠ 0 := by omega
  rw [devWrite, if_neg (show ¬ pos ≥ BUFFER_SIZE by omega)]
  simp only [hu, hn, hne, if_false, copyFromUser, Int.toNat_natCast, hcopy.count, hcopy.size,
    hcopy.start, hcopy.copied, hcopy.ret, hcopy.next, hcopy.stop, hdataLen]

end LinuxRiscv32.Chardev

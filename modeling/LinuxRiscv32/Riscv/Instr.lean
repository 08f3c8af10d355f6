import Mathlib.Data.BitVec
import Mathlib.Tactic.Common

/-!
# Instructions of RV32 and their encoding

A fragment of the RISC-V instruction set: what programs use that build constants, move a stack
pointer, read the time, loop and return. An instruction word has six fields at fixed places, and the
formats differ in which of them hold an immediate. `decode_encode` is the round trip.
-/

namespace Riscv

abbrev Byte := BitVec 8

abbrev Word := BitVec 32

abbrev Reg := BitVec 5

/-- The names of the calling convention. -/
def zero : Reg := 0

def ra : Reg := 1

def t0 : Reg := 5

def a0 : Reg := 10

/-- `rdtime` and `rdtimeh` read a half of the counter `time`. The offset of a branch is counted in
halfwords. -/
inductive Instr where
  | lui (rd : Reg) (imm : BitVec 20)
  | addi (rd rs1 : Reg) (imm : BitVec 12)
  | add (rd rs1 rs2 : Reg)
  | lw (rd rs1 : Reg) (imm : BitVec 12)
  | sw (rs1 rs2 : Reg) (imm : BitVec 12)
  | jalr (rd rs1 : Reg) (imm : BitVec 12)
  | bne (rs1 rs2 : Reg) (offset : BitVec 12)
  | rdtime (rd : Reg)
  | rdtimeh (rd : Reg)
deriving DecidableEq, Repr

/-- The fields of an instruction word, from the top. -/
structure Fields where
  funct7 : BitVec 7
  rs2 : BitVec 5
  rs1 : BitVec 5
  funct3 : BitVec 3
  rd : BitVec 5
  opcode : BitVec 7
deriving DecidableEq, Repr

def Fields.word (f : Fields) : Word :=
  f.funct7 ++ f.rs2 ++ f.rs1 ++ f.funct3 ++ f.rd ++ f.opcode

def fields (w : Word) : Fields where
  funct7 := w.extractLsb' 25 7
  rs2 := w.extractLsb' 20 5
  rs1 := w.extractLsb' 15 5
  funct3 := w.extractLsb' 12 3
  rd := w.extractLsb' 7 5
  opcode := w.extractLsb' 0 7

/-- The numbers of the counters `time` and `timeh`, cut at the fields. -/
def csrTime : BitVec 12 := 0xc01

def csrTimeh : BitVec 12 := 0xc81

def Instr.fields : Instr → Fields
  | .lui rd imm =>
    { funct7 := imm.extractLsb' 13 7, rs2 := imm.extractLsb' 8 5, rs1 := imm.extractLsb' 3 5
      funct3 := imm.extractLsb' 0 3, rd := rd, opcode := 0x37 }
  | .addi rd rs1 imm =>
    { funct7 := imm.extractLsb' 5 7, rs2 := imm.extractLsb' 0 5, rs1 := rs1, funct3 := 0, rd := rd
      opcode := 0x13 }
  | .add rd rs1 rs2 => ⟨0, rs2, rs1, 0, rd, 0x33⟩
  | .lw rd rs1 imm =>
    { funct7 := imm.extractLsb' 5 7, rs2 := imm.extractLsb' 0 5, rs1 := rs1, funct3 := 2, rd := rd
      opcode := 0x03 }
  | .sw rs1 rs2 imm =>
    { funct7 := imm.extractLsb' 5 7, rs2 := rs2, rs1 := rs1, funct3 := 2
      rd := imm.extractLsb' 0 5, opcode := 0x23 }
  | .jalr rd rs1 imm =>
    { funct7 := imm.extractLsb' 5 7, rs2 := imm.extractLsb' 0 5, rs1 := rs1, funct3 := 0, rd := rd
      opcode := 0x67 }
  | .bne rs1 rs2 offset =>
    { funct7 := offset.extractLsb' 11 1 ++ offset.extractLsb' 4 6, rs2 := rs2, rs1 := rs1
      funct3 := 1, rd := offset.extractLsb' 0 4 ++ offset.extractLsb' 10 1, opcode := 0x63 }
  | .rdtime rd =>
    { funct7 := csrTime.extractLsb' 5 7, rs2 := csrTime.extractLsb' 0 5, rs1 := 0, funct3 := 2
      rd := rd, opcode := 0x73 }
  | .rdtimeh rd =>
    { funct7 := csrTimeh.extractLsb' 5 7, rs2 := csrTimeh.extractLsb' 0 5, rs1 := 0, funct3 := 2
      rd := rd, opcode := 0x73 }

def encode (i : Instr) : Word := i.fields.word

/-- The instruction with these fields, if it belongs to the fragment. -/
def Fields.instr (f : Fields) : Option Instr :=
  let imm : BitVec 12 := f.funct7 ++ f.rs2
  if f.opcode = 0x37 then some (.lui f.rd (f.funct7 ++ f.rs2 ++ f.rs1 ++ f.funct3))
  else if f.opcode = 0x13 ∧ f.funct3 = 0 then some (.addi f.rd f.rs1 imm)
  else if f.opcode = 0x33 ∧ f.funct3 = 0 ∧ f.funct7 = 0 then some (.add f.rd f.rs1 f.rs2)
  else if f.opcode = 0x03 ∧ f.funct3 = 2 then some (.lw f.rd f.rs1 imm)
  else if f.opcode = 0x23 ∧ f.funct3 = 2 then some (.sw f.rs1 f.rs2 (f.funct7 ++ f.rd))
  else if f.opcode = 0x67 ∧ f.funct3 = 0 then some (.jalr f.rd f.rs1 imm)
  else if f.opcode = 0x63 ∧ f.funct3 = 1 then
    some (.bne f.rs1 f.rs2 (f.funct7.extractLsb' 6 1 ++ f.rd.extractLsb' 0 1 ++
      f.funct7.extractLsb' 0 6 ++ f.rd.extractLsb' 1 4))
  else if f.opcode = 0x73 ∧ f.funct3 = 2 ∧ f.rs1 = 0 ∧ imm = csrTime then some (.rdtime f.rd)
  else if f.opcode = 0x73 ∧ f.funct3 = 2 ∧ f.rs1 = 0 ∧ imm = csrTimeh then some (.rdtimeh f.rd)
  else none

def decode (w : Word) : Option Instr := (fields w).instr

/-! ## The round trip -/

/-- The fields of an instruction word are those that it was made of. -/
theorem fields_word (f : Fields) : fields f.word = f := by
  obtain ⟨funct7, rs2, rs1, funct3, rd, opcode⟩ := f
  have hopcode : BitVec.extractLsb' 0 7
      (funct7 ++ rs2 ++ rs1 ++ funct3 ++ rd ++ opcode) = opcode :=
    BitVec.extractLsb'_append_eq_right
  have hrd : BitVec.extractLsb' 7 5
      (funct7 ++ rs2 ++ rs1 ++ funct3 ++ rd ++ opcode) = rd := by
    rw [BitVec.extractLsb'_append_eq_of_le (by decide)]
    exact BitVec.extractLsb'_append_eq_right
  have hfunct3 : BitVec.extractLsb' 12 3
      (funct7 ++ rs2 ++ rs1 ++ funct3 ++ rd ++ opcode) = funct3 := by
    rw [BitVec.extractLsb'_append_eq_of_le (by decide),
      BitVec.extractLsb'_append_eq_of_le (by decide)]
    exact BitVec.extractLsb'_append_eq_right
  have hrs1 : BitVec.extractLsb' 15 5
      (funct7 ++ rs2 ++ rs1 ++ funct3 ++ rd ++ opcode) = rs1 := by
    rw [BitVec.extractLsb'_append_eq_of_le (by decide),
      BitVec.extractLsb'_append_eq_of_le (by decide),
      BitVec.extractLsb'_append_eq_of_le (by decide)]
    exact BitVec.extractLsb'_append_eq_right
  have hrs2 : BitVec.extractLsb' 20 5
      (funct7 ++ rs2 ++ rs1 ++ funct3 ++ rd ++ opcode) = rs2 := by
    rw [BitVec.extractLsb'_append_eq_of_le (by decide),
      BitVec.extractLsb'_append_eq_of_le (by decide),
      BitVec.extractLsb'_append_eq_of_le (by decide),
      BitVec.extractLsb'_append_eq_of_le (by decide)]
    exact BitVec.extractLsb'_append_eq_right
  have hfunct7 : BitVec.extractLsb' 25 7
      (funct7 ++ rs2 ++ rs1 ++ funct3 ++ rd ++ opcode) = funct7 := by
    rw [BitVec.extractLsb'_append_eq_of_le (by decide),
      BitVec.extractLsb'_append_eq_of_le (by decide),
      BitVec.extractLsb'_append_eq_of_le (by decide),
      BitVec.extractLsb'_append_eq_of_le (by decide)]
    exact BitVec.extractLsb'_append_eq_left
  simp only [fields, Fields.word, hfunct7, hrs2, hrs1, hfunct3, hrd, hopcode]

/-! An immediate that is cut into the fields of an instruction is put together again. -/

/-- An immediate is put together from its two parts. -/
theorem append_imm (imm : BitVec 12) : imm.extractLsb' 5 7 ++ imm.extractLsb' 0 5 = imm := by
  rw [BitVec.extractLsb'_append_extractLsb'_eq_extractLsb' (by rfl)]
  exact BitVec.extractLsb'_eq_self

/-- The upper immediate of `lui` is put together from its four parts. -/
theorem append_upper (imm : BitVec 20) :
    imm.extractLsb' 13 7 ++ imm.extractLsb' 8 5 ++ imm.extractLsb' 3 5 ++ imm.extractLsb' 0 3 =
      imm := by
  rw [BitVec.extractLsb'_append_extractLsb'_eq_extractLsb' (by rfl),
    BitVec.extractLsb'_append_extractLsb'_eq_extractLsb' (by rfl),
    BitVec.extractLsb'_append_extractLsb'_eq_extractLsb' (by rfl)]
  exact BitVec.extractLsb'_eq_self

/-- The bits of the offset of a branch are not in order. -/
theorem append_offset (offset : BitVec 12) :
    (offset.extractLsb' 11 1 ++ offset.extractLsb' 4 6).extractLsb' 6 1 ++
      (offset.extractLsb' 0 4 ++ offset.extractLsb' 10 1).extractLsb' 0 1 ++
      (offset.extractLsb' 11 1 ++ offset.extractLsb' 4 6).extractLsb' 0 6 ++
      (offset.extractLsb' 0 4 ++ offset.extractLsb' 10 1).extractLsb' 1 4 = offset := by
  rw [BitVec.extractLsb'_append_eq_left, BitVec.extractLsb'_append_eq_right,
    BitVec.extractLsb'_append_eq_right, BitVec.extractLsb'_append_eq_left,
    BitVec.extractLsb'_append_extractLsb'_eq_extractLsb' (by rfl),
    BitVec.extractLsb'_append_extractLsb'_eq_extractLsb' (by rfl),
    BitVec.extractLsb'_append_extractLsb'_eq_extractLsb' (by rfl)]
  exact BitVec.extractLsb'_eq_self

/-- What was encoded is decoded. -/
theorem decode_encode (i : Instr) : decode (encode i) = some i := by
  rw [decode, encode, fields_word]
  cases i with
  | lui rd imm => exact congrArg (fun imm => some (Instr.lui rd imm)) (append_upper imm)
  | addi rd rs1 imm => simp [Instr.fields, Fields.instr, append_imm]
  | add rd rs1 rs2 => simp [Instr.fields, Fields.instr]
  | lw rd rs1 imm => simp [Instr.fields, Fields.instr, append_imm]
  | sw rs1 rs2 imm => simp [Instr.fields, Fields.instr, append_imm]
  | jalr rd rs1 imm => simp [Instr.fields, Fields.instr, append_imm]
  | bne rs1 rs2 offset =>
    exact congrArg (fun offset => some (Instr.bne rs1 rs2 offset)) (append_offset offset)
  | rdtime rd => simp [Instr.fields, Fields.instr, append_imm]
  | rdtimeh rd =>
    have hne : csrTimeh ≠ csrTime := by decide
    simp [Instr.fields, Fields.instr, append_imm, hne]

end Riscv

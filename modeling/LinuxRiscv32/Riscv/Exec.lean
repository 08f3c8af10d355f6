import LinuxRiscv32.Riscv.Instr
import Mathlib.Logic.Function.Basic

/-!
# Executing instructions of RV32

One hart with its registers and its memory, under an environment that says what may be accessed and
what the counter `time` shows at every read. A fetch sees the bytes that were stored before. An
access that is not allowed is a fault, and nothing is changed. `step_of_code` is how a program is
run: by the instruction at its counter, whatever its registers and its address.
-/

namespace Riscv

/-- What a page may be used for. -/
structure Perm where
  read : Bool
  write : Bool
  exec : Bool
deriving DecidableEq, Repr

/-- The permission of every address, and the counter at its reads, in their order. -/
structure Env where
  perm : Word → Perm
  time : ℕ → BitVec 64

/-- The registers, the memory, and how often the counter was read. -/
@[ext]
structure State where
  pc : Word
  regs : Reg → Word
  mem : Word → Byte
  reads : ℕ

inductive Fault where
  | fetch (a : Word)
  | load (a : Word)
  | store (a : Word)
  | illegal (w : Word)
deriving DecidableEq, Repr

/-- A register; `zero` reads as 0. -/
def State.reg (s : State) (r : Reg) : Word := if r = zero then 0 else s.regs r

/-- Write a register; `zero` is not written. -/
def State.set (s : State) (r : Reg) (x : Word) : State :=
  if r = zero then s else { s with regs := Function.update s.regs r x }

/-- Go on with the next instruction. -/
def State.next (s : State) : State := { s with pc := s.pc + 4 }

/-- The word at an address, whose first byte is the lowest. -/
def wordAt (mem : Word → Byte) (a : Word) : Word :=
  mem (a + 3) ++ mem (a + 2) ++ mem (a + 1) ++ mem a

/-- The memory with a word stored at an address. -/
def storeWord (mem : Word → Byte) (a x : Word) : Word → Byte := fun b =>
  if b = a then x.extractLsb' 0 8
  else if b = a + 1 then x.extractLsb' 8 8
  else if b = a + 2 then x.extractLsb' 16 8
  else if b = a + 3 then x.extractLsb' 24 8
  else mem b

/-- The four bytes of a word may be used so. -/
def Env.allows (env : Env) (use : Perm → Bool) (a : Word) : Bool :=
  use (env.perm a) && use (env.perm (a + 1)) && use (env.perm (a + 2)) && use (env.perm (a + 3))

def exec (env : Env) (s : State) : Instr → Except Fault State
  | .lui rd imm => .ok (s.set rd (imm ++ 0#12)).next
  | .addi rd rs1 imm => .ok (s.set rd (s.reg rs1 + imm.signExtend 32)).next
  | .add rd rs1 rs2 => .ok (s.set rd (s.reg rs1 + s.reg rs2)).next
  | .lw rd rs1 imm =>
    let a := s.reg rs1 + imm.signExtend 32
    if env.allows Perm.read a then .ok (s.set rd (wordAt s.mem a)).next else .error (.load a)
  | .sw rs1 rs2 imm =>
    let a := s.reg rs1 + imm.signExtend 32
    if env.allows Perm.write a then
      .ok { s with mem := storeWord s.mem a (s.reg rs2) }.next
    else .error (.store a)
  | .jalr rd rs1 imm =>
    let target := (s.reg rs1 + imm.signExtend 32) &&& ~~~1#32
    .ok { s.set rd (s.pc + 4) with pc := target }
  | .bne rs1 rs2 offset =>
    .ok (if s.reg rs1 ≠ s.reg rs2 then { s with pc := s.pc + (offset ++ 0#1).signExtend 32 }
      else s.next)
  | .rdtime rd =>
    .ok { s.set rd ((env.time s.reads).extractLsb' 0 32) with reads := s.reads + 1 }.next
  | .rdtimeh rd =>
    .ok { s.set rd ((env.time s.reads).extractLsb' 32 32) with reads := s.reads + 1 }.next

/-- Fetch, decode and execute one instruction. -/
def step (env : Env) (s : State) : Except Fault State :=
  if env.allows Perm.exec s.pc then
    match decode (wordAt s.mem s.pc) with
    | some i => exec env s i
    | none => .error (.illegal (wordAt s.mem s.pc))
  else .error (.fetch s.pc)

/-- Execute `n` instructions. -/
def run (env : Env) : ℕ → State → Except Fault State
  | 0, s => .ok s
  | n + 1, s => step env s >>= run env n

/-! ## Registers -/

section Registers

variable {s : State} {r q : Reg} {x : Word}

@[simp] theorem set_pc (s : State) (r : Reg) (x : Word) : (s.set r x).pc = s.pc := by
  unfold State.set
  split <;> rfl

@[simp] theorem set_mem (s : State) (r : Reg) (x : Word) : (s.set r x).mem = s.mem := by
  unfold State.set
  split <;> rfl

theorem reg_set_self (hr : r ≠ zero) : (s.set r x).reg r = x := by
  rw [State.reg, if_neg hr, State.set, if_neg hr]
  exact Function.update_self r x s.regs

theorem reg_set_of_ne (hq : q ≠ r) : (s.set r x).reg q = s.reg q := by
  unfold State.reg State.set
  split
  · rfl
  · split
    · rfl
    · exact Function.update_of_ne hq x s.regs

end Registers

/-! ## Programs in memory -/

/-- The memory holds the instructions from the address on, and they may be executed. -/
def CodeAt (env : Env) (mem : Word → Byte) (a : Word) (is : List Instr) : Prop :=
  ∀ k i, is[k]? = some i → wordAt mem (a + 4 * BitVec.ofNat 32 k) = encode i ∧
    env.allows Perm.exec (a + 4 * BitVec.ofNat 32 k) = true

variable {env : Env} {s t : State} {a : Word} {is : List Instr} {i : Instr} {k n : ℕ}

/-- The instruction at the counter is executed. -/
theorem step_of_code (hcode : CodeAt env s.mem a is) (hpc : s.pc = a + 4 * BitVec.ofNat 32 k)
    (hi : is[k]? = some i) : step env s = exec env s i := by
  obtain ⟨hword, hallows⟩ := hcode k i hi
  rw [step, hpc, hallows, if_pos rfl, hword, decode_encode]

/-- A step faults if the page cannot be executed. -/
theorem step_of_fetch (h : env.allows Perm.exec s.pc = false) :
    step env s = .error (.fetch s.pc) := by
  rw [step, h, if_neg Bool.false_ne_true]

/-- A run goes on behind its first step. -/
theorem run_succ (h : step env s = .ok t) : run env (n + 1) s = run env n t := by
  rw [run, h]
  rfl

/-- A run in two parts. -/
theorem run_add (m : ℕ) (h : run env n s = .ok t) : run env (n + m) s = run env m t := by
  induction n generalizing s with
  | zero =>
    rw [Nat.zero_add]
    exact congrArg (run env m) (Except.ok.inj h)
  | succ n ih =>
    rw [Nat.succ_add_eq_add_succ, Nat.add_succ, run]
    rw [run] at h
    cases hstep : step env s with
    | error f =>
      rw [hstep] at h
      cases h
    | ok u =>
      rw [hstep] at h
      exact ih h

end Riscv

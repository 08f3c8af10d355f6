import LinuxRiscv32.C.ReadCounter
import LinuxRiscv32.Riscv.Exec

/-!
# The instructions of `read_time_rv32`

Reference: `C/rdtime.h` and `C/access_time.c` (`read_time_rv32`), `modules/chardev_user.c`
(`get_rdtime`).

The loop is four instructions of assembly, and the compiler chooses the registers for `hi`, `lo` and
`tmp`. From every address and in whatever registers, a pass of the loop of `ReadCounter` is four
steps of the hart, and nothing but the three outputs is changed.
-/

namespace LinuxRiscv32.RdtimeAsm

open Riscv
open ReadCounter (Counter Reading combine loop loop_of_eq loop_of_ne readTimeRv32
  readTimeRv32_spec)

/-- The registers of the outputs `"=r" (hi), "=r" (lo), "=r" (tmp)`. -/
structure Outputs where
  hi : Reg
  lo : Reg
  tmp : Reg
  hi_ne_zero : hi ≠ zero
  lo_ne_zero : lo ≠ zero
  tmp_ne_zero : tmp ≠ zero
  hi_ne_lo : hi ≠ lo
  hi_ne_tmp : hi ≠ tmp
  lo_ne_tmp : lo ≠ tmp

/-- The text of the `asm` statement. The branch to the label `1` goes back by twelve bytes. -/
def program (r : Outputs) : List Instr :=
  [.rdtimeh r.hi, .rdtime r.lo, .rdtimeh r.tmp, .bne r.hi r.tmp (-6)]

/-- A hart whose counter is `c`. -/
def hart (perm : Word → Perm) (c : Counter) : Env := { perm := perm, time := c.sample }

/-! ## Three reads -/

/-- The state behind an instruction that reads `x` from the counter. -/
def readInto (s : State) (q : Reg) (x : Word) : State :=
  { s.set q x with pc := s.pc + 4, reads := s.reads + 1 }

section ReadInto

variable {s : State} {q p : Reg} {x : Word}

@[simp] theorem readInto_pc : (readInto s q x).pc = s.pc + 4 := rfl

@[simp] theorem readInto_mem : (readInto s q x).mem = s.mem := set_mem s q x

theorem reg_readInto_self (hq : q ≠ zero) : (readInto s q x).reg q = x := reg_set_self (s := s) hq

theorem reg_readInto_of_ne (hp : p ≠ q) : (readInto s q x).reg p = s.reg p :=
  reg_set_of_ne (s := s) hp

end ReadInto

/-- `rdtimeh` takes a sample of the counter and keeps its upper half. -/
theorem exec_rdtimeh (perm : Word → Perm) (c : Counter) (s : State) (q : Reg) :
    exec (hart perm c) s (.rdtimeh q) =
      .ok (readInto s q (ReadCounter.rdtimeh (c.sample s.reads))) :=
  congrArg Except.ok (State.ext (congrArg (· + 4) (set_pc s q _)) rfl rfl rfl)

/-- `rdtime` takes a sample of the counter and keeps its lower half. -/
theorem exec_rdtime (perm : Word → Perm) (c : Counter) (s : State) (q : Reg) :
    exec (hart perm c) s (.rdtime q) =
      .ok (readInto s q (ReadCounter.rdtime (c.sample s.reads))) :=
  congrArg Except.ok (State.ext (congrArg (· + 4) (set_pc s q _)) rfl rfl rfl)

/-- The state in front of the branch. -/
def loaded (c : Counter) (r : Outputs) (s : State) : State :=
  readInto (readInto (readInto s r.hi (ReadCounter.rdtimeh (c.sample s.reads)))
    r.lo (ReadCounter.rdtime (c.sample (s.reads + 1))))
    r.tmp (ReadCounter.rdtimeh (c.sample (s.reads + 2)))

section Pass

variable {perm : Word → Perm} {c : Counter} {r : Outputs} {s : State} {a : Word}

theorem loaded_hi : (loaded c r s).reg r.hi = ReadCounter.rdtimeh (c.sample s.reads) := by
  rw [loaded, reg_readInto_of_ne r.hi_ne_tmp, reg_readInto_of_ne r.hi_ne_lo,
    reg_readInto_self r.hi_ne_zero]

theorem loaded_lo : (loaded c r s).reg r.lo = ReadCounter.rdtime (c.sample (s.reads + 1)) := by
  rw [loaded, reg_readInto_of_ne r.lo_ne_tmp, reg_readInto_self r.lo_ne_zero]

theorem loaded_tmp : (loaded c r s).reg r.tmp = ReadCounter.rdtimeh (c.sample (s.reads + 2)) :=
  reg_readInto_self r.tmp_ne_zero

/-- A pass changes no register but the three. -/
theorem loaded_other {q : Reg} (hhi : q ≠ r.hi) (hlo : q ≠ r.lo) (htmp : q ≠ r.tmp) :
    (loaded c r s).reg q = s.reg q := by
  rw [loaded, reg_readInto_of_ne htmp, reg_readInto_of_ne hlo, reg_readInto_of_ne hhi]

@[simp] theorem loaded_mem : (loaded c r s).mem = s.mem := by simp [loaded]

theorem loaded_pc (hpc : s.pc = a) : (loaded c r s).pc = a + 12 := by
  have h12 : (4 : Word) + (4 + 4) = 12 := by decide
  simp only [loaded, readInto_pc, hpc, BitVec.add_assoc]
  rw [h12]

/-- A step at a place of the program with `rdtimeh`. -/
theorem step_rdtimeh {k : ℕ} {q : Reg} (hcode : CodeAt (hart perm c) s.mem a (program r))
    (hpc : s.pc = a + 4 * BitVec.ofNat 32 k) (hi : (program r)[k]? = some (.rdtimeh q)) :
    step (hart perm c) s = .ok (readInto s q (ReadCounter.rdtimeh (c.sample s.reads))) :=
  (step_of_code hcode hpc hi).trans (exec_rdtimeh perm c s q)

/-- A step at a place of the program with `rdtime`. -/
theorem step_rdtime {k : ℕ} {q : Reg} (hcode : CodeAt (hart perm c) s.mem a (program r))
    (hpc : s.pc = a + 4 * BitVec.ofNat 32 k) (hi : (program r)[k]? = some (.rdtime q)) :
    step (hart perm c) s = .ok (readInto s q (ReadCounter.rdtime (c.sample s.reads))) :=
  (step_of_code hcode hpc hi).trans (exec_rdtime perm c s q)

/-- The first three instructions. -/
theorem run_loaded (hcode : CodeAt (hart perm c) s.mem a (program r)) (hpc : s.pc = a) :
    run (hart perm c) 3 s = .ok (loaded c r s) := by
  have hpc₂ : a + 4 + 4 = a + 4 * 2#32 := by
    rw [BitVec.add_assoc]
    rfl
  rw [run_succ (step_rdtimeh (k := 0) hcode (hpc.trans (BitVec.add_zero a).symm) rfl),
    run_succ (step_rdtime (k := 1) (by rwa [readInto_mem]) (by rw [readInto_pc, hpc]; rfl) rfl),
    run_succ (step_rdtimeh (k := 2) (by rwa [readInto_mem, readInto_mem])
      (by rw [readInto_pc, readInto_pc, hpc, hpc₂]) rfl)]
  rfl

/-- The state behind a pass. -/
def passed (c : Counter) (r : Outputs) (s : State) (a : Word) : State :=
  { loaded c r s with
    pc :=
      if ReadCounter.rdtimeh (c.sample s.reads) ≠ ReadCounter.rdtimeh (c.sample (s.reads + 2)) then
        a
      else a + 16 }

/-- The branch goes back to the label if the high half has changed. -/
theorem run_passed (hcode : CodeAt (hart perm c) s.mem a (program r)) (hpc : s.pc = a) :
    run (hart perm c) 4 s = .ok (passed c r s a) := by
  rw [show 4 = 3 + 1 from rfl, run_add 1 (run_loaded hcode hpc)]
  have hbne : step (hart perm c) (loaded c r s) = _ :=
    step_of_code (k := 3) (by rwa [loaded_mem]) (loaded_pc hpc) rfl
  refine run_succ (hbne.trans ?_)
  -- the offset is in units of two bytes
  have hback : a + 12 + ((-6 : BitVec 12) ++ 0#1).signExtend 32 = a := by
    rw [BitVec.add_assoc]
    exact BitVec.add_zero a
  have hnext : a + 12 + 4 = a + 16 := by
    rw [BitVec.add_assoc]
    rfl
  rw [exec, loaded_hi, loaded_tmp, State.next, loaded_pc hpc, hback, hnext, passed]
  split <;> rfl

/-! ## The loop -/

/-- How the state `t` behind the loop differs from the state `s` in which it was entered. -/
structure Returns (r : Outputs) (a : Word) (s t : State) (v : BitVec 64) (passes : ℕ) : Prop where
  pc : t.pc = a + 16
  value : combine (t.reg r.hi) (t.reg r.lo) = v
  reads : t.reads = s.reads + 3 * passes
  mem : t.mem = s.mem
  other : ∀ q, q ≠ r.hi → q ≠ r.lo → q ≠ r.tmp → t.reg q = s.reg q

/-- A pass that finds the high half unchanged leaves the loop. -/
theorem returns_passed
    (heq : ReadCounter.rdtimeh (c.sample s.reads) = ReadCounter.rdtimeh (c.sample (s.reads + 2))) :
    Returns r a s (passed c r s a) (c.sample (s.reads + 1)) 1 where
  pc := if_neg (not_not.mpr heq)
  value := by
    change combine ((loaded c r s).reg r.hi) ((loaded c r s).reg r.lo) = _
    rw [loaded_hi, loaded_lo, ReadCounter.combine_of_rdtimeh_eq (c.mono (Nat.le_succ s.reads))
      (c.mono (Nat.le_succ (s.reads + 1))) heq]
  reads := rfl
  mem := loaded_mem
  other _ hhi hlo htmp := loaded_other hhi hlo htmp

/-- Any other pass is followed by the rest of the loop. -/
theorem Returns.of_passed {t : State} {v : BitVec 64} {m : ℕ}
    (h : Returns r a (passed c r s a) t v m) : Returns r a s t v (m + 1) where
  pc := h.pc
  value := h.value
  reads := by
    rw [h.reads, Nat.mul_add_one, Nat.add_comm (3 * m) 3, ← Nat.add_assoc]
    rfl
  mem := h.mem.trans loaded_mem
  other q hhi hlo htmp := (h.other q hhi hlo htmp).trans (loaded_other hhi hlo htmp)

/-- Every pass of the loop is four steps. -/
theorem run_loop {fuel n : ℕ} {v : Reading} (hloop : loop c s.reads n fuel = some v)
    (hcode : CodeAt (hart perm c) s.mem a (program r)) (hpc : s.pc = a) :
    ∃ m t, v.passes = n + m ∧ run (hart perm c) (4 * m) s = .ok t ∧ Returns r a s t v.value m := by
  induction fuel generalizing s n with
  | zero => cases hloop
  | succ fuel ih =>
    -- the induction is on the fuel of the loop of the source, one pass at a time
    have hpass := run_passed hcode hpc
    by_cases heq : ReadCounter.rdtimeh (c.sample s.reads) =
        ReadCounter.rdtimeh (c.sample (s.reads + 2))
    · rw [loop_of_eq heq] at hloop
      obtain rfl := Option.some.inj hloop
      exact ⟨1, passed c r s a, rfl, hpass, returns_passed heq⟩
    · rw [loop_of_ne heq] at hloop
      have hback : (passed c r s a).pc = a := if_pos heq
      -- the pass has written no memory, so the code is still there
      have hcode' : CodeAt (hart perm c) (passed c r s a).mem a (program r) := by
        change CodeAt (hart perm c) (loaded c r s).mem a (program r)
        rwa [loaded_mem]
      obtain ⟨m, t, hpasses, hrun, hreturns⟩ := ih hloop hcode' hback
      refine ⟨m + 1, t, by omega, ?_, hreturns.of_passed⟩
      rw [Nat.mul_add_one, Nat.add_comm, run_add (4 * m) hpass, hrun]

/-- **The assembly is the loop.** Whatever the counter does, whatever registers the compiler takes
for the outputs, and wherever the code is: `hi` and `lo` are put together to what `read_time_rv32`
returns, after four steps for each of its passes, and the memory and the other registers are as they
were. -/
theorem run_readTimeRv32 (perm : Word → Perm) (c : Counter) (r : Outputs) (s : State)
    (hcode : CodeAt (hart perm c) s.mem s.pc (program r)) :
    ∃ t, run (hart perm c) (4 * (readTimeRv32 c s.reads).passes) s = .ok t ∧
      Returns r s.pc s t (readTimeRv32 c s.reads).value (readTimeRv32 c s.reads).passes := by
  obtain ⟨m, t, hpasses, hrun, hreturns⟩ := run_loop (readTimeRv32_spec c s.reads) hcode rfl
  rw [Nat.zero_add] at hpasses
  rw [hpasses]
  exact ⟨t, hrun, hreturns⟩

end Pass

/-- `a0`, `a1` and `a2`. -/
def outputs : Outputs where
  hi := 10
  lo := 11
  tmp := 12
  hi_ne_zero := by decide
  lo_ne_zero := by decide
  tmp_ne_zero := by decide
  hi_ne_lo := by decide
  hi_ne_tmp := by decide
  lo_ne_tmp := by decide

/-- The bytes of `rdtimeh a0; rdtime a1; rdtimeh a2; bne a0, a2, -12` -/
def text : List Byte :=
  [0x73, 0x25, 0x10, 0xc8, 0xf3, 0x25, 0x10, 0xc0, 0x73, 0x26, 0x10, 0xc8, 0xe3, 0x1a, 0xc5, 0xfe]

/-- The encoded program, loaded at address 0, is there to be executed. -/
theorem codeAt_text (perm : Word → Perm) (c : Counter) (hperm : ∀ a, (perm a).exec = true) :
    CodeAt (hart perm c) (fun a => text[a.toNat]?.getD 0) 0 (program outputs) := by
  intro k i hi
  have hk : k < 4 := (List.getElem?_eq_some_iff.mp hi).1
  have hallows (a : Word) : (hart perm c).allows Perm.exec a = true := by
    simp [Env.allows, hart, hperm]
  match k, hk, hi with
  | 0, _, hi | 1, _, hi | 2, _, hi | 3, _, hi =>
    obtain rfl := Option.some.inj hi
    exact ⟨by decide, hallows _⟩

/-- The low half wraps behind the first read. -/
def wrapping : Counter where
  sample k := if k = 0 then 0xffffffff else 0x100000005
  mono {i j} h := by
    by_cases hi : i = 0
    · simp only [hi, if_true]
      split <;> decide
    · rw [if_neg hi, if_neg (by omega)]
      exact BitVec.le_refl 0x100000005

/-- The loop at address 0. -/
def start : State where
  pc := 0
  regs _ := 0
  mem a := text[a.toNat]?.getD 0
  reads := 0

/-- The second pass is accepted. -/
theorem run_readTimeRv32_wrapping :
    ∃ t, run (hart (fun _ => ⟨true, true, true⟩) wrapping) 8 start = .ok t ∧
      Returns outputs 0 start t 0x100000005 2 := by
  have hread : readTimeRv32 wrapping start.reads = { value := 0x100000005, passes := 2 } := by
    decide
  have hrun := run_readTimeRv32 (fun _ => ⟨true, true, true⟩) wrapping outputs start
    (codeAt_text _ _ fun _ => rfl)
  rwa [hread] at hrun

end LinuxRiscv32.RdtimeAsm

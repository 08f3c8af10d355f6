import LinuxRiscv32.Riscv.Exec

/-!
# Calling instructions that were stored as data

Reference: `C/mem_ex1.c`, `C/mem_ex2.c`, `C/mem_ex3.c`, `C/mem_ex4.c`.

The four programs store the same twelve bytes and call them. They differ in where the bytes are:
in a variable, or in a page that is mapped with or without `PROT_EXEC`, by a process that may have
set `READ_IMPLIES_EXEC` before. The call returns 0x1001 from a page that may be executed, and
faults at the first instruction elsewhere.
-/

namespace LinuxRiscv32.MemEx

open Riscv

/-- What is assigned to `inst[0]` .. `inst[11]`. -/
def inst : List Byte :=
  [0x37, 0x15, 0x00, 0x00, 0x13, 0x05, 0x15, 0x00, 0x67, 0x80, 0x00, 0x00]

/-- `li a0, 0x1001; ret` -/
def program : List Instr := [.lui a0 1, .addi a0 a0 1, .jalr zero ra 0]

/-- The memory behind the assignments, with `inst` at the address `a`. -/
def stored (mem : Word → Byte) (a : Word) : Word → Byte := fun b =>
  inst[(b - a).toNat]?.getD (mem b)

/-- `((int (*)())inst)()`, called with the return address `ret`. -/
def call (s : State) (a ret : Word) : State :=
  { s.set ra ret with pc := a, mem := stored s.mem a }

/-! ## Mappings -/

def READ_IMPLIES_EXEC : BitVec 32 := 0x0400000

/-- `personality(persona)`: the old value, which it returns, and the new one. -/
def personality (current persona : BitVec 32) : BitVec 32 × BitVec 32 :=
  (current, if persona = 0xffffffff then current else persona)

/-- `PROT_READ`, `PROT_WRITE` and `PROT_EXEC` among the flags. -/
structure Prot where
  read : Bool
  write : Bool
  exec : Bool
deriving DecidableEq, Repr

/-- What the pages of an anonymous mapping may be used for. -/
def mmapPerm (persona : BitVec 32) (prot : Prot) : Perm where
  read := prot.read
  write := prot.write
  exec := prot.exec || (prot.read && persona &&& READ_IMPLIES_EXEC ≠ 0)

/-- The programs that map a page for `inst`. -/
inductive Demo where
  | memEx2
  | memEx3
  | memEx4
deriving DecidableEq, Repr

/-- The page of `inst`, for a process that was started with the personality. -/
def Demo.perm (persona : BitVec 32) : Demo → Perm
  | .memEx2 => mmapPerm persona ⟨true, true, true⟩
  | .memEx3 => mmapPerm persona ⟨true, true, false⟩
  | .memEx4 =>
    let oldPersona := (personality persona 0xffffffff).1
    let persona := (personality persona (oldPersona ||| READ_IMPLIES_EXEC)).2
    mmapPerm persona ⟨true, true, false⟩

/-- The environment with a page mapped at an address. -/
def mapped (env : Env) (a : Word) (p : Perm) : Env :=
  { env with perm := fun b => if (b - a).toNat < 4096 then p else env.perm b }

/-- The page has the permissions of the `mmap`. -/
theorem mapped_perm (env : Env) (a : Word) (p : Perm) {c : Word} (hc : c.toNat < 4096) :
    (mapped env a p).perm (a + c) = p := by
  have hpage : (a + c - a).toNat < 4096 := by
    rw [BitVec.add_comm, BitVec.add_sub_cancel]
    exact hc
  exact if_pos hpage

/-- The bits of `x` do not change if those that it does not have are masked. -/
theorem and_not_of_and_eq_zero {n : ℕ} {x m : BitVec n} (h : x &&& m = 0#n) :
    x &&& ~~~m = x := by
  ext i hi
  have hbit : (x &&& m)[i] = false := by
    rw [h]
    exact BitVec.getElem_zero hi
  rw [BitVec.getElem_and] at hbit
  rw [BitVec.getElem_and, BitVec.getElem_not]
  cases hx : x[i] with
  | false => rfl
  | true =>
    rw [hx, Bool.true_and] at hbit
    rw [hbit]
    rfl

/-! ## The call -/

section Call

variable {env : Env} {s : State} {a ret : Word}

theorem stored_add (mem : Word → Byte) (a c : Word) :
    stored mem a (a + c) = inst[c.toNat]?.getD (mem (a + c)) := by
  rw [stored, BitVec.add_comm, BitVec.add_sub_cancel]

/-- The word at an offset is made of the four bytes there. -/
theorem wordAt_stored {b₀ b₁ b₂ b₃ : Byte} {c : Word} (mem : Word → Byte)
    (h₃ : inst[(c + 3).toNat]? = some b₃) (h₂ : inst[(c + 2).toNat]? = some b₂)
    (h₁ : inst[(c + 1).toNat]? = some b₁) (h₀ : inst[c.toNat]? = some b₀) :
    wordAt (stored mem a) (a + c) = b₃ ++ b₂ ++ b₁ ++ b₀ := by
  simp only [wordAt, BitVec.add_assoc, stored_add, h₃, h₂, h₁, h₀, Option.getD_some]

/-- The bytes are the three instructions. -/
theorem codeAt_stored (hexec : ∀ c : Word, c.toNat < 12 → (env.perm (a + c)).exec = true) :
    CodeAt env (stored s.mem a) a program := by
  intro k i hi
  have hk : k < 3 := (List.getElem?_eq_some_iff.mp hi).1
  have hallows (c : Word) (hc : (c + 3).toNat < 12 ∧ (c + 2).toNat < 12 ∧ (c + 1).toNat < 12 ∧
      c.toNat < 12) : env.allows Perm.exec (a + c) = true := by
    obtain ⟨h3, h2, h1, h0⟩ := hc
    simp only [Env.allows, BitVec.add_assoc, hexec _ h0, hexec _ h1, hexec _ h2, hexec _ h3,
      Bool.and_self]
  match k, hk, hi with
  | 0, _, hi =>
    obtain rfl := Option.some.inj hi
    exact ⟨(wordAt_stored _ rfl rfl rfl rfl).trans (by decide), hallows _ (by decide)⟩
  | 1, _, hi =>
    obtain rfl := Option.some.inj hi
    exact ⟨(wordAt_stored _ rfl rfl rfl rfl).trans (by decide), hallows _ (by decide)⟩
  | 2, _, hi =>
    obtain rfl := Option.some.inj hi
    exact ⟨(wordAt_stored _ rfl rfl rfl rfl).trans (by decide), hallows _ (by decide)⟩

/-- The state at the instruction `k`, with `x` in `a0`. -/
def within (s : State) (a ret : Word) (k : ℕ) (x : Word) : State :=
  { (call s a ret).set a0 x with pc := a + 4 * BitVec.ofNat 32 k }

/-- The state when the call has returned. -/
def returned (s : State) (a ret : Word) : State :=
  { (call s a ret).set a0 0x1001 with pc := ret }

/-- `lui` makes the upper part of the value. -/
theorem exec_lui : exec env (call s a ret) (.lui a0 1) = .ok (within s a ret 1 0x1000) := rfl

/-- `addi` completes the value 0x1001. -/
theorem exec_addi :
    exec env (within s a ret 1 0x1000) (.addi a0 a0 1) = .ok (within s a ret 2 0x1001) := by
  have hreg : (within s a ret 1 0x1000).reg a0 + (1 : BitVec 12).signExtend 32 = 0x1001 := rfl
  have hpc : a + 4 * 1#32 + 4 = a + 4 * 2#32 := by
    rw [BitVec.add_assoc]
    rfl
  rw [exec, hreg]
  refine congrArg Except.ok (State.ext hpc ?_ rfl rfl)
  exact Function.update_idem _ _ _

/-- The jump goes back to the caller. -/
theorem exec_ret (hret : ret &&& 1#32 = 0) :
    exec env (within s a ret 2 0x1001) (.jalr zero ra 0) = .ok (returned s a ret) := by
  have htarget : (ret + (0 : BitVec 12).signExtend 32) &&& ~~~1#32 = ret := by
    rw [show (0 : BitVec 12).signExtend 32 = 0#32 by decide, BitVec.add_zero]
    exact and_not_of_and_eq_zero hret
  exact congrArg Except.ok (State.ext htarget rfl rfl rfl)

/-- From a page that may be executed, the call returns 0x1001 and changes nothing else. -/
theorem run_call (hexec : ∀ c : Word, c.toNat < 12 → (env.perm (a + c)).exec = true)
    (hret : ret &&& 1#32 = 0) : run env 3 (call s a ret) = .ok (returned s a ret) := by
  have hcode : CodeAt env (stored s.mem a) a program := codeAt_stored hexec
  have hlui : step env (call s a ret) = exec env (call s a ret) (.lui a0 1) :=
    step_of_code (k := 0) hcode (BitVec.add_zero a).symm rfl
  have haddi : step env (within s a ret 1 0x1000) = _ := step_of_code (k := 1) hcode rfl rfl
  have hjalr : step env (within s a ret 2 0x1001) = _ := step_of_code (k := 2) hcode rfl rfl
  rw [run_succ (hlui.trans exec_lui), run_succ (haddi.trans exec_addi),
    run_succ (hjalr.trans (exec_ret hret)), run]

/-- From any other page, the first instruction cannot be fetched. -/
theorem step_call (hexec : (env.perm a).exec = false) :
    step env (call s a ret) = .error (.fetch a) :=
  step_of_fetch (by simp [Env.allows, call, hexec])

/-! ## The programs -/

/-- Whether the page of `inst` may be executed. `mem_ex4` asks for the personality 0xffffffff if all
other bits are set, and this is no request to set any. -/
def Demo.Executable (persona : BitVec 32) : Demo → Prop
  | .memEx2 => True
  | .memEx3 => persona &&& READ_IMPLIES_EXEC ≠ 0
  | .memEx4 => persona ≠ 0xffbfffff

/-- The page can be executed exactly if the demo is executable in this personality. -/
theorem perm_exec (d : Demo) (persona : BitVec 32) :
    (d.perm persona).exec = true ↔ d.Executable persona := by
  cases d with
  | memEx2 => exact iff_of_true rfl trivial
  | memEx3 => simp [Demo.perm, mmapPerm, Demo.Executable]
  | memEx4 =>
    simp only [Demo.perm, mmapPerm, personality, Demo.Executable, Bool.false_or, Bool.true_and,
      decide_eq_true_eq]
    split
    next hall =>
      refine not_congr ⟨fun h => ?_, fun h => h ▸ by decide⟩
      rw [← and_not_of_and_eq_zero h]
      -- but for the bit itself, what is asked for is the old personality
      have hmask : (persona ||| READ_IMPLIES_EXEC) &&& ~~~READ_IMPLIES_EXEC =
          persona &&& ~~~READ_IMPLIES_EXEC := by
        rw [BitVec.and_or_distrib_right, BitVec.and_not_self]
        exact BitVec.or_zero
      rw [← hmask, hall]
      decide
    next hall =>
      refine iff_of_true ?_ ?_
      · -- the bit is set in what was asked for
        intro h
        rw [BitVec.and_or_distrib_right, BitVec.and_self] at h
        exact absurd (BitVec.or_eq_zero_iff.mp h).2 (by decide)
      · rintro rfl
        exact hall (by decide)

/-- **When the stored instructions run.** For every personality of the process, every page, every
state and every return address: the call returns 0x1001 in `a0`, with the memory and all other
registers as they were, if the page was mapped with `PROT_EXEC` or under `READ_IMPLIES_EXEC`, and
faults at the fetch of the first instruction otherwise. So `mem_ex2` always succeeds, `mem_ex3` only
if it was started with the personality that `mem_ex4` sets, and `mem_ex4` unless the personality is
the one to which that bit cannot be added. -/
theorem call_result (d : Demo) (persona : BitVec 32) (env : Env) (s : State) {a ret : Word}
    (hret : ret &&& 1#32 = 0) :
    (d.Executable persona →
      run (mapped env a (d.perm persona)) 3 (call s a ret) = .ok (returned s a ret)) ∧
    (¬ d.Executable persona →
      step (mapped env a (d.perm persona)) (call s a ret) = .error (.fetch a)) := by
  rw [← perm_exec]
  refine ⟨fun h => run_call (fun c hc => ?_) hret, fun h => step_call ?_⟩
  · rw [mapped_perm env a _ (hc.trans (by decide)), h]
  · have hperm := mapped_perm env a (d.perm persona) (c := 0#32) (by decide)
    rw [BitVec.add_zero] at hperm
    rw [hperm]
    exact Bool.eq_false_of_not_eq_true h

/-- A process in which only the page of `inst` is mapped. -/
def started : State := { pc := 0x1052c, regs := fun _ => 0, mem := fun _ => 0, reads := 0 }

def unmapped : Env := { perm := fun _ => ⟨false, false, false⟩, time := fun _ => 0 }

/-- `mem_ex3` from a shell that has set the personality, and without it. -/
theorem call_result_memEx3 :
    run (mapped unmapped 0x95400000 (Demo.memEx3.perm READ_IMPLIES_EXEC)) 3
        (call started 0x95400000 0x10532) = .ok (returned started 0x95400000 0x10532) ∧
      step (mapped unmapped 0x95400000 (Demo.memEx3.perm 0)) (call started 0x95400000 0x10532) =
        .error (.fetch 0x95400000) :=
  ⟨(call_result .memEx3 READ_IMPLIES_EXEC unmapped started (by decide)).1
      (by simp only [Demo.Executable]; decide),
    (call_result .memEx3 0 unmapped started (by decide)).2
      (by simp only [Demo.Executable]; decide)⟩

end Call

end LinuxRiscv32.MemEx

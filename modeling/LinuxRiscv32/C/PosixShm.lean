import LinuxRiscv32.Common.Machine
import LinuxRiscv32.Kernel.Name
import Mathlib.Algebra.Group.Nat.Defs
import Mathlib.Logic.Function.Basic
import Mathlib.Tactic.Common

/-!
# The POSIX shared memory sample

Reference: `C/posix_shm.h`, `C/posix_shm_init.c`, `C/posix_shm_worker.c` and
`C/posix_shm_cleanup.c`.

Any number of runs of the three programs share the names `SHM_NAME` and `SEM_NAME`. One label of the
machine is one step of one program: a system call, or an access to the mapped `struct mybuf`. A
program that is not scheduled again has been stopped where it is. The label `kill` takes a worker
out; unlike a System V semaphore with `SEM_UNDO`, its semaphore stays as it is.
-/

namespace LinuxRiscv32.PosixShm

open Common Kernel

/-- `BUF_SIZE`. -/
def BUF_SIZE : ℕ := 4096

/-- `struct mybuf`; `buf` is kept as the C string that it holds. -/
structure Mybuf where
  count : ℕ
  buf : List Char
deriving DecidableEq, Repr

/-- The pages that `ftruncate` adds are zero. -/
def Mybuf.zero : Mybuf := { count := 0, buf := [] }

/-- `snprintf(mb->buf, BUF_SIZE, "Hello from %d (count=%zu)", pid, count)`. -/
def message (pid count : ℕ) : List Char :=
  ("Hello from ".toList ++ Nat.toDigits 10 pid ++ " (count=".toList ++ Nat.toDigits 10 count ++
    ")".toList).take (BUF_SIZE - 1)

/-- The two names and the objects they were ever bound to. A memory object is `none` as long as its
size is 0. -/
structure World where
  shm : Name
  sem : Name
  mem : ℕ → Option Mybuf
  val : ℕ → ℕ

/-- The two objects a worker works with. -/
structure Handle where
  mem : ℕ
  sem : ℕ
deriving DecidableEq, Repr

/-- The points of a worker between its steps. -/
inductive WorkerPc where
  | semOpen
  | shmOpen (sem : ℕ)
  | mmap (h : Handle)
  | semWait (h : Handle)
  /-- The `printf` in front of the update. -/
  | before (h : Handle)
  | format (h : Handle)
  /-- The load of `mb->count++`. -/
  | load (h : Handle)
  /-- The store of `mb->count++`, with the value loaded. -/
  | store (h : Handle) (count : ℕ)
  /-- The second `printf` and `sleep` are over. -/
  | semPost (h : Handle)
  | done
  | exited
deriving DecidableEq, Repr

/-- The points of `posix_shm_init`. -/
inductive InitPc where
  | shmOpen
  | ftruncate (m : ℕ)
  | mmap (m : ℕ)
  | clearCount (m : ℕ)
  | clearBuf (m : ℕ)
  | semOpen
  | done
  | exited
deriving DecidableEq, Repr

/-- The points of `posix_shm_cleanup`. -/
inductive CleanupPc where
  | shmUnlink
  | semUnlink
  | done
deriving DecidableEq, Repr

/-- Store into a mapped object. -/
def World.store (x : World) (m : ℕ) (b : Mybuf) : World :=
  { x with mem := Function.update x.mem m (some b) }

/-- Change the value of a semaphore. -/
def World.setVal (x : World) (o v : ℕ) : World :=
  { x with val := Function.update x.val o v }

@[simp] theorem World.store_mem_self (x : World) (m : ℕ) (b : Mybuf) :
    (x.store m b).mem m = some b := Function.update_self m _ _

@[simp] theorem World.setVal_mem (x : World) (o v : ℕ) : (x.setVal o v).mem = x.mem := rfl

@[simp] theorem World.setVal_val_self (x : World) (o v : ℕ) : (x.setVal o v).val o = v :=
  Function.update_self o _ _

theorem World.setVal_val_of_ne (x : World) {o o' : ℕ} (v : ℕ) (h : o' ≠ o) :
    (x.setVal o v).val o' = x.val o' := Function.update_of_ne h _ _

/-- An access to a mapped object. Beyond the end of the file it raises `SIGBUS`. -/
def World.access {Pc : Type*} (x : World) (m : ℕ) (sigbus : Pc) (k : Mybuf → World × Pc) :
    World × Pc :=
  (x.mem m).elim (x, sigbus) k

/-- The next step of a worker on a machine with a `size_t` of `w` bits; `none` if it sleeps or has
ended. With `ok = false` a call fails for a reason that lies outside the names. -/
def workerStep (w pid : ℕ) (x : World) (ok : Bool) : WorkerPc → Option (World × WorkerPc)
  | .semOpen =>
    match ok, x.sem.bound with
    | true, some o => some (x, .shmOpen o)
    | _, _ => some (x, .exited)
  | .shmOpen o =>
    match ok, x.shm.bound with
    | true, some m => some (x, .mmap ⟨m, o⟩)
    | _, _ => some (x, .exited)
  | .mmap h => some (x, if ok then .semWait h else .exited)
  | .semWait h =>
    match x.val h.sem with
    | 0 => none
    | v + 1 => some (x.setVal h.sem v, .before h)
  | .before h => some (x.access h.mem .exited fun _ => (x, .format h))
  | .format h => some (x.access h.mem .exited fun b =>
    (x.store h.mem { b with buf := message pid b.count }, .load h))
  | .load h => some (x.access h.mem .exited fun b => (x, .store h b.count))
  | .store h count => some (x.access h.mem .exited fun b =>
    (x.store h.mem { b with count := (count + 1) % 2 ^ w }, .semPost h))
  | .semPost h => some (x.setVal h.sem (x.val h.sem + 1), .done)
  | .done | .exited => none

/-- The next step of `posix_shm_init`. -/
def initStep (x : World) (ok : Bool) : InitPc → Option (World × InitPc)
  | .shmOpen =>
    match ok, x.shm.bound with
    | true, some m => some (x, .ftruncate m)
    | true, none =>
      some ({ x with shm := x.shm.create, mem := Function.update x.mem x.shm.fresh none },
        .ftruncate x.shm.fresh)
    | false, _ => some (x, .exited)
  -- the size is a constant, so an object that was truncated before stays as it is
  | .ftruncate m =>
    some (if ok then (x.store m ((x.mem m).getD .zero), .mmap m) else (x, .exited))
  | .mmap m => some (x, if ok then .clearCount m else .exited)
  | .clearCount m => some (x.access m .exited fun b =>
    (x.store m { b with count := 0 }, .clearBuf m))
  | .clearBuf m => some (x.access m .exited fun b => (x.store m { b with buf := [] }, .semOpen))
  | .semOpen =>
    match ok, x.sem.bound with
    -- the value 1 is for a new semaphore only
    | true, some _ => some (x, .done)
    | true, none =>
      some ({ x with sem := x.sem.create, val := Function.update x.val x.sem.fresh 1 }, .done)
    | false, _ => some (x, .exited)
  | .done | .exited => none

/-- The next step of `posix_shm_cleanup`; the results of its calls are not checked. -/
def cleanupStep (x : World) (ok : Bool) : CleanupPc → Option (World × CleanupPc)
  | .shmUnlink => some (if ok then { x with shm := x.shm.unlink } else x, .semUnlink)
  | .semUnlink => some (if ok then { x with sem := x.sem.unlink } else x, .done)
  | .done => none

/-- The runs of the three programs: `W` of the worker, `I` of the init and `K` of the cleanup. -/
structure State (W I K : Type*) where
  world : World
  worker : W → WorkerPc
  init : I → InitPc
  cleanup : K → CleanupPc

inductive Event (W I K : Type*) where
  | worker (p : W) (ok : Bool)
  | kill (p : W)
  | init (i : I) (ok : Bool)
  | cleanup (k : K) (ok : Bool)
deriving DecidableEq, Repr

/-- Neither name exists and nothing was started. -/
def init {W I K : Type*} : State W I K :=
  { world := { shm := .absent, sem := .absent, mem := fun _ => none, val := fun _ => 0 }
    worker := fun _ => .semOpen
    init := fun _ => .shmOpen
    cleanup := fun _ => .shmUnlink }

/-- One complete run of `posix_shm_init`. -/
def initRun {W I K : Type*} (i : I) : List (Event W I K) := List.replicate 6 (.init i true)

/-- One complete run of `posix_shm_cleanup`. -/
def cleanupRun {W I K : Type*} (k : K) : List (Event W I K) := List.replicate 2 (.cleanup k true)

/-- The first `n` steps of worker `p`; a complete run has 9. -/
def workerRun {W I K : Type*} (p : W) (n : ℕ) : List (Event W I K) :=
  List.replicate n (.worker p true)

section Program

variable {W I K : Type*} [DecidableEq W] [DecidableEq I] [DecidableEq K]

/-- One step of one program; worker `p` prints the process number `pid p`. -/
def step (w : ℕ) (pid : W → ℕ) (s : State W I K) : Event W I K → Option (State W I K)
  | .worker p ok => (workerStep w (pid p) s.world ok (s.worker p)).map fun r =>
    { s with world := r.1, worker := Function.update s.worker p r.2 }
  | .kill p =>
    if s.worker p = .done ∨ s.worker p = .exited then none
    else some { s with worker := Function.update s.worker p .exited }
  | .init i ok => (initStep s.world ok (s.init i)).map fun r =>
    { s with world := r.1, init := Function.update s.init i r.2 }
  | .cleanup k ok => (cleanupStep s.world ok (s.cleanup k)).map fun r =>
    { s with world := r.1, cleanup := Function.update s.cleanup k r.2 }

/-- The three programs on one kernel. -/
def machine (I K : Type*) [DecidableEq I] [DecidableEq K] (w : ℕ) (pid : W → ℕ) :
    Machine (State W I K) (Event W I K) := ⟨step w pid⟩

end Program

/-! ## What a worker's step does -/

/-- The objects of a worker from its `shm_open` to its end. -/
def WorkerPc.handle : WorkerPc → Option Handle
  | .mmap h | .semWait h | .before h | .format h | .load h | .store h _ | .semPost h => some h
  | .semOpen | .shmOpen _ | .done | .exited => none

/-- The objects of a worker that is between its `sem_wait` and its `sem_post`. -/
def WorkerPc.inside : WorkerPc → Option Handle
  | .before h | .format h | .load h | .store h _ | .semPost h => some h
  | .semOpen | .shmOpen _ | .mmap _ | .semWait _ | .done | .exited => none

theorem handle_of_inside {a : WorkerPc} {h : Handle} (ha : a.inside = some h) :
    a.handle = some h := by
  cases a <;> first | exact ha | cases ha

/-- The next call of the worker is one that can fail. -/
def WorkerPc.opening : WorkerPc → Bool
  | .semOpen | .shmOpen _ | .mmap _ => true
  | _ => false

/-- The step of a worker from `a` to `b`, case by case. -/
inductive WorkerEffect (w pid : ℕ) (x y : World) : WorkerPc → WorkerPc → Prop where
  | semOpen (o : ℕ) (hbound : x.sem.bound = some o) (hy : y = x) :
      WorkerEffect w pid x y .semOpen (.shmOpen o)
  | shmOpen (o m : ℕ) (hbound : x.shm.bound = some m) (hy : y = x) :
      WorkerEffect w pid x y (.shmOpen o) (.mmap ⟨m, o⟩)
  | mmap (h : Handle) (hy : y = x) : WorkerEffect w pid x y (.mmap h) (.semWait h)
  | semWait (h : Handle) (v : ℕ) (hval : x.val h.sem = v + 1) (hy : y = x.setVal h.sem v) :
      WorkerEffect w pid x y (.semWait h) (.before h)
  | before (h : Handle) (hy : y = x) : WorkerEffect w pid x y (.before h) (.format h)
  | format (h : Handle) (b : Mybuf) (hmem : x.mem h.mem = some b)
      (hy : y = x.store h.mem { b with buf := message pid b.count }) :
      WorkerEffect w pid x y (.format h) (.load h)
  | load (h : Handle) (b : Mybuf) (hmem : x.mem h.mem = some b) (hy : y = x) :
      WorkerEffect w pid x y (.load h) (.store h b.count)
  | store (h : Handle) (count : ℕ) (b : Mybuf) (hmem : x.mem h.mem = some b)
      (hy : y = x.store h.mem { b with count := (count + 1) % 2 ^ w }) :
      WorkerEffect w pid x y (.store h count) (.semPost h)
  | semPost (h : Handle) (hy : y = x.setVal h.sem (x.val h.sem + 1)) :
      WorkerEffect w pid x y (.semPost h) .done
  | fail (a : WorkerPc) (ha : a.opening) (hy : y = x) : WorkerEffect w pid x y a .exited
  | sigbus (a : WorkerPc) (h : Handle) (ha : a.inside = some h) (hmem : x.mem h.mem = none)
      (hy : y = x) : WorkerEffect w pid x y a .exited

/-- An access either raises `SIGBUS` or is performed. -/
theorem access_cases {Pc : Type*} {x y : World} {m : ℕ} {sigbus b : Pc}
    {k : Mybuf → World × Pc} (h : x.access m sigbus k = (y, b)) :
    (x.mem m = none ∧ y = x ∧ b = sigbus) ∨ ∃ c, x.mem m = some c ∧ k c = (y, b) := by
  unfold World.access at h
  cases hm : x.mem m with
  | none =>
    rw [hm] at h
    obtain ⟨rfl, rfl⟩ := Prod.mk.inj h
    exact .inl ⟨rfl, rfl, rfl⟩
  | some c =>
    rw [hm] at h
    exact .inr ⟨c, rfl, h⟩

/-- A worker inside that accesses its memory object goes on, or it gets `SIGBUS`. -/
theorem WorkerEffect.of_access {w pid : ℕ} {x y : World} {a b : WorkerPc} {h : Handle}
    {k : Mybuf → World × WorkerPc} (ha : a.inside = some h)
    (haccess : x.access h.mem .exited k = (y, b))
    (hk : ∀ c, x.mem h.mem = some c → k c = (y, b) → WorkerEffect w pid x y a b) :
    WorkerEffect w pid x y a b := by
  obtain ⟨hmem, rfl, rfl⟩ | ⟨c, hmem, hc⟩ := access_cases haccess
  · exact .sigbus a h ha hmem rfl
  · exact hk c hmem hc

/-- Every step of a worker is one of these. -/
theorem workerStep_effect {w pid : ℕ} {x y : World} {ok : Bool} {a b : WorkerPc}
    (h : workerStep w pid x ok a = some (y, b)) : WorkerEffect w pid x y a b := by
  cases a with
  | semOpen =>
    simp only [workerStep] at h
    split at h <;> obtain ⟨rfl, rfl⟩ := Prod.mk.inj (Option.some.inj h)
    next o hbound => exact .semOpen o hbound rfl
    · exact .fail _ rfl rfl
  | shmOpen o =>
    simp only [workerStep] at h
    split at h <;> obtain ⟨rfl, rfl⟩ := Prod.mk.inj (Option.some.inj h)
    next m hbound => exact .shmOpen o m hbound rfl
    · exact .fail _ rfl rfl
  | mmap h' =>
    simp only [workerStep] at h
    cases ok <;> obtain ⟨rfl, rfl⟩ := Prod.mk.inj (Option.some.inj h)
    · exact .fail _ rfl rfl
    · exact .mmap h' rfl
  | semWait h' =>
    simp only [workerStep] at h
    split at h
    · cases h
    next v hval =>
      obtain ⟨rfl, rfl⟩ := Prod.mk.inj (Option.some.inj h)
      exact .semWait h' v hval rfl
  | before h' =>
    refine .of_access rfl (Option.some.inj h) fun c _ hk => ?_
    obtain ⟨rfl, rfl⟩ := Prod.mk.inj hk
    exact .before h' rfl
  | format h' =>
    refine .of_access rfl (Option.some.inj h) fun c hmem hk => ?_
    obtain ⟨rfl, rfl⟩ := Prod.mk.inj hk
    exact .format h' c hmem rfl
  | load h' =>
    refine .of_access rfl (Option.some.inj h) fun c hmem hk => ?_
    obtain ⟨rfl, rfl⟩ := Prod.mk.inj hk
    exact .load h' c hmem rfl
  | store h' count =>
    refine .of_access rfl (Option.some.inj h) fun c hmem hk => ?_
    obtain ⟨rfl, rfl⟩ := Prod.mk.inj hk
    exact .store h' count c hmem rfl
  | semPost h' =>
    obtain ⟨rfl, rfl⟩ := Prod.mk.inj (Option.some.inj h)
    exact .semPost h' rfl
  | done => cases h
  | exited => cases h

/-- What a step of `posix_shm_init` does to the names and the semaphores. -/
inductive InitEffect (x y : World) : Prop where
  | keep (hshm : y.shm = x.shm) (hsem : y.sem = x.sem) (hval : y.val = x.val)
  | shmCreate (hbound : x.shm.bound = none) (hshm : y.shm = x.shm.create) (hsem : y.sem = x.sem)
      (hval : y.val = x.val)
  | semCreate (hbound : x.sem.bound = none) (hshm : y.shm = x.shm) (hsem : y.sem = x.sem.create)
      (hval : y.val = Function.update x.val x.sem.fresh 1)

/-- Every step of an init is one of these. -/
theorem initStep_effect {x y : World} {ok : Bool} {a b : InitPc}
    (h : initStep x ok a = some (y, b)) : InitEffect x y := by
  cases a with
  | shmOpen =>
    simp only [initStep] at h
    split at h <;> obtain ⟨rfl, rfl⟩ := Prod.mk.inj (Option.some.inj h)
    · exact .keep rfl rfl rfl
    next hbound => exact .shmCreate hbound rfl rfl rfl
    · exact .keep rfl rfl rfl
  | ftruncate m =>
    cases ok <;> obtain ⟨rfl, rfl⟩ := Prod.mk.inj (Option.some.inj h) <;> exact .keep rfl rfl rfl
  | mmap m =>
    obtain ⟨rfl, rfl⟩ := Prod.mk.inj (Option.some.inj h)
    exact .keep rfl rfl rfl
  | clearCount m | clearBuf m =>
    obtain ⟨-, rfl, rfl⟩ | ⟨c, -, hk⟩ := access_cases (Option.some.inj h)
    · exact .keep rfl rfl rfl
    · obtain ⟨rfl, rfl⟩ := Prod.mk.inj hk
      exact .keep rfl rfl rfl
  | semOpen =>
    simp only [initStep] at h
    split at h <;> obtain ⟨rfl, rfl⟩ := Prod.mk.inj (Option.some.inj h)
    · exact .keep rfl rfl rfl
    next hbound => exact .semCreate hbound rfl rfl rfl
    · exact .keep rfl rfl rfl
  | done | exited => cases h

end LinuxRiscv32.PosixShm

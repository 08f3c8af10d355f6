import LinuxRiscv32.Kernel.Name
import Mathlib.Logic.Function.Basic

/-!
# `pi_sem.h`: one lock, two builds

Reference: `C/pi_sem.h`.

With `USE_PI_SEM` the lock is a mutex in a shared memory file, and `pi_sem_open_or_create` drops its
arguments after the name: every caller runs `_pi_sem_open_or_create`. Without it the macro is
`sem_open` with the arguments of the caller. Both are modelled as a walk through system calls, so
that the calls of other processes can come in between.
-/

namespace LinuxRiscv32.PiSem

open Kernel

/-- Whether `USE_PI_SEM` is defined. -/
inductive Build where
  | pi
  | posix
deriving DecidableEq, Repr

/-- How far an object has come. -/
inductive Phase where
  /-- A file of size 0. -/
  | empty
  /-- A file of the size of a `pi_sem_t`, all zero. -/
  | sized
  /-- The mutex or the semaphore is initialised. -/
  | inited
deriving DecidableEq, Repr

/-- What a handle refers to: a POSIX semaphore, or a shared memory file with a mutex in it. -/
structure Object (P : Type*) where
  phase : Phase
  /-- The process that locked it. -/
  owner : Option P

/-- A new file. -/
def Object.file {P : Type*} : Object P := { phase := .empty, owner := none }

/-- A new semaphore, which `sem_open` initialises before the name refers to it. -/
def Object.semaphore {P : Type*} : Object P := { phase := .inited, owner := none }

/-- `ftruncate(fd, sizeof(pi_sem_t))`, which leaves a file that has this size alone. -/
def Object.truncate {P : Type*} (x : Object P) : Object P :=
  if x.phase = .empty then { x with phase := .sized } else x

/-- `pi_sem_init`: the mutex is unlocked and initialised, whatever it was before. -/
def Object.piSemInit {P : Type*} (_ : Object P) : Object P := { phase := .inited, owner := none }

/-- The name `SEM_NAME` and the objects it was ever bound to. -/
structure World (P : Type*) where
  name : Name
  obj : ℕ → Object P

/-- The name was never bound to an object. -/
def World.absent {P : Type*} : World P := { name := .absent, obj := fun _ => .file }

/-- The name is bound to an object that programs left behind when they were killed. -/
def World.leftover {P : Type*} (x : Object P) : World P :=
  { name := .leftover, obj := fun _ => x }

/-- Change one object. -/
def World.modify {P : Type*} (w : World P) (o : ℕ) (f : Object P → Object P) : World P :=
  { w with obj := Function.update w.obj o (f (w.obj o)) }

/-- Bind the name to a new object. -/
def World.create {P : Type*} (w : World P) (x : Object P) : World P :=
  { name := w.name.create, obj := Function.update w.obj w.name.fresh x }

/-! ## The build with `USE_PI_SEM` -/

/-- The points of `_pi_sem_open_or_create` between its system calls. -/
inductive OpenPc where
  /-- `shm_open(name, O_CREAT | O_EXCL | O_RDWR, 0666)`. -/
  | excl
  /-- `shm_open(name, O_RDWR, 0666)`. -/
  | plain
  | truncate (o : ℕ)
  | mmap (o : ℕ) (created : Bool)
  | init (o : ℕ)
  /-- The handle returned, `none` for `NULL`. -/
  | done (handle : Option ℕ)
  /-- The process touched a page beyond the end of the file. -/
  | sigbus
deriving DecidableEq, Repr

/-- The next system call of `_pi_sem_open_or_create`. With `ok = false` the call fails for a reason
that lies outside the name, such as a full descriptor table. -/
def piSemOpenOrCreate {P : Type*} (w : World P) (ok : Bool) : OpenPc → Option (World P × OpenPc)
  | .excl =>
    match ok, w.name.bound with
    | true, none => some (w.create .file, .truncate w.name.fresh)
    | _, _ => some (w, .plain)
  | .plain =>
    match ok, w.name.bound with
    | true, some o => some (w, .mmap o false)
    | _, _ => some (w, .done none)
  -- the result of `ftruncate` is not checked
  | .truncate o => some (if ok then w.modify o .truncate else w, .mmap o true)
  | .mmap o created =>
    some (w, if ok then if created then .init o else .done (some o) else .done none)
  | .init o =>
    if (w.obj o).phase = .empty then some (w, .sigbus)
    else some (w.modify o .piSemInit, .done (some o))
  | .done _ | .sigbus => none

/-! ## Both builds -/

/-- A call of `pi_sem_open_or_create` that is under way. -/
inductive Opening where
  /-- `sem_open`, with or without `O_CREAT`. -/
  | semOpen (creat : Bool)
  | pi (c : OpenPc)
deriving DecidableEq, Repr

/-- `pi_sem_open_or_create(name, ...)`: only the POSIX build passes the flags on. -/
def openOrCreate (b : Build) (creat : Bool) : Opening :=
  match b with
  | .pi => .pi .excl
  | .posix => .semOpen creat

/-- `sem_open(name, ...)`: one step, as the object gets its value before the name refers to it. -/
def semOpen {P : Type*} (w : World P) (ok creat : Bool) : World P × OpenPc :=
  match ok, w.name.bound with
  | true, some o => (w, .done (some o))
  | true, none =>
    if creat then (w.create .semaphore, .done (some w.name.fresh)) else (w, .done none)
  | false, _ => (w, .done none)

/-- The next system call of `pi_sem_open_or_create`. -/
def openStep {P : Type*} (w : World P) (ok : Bool) : Opening → Option (World P × OpenPc)
  | .semOpen creat => some (semOpen w ok creat)
  | .pi c => piSemOpenOrCreate w ok c

/-! ## Small facts -/

/-- An `ftruncate` does not initialise. -/
theorem Object.truncate_phase_ne {P : Type*} {x : Object P} (h : x.phase ≠ .inited) :
    x.truncate.phase ≠ .inited := by
  unfold Object.truncate
  split
  · exact Phase.noConfusion
  · exact h

@[simp] theorem Object.truncate_owner {P : Type*} (x : Object P) :
    x.truncate.owner = x.owner := by
  unfold Object.truncate
  split <;> rfl

section

variable {P : Type*} (w : World P) (o : ℕ) (f : Object P → Object P) (x : Object P)

@[simp] theorem World.modify_obj_self : (w.modify o f).obj o = f (w.obj o) :=
  Function.update_self o _ _

@[simp] theorem World.create_obj_fresh : (w.create x).obj w.name.fresh = x :=
  Function.update_self _ _ _

end

/-! ## Which object a call gets -/

/-- The object that a call under way has got hold of. -/
def OpenPc.object : OpenPc → Option ℕ
  | .truncate o | .mmap o _ | .init o | .done (some o) => some o
  | .excl | .plain | .done none | .sigbus => none

def Opening.object : Opening → Option ℕ
  | .semOpen _ => none
  | .pi c => c.object

/-- The next system call creates an object. -/
def Opening.creates {P : Type*} (w : World P) (ok : Bool) : Opening → Bool
  | .semOpen creat => ok && creat && w.name.bound.isNone
  | .pi .excl => ok && w.name.bound.isNone
  | .pi _ => false

/-- The next system call gets hold of the object that the name is bound to. -/
def Opening.finds {P : Type*} (w : World P) (ok : Bool) : Opening → Bool
  | .semOpen _ | .pi .plain => ok && w.name.bound.isSome
  | .pi _ => false

/-- What a system call of `pi_sem_open_or_create` does to the name and to the caller's object. -/
inductive OpenEffect {P : Type*} (w w' : World P) (ok : Bool) (c : Opening) (r : OpenPc) :
    Prop where
  | keep (hname : w'.name = w.name) (hobject : ∀ o ∈ r.object, o ∈ c.object)
      (hcreates : c.creates w ok = false)
  | find (o : ℕ) (hname : w'.name = w.name) (hbound : w.name.bound = some o)
      (hobject : r.object = some o) (hfinds : c.finds w ok = true)
      (hcreates : c.creates w ok = false)
  | create (hbound : w.name.bound = none) (hname : w'.name = w.name.create)
      (hobject : r.object = some w.name.fresh) (hcreates : c.creates w ok = true)

/-- Every step of an open has one of these effects. -/
theorem openStep_effect {P : Type*} {w w' : World P} {ok : Bool} {c : Opening} {r : OpenPc}
    (h : openStep w ok c = some (w', r)) : OpenEffect w w' ok c r := by
  cases c with
  | semOpen creat =>
    simp only [openStep, semOpen] at h
    split at h
    next o hbound =>
      obtain ⟨rfl, rfl⟩ := Prod.mk.inj (Option.some.inj h)
      exact .find o rfl hbound rfl (by simp [Opening.finds, hbound])
        (by simp [Opening.creates, hbound])
    next hbound =>
      cases creat <;> obtain ⟨rfl, rfl⟩ := Prod.mk.inj (Option.some.inj h)
      · exact .keep rfl (fun _ h => nomatch h) (by simp [Opening.creates])
      · exact .create hbound rfl rfl (by simp [Opening.creates, hbound])
    next =>
      obtain ⟨rfl, rfl⟩ := Prod.mk.inj (Option.some.inj h)
      exact .keep rfl (fun _ h => nomatch h) (by simp [Opening.creates])
  | pi c =>
    cases c with
    | excl =>
      simp only [openStep, piSemOpenOrCreate] at h
      split at h <;> obtain ⟨rfl, rfl⟩ := Prod.mk.inj (Option.some.inj h)
      next hbound => exact .create hbound rfl rfl (by simp [Opening.creates, hbound])
      next hne =>
        refine .keep rfl (fun _ h => nomatch h) ?_
        simpa [Opening.creates, Option.isSome_iff_ne_none] using hne
    | plain =>
      simp only [openStep, piSemOpenOrCreate] at h
      split at h <;> obtain ⟨rfl, rfl⟩ := Prod.mk.inj (Option.some.inj h)
      next o hbound => exact .find o rfl hbound rfl (by simp [Opening.finds, hbound]) rfl
      · exact .keep rfl (fun _ h => nomatch h) rfl
    | truncate o =>
      obtain ⟨rfl, rfl⟩ := Prod.mk.inj (Option.some.inj h)
      exact .keep (by cases ok <;> rfl) (fun _ h => h) rfl
    | mmap o created =>
      obtain ⟨rfl, rfl⟩ := Prod.mk.inj (Option.some.inj h)
      refine .keep rfl ?_ rfl
      cases ok <;> cases created <;> first | exact fun _ h => h | exact fun _ h => nomatch h
    | init o =>
      simp only [openStep, piSemOpenOrCreate] at h
      split at h <;> obtain ⟨rfl, rfl⟩ := Prod.mk.inj (Option.some.inj h)
      · exact .keep rfl (fun _ h => nomatch h) rfl
      · exact .keep rfl (fun _ h => h) rfl
    | done r => cases h
    | sigbus => cases h

end LinuxRiscv32.PiSem

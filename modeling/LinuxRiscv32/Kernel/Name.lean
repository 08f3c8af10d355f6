import Mathlib.Logic.Basic
import Mathlib.Data.Nat.Notation

/-!
# Names of kernel objects

A name, such as the one passed to `shm_open` or `sem_open`, is bound to an object or to none.
Objects are numbered in the order of their creation, so an object that replaces an unlinked one has
a number of its own. Handles that were opened before keep the old object.
-/

namespace LinuxRiscv32.Kernel

/-- A name, the object it is bound to, and the number of the next object it can be bound to. -/
structure Name where
  bound : Option ℕ
  fresh : ℕ
  bound_lt : ∀ o ∈ bound, o < fresh

namespace Name

/-- A name that no object was ever bound to. -/
def absent : Name := ⟨none, 0, fun _ h => nomatch h⟩

/-- A name left over from an earlier run. -/
def leftover : Name := ⟨some 0, 1, fun _ h => Option.some.inj h ▸ Nat.zero_lt_one⟩

/-- Bind the name to a new object. -/
def create (n : Name) : Name :=
  ⟨some n.fresh, n.fresh + 1, fun _ h => Option.some.inj h ▸ Nat.lt_succ_self _⟩

/-- `shm_unlink`, `sem_unlink`: the name is bound to nothing. -/
def unlink (n : Name) : Name := ⟨none, n.fresh, fun _ h => nomatch h⟩

@[simp] theorem create_bound (n : Name) : n.create.bound = some n.fresh := rfl

@[simp] theorem create_fresh (n : Name) : n.create.fresh = n.fresh + 1 := rfl

@[simp] theorem unlink_fresh (n : Name) : n.unlink.fresh = n.fresh := rfl

end Name

end LinuxRiscv32.Kernel

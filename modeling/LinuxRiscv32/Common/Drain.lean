import LinuxRiscv32.Common.Machine
import Mathlib.Data.List.Nodup
import Mathlib.Data.List.Perm.Basic

/-!
# A worker that is woken by a flag

Items arrive, and every arrival raises one flag: the flag does not count. The worker lowers the flag
before it starts, takes items until it has seen that there are none, and stops. An item that arrives
while it works is taken in this turn or, as the flag is up again, in the next one.

`Drain.inv_run` is the invariant behind this. Whoever simulates the machine forgets no item
(`Drain.items_eq_nil`) and takes none twice (`Drain.taken_nodup`).
-/

namespace Common

variable {ι : Type*}

namespace Drain

/-- What the worker does. -/
inductive Phase where
  | idle
  | draining
  /-- It has seen that there are no items. -/
  | leaving
deriving DecidableEq, Repr

end Drain

/-- The items that were not taken, the flag, the worker, and the items that were taken. -/
structure Drain (ι : Type*) where
  items : List ι
  flag : Bool
  worker : Drain.Phase
  taken : List ι

namespace Drain

inductive Action (ι : Type*) where
  | arrive (i : ι)
  /-- The flag is raised for another reason. -/
  | notify
  | start
  | take (i : ι)
  | none
  | stop
deriving DecidableEq, Repr

def empty : Drain ι := { items := [], flag := false, worker := .idle, taken := [] }

/-- While there are items, the flag is up or the worker takes them; no item is there twice. -/
structure Inv (a : Drain ι) : Prop where
  noticed : a.items ≠ [] → a.flag ∨ a.worker = .draining
  nodup : (a.items ++ a.taken).Nodup

/-- There are no items at first. -/
theorem inv_empty : Inv (empty : Drain ι) := ⟨fun h => absurd rfl h, List.nodup_nil⟩

section Program

variable [DecidableEq ι]

def step (a : Drain ι) : Action ι → Option (Drain ι)
  | .arrive i =>
    if i ∉ a.items ∧ i ∉ a.taken then some { a with items := i :: a.items, flag := true }
    else Option.none
  | .notify => some { a with flag := true }
  | .start =>
    if a.worker = .idle ∧ a.flag then some { a with worker := .draining, flag := false }
    else Option.none
  | .take i =>
    if a.worker = .draining ∧ i ∈ a.items then
      some { a with items := a.items.erase i, taken := i :: a.taken }
    else Option.none
  | .none =>
    if a.worker = .draining ∧ a.items = [] then some { a with worker := .leaving } else Option.none
  | .stop => if a.worker = .leaving then some { a with worker := .idle } else Option.none

def machine (ι : Type*) [DecidableEq ι] : Machine (Drain ι) (Action ι) := ⟨step⟩

variable {a b : Drain ι} {x : Action ι}

/-- Each action leaves the items noticed, and none of them twice. -/
theorem inv_step (ha : Inv a) (h : step a x = some b) : Inv b := by
  obtain ⟨hnoticed, hnodup⟩ := ha
  cases x with
  | arrive i =>
    obtain ⟨⟨hitems, htaken⟩, rfl⟩ := Machine.guard_eq_some.mp h
    refine ⟨fun _ => .inl rfl, List.nodup_cons.mpr ⟨?_, hnodup⟩⟩
    exact fun hmem => (List.mem_append.mp hmem).elim hitems htaken
  | notify =>
    obtain rfl := Option.some.inj h
    exact ⟨fun _ => .inl rfl, hnodup⟩
  | start =>
    obtain ⟨-, rfl⟩ := Machine.guard_eq_some.mp h
    exact ⟨fun _ => .inr rfl, hnodup⟩
  | take i =>
    obtain ⟨⟨hworker, hi⟩, rfl⟩ := Machine.guard_eq_some.mp h
    refine ⟨fun _ => .inr hworker, ?_⟩
    have hperm : (a.items.erase i ++ i :: a.taken).Perm (a.items ++ a.taken) :=
      List.perm_middle.trans ((List.perm_cons_erase hi).symm.append_right a.taken)
    exact hperm.nodup_iff.mpr hnodup
  | none =>
    obtain ⟨⟨-, hitems⟩, rfl⟩ := Machine.guard_eq_some.mp h
    exact ⟨fun hne => absurd hitems hne, hnodup⟩
  | stop =>
    obtain ⟨hworker, rfl⟩ := Machine.guard_eq_some.mp h
    refine ⟨fun hne => (hnoticed hne).imp_right fun hdraining => ?_, hnodup⟩
    rw [hworker] at hdraining
    cases hdraining

/-- Every run leaves the items noticed, and none of them twice. -/
theorem inv_run {xs : List (Action ι)} (h : (machine ι).run empty xs = some b) : Inv b :=
  Machine.invariant_of_step (M := machine ι) (fun _ _ _ => inv_step) inv_empty h

/-- No item is forgotten: while the flag is down and the worker idle, there is none. -/
theorem items_eq_nil {xs : List (Action ι)} (h : (machine ι).run empty xs = some b)
    (hflag : b.flag = false) (hworker : b.worker = .idle) : b.items = [] := by
  by_contra hne
  rcases (inv_run h).noticed hne with hup | hdraining
  · rw [hflag] at hup
    cases hup
  · rw [hworker] at hdraining
    cases hdraining

/-- No item is taken twice. -/
theorem taken_nodup {xs : List (Action ι)} (h : (machine ι).run empty xs = some b) :
    b.taken.Nodup :=
  (inv_run h).nodup.of_append_right

end Program

end Drain

end Common

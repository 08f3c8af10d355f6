import LinuxRiscv32.Common.Machine
import Mathlib.Data.List.Nodup

/-!
# Resources that are acquired in stages

A routine acquires resources one after the other. When a stage fails, what was acquired before is
released, the last first, and so it is when everything is given back later.

* `Machine.Completes` is a list of steps that can be taken to its end, through states with a
  property. It is the hypothesis about a routine that may be interrupted after every step.
* `Stages.machine` performs acquires and releases, and refuses those that are mistakes.
* `Stages.completes_attempt` and `Stages.completes_teardown` are the routines for a list of
  resources. In all their states, what is held is an initial part of the list (`Stages.Within`), so
  a resource is never held without those before it.
* `Stages.run_setup_teardown_iff` is for a routine that goes on behind a stage that fails.
-/

namespace Common

namespace Machine

variable {σ α : Type*} (M : Machine σ α)

/-- The steps can be taken, from `s` to `t`, and all states on the way have the property. -/
structure Completes (P : σ → Prop) (s : σ) (as : List α) (t : σ) : Prop where
  run : M.run s as = some t
  along : M.Along (fun s _ => P s) s as
  last : P t

variable {M} {P Q : σ → Prop} {s t u : σ} {a : α} {as bs : List α}

theorem completes_nil (h : P s) : M.Completes P s [] s where
  run := rfl
  along := along_nil s
  last := h

theorem completes_nil_iff : M.Completes P s [] t ↔ t = s ∧ P s := by
  constructor
  · intro h
    obtain rfl : s = t := Option.some.inj h.run
    exact ⟨rfl, h.last⟩
  · rintro ⟨rfl, h⟩
    exact completes_nil h

/-- The first step is taken, and the rest can be taken behind it. -/
theorem completes_cons_iff :
    M.Completes P s (a :: as) u ↔ P s ∧ ∃ t, M.step s a = some t ∧ M.Completes P t as u := by
  constructor
  · intro h
    obtain ⟨t, hstep, hrun⟩ := M.run_cons_eq_some.mp h.run
    have halong := (along_cons hstep).mp h.along
    exact ⟨halong.1, t, hstep, hrun, halong.2, h.last⟩
  · rintro ⟨hs, t, hstep, h⟩
    exact ⟨M.run_cons_eq_some.mpr ⟨t, hstep, h.run⟩, (along_cons hstep).mpr ⟨hs, h.along⟩, h.last⟩

/-- The state in front of the steps has the property, too. -/
theorem Completes.first (h : M.Completes P s as t) : P s := by
  cases as with
  | nil => exact (completes_nil_iff.mp h).2
  | cons a as => exact (completes_cons_iff.mp h).1

theorem Completes.of_step (h : M.Completes P s (a :: as) u) (hstep : M.step s a = some t) :
    M.Completes P t as u := by
  obtain ⟨-, t', hstep', h'⟩ := completes_cons_iff.mp h
  obtain rfl := Option.some.inj (hstep'.symm.trans hstep)
  exact h'

/-- Two lists of steps, one after the other. -/
theorem Completes.append (h : M.Completes P s as t) (h' : M.Completes P t bs u) :
    M.Completes P s (as ++ bs) u where
  run := M.run_append_eq_some.mpr ⟨t, h.run, h'.run⟩
  along := (along_append h.run).mpr ⟨h.along, h'.along⟩
  last := h'.last

theorem Completes.mono (h : M.Completes P s as t) (hPQ : ∀ s, P s → Q s) :
    M.Completes Q s as t where
  run := h.run
  along x hx := hPQ x.1 (h.along x hx)
  last := hPQ t h.last

end Machine

namespace Stages

inductive Action (ρ : Type*) where
  | acquire (r : ρ)
  | release (r : ρ)
deriving DecidableEq, Repr

section Setup

variable {ρ : Type*} (rs : List ρ)

/-- Acquire the resources in their order. -/
def setup : List (Action ρ) := rs.map .acquire

/-- Release the resources, the last first. -/
def teardown : List (Action ρ) := rs.reverse.map .release

end Setup

variable {ρ : Type*} [DecidableEq ρ]

/-- What is held after an action, the last resource first. It is a mistake to acquire what is held,
and to release anything but the last. -/
def apply (held : List ρ) : Action ρ → Option (List ρ)
  | .acquire r => if r ∈ held then none else some (r :: held)
  | .release r => if held.head? = some r then some held.tail else none

def machine (ρ : Type*) [DecidableEq ρ] : Machine (List ρ) (Action ρ) := { step := apply }

/-- What is held is an initial part of the list. -/
def Within (all held : List ρ) : Prop := held.reverse <+: all

variable {all rs held : List ρ} {r : ρ}

omit [DecidableEq ρ] in
theorem within_nil : Within all [] := List.nil_prefix

omit [DecidableEq ρ] in
/-- A release from the front leaves an initial part. -/
theorem Within.tail (h : Within all (r :: held)) : Within all held := by
  rw [Within, List.reverse_cons] at h
  exact (List.prefix_append held.reverse [r]).trans h

omit [DecidableEq ρ] in
/-- A resource is not held without those that come before it. -/
theorem Within.mem (h : Within all held) {q : ρ} (before : List ρ) {behind : List ρ}
    (hall : all = before ++ r :: behind) (hr : r ∉ before) (hmem : r ∈ held) (hq : q ∈ before) :
    q ∈ held := by
  rw [Within, hall] at h
  rcases List.prefix_or_prefix_of_prefix h (List.prefix_append before (r :: behind)) with hle | hle
  · exact absurd (hle.subset (List.mem_reverse.mpr hmem)) hr
  · exact List.mem_reverse.mp (hle.subset hq)

/-- The stages can be gone through to the end. -/
theorem completes_setup (hall : all.Nodup) (h : held.reverse ++ rs <+: all) :
    (machine ρ).Completes (Within all) held (setup rs) (rs.reverse ++ held) := by
  induction rs generalizing held with
  | nil =>
    rw [List.append_nil] at h
    exact Machine.completes_nil h
  | cons r rs ih =>
    have hheld : Within all held := (List.prefix_append _ _).trans h
    -- what is held comes before `r` in the list, which has no resource twice
    have hnew : r ∉ held := by
      intro hmem
      have hdisjoint := List.disjoint_of_nodup_append (hall.sublist h.sublist)
      exact hdisjoint (List.mem_reverse.mpr hmem) List.mem_cons_self
    have hrest : (r :: held).reverse ++ rs <+: all := by
      rwa [List.reverse_cons, List.append_assoc, List.singleton_append]
    rw [List.reverse_cons, List.append_assoc, List.singleton_append]
    exact Machine.completes_cons_iff.mpr ⟨hheld, r :: held, if_neg hnew, ih hrest⟩

/-- What the stages have acquired can be given back, the last first. -/
theorem completes_teardown (h : rs <+: all) :
    (machine ρ).Completes (Within all) rs.reverse (teardown rs) [] := by
  induction rs using List.reverseRecOn with
  | nil => exact Machine.completes_nil within_nil
  | append_singleton rs r ih =>
    -- the induction is from the end of the list: the last resource is the first to go
    have hheld : Within all (rs ++ [r]).reverse := by
      rwa [Within, List.reverse_reverse]
    rw [List.reverse_append, List.reverse_singleton, List.singleton_append] at hheld ⊢
    rw [teardown, List.reverse_append, List.reverse_singleton, List.singleton_append, List.map_cons]
    exact Machine.completes_cons_iff.mpr
      ⟨hheld, rs.reverse, if_pos rfl, ih ((List.prefix_append rs [r]).trans h)⟩

/-- A routine that fails behind the stages `rs` leaves nothing. -/
theorem completes_attempt (hall : all.Nodup) (h : rs <+: all) :
    (machine ρ).Completes (Within all) [] (setup rs ++ teardown rs) [] := by
  have hsetup : (machine ρ).Completes (Within all) [] (setup rs) (rs.reverse ++ []) :=
    completes_setup hall h
  rw [List.append_nil] at hsetup
  exact hsetup.append (completes_teardown h)

/-- Releases take what is held from its front. -/
theorem run_release_iff {xs left : List ρ} :
    (machine ρ).run held (xs.map .release) = some left ↔ held = xs ++ left := by
  induction xs generalizing held with
  | nil => rw [List.map_nil, Machine.run_nil, Option.some.injEq, List.nil_append]
  | cons x xs ih =>
    rw [List.map_cons, Machine.run_cons_eq_some]
    constructor
    · rintro ⟨t, hstep, hrun⟩
      obtain ⟨hhead, rfl⟩ := Machine.guard_eq_some.mp hstep
      rw [List.cons_append, ← ih.mp hrun]
      exact List.eq_cons_of_mem_head? hhead
    · rintro rfl
      exact ⟨xs ++ left, if_pos rfl, ih.mpr rfl⟩

/-- A teardown of other resources than those that were acquired is a mistake. -/
theorem run_setup_teardown_iff (hrs : rs.Nodup) :
    (machine ρ).run [] (setup rs ++ teardown all) = some [] ↔ rs = all := by
  have hsetup : (machine ρ).Completes (Within rs) [] (setup rs) (rs.reverse ++ []) :=
    completes_setup hrs List.prefix_rfl
  rw [Machine.run_append, hsetup.run, Option.bind_some, teardown, run_release_iff,
    List.append_nil, List.append_nil, List.reverse_inj]

end Stages

end Common

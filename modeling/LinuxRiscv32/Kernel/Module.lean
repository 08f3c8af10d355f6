import LinuxRiscv32.Common.Stages
import Mathlib.Algebra.Order.Ring.Int

/-!
# Loading and unloading a module

The init function of a module is run when it is loaded, and the exit function when it is unloaded.
Both are sequences of calls that change what the module holds, and others may come in between two of
them, as soon as something that the module has registered lets them in. Those who are inside keep
the module from being unloaded (an open file of a character device), or are waited for when the
entrance is taken away (a handler of an interrupt, a store to an attribute in sysfs). Nobody waits
for an open file when an init function fails behind the call that has let it in. A driver that is
bound to its device and unbound is treated in the same way.
-/

namespace LinuxRiscv32.Kernel

open Common

/-- An error that a call returns, which `< 0` and `IS_ERR` recognise. -/
structure Errno where
  code : ℤ
  neg : code < 0

/-- What keeps the module in place for those who are inside. -/
inductive Entrance where
  /-- They hold a reference to the module. -/
  | pins
  /-- The call that takes the entrance away waits until they have left. -/
  | drains
deriving DecidableEq, Repr

/-- The entry points of a module. `τ` is what it holds, `α` are its calls, and `ι` is what the calls
of its init function return. -/
structure Module (τ α ι : Type*) where
  calls : Machine τ α
  /-- What the module holds before it is loaded for the first time. -/
  initially : τ
  init : ι → ℤ × List α
  exit : τ → List α
  /-- Somebody can come in. -/
  «open» : τ → Bool
  entrance : Entrance

namespace Module

/-- Where a module is, with the calls that are still to be made. -/
inductive Status (α : Type*) where
  | absent
  | coming (ret : ℤ) (calls : List α)
  | live
  | going (calls : List α)
deriving DecidableEq, Repr

/-- `users` are those who are inside; one who has come in twice counts twice. -/
structure State (τ α F : Type*) where
  status : Status α
  holds : τ
  users : List F

inductive Event (ι F : Type*) where
  | load (c : ι)
  /-- The init or the exit function makes its next call, or returns. -/
  | act
  | enter (f : F)
  /-- Another reference: a duplicate of a descriptor, or a mapping. -/
  | again (f : F)
  | leave (f : F)
  | unload

section Program

variable {τ α ι F : Type*} [DecidableEq F] (M : Module τ α ι)

/-- One call. -/
def call (s : State τ α F) (a : α) (status : Status α) : Option (State τ α F) :=
  (M.calls.step s.holds a).bind fun r =>
    -- a call that takes the entrance away waits for those who are inside
    if M.entrance = .drains ∧ M.open s.holds ∧ ¬ M.open r ∧ s.users ≠ [] then none
    else some { s with status := status, holds := r }

/-- Nobody is let in by a module that is being unloaded, unless it is waited for. -/
def letsIn (s : State τ α F) : Bool :=
  match s.status with
  | .absent => false
  | .coming _ _ | .live => M.open s.holds
  | .going _ => M.open s.holds && M.entrance = .drains

def step (s : State τ α F) : Event ι F → Option (State τ α F)
  | .load c =>
    match s.status with
    | .absent => some { s with status := .coming (M.init c).1 (M.init c).2 }
    | .coming _ _ | .live | .going _ => none
  | .act =>
    match s.status with
    | .coming ret (a :: as) => M.call s a (.coming ret as)
    | .coming ret [] => some { s with status := if ret < 0 then .absent else .live }
    | .going (a :: as) => M.call s a (.going as)
    | .going [] => some { s with status := .absent }
    | .absent | .live => none
  | .enter f => if M.letsIn s then some { s with users := f :: s.users } else none
  | .again f => if f ∈ s.users then some { s with users := f :: s.users } else none
  | .leave f => if f ∈ s.users then some { s with users := s.users.erase f } else none
  | .unload =>
    match s.status with
    | .live =>
      if M.entrance = .drains ∨ s.users = [] then some { s with status := .going (M.exit s.holds) }
      else none
    | .absent | .coming _ _ | .going _ => none

def machine : Machine (State τ α F) (Event ι F) := { step := M.step }

/-- Nothing is loaded. -/
def start : State τ α F := { status := .absent, holds := M.initially, users := [] }

end Program

/-! ## What is held over whole runs -/

section Staged

variable {τ α ι F : Type*} {M : Module τ α ι} {Idle P : τ → Prop}

/-- The call does not take the entrance away. -/
def Keeps (M : Module τ α ι) (r : τ) (a : α) : Prop :=
  ∀ r', M.calls.step r a = some r' → M.open r → M.open r'

/-- What is held behind an init function that succeeds. -/
def Loaded (M : Module τ α ι) (Idle : τ → Prop) (r : τ) : Prop :=
  ∃ r₀ c, Idle r₀ ∧ 0 ≤ (M.init c).1 ∧ M.calls.run r₀ (M.init c).2 = some r

/-- All calls of the init and the exit function can be made, through states with the property `P`. A
load that fails and an unload leave an idle state, in which nobody comes in. An init function that
succeeds does not close an entrance, if this does not wait for those who are inside. -/
structure Staged (M : Module τ α ι) (Idle P : τ → Prop) : Prop where
  initially : Idle M.initially
  idle : ∀ r, Idle r → P r ∧ M.open r = false
  fails : ∀ r c, Idle r → (M.init c).1 < 0 → ∃ r', M.calls.Completes P r (M.init c).2 r' ∧ Idle r'
  loads : ∀ r c, Idle r → 0 ≤ (M.init c).1 → ∃ r', M.calls.Completes P r (M.init c).2 r'
  unloads : ∀ r, M.Loaded Idle r → ∃ r', M.calls.Completes P r (M.exit r) r' ∧ Idle r'
  keeps : M.entrance = .pins →
    ∀ r c, Idle r → 0 ≤ (M.init c).1 → M.calls.Along M.Keeps r (M.init c).2

/-- What the calls that are still to be made lead to. -/
def Settled (M : Module τ α ι) (Idle P : τ → Prop) (s : State τ α F) : Prop :=
  match s.status with
  | .absent => Idle s.holds
  | .coming ret as =>
    (ret < 0 → ∃ r, M.calls.Completes P s.holds as r ∧ Idle r) ∧
    (0 ≤ ret → (∃ r, M.calls.Completes P s.holds as r ∧ M.Loaded Idle r) ∧
      (M.entrance = .pins → M.calls.Along M.Keeps s.holds as))
  | .live => M.Loaded Idle s.holds
  | .going as => ∃ r, M.calls.Completes P s.holds as r ∧ Idle r

theorem Settled.holds {s : State τ α F} (hM : M.Staged Idle P) (hs : M.Settled Idle P s) :
    P s.holds := by
  obtain ⟨status, holds, users⟩ := s
  cases status with
  | absent => exact (hM.idle holds hs).1
  | coming ret as =>
    rcases lt_or_ge ret 0 with hret | hret
    · obtain ⟨r, hr, -⟩ := hs.1 hret
      exact hr.first
    · obtain ⟨r, hr, -⟩ := (hs.2 hret).1
      exact hr.first
  | live =>
    obtain ⟨r, hr, -⟩ := hM.unloads holds hs
    exact hr.first
  | going as =>
    obtain ⟨r, hr, -⟩ := hs
    exact hr.first

/-- The call that the init or the exit function is about to make. -/
def State.next (s : State τ α F) : Option α :=
  match s.status with
  | .coming _ as | .going as => as.head?
  | .absent | .live => none

/-- The next call is not a mistake. -/
theorem Settled.next {s : State τ α F} {a : α} (hs : M.Settled Idle P s) (ha : s.next = some a) :
    ∃ r, M.calls.step s.holds a = some r := by
  obtain ⟨status, holds, users⟩ := s
  cases status with
  | absent | live => cases ha
  | coming ret as =>
    cases as with
    | nil => cases ha
    | cons a as =>
      obtain rfl := Option.some.inj ha
      -- whether the load will fail or succeed, its calls can all be made
      have hcalls : ∃ r', M.calls.Completes P holds (a :: as) r' := by
        rcases lt_or_ge ret 0 with hret | hret
        · obtain ⟨r', hr', -⟩ := hs.1 hret
          exact ⟨r', hr'⟩
        · obtain ⟨r', hr', -⟩ := (hs.2 hret).1
          exact ⟨r', hr'⟩
      obtain ⟨r', hr'⟩ := hcalls
      obtain ⟨-, r, hr, -⟩ := Machine.completes_cons_iff.mp hr'
      exact ⟨r, hr⟩
  | going as =>
    cases as with
    | nil => cases ha
    | cons a as =>
      obtain rfl := Option.some.inj ha
      obtain ⟨r', hr', -⟩ := hs
      obtain ⟨-, r, hr, -⟩ := Machine.completes_cons_iff.mp hr'
      exact ⟨r, hr⟩

variable [DecidableEq F] {s t : State τ α F} {e : Event ι F}

omit [DecidableEq F] in
theorem call_eq_some {a : α} {status : Status α} (h : M.call s a status = some t) :
    ∃ r, M.calls.step s.holds a = some r ∧ t = { s with status := status, holds := r } ∧
      (M.entrance = .drains → s.users ≠ [] → M.open s.holds → M.open r) := by
  obtain ⟨r, hr, h⟩ := Option.bind_eq_some_iff.mp h
  obtain ⟨hdrained, rfl⟩ := Machine.refusal_eq_some.mp h
  refine ⟨r, hr, rfl, fun hdrains husers hopen => ?_⟩
  by_contra hclosed
  exact hdrained ⟨hdrains, hopen, hclosed, husers⟩

omit [DecidableEq F] in
/-- A call of the init function leaves calls that can be made to their end. -/
theorem settled_coming {a : α} {as : List α} {ret : ℤ} (hs : M.Settled Idle P s)
    (hstatus : s.status = .coming ret (a :: as)) (h : M.call s a (.coming ret as) = some t) :
    M.Settled Idle P t := by
  obtain ⟨r, hr, rfl, -⟩ := call_eq_some h
  rw [Settled, hstatus] at hs
  refine ⟨fun hret => ?_, fun hret => ?_⟩
  · obtain ⟨r', hcalls, hidle⟩ := hs.1 hret
    exact ⟨r', hcalls.of_step hr, hidle⟩
  · obtain ⟨⟨r', hcalls, hloaded⟩, hkeeps⟩ := hs.2 hret
    exact ⟨⟨r', hcalls.of_step hr, hloaded⟩,
      fun hpins => ((Machine.along_cons hr).mp (hkeeps hpins)).2⟩

omit [DecidableEq F] in
/-- A call of the exit function leaves calls that can be made to their end. -/
theorem settled_going {a : α} {as : List α} (hs : M.Settled Idle P s)
    (hstatus : s.status = .going (a :: as)) (h : M.call s a (.going as) = some t) :
    M.Settled Idle P t := by
  obtain ⟨r, hr, rfl, -⟩ := call_eq_some h
  rw [Settled, hstatus] at hs
  obtain ⟨r', hcalls, hidle⟩ := hs
  exact ⟨r', hcalls.of_step hr, hidle⟩

/-- A call of the module, whichever it is. -/
theorem settled_act (hs : M.Settled Idle P s) (h : M.step s .act = some t) :
    M.Settled Idle P t := by
  rw [step] at h
  split at h
  next hstatus => exact settled_coming hs hstatus h
  next ret hstatus =>
    obtain rfl := Option.some.inj h
    rw [Settled, hstatus] at hs
    -- no call is left, so what the calls lead to is what is held now
    by_cases hret : ret < 0
    · obtain ⟨r, hr, hidle⟩ := hs.1 hret
      obtain ⟨rfl, -⟩ := Machine.completes_nil_iff.mp hr
      simp only [Settled, if_pos hret]
      exact hidle
    · obtain ⟨⟨r, hr, hloaded⟩, -⟩ := hs.2 (not_lt.mp hret)
      obtain ⟨rfl, -⟩ := Machine.completes_nil_iff.mp hr
      simp only [Settled, if_neg hret]
      exact hloaded
  next hstatus => exact settled_going hs hstatus h
  next hstatus =>
    obtain rfl := Option.some.inj h
    rw [Settled, hstatus] at hs
    obtain ⟨r, hr, hidle⟩ := hs
    obtain ⟨rfl, -⟩ := Machine.completes_nil_iff.mp hr
    exact hidle
  next => cases h
  next => cases h

/-- Each step leaves the module with calls that can be made to their end. -/
theorem settled_step (hM : M.Staged Idle P) (hs : M.Settled Idle P s) (h : M.step s e = some t) :
    M.Settled Idle P t := by
  cases e with
  | load c =>
    obtain ⟨status, holds, users⟩ := s
    cases status with
    | absent =>
      obtain rfl := Option.some.inj h
      refine ⟨hM.fails holds c hs, fun hret => ⟨?_, fun hpins => hM.keeps hpins holds c hs hret⟩⟩
      obtain ⟨r, hr⟩ := hM.loads holds c hs hret
      exact ⟨r, hr, holds, c, hs, hret, hr.run⟩
    | coming | live | going => cases h
  | act => exact settled_act hs h
  | enter f | again f | leave f =>
    obtain ⟨-, rfl⟩ := Machine.guard_eq_some.mp h
    exact hs
  | unload =>
    obtain ⟨status, holds, users⟩ := s
    cases status with
    | live =>
      obtain ⟨-, rfl⟩ := Machine.guard_eq_some.mp h
      exact hM.unloads holds hs
    | absent | coming | going => cases h

omit [DecidableEq F] in
/-- Nothing is held before the first load. -/
theorem settled_start (hM : M.Staged Idle P) : M.Settled Idle P (M.start : State τ α F) :=
  hM.initially

/-- Every run leaves the module with calls that can be made to their end. -/
theorem settled_of_run (hM : M.Staged Idle P) {es : List (Event ι F)}
    (hrun : M.machine.run M.start es = some t) : M.Settled Idle P t :=
  Machine.invariant_of_step (M := M.machine) (fun _ _ _ => settled_step hM) (settled_start hM)
    hrun

/-! ## Those who are inside -/

/-- Nobody comes in while an init function runs that will fail, unless those who are inside are
waited for. -/
def calm (M : Module τ α ι) (s : State τ α F) (e : Event ι F) : Bool :=
  match e, s.status with
  | .enter _, .coming ret _ => M.entrance = .drains ∨ 0 ≤ ret
  | _, _ => true

omit [DecidableEq F] in
/-- An entrance that drains its users needs no condition. -/
theorem calm_of_drains (h : M.entrance = .drains) (s : State τ α F) (e : Event ι F) :
    M.calm s e := by
  unfold calm
  split
  · exact decide_eq_true (.inl h)
  · rfl

/-- The entrance is open as long as somebody is inside, and those who pin the module are in no
module that is about to leave. -/
def Inside (M : Module τ α ι) (s : State τ α F) : Prop :=
  s.users ≠ [] → M.open s.holds ∧ (M.entrance = .pins →
    s.status = .live ∨ ∃ ret as, s.status = .coming ret as ∧ 0 ≤ ret)

omit [DecidableEq F] in
/-- A call of the init function leaves the users inside. -/
theorem inside_coming {a : α} {as : List α} {ret : ℤ} (hs : M.Settled Idle P s) (hin : M.Inside s)
    (hstatus : s.status = .coming ret (a :: as)) (h : M.call s a (.coming ret as) = some t) :
    M.Inside t := by
  obtain ⟨r, hr, rfl, hdrains⟩ := call_eq_some h
  rw [Settled, hstatus] at hs
  intro husers
  obtain ⟨hopen, hpins⟩ := hin husers
  cases hentrance : M.entrance with
  | pins =>
    -- the load will succeed, and such an init function keeps the entrance open
    rcases hpins hentrance with hlive | ⟨ret', as', hcoming, hret⟩
    · rw [hstatus] at hlive
      cases hlive
    · obtain ⟨rfl, -⟩ := Status.coming.inj (hstatus.symm.trans hcoming)
      have hkeeps := ((Machine.along_cons hr).mp ((hs.2 hret).2 hentrance)).1
      exact ⟨hkeeps r hr hopen, fun _ => .inr ⟨ret, as, rfl, hret⟩⟩
  | drains => exact ⟨hdrains hentrance husers hopen, fun h => by cases h⟩

omit [DecidableEq F] in
/-- A call of the exit function closes no entrance behind a user. -/
theorem inside_going {a : α} {as : List α} (hin : M.Inside s)
    (hstatus : s.status = .going (a :: as)) (h : M.call s a (.going as) = some t) :
    M.Inside t := by
  obtain ⟨r, hr, rfl, hdrains⟩ := call_eq_some h
  intro husers
  obtain ⟨hopen, hpins⟩ := hin husers
  cases hentrance : M.entrance with
  | pins =>
    -- a module that is pinned is not being unloaded
    rw [hstatus] at hpins
    obtain hlive | ⟨ret, as', hcoming, -⟩ := hpins hentrance
    · cases hlive
    · cases hcoming
  | drains => exact ⟨hdrains hentrance husers hopen, fun h => by cases h⟩

omit [DecidableEq F] in
/-- Nobody is inside in an idle state. -/
theorem Inside.users_eq_nil (hM : M.Staged Idle P) (hin : M.Inside s) (hs : Idle s.holds) :
    s.users = [] := by
  by_contra husers
  have hopen := (hin husers).1
  rw [(hM.idle s.holds hs).2] at hopen
  cases hopen

/-- A call of the module, whichever it is, keeps the users inside. -/
theorem inside_act (hM : M.Staged Idle P) (hs : M.Settled Idle P s) (hin : M.Inside s)
    (h : M.step s .act = some t) : M.Inside t := by
  rw [step] at h
  split at h
  next hstatus => exact inside_coming hs hin hstatus h
  next ret hstatus =>
    obtain rfl := Option.some.inj h
    rw [Settled, hstatus] at hs
    intro husers
    by_cases hret : ret < 0
    · obtain ⟨r, hr, hidle⟩ := hs.1 hret
      obtain ⟨rfl, -⟩ := Machine.completes_nil_iff.mp hr
      exact absurd (hin.users_eq_nil hM hidle) husers
    · exact ⟨(hin husers).1, fun _ => .inl (if_neg hret)⟩
  next hstatus => exact inside_going hin hstatus h
  next hstatus =>
    obtain rfl := Option.some.inj h
    rw [Settled, hstatus] at hs
    obtain ⟨r, hr, hidle⟩ := hs
    obtain ⟨rfl, -⟩ := Machine.completes_nil_iff.mp hr
    exact fun husers => absurd (hin.users_eq_nil hM hidle) husers
  next => cases h
  next => cases h

/-- Whoever comes in finds the entrance open, in a module that will not leave. -/
theorem inside_enter {f : F} (hG : M.calm s (.enter f)) (h : M.step s (.enter f) = some t) :
    M.Inside t := by
  obtain ⟨hin, rfl⟩ := Machine.guard_eq_some.mp h
  intro _
  rw [letsIn] at hin
  split at hin
  next => cases hin
  next ret as hstatus =>
    simp only [calm, hstatus, decide_eq_true_eq] at hG
    refine ⟨hin, fun hpins => .inr ⟨ret, as, hstatus, hG.resolve_left ?_⟩⟩
    rw [hpins]
    exact nofun
  next hstatus => exact ⟨hin, fun _ => .inl hstatus⟩
  next hstatus =>
    obtain ⟨hopen, hdrains⟩ := Bool.and_eq_true_iff.mp hin
    rw [decide_eq_true_eq] at hdrains
    exact ⟨hopen, fun hpins => by rw [hdrains] at hpins; cases hpins⟩

/-- Each step keeps whoever is inside behind an open entrance. -/
theorem inside_step (hM : M.Staged Idle P) (hs : M.Settled Idle P s) (hin : M.Inside s)
    (hG : M.calm s e) (h : M.step s e = some t) : M.Inside t := by
  cases e with
  | load c =>
    obtain ⟨status, holds, users⟩ := s
    cases status with
    | absent =>
      obtain rfl := Option.some.inj h
      exact fun husers => absurd (hin.users_eq_nil hM hs) husers
    | coming | live | going => cases h
  | act => exact inside_act hM hs hin h
  | enter f => exact inside_enter hG h
  | again f =>
    obtain ⟨hmem, rfl⟩ := Machine.guard_eq_some.mp h
    exact fun _ => hin (List.ne_nil_of_mem hmem)
  | leave f =>
    obtain ⟨hmem, rfl⟩ := Machine.guard_eq_some.mp h
    exact fun _ => hin (List.ne_nil_of_mem hmem)
  | unload =>
    obtain ⟨status, holds, users⟩ := s
    cases status with
    | live =>
      obtain ⟨hfree, rfl⟩ := Machine.guard_eq_some.mp h
      intro husers
      refine ⟨(hin husers).1, fun hpins => ?_⟩
      rw [hpins] at hfree
      exact absurd (hfree.resolve_left nofun) husers
    | absent | coming | going => cases h

/-- In every run, whoever is inside finds the entrance still open, and what is held has the
property. -/
theorem inside_of_run (hM : M.Staged Idle P) {es : List (Event ι F)}
    (hrun : M.machine.run M.start es = some t)
    (hG : M.machine.Along (fun s e => M.calm s e) M.start es) :
    M.Inside t := by
  have hboth : M.Settled Idle P t ∧ M.Inside t := by
    refine Machine.invariant (M := M.machine) (I := fun s => M.Settled Idle P s ∧ M.Inside s) ?_
      ⟨settled_start hM, fun h => absurd rfl h⟩ hG hrun
    rintro s e u ⟨hs, hin⟩ hGe hstep
    exact ⟨settled_step hM hs hstep, inside_step hM hs hin hGe hstep⟩
  exact hboth.2

end Staged

/-! ## Modules that acquire resources in stages -/

section Stages

open Stages

variable {ρ ι : Type*} [DecidableEq ρ]

/-- A module that others enter through the resource `door`. -/
def ofStages (init : ι → ℤ × List (Action ρ)) (exit : List ρ → List (Action ρ)) (door : ρ)
    (entrance : Entrance) : Module (List ρ) (Action ρ) ι where
  calls := Stages.machine ρ
  initially := []
  init := init
  exit := exit
  «open» held := door ∈ held
  entrance := entrance

/-- The routine acquires all the resources and succeeds, or it fails and releases what it has
acquired. -/
def Attempts (all : List ρ) (r : ℤ × List (Action ρ)) : Prop :=
  (0 ≤ r.1 ∧ r.2 = setup all) ∨ (r.1 < 0 ∧ ∃ done, done <+: all ∧ r.2 = setup done ++ teardown done)

variable {init : ι → ℤ × List (Action ρ)} {exit : List ρ → List (Action ρ)}
  {door : ρ} {entrance : Entrance}

/-- A module in stages that is loaded holds all of them. -/
theorem loaded_ofStages (all : ι → List ρ) (hall : ∀ c, (all c).Nodup)
    (hinit : ∀ c, Attempts (all c) (init c)) {held : List ρ}
    (h : (ofStages init exit door entrance).Loaded (· = []) held) :
    ∃ c, 0 ≤ (init c).1 ∧ held = (all c).reverse := by
  obtain ⟨_, c, rfl, hret, hrun⟩ := h
  refine ⟨c, hret, ?_⟩
  rcases hinit c with ⟨-, hcalls⟩ | ⟨hfail, -⟩
  · have hsetup : (Stages.machine ρ).Completes (Within (all c)) [] (setup (all c))
        ((all c).reverse ++ []) := completes_setup (hall c) (List.prefix_refl (all c))
    rw [List.append_nil, ← hcalls] at hsetup
    exact Option.some.inj (hrun.symm.trans hsetup.run)
  · exact absurd hfail (not_lt.mpr hret)

/-- To acquire something takes no entrance away. -/
theorem keeps_acquire (held : List ρ) (r : ρ) :
    (ofStages init exit door entrance).Keeps held (.acquire r) := by
  intro held' hstep hopen
  obtain ⟨-, rfl⟩ := Machine.refusal_eq_some.mp hstep
  exact decide_eq_true (List.mem_cons_of_mem r (of_decide_eq_true hopen))

/-- A module in stages fits if its init attempts them and its exit gives them back. -/
theorem staged_ofStages (all : ι → List ρ) {P : List ρ → Prop} (hnil : P [])
    (hP : ∀ c held, Within (all c) held → P held) (hall : ∀ c, (all c).Nodup)
    (hinit : ∀ c, Attempts (all c) (init c))
    (hexit : ∀ c, 0 ≤ (init c).1 → exit (all c).reverse = teardown (all c)) :
    (ofStages init exit door entrance).Staged (· = []) P := by
  have hsucceeds (c : ι) (hret : 0 ≤ (init c).1) : (init c).2 = setup (all c) :=
    (hinit c).elim And.right fun h => absurd h.1 (not_lt.mpr hret)
  refine ⟨rfl, ?_, ?_, ?_, fun r hloaded => ?_, ?_⟩
  · rintro _ rfl
    exact ⟨hnil, rfl⟩
  · rintro _ c rfl hret
    obtain ⟨-, done, hdone, hcalls⟩ := (hinit c).resolve_left fun h => absurd hret (not_lt.mpr h.1)
    refine ⟨[], ?_, rfl⟩
    change (Stages.machine ρ).Completes P [] (init c).2 []
    rw [hcalls]
    exact (completes_attempt (hall c) hdone).mono (hP c)
  · rintro _ c rfl hret
    refine ⟨(all c).reverse ++ [], ?_⟩
    change (Stages.machine ρ).Completes P [] (init c).2 ((all c).reverse ++ [])
    rw [hsucceeds c hret]
    exact (completes_setup (hall c) (List.prefix_refl (all c))).mono (hP c)
  · obtain ⟨c, hret, rfl⟩ := loaded_ofStages all hall hinit hloaded
    refine ⟨[], ?_, rfl⟩
    change (Stages.machine ρ).Completes P (all c).reverse (exit (all c).reverse) []
    rw [hexit c hret]
    exact (completes_teardown (List.prefix_refl (all c))).mono (hP c)
  · rintro - _ c rfl hret x hx
    obtain ⟨as₁, as₂, has, -⟩ := Machine.mem_trace _ hx
    have hmem : x.2 ∈ (init c).2 := has ▸ List.mem_append_right as₁ List.mem_cons_self
    rw [hsucceeds c hret] at hmem
    obtain ⟨r, -, hr⟩ := List.mem_map.mp hmem
    rw [← hr]
    exact keeps_acquire x.1 r

end Stages

end Module

end LinuxRiscv32.Kernel

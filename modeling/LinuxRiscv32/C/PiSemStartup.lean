import LinuxRiscv32.Common.Machine
import LinuxRiscv32.C.PiSem
import Mathlib.Tactic.Common

/-!
# Creating and using the priority-inheritance lock

Reference: `C/pi_sem.h` with `USE_PI_SEM`.

Any number of processes call `_pi_sem_open_or_create` on a name that is not bound at first, and then
`pi_sem_wait` and `pi_sem_post` in turns. The one that creates the file sizes it and initialises the
mutex several system calls after the name became visible. `stepSafe_of_plainOpenAfterInit` shows
that the others do no harm if they open the file after that; a mutex that was opened too early can
be locked before it exists and be reset while it is held.
-/

namespace LinuxRiscv32.PiSem.Startup

open Common Kernel

/-- Where a process is: in `_pi_sem_open_or_create`, between the calls of `pi_sem_wait` and
`pi_sem_post`, or stopped, after `NULL` or a `SIGBUS`. -/
inductive Pc where
  | opening (c : OpenPc)
  | ready (o : ℕ)
  | holding (o : ℕ)
  | gone
deriving DecidableEq, Repr

/-- The result of a system call of `_pi_sem_open_or_create`, once it is the last one. -/
def settle : OpenPc → Pc
  | .done (some o) => .ready o
  | .done none | .sigbus => .gone
  | c => .opening c

inductive Call where
  | open (ok : Bool)
  | lock
  | unlock
deriving DecidableEq, Repr

structure State (P : Type*) where
  world : World P
  pc : P → Pc

/-- The name is absent and every process is about to call `_pi_sem_open_or_create`. -/
def init {P : Type*} : State P :=
  { world := .absent, pc := fun _ => .opening .excl }

variable {P : Type*}

/-- `pi_sem_wait` by process `p`, which blocks while the mutex has an owner. A mutex that was not
initialised is all zero and looks unlocked. A file of size 0 raises `SIGBUS`. -/
def piSemWait (w : World P) (p : P) (o : ℕ) : Option (World P × Pc) :=
  if (w.obj o).phase = .empty then some (w, .gone)
  else if (w.obj o).owner.isSome then none
  else some (w.modify o fun x => { x with owner := some p }, .holding o)

/-- `pi_sem_post` by process `p`. The unlock of a mutex with priority inheritance fails with `EPERM`
for everybody but its owner, and the result is not looked at. -/
def piSemPost [DecidableEq P] (w : World P) (p : P) (o : ℕ) : Option (World P × Pc) :=
  some (if (w.obj o).owner = some p then w.modify o fun x => { x with owner := none } else w,
    .ready o)

/-- The world and the next point of process `p` after the call. -/
def call [DecidableEq P] (s : State P) (p : P) : Call → Option (World P × Pc)
  | .open ok =>
    match s.pc p with
    | .opening c => (piSemOpenOrCreate s.world ok c).map fun r => (r.1, settle r.2)
    | _ => none
  | .lock =>
    match s.pc p with
    | .ready o => piSemWait s.world p o
    | _ => none
  | .unlock =>
    match s.pc p with
    | .holding o => piSemPost s.world p o
    | _ => none

def step [DecidableEq P] (s : State P) (l : P × Call) : Option (State P) :=
  (call s l.1 l.2).map fun r => { world := r.1, pc := Function.update s.pc l.1 r.2 }

/-- The processes of `pi_sem.h` on one name. -/
def machine (P : Type*) [DecidableEq P] : Machine (State P) (P × Call) := ⟨step⟩

/-! ## What is asked of a run -/

/-- A step keeps to the life cycle of the mutex: it is locked and unlocked only when it is
initialised, hence in a file that has its size, and initialised only when nobody holds it. -/
def StepSafe (s : State P) (l : P × Call) : Prop :=
  match s.pc l.1, l.2 with
  | .ready o, .lock | .holding o, .unlock =>
    (s.world.obj o).phase = .inited
  | .opening (.init o), .open _ => ∀ q, s.pc q ≠ .holding o
  | _, _ => True

/-- At most one process holds the lock. -/
def OneHolder (s : State P) : Prop :=
  ∀ p q o o', s.pc p = .holding o → s.pc q = .holding o' → p = q

/-- A process that opens the file before its mutex is initialised. -/
def earlyOpen : List (Bool × Call) :=
  [(true, .open true), (false, .open true), (false, .open true), (true, .open true),
    (false, .open true), (false, .lock), (true, .open true), (true, .open true), (true, .lock)]

/-- A process that opens the file after its mutex is initialised. -/
def lateOpen : List (Bool × Call) :=
  [(true, .open true), (false, .open true), (true, .open true), (true, .open true),
    (true, .open true), (false, .open true), (true, .lock), (false, .open true), (true, .unlock),
    (false, .lock)]

/-- It locks the mutex before it is initialised, the initialisation resets it, and then the creator
holds the lock as well. -/
theorem earlyOpen_breaks :
    ¬ ∀ (ls : List (Bool × Call)) (t : State Bool), (machine Bool).run init ls = some t →
      (machine Bool).Along StepSafe init ls ∧ OneHolder t := by
  intro h
  obtain ⟨-, hone⟩ := h earlyOpen _ rfl
  exact absurd (hone true false 0 0 rfl rfl) (by decide)

/-- A plain `shm_open` finds only a mutex whose `pi_sem_init` has completed. -/
def PlainOpenAfterInit (s : State P) (l : P × Call) : Prop :=
  s.pc l.1 = .opening .plain → l.2 = .open true →
    ∀ o ∈ s.world.name.bound, (s.world.obj o).phase = .inited

instance (s : State P) (l : P × Call) : Decidable (PlainOpenAfterInit s l) :=
  inferInstanceAs (Decidable (_ → _ → _))

/-! ## The invariant -/

/-- The file the process created and has not initialised yet. -/
def Pc.creates : Pc → Option ℕ
  | .opening (.truncate o) | .opening (.mmap o true) | .opening (.init o) => some o
  | _ => none

/-- The file the process opened as another one's, or got back from the open. -/
def Pc.uses : Pc → Option ℕ
  | .opening (.mmap o false) | .ready o | .holding o => some o
  | _ => none

/-- What the objects look like from process `p` at the point `c`. -/
structure PcOk (w : World P) (p : P) (c : Pc) : Prop where
  creates : ∀ o ∈ c.creates, w.name.bound = some o ∧ (w.obj o).phase ≠ .inited ∧
    (w.obj o).owner = none
  uses : ∀ o ∈ c.uses, w.name.bound = some o ∧ (w.obj o).phase = .inited
  owner : ∀ o, c = .holding o → (w.obj o).owner = some p

/-- Everybody is in order, and at most one process is creating the file. -/
structure Inv (s : State P) : Prop where
  ok : ∀ p, PcOk s.world p (s.pc p)
  creator : ∀ p q, q ≠ p → (s.pc p).creates ≠ none → (s.pc q).creates = none

/-- A process that knows no file is in order in every world. -/
theorem PcOk.of_none {w : World P} {p : P} {c : Pc} (hc : c.creates = none) (hu : c.uses = none) :
    PcOk w p c where
  creates o ho := by rw [hc] at ho; cases ho
  uses o ho := by rw [hu] at ho; cases ho
  owner o ho := by rw [ho] at hu; cases hu

/-- A process that is creating file `o`. -/
theorem PcOk.of_creates {w : World P} {p : P} {c : Pc} {o : ℕ} (hc : c.creates = some o)
    (hu : c.uses = none) (hbound : w.name.bound = some o) (hphase : (w.obj o).phase ≠ .inited)
    (howner : (w.obj o).owner = none) : PcOk w p c where
  creates o' ho' := by
    obtain rfl : o = o' := Option.some.inj (hc.symm.trans ho')
    exact ⟨hbound, hphase, howner⟩
  uses o' ho' := by rw [hu] at ho'; cases ho'
  owner o' ho' := by rw [ho'] at hu; cases hu

/-- A process that uses file `o`. -/
theorem PcOk.of_uses {w : World P} {p : P} {c : Pc} {o : ℕ} (hc : c.creates = none)
    (hu : c.uses = some o) (hbound : w.name.bound = some o) (hphase : (w.obj o).phase = .inited)
    (howner : c = .holding o → (w.obj o).owner = some p) : PcOk w p c where
  creates o' ho' := by rw [hc] at ho'; cases ho'
  uses o' ho' := by
    obtain rfl : o = o' := Option.some.inj (hu.symm.trans ho')
    exact ⟨hbound, hphase⟩
  owner o' ho' := by
    obtain rfl : o = o' := Option.some.inj (hu.symm.trans (by rw [ho']; rfl))
    exact howner ho'

/-- At first nobody knows a file. -/
theorem inv_init : Inv (init : State P) where
  ok _ := .of_none rfl rfl
  creator _ _ _ _ := rfl

/-- The others know no file while the name is absent. -/
theorem others_of_absent {s : State P} (hs : Inv s) (h : s.world.name.bound = none) (q : P) :
    (s.pc q).creates = none ∧ (s.pc q).uses = none := by
  constructor
  · refine Option.eq_none_iff_forall_ne_some.mpr fun o ho => ?_
    exact absurd (h.symm.trans ((hs.ok q).creates o ho).1) (by simp)
  · refine Option.eq_none_iff_forall_ne_some.mpr fun o ho => ?_
    exact absurd (h.symm.trans ((hs.ok q).uses o ho).1) (by simp)

/-- The others know no file while process `p` is creating it. -/
theorem others_of_creating {s : State P} (hs : Inv s) {p : P} {o : ℕ}
    (hp : (s.pc p).creates = some o) {q : P} (hq : q ≠ p) :
    (s.pc q).creates = none ∧ (s.pc q).uses = none := by
  obtain ⟨hbound, hinit, -⟩ := (hs.ok p).creates o hp
  constructor
  · exact hs.creator p q hq (by simp [hp])
  · refine Option.eq_none_iff_forall_ne_some.mpr fun o' ho' => ?_
    obtain ⟨hbound', hinit'⟩ := (hs.ok q).uses o' ho'
    obtain rfl : o = o' := Option.some.inj (hbound.symm.trans hbound')
    exact hinit hinit'

/-- Changing the owner of an initialised mutex keeps the others in order, if none of them held
it. -/
theorem others_of_setOwner {s : State P} (hs : Inv s) {p : P} {o : ℕ} (x : Option P)
    (hp : (s.pc p).uses = some o) {q : P} (hfree : s.pc q ≠ .holding o) :
    PcOk (s.world.modify o fun y => { y with owner := x }) q (s.pc q) := by
  obtain ⟨hbound, hinit⟩ := (hs.ok p).uses o hp
  -- whatever `q` knows, it is the object that the name is bound to
  have hsame : ∀ o', s.world.name.bound = some o' → o' = o := fun o' h =>
    Option.some.inj (h.symm.trans hbound)
  refine ⟨fun o' ho' => ?_, fun o' ho' => ?_, fun o' ho' => ?_⟩
  · obtain ⟨hbound', hinit', -⟩ := (hs.ok q).creates o' ho'
    exact absurd (hsame o' hbound' ▸ hinit) hinit'
  · obtain ⟨hbound', hinit'⟩ := (hs.ok q).uses o' ho'
    obtain rfl := hsame o' hbound'
    exact ⟨hbound', by simpa using hinit'⟩
  · have hbound' := ((hs.ok q).uses o' (by rw [ho']; rfl)).1
    exact absurd (hsame o' hbound' ▸ ho') hfree

/-! ## One step -/

variable [DecidableEq P]

/-- A step that moves one process preserves the invariant if the process and the others are in
order in the new world. -/
theorem inv_update {s : State P} {w : World P} {p : P} {c : Pc} (hs : Inv s) (hown : PcOk w p c)
    (hothers : ∀ q, q ≠ p → PcOk w q (s.pc q))
    (hcreator : c.creates ≠ none → ∀ q, q ≠ p → (s.pc q).creates = none) :
    Inv { world := w, pc := Function.update s.pc p c } where
  ok := (Function.forall_update_iff s.pc fun q c => PcOk w q c).mpr ⟨hown, hothers⟩
  creator q q' hne hq := by
    by_cases hqp : q = p
    · subst hqp
      have hq0 : c.creates ≠ none := by simpa using hq
      simpa [Function.update_of_ne hne] using hcreator hq0 q' hne
    · have hq0 : (s.pc q).creates ≠ none := by simpa [Function.update_of_ne hqp] using hq
      by_cases hqp' : q' = p
      · subst hqp'
        simpa using not_imp_comm.mp hcreator fun h => hq0 (h q hqp)
      · simpa [Function.update_of_ne hqp'] using hs.creator q q' hne hq0

/-- A step that leaves the world alone, after which the process knows no file it did not know. -/
theorem inv_quiet {s : State P} {p : P} {c : Pc} (hs : Inv s)
    (hcreates : ∀ o ∈ c.creates, o ∈ (s.pc p).creates)
    (huses : ∀ o ∈ c.uses, o ∈ (s.pc p).uses) (hhold : ∀ o, c ≠ .holding o) :
    Inv { world := s.world, pc := Function.update s.pc p c } := by
  refine inv_update hs ⟨fun o ho => (hs.ok p).creates o (hcreates o ho),
    fun o ho => (hs.ok p).uses o (huses o ho), fun o ho => absurd ho (hhold o)⟩
    (fun q _ => hs.ok q) (fun hc q hq => hs.creator p q hq ?_)
  obtain ⟨o, ho⟩ := Option.ne_none_iff_exists'.mp hc
  exact Option.ne_none_iff_exists'.mpr ⟨o, hcreates o ho⟩

/-- A step that leaves the world alone, after which the process knows no file. -/
theorem inv_forget {s : State P} {p : P} {c : Pc} (hs : Inv s) (hcreates : c.creates = none)
    (huses : c.uses = none) : Inv { world := s.world, pc := Function.update s.pc p c } :=
  inv_update hs (.of_none hcreates huses) (fun q _ => hs.ok q) (fun h => absurd hcreates h)

/-- The exclusive open that creates the file. -/
theorem inv_create {s : State P} {p : P} (hs : Inv s) (h : s.world.name.bound = none) :
    Inv { world := s.world.create .file
          pc := Function.update s.pc p (.opening (.truncate s.world.name.fresh)) } := by
  have hobj := World.create_obj_fresh s.world .file
  refine inv_update hs (.of_creates rfl rfl rfl ?_ ?_)
    (fun q _ => .of_none (others_of_absent hs h q).1 (others_of_absent hs h q).2)
    (fun _ q _ => (others_of_absent hs h q).1)
  · rw [hobj]
    exact Phase.noConfusion
  · rw [hobj]
    rfl

/-- The plain open of a file whose mutex is initialised. -/
theorem inv_open {s : State P} {p : P} {o : ℕ} (hs : Inv s) (hbound : s.world.name.bound = some o)
    (hphase : (s.world.obj o).phase = .inited) :
    Inv { world := s.world, pc := Function.update s.pc p (.opening (.mmap o false)) } :=
  inv_update hs (.of_uses rfl rfl hbound hphase Pc.noConfusion) (fun q _ => hs.ok q)
    (fun h => absurd rfl h)

/-- A change that the creating process makes to its file. -/
theorem inv_modify_created {s : State P} {p : P} {o : ℕ} {c : Pc} {f : Object P → Object P}
    (hs : Inv s) (hp : (s.pc p).creates = some o) (hown : PcOk (s.world.modify o f) p c) :
    Inv { world := s.world.modify o f, pc := Function.update s.pc p c } :=
  inv_update hs hown
    (fun _ hq => .of_none (others_of_creating hs hp hq).1 (others_of_creating hs hp hq).2)
    (fun _ _ hq => (others_of_creating hs hp hq).1)

/-- The `ftruncate` of the creating process. -/
theorem inv_truncate {s : State P} {p : P} {o : ℕ} (hs : Inv s)
    (hp : (s.pc p).creates = some o) :
    Inv { world := s.world.modify o Object.truncate
          pc := Function.update s.pc p (.opening (.mmap o true)) } := by
  obtain ⟨hbound, hphase, howner⟩ := (hs.ok p).creates o hp
  refine inv_modify_created hs hp (.of_creates rfl rfl hbound ?_ ?_)
  · rw [World.modify_obj_self]
    exact Object.truncate_phase_ne hphase
  · rw [World.modify_obj_self, Object.truncate_owner]
    exact howner

/-- The `pi_sem_init` of the creating process. -/
theorem inv_piSemInit {s : State P} {p : P} {o : ℕ} (hs : Inv s)
    (hp : (s.pc p).creates = some o) :
    Inv { world := s.world.modify o Object.piSemInit
          pc := Function.update s.pc p (.ready o) } := by
  obtain ⟨hbound, -, -⟩ := (hs.ok p).creates o hp
  refine inv_modify_created hs hp (.of_uses rfl rfl hbound ?_ Pc.noConfusion)
  rw [World.modify_obj_self]
  rfl

/-- One system call of `_pi_sem_open_or_create`. -/
theorem inv_piSemOpenOrCreate {s : State P} {p : P} {ok : Bool} {c r : OpenPc} {w : World P}
    (hs : Inv s) (hp : s.pc p = .opening c)
    (hG : c = .plain → ok = true → ∀ o ∈ s.world.name.bound, (s.world.obj o).phase = .inited)
    (h : piSemOpenOrCreate s.world ok c = some (w, r)) :
    Inv { world := w, pc := Function.update s.pc p (settle r) } := by
  have hcreates : ∀ o ∈ (Pc.opening c).creates, (s.pc p).creates = some o := fun _ h => hp ▸ h
  cases c with
  | excl =>
    simp only [piSemOpenOrCreate] at h
    split at h <;> obtain ⟨rfl, rfl⟩ := Prod.mk.inj (Option.some.inj h)
    · exact inv_create hs ‹_›
    · exact inv_forget hs rfl rfl
  | plain =>
    simp only [piSemOpenOrCreate] at h
    split at h <;> obtain ⟨rfl, rfl⟩ := Prod.mk.inj (Option.some.inj h)
    next o hbound => exact inv_open hs hbound (hG rfl rfl o hbound)
    · exact inv_forget hs rfl rfl
  | truncate o =>
    obtain ⟨rfl, rfl⟩ := Prod.mk.inj (Option.some.inj h)
    cases ok with
    | true => exact inv_truncate hs (hcreates o rfl)
    | false => exact inv_quiet hs (fun _ h => hp ▸ h) (fun _ h => hp ▸ h) (fun _ => Pc.noConfusion)
  | mmap o created =>
    obtain ⟨rfl, rfl⟩ := Prod.mk.inj (Option.some.inj h)
    cases ok with
    | true =>
      cases created <;>
        exact inv_quiet hs (fun _ h => hp ▸ h) (fun _ h => hp ▸ h) (fun _ => Pc.noConfusion)
    | false => cases created <;> exact inv_forget hs rfl rfl
  | init o =>
    simp only [piSemOpenOrCreate] at h
    split at h <;> obtain ⟨rfl, rfl⟩ := Prod.mk.inj (Option.some.inj h)
    · exact inv_forget hs rfl rfl
    · exact inv_piSemInit hs (hcreates o rfl)
  | done r => cases h
  | sigbus => cases h

/-- A change of the owner of the mutex by a process that uses it. -/
theorem inv_setOwner {s : State P} {p : P} {o : ℕ} {c : Pc} (x : Option P) (hs : Inv s)
    (hp : (s.pc p).uses = some o) (hfree : ∀ q, q ≠ p → s.pc q ≠ .holding o)
    (hcreates : c.creates = none) (huses : c.uses = some o) (hx : c = .holding o → x = some p) :
    Inv { world := s.world.modify o fun y => { y with owner := x }
          pc := Function.update s.pc p c } := by
  obtain ⟨hbound, hphase⟩ := (hs.ok p).uses o hp
  exact inv_update hs (.of_uses hcreates huses hbound (by simpa using hphase) (by simpa using hx))
    (fun q hq => others_of_setOwner hs x hp (hfree q hq)) (fun h => absurd hcreates h)

/-- A step that does not open the file too early preserves the invariant. -/
theorem inv_step {s t : State P} {l : P × Call} (hs : Inv s) (hG : PlainOpenAfterInit s l)
    (h : step s l = some t) : Inv t := by
  obtain ⟨p, c⟩ := l
  obtain ⟨⟨w, c'⟩, hcall, rfl⟩ := Option.map_eq_some_iff.mp h
  cases c with
  | «open» ok =>
    simp only [call] at hcall
    split at hcall
    next c hp =>
      obtain ⟨⟨w', r⟩, hopen, hr⟩ := Option.map_eq_some_iff.mp hcall
      obtain ⟨rfl, rfl⟩ := Prod.mk.inj hr
      exact inv_piSemOpenOrCreate hs hp (fun hc hok => hG (hc ▸ hp) (hok ▸ rfl)) hopen
    · cases hcall
  | lock =>
    simp only [call] at hcall
    split at hcall
    next o hp =>
      have huses : (s.pc p).uses = some o := by rw [hp]; rfl
      simp only [piSemWait] at hcall
      split at hcall
      · obtain ⟨rfl, rfl⟩ := Prod.mk.inj (Option.some.inj hcall)
        exact inv_forget hs rfl rfl
      · split at hcall
        · cases hcall
        next hfree =>
          -- a holder would be the owner, but the mutex has none
          obtain ⟨rfl, rfl⟩ := Prod.mk.inj (Option.some.inj hcall)
          refine inv_setOwner _ hs huses (fun q _ hq => hfree ?_) rfl rfl (fun _ => rfl)
          rw [(hs.ok q).owner o hq]
          rfl
    · cases hcall
  | unlock =>
    simp only [call] at hcall
    split at hcall
    next o hp =>
      have huses : (s.pc p).uses = some o := by rw [hp]; rfl
      rw [piSemPost, if_pos ((hs.ok p).owner o hp)] at hcall
      obtain ⟨rfl, rfl⟩ := Prod.mk.inj (Option.some.inj hcall)
      refine inv_setOwner _ hs huses (fun q hne hq => hne ?_) rfl rfl (fun h => nomatch h)
      exact Option.some.inj (((hs.ok q).owner o hq).symm.trans ((hs.ok p).owner o hp))
    · cases hcall

/-! ## Runs -/

omit [DecidableEq P] in
/-- In a state in order every step keeps to the life cycle. -/
theorem stepSafe_of_inv {s : State P} (hs : Inv s) (l : P × Call) : StepSafe s l := by
  obtain ⟨p, c⟩ := l
  unfold StepSafe
  split
  next o hp _ => exact ((hs.ok p).uses o (by rw [show s.pc p = _ from hp]; rfl)).2
  next o hp _ => exact ((hs.ok p).uses o (by rw [show s.pc p = _ from hp]; rfl)).2
  next o _ hp _ =>
    have hcreates : (s.pc p).creates = some o := by rw [show s.pc p = _ from hp]; rfl
    intro q hq
    by_cases hqp : q = p
    · rw [hqp, show s.pc p = _ from hp] at hq
      cases hq
    · have huses := (others_of_creating hs hcreates hqp).2
      rw [hq] at huses
      cases huses
  · trivial

omit [DecidableEq P] in
/-- The mutex has one owner, so at most one process holds it. -/
theorem oneHolder_of_inv {s : State P} (hs : Inv s) : OneHolder s := by
  intro p q o o' hp hq
  have hbound := ((hs.ok p).uses o (by rw [hp]; rfl)).1
  have hbound' := ((hs.ok q).uses o' (by rw [hq]; rfl)).1
  obtain rfl : o = o' := Option.some.inj (hbound.symm.trans hbound')
  exact Option.some.inj (((hs.ok p).owner o hp).symm.trans ((hs.ok q).owner o hq))

/-- **The lock is ready before it is used, as long as nobody opens it too early.** In every run in
which the plain `shm_open` calls find an initialised mutex, every step keeps to the life cycle of
the mutex and every state has at most one holder. -/
theorem stepSafe_of_plainOpenAfterInit {ls : List (P × Call)} {t : State P}
    (hG : (machine P).Along PlainOpenAfterInit init ls) (hrun : (machine P).run init ls = some t) :
    (machine P).Along StepSafe init ls ∧ OneHolder t := by
  have hstep : ∀ (s : State P) (l : P × Call) (t : State P), Inv s → PlainOpenAfterInit s l →
      (machine P).step s l = some t → Inv t := fun _ _ _ => inv_step
  refine ⟨fun x hx => ?_, oneHolder_of_inv (Machine.invariant hstep inv_init hG hrun)⟩
  exact stepSafe_of_inv (Machine.invariant_mem_trace hstep inv_init hG hx) x.2

/-- One process creates the lock and takes it, another one opens it and waits for its turn. -/
theorem stepSafe_late_open :
    (machine Bool).Along StepSafe init lateOpen ∧
      OneHolder (((machine Bool).run init lateOpen).get (by decide)) :=
  stepSafe_of_plainOpenAfterInit (by decide) (Option.some_get _).symm

/-- An open that comes too early is never harmless: the process can go on to use the mutex. -/
theorem early_open_breaks {s : State P} {p : P} {o : ℕ} (hp : s.pc p = .opening .plain)
    (hbound : s.world.name.bound = some o) (hphase : (s.world.obj o).phase ≠ .inited)
    (howner : (s.world.obj o).owner = none) :
    ∃ ls t, (machine P).run s ((p, .open true) :: ls) = some t ∧
      ¬ (machine P).Along StepSafe s ((p, .open true) :: ls) := by
  have hopen : (machine P).step s (p, .open true) = some
      { world := s.world, pc := Function.update s.pc p (.opening (.mmap o false)) } := by
    simp [machine, step, call, hp, piSemOpenOrCreate, hbound, settle]
  have hmmap : (machine P).step
      { world := s.world, pc := Function.update s.pc p (.opening (.mmap o false)) }
      (p, .open true) = some { world := s.world, pc := Function.update s.pc p (.ready o) } := by
    simp [machine, step, call, piSemOpenOrCreate, settle]
  obtain ⟨t, hlock⟩ : ∃ t, (machine P).step
      { world := s.world, pc := Function.update s.pc p (.ready o) } (p, .lock) = some t := by
    by_cases hempty : (s.world.obj o).phase = .empty <;>
      simp [machine, step, call, piSemWait, hempty, howner]
  -- the process maps the file and locks it, or is killed by `SIGBUS` at the lock
  refine ⟨[(p, .open true), (p, .lock)], t, ?_, fun hsafe => hphase ?_⟩
  · rw [Machine.run_cons, hopen, Option.bind_some, Machine.run_cons, hmmap, Option.bind_some,
      Machine.run_cons, hlock, Option.bind_some, Machine.run_nil]
  · rw [Machine.along_cons hopen, Machine.along_cons hmmap, Machine.along_cons hlock] at hsafe
    simpa [StepSafe] using hsafe.2.2.1

end LinuxRiscv32.PiSem.Startup

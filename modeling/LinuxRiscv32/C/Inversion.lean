import LinuxRiscv32.C.BusyWait
import LinuxRiscv32.C.PiSem
import LinuxRiscv32.C.SharedLog
import LinuxRiscv32.Common.PriorityLock

/-!
# `logger`, `payment` and `health` on one processor

Reference: the loops of `main` in `C/logger.c`, `C/payment.c` and `C/health.c`, `C/shared_lock.h`
(`busy_wait_ms`), `C/pi_sem.h`, `C/run_poll_fifo.sh`, `C/cc_poll.sh`, `C/cc_poll_pi.sh`.

`logger` and `health` share a lock, and `payment`, which does not use it, has a priority in between.
With the semaphore of POSIX, `payment` keeps `logger` from leaving its section and `health` waits
for both. With the mutex of `USE_PI_SEM`, `logger` inherits the priority of `health`. There is one
processor and the priorities are strict: a process of a lower one runs only if no process of a
higher one can, so the throttling of real-time processes is switched off.
-/

namespace LinuxRiscv32.Inversion

open Common
open Health (Timespec)
open SharedLog (LoggerPc HealthPc Fd)

inductive Proc where
  | logger
  | payment
  | health
deriving DecidableEq, Repr

instance : Fintype Proc where
  elems := {.logger, .payment, .health}
  complete p := by cases p <;> decide

/-- A policy that `chrt` sets: `-b 0` or `-f prio`. -/
inductive Policy where
  | batch
  | fifo (prio : ℕ)
deriving DecidableEq, Repr

/-- A process without a real-time priority is below all that have one. -/
def Policy.rank : Policy → ℕ
  | .batch => 0
  | .fifo prio => prio

/-- `run_poll_fifo.sh` -/
def runPollFifo : Proc → Policy
  | .logger => .batch
  | .payment => .fifo 50
  | .health => .fifo 90

/-- Where `payment` is: at `read`, at the head of its `for` loop, at the two calls of
`clock_gettime` in `busy_wait_ms(100)`, or behind its loop. -/
inductive PaymentPc where
  | read
  | loop (i : ℕ)
  | start (i : ℕ)
  | busy (i : ℕ) (t1 : Timespec)
  | exited
deriving DecidableEq

/-- The two programs that share the lock; whether the timer has expired, whether the client of
`health` has sent something, whether there is something to read for `payment`; and `payment`. -/
structure State where
  shared : SharedLog.State
  tfd : Bool
  client : Bool
  request : Bool
  payment : PaymentPc

/-- What comes from outside, the calls of `logger` and `health`, and the steps of `payment`. With
`closed`, `read` returns no bytes. -/
inductive Event where
  | expire
  | clientData
  | request
  | shared (e : SharedLog.Event)
  | read (closed : Bool)
  | line
  | clock (t : Timespec)
  | finish
deriving DecidableEq

/-- The process that makes a call. -/
def callProc : SharedLog.Event → Proc
  | .wait p | .post p =>
    match p with
    | .logger => .logger
    | .health => .health
  | .poll _ | .loggerRead _ | .loggerPrint _ _ => .logger
  | .epollWait _ _ | .timerRead _ | .clientRead _ | .printCheck _ | .clock _ | .printWaited _
  | .command _ => .health

def Event.proc : Event → Option Proc
  | .expire | .clientData | .request => none
  | .shared e => some (callProc e)
  | .read _ | .line | .clock _ | .finish => some .payment

/-- The descriptor has something to read. -/
def State.readable (s : State) : Fd → Bool
  | .tfd => s.tfd
  | .client => s.client

/-- `epoll_wait` returns with at least one descriptor, and only with readable ones. -/
def State.reports (s : State) : SharedLog.Event → Bool
  | .epollWait _ fds => !fds.isEmpty && fds.all s.readable
  | _ => true

/-- The state after a call. What is left behind a `read` counts as new. -/
def State.after (s : State) (e : SharedLog.Event) (shared : SharedLog.State) : State :=
  match e with
  | .timerRead _ => { s with shared := shared, tfd := false }
  | .clientRead _ => { s with shared := shared, client := false }
  | _ => { s with shared := shared }

def step (s : State) : Event → Option State
  | .expire => some { s with tfd := true }
  | .clientData => some { s with client := true }
  | .request => some { s with request := true }
  | .shared e => if s.reports e then (SharedLog.step s.shared e).map (s.after e) else none
  | .read closed =>
    match s.payment with
    | .read =>
      if s.request then
        some { s with request := false, payment := if closed then .exited else .loop 0 }
      else none
    | _ => none
  | .line =>
    match s.payment with
    | .loop i => if i < 20 then some { s with payment := .start i } else none
    | _ => none
  | .clock t =>
    match s.payment with
    | .start i => some { s with payment := .busy i t }
    | .busy i t1 =>
      some { s with payment := if BusyWait.elapsed t1 t ≥ 100 then .loop (i + 1) else .busy i t1 }
    | _ => none
  | .finish =>
    match s.payment with
    | .loop i => if i < 20 then none else some { s with payment := .read }
    | _ => none

/-! ## What the scheduler sees -/

/-- The process is at `pi_sem_wait`. -/
def State.waiting (s : State) : Proc → Bool
  | .logger =>
    match s.shared.logger with
    | .wait => true
    | _ => false
  | .health =>
    match s.shared.health with
    | .timerWait _ _ _ | .clientWait _ _ _ => true
    | _ => false
  | .payment => false

/-- The process is at a call that waits for something from outside, and there is nothing. -/
def State.asleep (s : State) : Proc → Bool
  | .logger => false
  | .health =>
    match s.shared.health with
    | .next _ [] => !s.tfd && !s.client
    | _ => false
  | .payment =>
    match s.payment with
    | .read => !s.request
    | .exited => true
    | _ => false

def demand (s : State) : Demand Proc where
  ready p := !(s.waiting p && s.shared.sem = 0) && !s.asleep p
  waits p := s.waiting p && s.shared.sem = 0
  holds
    | .logger => s.shared.logger.inside
    | .health => s.shared.health.inside
    | .payment => false

/-- The three programs in one of the builds, on one processor. -/
def cpu (b : PiSem.Build) : Cpu State Event Proc where
  machine := ⟨step⟩
  proc := Event.proc
  demand := demand
  prio p := (runPollFifo p).rank
  inherit := b = .pi

/-- The loops begin. -/
def init : State :=
  { shared := SharedLog.init, tfd := false, client := false, request := false, payment := .read }

/-- `health` is blocked at `pi_sem_wait`. -/
def HealthWaits (s : State) : Prop := (demand s).waits .health = true

instance (s : State) : Decidable (HealthWaits s) := inferInstanceAs (Decidable (_ = true))

/-- `health` is at `epoll_wait`, and there is nothing for it. -/
def HealthIdle (s : State) : Prop := s.asleep .health = true

instance (s : State) : Decidable (HealthIdle s) := inferInstanceAs (Decidable (_ = true))

/-- How many calls `logger` has left in its section. -/
def loggerLeft (pc : LoggerPc) : ℕ :=
  match pc with
  | .read => 3
  | .dprintf _ => 2
  | .post => 1
  | .poll | .wait => 0

/-- How many steps `payment` takes at least before it reads again. -/
def PaymentPc.toDo : PaymentPc → ℕ
  | .read | .exited => 0
  | .loop i => 3 * (20 - i) + 1
  | .start i => 3 * (19 - i) + 3
  | .busy i _ => 3 * (19 - i) + 2

/-! ## The lock -/

section Lock

variable {s t : State} {e : Event}

/-- The two programs keep the log of whole sections. -/
def Inv (s : State) : Prop := ∃ a, SharedLog.Sim s.shared a

theorem after_shared (s : State) (e : SharedLog.Event) (u : SharedLog.State) :
    (s.after e u).shared = u := by
  cases e <;> rfl

theorem after_payment (s : State) (e : SharedLog.Event) (u : SharedLog.State) :
    (s.after e u).payment = s.payment := by
  cases e <;> rfl

/-- A call of `logger` or `health` is a step of theirs. -/
theorem shared_step {e : SharedLog.Event} (h : step s (.shared e) = some t) :
    SharedLog.step s.shared e = some t.shared ∧ t.payment = s.payment := by
  obtain ⟨-, h⟩ := Option.ite_none_right_eq_some.mp h
  obtain ⟨u, hu, rfl⟩ := Option.map_eq_some_iff.mp h
  rw [after_shared, after_payment]
  exact ⟨hu, rfl⟩

/-- All other steps leave the two programs alone. -/
theorem shared_eq (h : step s e = some t) (he : ∀ e', e ≠ .shared e') : t.shared = s.shared := by
  cases e with
  | expire | clientData | request =>
    obtain rfl := Option.some.inj h
    rfl
  | shared e => exact absurd rfl (he e)
  | read closed =>
    simp only [step] at h
    split at h
    · obtain ⟨-, rfl⟩ := Machine.guard_eq_some.mp h
      rfl
    · cases h
  | line =>
    simp only [step] at h
    split at h
    · obtain ⟨-, rfl⟩ := Machine.guard_eq_some.mp h
      rfl
    · cases h
  | clock now =>
    simp only [step] at h
    split at h
    · obtain rfl := Option.some.inj h
      rfl
    · obtain rfl := Option.some.inj h
      rfl
    · cases h
  | finish =>
    simp only [step] at h
    split at h
    · obtain ⟨-, rfl⟩ := Machine.refusal_eq_some.mp h
      rfl
    · cases h

/-- The calls of `logger` and `health`. -/
def Event.calls : Event → List SharedLog.Event
  | .shared e => [e]
  | _ => []

/-- A step of the three processes is a run of the two that share the lock. -/
theorem run_calls (h : step s e = some t) :
    SharedLog.machine.run s.shared e.calls = some t.shared := by
  cases e with
  | shared e => exact (SharedLog.machine.run_singleton _ e).trans (shared_step h).1
  | expire | clientData | request | read _ | line | clock _ | finish =>
    rw [shared_eq h fun _ he => Event.noConfusion he]
    rfl

/-- Each step keeps the shared part in order, whatever `payment` does. -/
theorem inv_step (hs : Inv s) (h : step s e = some t) : Inv t := by
  by_cases he : ∃ e', e = .shared e'
  · obtain ⟨e', rfl⟩ := he
    obtain ⟨a, ha⟩ := hs
    obtain ⟨b, -, hb⟩ := SharedLog.sim_step ha (shared_step h).1
    exact ⟨b, hb⟩
  · rw [Inv, shared_eq h fun e' he' => he ⟨e', he'⟩]
    exact hs

/-- `health` is blocked if it is at its `wait` and the lock is taken. -/
theorem healthWaits_iff : HealthWaits s ↔ s.waiting .health = true ∧ s.shared.sem = 0 := by
  simp only [HealthWaits, demand, Bool.and_eq_true, decide_eq_true_eq]

theorem inside_of_waiting (h : s.waiting .health = true) : s.shared.health.inside = false := by
  simp only [State.waiting] at h
  split at h
  next hpc => rw [hpc]; rfl
  next hpc => rw [hpc]; rfl
  · cases h

/-- While `health` waits, `logger` is in its section, and can run. -/
theorem logger_inside (hs : Inv s) (hw : HealthWaits s) : s.shared.logger.inside = true := by
  obtain ⟨a, ha⟩ := hs
  obtain ⟨hwaiting, hsem⟩ := healthWaits_iff.mp hw
  -- the only permit is taken, and not by `health`, which is still in front of its section
  cases hholder : a.holder with
  | none =>
    have := ha.sem
    rw [hholder, if_pos rfl, hsem] at this
    cases this
  | some p =>
    have hin := (ha.inside p).mpr hholder
    cases p with
    | logger => exact hin
    | health =>
      rw [SharedLog.State.inside, inside_of_waiting hwaiting] at hin
      cases hin

/-- Inside its section, `logger` is never blocked. -/
theorem logger_ready (h : s.shared.logger.inside = true) : (demand s).ready .logger = true := by
  cases hpc : s.shared.logger with
  | poll | wait =>
    rw [hpc] at h
    cases h
  | read | dprintf | post => simp [demand, State.waiting, State.asleep, hpc]

end Lock

/-! ## With the mutex of `USE_PI_SEM` -/

section Pi

variable {b : PiSem.Build} {s t : State} {e : Event}

theorem inv_of_step (hs : Inv s) (h : (cpu b).step s e = some t) : Inv t :=
  inv_step hs (Cpu.machine_step h)

/-- What the scheduler lets `logger` and `health` do is a run of the two programs. -/
theorem shared_run {es : List Event} (h : (cpu b).scheduled.run s es = some t) :
    SharedLog.machine.run s.shared (es.flatMap Event.calls) = some t.shared := by
  have hrun := Cpu.machine_run h
  obtain ⟨u, hu, rfl⟩ := Machine.simulation (M := (cpu b).machine) (N := SharedLog.machine)
    (R := fun s u => u = s.shared) (f := fun _ e => e.calls)
    (fun _ _ _ u hu hstep => ⟨_, hu ▸ run_calls hstep, rfl⟩) rfl hrun
  rw [← (cpu b).machine.trace_map_snd hrun, List.flatMap_map]
  exact hu

/-- Every run on the processor keeps the shared part in order. -/
theorem inv_run {es : List Event} (h : (cpu b).scheduled.run init es = some s) : Inv s := by
  obtain ⟨a, -, ha⟩ := SharedLog.sim_run (shared_run h)
  exact ⟨a, ha⟩

/-- `health` is above the two others. -/
theorem prio_lt_health {p : Proc} (hne : p ≠ .health) : (cpu b).prio p < (cpu b).prio .health := by
  show (runPollFifo p).rank < (runPollFifo .health).rank
  cases p with
  | logger | payment => decide
  | health => exact absurd rfl hne

theorem held (hs : Inv s) : (cpu b).Held .health s := fun hw =>
  ⟨.logger, logger_inside hs hw, logger_ready (logger_inside hs hw)⟩

/-- `health` is idle, it waits for the lock, or it can run. -/
theorem health_cases (s : State) :
    HealthIdle s ∨ HealthWaits s ∨ (demand s).ready .health = true := by
  by_cases hidle : HealthIdle s
  · exact .inl hidle
  · by_cases hw : HealthWaits s
    · exact .inr (.inl hw)
    · refine .inr (.inr ?_)
      rw [HealthIdle, Bool.not_eq_true] at hidle
      rw [HealthWaits, Bool.not_eq_true] at hw
      change (!(demand s).waits .health && !s.asleep .health) = true
      rw [hidle, hw]
      rfl

/-- While it waits, `health` cannot be dispatched. -/
theorem not_ready_of_waits (hw : HealthWaits s) : (demand s).ready .health = false := by
  change (!(demand s).waits .health && !s.asleep .health) = false
  rw [show (demand s).waits .health = true from hw]
  rfl

/-- A process below `health` that does not hold the lock runs only if `health` cannot. -/
theorem health_not_ready {p : Proc} (h : (cpu b).Dispatched s p) (hp : (demand s).holds p = false)
    (hne : p ≠ .health) : (demand s).ready .health = false := by
  by_contra hready
  exact Demand.not_dispatched_of_ready (Bool.eq_true_of_not_eq_false hready) hp
    (prio_lt_health hne) h

/-- With the inheritance, `payment` is dispatched only while `health` is idle. -/
theorem idle_of_payment (hs : Inv s) (h : (cpu .pi).step s e = some t)
    (he : e.proc = some .payment) : HealthIdle s := by
  rcases health_cases s with hidle | hw | hready
  · exact hidle
  · -- below a `health` that waits only the holder runs, and `payment` holds nothing
    have hholds := Cpu.holds_of_waits rfl (held hs) hw h he (prio_lt_health (by decide))
    cases hholds
  · rw [health_not_ready (Cpu.dispatched_of_step h he) rfl (by decide)] at hready
    cases hready

/-- While `health` waits, `logger` is the process that runs. -/
theorem logger_dispatched (hs : Inv s) (hw : HealthWaits s) : (cpu .pi).Dispatched s .logger := by
  have hin := logger_inside hs hw
  refine ⟨logger_ready hin, fun q hq => ?_⟩
  -- the holder has inherited the priority of `health`, which nobody exceeds
  have hle : (cpu .pi).prio .health ≤ (demand s).eff true (cpu .pi).prio .logger :=
    Demand.prio_le_eff_of_waits hin hw
  cases q with
  | logger => exact le_rfl
  | payment =>
    have heff : (demand s).eff true (cpu .pi).prio .payment = (cpu .pi).prio .payment :=
      Demand.eff_of_not_holds rfl
    exact heff.trans_le ((prio_lt_health (by decide)).le.trans hle)
  | health => exact absurd (hq.symm.trans (not_ready_of_waits hw)) (by decide)

/-- In its section, every call of `logger` brings it closer to the end. -/
theorem loggerLeft_lt {s t : SharedLog.State} {e : SharedLog.Event} (he : callProc e = .logger)
    (hin : s.logger.inside = true) (h : SharedLog.step s e = some t) :
    loggerLeft t.logger < loggerLeft s.logger := by
  cases SharedLog.performs_of_step h with
  | waitLogger hpc | poll hpc =>
    rw [hpc] at hin
    cases hin
  | @loggerRead read hpc =>
    rw [hpc]
    cases read with
    | none => exact (by decide : 1 < 3)
    | some m => exact Nat.lt_succ_self 2
  | loggerPrint hpc =>
    rw [hpc]
    exact Nat.lt_succ_self 1
  | postLogger hpc =>
    rw [hpc]
    exact Nat.zero_lt_one
  | _ => cases he

theorem callProc_ne (e : SharedLog.Event) : callProc e ≠ .payment := by
  cases e with
  | wait p | post p => cases p <;> exact Proc.noConfusion
  | _ => exact Proc.noConfusion

theorem shared_of_proc {p : Proc} (he : e.proc = some p) (hp : p ≠ .payment) :
    ∃ e', e = .shared e' ∧ callProc e' = p := by
  cases e with
  | shared e' => exact ⟨e', rfl, Option.some.inj he⟩
  | expire | clientData | request => cases he
  | read | line | clock | finish => exact absurd (Option.some.inj he).symm hp

/-- While `health` waits, each step of the holder brings it nearer to its `post`. -/
theorem left_lt (hw : HealthWaits s) (h : (cpu b).step s e = some t) {p : Proc}
    (he : e.proc = some p) (hholds : (demand s).holds p = true) :
    loggerLeft t.shared.logger < loggerLeft s.shared.logger := by
  cases p with
  | payment => cases hholds
  | health =>
    have hout := inside_of_waiting (healthWaits_iff.mp hw).1
    exact absurd (hout.symm.trans hholds) Bool.false_ne_true
  | logger =>
    obtain ⟨e', rfl, he'⟩ := shared_of_proc he (by decide)
    exact loggerLeft_lt he' hholds (shared_step (Cpu.machine_step h)).1

/-- What comes from outside leaves the programs alone. -/
theorem unchanged_of_outside (h : step s e = some t) (he : e.proc = none) :
    t.shared = s.shared ∧ t.payment = s.payment := by
  cases e with
  | expire | clientData | request =>
    obtain rfl := Option.some.inj h
    exact ⟨rfl, rfl⟩
  | shared | read | line | clock | finish => cases he

theorem loggerLeft_le (pc : LoggerPc) : loggerLeft pc ≤ 3 := by
  cases pc <;> simp [loggerLeft]

theorem start_ne_nil : EpollServer.bytes "START" ≠ [] := by decide

theorem start_fits : (EpollServer.bytes "START").length ≤ 127 := by decide

/-- `health` has started its checks, `logger` has entered its section, and the timer expires. -/
def blocked : List Event :=
  [.clientData, .shared (.epollWait "12:00" [.client]),
    .shared (.clientRead (some ⟨EpollServer.bytes "START", start_ne_nil, start_fits⟩)),
    .shared (.wait .health), .shared (.command true), .shared (.post .health),
    .shared (.poll true), .shared (.wait .logger), .expire, .shared (.epollWait "12:00" [.tfd]),
    .shared (.timerRead ⟨60, 0⟩)]

end Pi

/-! ## With the semaphore of POSIX -/

section Posix

variable {s t : State} {e : Event}

/-- `payment` takes one step of its work at a time. -/
theorem toDo_le (h : step s e = some t) (he : e.proc = some .payment) :
    s.payment.toDo ≤ t.payment.toDo + 1 := by
  cases e with
  | expire | clientData | request => cases he
  | shared e =>
    rw [(shared_step h).2]
    exact Nat.le_succ _
  | read closed =>
    cases hpc : s.payment with
    | read | exited => exact Nat.zero_le _
    | _ =>
      simp only [step, hpc] at h
      cases h
  | line =>
    cases hpc : s.payment with
    | loop i =>
      simp only [step, hpc] at h
      obtain ⟨hi, rfl⟩ := Machine.guard_eq_some.mp h
      simp only [PaymentPc.toDo]
      omega
    | _ =>
      simp only [step, hpc] at h
      cases h
  | clock now =>
    cases hpc : s.payment with
    | start i =>
      simp only [step, hpc] at h
      obtain rfl := Option.some.inj h
      exact le_rfl
    | busy i t1 =>
      simp only [step, hpc] at h
      obtain rfl := Option.some.inj h
      simp only
      split
      · simp only [PaymentPc.toDo]
        omega
      · exact Nat.le_succ _
    | _ =>
      simp only [step, hpc] at h
      cases h
  | finish =>
    cases hpc : s.payment with
    | loop i =>
      simp only [step, hpc] at h
      obtain ⟨hi, rfl⟩ := Machine.refusal_eq_some.mp h
      simp only [PaymentPc.toDo]
      omega
    | _ =>
      simp only [step, hpc] at h
      cases h

theorem payment_ready_of_toDo (h : 0 < s.payment.toDo) : (demand s).ready .payment = true := by
  cases hpc : s.payment with
  | read | exited =>
    rw [hpc] at h
    exact absurd h (lt_irrefl 0)
  | loop | start | busy => simp [demand, State.waiting, State.asleep, hpc]

/-- While `health` waits, only `logger` and `payment` can run. -/
theorem prio_lt_payment {p : Proc} (hw : HealthWaits s) (hne : p ≠ .payment)
    (hp : (demand s).ready p = true) : (cpu .posix).prio p < (cpu .posix).prio .payment := by
  cases p with
  | logger => exact (by decide : 0 < 50)
  | payment => exact absurd rfl hne
  | health => exact absurd (hp.symm.trans (not_ready_of_waits hw)) (by decide)

/-- Without the inheritance, `payment` is dispatched while `health` waits. -/
theorem payment_dispatched (hw : HealthWaits s) (hready : (demand s).ready .payment = true) :
    (cpu .posix).Dispatched s .payment := by
  refine ⟨hready, fun q hq => ?_⟩
  show (demand s).eff false _ q ≤ (demand s).eff false _ .payment
  rw [Demand.eff_false, Demand.eff_false]
  by_cases hne : q = .payment
  · rw [hne]
  · exact (prio_lt_payment hw hne hq).le

theorem healthWaits_congr (h : t.shared = s.shared) : HealthWaits t ↔ HealthWaits s := by
  simp only [HealthWaits, demand, State.waiting, h]

/-- `health` goes on waiting while `logger` and it make no call. -/
theorem waits_along {es : List Event} (hw : HealthWaits s)
    (hes : ∀ e ∈ es, ∀ e', e ≠ .shared e') (hrun : (cpu .posix).scheduled.run s es = some t) :
    (cpu .posix).scheduled.Along (fun s _ => HealthWaits s) s es ∧ HealthWaits t := by
  have hstep : ∀ s e t, HealthWaits s → (∀ e', e ≠ .shared e') →
      (cpu .posix).scheduled.step s e = some t → HealthWaits t := fun s e t hw he h =>
    (healthWaits_congr (shared_eq (Cpu.machine_step h) he)).mpr hw
  have halong := (Machine.along_iff_forall_mem hrun).mpr hes
  exact ⟨fun x hx => Machine.invariant_mem_trace hstep hw halong hx,
    Machine.invariant hstep hw halong hrun⟩

/-! ### A payment is processed -/

/-- One pass of the `for` loop, which takes a second from `now` on. -/
def pass (now : ℕ) : List Event := [.line, .clock ⟨now, 0⟩, .clock ⟨now + 1, 0⟩]

/-- A request arrives at the time `now` and is processed. -/
def processing (now : ℕ) : List Event :=
  [.request, .read false] ++ (List.range 20).flatMap (fun i => pass (now + i)) ++ [.finish]

theorem elapsed_second (now : ℕ) : BusyWait.elapsed ⟨now, 0⟩ ⟨now + 1, 0⟩ = 1000 := by
  have hcount : BusyWait.msCount ⟨now, 0⟩ ⟨now + 1, 0⟩ = 1000 := by
    simp [BusyWait.msCount]
  rw [BusyWait.elapsed, hcount]
  decide

/-- While `health` waits, a step of `payment` is taken whenever `payment` can run. -/
theorem payment_step (hw : HealthWaits s) (hready : (demand s).ready .payment = true)
    (he : e.proc = some .payment) (h : step s e = some t) :
    (cpu .posix).scheduled.step s e = some t := by
  refine Cpu.step_eq_some.mpr ⟨fun p hp => ?_, h⟩
  obtain rfl : Proc.payment = p := Option.some.inj (he.symm.trans hp)
  exact payment_dispatched hw hready

/-- What comes from outside is not scheduled. -/
theorem outside_step (he : e.proc = none) (h : step s e = some t) :
    (cpu .posix).scheduled.step s e = some t := by
  refine Cpu.step_eq_some.mpr ⟨fun p hp => ?_, h⟩
  exact absurd (he.symm.trans hp).symm (Option.some_ne_none p)

/-- One pass of the loop of `payment`, with `health` waiting. -/
theorem run_pass {i : ℕ} (hw : HealthWaits s) (hpc : s.payment = .loop i) (hi : i < 20)
    (now : ℕ) :
    (cpu .posix).scheduled.run s (pass now) = some { s with payment := .loop (i + 1) } := by
  obtain ⟨shared, tfd, client, request, payment⟩ := s
  obtain rfl : payment = .loop i := hpc
  have hwaits (pc : PaymentPc) : HealthWaits ⟨shared, tfd, client, request, pc⟩ :=
    (healthWaits_congr rfl).mpr hw
  refine Machine.run_cons_eq_some _ |>.mpr ⟨⟨shared, tfd, client, request, .start i⟩, ?_, ?_⟩
  · exact payment_step hw (payment_ready_of_toDo (Nat.succ_pos _)) rfl (if_pos hi)
  refine Machine.run_cons_eq_some _ |>.mpr
    ⟨⟨shared, tfd, client, request, .busy i ⟨now, 0⟩⟩, ?_, ?_⟩
  · exact payment_step (hwaits _) (payment_ready_of_toDo (Nat.succ_pos _)) rfl rfl
  rw [Machine.run_singleton]
  refine payment_step (hwaits _) (payment_ready_of_toDo (Nat.succ_pos _)) rfl ?_
  simp only [step, elapsed_second]
  rfl

/-- The passes of the loop of `payment`, one after the other. -/
theorem run_passes {k : ℕ} (hw : HealthWaits s) (hpc : s.payment = .loop 0) (hk : k ≤ 20)
    (now : ℕ) :
    (cpu .posix).scheduled.run s ((List.range k).flatMap fun i => pass (now + i)) =
      some { s with payment := .loop k } := by
  induction k with
  | zero =>
    rw [← hpc]
    rfl
  | succ k ih =>
    rw [List.range_succ, List.flatMap_append]
    refine Machine.run_append_eq_some _ |>.mpr ⟨_, ih (Nat.le_of_succ_le hk), ?_⟩
    rw [List.flatMap_singleton]
    have hwaits : HealthWaits { s with payment := .loop k } := (healthWaits_congr rfl).mpr hw
    exact run_pass hwaits rfl hk _

/-- The processing of one request. -/
theorem run_processing (hw : HealthWaits s) (hpc : s.payment = .read) (now : ℕ) :
    (cpu .posix).scheduled.run s (processing now) = some { s with request := false } := by
  obtain ⟨shared, tfd, client, request, payment⟩ := s
  obtain rfl : payment = .read := hpc
  have hwaits (r : Bool) (pc : PaymentPc) : HealthWaits ⟨shared, tfd, client, r, pc⟩ :=
    (healthWaits_congr rfl).mpr hw
  refine Machine.run_append_eq_some _ |>.mpr ⟨_, Machine.run_append_eq_some _ |>.mpr
    ⟨⟨shared, tfd, client, false, .loop 0⟩, ?_, run_passes (hwaits _ _) rfl le_rfl now⟩, ?_⟩
  · refine Machine.run_cons_eq_some _ |>.mpr ⟨⟨shared, tfd, client, true, .read⟩, ?_, ?_⟩
    · exact outside_step rfl rfl
    · rw [Machine.run_singleton]
      exact payment_step (hwaits _ _) rfl rfl rfl
  · rw [Machine.run_singleton]
    exact payment_step (hwaits _ _) (payment_ready_of_toDo (Nat.succ_pos _)) rfl rfl

/-- `n` requests, the first of them at the time `now`. -/
def requests (n now : ℕ) : List Event :=
  (List.range n).flatMap fun i => processing (now + 20 * i)

/-- `payment` processes any number of requests while `health` waits. -/
theorem run_requests (hw : HealthWaits s) (hpc : s.payment = .read) (n now : ℕ) :
    ∃ t, (cpu .posix).scheduled.run s (requests n now) = some t ∧ t.shared = s.shared ∧
      t.payment = .read := by
  induction n with
  | zero => exact ⟨s, rfl, rfl, hpc⟩
  | succ n ih =>
    -- behind the first `n` requests `payment` is back at `read`
    obtain ⟨t, hrun, hshared, hread⟩ := ih
    have hnext := run_processing ((healthWaits_congr hshared).mpr hw) hread (now + 20 * n)
    refine ⟨{ t with request := false }, ?_, hshared, hread⟩
    rw [requests, List.range_succ, List.flatMap_append, List.flatMap_singleton]
    exact Machine.run_append_eq_some _ |>.mpr ⟨t, hrun, hnext⟩

theorem ne_shared_of_mem_requests {n now : ℕ} (he : e ∈ requests n now) (e' : SharedLog.Event) :
    e ≠ .shared e' := by
  rintro rfl
  simp [requests, processing, pass] at he

theorem count_finish_requests (n now : ℕ) : (requests n now).count .finish = n := by
  have hpassing (now : ℕ) : (processing now).count .finish = 1 := by
    simp [processing, pass, List.count_flatMap, Function.comp_def]
  rw [requests, List.count_flatMap]
  simp [Function.comp_def, hpassing]

/-- **Inversion with the semaphore.** In the build without `USE_PI_SEM`, from every state in which
`health` is blocked on the lock: if `payment` can run, it is the process that runs; neither `logger`
nor `health` makes a call before `payment` has taken all the steps that its work needs; and any
number of requests may be processed while `health` goes on waiting. -/
theorem inversion_of_posix (hw : HealthWaits s) :
    ((demand s).ready .payment = true → ∀ p, (cpu .posix).Dispatched s p ↔ p = .payment) ∧
    (∀ es' t, (cpu .posix).scheduled.run s es' = some t →
      (∃ e ∈ es', ∃ p, e.proc = some p ∧ p ≠ .payment) →
        s.payment.toDo ≤ (cpu .posix).stepsOf .payment es') ∧
    ∀ n, s.payment = .read → ∃ es' t, (cpu .posix).scheduled.run s es' = some t ∧
      es'.count .finish = n ∧
      (cpu .posix).scheduled.Along (fun s _ => HealthWaits s) s es' ∧ HealthWaits t := by
  refine ⟨fun hready p => ⟨fun hp => ?_, fun hp => ?_⟩, fun es' t hrun' hmoved => ?_,
    fun n hpc => ?_⟩
  · by_contra hne
    exact Demand.not_dispatched_of_lt hready (prio_lt_payment hw hne hp.1) hp
  · rw [hp]
    exact payment_dispatched hw hready
  · -- as long as only `payment` moves, the lock stays as it is
    refine Cpu.le_steps (C := cpu .posix) (m := .payment) (K := HealthWaits)
      (ν := fun s => s.payment.toDo) rfl ?_ (fun _ _ => payment_ready_of_toDo)
      (fun _ _ => prio_lt_payment) (fun _ _ _ h he => toDo_le (Cpu.machine_step h) he)
      (fun _ _ _ h he => ?_) hw hrun' hmoved
    · intro s e t hw h honly
      refine (healthWaits_congr (shared_eq (Cpu.machine_step h) ?_)).mpr hw
      rintro e' rfl
      exact callProc_ne e' (honly _ rfl)
    · rw [(unchanged_of_outside (Cpu.machine_step h) he).2]
  · obtain ⟨t, hrun', hshared, -⟩ := run_requests hw hpc n 0
    exact ⟨_, t, hrun', count_finish_requests n 0,
      waits_along hw (fun e he e' => ne_shared_of_mem_requests he e') hrun'⟩

/-- `health` is blocked after the same calls as above, and the lock is a semaphore. -/
theorem inversion_blocked :
    let s := ((cpu .posix).scheduled.run init blocked).get (by decide)
    ((demand s).ready .payment = true → ∀ p, (cpu .posix).Dispatched s p ↔ p = .payment) ∧
    (∀ es' t, (cpu .posix).scheduled.run s es' = some t →
      (∃ e ∈ es', ∃ p, e.proc = some p ∧ p ≠ .payment) →
        s.payment.toDo ≤ (cpu .posix).stepsOf .payment es') ∧
    ∀ n, s.payment = .read → ∃ es' t, (cpu .posix).scheduled.run s es' = some t ∧
      es'.count .finish = n ∧
      (cpu .posix).scheduled.Along (fun s _ => HealthWaits s) s es' ∧ HealthWaits t :=
  inversion_of_posix (by decide)

end Posix

end LinuxRiscv32.Inversion

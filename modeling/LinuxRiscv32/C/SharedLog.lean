import LinuxRiscv32.C.Health
import LinuxRiscv32.Common.AtomicLog

/-!
# The log shared by `logger` and `health`

Reference: the loops of `main` in `C/logger.c` and `C/health.c`.

Both programs append to one file and take the same semaphore around it. Here every system call of
the two loops is a step, and the steps interleave. The branches of the loops enter and leave the
critical section at different places; whatever the calls return, the log is that of `AtomicLog`.
-/

namespace LinuxRiscv32.SharedLog

open Common
open Health (Timespec Line)
open Logger (Received)

inductive Proc where
  | logger
  | health
deriving DecidableEq, Repr

/-- A line of the shared log. -/
inductive Entry where
  | record (r : Logger.Record)
  | line (l : Line)
deriving DecidableEq

def Entry.text : Entry → List EpollServer.Byte
  | .record r => r.text
  | .line l => l.text.toUTF8.data.toList

/-- Where `logger` is: at `poll`, at `pi_sem_wait`, at `read`, at `dprintf` or at `pi_sem_post`. -/
inductive LoggerPc where
  | poll
  | wait
  | read
  | dprintf (m : Received 255)
  | post

/-- A descriptor that `epoll_wait` reports to `health`. -/
inductive Fd where
  | tfd
  | client
deriving DecidableEq, Repr

/-- Where `health` is. `next` is the head of the `for` loop, with the events that are left of the
batch; without any, it is `epoll_wait`. In the branch of the timer, `health` waits, writes a line,
takes the time again and may write a second line; in the branch of the client, it waits and carries
out the command. -/
inductive HealthPc where
  | next (tbuf : String) (fds : List Fd)
  | timerWait (tbuf : String) (fds : List Fd) (t1 : Timespec)
  | timerCheck (tbuf : String) (fds : List Fd) (t1 : Timespec)
  | timerClock (tbuf : String) (fds : List Fd) (t1 : Timespec)
  | timerWaited (tbuf : String) (fds : List Fd) (delayMs : ℤ)
  | clientWait (tbuf : String) (fds : List Fd) (m : Received 127)
  | clientCommand (tbuf : String) (fds : List Fd) (m : Received 127)
  | post (tbuf : String) (fds : List Fd)
deriving DecidableEq

/-- The value of the semaphore, the two programs with their variables, and what they have appended.
-/
structure State where
  sem : ℕ
  logger : LoggerPc
  cnt : ℤ
  health : HealthPc
  running : ℤ
  log : List Entry

/-- The bytes that the two have appended to `SHARED_LOG`. -/
def State.file (s : State) : List EpollServer.Byte := s.log.flatMap Entry.text

/-- The calls in the loops and what they return. With `ok = false`, a `dprintf` appends nothing. -/
inductive Event where
  | wait (p : Proc)
  | post (p : Proc)
  | poll (ready : Bool)
  | loggerRead (read : Option (Received 255))
  | loggerPrint (tbuf : String) (ok : Bool)
  | epollWait (tbuf : String) (fds : List Fd)
  | timerRead (t1 : Timespec)
  | clientRead (read : Option (Received 127))
  | printCheck (ok : Bool)
  | clock (t2 : Timespec)
  | printWaited (ok : Bool)
  | command (ok : Bool)
deriving DecidableEq

def State.print (s : State) (ok : Bool) (x : Entry) : State :=
  if ok then { s with log := s.log ++ [x] } else s

def step (s : State) : Event → Option State
  | .wait .logger =>
    match s.logger with
    | .wait => if 0 < s.sem then some { s with sem := s.sem - 1, logger := .read } else none
    | _ => none
  | .wait .health =>
    match s.health with
    | .timerWait tbuf fds t1 =>
      if 0 < s.sem then some { s with sem := s.sem - 1, health := .timerCheck tbuf fds t1 }
      else none
    | .clientWait tbuf fds m =>
      if 0 < s.sem then some { s with sem := s.sem - 1, health := .clientCommand tbuf fds m }
      else none
    | _ => none
  | .post .logger =>
    match s.logger with
    | .post => some { s with sem := s.sem + 1, logger := .poll }
    | _ => none
  | .post .health =>
    match s.health with
    | .post tbuf fds => some { s with sem := s.sem + 1, health := .next tbuf fds }
    | _ => none
  | .poll ready =>
    match s.logger with
    | .poll => some { s with logger := if ready then .wait else .poll }
    | _ => none
  | .loggerRead read =>
    match s.logger with
    | .read => some { s with logger := read.elim .post .dprintf }
    | _ => none
  | .loggerPrint tbuf ok =>
    match s.logger with
    | .dprintf m =>
      let r := Logger.record tbuf s.cnt m
      some { s.print ok (.record r) with logger := .post, cnt := r.cnt }
    | _ => none
  | .epollWait tbuf fds =>
    match s.health with
    | .next _ [] => if fds.Nodup then some { s with health := .next tbuf fds } else none
    | _ => none
  | .timerRead t1 =>
    match s.health with
    | .next tbuf (.tfd :: fds) =>
      some { s with health := if s.running ≠ 0 then .timerWait tbuf fds t1 else .next tbuf fds }
    | _ => none
  | .clientRead read =>
    match s.health with
    | .next tbuf (.client :: fds) =>
      some { s with health := read.elim (.next tbuf fds) (.clientWait tbuf fds) }
    | _ => none
  | .printCheck ok =>
    match s.health with
    | .timerCheck tbuf fds t1 =>
      let line := Line.check tbuf (t1.sec.tmod 1000) (t1.nsec.tdiv 1000000)
      some { s.print ok (.line line) with health := .timerClock tbuf fds t1 }
    | _ => none
  | .clock t2 =>
    match s.health with
    | .timerClock tbuf fds t1 =>
      let delayMs := Health.delayMs t1 t2
      some { s with
        health := if delayMs > 10 then .timerWaited tbuf fds delayMs else .post tbuf fds }
    | _ => none
  | .printWaited ok =>
    match s.health with
    | .timerWaited tbuf fds delayMs =>
      some { s.print ok (.line (.waited tbuf delayMs)) with health := .post tbuf fds }
    | _ => none
  | .command ok =>
    match s.health with
    | .clientCommand tbuf fds m =>
      match Health.command m with
      | some c =>
        some { s.print ok (.line (c.line tbuf)) with
          running := c.running, health := .post tbuf fds }
      | none => some { s with health := .post tbuf fds }
    | _ => none

/-- The two loops. -/
def machine : Machine State Event := ⟨step⟩

/-- The loops begin, with the semaphore that `logger` has created. -/
def init : State :=
  { sem := 1, logger := .poll, cnt := 0, health := .next "" [], running := 0, log := [] }

/-! ## `health` on its own -/

/-- `health` with the results of one event of its loop. -/
def State.handled (s : State) (tbuf : String) (fds : List Fd) (e : Health.Event) : State :=
  let r := Health.Loop.handle { running := s.running, log := [] } e
  { s with health := .next tbuf fds, running := r.running, log := s.log ++ r.log.map .line }

section Alone

variable {s : State} {tbuf : String} {fds : List Fd}

/-- The branch of `health` for the timer, without a break. -/
theorem run_timer (hsem : 0 < s.sem) (hrunning : s.running ≠ 0)
    (hhealth : s.health = .next tbuf (.tfd :: fds)) (t1 t2 : Timespec) :
    machine.run s ([.timerRead t1, .wait .health, .printCheck true, .clock t2] ++
      (if Health.delayMs t1 t2 > 10 then [.printWaited true] else []) ++ [.post .health]) =
      some (s.handled tbuf fds (.timer tbuf t1 t2)) := by
  obtain ⟨sem, logger, cnt, health, running, log⟩ := s
  obtain rfl : health = _ := hhealth
  obtain ⟨n, rfl⟩ : ∃ n, sem = n + 1 := ⟨sem - 1, (Nat.sub_add_cancel hsem).symm⟩
  by_cases hdelay : Health.delayMs t1 t2 > 10
  · simp only [if_pos hdelay, machine, Machine.run, step, if_pos hrunning, Option.bind_some,
      State.print, State.handled, Health.Loop.handle, Health.timerLines, List.cons_append,
      List.nil_append, List.append_assoc, List.map_cons, List.map_nil, Nat.zero_lt_succ, if_true,
      Nat.add_one_sub_one]
  · simp only [if_neg hdelay, machine, Machine.run, step, if_pos hrunning, Option.bind_some,
      State.print, State.handled, Health.Loop.handle, Health.timerLines, List.cons_append,
      List.nil_append, List.append_nil, List.map_cons, List.map_nil, Nat.zero_lt_succ, if_true,
      Nat.add_one_sub_one]

/-- The branch for a command, without a break. -/
theorem run_client (hsem : 0 < s.sem) (hhealth : s.health = .next tbuf (.client :: fds))
    (m : Received 127) :
    machine.run s [.clientRead (some m), .wait .health, .command true, .post .health] =
      some (s.handled tbuf fds (.client tbuf (some m))) := by
  obtain ⟨sem, logger, cnt, health, running, log⟩ := s
  obtain rfl : health = _ := hhealth
  obtain ⟨n, rfl⟩ : ∃ n, sem = n + 1 := ⟨sem - 1, (Nat.sub_add_cancel hsem).symm⟩
  cases hcommand : Health.command m with
  | none =>
    simp only [machine, Machine.run, step, Option.elim_some, Option.bind_some, hcommand,
      State.handled, Health.Loop.handle, List.map_nil, List.append_nil, Nat.zero_lt_succ, if_true,
      Nat.add_one_sub_one]
  | some c =>
    simp only [machine, Machine.run, step, Option.elim_some, Option.bind_some, hcommand,
      State.print, State.handled, Health.Loop.handle, List.nil_append, List.map_cons, List.map_nil,
      Nat.zero_lt_succ, if_true, Nat.add_one_sub_one]

end Alone

/-! ## The steps -/

section Steps

variable {s t : State} {e : Event}

@[simp] theorem State.print_sem (s : State) (ok : Bool) (x : Entry) :
    (s.print ok x).sem = s.sem := by
  cases ok <;> rfl

@[simp] theorem State.print_logger (s : State) (ok : Bool) (x : Entry) :
    (s.print ok x).logger = s.logger := by
  cases ok <;> rfl

@[simp] theorem State.print_health (s : State) (ok : Bool) (x : Entry) :
    (s.print ok x).health = s.health := by
  cases ok <;> rfl

/-- The places in which a call is made, and the state behind it. -/
inductive Performs (s : State) : Event → State → Prop
  | waitLogger (hpc : s.logger = .wait) (hpos : 0 < s.sem) :
      Performs s (.wait .logger) { s with sem := s.sem - 1, logger := .read }
  | waitTimer {tbuf : String} {fds : List Fd} {t1 : Timespec}
      (hpc : s.health = .timerWait tbuf fds t1) (hpos : 0 < s.sem) :
      Performs s (.wait .health) { s with sem := s.sem - 1, health := .timerCheck tbuf fds t1 }
  | waitClient {tbuf : String} {fds : List Fd} {m : Received 127}
      (hpc : s.health = .clientWait tbuf fds m) (hpos : 0 < s.sem) :
      Performs s (.wait .health) { s with sem := s.sem - 1, health := .clientCommand tbuf fds m }
  | postLogger (hpc : s.logger = .post) :
      Performs s (.post .logger) { s with sem := s.sem + 1, logger := .poll }
  | postHealth {tbuf : String} {fds : List Fd} (hpc : s.health = .post tbuf fds) :
      Performs s (.post .health) { s with sem := s.sem + 1, health := .next tbuf fds }
  | poll {ready : Bool} (hpc : s.logger = .poll) :
      Performs s (.poll ready) { s with logger := if ready then .wait else .poll }
  | loggerRead {read : Option (Received 255)} (hpc : s.logger = .read) :
      Performs s (.loggerRead read) { s with logger := read.elim .post .dprintf }
  | loggerPrint {tbuf : String} {ok : Bool} {m : Received 255} (hpc : s.logger = .dprintf m) :
      Performs s (.loggerPrint tbuf ok)
        { s.print ok (.record (Logger.record tbuf s.cnt m)) with
          logger := .post, cnt := (Logger.record tbuf s.cnt m).cnt }
  | epollWait {tbuf tbuf' : String} {fds : List Fd} (hpc : s.health = .next tbuf' [])
      (hfds : fds.Nodup) : Performs s (.epollWait tbuf fds) { s with health := .next tbuf fds }
  | timerRead {tbuf : String} {fds : List Fd} {t1 : Timespec}
      (hpc : s.health = .next tbuf (.tfd :: fds)) :
      Performs s (.timerRead t1)
        { s with
          health := if s.running ≠ 0 then .timerWait tbuf fds t1 else .next tbuf fds }
  | clientRead {tbuf : String} {fds : List Fd} {read : Option (Received 127)}
      (hpc : s.health = .next tbuf (.client :: fds)) :
      Performs s (.clientRead read)
        { s with health := read.elim (.next tbuf fds) (.clientWait tbuf fds) }
  | printCheck {tbuf : String} {fds : List Fd} {t1 : Timespec} {ok : Bool}
      (hpc : s.health = .timerCheck tbuf fds t1) :
      Performs s (.printCheck ok)
        { s.print ok (.line (.check tbuf (t1.sec.tmod 1000) (t1.nsec.tdiv 1000000))) with
          health := .timerClock tbuf fds t1 }
  | clock {tbuf : String} {fds : List Fd} {t1 t2 : Timespec}
      (hpc : s.health = .timerClock tbuf fds t1) :
      Performs s (.clock t2)
        { s with
          health :=
            if Health.delayMs t1 t2 > 10 then .timerWaited tbuf fds (Health.delayMs t1 t2)
            else .post tbuf fds }
  | printWaited {tbuf : String} {fds : List Fd} {delayMs : ℤ} {ok : Bool}
      (hpc : s.health = .timerWaited tbuf fds delayMs) :
      Performs s (.printWaited ok)
        { s.print ok (.line (.waited tbuf delayMs)) with health := .post tbuf fds }
  | follow {tbuf : String} {fds : List Fd} {m : Received 127} {c : Health.Command} {ok : Bool}
      (hpc : s.health = .clientCommand tbuf fds m) (hcommand : Health.command m = some c) :
      Performs s (.command ok)
        { s.print ok (.line (c.line tbuf)) with running := c.running, health := .post tbuf fds }
  | ignore {tbuf : String} {fds : List Fd} {m : Received 127} {ok : Bool}
      (hpc : s.health = .clientCommand tbuf fds m) (hcommand : Health.command m = none) :
      Performs s (.command ok) { s with health := .post tbuf fds }

/-- Every step is one of these. -/
theorem performs_of_step (h : step s e = some t) : Performs s e t := by
  obtain ⟨sem, logger, cnt, health, running, log⟩ := s
  cases e with
  | wait p =>
    cases p with
    | logger =>
      cases logger with
      | wait =>
        obtain ⟨hpos, rfl⟩ := Machine.guard_eq_some.mp h
        exact .waitLogger rfl hpos
      | _ => cases h
    | health =>
      cases health with
      | timerWait tbuf fds t1 =>
        obtain ⟨hpos, rfl⟩ := Machine.guard_eq_some.mp h
        exact .waitTimer rfl hpos
      | clientWait tbuf fds m =>
        obtain ⟨hpos, rfl⟩ := Machine.guard_eq_some.mp h
        exact .waitClient rfl hpos
      | _ => cases h
  | post p =>
    cases p with
    | logger =>
      cases logger with
      | post =>
        obtain rfl := Option.some.inj h
        exact .postLogger rfl
      | _ => cases h
    | health =>
      cases health with
      | post tbuf fds =>
        obtain rfl := Option.some.inj h
        exact .postHealth rfl
      | _ => cases h
  | poll ready =>
    cases logger with
    | poll =>
      obtain rfl := Option.some.inj h
      exact .poll rfl
    | _ => cases h
  | loggerRead read =>
    cases logger with
    | read =>
      obtain rfl := Option.some.inj h
      exact .loggerRead rfl
    | _ => cases h
  | loggerPrint tbuf ok =>
    cases logger with
    | dprintf m =>
      obtain rfl := Option.some.inj h
      exact .loggerPrint rfl
    | _ => cases h
  | epollWait tbuf fds =>
    cases health with
    | next tbuf' fds' =>
      cases fds' with
      | nil =>
        obtain ⟨hfds, rfl⟩ := Machine.guard_eq_some.mp h
        exact .epollWait rfl hfds
      | cons fd fds' => cases h
    | _ => cases h
  | timerRead t1 =>
    cases health with
    | next tbuf fds =>
      cases fds with
      | nil => cases h
      | cons fd fds =>
        cases fd with
        | tfd =>
          obtain rfl := Option.some.inj h
          exact .timerRead rfl
        | client => cases h
    | _ => cases h
  | clientRead read =>
    cases health with
    | next tbuf fds =>
      cases fds with
      | nil => cases h
      | cons fd fds =>
        cases fd with
        | tfd => cases h
        | client =>
          obtain rfl := Option.some.inj h
          exact .clientRead rfl
    | _ => cases h
  | printCheck ok =>
    cases health with
    | timerCheck tbuf fds t1 =>
      obtain rfl := Option.some.inj h
      exact .printCheck rfl
    | _ => cases h
  | clock t2 =>
    cases health with
    | timerClock tbuf fds t1 =>
      obtain rfl := Option.some.inj h
      exact .clock rfl
    | _ => cases h
  | printWaited ok =>
    cases health with
    | timerWaited tbuf fds delayMs =>
      obtain rfl := Option.some.inj h
      exact .printWaited rfl
    | _ => cases h
  | command ok =>
    cases health with
    | clientCommand tbuf fds m =>
      cases hcommand : Health.command m with
      | none =>
        simp only [step, hcommand] at h
        obtain rfl := Option.some.inj h
        exact .ignore rfl hcommand
      | some c =>
        simp only [step, hcommand] at h
        obtain rfl := Option.some.inj h
        exact .follow rfl hcommand
    | _ => cases h

end Steps

/-! ## Critical sections -/

/-- Between `pi_sem_wait` and `pi_sem_post`. -/
def LoggerPc.inside : LoggerPc → Bool
  | .read | .dprintf _ | .post => true
  | .poll | .wait => false

/-- Between `pi_sem_wait` and `pi_sem_post`. -/
def HealthPc.inside : HealthPc → Bool
  | .timerCheck .. | .timerClock .. | .timerWaited .. | .clientCommand .. | .post .. => true
  | .next .. | .timerWait .. | .clientWait .. => false

def State.inside (s : State) : Proc → Bool
  | .logger => s.logger.inside
  | .health => s.health.inside

/-- How many of the two are inside. -/
def State.holders (s : State) : ℕ := (s.inside .logger).toNat + (s.inside .health).toNat

def Entry.proc : Entry → Proc
  | .record _ => .logger
  | .line _ => .health

/-- The lines that a process appends in one section. -/
def Proc.maxLines : Proc → ℕ
  | .logger => 1
  | .health => 2

/-- A step as an action on the log: taking and giving back the semaphore, or the line that it
appends. -/
def action (x : State × Event) : Option (AtomicLog.Action Proc Entry) :=
  match x.2 with
  | .wait p => some (.enter p)
  | .post p => some (.leave p)
  | _ => ((step x.1 x.2).bind fun t => t.log[x.1.log.length]?).map fun e => .append e.proc e

/-- The actions of a run. -/
def actions (tr : List (State × Event)) : List (AtomicLog.Action Proc Entry) := tr.filterMap action

/-- How many lines the process may have appended since `pi_sem_wait`. -/
def LoggerPc.written : LoggerPc → ℕ
  | .post => 1
  | .poll | .wait | .read | .dprintf _ => 0

/-- How many lines the process may have appended since `pi_sem_wait`. -/
def HealthPc.written : HealthPc → ℕ
  | .timerClock .. | .timerWaited .. => 1
  | .post .. => 2
  | .next .. | .timerWait .. | .timerCheck .. | .clientWait .. | .clientCommand .. => 0

def State.written (s : State) : Proc → ℕ
  | .logger => s.logger.written
  | .health => s.health.written

theorem LoggerPc.written_le (pc : LoggerPc) : pc.written ≤ Proc.maxLines .logger := by
  cases pc <;> simp [LoggerPc.written, Proc.maxLines]

theorem HealthPc.written_le (pc : HealthPc) : pc.written ≤ Proc.maxLines .health := by
  cases pc <;> simp [HealthPc.written, Proc.maxLines]

theorem written_le (s : State) (p : Proc) : s.written p ≤ p.maxLines := by
  cases p with
  | logger => exact s.logger.written_le
  | health => exact s.health.written_le

/-- What a step does to the semaphore, the log and the places of the two processes. -/
inductive Effect (s t : State) (e : Event) : Prop where
  | keep (hact : action (s, e) = none) (hsem : t.sem = s.sem) (hlog : t.log = s.log)
      (hinside : ∀ q, t.inside q = s.inside q) (hwritten : ∀ q, s.written q ≤ t.written q)
  | print (x : Entry) (hact : action (s, e) = some (.append x.proc x)) (hsem : t.sem = s.sem)
      (hlog : t.log = s.log ++ [x]) (hin : s.inside x.proc = true)
      (hinside : ∀ q, t.inside q = s.inside q)
      (hwritten : s.written x.proc + 1 ≤ t.written x.proc)
  | enter (p : Proc) (he : e = .wait p) (hsem : s.sem = t.sem + 1) (hlog : t.log = s.log)
      (hout : s.inside p = false) (hinside : ∀ q, t.inside q = (s.inside q || q = p))
  | leave (p : Proc) (he : e = .post p) (hsem : t.sem = s.sem + 1) (hlog : t.log = s.log)
      (hin : s.inside p = true) (hinside : ∀ q, t.inside q = (s.inside q && q ≠ p))

/-- The process that waits or posts. -/
def Event.sem : Event → Option Proc
  | .wait p | .post p => some p
  | _ => none

/-- Any other event than `wait` and `post` is the line that it appends. -/
theorem action_of_sem_eq_none {s : State} {e : Event} (he : e.sem = none) :
    action (s, e) =
      ((step s e).bind fun t => t.log[s.log.length]?).map fun x => .append x.proc x := by
  cases e with
  | wait p | post p => cases he
  | _ => rfl

theorem action_eq_none {s t : State} {e : Event} (h : step s e = some t) (hlog : t.log = s.log)
    (he : e.sem = none) : action (s, e) = none := by
  rw [action_of_sem_eq_none he, h, Option.bind_some, hlog, List.getElem?_eq_none le_rfl,
    Option.map_none]

theorem action_eq_append {s t : State} {e : Event} {x : Entry} (h : step s e = some t)
    (hlog : t.log = s.log ++ [x]) (he : e.sem = none) :
    action (s, e) = some (.append x.proc x) := by
  rw [action_of_sem_eq_none he, h, Option.bind_some, hlog, List.getElem?_concat_length,
    Option.map_some]

section Moves

variable {s t : State} {e : Event}

/-- A step of `logger` on one side of the semaphore. -/
theorem Effect.loggerMove (h : step s e = some t) (he : e.sem = none) (hsem : t.sem = s.sem)
    (hlog : t.log = s.log) (hhealth : t.health = s.health)
    (hinside : t.logger.inside = s.logger.inside) (hwritten : s.logger.written ≤ t.logger.written) :
    Effect s t e := by
  refine .keep (action_eq_none h hlog he) hsem hlog (fun q => ?_) (fun q => ?_)
  · cases q with
    | logger => exact hinside
    | health => exact congrArg HealthPc.inside hhealth
  · cases q with
    | logger => exact hwritten
    | health => exact (congrArg HealthPc.written hhealth).ge

/-- A step of `health` on one side of the semaphore. -/
theorem Effect.healthMove (h : step s e = some t) (he : e.sem = none) (hsem : t.sem = s.sem)
    (hlog : t.log = s.log) (hlogger : t.logger = s.logger)
    (hinside : t.health.inside = s.health.inside) (hwritten : s.health.written ≤ t.health.written) :
    Effect s t e := by
  refine .keep (action_eq_none h hlog he) hsem hlog (fun q => ?_) (fun q => ?_)
  · cases q with
    | logger => exact congrArg LoggerPc.inside hlogger
    | health => exact hinside
  · cases q with
    | logger => exact (congrArg LoggerPc.written hlogger).ge
    | health => exact hwritten

/-- A line of `health`, or nothing. -/
theorem Effect.healthPrint {l : Line} {ok : Bool} (h : step s e = some t) (he : e.sem = none)
    (hsem : t.sem = s.sem) (hlog : t.log = (s.print ok (.line l)).log)
    (hlogger : t.logger = s.logger) (hin : s.health.inside = true) (hin' : t.health.inside = true)
    (hwritten : s.health.written + 1 ≤ t.health.written) : Effect s t e := by
  cases ok with
  | false =>
    exact .healthMove h he hsem hlog hlogger (hin'.trans hin.symm) (Nat.le_of_succ_le hwritten)
  | true =>
    refine .print (.line l) (action_eq_append h hlog he) hsem hlog hin (fun q => ?_) hwritten
    cases q with
    | logger => exact congrArg LoggerPc.inside hlogger
    | health => exact hin'.trans hin.symm

/-- `health` finds itself inside after it has waited. -/
theorem Effect.healthWait (hsem : s.sem = t.sem + 1) (hlog : t.log = s.log)
    (hlogger : t.logger = s.logger) (hout : s.health.inside = false)
    (hin : t.health.inside = true) : Effect s t (.wait .health) := by
  refine .enter .health rfl hsem hlog hout fun q => ?_
  cases q with
  | logger => exact (congrArg LoggerPc.inside hlogger).trans (Bool.or_false _).symm
  | health => exact hin.trans (Bool.or_true _).symm

/-- Every step has one of these effects on the log and the lock. -/
theorem step_effect (h : step s e = some t) : Effect s t e := by
  cases performs_of_step h with
  | waitLogger hpc hpos =>
    refine .enter .logger rfl (Nat.sub_add_cancel hpos).symm rfl (congrArg LoggerPc.inside hpc) ?_
    intro q
    cases q with
    | logger => exact (Bool.or_true _).symm
    | health => exact (Bool.or_false _).symm
  | waitTimer hpc hpos | waitClient hpc hpos =>
    exact .healthWait (Nat.sub_add_cancel hpos).symm rfl rfl (congrArg HealthPc.inside hpc) rfl
  | postLogger hpc =>
    refine .leave .logger rfl rfl rfl (congrArg LoggerPc.inside hpc) fun q => ?_
    cases q with
    | logger => exact (Bool.and_false _).symm
    | health => exact (Bool.and_true _).symm
  | postHealth hpc =>
    refine .leave .health rfl rfl rfl (congrArg HealthPc.inside hpc) fun q => ?_
    cases q with
    | logger => exact (Bool.and_true _).symm
    | health => exact (Bool.and_false _).symm
  | @poll ready hpc =>
    refine .loggerMove h rfl rfl rfl rfl ?_ ?_ <;> rw [hpc]
    · cases ready <;> rfl
    · exact Nat.zero_le _
  | @loggerRead read hpc =>
    refine .loggerMove h rfl rfl rfl rfl ?_ ?_ <;> rw [hpc]
    · cases read <;> rfl
    · exact Nat.zero_le _
  | @loggerPrint tbuf ok m hpc =>
    have hinside : LoggerPc.post.inside = s.logger.inside := by
      rw [hpc]
      rfl
    cases ok with
    | false =>
      refine .loggerMove h rfl rfl rfl rfl hinside ?_
      rw [hpc]
      exact Nat.zero_le _
    | true =>
      refine .print _ (action_eq_append h rfl rfl) rfl rfl (congrArg LoggerPc.inside hpc) ?_ ?_
      · intro q
        cases q with
        | logger => exact hinside
        | health => rfl
      · show s.logger.written + 1 ≤ 1
        rw [hpc]
        exact le_rfl
  | epollWait hpc hfds =>
    exact .healthMove h rfl rfl rfl rfl (congrArg HealthPc.inside hpc).symm
      (congrArg HealthPc.written hpc).le
  | @timerRead tbuf fds t1 hpc =>
    refine .healthMove h rfl rfl rfl rfl ?_ ?_ <;> rw [hpc]
    · show (if s.running ≠ 0 then _ else _ : HealthPc).inside = false
      split <;> rfl
    · exact Nat.zero_le _
  | @clientRead tbuf fds read hpc =>
    refine .healthMove h rfl rfl rfl rfl ?_ ?_ <;> rw [hpc]
    · cases read <;> rfl
    · exact Nat.zero_le _
  | printCheck hpc =>
    refine .healthPrint h rfl (s.print_sem _ _) rfl (s.print_logger _ _)
      (congrArg HealthPc.inside hpc) rfl ?_
    rw [hpc]
    exact le_rfl
  | @clock tbuf fds t1 t2 hpc =>
    refine .healthMove h rfl rfl rfl rfl ?_ ?_ <;> rw [hpc] <;> dsimp only <;> split
    · rfl
    · rfl
    · exact le_rfl
    · exact Nat.le_succ 1
  | printWaited hpc =>
    refine .healthPrint h rfl (s.print_sem _ _) rfl (s.print_logger _ _)
      (congrArg HealthPc.inside hpc) rfl ?_
    rw [hpc]
    exact le_rfl
  | follow hpc hcommand =>
    refine .healthPrint h rfl (s.print_sem _ _) rfl (s.print_logger _ _)
      (congrArg HealthPc.inside hpc) rfl ?_
    rw [hpc]
    exact Nat.le_succ 1
  | ignore hpc hcommand =>
    refine .healthMove h rfl rfl rfl rfl ?_ ?_ <;> rw [hpc]
    · rfl
    · exact Nat.zero_le _

/-! ## The log of whole sections -/

/-- A state and the log that it stands for. -/
structure Sim (s : State) (a : AtomicLog Proc Entry) : Prop where
  entries : s.log = a.entries
  inside : ∀ p, s.inside p = true ↔ a.holder = some p
  sem : s.sem = if a.holder = none then 1 else 0
  current : ∀ p, a.holder = some p →
    ∃ xs rest, a.sections = (p, xs) :: rest ∧ xs.length ≤ s.written p
  bound : ∀ b ∈ a.sections, b.2.length ≤ b.1.maxLines

/-- The empty log has no sections. -/
theorem sim_init : Sim init AtomicLog.empty where
  entries := rfl
  inside p := by cases p <;> simp [init, State.inside, LoggerPc.inside, HealthPc.inside,
    AtomicLog.empty]
  sem := rfl
  current p hp := by cases hp
  bound b hb := absurd hb List.not_mem_nil

section Actions

variable {a : AtomicLog Proc Entry} {p : Proc} (hs : Sim s a)

include hs

/-- A step that neither writes nor moves the lock means nothing to the log. -/
theorem Sim.keep (hsem : t.sem = s.sem) (hlog : t.log = s.log)
    (hinside : ∀ q, t.inside q = s.inside q) (hwritten : ∀ q, s.written q ≤ t.written q) :
    Sim t a where
  entries := hlog.trans hs.entries
  inside q := by rw [hinside, hs.inside]
  sem := hsem.trans hs.sem
  current q hq := by
    obtain ⟨xs, rest, hsections, hle⟩ := hs.current q hq
    exact ⟨xs, rest, hsections, hle.trans (hwritten q)⟩
  bound := hs.bound

/-- A line is appended to the section of its writer. -/
theorem Sim.print {x : Entry} (hsem : t.sem = s.sem) (hlog : t.log = s.log ++ [x])
    (hin : s.inside x.proc = true) (hinside : ∀ q, t.inside q = s.inside q)
    (hwritten : s.written x.proc + 1 ≤ t.written x.proc) :
    ∃ b, (AtomicLog.machine Proc Entry).run a [.append x.proc x] = some b ∧ Sim t b := by
  have hholder := (hs.inside x.proc).mp hin
  obtain ⟨xs, rest, hsections, hle⟩ := hs.current x.proc hholder
  have hrun := AtomicLog.run_append (e := x) hholder hsections
  have hlength : (xs ++ [x]).length ≤ t.written x.proc := by
    rw [List.length_append, List.length_singleton]
    exact (Nat.succ_le_succ hle).trans hwritten
  refine ⟨_, hrun, ?_, ?_, ?_, ?_, ?_⟩
  · rw [hlog, hs.entries, AtomicLog.entries_run hrun]
    rfl
  · exact fun q => by rw [hinside, hs.inside]
  · rw [hsem, hs.sem]
  · intro q hq
    obtain rfl : x.proc = q := Option.some.inj (hholder.symm.trans hq)
    exact ⟨_, _, rfl, hlength⟩
  · have hbound := hs.bound
    rw [hsections, List.forall_mem_cons] at hbound
    exact List.forall_mem_cons.mpr ⟨hlength.trans (written_le t x.proc), hbound.2⟩

/-- A `wait` that returns begins a section. -/
theorem Sim.enter (hsem : s.sem = t.sem + 1) (hlog : t.log = s.log)
    (hinside : ∀ q, t.inside q = (s.inside q || q = p)) :
    ∃ b, (AtomicLog.machine Proc Entry).run a [.enter p] = some b ∧ Sim t b := by
  -- the semaphore is free, so nobody is inside
  have hnone : a.holder = none := by
    by_contra hsome
    have := hs.sem
    rw [if_neg hsome] at this
    omega
  have hrun := AtomicLog.run_enter (β := Entry) (p := p) hnone
  refine ⟨_, hrun, ?_, ?_, ?_, ?_, ?_⟩
  · rw [hlog, hs.entries, AtomicLog.entries_run hrun]
    exact (List.append_nil _).symm
  · intro q
    have hq : s.inside q = false := by
      rw [Bool.eq_false_iff, Ne, hs.inside, hnone]
      exact (Option.some_ne_none q).symm
    rw [hinside, hq, Bool.false_or, decide_eq_true_eq, Option.some.injEq, eq_comm]
  · have := hs.sem
    rw [if_pos hnone] at this
    exact Nat.succ.inj (hsem.symm.trans this)
  · rintro q hq
    obtain rfl := Option.some.inj hq
    exact ⟨[], _, rfl, Nat.zero_le _⟩
  · exact List.forall_mem_cons.mpr ⟨Nat.zero_le _, hs.bound⟩

/-- A `post` ends the section. -/
theorem Sim.leave (hsem : t.sem = s.sem + 1) (hlog : t.log = s.log) (hin : s.inside p = true)
    (hinside : ∀ q, t.inside q = (s.inside q && q ≠ p)) :
    ∃ b, (AtomicLog.machine Proc Entry).run a [.leave p] = some b ∧ Sim t b := by
  have hholder := (hs.inside p).mp hin
  have hrun := AtomicLog.run_leave hholder
  refine ⟨_, hrun, ?_, ?_, ?_, ?_, hs.bound⟩
  · rw [hlog, hs.entries, AtomicLog.entries_run hrun]
    exact (List.append_nil _).symm
  · intro q
    rw [hinside, Bool.and_eq_true, hs.inside, hholder, decide_eq_true_eq, Option.some.injEq]
    exact iff_of_false (fun h => h.2 h.1.symm) (Option.some_ne_none q).symm
  · have := hs.sem
    rw [hholder, if_neg (Option.some_ne_none p)] at this
    rw [hsem, this]
    rfl
  · exact fun q hq => absurd hq.symm (Option.some_ne_none q)

/-- Every step is an action on the log, or none. -/
theorem sim_step (h : step s e = some t) :
    ∃ b, (AtomicLog.machine Proc Entry).run a (action (s, e)).toList = some b ∧ Sim t b := by
  cases step_effect h with
  | keep hact hsem hlog hinside hwritten =>
    rw [hact]
    exact ⟨a, rfl, hs.keep hsem hlog hinside hwritten⟩
  | print x hact hsem hlog hin hinside hwritten =>
    rw [hact]
    exact hs.print hsem hlog hin hinside hwritten
  | enter p he hsem hlog _ hinside =>
    subst he
    exact hs.enter hsem hlog hinside
  | leave p he hsem hlog hin hinside =>
    subst he
    exact hs.leave hsem hlog hin hinside

end Actions

/-- Every run is one of the abstract log. -/
theorem sim_run {es : List Event} (h : machine.run init es = some t) :
    ∃ a, (AtomicLog.machine Proc Entry).run AtomicLog.empty (actions (machine.trace init es)) =
      some a ∧ Sim t a := by
  rw [actions, List.filterMap_eq_flatMap_toList]
  exact Machine.simulation (f := fun s e => (action (s, e)).toList)
    (fun s e t a hs hstep => sim_step hs hstep) sim_init h

/-! ## Waiting and posting -/

/-- A process is inside between its `wait` and its `post`. -/
theorem waits_step (p : Proc) (h : step s e = some t) :
    (if e == .wait p then 1 else 0) + (s.inside p).toNat =
      (if e == .post p then 1 else 0) + (t.inside p).toNat := by
  have hne {act : Option (AtomicLog.Action Proc Entry)} (hact : action (s, e) = act)
      (hwait : act ≠ some (.enter p)) (hpost : act ≠ some (.leave p)) :
      (e == .wait p) = false ∧ (e == .post p) = false := by
    subst hact
    exact ⟨beq_false_of_ne fun he => hwait (by rw [he]; rfl),
      beq_false_of_ne fun he => hpost (by rw [he]; rfl)⟩
  cases step_effect h with
  | keep hact _ _ hinside _ =>
    obtain ⟨hwait, hpost⟩ := hne hact (by simp) (by simp)
    rw [hwait, hpost, hinside]
  | print x hact _ _ _ hinside _ =>
    obtain ⟨hwait, hpost⟩ := hne hact (by simp) (by simp)
    rw [hwait, hpost, hinside]
  | enter q he _ _ hout hinside =>
    subst he
    by_cases hq : p = q
    · subst hq
      simp [hinside, hout]
    · simp [hinside, hq, Ne.symm hq]
  | leave q he _ _ hin hinside =>
    subst he
    by_cases hq : p = q
    · subst hq
      simp [hinside, hin]
    · simp [hinside, hq, Ne.symm hq]

/-- A process posts once for every time it has waited, on every path through its loop. -/
theorem waits_run (p : Proc) {es : List Event} (h : machine.run s es = some t) :
    es.count (.wait p) + (s.inside p).toNat = es.count (.post p) + (t.inside p).toNat := by
  induction es generalizing s with
  | nil =>
    obtain rfl := Option.some.inj h
    rfl
  | cons e es ih =>
    obtain ⟨u, hu, hrun⟩ := machine.run_cons_eq_some.mp h
    have hstep := waits_step p hu
    have hrest := ih hrun
    rw [List.count_cons, List.count_cons]
    omega

/-- **Critical sections of the shared log.** In every interleaving of the two loops, with any
results of their calls: the semaphore and the processes inside add up to 1, so one of them is inside
at most; a process has posted as often as it has waited, but for the section it is in; and the log
is that of a sequence of sections, each entered and left by its process and written in one go, with
at most one line of `logger` or two of `health`. So in the file the lines of a section follow one
another directly. -/
theorem sections_of_run {es : List Event} (hrun : machine.run init es = some t) :
    t.sem + t.holders = 1 ∧
    (∀ p, es.count (.wait p) = es.count (.post p) + (t.inside p).toNat) ∧
    ∃ a : AtomicLog Proc Entry,
      (AtomicLog.machine Proc Entry).run AtomicLog.empty
        (actions (machine.trace init es)) = some a ∧
      t.log = a.entries ∧ t.file = a.sections.reverse.flatMap (fun b => b.2.flatMap Entry.text) ∧
      (∀ p, t.inside p = true ↔ a.holder = some p) ∧
      ∀ b ∈ a.sections, b.2.length ≤ b.1.maxLines := by
  obtain ⟨a, ha, hs⟩ := sim_run hrun
  refine ⟨?_, fun p => ?_, a, ha, hs.entries, ?_, hs.inside, hs.bound⟩
  · have hinside : ∀ p, t.inside p = decide (a.holder = some p) := fun p => by
      rw [Bool.eq_iff_iff, hs.inside, decide_eq_true_eq]
    rw [hs.sem, State.holders, hinside, hinside]
    cases a.holder with
    | none => rfl
    | some p => cases p <;> rfl
  · have hwaits := waits_run p hrun
    have hinit : (init.inside p).toNat = 0 := by cases p <;> rfl
    omega
  · rw [State.file, hs.entries, AtomicLog.entries, List.flatMap_assoc]

/-- `health` starts its checks, and a check waits for `logger` and takes two lines. -/
def lateCheck : List Event :=
  [.epollWait "12:00" [.client],
    .clientRead (some ⟨EpollServer.bytes "START", by decide, by decide⟩),
    .wait .health, .command true, .post .health, .poll true, .wait .logger,
    .loggerRead (some ⟨[97, 10], by decide, by decide⟩), .epollWait "12:01" [.tfd],
    .timerRead ⟨60, 0⟩, .loggerPrint "12:00" true, .post .logger, .wait .health, .printCheck true,
    .clock ⟨60, 20000000⟩, .printWaited true]

theorem sections_lateCheck :
    let t := (machine.run init lateCheck).get (by decide)
    t.sem + t.holders = 1 ∧
    (∀ p, lateCheck.count (.wait p) = lateCheck.count (.post p) + (t.inside p).toNat) ∧
    ∃ a : AtomicLog Proc Entry,
      (AtomicLog.machine Proc Entry).run AtomicLog.empty
        (actions (machine.trace init lateCheck)) = some a ∧
      t.log = a.entries ∧ t.file = a.sections.reverse.flatMap (fun b => b.2.flatMap Entry.text) ∧
      (∀ p, t.inside p = true ↔ a.holder = some p) ∧
      ∀ b ∈ a.sections, b.2.length ≤ b.1.maxLines :=
  sections_of_run (Option.some_get _).symm

end Moves

end LinuxRiscv32.SharedLog

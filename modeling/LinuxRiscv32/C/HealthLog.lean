import LinuxRiscv32.C.SharedLog

/-!
# `health`: what its log says about `running`

Reference: the loop of `main` in `C/health.c`.

`health` appends a line for every command that it follows, and the lines of the timer only while the
checks are running. So the log tells whether they are: by its last line about a command.
-/

namespace LinuxRiscv32.Health

/-- The command that a line reports. The lines of the timer report none. -/
def Line.command? : Line → Option Command
  | .check _ _ _ | .waited _ _ => none
  | .stopped _ => some .stop
  | .started _ => some .start

/-- The command that the last line about a command reports. -/
def lastCommand (log : List Line) : Option Command := (log.filterMap Line.command?).getLast?

/-- Every line of the timer has a line `health started` in front of it and no line `health stopped`
in between. -/
def Checked (log : List Line) : Prop :=
  ∀ pre l post, log = pre ++ l :: post → l.command? = none →
    ∃ a tbuf b, pre = a ++ .started tbuf :: b ∧ ∀ tbuf', .stopped tbuf' ∉ b

/-- The line for a command tells the command. -/
theorem command?_line (tbuf : String) (c : Command) : (c.line tbuf).command? = some c := by
  cases c <;> rfl

theorem command?_eq_start_iff {l : Line} :
    l.command? = some .start ↔ ∃ tbuf, l = .started tbuf := by
  cases l <;> simp [Line.command?]

/-- The last command of a log that grows by a line. -/
theorem lastCommand_concat (log : List Line) (l : Line) :
    lastCommand (log ++ [l]) = l.command?.or (lastCommand log) := by
  rw [lastCommand, List.filterMap_append, List.getLast?_append, List.filterMap_cons,
    List.filterMap_nil]
  cases l.command? <;> rfl

/-- Behind the last line about a command there is none. -/
theorem exists_started {log : List Line} (h : lastCommand log = some .start) :
    ∃ a tbuf b, log = a ++ .started tbuf :: b ∧ ∀ tbuf', .stopped tbuf' ∉ b := by
  obtain ⟨cs, hcs⟩ := List.getLast?_eq_some_iff.mp h
  obtain ⟨a, log', rfl, -, hlog'⟩ := List.filterMap_eq_append_iff.mp hcs
  obtain ⟨a', l, b, rfl, -, hl, hb⟩ := List.filterMap_eq_cons_iff.mp hlog'
  obtain ⟨tbuf, rfl⟩ := command?_eq_start_iff.mp hl
  refine ⟨a ++ a', tbuf, b, (List.append_assoc a a' _).symm, fun tbuf' hmem => ?_⟩
  exact Option.some_ne_none _ (List.filterMap_eq_nil_iff.mp hb _ hmem)

theorem checked_nil : Checked [] := by
  intro pre l post h
  cases pre <;> cases h

/-- A line of the timer needs the checks to run; a line about a command does not. -/
theorem Checked.concat {log : List Line} {l : Line} (h : Checked log)
    (hl : l.command? = none → lastCommand log = some .start) : Checked (log ++ [l]) := by
  intro pre l' post heq hl'
  rcases List.eq_nil_or_concat' post with rfl | ⟨post, l'', rfl⟩
  · obtain ⟨rfl, hlast⟩ := List.append_inj' heq rfl
    obtain rfl := List.singleton_inj.mp hlast
    exact exists_started (hl hl')
  · rw [← List.cons_append, ← List.append_assoc] at heq
    exact h pre l' post (List.append_inj' heq rfl).1 hl'

/-- `running` is what the log says, and the log has no line of the timer from other times. -/
structure Truthful (s : Loop) : Prop where
  running : s.running = ((lastCommand s.log).map Command.running).getD 0
  checked : Checked s.log

/-- An empty log is true of a program that does not check. -/
theorem truthful_init : Truthful { running := 0, log := [] } := ⟨rfl, checked_nil⟩

section Loop

variable {s : Loop}

/-- While the checks run, the log says that they were started. -/
theorem Truthful.lastCommand_eq (hs : Truthful s) (hrunning : s.running ≠ 0) :
    lastCommand s.log = some .start := by
  have h := hs.running
  cases hlast : lastCommand s.log with
  | none =>
    rw [hlast] at h
    exact absurd h hrunning
  | some c =>
    rw [hlast] at h
    cases c with
    | stop => exact absurd h hrunning
    | start => rfl

/-- A line of the timer while the checks are running. -/
theorem Truthful.concat_timer {l : Line} (hs : Truthful s) (hrunning : s.running ≠ 0)
    (hl : l.command? = none) : Truthful { s with log := s.log ++ [l] } where
  running := by
    rw [lastCommand_concat, hl]
    exact hs.running
  checked := hs.checked.concat fun _ => hs.lastCommand_eq hrunning

/-- The line for a command that is followed. -/
theorem Truthful.concat_command (hs : Truthful s) (tbuf : String) (c : Command) :
    Truthful { running := c.running, log := s.log ++ [c.line tbuf] } where
  running := by
    rw [lastCommand_concat, command?_line]
    rfl
  checked := hs.checked.concat fun h => by
    rw [command?_line] at h
    cases h

/-- An event whose lines are written keeps the log true. -/
theorem Truthful.handle (hs : Truthful s) (e : Event) : Truthful (s.handle e) := by
  cases e with
  | timer tbuf t1 t2 =>
    show Truthful (if s.running ≠ 0 then { s with log := s.log ++ timerLines tbuf t1 t2 } else s)
    split
    next hrunning =>
      have hcheck := hs.concat_timer (l := .check tbuf (t1.sec.tmod 1000) (t1.nsec.tdiv 1000000))
        hrunning rfl
      unfold timerLines
      split
      next =>
        have hwaited := hcheck.concat_timer (l := .waited tbuf (delayMs t1 t2)) hrunning rfl
        rwa [List.append_assoc] at hwaited
      next => exact hcheck
    next => exact hs
  | client tbuf read =>
    cases read with
    | none => exact hs
    | some m =>
      rw [Loop.handle]
      split
      next c _ => exact hs.concat_command tbuf c
      next => exact hs

/-- After all events, the log is true. -/
theorem truthful_run (es : List Event) : Truthful (run es) := by
  induction es using List.reverseRecOn with
  | nil => exact truthful_init
  | append_singleton es e ih =>
    rw [run, List.foldl_concat]
    exact ih.handle e

end Loop

/-- **The log tells the truth.** After every event of every run, `running` is 1 exactly if the last
line about a command says `health started`, and 0 otherwise, also if there is no such line. Every
line of the timer has a line `health started` in front of it with no line `health stopped` in
between. -/
theorem log_tells_running (es : List Event) :
    ((run es).running = 1 ↔ lastCommand (run es).log = some .start) ∧
    (lastCommand (run es).log ≠ some .start → (run es).running = 0) ∧
    ∀ pre l post, (run es).log = pre ++ l :: post → l.command? = none →
      ∃ a tbuf b, pre = a ++ .started tbuf :: b ∧ ∀ tbuf', .stopped tbuf' ∉ b := by
  have hrun := truthful_run es
  refine ⟨?_, ?_, hrun.checked⟩
  · rw [hrun.running]
    cases lastCommand (run es).log with
    | none => decide
    | some c => cases c <;> decide
  · rw [hrun.running]
    cases lastCommand (run es).log with
    | none => exact fun _ => rfl
    | some c => cases c <;> decide

end LinuxRiscv32.Health

/-! ## The shared log -/

namespace LinuxRiscv32.SharedLog

open Common
open Health (Line)

/-- A line of `health`. -/
def Entry.line? : Entry → Option Line
  | .record _ => none
  | .line l => some l

/-- What `health` alone has made of its variable and of the log. -/
def State.healthLoop (s : State) : Health.Loop :=
  { running := s.running, log := s.log.filterMap Entry.line? }

/-- In the branch of the timer, before its last line. -/
def HealthPc.checking : HealthPc → Bool
  | .timerWait _ _ _ | .timerCheck _ _ _ | .timerClock _ _ _ | .timerWaited _ _ _ => true
  | .next _ _ | .clientWait _ _ _ | .clientCommand _ _ _ | .post _ _ => false

/-- The log tells the truth, and a check has begun only while the checks are running. -/
structure Truthful (s : State) : Prop where
  loop : Health.Truthful s.healthLoop
  checking : s.health.checking = true → s.running ≠ 0

section Run

variable {s t : State} {e : Event}

/-- A step that leaves alone what `health` knows and writes. -/
theorem Truthful.keep (hs : Truthful s) (hloop : t.healthLoop = s.healthLoop)
    (hchecking : t.health.checking = true → s.health.checking = true ∨ s.running ≠ 0) :
    Truthful t where
  loop := hloop ▸ hs.loop
  checking h := by
    have hrunning : t.running = s.running := congrArg Health.Loop.running hloop
    rw [hrunning]
    exact (hchecking h).elim hs.checking id

/-- A line that `logger` writes, or nothing. -/
theorem healthLoop_print_record (s : State) (ok : Bool) (r : Logger.Record) :
    (s.print ok (.record r)).healthLoop = s.healthLoop := by
  cases ok with
  | false => rfl
  | true =>
    show ({ running := s.running, log := (s.log ++ [Entry.record r]).filterMap Entry.line? } :
      Health.Loop) = _
    rw [List.filterMap_append]
    exact congrArg _ (List.append_nil _)

theorem healthLoop_print_line (s : State) (l : Line) :
    (s.print true (.line l)).healthLoop = { s.healthLoop with log := s.healthLoop.log ++ [l] } :=
  congrArg _ List.filterMap_append

/-- A line of the timer, or nothing. -/
theorem Truthful.print_timer {l : Line} {health : HealthPc} (hs : Truthful s)
    (hchecking : s.health.checking = true) (hl : l.command? = none) (ok : Bool) :
    Truthful { s.print ok (.line l) with health := health } := by
  have hrunning := hs.checking hchecking
  cases ok with
  | false => exact hs.keep rfl fun _ => .inl hchecking
  | true =>
    refine ⟨?_, fun _ => hrunning⟩
    show Health.Truthful (s.print true (.line l)).healthLoop
    rw [healthLoop_print_line]
    exact hs.loop.concat_timer hrunning hl

/-- A step keeps the log true, unless the line of a command fails. -/
theorem truthful_step (hs : Truthful s) (he : e ≠ .command false) (h : step s e = some t) :
    Truthful t := by
  cases performs_of_step h with
  | waitLogger | postLogger | poll | loggerRead => exact hs.keep rfl .inl
  | @loggerPrint tbuf ok m hpc =>
    refine hs.keep (healthLoop_print_record s ok _) fun hchecking => .inl ?_
    rwa [← s.print_health ok (.record (Logger.record tbuf s.cnt m))]
  | waitTimer hpc | clock hpc => exact hs.keep rfl fun _ => .inl (congrArg HealthPc.checking hpc)
  | waitClient | postHealth | epollWait | ignore =>
    exact hs.keep rfl fun hchecking => Bool.noConfusion hchecking
  | timerRead hpc =>
    refine hs.keep rfl fun hchecking => .inr fun hrunning => ?_
    rw [if_neg (not_not.mpr hrunning)] at hchecking
    cases hchecking
  | @clientRead tbuf fds read hpc =>
    refine hs.keep rfl fun hchecking => ?_
    cases read <;> cases hchecking
  | printCheck hpc | printWaited hpc =>
    exact hs.print_timer (congrArg HealthPc.checking hpc) rfl _
  | @follow tbuf fds m c ok hpc hcommand =>
    have hok : ok = true := by
      cases ok with
      | false => exact absurd rfl he
      | true => rfl
    subst hok
    refine ⟨?_, fun hchecking => Bool.noConfusion hchecking⟩
    show Health.Truthful
      { running := c.running, log := (s.log ++ [Entry.line (c.line tbuf)]).filterMap Entry.line? }
    rw [List.filterMap_append]
    exact hs.loop.concat_command tbuf c

/-- In every interleaving of the two loops in which `health` can append its lines about commands,
the lines of `health` in the log tell the truth, between any two calls and not only between two
events. Lines of the timer may be lost. -/
theorem truthful_of_run {es : List Event} (hes : .command false ∉ es)
    (hrun : machine.run init es = some t) : Truthful t := by
  have hstep : ∀ s e t, Truthful s → e ≠ .command false → machine.step s e = some t → Truthful t :=
    fun _ _ _ hs he h => truthful_step hs he h
  have hinit : Truthful init := ⟨Health.truthful_init, fun h => Bool.noConfusion h⟩
  have hG : machine.Along (fun _ e => e ≠ .command false) init es :=
    (Machine.along_iff_forall_mem hrun).mpr fun e he heq => hes (heq ▸ he)
  exact Machine.invariant hstep hinit hG hrun

end Run

end LinuxRiscv32.SharedLog

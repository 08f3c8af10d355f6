import LinuxRiscv32.Kernel.Module

/-!
# An interrupt that is triggered through sysfs

Reference: `modules/sysfs.c`.

The module requests an interrupt, registers a device and creates the file `trigger`, whose stores
call the handler of the interrupt by hand. The file is the last thing to be created and the first to
be removed, and its removal waits for the stores that are running.
-/

namespace LinuxRiscv32.Sysfs

open Common Common.Stages Kernel Module

/-- What `my_init` acquires: the interrupt, `trigger_dev` and the file `trigger` in it. -/
inductive Resource where
  | irqNumber
  | triggerDev
  | trigger
deriving DecidableEq, Repr

/-- The results of `request_threaded_irq`, `root_device_register` and `device_create_file`. -/
structure InitCalls where
  irqNumber : Except Errno Unit
  triggerDev : Except Errno Unit
  trigger : Except Errno Unit

/-- What `my_init` returns, its calls, and its messages. -/
structure InitResult where
  ret : ℤ
  calls : List (Action Resource)
  log : List String

/-- `my_init` -/
def myInit (c : InitCalls) : InitResult :=
  let irqNumber := 16
  match c.irqNumber with
  | .error e =>
    let ret := e.code
    { ret := ret, calls := [], log := [s!"Failed to request IRQ: {ret}\n"] }
  | .ok () =>
    let calls := [.acquire .irqNumber]
    match c.triggerDev with
    | .error e => { ret := e.code, calls := calls ++ [.release .irqNumber], log := [] }
    | .ok () =>
      let calls := calls ++ [.acquire .triggerDev]
      match c.trigger with
      | .error e =>
        { ret := e.code, calls := calls ++ [.release .triggerDev, .release .irqNumber], log := [] }
      | .ok () =>
        { ret := 0, calls := calls ++ [.acquire .trigger]
          log := [s!"IRQ {irqNumber} registered. " ++
            "Trigger via: echo 1 > /sys/devices/irq_trigger/trigger\n"] }

/-- `my_exit` -/
def myExit : List (Action Resource) :=
  [.release .trigger, .release .triggerDev, .release .irqNumber]

inductive IrqReturn where
  | handled
  | wakeThread
deriving DecidableEq, Repr

/-- `my_hardirq_handler`, with its message. -/
def myHardirqHandler : IrqReturn × List String := (.wakeThread, ["TOP half called\n"])

/-- `my_thread_handler`, which the kernel calls if the handler has asked for it. -/
def myThreadHandler : IrqReturn × List String := (.handled, ["Bottom half called\n"])

/-- An interrupt: the handler, and the thread if it is woken. -/
def interrupt : List String :=
  match myHardirqHandler.1 with
  | .wakeThread => myHardirqHandler.2 ++ myThreadHandler.2
  | .handled => myHardirqHandler.2

/-- `trigger_store` of `count` bytes. What the handler returns is dropped, so no thread is woken. -/
def triggerStore (count : ℕ) : ℕ × List String :=
  (count, "Manual IRQ trigger requested\n" :: myHardirqHandler.2)

/-- Behind its own message a store does what an interrupt does, without the thread. -/
theorem interrupt_eq (count : ℕ) :
    interrupt = (triggerStore count).2.tail ++ myThreadHandler.2 := rfl

/-- `modules/sysfs.c`, entered by the stores to its file. -/
def sysfs : Module (List Resource) (Action Resource) InitCalls :=
  ofStages (fun c => ((myInit c).ret, (myInit c).calls)) (fun _ => myExit) .trigger .drains

/-! ## One load -/

def all : List Resource := [.irqNumber, .triggerDev, .trigger]

/-- Whatever its calls return, `my_init` takes the stages in order and undoes them. -/
theorem attempts_myInit (c : InitCalls) : Attempts all ((myInit c).ret, (myInit c).calls) := by
  unfold myInit
  split
  next e _ => exact .inr ⟨e.neg, [], List.nil_prefix, rfl⟩
  split
  next e _ => exact .inr ⟨e.neg, [.irqNumber], ⟨_, rfl⟩, rfl⟩
  split
  next e _ => exact .inr ⟨e.neg, [.irqNumber, .triggerDev], ⟨_, rfl⟩, rfl⟩
  next => exact .inl ⟨le_rfl, rfl⟩

theorem nodup_all : all.Nodup := by decide

/-- The module fits the life cycle. -/
theorem staged_sysfs : sysfs.Staged (· = []) (Within all) :=
  staged_ofStages (fun _ => all) within_nil (fun _ _ => id) (fun _ => nodup_all)
    attempts_myInit fun _ _ => rfl

/-! ## Whole runs -/

/-- **A store finds the interrupt requested.** In every run of loads, whatever their calls return,
of unloads, and of stores to the file at any time: no call releases what is not held or acquires
what is, nothing is held behind a load that fails or an unload, and as long as a store is running,
the interrupt, the device and the file are all in place. -/
theorem trigger_of_run {F : Type*} [DecidableEq F] {es : List (Event InitCalls F)}
    {t : State (List Resource) (Action Resource) F}
    (hrun : sysfs.machine.run sysfs.start es = some t) :
    (∀ a, t.next = some a → ∃ held, Stages.apply t.holds a = some held) ∧
    (t.status = .absent → t.holds = [] ∧ t.users = []) ∧
    (t.users ≠ [] → ∀ r, r ∈ t.holds) := by
  have hsettled := settled_of_run staged_sysfs hrun
  have hin := inside_of_run staged_sysfs hrun fun x _ => calm_of_drains rfl x.1 x.2
  refine ⟨fun a ha => hsettled.next ha, fun hstatus => ?_, fun husers r => ?_⟩
  · rw [Settled, hstatus] at hsettled
    exact ⟨hsettled, hin.users_eq_nil staged_sysfs hsettled⟩
  · have htrigger : .trigger ∈ t.holds := of_decide_eq_true (hin husers).1
    -- the file was created last, so what comes before it is held as well
    have hwithin := hsettled.holds staged_sysfs
    cases r with
    | trigger => exact htrigger
    | irqNumber | triggerDev =>
      exact hwithin.mem [.irqNumber, .triggerDev] rfl (by decide) htrigger (by decide)

/-- A store is running when the module is unloaded, and the file cannot be removed. -/
theorem trigger_of_run_unload :
    let es : List (Event InitCalls ℕ) :=
      [.load ⟨.ok (), .ok (), .ok ()⟩, .act, .act, .act, .act, .enter 0, .unload]
    let t := (sysfs.machine.run sysfs.start es).get (by decide)
    (∀ r, r ∈ t.holds) ∧ sysfs.step t .act = none ∧
      (sysfs.machine.run t [.leave 0, .act, .act, .act, .act]).map State.status = some .absent := by
  intro es t
  exact ⟨(trigger_of_run (t := t) (Option.some_get _).symm).2.2 (by decide), by decide, by decide⟩

end LinuxRiscv32.Sysfs

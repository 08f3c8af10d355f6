import LinuxRiscv32.Kernel.PlatformDriver
import LinuxRiscv32.Modules.GpioSimDemo

/-!
# `gpio-sim-demo` and `gpio-sim-int`: bound without a GPIO

Reference: `modules/gpio-sim-demo.c`, `modules/gpio-sim-int.c` (`my_probe`, `my_remove`).

A probe that does not get one of the two GPIOs prints a warning and returns 0, so the device is
bound. `my_remove` reads both GPIOs all the same, through whatever the variables of the module hold:
an error pointer, no pointer, or a descriptor of a binding that is over.
-/

namespace LinuxRiscv32.GpioReady

open Common Kernel PlatformDriver
open GpioSimInt (GpioDesc Table)

/-- The descriptors that the two calls of `devm_gpiod_get` have got; there is no second call if the
first one fails. -/
def acquired (sw led : Except ℤ ℕ) : List ℕ :=
  match sw, led with
  | .error _, _ => []
  | .ok sw, .error _ => [sw]
  | .ok sw, .ok led => [sw, led]

/-- The parameter of the module, and the results of `platform_device_register_simple` and of
`platform_driver_register`. -/
structure LoadCalls where
  ledvalue : ℤ
  device : Except ℤ Unit
  driver : ℤ

/-- The levels of the LED and of the switch when the message of `my_remove` is printed. -/
structure RemoveCalls where
  ledValue : ℤ
  swValue : ℤ

/-- `modules/gpio-sim-demo.c` -/
def gpioSimDemo :
    PlatformDriver GpioSimDemo.Driver LoadCalls GpioSimDemo.ProbeCalls RemoveCalls where
  init p := GpioSimDemo.gpioSimDemoInit p.device p.driver
  fresh d p := d.fresh p.ledvalue
  probe d c :=
    let r := GpioSimDemo.myProbe d c
    { ret := r.ret, driver := r.driver, acquired := acquired c.sw c.led }
  remove d c := (GpioSimDemo.myRemove d c.ledValue c.swValue).1

/-- `modules/gpio-sim-int.c` -/
def gpioSimInt :
    PlatformDriver GpioSimInt.Driver LoadCalls GpioSimInt.ProbeCalls RemoveCalls where
  init p := GpioSimInt.gpioSimDemoInit p.device p.driver
  fresh d p := d.fresh p.ledvalue
  probe d c :=
    let r := GpioSimInt.myProbe d c
    { ret := r.ret, driver := r.driver, acquired := acquired c.sw c.led }
  remove d c := (GpioSimInt.myRemove d c.ledValue c.swValue).1

/-- The pointer is a descriptor that the binding holds. -/
def Held (held : List ℕ) : GpioDesc → Prop
  | .desc n => n ∈ held
  | .null | .errPtr _ => False

/-- Both pointers, which are those that `my_remove` uses. -/
structure Ready (gpioSw gpioLed : GpioDesc) (held : List ℕ) : Prop where
  sw : Held held gpioSw
  led : Held held gpioLed

/-- While the device is bound, `gpio-sim-demo` can use both GPIOs. -/
def DemoReady : State GpioSimDemo.Driver → Prop :=
  WhileBound fun d held => Ready d.gpioSw d.gpioLed held

/-- While the device is bound, `gpio-sim-int` can use both GPIOs. -/
def IntReady : State GpioSimInt.Driver → Prop :=
  WhileBound fun d held => Ready d.gpioSw d.gpioLed held

/-- The module is loaded, bound, unbound and probed again. -/
def bindTwice {ι : Type} (c c' : ι) : List (Event LoadCalls ι RemoveCalls) :=
  [.load ⟨1, .ok (), 0⟩, .probe c, .remove ⟨1, 0⟩, .probe c']

/-- The GPIOs are gone when the second probe runs, and the variable of the LED still holds the
descriptor of the first binding. -/
theorem lost_gpios_break_ready :
    (¬ ∀ (d : GpioSimDemo.Driver) es t,
      gpioSimDemo.machine.run (.start d) es = some t → DemoReady t) ∧
    ¬ ∀ (d : GpioSimInt.Driver) es t,
      gpioSimInt.machine.run (.start d) es = some t → IntReady t := by
  constructor
  · intro h
    have hready := h ⟨0, .null, .null, [], false⟩
      (bindTwice ⟨.ok 0, .ok 1, 0⟩ ⟨.error (-517), .error (-517), 0⟩) _ rfl
    exact List.not_mem_nil (hready [] rfl).led
  · intro h
    have hready := h ⟨0, 0, .null, .null, 0, 0, [], false⟩
      (bindTwice ⟨.ok 0, .ok 1, 50, 0, 0, 0⟩ ⟨.error (-517), .error (-517), 50, 0, 0, 0⟩) _ rfl
    exact List.not_mem_nil (hready [] rfl).led

/-! ## One probe -/

/-- What both probes make of the results of `devm_gpiod_get`. -/
structure AsksForGpios (sw led : Except ℤ ℕ) (ret : ℤ) (gpioSw gpioLed : GpioDesc) : Prop where
  no_sw : ∀ err, sw = .error err → ret = 0 ∧ gpioSw = .errPtr err
  no_led : ∀ n err, sw = .ok n → led = .error err → ret = 0 ∧ gpioLed = .errPtr err
  both : ∀ n m, sw = .ok n → led = .ok m → gpioSw = .desc n ∧ gpioLed = .desc m

/-- A missing GPIO is the only thing that leaves a bound device without one. -/
theorem AsksForGpios.granted_iff {sw led : Except ℤ ℕ} {ret : ℤ} {gpioSw gpioLed : GpioDesc}
    (h : AsksForGpios sw led ret gpioSw gpioLed) :
    (ret = 0 → Ready gpioSw gpioLed (acquired sw led)) ↔ sw.isOk ∧ led.isOk := by
  cases sw with
  | error err =>
    obtain ⟨hret, rfl⟩ := h.no_sw err rfl
    exact iff_of_false (fun hready => (hready hret).sw) fun hok => Bool.false_ne_true hok.1
  | ok n =>
    cases led with
    | error err =>
      obtain ⟨hret, rfl⟩ := h.no_led n err rfl rfl
      exact iff_of_false (fun hready => (hready hret).led) fun hok => Bool.false_ne_true hok.2
    | ok m =>
      obtain ⟨rfl, rfl⟩ := h.both n m rfl rfl
      refine iff_of_true (fun _ => ⟨?_, ?_⟩) ⟨rfl, rfl⟩
      · exact List.mem_cons_self
      · exact List.mem_cons_of_mem _ List.mem_cons_self

theorem demoProbe_asksForGpios (d : GpioSimDemo.Driver) (c : GpioSimDemo.ProbeCalls) :
    AsksForGpios c.sw c.led (GpioSimDemo.myProbe d c).ret (GpioSimDemo.myProbe d c).driver.gpioSw
      (GpioSimDemo.myProbe d c).driver.gpioLed where
  no_sw err hsw := by
    simp only [GpioSimDemo.myProbe, hsw, and_self]
  no_led n err hsw hled := by
    simp only [GpioSimDemo.myProbe, hsw, hled, and_self]
  both n m hsw hled := by
    simp only [GpioSimDemo.myProbe, hsw, hled, and_self]

/-- The pointers do not depend on what becomes of the interrupt. -/
theorem intProbe_asksForGpios (d : GpioSimInt.Driver) (c : GpioSimInt.ProbeCalls) :
    AsksForGpios c.sw c.led (GpioSimInt.myProbe d c).ret (GpioSimInt.myProbe d c).driver.gpioSw
      (GpioSimInt.myProbe d c).driver.gpioLed where
  no_sw err hsw := by
    simp only [GpioSimInt.myProbe, hsw, and_self]
  no_led n err hsw hled := by
    simp only [GpioSimInt.myProbe, hsw, hled, and_self]
  both n m hsw hled := by
    simp only [GpioSimInt.myProbe, hsw, hled]
    split
    · exact ⟨rfl, rfl⟩
    · split <;> exact ⟨rfl, rfl⟩

/-! ## Whole runs -/

/-- **When bound means ready.** In every run of either module, whatever the calls return: both GPIOs
are descriptors of the current binding whenever the device is bound, so that `my_remove` can use
them, if and only if every probe has got both. -/
theorem ready_iff {d : GpioSimDemo.Driver} {es t}
    (hrun : gpioSimDemo.machine.run (.start d) es = some t) {d' : GpioSimInt.Driver} {es' t'}
    (hrun' : gpioSimInt.machine.run (.start d') es' = some t') :
    ((DemoReady t ∧ ∀ x ∈ gpioSimDemo.machine.trace (.start d) es, DemoReady x.1) ↔
      ∀ c, .probe c ∈ es → c.sw.isOk ∧ c.led.isOk) ∧
    ((IntReady t' ∧ ∀ x ∈ gpioSimInt.machine.trace (.start d') es', IntReady x.1) ↔
      ∀ c, .probe c ∈ es' → c.sw.isOk ∧ c.led.isOk) :=
  ⟨whileBound_run_iff_calls (fun d c => (demoProbe_asksForGpios d c).granted_iff)
      (fun _ => Status.noConfusion) hrun,
    whileBound_run_iff_calls (fun d c => (intProbe_asksForGpios d c).granted_iff)
      (fun _ => Status.noConfusion) hrun'⟩

theorem ready_bindTwice :
    let c : GpioSimDemo.ProbeCalls := ⟨.ok 0, .ok 1, 0⟩
    let c' : GpioSimInt.ProbeCalls := ⟨.ok 0, .ok 1, 50, 0, 0, 0⟩
    let s := State.start (⟨0, .null, .null, [], false⟩ : GpioSimDemo.Driver)
    let s' := State.start (⟨0, 0, .null, .null, 0, 0, [], false⟩ : GpioSimInt.Driver)
    let t := (gpioSimDemo.machine.run s (bindTwice c c)).get (by decide)
    let t' := (gpioSimInt.machine.run s' (bindTwice c' c')).get (by decide)
    ((DemoReady t ∧ ∀ x ∈ gpioSimDemo.machine.trace s (bindTwice c c), DemoReady x.1) ↔
      ∀ c'', .probe c'' ∈ bindTwice c c → c''.sw.isOk ∧ c''.led.isOk) ∧
    ((IntReady t' ∧ ∀ x ∈ gpioSimInt.machine.trace s' (bindTwice c' c'), IntReady x.1) ↔
      ∀ c'', .probe c'' ∈ bindTwice c' c' → c''.sw.isOk ∧ c''.led.isOk) :=
  ready_iff (Option.some_get _).symm (Option.some_get _).symm

/-! ## The machine of the lookup table -/

/-- Without the descriptors of the binding. -/
def toState (s : State GpioSimInt.Driver) : GpioSimInt.State where
  driver := s.driver
  loaded := s.status ≠ .unloaded
  bound :=
    match s.status with
    | .bound _ => true
    | .unloaded | .unbound => false

def toEvent : Event LoadCalls GpioSimInt.ProbeCalls RemoveCalls → GpioSimInt.Event
  | .load p => .load p.ledvalue p.device p.driver
  | .probe c => .probe c
  | .remove c => .remove c.ledValue c.swValue
  | .unload c => .unload c.ledValue c.swValue

theorem step_toState (s : State GpioSimInt.Driver)
    (e : Event LoadCalls GpioSimInt.ProbeCalls RemoveCalls) :
    (gpioSimInt.step s e).map toState = GpioSimInt.step (toState s) (toEvent e) := by
  obtain ⟨driver, status⟩ := s
  cases e with
  | load p =>
    cases status with
    | unloaded => exact apply_ite (Option.map toState) _ _ _
    | unbound | bound => rfl
  | probe c =>
    cases status with
    | unbound =>
      refine congrArg some ?_
      by_cases hret : (GpioSimInt.myProbe driver c).ret = 0 <;> simp [toState, gpioSimInt, hret]
    | unloaded | bound => rfl
  | remove c | unload c => cases status <;> rfl

/-- A run of `gpio-sim-int` as `GpioSimInt.machine` has it. -/
theorem run_toState (s : State GpioSimInt.Driver)
    (es : List (Event LoadCalls GpioSimInt.ProbeCalls RemoveCalls)) :
    (gpioSimInt.machine.run s es).map toState =
      GpioSimInt.machine.run (toState s) (es.map toEvent) :=
  Machine.run_map step_toState s es

end LinuxRiscv32.GpioReady

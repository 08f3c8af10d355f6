import LinuxRiscv32.Common.CInt
import LinuxRiscv32.Common.Machine
import Mathlib.Data.List.Count

/-!
# `gpio-sim-int`: a driver with a lookup table

Reference: `modules/gpio-sim-int.c`.

The probe adds a static lookup table to the list of the kernel before it asks for the two GPIOs, and
the remove takes it off the list. The driver core calls the remove only for a device whose probe has
returned 0. A probe without a GPIO returns 0 as well; a probe without an interrupt returns an error.
-/

namespace LinuxRiscv32.GpioSimInt

open Common

/-- An entry of the list of the kernel: `lookup`, or a table of somebody else. -/
inductive Table where
  | lookup
  | other (n : ℕ)
deriving DecidableEq, Repr

/-- A value of type `struct gpio_desc *`. -/
inductive GpioDesc where
  | null
  | errPtr (err : ℤ)
  | desc (n : ℕ)
deriving DecidableEq, Repr

/-- The variables of the module, and what it changes outside: the list of tables and whether the LED
is active. -/
structure Driver where
  ledvalue : ℤ
  irqTime : ℤ
  gpioSw : GpioDesc
  gpioLed : GpioDesc
  count : ℤ
  irq : ℤ
  tables : List Table
  led : Bool
deriving DecidableEq

/-- The results of the calls in `my_probe`: the two GPIOs, the number of the interrupt, the request
of the interrupt, and the level of the switch when the two last messages are printed. -/
structure ProbeCalls where
  sw : Except ℤ ℕ
  led : Except ℤ ℕ
  irq : ℤ
  ret : ℤ
  swValue : ℤ
  swValue' : ℤ

/-- What `my_probe` returns, what it leaves, and its messages. -/
structure ProbeResult where
  ret : ℤ
  driver : Driver
  log : List String

/-- `my_probe(pdev)`. -/
def myProbe (d : Driver) (c : ProbeCalls) : ProbeResult :=
  let d := { d with tables := d.tables ++ [Table.lookup] }
  let log := ["Probing exboard GPIO device\n"]
  match c.sw with
  | .error err =>
    { ret := 0, driver := { d with gpioSw := .errPtr err }
      log := log ++ [s!"SW GPIO not available: {err}\n"] }
  | .ok sw =>
    let d := { d with gpioSw := .desc sw }
    match c.led with
    | .error err =>
      { ret := 0, driver := { d with gpioLed := .errPtr err }
        log := log ++ [s!"LED GPIO not available: {err}\n"] }
    | .ok led =>
      -- `GPIOD_OUT_LOW` drives the line low
      let d := { d with gpioLed := .desc led, led := false, irq := c.irq }
      let irq := c.irq
      if irq < 0 then
        { ret := irq, driver := d, log := log ++ [s!"Failed to get IRQ from GPIO: {irq}\n"] }
      else
        let d := { d with led := d.ledvalue ≠ 0 }
        let ledValue := d.led.toNat
        let swValue := c.swValue
        let log := log ++ [s!"GPIO value: LED={ledValue}, SW={swValue}\n"]
        let ret := c.ret
        if ret < 0 then { ret := ret, driver := d, log := log ++ [s!"request_irq failed: {ret}\n"] }
        else
          let swValue := c.swValue'
          { ret := 0, driver := d
            log := log ++ [s!"GPIO initialized: IRQ={irq}, SW={swValue}\n"] }

/-- `my_remove(pdev)`, with the levels that it reads, and its messages. -/
def myRemove (d : Driver) (ledValue swValue : ℤ) : Driver × List String :=
  let count := d.count
  ({ d with tables := d.tables.erase .lookup },
    [s!"GPIO value: LED={ledValue}, SW={swValue}\n",
      s!"Removing GPIO driver: interrupt count={count}\n"])

/-- What `gpio_sim_demo_init` returns, from the results of `platform_device_register_simple` and of
`platform_driver_register`. -/
def gpioSimDemoInit (device : Except ℤ Unit) (driver : ℤ) : ℤ :=
  match device with
  | .error err => err
  | .ok _ => driver

/-- The variables of a module that is loaded with the parameter `ledvalue`. -/
def Driver.fresh (d : Driver) (ledvalue : ℤ) : Driver :=
  { d with
    ledvalue := ledvalue, irqTime := 0, gpioSw := .null, gpioLed := .null, count := 0, irq := 0 }

/-- The driver, and what the kernel knows of it: whether the module is loaded and whether its driver
is bound to the device. -/
structure State where
  driver : Driver
  loaded : Bool
  bound : Bool
deriving DecidableEq

inductive Event where
  | load (ledvalue : ℤ) (device : Except ℤ Unit) (driver : ℤ)
  | probe (c : ProbeCalls)
  | remove (ledValue swValue : ℤ)
  | unload (ledValue swValue : ℤ)

def step (s : State) : Event → Option State
  | .load ledvalue device driver =>
    if s.loaded then none
    else if gpioSimDemoInit device driver = 0 then
      some { s with driver := s.driver.fresh ledvalue, loaded := true }
    else some s
  | .probe c =>
    if s.loaded ∧ ¬ s.bound then
      let r := myProbe s.driver c
      some { s with driver := r.driver, bound := r.ret = 0 }
    else none
  | .remove ledValue swValue =>
    if s.bound then
      some { s with driver := (myRemove s.driver ledValue swValue).1, bound := false }
    else none
  | .unload ledValue swValue =>
    -- `platform_driver_unregister` unbinds the device first
    if s.loaded then
      let driver := if s.bound then (myRemove s.driver ledValue swValue).1 else s.driver
      some { driver := driver, loaded := false, bound := false }
    else none

/-- The module and the driver core. -/
def machine : Machine State Event := ⟨step⟩

/-- Before the first load; `tables` are on the list of the kernel already. -/
def init (tables : List Table) (led : Bool) : State :=
  { driver :=
      { ledvalue := 0, irqTime := 0, gpioSw := .null, gpioLed := .null, count := 0, irq := 0
        tables := tables, led := led }
    loaded := false
    bound := false }

/-! ## The lookup table -/

/-- The table is on the list once at most, exactly while the driver is bound, and never without the
module. -/
structure Balanced (s : State) : Prop where
  once : s.driver.tables.count .lookup ≤ 1
  mem_iff : .lookup ∈ s.driver.tables ↔ s.bound
  unloaded : s.loaded = false → .lookup ∉ s.driver.tables

/-- If the event is a probe that returns an error, it leaves the list alone. -/
def FailedProbeKeeps (s : State) : Event → Prop
  | .probe c =>
    (myProbe s.driver c).ret ≠ 0 → (myProbe s.driver c).driver.tables = s.driver.tables
  | _ => True

/-- A probe that gets both GPIOs gets the interrupt, too. -/
def InterruptGranted (_ : State) : Event → Prop
  | .probe c => c.sw.isOk → c.led.isOk → 0 ≤ c.irq ∧ 0 ≤ c.ret
  | _ => True

/-- A probe that gets both GPIOs, but no interrupt. -/
def noInterrupt : ProbeCalls :=
  { sw := .ok 0, led := .ok 1, irq := -22, ret := 0, swValue := 0, swValue' := 0 }

/-- The probe fails, and the table is left behind when the module is unloaded. -/
theorem noInterrupt_breaks_balanced :
    ¬ ∀ (tables : List Table) (led : Bool), .lookup ∉ tables → ∀ (es : List Event) (t : State),
      machine.run (init tables led) es = some t →
        Balanced t ∧ ∀ x ∈ machine.trace (init tables led) es, FailedProbeKeeps x.1 x.2 := by
  intro h
  obtain ⟨hbalanced, -⟩ := h [] false (by decide)
    [.load 0 (.ok ()) 0, .probe noInterrupt, .unload 0 0] _ rfl
  exact absurd (hbalanced.unloaded rfl) (by decide)

section Driver

variable (d : Driver) (c : ProbeCalls)

/-- Every probe adds the table, whatever it returns. -/
theorem myProbe_tables : (myProbe d c).driver.tables = d.tables ++ [Table.lookup] := by
  unfold myProbe
  split
  · rfl
  · split
    · rfl
    · dsimp only
      split
      · rfl
      · split <;> rfl

/-- A probe fails only by an interrupt that is not granted. -/
theorem myProbe_ret_eq_zero_iff :
    (myProbe d c).ret = 0 ↔ (c.sw.isOk → c.led.isOk → 0 ≤ c.irq ∧ 0 ≤ c.ret) := by
  cases hsw : c.sw with
  | error err =>
    refine iff_of_true ?_ fun hok => absurd hok Bool.false_ne_true
    simp only [myProbe, hsw]
  | ok sw =>
    cases hled : c.led with
    | error err =>
      refine iff_of_true ?_ fun _ hok => absurd hok Bool.false_ne_true
      simp only [myProbe, hsw, hled]
    | ok led =>
      have hret : (myProbe d c).ret =
          if c.irq < 0 then c.irq else if c.ret < 0 then c.ret else 0 := by
        simp only [myProbe, hsw, hled]
        split
        · rfl
        · split <;> rfl
      have hok : ∀ n : ℕ, (Except.ok n : Except ℤ ℕ).isOk = true := fun _ => rfl
      simp only [hret, hok, forall_const]
      split
      · omega
      · split <;> omega

/-- A failed probe leaves the list alone exactly if its interrupt was granted. -/
theorem failedProbeKeeps_iff (s : State) (e : Event) :
    FailedProbeKeeps s e ↔ InterruptGranted s e := by
  cases e with
  | probe c =>
    show (_ ≠ _ → _ = _) ↔ (_ → _ → _)
    rw [myProbe_tables, ← myProbe_ret_eq_zero_iff s.driver c]
    simp
  | load | remove | unload => exact Iff.rfl

end Driver

/-- The table is on the list as often as the driver is bound, and only a loaded driver is. -/
structure Inv (s : State) : Prop where
  count : s.driver.tables.count .lookup = s.bound.toNat
  loaded : s.bound = true → s.loaded = true

/-- A state in order has the table once at most. -/
theorem Inv.balanced {s : State} (hs : Inv s) : Balanced s where
  once := hs.count.trans_le (Bool.toNat_le s.bound)
  mem_iff := by
    rw [← List.count_pos_iff, hs.count]
    cases s.bound <;> decide
  unloaded hunloaded := by
    rw [← List.count_eq_zero, hs.count]
    cases hbound : s.bound with
    | false => rfl
    | true => exact absurd (hs.loaded hbound) (by simp [hunloaded])

/-- Nothing is bound at first. -/
theorem inv_init {tables : List Table} (led : Bool) (h : .lookup ∉ tables) :
    Inv (init tables led) where
  count := List.count_eq_zero.mpr h
  loaded hbound := absurd hbound Bool.false_ne_true

/-- Taking the table off the list of a driver that is bound. -/
theorem count_myRemove {s : State} (hs : Inv s) (hbound : s.bound = true) (ledValue swValue : ℤ) :
    (myRemove s.driver ledValue swValue).1.tables.count .lookup = 0 := by
  show (s.driver.tables.erase .lookup).count .lookup = 0
  rw [List.count_erase_self, hs.count, hbound]
  rfl

/-- A step whose interrupt is granted keeps the table on the list while the driver is bound. -/
theorem inv_step {s t : State} {e : Event} (hs : Inv s) (hG : InterruptGranted s e)
    (h : step s e = some t) : Inv t := by
  cases e with
  | load ledvalue device driver =>
    obtain ⟨hloaded, h⟩ := Option.ite_none_left_eq_some.mp h
    split at h
    · obtain rfl := Option.some.inj h
      exact ⟨hs.count, fun _ => rfl⟩
    · obtain rfl := Option.some.inj h
      exact hs
  | probe c =>
    obtain ⟨⟨hloaded, hbound⟩, rfl⟩ := Machine.guard_eq_some.mp h
    have hret : (myProbe s.driver c).ret = 0 := (myProbe_ret_eq_zero_iff _ c).mpr hG
    refine ⟨?_, fun _ => hloaded⟩
    dsimp only
    rw [myProbe_tables, List.count_append, hs.count, Bool.eq_false_of_not_eq_true hbound, hret]
    rfl
  | remove ledValue swValue =>
    obtain ⟨hbound, rfl⟩ := Machine.guard_eq_some.mp h
    exact ⟨count_myRemove hs hbound ledValue swValue, fun hb => absurd hb Bool.false_ne_true⟩
  | unload ledValue swValue =>
    obtain ⟨hloaded, rfl⟩ := Machine.guard_eq_some.mp h
    refine ⟨?_, fun hb => absurd hb Bool.false_ne_true⟩
    dsimp only
    split
    next hbound => exact count_myRemove hs hbound _ _
    next hbound => rw [hs.count, Bool.eq_false_of_not_eq_true hbound]

/-- **When the list is in balance.** In every run, whatever the calls of the probes return: the
table is on the list exactly while the driver is bound, in every state, and no failed probe changes
the list, if and only if every probe that gets both GPIOs gets the interrupt. -/
theorem balanced_iff {tables : List Table} {led : Bool} (hnew : .lookup ∉ tables) {es : List Event}
    {t : State} (hrun : machine.run (init tables led) es = some t) :
    (Balanced t ∧ ∀ x ∈ machine.trace (init tables led) es,
      Balanced x.1 ∧ FailedProbeKeeps x.1 x.2) ↔
      machine.Along InterruptGranted (init tables led) es := by
  have hinit := inv_init led hnew
  constructor
  · rintro ⟨-, htrace⟩ x hx
    exact (failedProbeKeeps_iff x.1 x.2).mp (htrace x hx).2
  · intro hG
    have hstep : ∀ s e t, Inv s → InterruptGranted s e → machine.step s e = some t → Inv t :=
      fun _ _ _ hs hG h => inv_step hs hG h
    refine ⟨(Machine.invariant hstep hinit hG hrun).balanced, fun x hx => ⟨?_, ?_⟩⟩
    · exact (Machine.invariant_mem_trace hstep hinit hG hx).balanced
    · exact (failedProbeKeeps_iff x.1 x.2).mpr (hG x hx)

/-- The module is loaded, its driver is bound without the switch and, later, with everything, and
the module is unloaded. -/
def twoBindings : List Event :=
  [.load 1 (.ok ()) 0, .probe { noInterrupt with sw := .error (-517) }, .remove 0 0,
    .probe { noInterrupt with irq := 50 }, .unload 1 0]

theorem balanced_twoBindings :
    let s := init [.other 0] false
    (Balanced ((machine.run s twoBindings).get (by decide)) ∧
      ∀ x ∈ machine.trace s twoBindings, Balanced x.1 ∧ FailedProbeKeeps x.1 x.2) ↔
      machine.Along InterruptGranted s twoBindings :=
  balanced_iff (by decide) (Option.some_get _).symm

end LinuxRiscv32.GpioSimInt

import LinuxRiscv32.Modules.GpioSimInt

/-!
# `gpio-sim-demo`: a driver without an interrupt

Reference: `modules/gpio-sim-demo.c`.

The driver has the lookup table, the GPIOs and the init function of `gpio-sim-int`. Its probe asks
for nothing else, and it returns 0 on every path.
-/

namespace LinuxRiscv32.GpioSimDemo

open GpioSimInt (GpioDesc Table)

/-- The variables of the module, and what it changes outside: the list of tables and whether the LED
is active. -/
structure Driver where
  ledvalue : ℤ
  gpioSw : GpioDesc
  gpioLed : GpioDesc
  tables : List Table
  led : Bool
deriving DecidableEq

/-- The results of the calls in `my_probe`: the two GPIOs, and the level of the switch. -/
structure ProbeCalls where
  sw : Except ℤ ℕ
  led : Except ℤ ℕ
  swValue : ℤ

/-- What `my_probe` returns, what it leaves, and its messages. -/
structure ProbeResult where
  ret : ℤ
  driver : Driver
  log : List String

/-- `my_probe(pdev)`. -/
def myProbe (d : Driver) (c : ProbeCalls) : ProbeResult :=
  let d := { d with tables := d.tables ++ [Table.lookup] }
  let log := ["Probing exboard GPIO device\n"]
  match c.sw with
  | .error err =>
    { ret := 0, driver := { d with gpioSw := .errPtr err }
      log := log ++ [s!"SW GPIO not available: {err}\n"] }
  | .ok sw =>
    let d := { d with gpioSw := .desc sw }
    match c.led with
    | .error err =>
      { ret := 0, driver := { d with gpioLed := .errPtr err }
        log := log ++ [s!"LED GPIO not available: {err}\n"] }
    | .ok led =>
      let d := { d with gpioLed := .desc led, led := d.ledvalue ≠ 0 }
      let ledValue := d.led.toNat
      let swValue := c.swValue
      { ret := 0, driver := d, log := log ++ [s!"GPIO value: LED={ledValue}, SW={swValue}\n"] }

/-- `my_remove(pdev)`, with the levels that it reads, and its messages. -/
def myRemove (d : Driver) (ledValue swValue : ℤ) : Driver × List String :=
  ({ d with tables := d.tables.erase .lookup },
    [s!"GPIO value: LED={ledValue}, SW={swValue}\n", "Removing GPIO driver\n"])

/-- `gpio_sim_demo_init`, which is that of `gpio-sim-int`. -/
def gpioSimDemoInit : Except ℤ Unit → ℤ → ℤ := GpioSimInt.gpioSimDemoInit

/-- The variables of a module that is loaded with the parameter `ledvalue`. -/
def Driver.fresh (d : Driver) (ledvalue : ℤ) : Driver :=
  { d with ledvalue := ledvalue, gpioSw := .null, gpioLed := .null }

end LinuxRiscv32.GpioSimDemo

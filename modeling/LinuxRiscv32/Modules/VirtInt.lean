import LinuxRiscv32.Common.Machine
import LinuxRiscv32.Kernel.Vfs

/-!
# `virt-int`: an interrupt that can be raised by a file

Reference: `modules/virt-int.c`.

The handler `irq_sw` inverts a level, drives the LED with it and counts. It runs for an interrupt of
the switch and for a write of `1` to the debugfs file `trigger`. Both GPIOs may be missing.
-/

namespace LinuxRiscv32.VirtInt

open Common Kernel

/-- The variables of the module, and whether the LED is lit. A GPIO that is missing is `none`. -/
structure Driver where
  ledlevel : ℤ
  irq : ℤ
  count : ℤ
  gpioLed : Option ℕ
  gpioSw : Option ℕ
  led : Bool
deriving DecidableEq, Repr

/-- What is loaded. -/
def Driver.loaded (led : Bool) : Driver :=
  { ledlevel := 1, irq := 0, count := 0, gpioLed := none, gpioSw := none, led := led }

/-- `irq_sw(irq, dev_id)`; a `long` has 32 bits on RV32. -/
def irqSw (d : Driver) : Driver :=
  let ledlevel := s32 (1 - d.ledlevel)
  { d with
    ledlevel := ledlevel
    led := if d.gpioLed = none then d.led else ledlevel ≠ 0
    count := s32 (d.count + 1) }

/-- The message of `irq_sw`, behind its assignments. -/
def irqSwMessage (d : Driver) : String :=
  let count := d.count
  let ledlevel := d.ledlevel
  s!"GPIO interrupt #{count}: LED={ledlevel}\n"

/-- What `trigger_write` returns, what it leaves, and its messages. -/
structure WriteResult where
  ret : ℤ
  driver : Driver
  log : List String

/-- `trigger_write(file, ubuf, len, offp)`, where `len` is the length of `ubuf` and the last `fault`
bytes of it cannot be read. -/
def triggerWrite (d : Driver) (stack : ℤ → Byte) (ubuf : List Byte) (fault : ℕ) : WriteResult :=
  if ubuf.length > 8 - 1 then { ret := -EINVAL, driver := d, log := [] }
  else
    let copy := copyFromUser stack 0 ubuf ubuf.length fault
    if copy.1 ≠ 0 then { ret := -EFAULT, driver := d, log := [] }
    else
      let buf := blit copy.2 ubuf.length [0]
      if buf 0 = '1'.toUInt8 then
        { ret := ubuf.length, driver := irqSw d
          log := ["Manual interrupt trigger from debugfs\n", irqSwMessage (irqSw d)] }
      else { ret := ubuf.length, driver := d, log := [] }

/-- The results of the calls in `my_probe`: the two GPIOs, the number of the interrupt, the request
of the interrupt, the level of the switch, whether `debugfs_create_dir` returns a pointer, and
whether the files can be created. -/
structure ProbeCalls where
  led : Except ℤ ℕ
  sw : Except ℤ ℕ
  irq : ℤ
  ret : ℤ
  swValue : ℤ
  debugfsDir : Bool
  debugfsFiles : Bool

/-- What `my_probe` returns, what it leaves, the interrupt that it has requested, whether it has
created the debugfs files, and its messages. -/
structure ProbeResult where
  ret : ℤ
  driver : Driver
  requested : Option ℤ
  files : Bool
  log : List String

/-- The messages about the debugfs files. -/
def debugfsMessages : List String :=
  ["Debugfs interface created at /sys/kernel/debug/exboard_gpio/\n",
    "  Test: echo 1 > /sys/kernel/debug/exboard_gpio/trigger\n",
    "  Read: cat /sys/kernel/debug/exboard_gpio/count\n"]

/-- `gpio_led` and the LED behind the first call of `my_probe`: `GPIOD_OUT_LOW` drives the line low.
-/
def requestLed (d : Driver) : Except ℤ ℕ → Driver × List String
  | .ok led => ({ d with gpioLed := some led, led := false }, [])
  | .error err =>
    ({ d with gpioLed := none }, [s!"LED GPIO not available (OK for testing): {err}\n"])

/-- `gpio_sw` behind the second call of `my_probe`. -/
def requestSw (d : Driver) : Except ℤ ℕ → Driver × List String
  | .ok sw => ({ d with gpioSw := some sw }, [])
  | .error err =>
    ({ d with gpioSw := none }, [s!"SW GPIO not available (OK for testing): {err}\n"])

/-- `my_probe(pdev)`. -/
def myProbe (d : Driver) (c : ProbeCalls) : ProbeResult :=
  let led := requestLed d c.led
  let sw := requestSw led.1 c.sw
  let d := sw.1
  let log := ["Probing exboard GPIO device\n"] ++ led.2 ++ sw.2
  let irq := c.irq
  let ret := c.ret
  let swValue := c.swValue
  let files := c.debugfsDir && c.debugfsFiles
  let debugfsLog := if c.debugfsDir then debugfsMessages else []
  if d.gpioSw = none then
    { ret := 0, driver := { d with irq := 0 }, requested := none, files := files
      log := log ++ ["Running in test mode (no hardware GPIO)\n"] ++ debugfsLog }
  else if irq < 0 then
    { ret := irq, driver := { d with irq := irq }, requested := none, files := false
      log := log ++ [s!"Failed to get IRQ from GPIO: {irq}\n"] }
  else if ret < 0 then
    { ret := ret, driver := { d with irq := irq }, requested := none, files := false
      log := log ++ [s!"request_irq failed: {ret}\n"] }
  else
    { ret := 0, driver := { d with irq := irq }, requested := some irq, files := files
      log := log ++ [s!"GPIO initialized: IRQ={irq}, SW={swValue}\n"] ++ debugfsLog }

/-- `my_remove(pdev)`: the interrupt that it frees, and its message. -/
def myRemove (d : Driver) : Option ℤ × String :=
  let count := d.count
  (if d.irq > 0 then some d.irq else none, s!"Removing GPIO driver: interrupt count={count}\n")

/-- The driver, and what the kernel knows of it: whether it is bound to the device, the interrupts
that lead to `irq_sw`, and whether the debugfs files are there. -/
structure State where
  driver : Driver
  bound : Bool
  irqs : List ℤ
  files : Bool
deriving DecidableEq, Repr

inductive Event where
  | probe (c : ProbeCalls)
  | remove
  | interrupt (irq : ℤ)
  /-- A write to `trigger`; `stack` is what its buffer held before. -/
  | trigger (stack : ℤ → Byte) (ubuf : List Byte) (fault : ℕ)

def step (s : State) : Event → Option State
  | .probe c =>
    if s.bound then none
    else
      let r := myProbe s.driver c
      some
        { driver := r.driver, bound := r.ret = 0, irqs := r.requested.toList ++ s.irqs
          files := r.files }
  | .remove =>
    if s.bound then
      some
        { s with
          bound := false, irqs := (myRemove s.driver).1.elim s.irqs s.irqs.erase, files := false }
    else none
  | .interrupt irq => if irq ∈ s.irqs then some { s with driver := irqSw s.driver } else none
  | .trigger stack ubuf fault =>
    if s.files then some { s with driver := (triggerWrite s.driver stack ubuf fault).driver }
    else none

/-- The module and the kernel around it. -/
def machine : Machine State Event := ⟨step⟩

/-- The module is loaded, and not bound to a device yet. -/
def init (led : Bool) : State :=
  { driver := .loaded led, bound := false, irqs := [], files := false }

end LinuxRiscv32.VirtInt

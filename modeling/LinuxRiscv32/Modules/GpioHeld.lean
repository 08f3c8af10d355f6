import LinuxRiscv32.Kernel.Module
import LinuxRiscv32.Modules.GpioSimInt
import LinuxRiscv32.Modules.VirtInt

/-!
# Handlers and the descriptors they use

Reference: `modules/virt-int.c` (`irq_sw`, `my_probe`, `my_remove`), `modules/gpio-sim-int.c`
(`irq_sw_thread`, `my_probe`, `my_remove`).

An interrupt may come at any moment: before the probe returns, during the remove, and while the
descriptors are released behind it. The variables of the drivers keep their values when the device
is unbound. The handlers meet no released descriptor all the same, since the interrupt is requested
last and freed first.
-/

namespace LinuxRiscv32.GpioHeld

open Common Common.Stages Kernel Module
open GpioSimInt (GpioDesc)

/-- What the binding of a device holds. -/
inductive Resource where
  | gpio (n : ℕ)
  | irq
  | debugfs
deriving DecidableEq, Repr

/-- With the variables of the module that the handlers and the remove look at. -/
structure Binding where
  held : List Resource
  gpioSw : GpioDesc
  gpioLed : GpioDesc
  irq : ℤ
deriving DecidableEq, Repr

/-- A call that changes what is held, or an assignment to a variable. -/
inductive Call where
  | stage (a : Action Resource)
  | gpioSw (p : GpioDesc)
  | gpioLed (p : GpioDesc)
  | irq (n : ℤ)
deriving DecidableEq, Repr

def perform (b : Binding) : Call → Option Binding
  | .stage a => (Stages.apply b.held a).map fun held => { b with held := held }
  | .gpioSw p => some { b with gpioSw := p }
  | .gpioLed p => some { b with gpioLed := p }
  | .irq n => some { b with irq := n }

def calls : Machine Binding Call := { step := perform }

/-- `devm_gpiod_get`, and the assignment of its result. -/
def devmGpiodGet (assign : GpioDesc → Call) : Except ℤ ℕ → List Call
  | .ok n => [.stage (.acquire (.gpio n)), assign (.desc n)]
  | .error err => [assign (.errPtr err)]

/-- What the driver core does with the resources of `devm`, the last one first. -/
def devmRelease (rs : List Resource) : List Call := rs.map fun r => .stage (.release r)

def Resource.isGpio : Resource → Bool
  | .gpio _ => true
  | .irq | .debugfs => false

/-! ## The drivers -/

/-- What the calls in the probe of `virt-int` return. A line that is requested is busy, and no
interrupt of a GPIO has the number 0. -/
structure VirtIntCalls extends VirtInt.ProbeCalls where
  distinct : ∀ n m, led = .ok n → sw = .ok m → n ≠ m
  irq_ne_zero : irq ≠ 0

/-- A descriptor that is optional: an error pointer is replaced by `NULL`. -/
def optional (assign : GpioDesc → Call) (r : Except ℤ ℕ) : List Call :=
  devmGpiodGet assign r ++
    match r with
    | .ok _ => []
    | .error _ => [assign .null]

/-- The descriptors that a probe has got, the last one first. -/
def got (first second : Except ℤ ℕ) : List Resource :=
  second.toOption.toList.map .gpio ++ first.toOption.toList.map .gpio

/-- The files in the directory `exboard_gpio`. -/
def createFiles (files : Bool) : List Call :=
  if files then [.stage (.acquire .debugfs)] else []

/-- `my_probe` of `virt-int`, and the release of the resources if it fails. -/
def virtIntProbe (c : VirtIntCalls) : ℤ × List Call :=
  let acquired := optional .gpioLed c.led ++ optional .gpioSw c.sw
  let debugfs := createFiles (c.debugfsDir && c.debugfsFiles)
  match c.sw with
  | .ok _ =>
    let acquired := acquired ++ [.irq c.irq]
    if c.irq < 0 then (c.irq, acquired ++ devmRelease (got c.led c.sw))
    else if c.ret < 0 then (c.ret, acquired ++ devmRelease (got c.led c.sw))
    else (0, acquired ++ [.stage (.acquire .irq)] ++ debugfs)
  | .error _ => (0, acquired ++ [.irq 0] ++ debugfs)

/-- `my_remove` of `virt-int`, and the release of the resources behind it. -/
def virtIntRemove (b : Binding) : List Call :=
  (if .debugfs ∈ b.held then [.stage (.release .debugfs)] else []) ++
    (if b.irq > 0 then [.stage (.release .irq)] else []) ++
    devmRelease (b.held.filter Resource.isGpio)

/-- What the calls in the probe of `gpio-sim-int` return. -/
structure GpioSimIntCalls extends GpioSimInt.ProbeCalls where
  distinct : ∀ n m, sw = .ok n → led = .ok m → n ≠ m

/-- `my_probe` of `gpio-sim-int`, and the release of the resources if it fails. -/
def gpioSimIntProbe (c : GpioSimIntCalls) : ℤ × List Call :=
  let acquired := devmGpiodGet .gpioSw c.sw
  match c.sw with
  | .error _ => (0, acquired)
  | .ok _ =>
    let acquired := acquired ++ devmGpiodGet .gpioLed c.led
    match c.led with
    | .error _ => (0, acquired)
    | .ok _ =>
      let acquired := acquired ++ [.irq c.irq]
      if c.irq < 0 then (c.irq, acquired ++ devmRelease (got c.sw c.led))
      else if c.ret < 0 then (c.ret, acquired ++ devmRelease (got c.sw c.led))
      else (0, acquired ++ [.stage (.acquire .irq)])

/-- Its interrupt belongs to `devm`, too, so `my_remove` frees nothing itself. -/
def gpioSimIntRemove (b : Binding) : List Call := devmRelease b.held

/-- The module is loaded, and no device was bound yet. -/
def unbound : Binding := { held := [], gpioSw := .null, gpioLed := .null, irq := 0 }

/-- `modules/virt-int.c`, bound to its device and unbound; entered by interrupts and by writes to
`trigger`. The release of an interrupt waits for its handlers, and the removal of a file for its
writers; here the removal waits only if no interrupt was requested, which adds runs. -/
def virtInt : Module Binding Call VirtIntCalls where
  calls := calls
  initially := unbound
  init := virtIntProbe
  exit := virtIntRemove
  «open» b := .irq ∈ b.held ∨ .debugfs ∈ b.held
  entrance := .drains

/-- `modules/gpio-sim-int.c`, entered by interrupts. -/
def gpioSimInt : Module Binding Call GpioSimIntCalls where
  calls := calls
  initially := unbound
  init := gpioSimIntProbe
  exit := gpioSimIntRemove
  «open» b := .irq ∈ b.held
  entrance := .drains

/-- The pointer is a descriptor that is held. -/
def Held (b : Binding) (p : GpioDesc) : Prop := ∃ n, p = .desc n ∧ .gpio n ∈ b.held

/-- What `irq_sw` uses: `gpio_led`, unless it is `NULL`. -/
def VirtIntReady (b : Binding) : Prop := b.gpioLed = .null ∨ Held b b.gpioLed

/-- What `irq_sw_thread` uses. -/
def GpioSimIntReady (b : Binding) : Prop := Held b b.gpioLed ∧ Held b b.gpioSw

/-- No handler can run. -/
def Closed (b : Binding) : Prop := .irq ∉ b.held ∧ .debugfs ∉ b.held

/-! ## The calls of a probe -/

section Calls

variable {P : Binding → Prop} {b t : Binding} {as : List Call} {r : Resource} {rs : List Resource}

/-- A resource that is not held can be acquired. -/
theorem completes_acquire (hb : P b) (hr : r ∉ b.held)
    (h : calls.Completes P { b with held := r :: b.held } as t) :
    calls.Completes P b (.stage (.acquire r) :: as) t := by
  have hstep : Stages.apply b.held (.acquire r) = some (r :: b.held) := if_neg hr
  refine Machine.completes_cons_iff.mpr ⟨hb, _, ?_, h⟩
  exact congrArg (Option.map fun held => { b with held := held }) hstep

/-- The last resource can be released. -/
theorem completes_release (hb : P b) (hheld : b.held = r :: rs)
    (h : calls.Completes P { b with held := rs } as t) :
    calls.Completes P b (.stage (.release r) :: as) t := by
  have hstep : Stages.apply b.held (.release r) = some rs := by
    rw [hheld]
    exact if_pos rfl
  refine Machine.completes_cons_iff.mpr ⟨hb, _, ?_, h⟩
  exact congrArg (Option.map fun held => { b with held := held }) hstep

/-- The handlers cannot run when nothing but descriptors is held. -/
theorem closed_of_gpios (h : ∀ r ∈ b.held, r.isGpio) : Closed b := by
  constructor
  · exact fun hirq => Bool.false_ne_true (h _ hirq)
  · exact fun hdebugfs => Bool.false_ne_true (h _ hdebugfs)

variable (hP : ∀ b, Closed b → P b)
include hP

/-- What `devm` holds can be released to the last. -/
theorem completes_devmRelease (hrs : ∀ r ∈ b.held, r.isGpio) :
    calls.Completes P b (devmRelease b.held) { b with held := [] } := by
  obtain ⟨held, gpioSw, gpioLed, irq⟩ := b
  induction held with
  | nil => exact Machine.completes_nil (hP _ (closed_of_gpios hrs))
  | cons r rs ih =>
    exact completes_release (hP _ (closed_of_gpios hrs)) rfl
      (ih fun q hq => hrs q (List.mem_cons_of_mem r hq))

/-- The pointer that is left by a call of `optional`. -/
def pointer : Except ℤ ℕ → GpioDesc
  | .ok n => .desc n
  | .error _ => .null

omit hP in
theorem closed_cons_gpio {n : ℕ} (hb : Closed b) : Closed { b with held := .gpio n :: b.held } :=
  ⟨fun h => (List.mem_cons.mp h).elim nofun hb.1, fun h => (List.mem_cons.mp h).elim nofun hb.2⟩

/-- What `devm_gpiod_get` returns. -/
def result : Except ℤ ℕ → GpioDesc
  | .ok n => .desc n
  | .error err => .errPtr err

/-- An assignment to one of the two pointers. -/
structure Assigns (assign : GpioDesc → Call) (set : Binding → GpioDesc → Binding) : Prop where
  perform : ∀ b p, perform b (assign p) = some (set b p)
  held : ∀ b p, (set b p).held = b.held
  again : ∀ b p q, set (set b p) q = set b q

omit hP in
theorem assigns_gpioSw : Assigns .gpioSw fun b p => { b with gpioSw := p } :=
  ⟨fun _ _ => rfl, fun _ _ => rfl, fun _ _ _ => rfl⟩

omit hP in
theorem assigns_gpioLed : Assigns .gpioLed fun b p => { b with gpioLed := p } :=
  ⟨fun _ _ => rfl, fun _ _ => rfl, fun _ _ _ => rfl⟩

variable {assign : GpioDesc → Call} {set : Binding → GpioDesc → Binding} (hset : Assigns assign set)
include hset

theorem completes_assign (hb : Closed b) (p : GpioDesc) :
    calls.Completes P b [assign p] (set b p) := by
  have hclosed : Closed (set b p) := by
    rw [Closed, hset.held]
    exact hb
  exact Machine.completes_cons_iff.mpr
    ⟨hP b hb, _, hset.perform b p, Machine.completes_nil (hP _ hclosed)⟩

/-- A descriptor is requested and assigned while no handler can run. -/
theorem completes_devmGpiodGet (hb : Closed b) (res : Except ℤ ℕ)
    (hnew : ∀ n, res = .ok n → .gpio n ∉ b.held) :
    calls.Completes P b (devmGpiodGet assign res)
      (set { b with held := res.toOption.toList.map .gpio ++ b.held } (result res)) := by
  cases res with
  | ok n =>
    have hgpio := closed_cons_gpio (n := n) hb
    exact completes_acquire (hP b hb) (hnew n rfl) (completes_assign hP hset hgpio (.desc n))
  | error err => exact completes_assign hP hset hb (.errPtr err)

/-- A descriptor that may be absent is requested and assigned while no handler can run. -/
theorem completes_optional (hb : Closed b) (res : Except ℤ ℕ)
    (hnew : ∀ n, res = .ok n → .gpio n ∉ b.held) :
    calls.Completes P b (optional assign res)
      (set { b with held := res.toOption.toList.map .gpio ++ b.held } (pointer res)) := by
  have hget := completes_devmGpiodGet hP hset hb res hnew
  cases res with
  | ok n => rwa [optional, List.append_nil]
  | error err =>
    have hclosed : Closed (set b (.errPtr err)) := by
      rw [Closed, hset.held]
      exact hb
    have hnull := completes_assign hP hset hclosed .null
    rw [hset.again] at hnull
    exact hget.append hnull

end Calls

/-! ## `virt-int` -/

section VirtInt

variable {b : Binding} {gs : List Resource}

/-- If a handler can run, it finds what it uses. -/
def VirtIntSafe (b : Binding) : Prop := virtInt.open b → VirtIntReady b

/-- Without an interrupt and without a file no handler runs. -/
theorem virtIntSafe_of_closed (hb : Closed b) : VirtIntSafe b := by
  intro hopen
  rcases of_decide_eq_true hopen with hirq | hdebugfs
  · exact absurd hirq hb.1
  · exact absurd hdebugfs hb.2

/-- The device is bound: below what lets the handler in, only descriptors are held, and the LED is
one of them if there is one. -/
structure VirtIntBound (b : Binding) (files : Bool) (gs : List Resource) : Prop where
  held : b.held = (if files then [.debugfs] else []) ++ (if b.irq > 0 then [.irq] else []) ++ gs
  gpios : ∀ r ∈ gs, r.isGpio
  led : b.gpioLed = .null ∨ ∃ n, b.gpioLed = .desc n ∧ .gpio n ∈ gs

variable {files : Bool}

/-- While the device is bound, the handler finds what it uses. -/
theorem VirtIntBound.safe (h : VirtIntBound b files gs) {rs : List Resource} (hsub : gs ⊆ rs) :
    VirtIntSafe { b with held := rs } := fun _ =>
  h.led.imp_right fun ⟨n, hn, hmem⟩ => ⟨n, hn, hsub hmem⟩

theorem VirtIntBound.debugfs_mem (h : VirtIntBound b files gs) : .debugfs ∈ b.held ↔ files := by
  have hgs : .debugfs ∉ gs := fun hmem => Bool.false_ne_true (h.gpios _ hmem)
  rw [h.held]
  cases files with
  | true => exact iff_of_true List.mem_cons_self rfl
  | false =>
    refine iff_of_false ?_ Bool.false_ne_true
    simp only [Bool.false_eq_true, if_false, List.nil_append]
    split <;> simp [hgs]

/-- The descriptors are released behind everything else. -/
theorem VirtIntBound.filter_isGpio (h : VirtIntBound b files gs) :
    b.held.filter Resource.isGpio = gs := by
  have hgs : gs.filter Resource.isGpio = gs := List.filter_eq_self.mpr h.gpios
  rw [h.held, List.filter_append, List.filter_append, hgs]
  split <;> split <;> rfl

/-- The remove and the release behind it can be made to their end, safely. -/
theorem completes_virtIntRemove (h : VirtIntBound b files gs) :
    ∃ t, calls.Completes VirtIntSafe b (virtIntRemove b) t ∧ t.held = [] := by
  refine ⟨{ b with held := [] }, ?_, rfl⟩
  have hgpios : calls.Completes VirtIntSafe { b with held := gs } (devmRelease gs)
      { b with held := [] } :=
    completes_devmRelease (b := { b with held := gs }) (fun _ => virtIntSafe_of_closed) h.gpios
  have hirq : calls.Completes VirtIntSafe
      { b with held := (if b.irq > 0 then [.irq] else []) ++ gs }
      ((if b.irq > 0 then [.stage (.release .irq)] else []) ++ devmRelease gs)
      { b with held := [] } := by
    split
    · exact completes_release (h.safe (List.subset_cons_self _ _)) rfl hgpios
    · exact hgpios
  have hheld := h.held
  -- the files go first, then the interrupt, and the descriptors behind `my_remove`
  simp only [virtIntRemove, h.filter_isGpio, h.debugfs_mem, List.append_assoc] at hheld ⊢
  cases files with
  | true =>
    have hsub : gs ⊆ b.held := by
      rw [hheld]
      exact fun r hr => List.mem_append_right _ (List.mem_append_right _ hr)
    exact completes_release (h.safe hsub) hheld hirq
  | false =>
    change b.held = (if b.irq > 0 then [.irq] else []) ++ gs at hheld
    rwa [← hheld] at hirq

/-- The variables and the descriptors, when both GPIOs have been asked for. -/
def virtIntGot (c : VirtIntCalls) (irq : ℤ) : Binding :=
  { held := got c.led c.sw, gpioSw := pointer c.sw, gpioLed := pointer c.led, irq := irq }

theorem got_isGpio {first second : Except ℤ ℕ} : ∀ r ∈ got first second, r.isGpio := by
  intro r hr
  rcases List.mem_append.mp hr with hr | hr
  · obtain ⟨n, -, rfl⟩ := List.mem_map.mp hr
    rfl
  · obtain ⟨n, -, rfl⟩ := List.mem_map.mp hr
    rfl

/-- The first part of the probe gets the descriptors. -/
theorem completes_virtIntGot (hb : b.held = []) (c : VirtIntCalls) (irq : ℤ) :
    calls.Completes VirtIntSafe b
      (optional .gpioLed c.led ++ optional .gpioSw c.sw ++ [.irq irq]) (virtIntGot c irq) := by
  obtain ⟨held, gpioSw, gpioLed, irq₀⟩ := b
  obtain rfl : held = [] := hb
  have hP : ∀ b, Closed b → VirtIntSafe b := fun _ => virtIntSafe_of_closed
  have hled := completes_optional (b := ⟨[], gpioSw, gpioLed, irq₀⟩) hP assigns_gpioLed
    ⟨List.not_mem_nil, List.not_mem_nil⟩ c.led fun _ _ => List.not_mem_nil
  rw [List.append_nil] at hled
  have hclosed : Closed ⟨c.led.toOption.toList.map .gpio, gpioSw, pointer c.led, irq₀⟩ :=
    closed_of_gpios fun r hr => got_isGpio r (List.mem_append_right (c.sw.toOption.toList.map _) hr)
  have hsw := completes_optional hP assigns_gpioSw hclosed c.sw fun n hn hmem => by
    obtain ⟨m, hm, hgpio⟩ := List.mem_map.mp hmem
    obtain rfl := Resource.gpio.inj hgpio
    cases hled : c.led with
    | ok m' =>
      rw [hled] at hm
      exact c.distinct m' m hled hn (List.mem_singleton.mp hm).symm
    | error err =>
      rw [hled] at hm
      cases hm
  have hgot : Closed (virtIntGot c irq) := closed_of_gpios got_isGpio
  exact (hled.append hsw).append
    (Machine.completes_cons_iff.mpr ⟨hsw.last, _, rfl, Machine.completes_nil (hP _ hgot)⟩)

theorem pointer_led (c : VirtIntCalls) :
    pointer c.led = .null ∨ ∃ n, pointer c.led = .desc n ∧ .gpio n ∈ got c.led c.sw := by
  cases hled : c.led with
  | ok n => exact .inr ⟨n, rfl, List.mem_append_right _ List.mem_cons_self⟩
  | error err => exact .inl rfl

/-- The files are created at the end of a probe that succeeds. -/
theorem completes_debugfs (hb : VirtIntBound b false gs) (files : Bool) :
    ∃ t, calls.Completes VirtIntSafe b (createFiles files) t ∧
      VirtIntBound t files gs := by
  have hsub : gs ⊆ b.held := by
    rw [hb.held]
    exact List.subset_append_right _ _
  cases files with
  | true =>
    have hnew : .debugfs ∉ b.held := fun hmem => Bool.false_ne_true (hb.debugfs_mem.mp hmem)
    refine ⟨{ b with held := .debugfs :: b.held }, ?_, ?_, hb.gpios, hb.led⟩
    · exact completes_acquire (hb.safe hsub) hnew
        (Machine.completes_nil (hb.safe (List.subset_cons_of_subset _ hsub)))
    · exact congrArg (Resource.debugfs :: ·) hb.held
  | false => exact ⟨b, Machine.completes_nil (hb.safe hsub), hb⟩

/-- What a probe of `virt-int` leaves. -/
theorem completes_virtIntProbe (hb : b.held = []) (c : VirtIntCalls) :
    ((virtIntProbe c).1 < 0 →
      ∃ t, calls.Completes VirtIntSafe b (virtIntProbe c).2 t ∧ t.held = []) ∧
    (0 ≤ (virtIntProbe c).1 →
      ∃ t files, calls.Completes VirtIntSafe b (virtIntProbe c).2 t ∧
        VirtIntBound t files (got c.led c.sw)) := by
  have hfail : calls.Completes VirtIntSafe (virtIntGot c c.irq) (devmRelease (got c.led c.sw))
      { virtIntGot c c.irq with held := [] } :=
    completes_devmRelease (b := virtIntGot c c.irq) (fun _ => virtIntSafe_of_closed) got_isGpio
  unfold virtIntProbe
  split
  next m hsw =>
    have hgot := completes_virtIntGot hb c c.irq
    split
    next hirq => exact ⟨fun _ => ⟨_, hgot.append hfail, rfl⟩, fun h => absurd hirq (not_lt.mpr h)⟩
    split
    next hret => exact ⟨fun _ => ⟨_, hgot.append hfail, rfl⟩, fun h => absurd hret (not_lt.mpr h)⟩
    next hret =>
      -- `my_remove` frees the interrupt only if its number is positive
      have hpos : 0 < c.irq := by
        have := c.irq_ne_zero
        omega
      have hidle : Closed (virtIntGot c c.irq) := closed_of_gpios got_isGpio
      have hbound : VirtIntBound { virtIntGot c c.irq with held := .irq :: got c.led c.sw } false
          (got c.led c.sw) :=
        ⟨by simp [virtIntGot, hpos], got_isGpio, pointer_led c⟩
      have hacquire : calls.Completes VirtIntSafe (virtIntGot c c.irq) [.stage (.acquire .irq)]
          { virtIntGot c c.irq with held := .irq :: got c.led c.sw } :=
        completes_acquire hgot.last hidle.1
          (Machine.completes_nil (hbound.safe (List.subset_cons_self _ _)))
      obtain ⟨t, hfiles, ht⟩ := completes_debugfs hbound (c.debugfsDir && c.debugfsFiles)
      exact ⟨fun h => absurd h (lt_irrefl 0),
        fun _ => ⟨t, _, (hgot.append hacquire).append hfiles, ht⟩⟩
  next err hsw =>
    have hgot := completes_virtIntGot hb c 0
    refine ⟨fun h => absurd h (lt_irrefl 0), fun _ => ?_⟩
    -- without a switch there is no interrupt, but the files are created
    have hbound : VirtIntBound (virtIntGot c 0) false (got c.led c.sw) :=
      ⟨rfl, got_isGpio, pointer_led c⟩
    obtain ⟨t, hfiles, ht⟩ := completes_debugfs hbound (c.debugfsDir && c.debugfsFiles)
    exact ⟨t, _, hgot.append hfiles, ht⟩

/-- The driver fits the life cycle. -/
theorem staged_virtInt : virtInt.Staged (·.held = []) VirtIntSafe where
  initially := rfl
  idle b hb := by
    have hclosed : Closed b := closed_of_gpios fun r hr => by
      rw [hb] at hr
      exact absurd hr List.not_mem_nil
    exact ⟨virtIntSafe_of_closed hclosed, decide_eq_false fun h => h.elim hclosed.1 hclosed.2⟩
  fails b c hb := (completes_virtIntProbe hb c).1
  loads b c hb hret := by
    obtain ⟨t, _, ht, -⟩ := (completes_virtIntProbe hb c).2 hret
    exact ⟨t, ht⟩
  unloads b := by
    rintro ⟨b₀, c, hb₀, hret, hrun⟩
    obtain ⟨t, files, ht, hbound⟩ := (completes_virtIntProbe hb₀ c).2 hret
    obtain rfl := Option.some.inj (ht.run.symm.trans hrun)
    exact completes_virtIntRemove hbound
  keeps := nofun

end VirtInt

/-! ## `gpio-sim-int` -/

section GpioSimInt

variable {b : Binding}

/-- If the handler can run, it finds what it uses. -/
def GpioSimIntSafe (b : Binding) : Prop := gpioSimInt.open b → GpioSimIntReady b

theorem gpioSimIntSafe_of_closed (hb : Closed b) : GpioSimIntSafe b :=
  fun hopen => absurd (of_decide_eq_true hopen) hb.1

/-- The device is bound: with the interrupt and both descriptors, or with some descriptors only. -/
inductive GpioSimIntBound (b : Binding) : Prop where
  | irq (n m : ℕ) (hheld : b.held = [.irq, .gpio m, .gpio n]) (hsw : b.gpioSw = .desc n)
      (hled : b.gpioLed = .desc m)
  | gpios (hgpios : ∀ r ∈ b.held, r.isGpio)

/-- While the device is bound, the handler finds what it uses. -/
theorem GpioSimIntBound.safe (h : GpioSimIntBound b) : GpioSimIntSafe b := by
  cases h with
  | irq n m hheld hsw hled =>
    refine fun _ => ⟨⟨m, hled, ?_⟩, n, hsw, ?_⟩
    · rw [hheld]
      exact List.mem_cons_of_mem _ List.mem_cons_self
    · rw [hheld]
      exact List.mem_cons_of_mem _ (List.mem_cons_of_mem _ List.mem_cons_self)
  | gpios hgpios => exact gpioSimIntSafe_of_closed (closed_of_gpios hgpios)

/-- The remove and the release behind it can be made to their end, safely. -/
theorem completes_gpioSimIntRemove (h : GpioSimIntBound b) :
    ∃ t, calls.Completes GpioSimIntSafe b (gpioSimIntRemove b) t ∧ t.held = [] := by
  refine ⟨{ b with held := [] }, ?_, rfl⟩
  have hsafe := h.safe
  cases h with
  | irq n m hheld hsw hled =>
    have hgpios : calls.Completes GpioSimIntSafe { b with held := [.gpio m, .gpio n] }
        (devmRelease [.gpio m, .gpio n]) { b with held := [] } :=
      completes_devmRelease (b := { b with held := [.gpio m, .gpio n] })
        (fun _ => gpioSimIntSafe_of_closed) (by simp [Resource.isGpio])
    rw [gpioSimIntRemove, hheld]
    exact completes_release hsafe hheld hgpios
  | gpios hgpios => exact completes_devmRelease (fun _ => gpioSimIntSafe_of_closed) hgpios

/-- What a probe of `gpio-sim-int` leaves. -/
theorem completes_gpioSimIntProbe (hb : b.held = []) (c : GpioSimIntCalls) :
    ((gpioSimIntProbe c).1 < 0 →
      ∃ t, calls.Completes GpioSimIntSafe b (gpioSimIntProbe c).2 t ∧ t.held = []) ∧
    (0 ≤ (gpioSimIntProbe c).1 →
      ∃ t, calls.Completes GpioSimIntSafe b (gpioSimIntProbe c).2 t ∧ GpioSimIntBound t) := by
  obtain ⟨held, gpioSw, gpioLed, irq₀⟩ := b
  obtain rfl : held = [] := hb
  have hP : ∀ b, Closed b → GpioSimIntSafe b := fun _ => gpioSimIntSafe_of_closed
  have hclosed : Closed ⟨[], gpioSw, gpioLed, irq₀⟩ := ⟨List.not_mem_nil, List.not_mem_nil⟩
  have hget := completes_devmGpiodGet hP assigns_gpioSw hclosed c.sw fun _ _ => List.not_mem_nil
  unfold gpioSimIntProbe
  cases hsw : c.sw with
  | error err =>
    rw [hsw] at hget
    exact ⟨fun h => absurd h (lt_irrefl 0), fun _ => ⟨_, hget, .gpios fun _ h => by cases h⟩⟩
  | ok n =>
    rw [hsw] at hget
    have hgot : Closed ⟨[.gpio n], .desc n, gpioLed, irq₀⟩ :=
      closed_of_gpios (by simp [Resource.isGpio])
    have hnew : ∀ m, c.led = .ok m → .gpio m ∉ [Resource.gpio n] := fun m hm hmem =>
      c.distinct n m hsw hm (Resource.gpio.inj (List.mem_singleton.mp hmem)).symm
    have hgets := hget.append (completes_devmGpiodGet hP assigns_gpioLed hgot c.led hnew)
    cases hled : c.led with
    | error err =>
      rw [hled] at hgets
      exact ⟨fun h => absurd h (lt_irrefl 0),
        fun _ => ⟨_, hgets, .gpios (by simp [Except.toOption, Resource.isGpio])⟩⟩
    | ok m =>
      rw [hled] at hgets
      have hboth : ∀ r ∈ [Resource.gpio m, .gpio n], r.isGpio := by simp [Resource.isGpio]
      have hidle : Closed ⟨[.gpio m, .gpio n], .desc n, .desc m, c.irq⟩ := closed_of_gpios hboth
      have hassign : calls.Completes GpioSimIntSafe ⟨[.gpio m, .gpio n], .desc n, .desc m, irq₀⟩
          [.irq c.irq] ⟨[.gpio m, .gpio n], .desc n, .desc m, c.irq⟩ :=
        Machine.completes_cons_iff.mpr ⟨hgets.last, _, rfl, Machine.completes_nil (hP _ hidle)⟩
      have hirq := hgets.append hassign
      have hfail : calls.Completes GpioSimIntSafe ⟨[.gpio m, .gpio n], .desc n, .desc m, c.irq⟩
          (devmRelease [.gpio m, .gpio n]) ⟨[], .desc n, .desc m, c.irq⟩ :=
        completes_devmRelease hP hboth
      dsimp only
      split
      next hneg =>
        exact ⟨fun _ => ⟨_, hirq.append hfail, rfl⟩, fun h => absurd hneg (not_lt.mpr h)⟩
      split
      next hneg =>
        exact ⟨fun _ => ⟨_, hirq.append hfail, rfl⟩, fun h => absurd hneg (not_lt.mpr h)⟩
      next =>
        -- the interrupt comes last, behind both pointers, so the first handler finds them
        have hbound : GpioSimIntBound ⟨[.irq, .gpio m, .gpio n], .desc n, .desc m, c.irq⟩ :=
          .irq n m rfl rfl rfl
        have hacquire : calls.Completes GpioSimIntSafe
            ⟨[.gpio m, .gpio n], .desc n, .desc m, c.irq⟩ [.stage (.acquire .irq)]
            ⟨[.irq, .gpio m, .gpio n], .desc n, .desc m, c.irq⟩ :=
          completes_acquire (hP _ hidle) hidle.1 (Machine.completes_nil hbound.safe)
        exact ⟨fun h => absurd h (lt_irrefl 0), fun _ => ⟨_, hirq.append hacquire, hbound⟩⟩

/-- The driver fits the life cycle. -/
theorem staged_gpioSimInt : gpioSimInt.Staged (·.held = []) GpioSimIntSafe where
  initially := rfl
  idle b hb := by
    have hclosed : Closed b := closed_of_gpios fun r hr => by
      rw [hb] at hr
      exact absurd hr List.not_mem_nil
    exact ⟨gpioSimIntSafe_of_closed hclosed, decide_eq_false hclosed.1⟩
  fails b c hb := (completes_gpioSimIntProbe hb c).1
  loads b c hb hret := by
    obtain ⟨t, ht, -⟩ := (completes_gpioSimIntProbe hb c).2 hret
    exact ⟨t, ht⟩
  unloads b := by
    rintro ⟨b₀, c, hb₀, hret, hrun⟩
    obtain ⟨t, ht, hbound⟩ := (completes_gpioSimIntProbe hb₀ c).2 hret
    obtain rfl := Option.some.inj (ht.run.symm.trans hrun)
    exact completes_gpioSimIntRemove hbound
  keeps := nofun

end GpioSimInt

/-! ## Whole runs -/

/-- The probes return what the models without their calls return. -/
theorem virtIntProbe_fst (d : VirtInt.Driver) (c : VirtIntCalls) :
    (virtIntProbe c).1 = (VirtInt.myProbe d c.toProbeCalls).ret := by
  simp only [virtIntProbe, VirtInt.myProbe, apply_ite VirtInt.ProbeResult.ret]
  cases hsw : c.sw with
  | ok n =>
    simp only [VirtInt.requestSw, reduceCtorEq, if_false]
    split
    · rfl
    · split <;> rfl
  | error err => simp [VirtInt.requestSw]

/-- The probe call by call returns what the probe as one step returns. -/
theorem gpioSimIntProbe_fst (d : GpioSimInt.Driver) (c : GpioSimIntCalls) :
    (gpioSimIntProbe c).1 = (GpioSimInt.myProbe d c.toProbeCalls).ret := by
  simp only [gpioSimIntProbe, GpioSimInt.myProbe]
  cases hsw : c.sw with
  | ok n =>
    cases hled : c.led with
    | ok m =>
      dsimp only
      split
      · rfl
      · split <;> rfl
    | error err => rfl
  | error err => rfl

section Run

variable {F : Type*} [DecidableEq F]

/-- **Handlers meet no released descriptor.** In every run of probes, whatever their calls return,
of removes, and of interrupts and writes to `trigger` at any moment, also between two calls of a
probe or of the release behind a remove: while a handler of `virt-int` runs, `gpio_led` is `NULL` or
a descriptor that is held, and while one of `gpio-sim-int` runs, both its pointers are. Nothing is
held behind a probe that fails or a remove, and no call releases what is not held. -/
theorem ready_of_run {es : List (Event VirtIntCalls F)} {t : State Binding Call F}
    (hrun : virtInt.machine.run virtInt.start es = some t)
    {es' : List (Event GpioSimIntCalls F)} {t' : State Binding Call F}
    (hrun' : gpioSimInt.machine.run gpioSimInt.start es' = some t') :
    ((t.users ≠ [] → VirtIntReady t.holds) ∧ (t.status = .absent → t.holds.held = []) ∧
      ∀ a, t.next = some a → ∃ b, perform t.holds a = some b) ∧
    ((t'.users ≠ [] → GpioSimIntReady t'.holds) ∧ (t'.status = .absent → t'.holds.held = []) ∧
      ∀ a, t'.next = some a → ∃ b, perform t'.holds a = some b) := by
  constructor
  · have hsettled := settled_of_run staged_virtInt hrun
    have hin := inside_of_run staged_virtInt hrun fun x _ => calm_of_drains rfl x.1 x.2
    refine ⟨fun husers => hsettled.holds staged_virtInt (hin husers).1, fun hstatus => ?_,
      fun a ha => hsettled.next ha⟩
    rwa [Settled, hstatus] at hsettled
  · have hsettled := settled_of_run staged_gpioSimInt hrun'
    have hin := inside_of_run staged_gpioSimInt hrun' fun x _ => calm_of_drains rfl x.1 x.2
    refine ⟨fun husers => hsettled.holds staged_gpioSimInt (hin husers).1, fun hstatus => ?_,
      fun a ha => hsettled.next ha⟩
    rwa [Settled, hstatus] at hsettled

end Run

/-- Both GPIOs and the interrupt are there. -/
def virtIntOk : VirtIntCalls where
  led := .ok 3
  sw := .ok 4
  irq := 50
  ret := 0
  swValue := 0
  debugfsDir := true
  debugfsFiles := true
  distinct := by simp
  irq_ne_zero := by decide

def gpioSimIntOk : GpioSimIntCalls where
  sw := .ok 0
  led := .ok 1
  irq := 50
  ret := 0
  swValue := 0
  swValue' := 0
  distinct := by simp

/-- The first interrupt comes before the probe has returned. -/
theorem ready_of_run_probe :
    let es : List (Event VirtIntCalls ℕ) :=
      [.load virtIntOk, .act, .act, .act, .act, .act, .act, .enter 0]
    let es' : List (Event GpioSimIntCalls ℕ) :=
      [.load gpioSimIntOk, .act, .act, .act, .act, .act, .act, .enter 0]
    let t := (virtInt.machine.run virtInt.start es).get (by decide)
    let t' := (gpioSimInt.machine.run gpioSimInt.start es').get (by decide)
    VirtIntReady t.holds ∧ GpioSimIntReady t'.holds := by
  intro es es' t t'
  have hrun : virtInt.machine.run virtInt.start es = some t := (Option.some_get _).symm
  have hrun' : gpioSimInt.machine.run gpioSimInt.start es' = some t' := (Option.some_get _).symm
  have hready := ready_of_run hrun hrun'
  exact ⟨hready.1.1 (by decide), hready.2.1 (by decide)⟩

end LinuxRiscv32.GpioHeld

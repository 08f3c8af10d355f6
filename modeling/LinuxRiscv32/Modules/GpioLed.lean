import LinuxRiscv32.Modules.GpioIrq
import Mathlib.Algebra.Group.Nat.Even

/-!
# `gpio-sim-int`: every bottom half toggles the LED

Reference: `modules/gpio-sim-int.c` (`ledvalue`, `irq_sw_thread`, `my_probe`).

The thread computes `1 - ledvalue`, and the line only tells zero from the other values. The
parameter may be any `int`. From a value other than 0 and 1 the subtraction never arrives at 0, and
the LED stays lit.
-/

namespace LinuxRiscv32.GpioSimInt.Led

open Common Irq

/-- A value of type `int`. -/
def IsInt (x : ℤ) : Prop := -2 ^ 31 ≤ x ∧ x < 2 ^ 31

instance (x : ℤ) : Decidable (IsInt x) := inferInstanceAs (Decidable (_ ∧ _))

/-- A level. -/
def IsBit (x : ℤ) : Prop := x = 0 ∨ x = 1

instance (x : ℤ) : Decidable (IsBit x) := inferInstanceAs (Decidable (_ ∨ _))

/-- A probe that gets everything, so that the threaded interrupt is requested. -/
def Complete (c : ProbeCalls) : Prop := c.sw.isOk ∧ c.led.isOk ∧ 0 ≤ c.irq ∧ 0 ≤ c.ret

instance (c : ProbeCalls) : Decidable (Complete c) := inferInstanceAs (Decidable (_ ∧ _ ∧ _ ∧ _))

/-- The module and the driver core, and whether the interrupt is requested. -/
structure State where
  core : GpioSimInt.State
  armed : Bool
deriving DecidableEq

inductive Event where
  | core (e : GpioSimInt.Event)
  /-- A run of the bottom half. -/
  | thread (now swValue : ℤ)

/-- A module is only loaded with a parameter that is an `int`. -/
def ParamOk : GpioSimInt.Event → Prop
  | .load ledvalue _ _ => IsInt ledvalue
  | .probe _ | .remove _ _ | .unload _ _ => True

instance (e : GpioSimInt.Event) : Decidable (ParamOk e) := by
  unfold ParamOk
  split <;> infer_instance

/-- Whether the interrupt is requested after an event; `devm` frees it with the device. -/
def arms : GpioSimInt.Event → Bool
  | .probe c => Complete c
  | .load _ _ _ | .remove _ _ | .unload _ _ => false

def step (s : State) : Event → Option State
  | .core e =>
    if ParamOk e then (GpioSimInt.step s.core e).map fun core => { core := core, armed := arms e }
    else none
  | .thread now swValue =>
    if s.armed then
      some { s with core := { s.core with driver := (irqSwThread s.core.driver now swValue).1 } }
    else none

def machine : Machine State Event := ⟨step⟩

/-- Before the first load. -/
def init (tables : List Table) (led : Bool) : State :=
  { core := GpioSimInt.init tables led, armed := false }

/-- The parameter that the module was loaded with last. -/
def param (es : List Event) : ℤ :=
  es.foldl (fun v e =>
    match e with
    | .core (.load ledvalue device driver) =>
      if gpioSimDemoInit device driver = 0 then ledvalue else v
    | _ => v) 0

/-- The driver after some runs of the bottom half. -/
def threads (d : Driver) (runs : List (ℤ × ℤ)) : Driver :=
  runs.foldl (fun d r => (irqSwThread d r.1 r.2).1) d

/-- Each of the runs inverts the LED, and the level behind them is the one before them, inverted if
their number is odd. -/
structure Toggles (d : Driver) (runs : List (ℤ × ℤ)) : Prop where
  each : ∀ k, k < runs.length →
    (threads d (runs.take (k + 1))).led = !(threads d (runs.take k)).led
  parity : (threads d runs).led = (d.led ^^ decide (Odd runs.length))

/-! ## The orbit of `1 - x` -/

section Orbit

variable {x : ℤ}

theorem isInt_s32 (x : ℤ) : IsInt (s32 x) := ⟨Int.le_bmod (by decide), s32_lt x⟩

/-- The subtraction wraps at the two lowest values. -/
theorem s32_sub (h : IsInt x) :
    s32 (1 - x) = if x ≤ 1 - 2 ^ 31 then 1 - x - 2 ^ 32 else 1 - x := by
  obtain ⟨h0, hlt⟩ := h
  split
  · exact s32_of_overflow (by omega) (by omega)
  · exact s32_of_range (by omega) (by omega)

/-- It leads to 0 or 1 from 0 or 1 only. -/
theorem isBit_sub_iff (h : IsInt x) : IsBit (s32 (1 - x)) ↔ IsBit x := by
  obtain ⟨h0, hlt⟩ := h
  rw [s32_sub ⟨h0, hlt⟩]
  split <;> unfold IsBit <;> omega

/-- The line changes with the value exactly for 0 and 1. -/
theorem level_sub_iff (h : IsInt x) :
    decide (s32 (1 - x) ≠ 0) = !decide (x ≠ 0) ↔ IsBit x := by
  obtain ⟨h0, hlt⟩ := h
  have hzero : s32 (1 - x) = 0 ↔ x = 1 := by
    rw [s32_sub ⟨h0, hlt⟩]
    split <;> omega
  unfold IsBit
  by_cases hx0 : x = 0
  · subst hx0
    exact iff_of_true rfl (.inl rfl)
  · by_cases hx1 : x = 1
    · subst hx1
      exact iff_of_true rfl (.inr rfl)
    · simp [hzero, hx0, hx1]

end Orbit

/-! ## Runs of the bottom half -/

section Threads

variable {d : Driver} {runs : List (ℤ × ℤ)}

/-- The LED is lit while the variable is not zero. -/
structure Shown (d : Driver) : Prop where
  isInt : IsInt d.ledvalue
  led : d.led = decide (d.ledvalue ≠ 0)

/-- Behind the handler, the LED shows `ledvalue`. -/
theorem shown_thread (d : Driver) (now swValue : ℤ) : Shown (irqSwThread d now swValue).1 :=
  ⟨isInt_s32 _, rfl⟩

theorem threads_take_succ {k : ℕ} (hk : k < runs.length) :
    threads d (runs.take (k + 1)) =
      (irqSwThread (threads d (runs.take k)) runs[k].1 runs[k].2).1 := by
  rw [threads, List.take_succ_eq_append_getElem hk, List.foldl_concat]
  rfl

/-- A run inverts the LED if and only if the variable is 0 or 1. -/
theorem thread_led_iff (h : Shown d) (now swValue : ℤ) :
    (irqSwThread d now swValue).1.led = !d.led ↔ IsBit d.ledvalue := by
  rw [h.led]
  exact level_sub_iff h.isInt

/-- The variable stays 0 or 1, and the LED shows it. -/
theorem threads_take_shown (h : Shown d) (hbit : IsBit d.ledvalue) {k : ℕ} (hk : k ≤ runs.length) :
    Shown (threads d (runs.take k)) ∧ IsBit (threads d (runs.take k)).ledvalue := by
  induction k with
  | zero => exact ⟨h, hbit⟩
  | succ k ih =>
    obtain ⟨hshown, hbit'⟩ := ih (Nat.le_of_succ_le hk)
    rw [threads_take_succ hk]
    exact ⟨shown_thread _ _ _, (isBit_sub_iff hshown.isInt).mpr hbit'⟩

/-- If every run inverts the LED, its level is the parity of the runs. -/
theorem threads_parity (heach : ∀ k, k < runs.length →
      (threads d (runs.take (k + 1))).led = !(threads d (runs.take k)).led) {k : ℕ}
    (hk : k ≤ runs.length) : (threads d (runs.take k)).led = (d.led ^^ decide (Odd k)) := by
  induction k with
  | zero => exact (Bool.xor_false d.led).symm
  | succ k ih =>
    have hodd : decide (Odd (k + 1)) = !decide (Odd k) := by
      rw [← decide_not]
      exact decide_eq_decide.mpr Nat.odd_add_one
    rw [heach k hk, ih (Nat.le_of_succ_le hk), hodd, Bool.xor_not]

/-- The LED toggles with every run exactly if it starts from a bit. -/
theorem toggles_iff (h : Shown d) (runs : List (ℤ × ℤ)) :
    Toggles d runs ↔ runs = [] ∨ IsBit d.ledvalue := by
  constructor
  · intro htoggles
    cases runs with
    | nil => exact .inl rfl
    | cons r runs =>
      have hfirst := htoggles.each 0 (Nat.succ_pos _)
      exact .inr ((thread_led_iff h r.1 r.2).mp hfirst)
  · intro hcases
    have heach : ∀ k, k < runs.length →
        (threads d (runs.take (k + 1))).led = !(threads d (runs.take k)).led := by
      intro k hk
      rcases hcases with rfl | hbit
      · exact absurd hk (Nat.not_lt_zero k)
      · obtain ⟨hshown, hbit'⟩ := threads_take_shown h hbit (Nat.le_of_lt hk)
        rw [threads_take_succ hk]
        exact (thread_led_iff hshown _ _).mpr hbit'
    have hparity := threads_parity heach le_rfl
    rw [List.take_length] at hparity
    exact ⟨heach, hparity⟩

end Threads

/-! ## Reachable states -/

section Runs

variable {v : ℤ} {s t : State} {e : Event} {es : List Event}

/-- The variable is in the orbit of the parameter, and the LED shows it while the interrupt is
requested. -/
structure Inv (v : ℤ) (s : State) : Prop where
  isInt : IsInt s.core.driver.ledvalue
  isBit : IsBit s.core.driver.ledvalue ↔ IsBit v
  led : s.armed → s.core.driver.led = decide (s.core.driver.ledvalue ≠ 0)

theorem param_concat (es : List Event) (e : Event) :
    param (es ++ [e]) =
      match e with
      | .core (.load ledvalue device driver) =>
        if gpioSimDemoInit device driver = 0 then ledvalue else param es
      | _ => param es :=
  List.foldl_concat _ _ _ _

/-- At first `ledvalue` is 0 and no interrupt is requested. -/
theorem inv_init (tables : List Table) (led : Bool) : Inv (param []) (init tables led) where
  isInt := show IsInt 0 by decide
  isBit := Iff.rfl
  led h := absurd h Bool.false_ne_true

/-- A probe keeps the variable, and a complete one shows it. -/
theorem myProbe_ledvalue (d : Driver) (c : ProbeCalls) :
    (myProbe d c).driver.ledvalue = d.ledvalue ∧
      (Complete c → (myProbe d c).driver.led = decide (d.ledvalue ≠ 0)) := by
  obtain ⟨sw, led, irq, ret, swValue, swValue'⟩ := c
  cases sw with
  | error err => exact ⟨rfl, fun h => absurd h.1 Bool.false_ne_true⟩
  | ok sw =>
    cases led with
    | error err => exact ⟨rfl, fun h => absurd h.2.1 Bool.false_ne_true⟩
    | ok led =>
      unfold myProbe
      dsimp only
      by_cases hirq : irq < 0
      · rw [if_pos hirq]
        exact ⟨rfl, fun h => absurd h.2.2.1 (not_le.mpr hirq)⟩
      · rw [if_neg hirq]
        split <;> exact ⟨rfl, fun _ => rfl⟩

/-- What a step does to the variable: a load sets it to the parameter, the thread inverts it. The
other steps keep it, and the LED shows it if the interrupt is requested behind them. -/
inductive Effect (s t : State) (e : Event) : Prop where
  | load (v : ℤ) (hparam : ∀ es, param (es ++ [e]) = v) (hint : IsInt v)
      (hvalue : t.core.driver.ledvalue = v) (hdisarmed : t.armed = false)
  | thread (now swValue : ℤ) (hparam : ∀ es, param (es ++ [e]) = param es)
      (hdriver : t.core.driver = (irqSwThread s.core.driver now swValue).1)
  | keep (hparam : ∀ es, param (es ++ [e]) = param es)
      (hvalue : t.core.driver.ledvalue = s.core.driver.ledvalue)
      (hled : t.armed → t.core.driver.led = decide (s.core.driver.ledvalue ≠ 0))

/-- Every step has one of these effects. -/
theorem step_effect (h : step s e = some t) : Effect s t e := by
  have disarmed {P : Prop} (harmed : (false : Bool)) : P := absurd harmed Bool.false_ne_true
  cases e with
  | thread now swValue =>
    obtain ⟨-, rfl⟩ := Machine.guard_eq_some.mp h
    exact .thread now swValue (fun es => param_concat es _) rfl
  | core e =>
    obtain ⟨hparam, h⟩ := Option.ite_none_right_eq_some.mp h
    obtain ⟨core, hcore, rfl⟩ := Option.map_eq_some_iff.mp h
    cases e with
    | load ledvalue device driver =>
      obtain ⟨-, hcore⟩ := Option.ite_none_left_eq_some.mp hcore
      split at hcore
      next hinit =>
        obtain rfl := Option.some.inj hcore
        exact .load ledvalue (fun es => (param_concat es _).trans (if_pos hinit)) hparam rfl rfl
      next hinit =>
        obtain rfl := Option.some.inj hcore
        exact .keep (fun es => (param_concat es _).trans (if_neg hinit)) rfl disarmed
    | probe c =>
      obtain ⟨-, rfl⟩ := Machine.guard_eq_some.mp hcore
      obtain ⟨hsame, hshown⟩ := myProbe_ledvalue s.core.driver c
      exact .keep (fun es => param_concat es _) hsame
        fun harmed => hshown (of_decide_eq_true harmed)
    | remove ledValue swValue =>
      obtain ⟨-, rfl⟩ := Machine.guard_eq_some.mp hcore
      exact .keep (fun es => param_concat es _) rfl disarmed
    | unload ledValue swValue =>
      obtain ⟨-, rfl⟩ := Machine.guard_eq_some.mp hcore
      refine .keep (fun es => param_concat es _) ?_ disarmed
      show (if s.core.bound then (myRemove s.core.driver ledValue swValue).1
        else s.core.driver).ledvalue = s.core.driver.ledvalue
      split <;> rfl

/-- Each step keeps `ledvalue` in the orbit of the parameter. -/
theorem inv_step (hs : Inv (param es) s) (h : step s e = some t) : Inv (param (es ++ [e])) t := by
  obtain ⟨hint, hbit, -⟩ := hs
  cases step_effect h with
  | load v hparam hv hvalue hdisarmed =>
    rw [hparam]
    refine ⟨hvalue ▸ hv, hvalue ▸ Iff.rfl, fun harmed => ?_⟩
    rw [hdisarmed] at harmed
    exact absurd harmed Bool.false_ne_true
  | thread now swValue hparam hdriver =>
    have hshown := shown_thread s.core.driver now swValue
    rw [hparam]
    refine ⟨?_, ?_, fun _ => ?_⟩ <;> rw [hdriver]
    · exact hshown.isInt
    · exact (isBit_sub_iff hint).trans hbit
    · exact hshown.led
  | keep hparam hvalue hled =>
    rw [hparam]
    refine ⟨?_, ?_, fun harmed => ?_⟩ <;> rw [hvalue]
    · exact hint
    · exact hbit
    · exact hled harmed

/-- Every run keeps `ledvalue` in the orbit of the parameter. -/
theorem inv_run {tables : List Table} {led : Bool}
    (hrun : machine.run (init tables led) es = some s) : Inv (param es) s :=
  Machine.label_invariant_of_step (M := machine) (I := fun es s => Inv (param es) s)
    (fun _ _ _ _ => inv_step) (inv_init tables led) hrun

end Runs

/-- **Toggling.** In every reachable state in which the interrupt is requested, whatever parameter
the module was loaded with and however often it was bound since: all further runs of the bottom half
invert the LED, and their parity is its level, if and only if there is none of them or the parameter
was 0 or 1. -/
theorem bottomHalves_toggle_iff {tables : List Table} {led : Bool} {es : List Event} {s : State}
    (hrun : machine.run (init tables led) es = some s) (harmed : s.armed) (runs : List (ℤ × ℤ)) :
    Toggles s.core.driver runs ↔ runs = [] ∨ param es = 0 ∨ param es = 1 := by
  have hinv := inv_run hrun
  rw [toggles_iff ⟨hinv.isInt, hinv.led harmed⟩, hinv.isBit]
  rfl

/-- A probe with everything. -/
def granted : ProbeCalls := { noInterrupt with irq := 50 }

/-- A run of the bottom half, a second binding, and two more runs. -/
theorem bottomHalves_toggle_iff_twoBindings :
    let es : List Event :=
      [.core (.load 1 (.ok ()) 0), .core (.probe granted), .thread 2000 0, .core (.remove 0 0),
        .core (.probe granted)]
    Toggles ((machine.run (init [] false) es).get (by decide)).core.driver [(5000, 1), (7000, 0)] ↔
      [((5000 : ℤ), (1 : ℤ)), (7000, 0)] = [] ∨ param es = 0 ∨ param es = 1 :=
  bottomHalves_toggle_iff (Option.some_get _).symm (by decide) _

/-- With the parameter 2 the LED is lit after the probe and after the first run. -/
theorem ledvalue_two_breaks_toggling :
    ¬ ∀ (ledvalue : ℤ) (s : State), IsInt ledvalue →
      machine.run (init [] false) [.core (.load ledvalue (.ok ()) 0), .core (.probe granted)] =
        some s → ∀ runs, Toggles s.core.driver runs := by
  intro h
  have htoggles := h 2 _ (by decide) rfl [(0, 0)]
  exact absurd (htoggles.each 0 Nat.one_pos) (by decide)

end LinuxRiscv32.GpioSimInt.Led

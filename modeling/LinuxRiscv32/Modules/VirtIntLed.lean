import LinuxRiscv32.Modules.VirtInt
import Mathlib.Algebra.Group.Nat.Even

/-!
# `virt-int`: the LED and the level

Reference: `modules/virt-int.c` (`irq_sw`, `trigger_write`, `my_probe`).

The level starts at 1 and survives a remove, but every probe drives the LED low. They agree again
with the next run of `irq_sw`, and until then only if the level happens to be 0. The drivers
`modules/gpio-sim-int.c` and `modules/gpio-sim-demo.c` drive the LED with their variable at the end
of the probe.
-/

namespace LinuxRiscv32.VirtInt.Led

open Common Kernel

/-- The LED shows the level. -/
def Follows (d : Driver) : Prop := d.ledlevel = d.led.toNat

/-- A probe succeeds, and it gets the LED. -/
def Succeeds (s : State) : Event → Prop
  | .probe c => c.led.isOk ∧ (myProbe s.driver c).ret = 0
  | _ => True

/-- The events that run `irq_sw`: an interrupt, and a write of 1 to 7 readable bytes of which the
first one is `1`. -/
def Accepted : Event → Prop
  | .interrupt _ => True
  | .trigger _ ubuf fault => ubuf.length ≤ 7 ∧ fault = 0 ∧ ubuf.head? = some '1'.toUInt8
  | .probe _ | .remove => False

instance (e : Event) : Decidable (Accepted e) := by
  unfold Accepted
  split <;> infer_instance

/-- How often `irq_sw` has run before the last probe, and since then. -/
structure Tally where
  before : ℕ
  since : ℕ
deriving DecidableEq, Repr

def Tally.add (T : Tally) (e : Event) : Tally :=
  match e with
  | .probe _ => { before := T.before + T.since, since := 0 }
  | e => if Accepted e then { T with since := T.since + 1 } else T

def tally (es : List Event) : Tally := es.foldl Tally.add { before := 0, since := 0 }

/-- `irq_sw` has run since the last probe, or it had run an odd number of times before it. -/
def Tally.Synced (T : Tally) : Prop := 0 < T.since ∨ Odd T.before

/-! ## Events that run `irq_sw`, and events that do not -/

section Steps

variable {s t : State} {e : Event}

/-- The first byte of the buffer of `trigger_write`, if the copy has completed. -/
theorem copied_head {stack : ℤ → Byte} {ubuf : List Byte} {fault : ℕ}
    (h : min fault ubuf.length = 0) :
    blit (copyFromUser stack 0 ubuf ubuf.length fault).2 ubuf.length [0] 0 =
      ubuf.head?.getD 0 := by
  have hcopy : (copyFromUser stack 0 ubuf ubuf.length fault).2 = blit stack 0 ubuf := by
    simp only [copyFromUser, Int.toNat_natCast, h, Nat.sub_zero, List.take_length,
      List.replicate_zero, List.append_nil]
  have hlength : 0 < (ubuf ++ [0]).length := by
    rw [List.length_append]
    exact Nat.succ_pos _
  rw [hcopy, blit_zero_append]
  refine (blit_add stack (p := 0) hlength).trans ?_
  cases ubuf <;> rfl

/-- A write that is accepted runs `irq_sw`, any other one changes nothing. -/
theorem triggerWrite_driver (d : Driver) (stack : ℤ → Byte) (ubuf : List Byte) (fault : ℕ) :
    (triggerWrite d stack ubuf fault).driver =
      if Accepted (.trigger stack ubuf fault) then irqSw d else d := by
  unfold triggerWrite
  by_cases hlen : ubuf.length ≤ 7
  · rw [if_neg (by omega)]
    by_cases hfault : min fault ubuf.length = 0
    · have hcopied : ¬ (copyFromUser stack 0 ubuf ubuf.length fault).1 ≠ 0 := by
        simp only [copyFromUser, Int.toNat_natCast, hfault]
        exact not_not.mpr rfl
      dsimp only
      rw [if_neg hcopied, copied_head hfault]
      by_cases hhead : ubuf.head? = some '1'.toUInt8
      · have hpos := List.length_pos_of_mem (List.mem_of_head? hhead)
        have haccepted : Accepted (.trigger stack ubuf fault) := ⟨hlen, by omega, hhead⟩
        rw [if_pos haccepted, hhead, if_pos (Option.getD_some ..)]
      · have hother : ubuf.head?.getD 0 ≠ '1'.toUInt8 := by
          cases hb : ubuf.head? with
          | none => decide
          | some b => exact fun heq => hhead (hb.trans (congrArg some heq))
        rw [if_neg hother, if_neg fun h => hhead h.2.2]
    · have hcopied : (copyFromUser stack 0 ubuf ubuf.length fault).1 ≠ 0 := by
        simp only [copyFromUser, Int.toNat_natCast]
        exact_mod_cast hfault
      dsimp only
      rw [if_pos hcopied, if_neg]
      rintro ⟨-, rfl, -⟩
      exact hfault (Nat.zero_min _)
  · rw [if_pos (by omega), if_neg fun h => hlen h.1]

/-- What a step does to the driver, and whether it is bound. -/
inductive Effect (s t : State) (e : Event) : Prop where
  | probe (c : ProbeCalls) (he : e = .probe c) (hdriver : t.driver = (myProbe s.driver c).driver)
  | irqSw (haccepted : Accepted e) (hdriver : t.driver = irqSw s.driver)
      (hbound : t.bound = s.bound)
  | keep (hrejected : ¬ Accepted e) (he : ∀ c, e ≠ .probe c) (hdriver : t.driver = s.driver)
      (hbound : t.bound → s.bound)

/-- Every step has one of these effects. -/
theorem step_effect (h : step s e = some t) : Effect s t e := by
  cases e with
  | probe c =>
    obtain ⟨-, rfl⟩ := Machine.refusal_eq_some.mp h
    exact .probe c rfl rfl
  | remove =>
    obtain ⟨hbound, rfl⟩ := Machine.guard_eq_some.mp h
    exact .keep (fun hfalse => hfalse) (fun c hc => Event.noConfusion hc) rfl fun _ => hbound
  | interrupt irq =>
    obtain ⟨-, rfl⟩ := Machine.guard_eq_some.mp h
    exact .irqSw trivial rfl rfl
  | trigger stack ubuf fault =>
    obtain ⟨-, rfl⟩ := Machine.guard_eq_some.mp h
    have hdriver := triggerWrite_driver s.driver stack ubuf fault
    by_cases haccepted : Accepted (.trigger stack ubuf fault)
    · exact .irqSw haccepted (hdriver.trans (if_pos haccepted)) rfl
    · exact .keep haccepted (fun c hc => Event.noConfusion hc)
        (hdriver.trans (if_neg haccepted)) fun hbound => hbound

end Steps

/-! ## Probes -/

/-- A probe that gets the LED leaves it dark; it does not look at the level. -/
theorem myProbe_led (d : Driver) {c : ProbeCalls} (h : c.led.isOk) :
    (myProbe d c).driver.gpioLed ≠ none ∧ (myProbe d c).driver.led = false ∧
      (myProbe d c).driver.ledlevel = d.ledlevel := by
  obtain ⟨led, sw, irq, ret, swValue, debugfsDir, debugfsFiles⟩ := c
  cases led with
  | error err => cases h
  | ok led =>
    unfold myProbe
    cases sw with
    | error err => exact ⟨Option.some_ne_none led, rfl, rfl⟩
    | ok sw =>
      dsimp only
      repeat' split
      all_goals exact ⟨Option.some_ne_none led, rfl, rfl⟩

/-! ## Runs -/

section Runs

variable {T : Tally} {s t : State} {e : Event} {es : List Event}

/-- The level is the parity of all runs of `irq_sw`. The LED shows it since the first of them
behind the last probe. -/
structure Inv (T : Tally) (s : State) : Prop where
  level : s.driver.ledlevel = if Even (T.before + T.since) then 1 else 0
  led : s.bound → s.driver.gpioLed ≠ none ∧
    s.driver.led = decide (0 < T.since ∧ s.driver.ledlevel ≠ 0)

theorem tally_concat (es : List Event) (e : Event) : tally (es ++ [e]) = (tally es).add e :=
  List.foldl_concat _ _ _ _

theorem Tally.add_of_accepted (T : Tally) (h : Accepted e) :
    T.add e = { T with since := T.since + 1 } := by
  cases e with
  | probe c | remove => exact absurd h id
  | interrupt irq => rfl
  | trigger stack ubuf fault => exact if_pos h

theorem Tally.add_of_rejected (T : Tally) (h : ¬ Accepted e) (he : ∀ c, e ≠ .probe c) :
    T.add e = T := by
  cases e with
  | probe c => exact absurd rfl (he c)
  | interrupt irq => exact absurd trivial h
  | remove => rfl
  | trigger stack ubuf fault => exact if_neg h

/-- No device is bound at first. -/
theorem inv_init (led : Bool) : Inv (tally []) (init led) where
  level := rfl
  led h := absurd h Bool.false_ne_true

/-- The level is a bit. -/
theorem Inv.level_mem (hs : Inv T s) : s.driver.ledlevel = 0 ∨ s.driver.ledlevel = 1 := by
  rw [hs.level]
  split
  · exact .inr rfl
  · exact .inl rfl

theorem Inv.irqSw_ledlevel (hs : Inv T s) : (irqSw s.driver).ledlevel = 1 - s.driver.ledlevel := by
  rcases hs.level_mem with h | h <;> rw [irqSw, h] <;> rfl

/-- A step that succeeds keeps the level the parity of the runs of `irq_sw`. -/
theorem inv_step (hs : Inv T s) (hG : Succeeds s e) (h : step s e = some t) :
    Inv (T.add e) t := by
  obtain ⟨hlevel, hled⟩ := hs
  cases step_effect h with
  | probe c he hdriver =>
    subst he
    obtain ⟨hgpio, hdark, hsame⟩ := myProbe_led s.driver hG.1
    refine ⟨?_, fun _ => ?_⟩ <;> rw [hdriver]
    · rw [hsame, hlevel]
      rfl
    · exact ⟨hgpio, hdark.trans (decide_eq_false fun h => lt_irrefl 0 h.1).symm⟩
  | irqSw haccepted hdriver hbound =>
    rw [T.add_of_accepted haccepted]
    have hinv : Inv T s := ⟨hlevel, hled⟩
    refine ⟨?_, fun ht => ?_⟩ <;> rw [hdriver]
    · rw [hinv.irqSw_ledlevel, hlevel]
      have hnext : Even (T.before + (T.since + 1)) ↔ ¬ Even (T.before + T.since) :=
        Nat.even_add_one
      by_cases heven : Even (T.before + T.since)
      · exact (congrArg _ (if_pos heven)).trans (if_neg fun h => hnext.mp h heven).symm
      · exact (congrArg _ (if_neg heven)).trans (if_pos (hnext.mpr heven)).symm
    · obtain ⟨hgpio, -⟩ := hled (hbound ▸ ht)
      refine ⟨hgpio, ?_⟩
      dsimp only [irqSw]
      rw [if_neg hgpio]
      exact decide_eq_decide.mpr ⟨fun hne => ⟨Nat.succ_pos _, hne⟩, fun h => h.2⟩
  | keep hrejected he hdriver hbound =>
    rw [T.add_of_rejected hrejected he]
    exact ⟨hdriver ▸ hlevel, fun ht => hdriver ▸ hled (hbound ht)⟩

/-- After a run whose steps succeed, the level is the parity of the runs of `irq_sw`. -/
theorem inv_run {led : Bool} (hrun : machine.run (init led) es = some s)
    (hG : machine.Along Succeeds (init led) es) : Inv (tally es) s := by
  refine Machine.label_invariant (M := machine) (I := fun es s => Inv (tally es) s) ?_
    (inv_init led) hG hrun
  intro es s e t hs hG hstep
  rw [tally_concat]
  exact inv_step hs hG hstep

/-- In a bound state, the LED shows the level if and only if they were synchronised. -/
theorem Inv.follows_iff (hs : Inv T s) (hbound : s.bound) : Follows s.driver ↔ T.Synced := by
  obtain ⟨-, hled⟩ := hs.led hbound
  unfold Follows Tally.Synced
  rw [hled]
  by_cases hsince : 0 < T.since
  · refine iff_of_true ?_ (.inl hsince)
    rcases hs.level_mem with h | h <;> simp [h, hsince]
  · have hzero : T.since = 0 := by omega
    have hlevel := hs.level
    rw [hzero, Nat.add_zero] at hlevel
    rw [hlevel, hzero]
    simp

/-- A run of `irq_sw` inverts the LED if and only if it shows the level. -/
theorem Inv.irqSw_led_iff (hs : Inv T s) (hbound : s.bound) :
    (irqSw s.driver).led = !s.driver.led ↔ Follows s.driver := by
  obtain ⟨hgpio, -⟩ := hs.led hbound
  have hlevel := hs.irqSw_ledlevel
  have hled : (irqSw s.driver).led = decide ((irqSw s.driver).ledlevel ≠ 0) := if_neg hgpio
  rw [hled, hlevel, Follows]
  rcases hs.level_mem with h | h <;> rw [h] <;> cases s.driver.led <;> decide

end Runs

/-- **The LED.** In every bound state of a run whose probes succeed and get the LED: the LED shows
the level if and only if `irq_sw` has run since the last probe, or an odd number of times before it.
This is also when the next accepted event inverts the LED; in any case it inverts the level and adds
1 to the count, and a write that is not accepted changes nothing. -/
theorem led_follows_iff {led : Bool} {es : List Event} {s : State}
    (hrun : machine.run (init led) es = some s) (hprobes : machine.Along Succeeds (init led) es)
    (hbound : s.bound) :
    (Follows s.driver ↔ (tally es).Synced) ∧
    (∀ e t, Accepted e → step s e = some t →
      (t.driver.led = !s.driver.led ↔ (tally es).Synced) ∧
        t.driver.ledlevel = 1 - s.driver.ledlevel ∧ t.driver.count = s32 (s.driver.count + 1)) ∧
    ∀ stack ubuf fault t, ¬ Accepted (.trigger stack ubuf fault) →
      step s (.trigger stack ubuf fault) = some t → t.driver = s.driver := by
  have hinv := inv_run hrun hprobes
  have hfollows := hinv.follows_iff hbound
  refine ⟨hfollows, fun e t haccepted hstep => ?_, fun stack ubuf fault t hrejected hstep => ?_⟩
  · cases step_effect hstep with
    | probe c he _ =>
      subst he
      exact absurd haccepted id
    | irqSw _ hdriver _ =>
      rw [hdriver]
      exact ⟨(hinv.irqSw_led_iff hbound).trans hfollows, hinv.irqSw_ledlevel, rfl⟩
    | keep hrejected _ _ _ => exact absurd haccepted hrejected
  · cases step_effect hstep with
    | probe c he _ => cases he
    | irqSw haccepted _ _ => exact absurd haccepted hrejected
    | keep _ _ hdriver _ => exact hdriver

/-- A probe that gets everything. -/
def allGranted : ProbeCalls :=
  { led := .ok 0, sw := .ok 1, irq := 5, ret := 0, swValue := 1, debugfsDir := true
    debugfsFiles := true }

/-- Behind a probe, an interrupt and a write. -/
theorem led_follows_iff_oneProbe :
    let es : List Event := [.probe allGranted, .interrupt 5, .trigger (fun _ => 0) [49, 10] 0]
    let s := (machine.run (init false) es).get (by decide)
    (Follows s.driver ↔ (tally es).Synced) ∧
    (∀ e t, Accepted e → step s e = some t →
      (t.driver.led = !s.driver.led ↔ (tally es).Synced) ∧
        t.driver.ledlevel = 1 - s.driver.ledlevel ∧ t.driver.count = s32 (s.driver.count + 1)) ∧
    ∀ stack ubuf fault t, ¬ Accepted (.trigger stack ubuf fault) →
      step s (.trigger stack ubuf fault) = some t → t.driver = s.driver :=
  led_follows_iff (Option.some_get _).symm
    (List.forall_mem_cons.mpr ⟨⟨rfl, rfl⟩, List.forall_mem_cons.mpr ⟨trivial,
      List.forall_mem_cons.mpr ⟨trivial, fun _ h => absurd h List.not_mem_nil⟩⟩⟩) (by decide)

/-- The first probe drives the LED low, and the level is 1. -/
theorem probe_breaks_follows :
    ¬ ∀ (led : Bool) (es : List Event) (s : State), machine.run (init led) es = some s →
      machine.Along Succeeds (init led) es → s.bound → Follows s.driver := by
  intro h
  have hfollows := h false [.probe allGranted] _ rfl
    (List.forall_mem_cons.mpr ⟨⟨rfl, rfl⟩, fun _ h => absurd h List.not_mem_nil⟩) rfl
  exact absurd hfollows (by unfold Follows; decide)

end LinuxRiscv32.VirtInt.Led

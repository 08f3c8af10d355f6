import LinuxRiscv32.Modules.GpioSimInt
import Mathlib.Data.List.Infix

/-!
# `gpio-sim-int`: the two halves of the interrupt

Reference: `modules/gpio-sim-int.c` (`irq_sw_hard`, `irq_sw_thread`).

The top half records the time and wakes a thread, which measures the delay, counts and switches the
LED. A wake-up is one flag. The thread clears it before it runs the handler once, and the line is
not masked in the meantime. So an interrupt that finds the flag set is merged with the one before
it, and a thread that has not loaded `irq_time` yet measures from the latest interrupt.
-/

namespace LinuxRiscv32.GpioSimInt.Irq

open Common

inductive IrqReturn where
  | handled
  | wakeThread
deriving DecidableEq, Repr

/-- `irq_sw_hard(irq, dev_id)`; `now` is what `ktime_get` returns. -/
def irqSwHard (d : Driver) (now : ℤ) : Driver × IrqReturn :=
  ({ d with irqTime := now }, .wakeThread)

/-- `ktime_us_delta(later, earlier)`. -/
def ktimeUsDelta (later earlier : ℤ) : ℤ := (s64 (later - earlier)).tdiv 1000

/-- `count++`. -/
def countUp (d : Driver) : Driver := { d with count := s32 (d.count + 1) }

/-- The assignment to `ledvalue` and the call of `gpiod_set_value_cansleep` behind it. -/
def toggle (d : Driver) : Driver :=
  let ledvalue := s32 (1 - d.ledvalue)
  { d with ledvalue := ledvalue, led := ledvalue ≠ 0 }

def message (count swValue delayUs : ℤ) : String :=
  s!"GPIO interrupt #{count}: SW={swValue} (top->bottom delay: {delayUs} us)\n"

/-- `irq_sw_thread(irq, dev_id)`, with the level of the switch that it reads, and its message. -/
def irqSwThread (d : Driver) (now swValue : ℤ) : Driver × String × IrqReturn :=
  let delayUs := ktimeUsDelta now d.irqTime
  let d := toggle (countUp d)
  (d, message d.count swValue delayUs, .handled)

/-- How far the thread is with `irq_sw_thread`. C leaves open which argument of `ktime_us_delta` is
evaluated first, the clock or `irq_time`. -/
inductive Thread where
  | idle
  | woken
  | timed (now : ℤ)
  | loaded (irqTime : ℤ)
  | delayed (delayUs : ℤ)
  | counted (delayUs : ℤ)
  | toggled (delayUs : ℤ)
deriving DecidableEq, Repr

/-- The driver, the flag of the thread, whether the top half has recorded the time and not returned
yet, and the thread. -/
structure State where
  driver : Driver
  pending : Bool
  hard : Bool
  thread : Thread

/-- The steps of the two halves. The flag is cleared by `threadClear`. -/
inductive Event where
  | hardTime (now : ℤ)
  | hardReturn
  | threadClear
  | threadTime (now : ℤ)
  | threadLoad
  | threadCount
  | threadToggle
  | threadPrint (swValue : ℤ)
deriving DecidableEq, Repr

/-- One step. The top half does not interrupt itself. Loads and stores of `irq_time` are taken to be
atomic: on RV32 each of them is two accesses, and nothing interrupts or overtakes one between the
two. -/
def step (s : State) : Event → Option State
  | .hardTime now =>
    if s.hard then none else some { s with driver := (irqSwHard s.driver now).1, hard := true }
  | .hardReturn =>
    if s.hard then some { s with hard := false, pending := true } else none
  | .threadClear =>
    match s.thread with
    | .idle => if s.pending then some { s with pending := false, thread := .woken } else none
    | _ => none
  | .threadTime now =>
    match s.thread with
    | .woken => some { s with thread := .timed now }
    | .loaded irqTime => some { s with thread := .delayed (ktimeUsDelta now irqTime) }
    | _ => none
  | .threadLoad =>
    match s.thread with
    | .woken => some { s with thread := .loaded s.driver.irqTime }
    | .timed now => some { s with thread := .delayed (ktimeUsDelta now s.driver.irqTime) }
    | _ => none
  | .threadCount =>
    match s.thread with
    | .delayed delayUs => some { s with driver := countUp s.driver, thread := .counted delayUs }
    | _ => none
  | .threadToggle =>
    match s.thread with
    | .counted delayUs => some { s with driver := toggle s.driver, thread := .toggled delayUs }
    | _ => none
  | .threadPrint _ =>
    match s.thread with
    | .toggled _ => some { s with thread := .idle }
    | _ => none

def machine : Machine State Event := ⟨step⟩

/-- The interrupt is requested and has not been raised yet. -/
def init (d : Driver) : State := { driver := d, pending := false, hard := false, thread := .idle }

/-- A thread that is not interrupted computes `irq_sw_thread`. -/
theorem run_irqSwThread (s : State) (now swValue : ℤ) (arguments : List Event)
    (h : arguments = [.threadTime now, .threadLoad] ∨
      arguments = [.threadLoad, .threadTime now]) :
    machine.run { s with thread := .woken }
      (arguments ++ [.threadCount, .threadToggle, .threadPrint swValue]) =
      some { s with driver := (irqSwThread s.driver now swValue).1, thread := .idle } := by
  rcases h with rfl | rfl <;> rfl

/-! ## What a run has recorded and printed -/

/-- The times that the top half has recorded; the clock values and the values of `irq_time` that the
bottom half has loaded, and the delays that it has printed; how often it has counted, and how often
a top half returned while a wake-up was pending already. -/
structure Tally where
  times : List ℤ
  stamps : List ℤ
  loads : List ℤ
  delays : List ℤ
  bottoms : ℕ
  merged : ℕ
deriving DecidableEq, Repr

def Tally.add (T : Tally) : State × Event → Tally
  | (_, .hardTime now) => { T with times := T.times ++ [now] }
  | (s, .hardReturn) => { T with merged := T.merged + s.pending.toNat }
  | (_, .threadTime now) => { T with stamps := T.stamps ++ [now] }
  | (s, .threadLoad) => { T with loads := T.loads ++ [s.driver.irqTime] }
  | (_, .threadCount) => { T with bottoms := T.bottoms + 1 }
  | (s, .threadPrint _) =>
    match s.thread with
    | .toggled delayUs => { T with delays := T.delays ++ [delayUs] }
    | _ => T
  | (_, .threadClear) | (_, .threadToggle) => T

/-- What the steps of a run amount to. -/
def tally (tr : List (State × Event)) : Tally :=
  tr.foldl Tally.add
    { times := [], stamps := [], loads := [], delays := [], bottoms := 0, merged := 0 }

/-- No interrupt is under way. -/
structure Settled (s : State) : Prop where
  pending : s.pending = false
  hard : s.hard = false
  thread : s.thread = .idle

/-- The `n`-th delay was measured from the `n`-th of the times `ts`. -/
def Tally.MeasuredFrom (T : Tally) (ts : List ℤ) : Prop :=
  ∀ (n : ℕ) (delayUs : ℤ), T.delays[n]? = some delayUs →
    ∃ now earlier, T.stamps[n]? = some now ∧ ts[n]? = some earlier ∧
      delayUs = ktimeUsDelta now earlier

/-- Two interrupts before the thread runs: one of them is not counted, and the delay is measured
from the second one. -/
def twoInterrupts : List Event :=
  [.hardTime 1000, .hardReturn, .hardTime 3000, .hardReturn, .threadClear, .threadTime 4000,
    .threadLoad, .threadCount, .threadToggle, .threadPrint 1]

theorem twoInterrupts_break_accounting :
    ¬ ∀ (d : Driver) (es : List Event) (t : State), d.count = 0 →
      machine.run (init d) es = some t → Settled t →
        t.driver.count = s32 (tally (machine.trace (init d) es)).times.length ∧
          (tally (machine.trace (init d) es)).MeasuredFrom
            (tally (machine.trace (init d) es)).times := by
  intro h
  obtain ⟨hcount, -⟩ := h (Driver.fresh (GpioSimInt.init [] false).driver 0) twoInterrupts _ rfl rfl
    ⟨rfl, rfl, rfl⟩
  exact absurd hcount (by decide)

/-- The thread has cleared the flag and not loaded `irq_time` yet. -/
def Thread.loading : Thread → Bool
  | .woken | .timed _ => true
  | .idle | .loaded _ | .delayed _ | .counted _ | .toggled _ => false

/-- The top half runs only if no wake-up is pending and the thread is not about to load `irq_time`.
-/
def Unhurried (s : State) : Event → Prop
  | .hardTime _ => s.pending = false ∧ s.thread.loading = false
  | _ => True

instance (s : State) (e : Event) : Decidable (Unhurried s e) := by
  unfold Unhurried
  split <;> infer_instance

/-! ## What is still to be counted and printed -/

/-- A run of the bottom half that has not counted yet. -/
def Thread.uncounted : Thread → ℕ
  | .woken | .timed _ | .loaded _ | .delayed _ => 1
  | .idle | .counted _ | .toggled _ => 0

/-- The clock value that waits for `irq_time`. -/
def Thread.stamp : Thread → List ℤ
  | .timed now => [now]
  | .idle | .woken | .loaded _ | .delayed _ | .counted _ | .toggled _ => []

/-- The value of `irq_time` that waits for the clock. -/
def Thread.load : Thread → List ℤ
  | .loaded irqTime => [irqTime]
  | .idle | .woken | .timed _ | .delayed _ | .counted _ | .toggled _ => []

/-- The delay that waits to be printed. -/
def Thread.owed : Thread → List ℤ
  | .delayed delayUs | .counted delayUs | .toggled delayUs => [delayUs]
  | .idle | .woken | .timed _ | .loaded _ => []

/-- The delays are those from values of `irq_time` to clock values, in order, as far as both were
loaded and the delay was printed. -/
def Paired (T : Tally) (th : Thread) : Prop :=
  ∃ st ts, T.stamps = st ++ th.stamp ∧ T.loads = ts ++ th.load ∧ st.length = ts.length ∧
    List.zipWith ktimeUsDelta st ts = T.delays ++ th.owed

/-- Every interrupt is counted, merged, or on its way. -/
structure Inv (d : Driver) (T : Tally) (s : State) : Prop where
  count : s.driver.count = s32 T.bottoms
  tops : T.times.length =
    T.bottoms + T.merged + s.hard.toNat + s.pending.toNat + s.thread.uncounted
  latest : s.driver.irqTime = T.times.getLast?.getD d.irqTime
  paired : Paired T s.thread

/-- What a step of the two halves can do. -/
inductive Performs (s : State) : Event → State → Prop
  | hardTime {now : ℤ} (hhard : s.hard = false) :
    Performs s (.hardTime now) { s with driver := (irqSwHard s.driver now).1, hard := true }
  | hardReturn (hhard : s.hard = true) :
    Performs s .hardReturn { s with hard := false, pending := true }
  | clear (hthread : s.thread = .idle) (hpending : s.pending = true) :
    Performs s .threadClear { s with pending := false, thread := .woken }
  | timeFirst {now : ℤ} (hthread : s.thread = .woken) :
    Performs s (.threadTime now) { s with thread := .timed now }
  | timeLast {now irqTime : ℤ} (hthread : s.thread = .loaded irqTime) :
    Performs s (.threadTime now) { s with thread := .delayed (ktimeUsDelta now irqTime) }
  | loadFirst (hthread : s.thread = .woken) :
    Performs s .threadLoad { s with thread := .loaded s.driver.irqTime }
  | loadLast {now : ℤ} (hthread : s.thread = .timed now) :
    Performs s .threadLoad { s with thread := .delayed (ktimeUsDelta now s.driver.irqTime) }
  | count {delayUs : ℤ} (hthread : s.thread = .delayed delayUs) :
    Performs s .threadCount { s with driver := countUp s.driver, thread := .counted delayUs }
  | toggle {delayUs : ℤ} (hthread : s.thread = .counted delayUs) :
    Performs s .threadToggle { s with driver := toggle s.driver, thread := .toggled delayUs }
  | print {swValue delayUs : ℤ} (hthread : s.thread = .toggled delayUs) :
    Performs s (.threadPrint swValue) { s with thread := .idle }

section Run

variable {d : Driver} {T : Tally} {s t : State} {e : Event}

/-- Every step is one of these. -/
theorem performs_of_step (h : step s e = some t) : Performs s e t := by
  obtain ⟨driver, pending, hard, thread⟩ := s
  cases e with
  | hardTime now =>
    obtain ⟨hhard, rfl⟩ := Machine.refusal_eq_some.mp h
    exact .hardTime (Bool.eq_false_of_not_eq_true hhard)
  | hardReturn =>
    obtain ⟨hhard, rfl⟩ := Machine.guard_eq_some.mp h
    exact .hardReturn hhard
  | threadClear =>
    cases thread with
    | idle =>
      obtain ⟨hpending, rfl⟩ := Machine.guard_eq_some.mp h
      exact .clear rfl hpending
    | _ => cases h
  | threadTime now =>
    cases thread with
    | woken =>
      obtain rfl := Option.some.inj h
      exact .timeFirst rfl
    | loaded irqTime =>
      obtain rfl := Option.some.inj h
      exact .timeLast rfl
    | _ => cases h
  | threadLoad =>
    cases thread with
    | woken =>
      obtain rfl := Option.some.inj h
      exact .loadFirst rfl
    | timed now =>
      obtain rfl := Option.some.inj h
      exact .loadLast rfl
    | _ => cases h
  | threadCount =>
    cases thread with
    | delayed delayUs =>
      obtain rfl := Option.some.inj h
      exact .count rfl
    | _ => cases h
  | threadToggle =>
    cases thread with
    | counted delayUs =>
      obtain rfl := Option.some.inj h
      exact .toggle rfl
    | _ => cases h
  | threadPrint swValue =>
    cases thread with
    | toggled delayUs =>
      obtain rfl := Option.some.inj h
      exact .print rfl
    | _ => cases h

theorem tally_concat (tr : List (State × Event)) (x : State × Event) :
    tally (tr ++ [x]) = (tally tr).add x :=
  List.foldl_concat _ _ _ _

/-- No interrupt has come at first. -/
theorem inv_init (hcount : d.count = 0) : Inv d (tally []) (init d) where
  count := hcount.trans (s32_of_range (by decide) (by decide)).symm
  tops := rfl
  latest := rfl
  paired := ⟨[], [], rfl, rfl, rfl, rfl⟩

/-- The second argument of `ktime_us_delta` is there, so the next delay can be computed. -/
theorem Paired.of_arguments {now earlier : ℤ} {st ts : List ℤ} (hstamps : T.stamps = st ++ [now])
    (hloads : T.loads = ts ++ [earlier]) (hlength : st.length = ts.length)
    (hzip : List.zipWith ktimeUsDelta st ts = T.delays) :
    Paired T (.delayed (ktimeUsDelta now earlier)) := by
  refine ⟨st ++ [now], ts ++ [earlier], ?_, ?_, ?_, ?_⟩
  · rw [hstamps, Thread.stamp, List.append_nil]
  · rw [hloads, Thread.load, List.append_nil]
  · rw [List.length_append, List.length_append, hlength]
    rfl
  · rw [List.zipWith_append hlength, hzip]
    rfl

/-- The clock is read first. -/
theorem Paired.time_of_woken (h : Paired T .woken) (now : ℤ) :
    Paired { T with stamps := T.stamps ++ [now] } (.timed now) := by
  obtain ⟨st, ts, hstamps, hloads, hlength, hzip⟩ := h
  rw [Thread.stamp, List.append_nil] at hstamps
  refine ⟨st, ts, ?_, hloads, hlength, hzip⟩
  rw [hstamps]
  rfl

/-- `irq_time` is loaded first. -/
theorem Paired.load_of_woken (h : Paired T .woken) (irqTime : ℤ) :
    Paired { T with loads := T.loads ++ [irqTime] } (.loaded irqTime) := by
  obtain ⟨st, ts, hstamps, hloads, hlength, hzip⟩ := h
  rw [Thread.load, List.append_nil] at hloads
  refine ⟨st, ts, hstamps, ?_, hlength, hzip⟩
  rw [hloads]
  rfl

/-- The clock is read behind `irq_time`, which completes a pair. -/
theorem Paired.time_of_loaded {irqTime : ℤ} (h : Paired T (.loaded irqTime)) (now : ℤ) :
    Paired { T with stamps := T.stamps ++ [now] } (.delayed (ktimeUsDelta now irqTime)) := by
  obtain ⟨st, ts, hstamps, hloads, hlength, hzip⟩ := h
  rw [Thread.stamp, List.append_nil] at hstamps
  rw [Thread.owed, List.append_nil] at hzip
  exact Paired.of_arguments (congrArg (· ++ [now]) hstamps) hloads hlength hzip

/-- `irq_time` is loaded behind the clock, which completes a pair. -/
theorem Paired.load_of_timed {now : ℤ} (h : Paired T (.timed now)) (irqTime : ℤ) :
    Paired { T with loads := T.loads ++ [irqTime] } (.delayed (ktimeUsDelta now irqTime)) := by
  obtain ⟨st, ts, hstamps, hloads, hlength, hzip⟩ := h
  rw [Thread.load, List.append_nil] at hloads
  rw [Thread.owed, List.append_nil] at hzip
  exact Paired.of_arguments hstamps (congrArg (· ++ [irqTime]) hloads) hlength hzip

/-- The message prints the delay of the pair. -/
theorem Paired.print {delayUs : ℤ} (h : Paired T (.toggled delayUs)) :
    Paired { T with delays := T.delays ++ [delayUs] } .idle := by
  obtain ⟨st, ts, hstamps, hloads, hlength, hzip⟩ := h
  refine ⟨st, ts, hstamps, hloads, hlength, hzip.trans ?_⟩
  rw [Thread.owed, Thread.owed, List.append_nil]

/-- Each step keeps the books on interrupts, runs of the bottom half and delays. -/
theorem inv_step (hs : Inv d T s) (h : step s e = some t) : Inv d (T.add (s, e)) t := by
  obtain ⟨driver, pending, hard, thread⟩ := s
  obtain ⟨hcount, htops, hlatest, hpaired⟩ := hs
  cases performs_of_step h with
  | hardTime hhard =>
    obtain rfl : hard = false := hhard
    refine ⟨hcount, ?_, ?_, hpaired⟩
    · simp only [Tally.add, List.length_append, List.length_singleton, Bool.toNat_true]
      simp only [Bool.toNat_false] at htops
      omega
    · simp only [Tally.add, irqSwHard, List.getLast?_concat, Option.getD_some]
  | hardReturn hhard =>
    obtain rfl : hard = true := hhard
    refine ⟨hcount, ?_, hlatest, hpaired⟩
    simp only [Tally.add, Bool.toNat_false, Bool.toNat_true] at htops ⊢
    omega
  | clear hthread hpending =>
    obtain rfl : thread = .idle := hthread
    obtain rfl : pending = true := hpending
    exact ⟨hcount, htops, hlatest, hpaired⟩
  | timeFirst hthread =>
    obtain rfl : thread = .woken := hthread
    exact ⟨hcount, htops, hlatest, hpaired.time_of_woken _⟩
  | timeLast hthread =>
    obtain rfl : thread = .loaded _ := hthread
    exact ⟨hcount, htops, hlatest, hpaired.time_of_loaded _⟩
  | loadFirst hthread =>
    obtain rfl : thread = .woken := hthread
    exact ⟨hcount, htops, hlatest, hpaired.load_of_woken driver.irqTime⟩
  | loadLast hthread =>
    obtain rfl : thread = .timed _ := hthread
    exact ⟨hcount, htops, hlatest, hpaired.load_of_timed driver.irqTime⟩
  | count hthread =>
    obtain rfl : thread = .delayed _ := hthread
    refine ⟨?_, ?_, hlatest, hpaired⟩
    · simp only [Tally.add, countUp]
      rw [hcount, s32_succ]
    · simp only [Tally.add, Thread.uncounted] at htops ⊢
      omega
  | toggle hthread =>
    obtain rfl : thread = .counted _ := hthread
    exact ⟨hcount, htops, hlatest, hpaired⟩
  | print hthread =>
    obtain rfl : thread = .toggled _ := hthread
    exact ⟨hcount, htops, hlatest, hpaired.print⟩

/-- The delays of a run belong to the values of `irq_time` that were loaded. -/
theorem Paired.measuredFrom {th : Thread} (h : Paired T th) : T.MeasuredFrom T.loads := by
  obtain ⟨st, ts, hstamps, hloads, -, hzip⟩ := h
  intro n delayUs hn
  have hlt := (List.getElem?_eq_some_iff.mp hn).1
  have hn' : (List.zipWith ktimeUsDelta st ts)[n]? = some delayUs := by
    rw [hzip, List.getElem?_append_left hlt, hn]
  obtain ⟨now, earlier, hnow, hearlier, heq⟩ := List.getElem?_zipWith_eq_some.mp hn'
  refine ⟨now, earlier, ?_, ?_, heq.symm⟩
  · rw [hstamps, List.getElem?_append_left (List.getElem?_eq_some_iff.mp hnow).1, hnow]
  · rw [hloads, List.getElem?_append_left (List.getElem?_eq_some_iff.mp hearlier).1, hearlier]

theorem Tally.MeasuredFrom.of_prefix {ts ts' : List ℤ} (h : T.MeasuredFrom ts) (hts : ts <+: ts') :
    T.MeasuredFrom ts' := by
  intro n delayUs hn
  obtain ⟨now, earlier, hnow, hearlier, heq⟩ := h n delayUs hn
  obtain ⟨rest, rfl⟩ := hts
  refine ⟨now, earlier, hnow, ?_, heq⟩
  rw [List.getElem?_append_left (List.getElem?_eq_some_iff.mp hearlier).1, hearlier]

/-! ## Interrupts one at a time -/

/-- How many interrupts have recorded a time that is not loaded yet. -/
def State.underway (s : State) : ℕ :=
  s.hard.toNat + s.pending.toNat + s.thread.loading.toNat

/-- There is one such interrupt at most, and all others had their time loaded. -/
structure OneByOne (T : Tally) (s : State) : Prop where
  merged : T.merged = 0
  le_one : s.underway ≤ 1
  times : T.times = T.loads ++ List.replicate s.underway s.driver.irqTime

/-- Nothing is merged at first. -/
theorem oneByOne_init (d : Driver) : OneByOne (tally []) (init d) where
  merged := rfl
  le_one := Nat.zero_le 1
  times := rfl

/-- The thread loads `irq_time`, so no interrupt is under way. -/
theorem OneByOne.load {th : Thread} (hs : OneByOne T s) (hloading : s.thread.loading = true)
    (hth : th.loading = false) :
    OneByOne { T with loads := T.loads ++ [s.driver.irqTime] } { s with thread := th } := by
  obtain ⟨hmerged, hle, htimes⟩ := hs
  simp only [State.underway, hloading, Bool.toNat_true] at hle htimes
  have hrest : s.hard.toNat + s.pending.toNat = 0 := by omega
  simp only [hrest, zero_add, List.replicate_one] at htimes
  refine ⟨hmerged, ?_, ?_⟩
  · simp only [State.underway, hth, Bool.toNat_false, hrest, add_zero, Nat.zero_le]
  · simp only [State.underway, hth, Bool.toNat_false, hrest, htimes, List.replicate_zero,
      List.append_nil, add_zero]

/-- An interrupt that finds the thread ahead of it is not merged. -/
theorem oneByOne_step (hs : OneByOne T s) (hG : Unhurried s e) (h : step s e = some t) :
    OneByOne (T.add (s, e)) t := by
  obtain ⟨driver, pending, hard, thread⟩ := s
  have ⟨hmerged, hle, htimes⟩ := hs
  simp only [State.underway] at hle htimes
  cases performs_of_step h with
  | hardTime hhard =>
    obtain rfl : hard = false := hhard
    obtain ⟨rfl, hloading⟩ : pending = false ∧ thread.loading = false := hG
    simp only [hloading, Bool.toNat_false, add_zero, List.replicate_zero,
      List.append_nil] at htimes
    refine ⟨hmerged, ?_, ?_⟩
    · simp only [State.underway, hloading, Bool.toNat_true, Bool.toNat_false, add_zero,
        le_refl]
    · simp only [State.underway, hloading, Tally.add, htimes, irqSwHard, Bool.toNat_true,
        Bool.toNat_false, add_zero, List.replicate_one]
  | hardReturn hhard =>
    obtain rfl : hard = true := hhard
    -- so no wake-up is pending, and the flag takes the place of the top half
    cases pending with
    | true =>
      simp only [Bool.toNat_true] at hle
      omega
    | false => exact ⟨hmerged, hle, htimes⟩
  | clear hthread hpending =>
    obtain rfl : thread = .idle := hthread
    obtain rfl : pending = true := hpending
    exact ⟨hmerged, hle, htimes⟩
  | loadFirst hthread =>
    obtain rfl : thread = .woken := hthread
    exact hs.load rfl rfl
  | loadLast hthread =>
    obtain rfl : thread = .timed _ := hthread
    exact hs.load rfl rfl
  | timeFirst hthread | timeLast hthread | count hthread | toggle hthread | print hthread =>
    subst hthread
    exact ⟨hmerged, hle, htimes⟩

/-! ## Whole runs -/

/-- The counter of `n` runs of the bottom half tells `n + k` interrupts only if it has wrapped. -/
theorem s32_eq_iff (n k : ℕ) : s32 n = s32 (n + k : ℕ) ↔ 2 ^ 32 ∣ (k : ℤ) := by
  rw [eq_comm, s32, s32, Int.bmod_eq_bmod_iff_bmod_sub_eq_zero, ← Int.dvd_iff_bmod_eq_zero,
    Nat.cast_add, add_sub_cancel_left]
  norm_cast

/-- What the counter and the messages of a run say about its interrupts. -/
structure Accounted (d : Driver) (T : Tally) (t : State) : Prop where
  count : t.driver.count = s32 T.bottoms
  tops : Settled t → T.times.length = T.bottoms + T.merged
  count_iff : Settled t → (t.driver.count = s32 T.times.length ↔ 2 ^ 32 ∣ (T.merged : ℤ))
  measured : T.MeasuredFrom T.loads
  latest : t.driver.irqTime = T.times.getLast?.getD d.irqTime

/-- The books say what the counter and the messages are. -/
theorem Inv.accounted (hs : Inv d T s) : Accounted d T s := by
  have htops : Settled s → T.times.length = T.bottoms + T.merged := by
    rintro ⟨hpending, hhard, hthread⟩
    rw [hs.tops, hpending, hhard, hthread]
    rfl
  refine ⟨hs.count, htops, fun hsettled => ?_, hs.paired.measuredFrom, hs.latest⟩
  rw [hs.count, htops hsettled, s32_eq_iff]

/-- **What becomes of the interrupts.** In every run, the counter is the number of runs of the
bottom half. When no interrupt is under way, the interrupts are these runs and those that were
merged, so the counter is their number (mod 2 ^ 32) exactly if the number of the merged ones is 0
(mod 2 ^ 32). The `n`-th delay is measured from the `n`-th load of `irq_time`, which is the latest
time recorded. If every interrupt finds no wake-up pending and the thread not about to load
`irq_time`, none is merged, and the `n`-th delay is measured from the time of the `n`-th interrupt.
-/
theorem accounted_of_run {d : Driver} (hcount : d.count = 0) {es : List Event} {t : State}
    (hrun : machine.run (init d) es = some t) :
    Accounted d (tally (machine.trace (init d) es)) t ∧
      (machine.Along Unhurried (init d) es →
        (tally (machine.trace (init d) es)).merged = 0 ∧
          (tally (machine.trace (init d) es)).MeasuredFrom
            (tally (machine.trace (init d) es)).times) := by
  have hinv : Inv d (tally (machine.trace (init d) es)) t :=
    Machine.history_invariant_of_step (M := machine) (I := fun tr s => Inv d (tally tr) s)
      (fun tr s e t hs h => tally_concat tr (s, e) ▸ inv_step hs h) (inv_init hcount) hrun
  refine ⟨hinv.accounted, fun hG => ?_⟩
  have hone : OneByOne (tally (machine.trace (init d) es)) t :=
    Machine.history_invariant (M := machine) (G := Unhurried)
      (I := fun tr s => OneByOne (tally tr) s)
      (fun tr s e t hs hG h => tally_concat tr (s, e) ▸ oneByOne_step hs hG h) (oneByOne_init d)
      hG hrun
  exact ⟨hone.merged, hinv.paired.measuredFrom.of_prefix ⟨_, hone.times.symm⟩⟩

/-- Two interrupts, one after the other. -/
def separateInterrupts : List Event :=
  [.hardTime 1000, .hardReturn, .threadClear, .threadTime 2000, .threadLoad, .threadCount,
    .threadToggle, .threadPrint 1, .hardTime 5000, .hardReturn, .threadClear, .threadLoad,
    .threadTime 7000, .threadCount, .threadToggle, .threadPrint 0]

theorem accounted_separateInterrupts :
    let d := Driver.fresh (GpioSimInt.init [] false).driver 0
    let T := tally (machine.trace (init d) separateInterrupts)
    Accounted d T ((machine.run (init d) separateInterrupts).get (by decide)) ∧
      T.merged = 0 ∧ T.MeasuredFrom T.times := by
  intro d T
  obtain ⟨haccounted, hone⟩ := accounted_of_run (d := d) rfl (Option.some_get _).symm
  exact ⟨haccounted, hone (by decide)⟩

end Run

end LinuxRiscv32.GpioSimInt.Irq

import LinuxRiscv32.Common.Machine
import LinuxRiscv32.Kernel.Hrtimer

/-!
# `hrtimer`: a timer that counts down

Reference: `modules/hrtimer.c`.

The module starts a timer, and the callback starts it again nine times. The callback may begin late
and take any time, and the module may be removed at any moment; the remove waits for a callback that
is running.
-/

namespace LinuxRiscv32.HrTimer

open Common Kernel

/-- `ms_to_ktime(1000)` -/
def kt : ℕ := 1000 * 1000000

/-- The variables of the module, whether it is loaded, the current time, and the value of
`current_count` in a callback that is running. -/
structure State where
  now : ℕ
  loaded : Bool
  hrt : Hrtimer
  count : ℤ
  callback : Option ℤ
  log : List String
deriving DecidableEq, Repr

inductive Event where
  /-- Time passes. -/
  | tick (d : ℕ)
  | init
  /-- The timer has expired, and `timer_timeout` is called. -/
  | expire
  /-- `timer_timeout` returns. -/
  | return
  | remove
deriving DecidableEq, Repr

/-- `my_init` -/
def myInit (s : State) : State :=
  { s with
    loaded := true
    hrt := hrtimerStart s.now kt
    count := 10
    callback := none
    log := s.log ++
      ["hrtimer: Module loaded\n", "hrtimer: Timer started with 1 second interval\n"] }

/-- `timer_timeout`, up to its first message. -/
def timerTimeout (s : State) : State :=
  let currentCount := s.count - 1
  { s with
    hrt := { s.hrt with queued := false }
    count := currentCount
    callback := some currentCount
    log := s.log ++ [s!"hrtimer: Timer fired, remaining count: {currentCount}\n"] }

/-- The end of `timer_timeout`: a timer that is restarted is queued again. -/
def timerReturn (s : State) (currentCount : ℤ) : State :=
  if currentCount > 0 then
    { s with
      hrt := { expires := (hrtimerForward s.hrt.expires s.now kt).2, queued := true }
      callback := none }
  else { s with callback := none, log := s.log ++ ["hrtimer: Timer completed all iterations\n"] }

/-- `my_remove` -/
def myRemove (s : State) : State :=
  let cancel := hrtimerCancel s.hrt
  { s with
    loaded := false
    hrt := cancel.2
    log := s.log ++
      [if cancel.1 then "hrtimer: Timer was active when cancelled\n"
        else "hrtimer: Timer was not active\n",
      "hrtimer: Module unloaded\n"] }

def step (s : State) : Event → Option State
  | .tick d => some { s with now := s.now + d }
  | .init => if s.loaded = false then some (myInit s) else none
  | .expire =>
    if s.hrt.queued ∧ s.hrt.expires ≤ s.now ∧ s.callback = none then some (timerTimeout s) else none
  | .return => s.callback.map (timerReturn s)
  | .remove => if s.loaded ∧ s.callback = none then some (myRemove s) else none

def machine : Machine State Event := { step := step }

/-- The module was never loaded. -/
def start : State where
  now := 0
  loaded := false
  hrt := { expires := 0, queued := false }
  count := 10
  callback := none
  log := []

/-! ## What has happened since the module was loaded -/

/-- A call of `timer_timeout`: the expiry, and the times at which it began and returned. -/
structure Call where
  expires : ℕ
  began : ℕ
  returned : Option ℕ
deriving DecidableEq, Repr

/-- The time of the last load, and the calls since then, the last one first. -/
structure Session where
  loaded : ℕ
  calls : List Call
deriving DecidableEq, Repr

def Session.add (S : Session) : State × Event → Session
  | (s, .init) => { loaded := s.now, calls := [] }
  | (s, .expire) => { S with calls := ⟨s.hrt.expires, s.now, none⟩ :: S.calls }
  | (s, .return) =>
    { S with
      calls :=
        match S.calls with
        | [] => []
        | c :: cs => { c with returned := some s.now } :: cs }
  | (_, .tick _) | (_, .remove) => S

def session (tr : List (State × Event)) : Session := tr.foldl Session.add ⟨0, []⟩

/-! ## The invariant of a session -/

/-- The expiry that comes behind the calls: one interval after the load, or the first time of the
grid behind the end of the last call. -/
def Follows (loaded : ℕ) : List Call → ℕ → Prop
  | [], e => e = loaded + kt
  | c :: _, e => ∃ r, c.returned = some r ∧ r < e ∧ e ≤ r + kt ∧ ∃ k, 0 < k ∧ e = c.expires + k * kt

/-- Every call comes behind those before it, and begins when its timer has expired. -/
def OnSchedule (loaded : ℕ) : List Call → Prop
  | [] => True
  | c :: cs =>
    Follows loaded cs c.expires ∧ c.expires ≤ c.began ∧ (∀ r ∈ c.returned, c.began ≤ r) ∧
      OnSchedule loaded cs

/-- Where the timer is. -/
inductive Phase (S : Session) (s : State) : Prop where
  | unloaded (hloaded : s.loaded = false) (hqueued : s.hrt.queued = false)
      (hcallback : s.callback = none)
  | pending (hloaded : s.loaded = true) (hqueued : s.hrt.queued = true)
      (hcallback : s.callback = none) (hlength : S.calls.length < 10)
      (hfollows : Follows S.loaded S.calls s.hrt.expires)
  | running (c : Call) (cs : List Call) (hloaded : s.loaded = true) (hqueued : s.hrt.queued = false)
      (hcallback : s.callback = some s.count) (hcalls : S.calls = c :: cs)
      (hexpires : s.hrt.expires = c.expires) (hbegan : c.began ≤ s.now)
  | finished (hloaded : s.loaded = true) (hqueued : s.hrt.queued = false)
      (hcallback : s.callback = none) (hlength : S.calls.length = 10)

structure Inv (S : Session) (s : State) : Prop where
  count : s.count = 10 - S.calls.length
  length : S.calls.length ≤ 10
  schedule : OnSchedule S.loaded S.calls
  phase : Phase S s

section Steps

variable {S : Session} {s t : State} {e : Event}

/-- The passing of time keeps the schedule. -/
theorem inv_tick (h : Inv S s) (d : ℕ) : Inv S { s with now := s.now + d } := by
  refine ⟨h.count, h.length, h.schedule, ?_⟩
  cases h.phase with
  | unloaded hloaded hqueued hcallback => exact .unloaded hloaded hqueued hcallback
  | pending hloaded hqueued hcallback hlength hfollows =>
    exact .pending hloaded hqueued hcallback hlength hfollows
  | running c cs hloaded hqueued hcallback hcalls hexpires hbegan =>
    exact .running c cs hloaded hqueued hcallback hcalls hexpires (Nat.le_add_right_of_le hbegan)
  | finished hloaded hqueued hcallback hlength =>
    exact .finished hloaded hqueued hcallback hlength

/-- A load starts the schedule. -/
theorem inv_init (S : Session) (s : State) : Inv (S.add (s, .init)) (myInit s) where
  count := rfl
  length := Nat.zero_le 10
  schedule := trivial
  phase := .pending rfl rfl rfl (Nat.zero_lt_succ 9) rfl

/-- A call begins at its place or behind it. -/
theorem inv_expire (h : Inv S s) (hqueued : s.hrt.queued) (hexpired : s.hrt.expires ≤ s.now) :
    Inv (S.add (s, .expire)) (timerTimeout s) := by
  cases h.phase with
  | pending hloaded _ hcallback hlength hfollows =>
    have hrunning : ∀ r ∈ (none : Option ℕ), s.now ≤ r :=
      fun r hr => absurd hr (Option.not_mem_none r)
    refine ⟨?_, hlength, ⟨hfollows, hexpired, hrunning, h.schedule⟩, ?_⟩
    · have := h.count
      simp only [timerTimeout, Session.add, List.length_cons]
      omega
    · exact .running _ _ hloaded rfl rfl rfl rfl le_rfl
  | unloaded _ hidle _ | running _ _ _ hidle _ _ _ _ | finished _ hidle _ _ =>
    rw [hidle] at hqueued
    cases hqueued

/-- A call that returns forwards the timer, or it was the last one. -/
theorem inv_return (h : Inv S s) {n : ℤ} (hn : s.callback = some n) :
    Inv (S.add (s, .return)) (timerReturn s n) := by
  cases h.phase with
  | running c cs hloaded hqueued hcallback hcalls hexpires hbegan =>
    obtain rfl := Option.some.inj (hn.symm.trans hcallback)
    -- the call that returns is the last one that has begun
    have hS : S.add (s, .return) =
        { S with calls := { c with returned := some s.now } :: cs } := by
      rw [Session.add, hcalls]
    have hlength := h.length
    have hcount := h.count
    have hschedule := h.schedule
    rw [hcalls] at hlength hcount hschedule
    obtain ⟨hfollows, hbegin, -, hrest⟩ := hschedule
    have hschedule' : OnSchedule S.loaded ({ c with returned := some s.now } :: cs) :=
      ⟨hfollows, hbegin, fun r hr => (Option.some.inj hr) ▸ hbegan, hrest⟩
    rw [hS, timerReturn]
    split
    next hpos =>
      refine ⟨hcount, hlength, hschedule', .pending hloaded rfl rfl ?_ ?_⟩
      · rw [List.length_cons] at hcount ⊢
        omega
      · -- the callback has begun after the expiry, so the timer is forwarded
        have hexpired : s.hrt.expires ≤ s.now := by omega
        obtain ⟨hk, he, hlt, hle⟩ := hrtimerForward_spec (show 0 < kt by decide) hexpired
        exact ⟨s.now, rfl, hlt, hle, _, hk, hexpires ▸ he⟩
    next hzero =>
      refine ⟨hcount, hlength, hschedule', .finished hloaded hqueued rfl ?_⟩
      rw [List.length_cons] at hcount hlength ⊢
      omega
  | unloaded _ _ hcallback | pending _ _ hcallback _ _ | finished _ _ hcallback _ =>
    rw [hcallback] at hn
    cases hn

/-- A remove cancels the timer. -/
theorem inv_remove (h : Inv S s) (hcallback : s.callback = none) : Inv S (myRemove s) where
  count := h.count
  length := h.length
  schedule := h.schedule
  phase := .unloaded rfl rfl hcallback

/-- Each step keeps the timer on its schedule. -/
theorem inv_step (h : Inv S s) (hstep : step s e = some t) : Inv (S.add (s, e)) t := by
  cases e with
  | tick d =>
    obtain rfl := Option.some.inj hstep
    exact inv_tick h d
  | init =>
    obtain ⟨-, rfl⟩ := Machine.guard_eq_some.mp hstep
    exact inv_init S s
  | expire =>
    obtain ⟨⟨hqueued, hexpired, -⟩, rfl⟩ := Machine.guard_eq_some.mp hstep
    exact inv_expire h hqueued hexpired
  | «return» =>
    obtain ⟨n, hn, rfl⟩ := Option.map_eq_some_iff.mp hstep
    exact inv_return h hn
  | remove =>
    obtain ⟨⟨-, hcallback⟩, rfl⟩ := Machine.guard_eq_some.mp hstep
    exact inv_remove h hcallback

/-- Every run keeps the timer on its schedule. -/
theorem inv_of_run {es : List Event} (hrun : machine.run start es = some t) :
    Inv (session (machine.trace start es)) t := by
  refine Machine.history_invariant_of_step (M := machine) (I := fun tr s => Inv (session tr) s) ?_
    ⟨rfl, Nat.zero_le 10, trivial, .unloaded rfl rfl rfl⟩ hrun
  intro tr s e u h hstep
  rw [session, List.foldl_append]
  exact inv_step h hstep

end Steps

/-! ## The schedule -/

section Schedule

variable {loaded : ℕ} {c : Call} {cs calls : List Call}

/-- The earlier calls were on schedule, too. -/
theorem OnSchedule.of_suffix (h : OnSchedule loaded calls) (hcs : cs <:+ calls) :
    OnSchedule loaded cs := by
  induction calls with
  | nil => rwa [List.suffix_nil.mp hcs]
  | cons c calls ih =>
    rcases List.suffix_cons_iff.mp hcs with rfl | hcs
    · exact h
    · exact ih h.2.2.2 hcs

/-- Every call takes a place of its own on the grid. -/
theorem OnSchedule.grid (h : OnSchedule loaded (c :: cs)) :
    ∃ k, cs.length < k ∧ c.expires = loaded + k * kt := by
  induction cs generalizing c with
  | nil => exact ⟨1, Nat.one_pos, by rw [Nat.one_mul]; exact h.1⟩
  | cons p ps ih =>
    -- the timer was forwarded by `k` places from that of the call before
    obtain ⟨⟨r, -, -, -, k, hk, he⟩, -, -, hrest⟩ := h
    obtain ⟨j, hj, hp⟩ := ih hrest
    refine ⟨j + k, ?_, ?_⟩
    · rw [List.length_cons]
      omega
    · rw [he, hp, Nat.add_mul, Nat.add_assoc]

/-- A later call has a later place. -/
theorem OnSchedule.expires_lt (h : OnSchedule loaded (c :: cs)) {p : Call} (hp : p ∈ cs) :
    p.expires < c.expires := by
  induction cs generalizing c with
  | nil => exact absurd hp List.not_mem_nil
  | cons q qs ih =>
    obtain ⟨⟨r, -, -, -, k, hk, he⟩, -, -, hrest⟩ := h
    have hkt : 0 < k * kt := Nat.mul_pos hk (by decide)
    have hq : q.expires < c.expires := by omega
    rcases List.mem_cons.mp hp with rfl | hp
    · exact hq
    · exact (ih hrest hp).trans hq

/-- The call has returned before its timer would expire again. -/
def Call.Prompt (c : Call) : Prop := ∀ r ∈ c.returned, r < c.expires + kt

/-- If the calls before it are prompt, no place of the grid is left out. -/
theorem OnSchedule.prompt (h : OnSchedule loaded (c :: cs)) (hcs : ∀ p ∈ cs, p.Prompt) :
    c.expires = loaded + (cs.length + 1) * kt := by
  induction cs generalizing c with
  | nil => rw [List.length_nil, Nat.zero_add, Nat.one_mul]; exact h.1
  | cons p ps ih =>
    obtain ⟨⟨r, hr, hlt, hle, k, hk, he⟩, -, -, hrest⟩ := h
    have hp := ih hrest fun q hq => hcs q (List.mem_cons_of_mem p hq)
    have hprompt := hcs p List.mem_cons_self r hr
    -- two intervals or more would leave more than one between the end of `p` and the expiry
    have hone : k = 1 := by
      have hkt : kt = 1000000000 := rfl
      by_contra hne
      have htwo : 2 * kt ≤ k * kt := Nat.mul_le_mul_right kt (by omega)
      omega
    rw [he, hp, hone, List.length_cons, Nat.one_mul, Nat.add_one_mul (ps.length + 1), Nat.add_assoc]

end Schedule

/-- The first callback takes two and a half intervals. -/
def slowCallback : List Event :=
  [.tick 5, .init, .tick kt, .expire, .tick (2 * kt + kt / 2), .return, .tick kt, .expire]

end LinuxRiscv32.HrTimer

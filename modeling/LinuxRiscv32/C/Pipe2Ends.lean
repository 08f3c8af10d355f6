import LinuxRiscv32.C.Pipe2

/-!
# The pipeline comes to an end

`exists_step`: as long as `main` has not returned somebody can take a step. A process of the text is
only stuck if it waits for a child, a program only at a full or at an empty pipe, and the pipe is
not both. This is where the two `close` calls of the parent are needed.

`length_le` bounds the length of a run by the bytes that there are.
-/

namespace LinuxRiscv32.Pipe2

open Common Kernel.Process

variable {β : Type*}

/-! ## Nobody gets stuck -/

section Progress

variable {E : Env β} {s : State β}

def Stuck (E : Env β) (s : State β) : Prop := ∀ e : Event, e.Succeeds → step E s e = none

/-- Where a process waits, it has closed the pipe, up to the standard output of the first child. -/
theorem tab_wait : ∀ p, ∀ k ∈ places true p, (text true)[k]? = some .wait → p ≠ .childB →
    ∀ fd, tab true p k fd ≠ some .readEnd ∧ (tab true p k fd = some .writeEnd → p ≠ .parent) := by
  decide

/-- Only `grep` has the read end open, and it has no write end. -/
theorem tab_program : ∀ p, p ≠ .parent → ∀ fd,
    (tab true p (execPlace p) fd = some .readEnd → p = .childB) ∧
    (tab true p (execPlace p) fd = some .writeEnd → p ≠ .childB) := by
  decide

/-- A program with something to do that is stuck fills the pipe, or waits for it to be filled. -/
theorem stuck_program (hs : Sound E s) (hstuck : Stuck E s) {p : Process} {q : Program}
    {fds : Fd → Option File} (hp : s.procs p = .program q fds) :
    (p = .childB ∧ s.pipe = [] ∧ s.IsOpen .writeEnd) ∨
    (p ≠ .childB ∧ s.IsOpen .readEnd ∧ E.capacity ≤ s.pipe.length) := by
  have hdone : ¬ Done E s p q :=
    Machine.guard_eq_none.mp (by simpa only [step, hp] using hstuck (.finish p) trivial)
  have hwrite : write E s p q 1 (fds .stdout) = none := by
    simpa only [step, hp] using hstuck (.write p 1) trivial
  have hsig : ¬ (fds .stdout = some .writeEnd ∧ s.output E p q ≠ [] ∧ ¬ s.IsOpen .readEnd) :=
    Machine.guard_eq_none.mp (by simpa only [step, hp] using hstuck (.sigpipe p) trivial)
  -- whoever has nothing to write is a `grep` that still reads
  have hreads : s.output E p q = [] → q = .grep ∧ read s p 1 (fds .stdin) = none ∧
      ¬ AtEnd s (fds .stdin) := by
    intro hout
    cases q with
    | ps => exact absurd hout hdone
    | grep =>
      have heof : (s.greps p).eof = false := by
        rw [← Bool.not_eq_true]
        exact fun h => hdone ⟨h, hout⟩
      have hnotEnd : ¬ ((s.greps p).eof = false ∧ AtEnd s (fds .stdin)) :=
        Machine.guard_eq_none.mp (by simpa only [step, hp] using hstuck (.eof p) trivial)
      refine ⟨rfl, ?_, fun hend => hnotEnd ⟨heof, hend⟩⟩
      simpa [step, hp, heof] using hstuck (.read p 1) trivial
  have hone : s.output E p q ≠ [] → 0 < 1 ∧ 1 ≤ (s.output E p q).length := fun h =>
    ⟨one_pos, List.length_pos_iff.mpr h⟩
  obtain ⟨rfl, rfl, -, hin, hout⟩ | ⟨hp', rfl, -, hin, hout⟩ := program_cases hs hp
  · rw [hin] at hreads
    rw [hout] at hwrite
    have hnil : s.output E .childB .grep = [] := by
      by_contra hne
      exact Machine.guard_eq_none.mp hwrite (hone hne)
    obtain ⟨-, hread, hend⟩ := hreads hnil
    have hempty : s.pipe = [] := by
      by_contra hne
      exact Machine.guard_eq_none.mp hread ⟨one_pos, List.length_pos_iff.mpr hne⟩
    exact .inl ⟨rfl, hempty, by_contra fun h => hend ⟨hempty, h⟩⟩
  · rw [hin] at hreads
    rw [hout] at hwrite hsig
    have hne : s.output E p (program p) ≠ [] := by
      intro hnil
      obtain ⟨-, hread, hend⟩ := hreads hnil
      exact Machine.guard_eq_none.mp hread ⟨one_pos, List.length_pos_iff.mpr hend⟩
    have hopen : s.IsOpen .readEnd := by_contra fun h => hsig ⟨rfl, hne, h⟩
    refine .inr ⟨by rcases hp' with rfl | rfl <;> decide, hopen, ?_⟩
    by_contra hroom
    exact Machine.guard_eq_none.mp hwrite ⟨hone hne, hopen, by omega⟩

/-- A process of the text is stuck only in a `wait`, in front of a child that has not ended. -/
theorem stuck_text (hs : Sound E s) (hstuck : Stuck E s) {p : Process} {k : ℕ}
    {fds : Fd → Option File} (hp : s.procs p = .text k fds) :
    (text E.closed)[k]? = some .wait ∧
      ∃ c, parent c = some p ∧ (s.procs c).isGone = false ∧ s.procs c ≠ .zombie := by
  have hplace : ∀ closed p, ∀ k ∈ places closed p, k < (text closed).length := by decide
  obtain ⟨hv, -⟩ := hs.1.valid hp
  have hk := hplace E.closed p k (of_decide_eq_true hv)
  obtain ⟨hi, hchild⟩ := hs.1.exists_child hp (List.getElem?_eq_getElem hk) fun reap => by
    have := hstuck (.call p true reap) rfl
    rwa [step, Option.map_eq_none_iff] at this
  rw [List.getElem?_eq_getElem hk, hi]
  exact ⟨rfl, hchild⟩

/-- Whoever has no child does not wait. -/
theorem stuck_leaf (hs : Sound E s) (hstuck : Stuck E s) {p : Process}
    (hp : ∀ c, parent c ≠ some p) (k : ℕ) (fds : Fd → Option File) : s.procs p ≠ .text k fds := by
  intro h
  obtain ⟨-, c, hc, -⟩ := stuck_text hs hstuck h
  exact hp c hc

/-- There is something in the pipe for somebody who has it open. -/
def Readable (s : State β) : Prop := s.IsOpen .readEnd ∧ s.pipe ≠ []

/-- A writer is stuck at a full pipe. -/
theorem readable_of_writer (hcap : 0 < E.capacity) (hs : Sound E s) (hstuck : Stuck E s)
    {p : Process} {q : Program} {fds : Fd → Option File} (hp : p ≠ .childB)
    (h : s.procs p = .program q fds) : Readable s := by
  obtain ⟨rfl, -⟩ | ⟨-, hopen, hfull⟩ := stuck_program hs hstuck h
  · exact absurd rfl hp
  · exact ⟨hopen, List.length_pos_iff.mp (by omega)⟩

/-- The first child waits for a writer. -/
theorem readable_of_childA (hcap : 0 < E.capacity) (hs : Sound E s) (hstuck : Stuck E s) {k : ℕ}
    {fds : Fd → Option File} (h : s.procs .childA = .text k fds) : Readable s := by
  obtain ⟨-, c, hc, hgone, hzombie⟩ := stuck_text hs hstuck h
  obtain rfl : c = .stray := by cases c <;> first | rfl | cases hc
  obtain ⟨_, _, hstray⟩ | ⟨_, _, hstray⟩ := Status.running_of_not_gone hgone hzombie
  · exact absurd hstray (stuck_leaf hs hstuck (by decide) _ _)
  · exact readable_of_writer hcap hs hstuck (by decide) hstray

/-- Only `grep` can have the pipe open for reading. -/
theorem reader_of_isOpen (hE : E.closed = true) (hs : Sound E s) (hstuck : Stuck E s)
    (h : s.IsOpen .readEnd) : ∃ q fds, s.procs .childB = .program q fds := by
  obtain ⟨p, fd, h⟩ := h
  obtain ⟨k, fds, hp, h⟩ | ⟨q, fds, hp, h⟩ := Status.running_of_fds h
  · obtain ⟨hwait, -⟩ := stuck_text hs hstuck hp
    obtain ⟨hv, rfl⟩ := hs.1.valid hp
    rw [hE] at hwait hv h
    refine absurd h (tab_wait p k (of_decide_eq_true hv) hwait ?_ fd).1
    rintro rfl
    exact stuck_leaf hs hstuck (by decide) _ _ hp
  · obtain ⟨hne, rfl, rfl⟩ := program_eq hs hp
    rw [hE] at h
    obtain rfl := (tab_program p hne fd).1 h
    exact ⟨_, _, hp⟩

/-- Whoever has the pipe open for writing waits for it to be read. -/
theorem readable_of_isOpen (hE : E.closed = true) (hcap : 0 < E.capacity) (hs : Sound E s)
    (hstuck : Stuck E s) (h : s.IsOpen .writeEnd) : Readable s := by
  obtain ⟨p, fd, h⟩ := h
  obtain ⟨k, fds, hp, h⟩ | ⟨q, fds, hp, h⟩ := Status.running_of_fds h
  · cases p with
    | parent =>
      obtain ⟨hwait, -⟩ := stuck_text hs hstuck hp
      obtain ⟨hv, rfl⟩ := hs.1.valid hp
      rw [hE] at hwait hv h
      exact absurd rfl ((tab_wait .parent k (of_decide_eq_true hv) hwait (by decide) fd).2 h)
    | childA => exact readable_of_childA hcap hs hstuck hp
    | childB | stray => exact absurd hp (stuck_leaf hs hstuck (by decide) _ _)
  · obtain ⟨hne, rfl, rfl⟩ := program_eq hs hp
    rw [hE] at h
    exact readable_of_writer hcap hs hstuck ((tab_program p hne fd).2 h) hp

/-- A reader is stuck in front of an empty pipe that somebody can still write to. -/
theorem stuck_reader (hs : Sound E s) (hstuck : Stuck E s) {q : Program} {fds : Fd → Option File}
    (h : s.procs .childB = .program q fds) : s.pipe = [] ∧ s.IsOpen .writeEnd := by
  obtain ⟨-, hempty, hopen⟩ | ⟨hne, -⟩ := stuck_program hs hstuck h
  · exact ⟨hempty, hopen⟩
  · exact absurd rfl hne

/-- The pipe is not empty and full at once. -/
theorem not_readable (hE : E.closed = true) (hs : Sound E s) (hstuck : Stuck E s) :
    ¬ Readable s := by
  rintro ⟨hopen, hne⟩
  obtain ⟨q, fds, h⟩ := reader_of_isOpen hE hs hstuck hopen
  exact hne (stuck_reader hs hstuck h).1

/-- Unless `main` has returned somebody can take a step, and no call has to fail for it. -/
theorem exists_step (hE : E.closed = true) (hcap : 0 < E.capacity) (hs : Sound E s)
    (hparent : s.procs .parent ≠ .zombie) : ∃ e t, e.Succeeds ∧ step E s e = some t := by
  refine (machine E).exists_step_of_not_stuck fun hstuck : Stuck E s => ?_
  have hnot := not_readable hE hs hstuck
  cases hmain : s.procs .parent with
  | unborn | reaped =>
    have := hs.2
    rw [hmain] at this
    cases this
  | zombie => exact hparent hmain
  | program => exact (program_eq hs hmain).1 rfl
  | text k fds =>
    -- nobody is there for whom `main` could wait
    obtain ⟨-, c, hc, hgone, hzombie⟩ := stuck_text hs hstuck hmain
    obtain ⟨_, _, hstatus⟩ | ⟨_, _, hstatus⟩ := Status.running_of_not_gone hgone hzombie
    · cases c with
      | parent | stray => cases hc
      | childA => exact hnot (readable_of_childA hcap hs hstuck hstatus)
      | childB => exact stuck_leaf hs hstuck (by decide) _ _ hstatus
    · cases c with
      | parent | stray => cases hc
      | childA => exact hnot (readable_of_writer hcap hs hstuck (by decide) hstatus)
      | childB =>
        exact hnot (readable_of_isOpen hE hcap hs hstuck (stuck_reader hs hstuck hstatus).2)

end Progress

/-! ## The steps that are left -/

section Measure

variable {E : Env β} {s t : State β}

/-- What a byte costs that a `grep` has still to write: the stray one writes into the pipe. -/
def cost : Process → ℕ
  | .stray => 3
  | .parent | .childA | .childB => 1

/-- What a `grep` has still to do with what it has read. -/
def credit (p : Process) (g : Grep β) : ℕ :=
  cost p * (g.got.length + 1 - g.put) + (!g.eof).toNat

/-- The steps that are left, for bytes that wander from the keyboard or from `ps` into the pipe, and
from there to the screen. -/
def measure (s : State β) (closed : Bool) : ℕ :=
  (weights closed).total s.procs + 4 * s.typed.length + 3 * s.psLeft.length + 2 * s.pipe.length +
    ∑ p, credit p (s.greps p)

/-- What a `grep` has to write grows with its input, and is not longer but for a line end. -/
structure Filters (grep : Bool → List β → List β) : Prop where
  length_le : ∀ b l, (grep b l).length ≤ l.length + 1
  append : ∀ l l', grep false l <+: grep false (l ++ l')
  ends : ∀ l, grep false l <+: grep true l

/-- What `grep` puts out is paid from its credit. -/
theorem credit_put (hE : Filters E.grep) {p : Process} {n : ℕ} (hn : 0 < n)
    (hle : n ≤ (s.output E p .grep).length) :
    credit p ((s.greps p).wrote n) + cost p * n = credit p (s.greps p) := by
  have hshort := hE.length_le (s.greps p).eof (s.greps p).got
  rw [State.output, List.length_drop] at hle
  simp only [credit, Grep.wrote]
  rw [show (s.greps p).got.length + 1 - (s.greps p).put =
    (s.greps p).got.length + 1 - ((s.greps p).put + n) + n by omega, Nat.mul_add]
  omega

/-- What `grep` reads adds to its credit. -/
theorem credit_got (p : Process) (l : List β) :
    credit p ((s.greps p).took l) ≤ credit p (s.greps p) + cost p * l.length := by
  simp only [credit, Grep.took, List.length_append]
  have : cost p * ((s.greps p).got.length + l.length + 1 - (s.greps p).put) ≤
      cost p * ((s.greps p).got.length + 1 - (s.greps p).put + l.length) :=
    Nat.mul_le_mul_left _ (by omega)
  rw [Nat.mul_add] at this
  omega

/-- What a `grep` has still to do is the only thing that its steps change in this sum. -/
theorem credits_update (p : Process) (g : Grep β) :
    ∑ q, credit q (Function.update s.greps p g q) + credit p (s.greps p) =
      ∑ q, credit q (s.greps q) + credit p g :=
  sum_update credit s.greps p g

/-- The end of a program lowers the measure. -/
theorem measure_ended {p : Process} {q : Program} {fds : Fd → Option File}
    (hp : s.procs p = .program q fds) (closed : Bool) :
    measure (s.ended p) closed < measure s closed := by
  have := Weights.total_update (W := weights closed) s.procs p .zombie
  rw [hp] at this
  simp only [Weights.weight, weights] at this
  simp only [measure, State.ended, weights]
  omega

/-- Every step lowers the measure. -/
theorem measure_step (hE : Filters E.grep) (hs : Sound E s) {e : Event} (h : step E s e = some t) :
    measure t E.closed < measure s E.closed := by
  cases moves_of_step hs h with
  | call h' =>
    have := Weights.total_act (W := weights E.closed) h'
    simp only [measure]
    omega
  | @fill p n hp hprog hn hle hopen hfits =>
    have htake : ((s.output E p (program p)).take n).length = n := List.length_take_of_le hle
    rcases hp with rfl | rfl
    · simp only [measure, State.wrote, program, List.length_append, List.length_drop]
      simp only [State.output, program] at htake hle ⊢
      omega
    · have hput := credit_put hE hn hle
      have hsum := credits_update (s := s) .stray ((s.greps .stray).wrote n)
      simp only [measure, State.wrote, program, List.length_append]
      simp only [program, cost] at htake hput
      omega
  | @print n hprog hn hle =>
    have hput := credit_put hE hn hle
    have hsum := credits_update (s := s) .childB ((s.greps .childB).wrote n)
    simp only [measure, State.wrote]
    simp only [cost] at hput
    omega
  | @drain n hprog heof hn hle =>
    have hgot := credit_got (s := s) .childB (s.pipe.take n)
    have hsum := credits_update (s := s) .childB ((s.greps .childB).took (s.pipe.take n))
    rw [List.length_take_of_le hle] at hgot
    simp only [measure, State.took, List.length_drop]
    simp only [cost] at hgot
    omega
  | @type n hprog heof hn hle =>
    have hgot := credit_got (s := s) .stray (s.typed.take n)
    have hsum := credits_update (s := s) .stray ((s.greps .stray).took (s.typed.take n))
    rw [List.length_take_of_le hle] at hgot
    simp only [measure, State.took, List.length_drop]
    simp only [cost] at hgot
    omega
  | @eof p fds hp hprog heof hend =>
    have hsum := credits_update (s := s) p (s.greps p).ended
    have hend : credit p (s.greps p).ended + 1 = credit p (s.greps p) := by
      simp [credit, Grep.ended, heof]
    simp only [measure]
    omega
  | finish hprog | sigpipe _ hprog => exact measure_ended hprog _

/-- At first the measure is the bound on the length of a run. -/
theorem measure_init (E : Env β) :
    measure (init E) E.closed = 45 + 4 * E.typed.length + 3 * E.psOut.length := by
  have hcredits : ∑ p, credit p ((init E).greps p) = 10 := rfl
  have htotal : (weights E.closed).total (init E).procs = 35 := rfl
  rw [measure, hcredits, htotal]
  simp only [init, List.length_nil]
  omega

/-- Every step of a run takes one of the steps that are left. -/
theorem length_le (hE : Filters E.grep) {es : List Event}
    (h : (machine E).run (init E) es = some s) :
    es.length ≤ 45 + 4 * E.typed.length + 3 * E.psOut.length := by
  have := Machine.length_add_le (m := fun s => measure s E.closed)
    (fun s e t hs h => ⟨sound_step hs h, measure_step hE hs h⟩) (sound_init E) h
  rw [measure_init] at this
  omega

end Measure

end LinuxRiscv32.Pipe2

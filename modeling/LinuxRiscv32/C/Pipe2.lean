import LinuxRiscv32.Kernel.ProcessTree
import Mathlib.Data.Fintype.Pi

/-!
# `ps | grep bash`

`pipe2.c` forks two children around a pipe and waits for both. `text` are the calls of `main`, the
parameter `closed` being the two `close` calls of the parent in front of its `wait`; the model runs
it with and without them. A `fork` or an `execl` may fail. A child whose `execl` has failed goes on
in the text, so the first one may come to fork a child of its own (`Process.stray`).

`ps` writes what it has, `grep` reads its input to the end and writes a part of it that depends on
what it has read so far. A full pipe blocks, and a writer without a reader is killed.
-/

namespace LinuxRiscv32.Pipe2

open Common Kernel.Process

inductive Process where
  | parent
  | childA
  | childB
  /-- What the first child forks if it could not execute `ps`. -/
  | stray
deriving DecidableEq, Repr

instance : Fintype Process where
  elems := {.parent, .childA, .childB, .stray}
  complete p := by cases p <;> decide

/-- `0`, `1`, `fd[0]` and `fd[1]`. -/
inductive Fd where
  | stdin
  | stdout
  | rd
  | wr
deriving DecidableEq, Repr

instance : Fintype Fd where
  elems := {.stdin, .stdout, .rd, .wr}
  complete f := by cases f <;> decide

inductive File where
  | tty
  | readEnd
  | writeEnd
deriving DecidableEq, Repr

inductive Program where
  | ps
  | grep
deriving DecidableEq, Repr

instance : Fintype Program where
  elems := {.ps, .grep}
  complete q := by cases q <;> decide

/-- The calls behind `pipe(fd)`. -/
def text (closed : Bool) : List (Instr Fd Program) :=
  [.fork 5, .dup2 .wr .stdout, .close .rd, .close .wr, .execl .ps,
    .fork 10, .dup2 .rd .stdin, .close .rd, .close .wr, .execl .grep] ++
  (if closed then [.close .rd, .close .wr] else []) ++ [.wait, .wait, .exit]

def child : Process → ℕ → Process
  | .parent, 0 => .childA
  | .parent, _ => .childB
  | .childA, _ | .childB, _ | .stray, _ => .stray

def parent : Process → Option Process
  | .parent => none
  | .childA | .childB => some .parent
  | .stray => some .childA

def family (closed : Bool) : Family Process Fd Program := ⟨text closed, child, parent⟩

/-- What a `grep` has read, whether it has seen the end of its input, and how much it has written
of what it has to write. -/
structure Grep (β : Type*) where
  got : List β
  eof : Bool
  put : ℕ

namespace Grep

variable {β : Type*} (g : Grep β)

def wrote (n : ℕ) : Grep β := { g with put := g.put + n }

def took (l : List β) : Grep β := { g with got := g.got ++ l }

def ended : Grep β := { g with eof := true }

end Grep

/-- `psOut` is what `ps` writes, and `typed` what is typed in at the terminal up to the end of file.
`grep false` and `grep true` are what `grep` has to write in all once it has read some input,
without and with the end of the input behind it. -/
structure Env (β : Type*) where
  closed : Bool
  capacity : ℕ
  psOut : List β
  typed : List β
  grep : Bool → List β → List β

structure State (β : Type*) where
  procs : Process → Status Fd File Program
  pipe : List β
  psLeft : List β
  typed : List β
  greps : Process → Grep β
  screen : List β

/-- The table behind `pipe(fd)`. -/
def opened : Fd → Option File
  | .stdin | .stdout => some .tty
  | .rd => some .readEnd
  | .wr => some .writeEnd

variable {β : Type*}

def init (E : Env β) : State β where
  procs := Function.update (fun _ => .unborn) .parent (.text 0 opened)
  pipe := []
  psLeft := E.psOut
  typed := E.typed
  greps := fun _ => ⟨[], false, 0⟩
  screen := []

inductive Event where
  /-- A process makes the next call of the text. -/
  | call (p : Process) (ok : Bool) (reap : Option Process)
  | write (p : Process) (n : ℕ)
  | read (p : Process) (n : ℕ)
  /-- `read` returns `0`. -/
  | eof (p : Process)
  | finish (p : Process)
  | sigpipe (p : Process)
deriving DecidableEq, Repr

/-- A `fork` or an `execl` does not fail. -/
def Event.Succeeds : Event → Prop
  | .call _ ok _ => ok
  | .write _ _ | .read _ _ | .eof _ | .finish _ | .sigpipe _ => True

instance : ∀ e : Event, Decidable e.Succeeds
  | .call _ ok _ => inferInstanceAs (Decidable (ok = true))
  | .write _ _ | .read _ _ | .eof _ | .finish _ | .sigpipe _ => inferInstanceAs (Decidable True)

namespace State

variable (s : State β)

/-- Somebody has the file open. -/
def IsOpen (f : File) : Prop := Kernel.Process.IsOpen s.procs f

instance (f : File) : Decidable (s.IsOpen f) :=
  inferInstanceAs (Decidable (Kernel.Process.IsOpen s.procs f))

/-- What a program has still to write. -/
def output (E : Env β) (p : Process) : Program → List β
  | .ps => s.psLeft
  | .grep => (E.grep (s.greps p).eof (s.greps p).got).drop (s.greps p).put

/-- `n` bytes of it have been written. -/
def wrote (p : Process) (n : ℕ) : Program → State β
  | .ps => { s with psLeft := s.psLeft.drop n }
  | .grep => { s with greps := Function.update s.greps p ((s.greps p).wrote n) }

@[simp] theorem wrote_procs (p : Process) (n : ℕ) (q : Program) :
    (s.wrote p n q).procs = s.procs := by
  cases q <;> rfl

/-- A `grep` has read `l`. -/
def took (p : Process) (l : List β) : State β :=
  { s with greps := Function.update s.greps p ((s.greps p).took l) }

def ended (p : Process) : State β := { s with procs := Function.update s.procs p .zombie }

end State

/-- A `write` of a program with this standard output. -/
def write (E : Env β) (s : State β) (p : Process) (q : Program) (n : ℕ) :
    Option File → Option (State β)
  | some .tty =>
    if 0 < n ∧ n ≤ (s.output E p q).length then
      some { s.wrote p n q with screen := s.screen ++ (s.output E p q).take n }
    else none
  | some .writeEnd =>
    -- without a reader the `write` is a `SIGPIPE`, and with a full pipe it blocks
    if (0 < n ∧ n ≤ (s.output E p q).length) ∧ s.IsOpen .readEnd ∧
        s.pipe.length + n ≤ E.capacity then
      some { s.wrote p n q with pipe := s.pipe ++ (s.output E p q).take n }
    else none
  | some .readEnd | none => none

/-- A `read` of a `grep` with this standard input. -/
def read (s : State β) (p : Process) (n : ℕ) : Option File → Option (State β)
  | some .tty =>
    if 0 < n ∧ n ≤ s.typed.length then
      some { s.took p (s.typed.take n) with typed := s.typed.drop n }
    else none
  | some .readEnd =>
    if 0 < n ∧ n ≤ s.pipe.length then
      some { s.took p (s.pipe.take n) with pipe := s.pipe.drop n }
    else none
  | some .writeEnd | none => none

/-- The standard input is at its end. -/
def AtEnd (s : State β) : Option File → Prop
  | some .tty => s.typed = []
  -- the end of a pipe is reported when nobody can write to it any more
  | some .readEnd => s.pipe = [] ∧ ¬ s.IsOpen .writeEnd
  | some .writeEnd | none => False

instance (s : State β) : ∀ f, Decidable (AtEnd s f)
  | some .tty => inferInstanceAs (Decidable (s.typed = []))
  | some .readEnd => inferInstanceAs (Decidable (_ ∧ _))
  | some .writeEnd | none => inferInstanceAs (Decidable False)

/-- A program that has nothing left to do. -/
def Done (E : Env β) (s : State β) (p : Process) : Program → Prop
  | .ps => s.psLeft = []
  | .grep => (s.greps p).eof ∧ s.output E p .grep = []

instance (E : Env β) (s : State β) (p : Process) : ∀ q, Decidable (Done E s p q)
  | .ps => inferInstanceAs (Decidable (s.psLeft = []))
  | .grep => inferInstanceAs (Decidable (_ ∧ _))

def step (E : Env β) (s : State β) : Event → Option (State β)
  | .call p ok reap => (act (family E.closed) s.procs p ok reap).map fun t => { s with procs := t }
  | .write p n =>
    match s.procs p with
    | .program q fds => write E s p q n (fds .stdout)
    | .unborn | .text _ _ | .zombie | .reaped => none
  | .read p n =>
    match s.procs p with
    | .program .grep fds => if (s.greps p).eof then none else read s p n (fds .stdin)
    | .program .ps _ | .unborn | .text _ _ | .zombie | .reaped => none
  | .eof p =>
    match s.procs p with
    | .program .grep fds =>
      if (s.greps p).eof = false ∧ AtEnd s (fds .stdin) then
        some { s with greps := Function.update s.greps p (s.greps p).ended }
      else none
    | .program .ps _ | .unborn | .text _ _ | .zombie | .reaped => none
  | .finish p =>
    match s.procs p with
    | .program q _ => if Done E s p q then some (s.ended p) else none
    | .unborn | .text _ _ | .zombie | .reaped => none
  | .sigpipe p =>
    match s.procs p with
    | .program q fds =>
      if fds .stdout = some .writeEnd ∧ s.output E p q ≠ [] ∧ ¬ s.IsOpen .readEnd then
        some (s.ended p)
      else none
    | .unborn | .text _ _ | .zombie | .reaped => none

def machine (E : Env β) : Machine (State β) Event := ⟨step E⟩

/-! ## The text -/

section Text

variable (closed : Bool)

/-- The places that a process comes to. -/
def places : Process → List ℕ
  | .parent => [0, 5, 10, 11, 12] ++ if closed then [13, 14] else []
  | .childA => [1, 2, 3, 4, 5, 10, 11, 12] ++ if closed then [13, 14] else []
  | .childB | .stray => [6, 7, 8, 9, 10, 11, 12] ++ if closed then [13, 14] else []

/-- The table that a process has at a place. -/
def tab : Process → ℕ → Fd → Option File
  | .parent, k =>
    if closed ∧ 11 < k then close (close opened .rd) .wr
    else if closed ∧ 10 < k then close opened .rd else opened
  | .childA, k =>
    let fds := dup2 opened .wr .stdout
    if k ≤ 1 then opened else if k ≤ 2 then fds else if k ≤ 3 then close fds .rd
    else close (close fds .rd) .wr
  | .childB, k =>
    let fds := dup2 opened .rd .stdin
    if k ≤ 6 then opened else if k ≤ 7 then fds else if k ≤ 8 then close fds .rd
    else close (close fds .rd) .wr
  | .stray, _ => close (close (dup2 opened .wr .stdout) .rd) .wr

theorem lt_length_text {closed : Bool} {k : ℕ} {i : Instr Fd Program}
    (hi : (text closed)[k]? = some i) : k < 15 :=
  lt_of_lt_of_le (List.getElem?_eq_some_iff.mp hi).1 (by cases closed <;> decide)

def layout : Layout (family closed) File where
  valid p k := decide (k ∈ places closed p)
  tab := tab closed
  leads p k i hv hi := by
    have general : ∀ closed p, ∀ k ∈ places closed p, ∀ i ∈ (text closed)[k]?,
        Leads (family closed) (fun p k fds => decide (k ∈ places closed p) ∧ fds = tab closed p k)
          p k (tab closed p k) i := by
      decide
    exact general closed p k (of_decide_eq_true hv) i hi
  child p k l hk hl hfork hfork' h := by
    have general : ∀ closed p, ∀ k ∈ places closed p, ∀ l ∈ places closed p,
        (family closed).forks k → (family closed).forks l → child p k = child p l → k = l := by
      decide
    exact general closed p k (of_decide_eq_true hk) l (of_decide_eq_true hl) hfork hfork' h

/-- How many children a process may have at a place. -/
def budget (k : ℕ) : ℕ :=
  if k ≤ 4 then 0 else if k ≤ 5 then 1 else if k ≤ 9 then 0
  else if k ≤ (if closed then 12 else 10) then 2 else if k ≤ (if closed then 13 else 11) then 1
  else 0

def waits : Waits (family closed) where
  budget := budget closed
  awaits k i hi := by
    have general : ∀ closed, ∀ k < 15, ∀ i ∈ (text closed)[k]?, Awaits (budget closed) k i := by
      decide
    exact general closed k (lt_length_text hi) i hi

/-- A bound on the calls that a process and its children can still make from a place. -/
def callsLeft (k : ℕ) : ℕ := if k = 0 then 35 else if k ≤ 5 then 20 - k else 15 - k

def weights : Weights (family closed) where
  text := callsLeft
  program _ := 1
  drops k i hi := by
    have general : ∀ closed, ∀ k < 15, ∀ i ∈ (text closed)[k]?,
        Drops callsLeft (fun _ => 1) k i := by
      decide
    exact general closed k (lt_length_text hi) i hi

end Text


/-! ## What a process is -/

section Kept

variable {E : Env β} {s t : State β}

/-- What every run keeps of the processes. -/
def Sound (E : Env β) (s : State β) : Prop :=
  Kept (layout E.closed) (waits E.closed) s.procs ∧ (s.procs .parent).isGone = false

theorem init_procs (E : Env β) {p : Process} (hp : p ≠ .parent) : (init E).procs p = .unborn := by
  simp only [init]
  rw [Function.update_of_ne hp]

/-- Only the parent is there at first. -/
theorem sound_init (E : Env β) : Sound E (init E) := by
  have hunborn : ∀ p, p ≠ .parent → (init E).procs p = .unborn := fun _ => init_procs E
  refine ⟨⟨fun p => ?_, fun p k _ _ _ _ => hunborn _ ?_, fun p => ?_⟩, rfl⟩
  · by_cases hp : p = .parent
    · subst hp
      exact ⟨by cases E.closed <;> decide, by cases E.closed <;> decide⟩
    · rw [hunborn p hp]
      exact trivial
  · change child p k ≠ .parent
    unfold child
    split <;> nofun
  · rw [Waits.children_eq_zero]
    · exact Nat.zero_le _
    · intro c hc
      rw [hunborn c (by rintro rfl; cases hc)]
      rfl

/-- The program that a child executes, and the place where it leaves the text. -/
def program : Process → Program
  | .childA => .ps
  | .parent | .childB | .stray => .grep

def execPlace : Process → ℕ
  | .childA => 4
  | .parent | .childB | .stray => 9

/-- A child executes its own program, with the descriptors of its `execl`. -/
theorem program_eq (hs : Sound E s) {p : Process} {q : Program} {fds : Fd → Option File}
    (hp : s.procs p = .program q fds) :
    p ≠ .parent ∧ q = program p ∧ fds = tab E.closed p (execPlace p) := by
  have hfits := hs.1.fits p
  rw [hp] at hfits
  obtain ⟨k, hv, hi, rfl⟩ := hfits
  have general : ∀ closed p, ∀ k ∈ places closed p, ∀ q : Program,
      (text closed)[k]? = some (.execl q) → p ≠ .parent ∧ q = program p ∧ k = execPlace p := by
    decide
  obtain ⟨hne, hq, rfl⟩ := general E.closed p k (of_decide_eq_true hv) q hi
  exact ⟨hne, hq, rfl⟩

theorem Sound.of_procs (hs : Sound E s) (h : t.procs = s.procs) : Sound E t := by
  rwa [Sound, h]

/-- A call keeps the processes at places of the text. -/
theorem Sound.act (hs : Sound E s) {p : Process} {ok : Bool} {reap : Option Process}
    {u : Process → Status Fd File Program}
    (h : Kernel.Process.act (family E.closed) s.procs p ok reap = some u) :
    Sound E { s with procs := u } :=
  ⟨hs.1.act h, Kept.alive_act rfl hs.2 h⟩

/-- The end of a program keeps the processes at places of the text. -/
theorem Sound.ended (hs : Sound E s) {p : Process} {q : Program} {fds : Fd → Option File}
    (hp : s.procs p = .program q fds) : Sound E (s.ended p) := by
  refine ⟨hs.1.finish hp, ?_⟩
  change (Function.update s.procs p .zombie .parent).isGone = false
  rw [Function.update_of_ne (program_eq hs hp).1.symm]
  exact hs.2

/-- The steps that a state of a run accepts. -/
inductive Moves (E : Env β) (s : State β) : Event → State β → Prop
  | call {p : Process} {ok : Bool} {reap : Option Process} {u : Process → Status Fd File Program}
      (h : act (family E.closed) s.procs p ok reap = some u) :
      Moves E s (.call p ok reap) { s with procs := u }
  /-- `ps`, or the `grep` of the stray process, writes into the pipe. -/
  | fill {p : Process} {n : ℕ} (hp : p = .childA ∨ p = .stray)
      (hprog : s.procs p = .program (program p) (tab E.closed p (execPlace p))) (hn : 0 < n)
      (hle : n ≤ (s.output E p (program p)).length) (hopen : s.IsOpen .readEnd)
      (hfits : s.pipe.length + n ≤ E.capacity) :
      Moves E s (.write p n)
        { s.wrote p n (program p) with
          pipe := s.pipe ++ (s.output E p (program p)).take n }
  | print {n : ℕ} (hprog : s.procs .childB = .program .grep (tab E.closed .childB 9)) (hn : 0 < n)
      (hle : n ≤ (s.output E .childB .grep).length) :
      Moves E s (.write .childB n)
        { s.wrote .childB n .grep with
          screen := s.screen ++ (s.output E .childB .grep).take n }
  | drain {n : ℕ} (hprog : s.procs .childB = .program .grep (tab E.closed .childB 9))
      (heof : (s.greps .childB).eof = false) (hn : 0 < n) (hle : n ≤ s.pipe.length) :
      Moves E s (.read .childB n)
        { s.took .childB (s.pipe.take n) with pipe := s.pipe.drop n }
  | type {n : ℕ} (hprog : s.procs .stray = .program .grep (tab E.closed .stray 9))
      (heof : (s.greps .stray).eof = false) (hn : 0 < n) (hle : n ≤ s.typed.length) :
      Moves E s (.read .stray n) { s.took .stray (s.typed.take n) with typed := s.typed.drop n }
  | eof {p : Process} {fds : Fd → Option File} (hp : p = .childB ∨ p = .stray)
      (hprog : s.procs p = .program .grep fds) (heof : (s.greps p).eof = false)
      (hend : p = .childB → s.pipe = [] ∧ ¬ s.IsOpen .writeEnd) :
      Moves E s (.eof p)
        { s with greps := Function.update s.greps p (s.greps p).ended }
  | finish {p : Process} {fds : Fd → Option File} (hprog : s.procs p = .program (program p) fds)
      (hdone : Done E s p (program p)) : Moves E s (.finish p) (s.ended p)
  | sigpipe {p : Process} (hp : p = .childA ∨ p = .stray)
      (hprog : s.procs p = .program (program p) (tab E.closed p (execPlace p)))
      (hout : s.output E p (program p) ≠ []) (hclosed : ¬ s.IsOpen .readEnd) :
      Moves E s (.sigpipe p) (s.ended p)

/-- The files of a program. -/
theorem tab_execPlace (closed : Bool) : ∀ p, p ≠ .parent →
    (tab closed p (execPlace p) .stdin = if p = .childB then some .readEnd else some .tty) ∧
    tab closed p (execPlace p) .stdout = if p = .childB then some .tty else some .writeEnd := by
  cases closed <;> decide

/-- A child that executes a program. -/
theorem program_cases (hs : Sound E s) {p : Process} {q : Program} {fds : Fd → Option File}
    (hp : s.procs p = .program q fds) :
    (p = .childB ∧ q = .grep ∧ fds = tab E.closed .childB 9 ∧ fds .stdin = some .readEnd ∧
      fds .stdout = some .tty) ∨
    ((p = .childA ∨ p = .stray) ∧ q = program p ∧ fds = tab E.closed p (execPlace p) ∧
      fds .stdin = some .tty ∧ fds .stdout = some .writeEnd) := by
  obtain ⟨hne, rfl, rfl⟩ := program_eq hs hp
  obtain ⟨hin, hout⟩ := tab_execPlace E.closed p hne
  rw [hin, hout]
  cases p with
  | parent => exact absurd rfl hne
  | childB => exact .inl ⟨rfl, rfl, rfl, rfl, rfl⟩
  | childA => exact .inr ⟨.inl rfl, rfl, rfl, rfl, rfl⟩
  | stray => exact .inr ⟨.inr rfl, rfl, rfl, rfl, rfl⟩

/-- Every step is one of these moves. -/
theorem moves_of_step (hs : Sound E s) {e : Event} (h : step E s e = some t) : Moves E s e t := by
  cases e with
  | call p ok reap =>
    obtain ⟨u, hu, rfl⟩ := Option.map_eq_some_iff.mp h
    exact .call hu
  | write p n =>
    simp only [step] at h
    split at h <;> try cases h
    rename_i q fds hp
    obtain ⟨rfl, rfl, rfl, -, hout⟩ | ⟨hp', rfl, rfl, -, hout⟩ := program_cases hs hp
    · rw [hout] at h
      obtain ⟨⟨hn, hle⟩, rfl⟩ := Machine.guard_eq_some.mp h
      exact .print hp hn hle
    · rw [hout] at h
      obtain ⟨⟨⟨hn, hle⟩, hopen, hfits⟩, rfl⟩ := Machine.guard_eq_some.mp h
      exact .fill hp' hp hn hle hopen hfits
  | read p n =>
    simp only [step] at h
    split at h <;> try cases h
    rename_i fds hp
    obtain ⟨heof, h⟩ := Option.ite_none_left_eq_some.mp h
    rw [Bool.not_eq_true] at heof
    -- `grep` is in the second child, or in the stray process, where the terminal is its input
    obtain ⟨rfl, -, rfl, hin, -⟩ | ⟨rfl | rfl, hq, rfl, hin, -⟩ := program_cases hs hp
    · rw [hin] at h
      obtain ⟨⟨hn, hle⟩, rfl⟩ := Machine.guard_eq_some.mp h
      exact .drain hp heof hn hle
    · cases hq
    · rw [hin] at h
      obtain ⟨⟨hn, hle⟩, rfl⟩ := Machine.guard_eq_some.mp h
      exact .type hp heof hn hle
  | eof p =>
    simp only [step] at h
    split at h <;> try cases h
    rename_i fds hp
    obtain ⟨⟨heof, hend⟩, rfl⟩ := Machine.guard_eq_some.mp h
    obtain ⟨rfl, -, rfl, hin, -⟩ | ⟨rfl | rfl, hq, rfl, hin, -⟩ := program_cases hs hp
    · rw [hin] at hend
      exact .eof (.inl rfl) hp heof fun _ => hend
    · cases hq
    · exact .eof (.inr rfl) hp heof nofun
  | finish p =>
    simp only [step] at h
    split at h <;> try cases h
    rename_i q fds hp
    obtain ⟨hdone, rfl⟩ := Machine.guard_eq_some.mp h
    obtain ⟨-, rfl, -⟩ := program_eq hs hp
    exact .finish hp hdone
  | sigpipe p =>
    simp only [step] at h
    split at h <;> try cases h
    rename_i q fds hp
    obtain ⟨⟨hout, hleft, hclosed⟩, rfl⟩ := Machine.guard_eq_some.mp h
    obtain ⟨-, -, rfl, -, htty⟩ | ⟨hp', rfl, rfl, -, -⟩ := program_cases hs hp
    · rw [htty] at hout
      cases hout
    · exact .sigpipe hp' hp hleft hclosed

/-- Each step keeps the processes at places of the text. -/
theorem sound_step {e : Event} (hs : Sound E s) (h : step E s e = some t) : Sound E t := by
  cases moves_of_step hs h with
  | call h' => exact hs.act h'
  | fill | print => exact hs.of_procs (State.wrote_procs ..)
  | drain | type | eof => exact hs
  | finish hprog | sigpipe _ hprog => exact hs.ended hprog

/-- Every run keeps the processes at places of the text. -/
theorem sound_run {es : List Event} (h : (machine E).run (init E) es = some s) : Sound E s :=
  Machine.invariant_of_step (fun _ _ _ hs h => sound_step hs h) (sound_init E) h

end Kept

end LinuxRiscv32.Pipe2

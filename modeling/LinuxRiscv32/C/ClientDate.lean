import LinuxRiscv32.Kernel.ProcessTree
import Mathlib.Data.Fintype.Pi

/-!
# The date behind the response

Reference: `C/server_tcp.c`, `C/server_unix.c` (`handle_client` behind the `write` of the response,
`reap`).

The process of a client has written its response. It forks a child that executes `date` on the
connection, waits for it and closes its own end. It has inherited the handler `reap` of `SIGCHLD`,
so the child is reaped by `reap` or by `waitpid`, whichever is first. If `execlp` fails, `exit(1)`
writes what stdio has held back at the `fork` to the connection: nothing, as long as the output of
the server goes to a terminal.

The client receives, and may close its end at any time.
-/

namespace LinuxRiscv32.ClientDate

open Common Kernel.Process

inductive Process where
  | handler
  | child
deriving DecidableEq, Repr

instance : Fintype Process where
  elems := {.handler, .child}
  complete p := by cases p <;> decide

inductive Fd where
  | clientfd
  | stdout
deriving DecidableEq, Repr

instance : Fintype Fd where
  elems := {.clientfd, .stdout}
  complete f := by cases f <;> decide

inductive File where
  | connection
  | log
deriving DecidableEq, Repr

/-- What the child executes: `date`, or the rest of `exit(1)`. -/
inductive Program where
  | date
  | exit1
deriving DecidableEq, Repr

instance : Fintype Program where
  elems := {.date, .exit1}
  complete q := by cases q <;> decide

/-- The calls from the `fork` on. If `exit(1)` cannot write anything it only ends. -/
def text : List (Instr Fd Program) :=
  [.fork 6, .dup2 .clientfd .stdout, .close .clientfd, .execl .date, .execl .exit1, .exit,
    .wait, .close .clientfd, .exit]

def parent : Process → Option Process
  | .handler => none
  | .child => some .handler

def family : Family Process Fd Program := ⟨text, fun _ _ => .child, parent⟩

structure Env (β : Type*) where
  capacity : ℕ
  response : List β
  date : List β
  held : List β

/-- What a program writes. -/
def Env.content {β : Type*} (E : Env β) : Program → List β
  | .date => E.date
  | .exit1 => E.held

/-- `put` is how much the child has written, and `connection` what is on its way to the client. -/
structure State (β : Type*) where
  procs : Process → Status Fd File Program
  put : ℕ
  connection : List β
  received : List β
  eof : Bool
  hungup : Bool

def opened : Fd → Option File
  | .clientfd => some .connection
  | .stdout => some .log

variable {β : Type*}

def init (E : Env β) : State β where
  procs := Function.update (fun _ => .unborn) .handler (.text 0 opened)
  put := 0
  connection := E.response
  received := []
  eof := false
  hungup := false

inductive Event where
  | call (p : Process) (ok : Bool) (reap : Option Process)
  /-- The handler of `SIGCHLD`. -/
  | reap
  | write (n : ℕ)
  | finish
  | sigpipe
  | receive (n : ℕ)
  | eof
  | hangup
deriving DecidableEq, Repr

/-- A `fork` or an `execlp` does not fail, and the client does not close. -/
def Event.Succeeds : Event → Prop
  | .call _ ok _ => ok
  | .hangup => False
  | .reap | .write _ | .finish | .sigpipe | .receive _ | .eof => True

instance : ∀ e : Event, Decidable e.Succeeds
  | .call _ ok _ => inferInstanceAs (Decidable (ok = true))
  | .hangup => inferInstanceAs (Decidable False)
  | .reap | .write _ | .finish | .sigpipe | .receive _ | .eof => inferInstanceAs (Decidable True)

/-- What the child has still to write. -/
def State.output (s : State β) (E : Env β) (q : Program) : List β := (E.content q).drop s.put

def step (E : Env β) (s : State β) : Event → Option (State β)
  | .call p ok reap => (act family s.procs p ok reap).map fun t => { s with procs := t }
  | .reap =>
    match s.procs .handler with
    | .text _ _ =>
      if (s.procs .child).isZombie then
        some { s with procs := Function.update s.procs .child .reaped }
      else none
    | .unborn | .program _ _ | .zombie | .reaped => none
  | .write n =>
    match s.procs .child with
    | .program q fds =>
      if fds .stdout = some .connection ∧ s.hungup = false ∧ 0 < n ∧ n ≤ (s.output E q).length ∧
          s.connection.length + n ≤ E.capacity then
        some { s with connection := s.connection ++ (s.output E q).take n, put := s.put + n }
      else none
    | .unborn | .text _ _ | .zombie | .reaped => none
  | .finish =>
    match s.procs .child with
    | .program q _ =>
      if s.output E q = [] then
        some { s with procs := Function.update s.procs .child .zombie }
      else none
    | .unborn | .text _ _ | .zombie | .reaped => none
  | .sigpipe =>
    match s.procs .child with
    | .program q fds =>
      if fds .stdout = some .connection ∧ s.hungup ∧ s.output E q ≠ [] then
        some { s with procs := Function.update s.procs .child .zombie }
      else none
    | .unborn | .text _ _ | .zombie | .reaped => none
  | .receive n =>
    if s.hungup = false ∧ 0 < n ∧ n ≤ s.connection.length then
      some { s with
        received := s.received ++ s.connection.take n
        connection := s.connection.drop n }
    else none
  | .eof =>
    if s.hungup = false ∧ s.eof = false ∧ s.connection = [] ∧ ¬ IsOpen s.procs .connection then
      some { s with eof := true }
    else none
  | .hangup => if s.hungup = false then some { s with hungup := true } else none

def machine (E : Env β) : Machine (State β) Event := ⟨step E⟩

/-! ## The text -/

def places : Process → List ℕ
  | .handler => [0, 6, 7, 8]
  | .child => [1, 2, 3, 4, 5]

def tab : Process → ℕ → Fd → Option File
  | .handler, k => if k ≤ 7 then opened else close opened .clientfd
  | .child, k =>
    let fds := dup2 opened .clientfd .stdout
    if k ≤ 1 then opened else if k ≤ 2 then fds else close fds .clientfd

def layout : Layout family File where
  valid p k := decide (k ∈ places p)
  tab := tab
  leads p k i hv hi := by
    have general : ∀ p, ∀ k ∈ places p, ∀ i ∈ text[k]?,
        Leads family (fun p k fds => decide (k ∈ places p) ∧ fds = tab p k) p k (tab p k) i := by
      decide
    exact general p k (of_decide_eq_true hv) i hi
  child p k l hk hl hfork hfork' _ := by
    have general : ∀ p, ∀ k ∈ places p, ∀ l ∈ places p, family.forks k → family.forks l →
        k = l := by
      decide
    exact general p k (of_decide_eq_true hk) l (of_decide_eq_true hl) hfork hfork'

def budget (k : ℕ) : ℕ := if k = 6 then 1 else 0

def waits : Waits family where
  budget := budget
  awaits k i hi := by
    have general : ∀ k < 9, ∀ i ∈ text[k]?, Awaits budget k i := by decide
    exact general k (List.getElem?_eq_some_iff.mp hi).1 i hi

/-- A bound on the calls that a process and its child can still make from a place. -/
def callsLeft (k : ℕ) : ℕ := if k = 0 then 9 else if k ≤ 5 then 6 - k else 9 - k

def weights : Weights family where
  text := callsLeft
  program _ := 1
  drops k i hi := by
    have general : ∀ k < 9, ∀ i ∈ text[k]?, Drops callsLeft (fun _ => 1) k i := by decide
    exact general k (List.getElem?_eq_some_iff.mp hi).1 i hi

/-! ## What every run keeps -/

section Kept

variable {E : Env β} {s t : State β}

def Sound (s : State β) : Prop := Kept layout waits s.procs ∧ (s.procs .handler).isGone = false

/-- Only the handler is there at first. -/
theorem sound_init (E : Env β) : Sound (init E) := by
  refine ⟨⟨fun p => ?_, fun p _ _ _ _ _ => rfl, fun p => ?_⟩, rfl⟩
  · cases p
    · exact ⟨rfl, rfl⟩
    · exact trivial
  · rw [Waits.children_eq_zero]
    · exact Nat.zero_le _
    · intro c hc
      cases c
      · cases hc
      · rfl

/-- Only the child executes a program, with the connection as its standard output. -/
theorem program_eq (hs : Sound s) {p : Process} {q : Program} {fds : Fd → Option File}
    (hp : s.procs p = .program q fds) : p = .child ∧ fds = tab .child 3 := by
  have hfits := hs.1.fits p
  rw [hp] at hfits
  obtain ⟨k, hv, hi, rfl⟩ := hfits
  have general : ∀ p, ∀ k ∈ places p, ∀ q : Program, text[k]? = some (.execl q) →
      p = .child ∧ tab p k = tab .child 3 := by
    decide
  exact general p k (of_decide_eq_true hv) q hi

/-- Until the client's process waits, it has the connection open, and the child always has. -/
theorem isOpen_of_text (hs : Sound s) {p : Process} {k : ℕ} {fds : Fd → Option File}
    (hp : s.procs p = .text k fds) (hk : p = .child ∨ k ≤ 7) : IsOpen s.procs .connection := by
  have general : ∀ p, ∀ k ∈ places p, (p = .child ∨ k ≤ 7) →
      ∃ fd, tab p k fd = some .connection := by
    decide
  obtain ⟨hv, rfl⟩ := hs.1.valid hp
  obtain ⟨fd, hfd⟩ := general p k (of_decide_eq_true hv) hk
  exact ⟨p, fd, by rw [hp]; exact hfd⟩

/-- The steps that a state of a run accepts. -/
inductive Moves (E : Env β) (s : State β) : Event → State β → Prop
  | call {p : Process} {ok : Bool} {reap : Option Process} {u : Process → Status Fd File Program}
      (h : act family s.procs p ok reap = some u) :
      Moves E s (.call p ok reap) { s with procs := u }
  | reap (hz : s.procs .child = .zombie) :
      Moves E s .reap { s with procs := Function.update s.procs .child .reaped }
  | write {q : Program} {n : ℕ} (hq : s.procs .child = .program q (tab .child 3))
      (hup : s.hungup = false) (hn : 0 < n) (hle : n ≤ (s.output E q).length) :
      Moves E s (.write n)
        { s with connection := s.connection ++ (s.output E q).take n, put := s.put + n }
  | finish {q : Program} (hq : s.procs .child = .program q (tab .child 3))
      (hout : s.output E q = []) :
      Moves E s .finish { s with procs := Function.update s.procs .child .zombie }
  | sigpipe {q : Program} (hq : s.procs .child = .program q (tab .child 3)) (hup : s.hungup) :
      Moves E s .sigpipe { s with procs := Function.update s.procs .child .zombie }
  | receive {n : ℕ} (hn : 0 < n) (hle : n ≤ s.connection.length) :
      Moves E s (.receive n)
        { s with
          received := s.received ++ s.connection.take n
          connection := s.connection.drop n }
  | eof (hup : s.hungup = false) (heof : s.eof = false) (hempty : s.connection = [])
      (hclosed : ¬ IsOpen s.procs .connection) : Moves E s .eof { s with eof := true }
  | hangup (hup : s.hungup = false) : Moves E s .hangup { s with hungup := true }

/-- Every step is one of these moves. -/
theorem moves_of_step (hs : Sound s) {e : Event} (h : step E s e = some t) : Moves E s e t := by
  have htab : ∀ {q : Program} {fds : Fd → Option File}, s.procs .child = .program q fds →
      s.procs .child = .program q (tab .child 3) := fun hq => by
    rw [hq, (program_eq hs hq).2]
  cases e with
  | call p ok reap =>
    obtain ⟨u, hu, rfl⟩ := Option.map_eq_some_iff.mp h
    exact .call hu
  | reap =>
    simp only [step] at h
    split at h <;> try cases h
    obtain ⟨hz, rfl⟩ := Machine.guard_eq_some.mp h
    exact .reap (Status.isZombie_iff.mp hz)
  | write n =>
    simp only [step] at h
    split at h <;> try cases h
    rename_i q fds hq
    obtain ⟨⟨-, hup, hn, hle, -⟩, rfl⟩ := Machine.guard_eq_some.mp h
    exact .write (htab hq) hup hn hle
  | finish =>
    simp only [step] at h
    split at h <;> try cases h
    rename_i q fds hq
    obtain ⟨hout, rfl⟩ := Machine.guard_eq_some.mp h
    exact .finish (htab hq) hout
  | sigpipe =>
    simp only [step] at h
    split at h <;> try cases h
    rename_i q fds hq
    obtain ⟨⟨-, hup, -⟩, rfl⟩ := Machine.guard_eq_some.mp h
    exact .sigpipe (htab hq) hup
  | receive n =>
    obtain ⟨⟨-, hn, hle⟩, rfl⟩ := Machine.guard_eq_some.mp h
    exact .receive hn hle
  | eof =>
    obtain ⟨⟨hup, heof, hempty, hclosed⟩, rfl⟩ := Machine.guard_eq_some.mp h
    exact .eof hup heof hempty hclosed
  | hangup =>
    obtain ⟨hup, rfl⟩ := Machine.guard_eq_some.mp h
    exact .hangup hup

/-- Each step keeps the processes at places of their texts. -/
theorem sound_step {e : Event} (hs : Sound s) (h : step E s e = some t) : Sound t := by
  have handler : ∀ x, (Function.update s.procs .child x .handler).isGone = false := fun x => by
    rw [Function.update_of_ne (by decide)]
    exact hs.2
  cases moves_of_step hs h with
  | call h' => exact ⟨hs.1.act h', Kept.alive_act rfl hs.2 h'⟩
  | reap hz => exact ⟨hs.1.reap hz, handler .reaped⟩
  | finish hq | sigpipe hq => exact ⟨hs.1.finish hq, handler .zombie⟩
  | write | receive | eof | hangup => exact hs

/-- Every run keeps the processes at places of their texts. -/
theorem sound_run {es : List Event} (h : (machine E).run (init E) es = some s) : Sound s :=
  Machine.invariant_of_step (fun _ _ _ hs h => sound_step hs h) (sound_init E) h

end Kept

end LinuxRiscv32.ClientDate

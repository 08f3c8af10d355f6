import LinuxRiscv32.Common.Drain
import Mathlib.Data.Int.Notation

/-!
# The forking servers and their children

Reference: `C/server_tcp.c`, `C/server_unix.c` (`main`, `reap`).

Apart from their sockets the two programs are the same: the parent forks a child for every
connection, and `reap` collects the children that have ended whenever a `SIGCHLD` is delivered.
Several ends may leave one pending `SIGCHLD`, and a child may end at any moment of the loop in
`reap`. Kernel and parent together simulate `Common.Drain`: the items are the children that have
ended, the flag is the pending signal and the worker is `reap`.
-/

namespace LinuxRiscv32.ForkServer

open Common

/-- A process that the parent has forked. Its `pid` may be given to a later child, its number `id`
is not. -/
structure Child where
  id : ℕ
  pid : ℤ
deriving DecidableEq, Repr

/-- The points of the loop in `main`. -/
inductive MainPc where
  | accept
  | fork
  | close
deriving DecidableEq, Repr

/-- The points of the handler. -/
inductive ReapPc where
  /-- It does not run. -/
  | idle
  /-- In front of `waitpid`. -/
  | waitpid
  /-- Behind the loop. -/
  | sigreturn
deriving DecidableEq, Repr

/-- The parent, its children by what has become of them, and whether `SIGCHLD` is pending. -/
structure State where
  main : MainPc
  reap : ReapPc
  live : List Child
  zombies : List Child
  reaped : List Child
  next : ℕ
  pending : Bool
deriving DecidableEq, Repr

inductive Event where
  | accept
  /-- `fork` returns the pid of the child, or fails. -/
  | fork (pid : Option ℤ)
  | close
  | exit (c : Child)
  /-- `SIGCHLD` for another reason: a child is stopped or continued, or it is sent by hand. -/
  | signal
  /-- The kernel starts the handler. -/
  | deliver
  /-- `waitpid` of the handler; `pick` is the child it takes, if there is one. -/
  | waitpid (pick : Option Child)
  | sigreturn
deriving DecidableEq, Repr

/-- `waitpid(-1, NULL, WNOHANG)`: what it returns if it takes `pick`. It takes a child if one has
ended. -/
def waitpid (live zombies : List Child) (pick : Option Child) : Option ℤ :=
  match pick with
  | some c => if c ∈ zombies then some c.pid else none
  | none => if zombies = [] then some (if live = [] then -1 else 0) else none

/-- One step of the parent, of a child or of the kernel. `main` does not go on while the handler
runs, and `SIGCHLD` is blocked there. -/
def step (s : State) : Event → Option State
  | .accept =>
    if s.main = .accept ∧ s.reap = .idle then some { s with main := .fork } else none
  | .fork none => if s.main = .fork ∧ s.reap = .idle then some { s with main := .close } else none
  | .fork (some pid) =>
    if (s.main = .fork ∧ s.reap = .idle) ∧ 0 < pid ∧ ∀ c ∈ s.live ++ s.zombies, c.pid ≠ pid then
      some { s with main := .close, live := ⟨s.next, pid⟩ :: s.live, next := s.next + 1 }
    else none
  | .close => if s.main = .close ∧ s.reap = .idle then some { s with main := .accept } else none
  | .exit c =>
    if c ∈ s.live then
      some { s with live := s.live.erase c, zombies := c :: s.zombies, pending := true }
    else none
  | .signal => some { s with pending := true }
  | .deliver =>
    if s.reap = .idle ∧ s.pending then some { s with reap := .waitpid, pending := false } else none
  | .waitpid pick =>
    if s.reap = .waitpid then
      (waitpid s.live s.zombies pick).map fun ret : ℤ =>
        { s with
          zombies := pick.elim s.zombies s.zombies.erase
          reaped := pick.toList ++ s.reaped
          -- `while (waitpid(-1, NULL, WNOHANG) > 0);`
          reap := if ret > 0 then .waitpid else .sigreturn }
    else none
  | .sigreturn => if s.reap = .sigreturn then some { s with reap := .idle } else none

def machine : Machine State Event := ⟨step⟩

/-- After `signal(SIGCHLD, reap)`: no child was forked. -/
def init : State :=
  { main := .accept, reap := .idle, live := [], zombies := [], reaped := [], next := 0
    pending := false }

/-! ## Children are told apart -/

variable {s t : State} {e : Event}

/-- A `waitpid` takes a child that has ended, or none has. -/
theorem step_waitpid {pick : Option Child} (h : step s (.waitpid pick) = some t) :
    s.reap = .waitpid ∧
      ((∃ c, pick = some c ∧ c ∈ s.zombies ∧ t =
        { s with zombies := s.zombies.erase c, reaped := c :: s.reaped
                 reap := if c.pid > 0 then .waitpid else .sigreturn }) ∨
      pick = none ∧ s.zombies = [] ∧ t = { s with reap := .sigreturn }) := by
  obtain ⟨hreap, h⟩ := Option.ite_none_right_eq_some.mp h
  obtain ⟨ret, hret, rfl⟩ := Option.map_eq_some_iff.mp h
  refine ⟨hreap, ?_⟩
  cases pick with
  | some c =>
    obtain ⟨hc, hret⟩ := Option.ite_none_right_eq_some.mp hret
    obtain rfl := Option.some.inj hret
    exact .inl ⟨c, rfl, hc, rfl⟩
  | none =>
    obtain ⟨hzombies, hret⟩ := Option.ite_none_right_eq_some.mp hret
    refine .inr ⟨rfl, hzombies, ?_⟩
    have hle : ¬ ret > 0 := by
      obtain rfl := Option.some.inj hret
      split <;> decide
    rw [if_neg hle]
    rfl

/-- All children there ever were. -/
def State.children (s : State) : List Child := s.live ++ (s.zombies ++ s.reaped)

/-- What a step does to the children: nothing, there is one more, or they change places. -/
inductive Effect (s t : State) : Prop where
  | fork (pid : ℤ) (hpid : 0 < pid) (hchildren : t.children = ⟨s.next, pid⟩ :: s.children)
      (hnext : t.next = s.next + 1)
  | move (hchildren : t.children.Perm s.children) (hnext : t.next = s.next)

/-- Every step has one of these effects. -/
theorem step_effect (h : step s e = some t) : Effect s t := by
  cases e with
  | accept | close | deliver | sigreturn =>
    obtain ⟨-, rfl⟩ := Machine.guard_eq_some.mp h
    exact .move (List.Perm.refl _) rfl
  | signal =>
    obtain rfl := Option.some.inj h
    exact .move (List.Perm.refl _) rfl
  | fork pid =>
    cases pid with
    | none =>
      obtain ⟨-, rfl⟩ := Machine.guard_eq_some.mp h
      exact .move (List.Perm.refl _) rfl
    | some pid =>
      obtain ⟨⟨-, hpid, -⟩, rfl⟩ := Machine.guard_eq_some.mp h
      exact .fork pid hpid rfl rfl
  | exit c =>
    obtain ⟨hc, rfl⟩ := Machine.guard_eq_some.mp h
    refine .move (List.perm_middle.trans ?_) rfl
    exact ((List.perm_cons_erase hc).symm.append_right (s.zombies ++ s.reaped))
  | waitpid pick =>
    obtain ⟨-, ⟨c, -, hc, rfl⟩ | ⟨-, -, rfl⟩⟩ := step_waitpid h
    · refine .move (List.Perm.append_left s.live (List.perm_middle.trans ?_)) rfl
      exact (List.perm_cons_erase hc).symm.append_right s.reaped
    · exact .move (List.Perm.refl _) rfl

/-- The numbers of all children differ, and a pid is positive. -/
structure Inv (s : State) : Prop where
  nodup : (s.children.map Child.id).Nodup
  lt_next : ∀ c ∈ s.children, c.id < s.next
  pid_pos : ∀ c ∈ s.children, 0 < c.pid

/-- There is no child at first. -/
theorem inv_init : Inv init where
  nodup := List.nodup_nil
  lt_next _ h := absurd h List.not_mem_nil
  pid_pos _ h := absurd h List.not_mem_nil

/-- Each step keeps the numbers of the children distinct. -/
theorem inv_step (hs : Inv s) (h : step s e = some t) : Inv t := by
  obtain ⟨hnodup, hlt, hpos⟩ := hs
  cases step_effect h with
  | fork pid hpid hchildren hnext =>
    refine ⟨?_, ?_, ?_⟩ <;> rw [hchildren]
    · rw [List.map_cons]
      refine List.nodup_cons.mpr ⟨fun hmem => ?_, hnodup⟩
      obtain ⟨c, hc, hid⟩ := List.mem_map.mp hmem
      exact Nat.ne_of_lt (hlt c hc) hid
    · rw [hnext]
      exact List.forall_mem_cons.mpr ⟨Nat.lt_succ_self _, fun c hc => Nat.lt_succ_of_lt (hlt c hc)⟩
    · exact List.forall_mem_cons.mpr ⟨hpid, hpos⟩
  | move hchildren hnext =>
    refine ⟨(hchildren.map Child.id).nodup_iff.mpr hnodup, fun c hc => ?_, fun c hc => ?_⟩
    · rw [hnext]
      exact hlt c (hchildren.mem_iff.mp hc)
    · exact hpos c (hchildren.mem_iff.mp hc)

/-! ## The handler drains the children that have ended -/

/-- What the handler is to the children that have ended. -/
def ReapPc.phase : ReapPc → Drain.Phase
  | .idle => .idle
  | .waitpid => .draining
  | .sigreturn => .leaving

def State.drain (s : State) : Drain Child :=
  { items := s.zombies, flag := s.pending, worker := s.reap.phase, taken := s.reaped }

def actions : Event → List (Drain.Action Child)
  | .accept | .fork _ | .close => []
  | .exit c => [.arrive c]
  | .signal => [.notify]
  | .deliver => [.start]
  | .waitpid (some c) => [.take c]
  | .waitpid none => [.none]
  | .sigreturn => [.stop]

/-- A step of the server is a run of the drain of its children. -/
theorem drain_step (hs : Inv s) (h : step s e = some t) :
    (Drain.machine Child).run s.drain (actions e) = some t.drain := by
  have hdrain {r : ReapPc} (hreap : s.reap = r) : s.drain =
      { items := s.zombies, flag := s.pending, worker := r.phase, taken := s.reaped } := by
    rw [State.drain, hreap]
  cases e with
  | accept | close =>
    obtain ⟨-, rfl⟩ := Machine.guard_eq_some.mp h
    rfl
  | fork pid =>
    cases pid with
    | none | some pid =>
      obtain ⟨-, rfl⟩ := Machine.guard_eq_some.mp h
      rfl
  | exit c =>
    obtain ⟨hc, rfl⟩ := Machine.guard_eq_some.mp h
    have hother : c ∉ s.zombies ++ s.reaped :=
      List.disjoint_of_nodup_append (List.Nodup.of_map Child.id hs.nodup) hc
    refine (Machine.run_singleton _ _ _).trans (if_pos ⟨fun hmem => ?_, fun hmem => ?_⟩)
    · exact hother (List.mem_append_left _ hmem)
    · exact hother (List.mem_append_right _ hmem)
  | signal =>
    obtain rfl := Option.some.inj h
    rfl
  | deliver =>
    obtain ⟨⟨hreap, hpending⟩, rfl⟩ := Machine.guard_eq_some.mp h
    rw [hdrain hreap]
    exact (Machine.run_singleton _ _ _).trans (if_pos ⟨rfl, hpending⟩)
  | waitpid pick =>
    obtain ⟨hreap, ⟨c, rfl, hc, rfl⟩ | ⟨rfl, hzombies, rfl⟩⟩ := step_waitpid h
    · have hpos : c.pid > 0 :=
        hs.pid_pos c (List.mem_append_right _ (List.mem_append_left _ hc))
      rw [hdrain hreap, if_pos hpos]
      exact (Machine.run_singleton _ _ _).trans (if_pos ⟨rfl, hc⟩)
    · rw [hdrain hreap]
      exact (Machine.run_singleton _ _ _).trans (if_pos ⟨rfl, hzombies⟩)
  | sigreturn =>
    obtain ⟨hreap, rfl⟩ := Machine.guard_eq_some.mp h
    rw [hdrain hreap]
    exact (Machine.run_singleton _ _ _).trans rfl

/-- Every run of the server is one of the drain. -/
theorem drain_run {es : List Event} (h : machine.run init es = some t) :
    Inv t ∧ ∃ xs, (Drain.machine Child).run .empty xs = some t.drain := by
  have hsim := Machine.simulation (M := machine) (N := Drain.machine Child)
    (R := fun s a => Inv s ∧ a = s.drain) (f := fun _ e => actions e) ?_ ⟨inv_init, rfl⟩ h
  · obtain ⟨a, hrun, hinv, rfl⟩ := hsim
    exact ⟨hinv, _, hrun⟩
  · rintro s e t a ⟨hs, rfl⟩ hstep
    exact ⟨t.drain, drain_step hs hstep, inv_step hs hstep, rfl⟩

/-- **No zombie is forgotten.** In every reachable state: if the handler does not run and no
`SIGCHLD` is pending, every child that has ended was reaped; no child was reaped twice, nor is one
that was reaped still there. -/
theorem no_zombie_forgotten {es : List Event} (h : machine.run init es = some t) :
    (t.reap = .idle → t.pending = false → t.zombies = []) ∧ t.reaped.Nodup ∧
      ∀ c ∈ t.reaped, c ∉ t.live ∧ c ∉ t.zombies := by
  obtain ⟨hinv, xs, hrun⟩ := drain_run h
  refine ⟨fun hreap hpending => ?_, Drain.taken_nodup hrun, fun c hc =>
    ⟨fun hmem => ?_, fun hmem => ?_⟩⟩
  · exact Drain.items_eq_nil hrun hpending (by rw [State.drain, hreap]; rfl)
  · exact List.disjoint_of_nodup_append (List.Nodup.of_map Child.id hinv.nodup) hmem
      (List.mem_append_right _ hc)
  · exact List.disjoint_of_nodup_append (Drain.inv_run hrun).nodup hmem hc

/-- Two connections. The first child ends at once, the second one while the handler runs. -/
def twoConnections : List Event :=
  [.accept, .fork (some 7), .close, .accept, .exit ⟨0, 7⟩, .deliver, .waitpid (some ⟨0, 7⟩),
    .waitpid none, .sigreturn, .fork (some 7), .exit ⟨1, 7⟩, .signal, .deliver,
    .waitpid (some ⟨1, 7⟩), .waitpid none, .sigreturn]

theorem no_zombie_forgotten_twoConnections :
    let s := (machine.run init twoConnections).get (by decide)
    (s.reap = .idle → s.pending = false → s.zombies = []) ∧ s.reaped.Nodup ∧
      ∀ c ∈ s.reaped, c ∉ s.live ∧ c ∉ s.zombies :=
  no_zombie_forgotten (Option.some_get _).symm

end LinuxRiscv32.ForkServer

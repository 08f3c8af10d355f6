import LinuxRiscv32.C.EpollDescriptors

/-!
# `epoll_server`: peers that go away

Reference: `C/epoll_server.c`.

A write on a stream socket whose peer has closed raises `SIGPIPE`, and the server neither ignores
nor handles this signal, so it is killed. Here clients and `payment` may close their ends between
any two steps of the server.
-/

namespace LinuxRiscv32.EpollServer.Peers

open Common
open Descriptors (Description Setup)

/-- The server, the sockets whose peers have closed, and whether the server is alive. -/
structure State where
  server : Descriptors.State
  closed : List Description
  alive : Bool

/-- A call of the server, or the end of a client or of `payment`. A client may close its connection
before it is accepted. -/
inductive Event where
  | server (e : Descriptors.Event)
  | client (k : ℕ)
  | payment

/-- What the descriptor denotes that the next `write` uses. -/
def written (S : Setup) (s : Descriptors.State) : Option Description :=
  match s.pc with
  | .write w _ ev _ =>
    match w.dest with
    | .client => s.table ev.1
    | .logger | .health => s.table Descriptors.STDOUT_FILENO
    | .payment => s.table S.paymentFd
  | _ => none

/-- The call of the server is a `write` that meets a peer that has closed. -/
def RaisesSigpipe (S : Setup) (s : State) (e : Descriptors.Event) : Prop :=
  e = .write ∧ ∃ f ∈ written S s.server, f ∈ s.closed

instance (S : Setup) (s : State) (e : Descriptors.Event) : Decidable (RaisesSigpipe S s e) :=
  inferInstanceAs (Decidable (_ ∧ _))

/-- One step. The default action of `SIGPIPE` ends the server. -/
def step (S : Setup) (s : State) : Event → Option State
  | .server e =>
    if s.alive then
      if RaisesSigpipe S s e then some { s with alive := false }
      else (Descriptors.step S s.server e).map fun server => { s with server := server }
    else none
  | .client k => some { s with closed := .conn k :: s.closed }
  | .payment => some { s with closed := .payment :: s.closed }

/-- The server and its peers. -/
def machine (S : Setup) : Machine State Event := ⟨step S⟩

def init (S : Setup) : State := { server := Descriptors.init S, closed := [], alive := true }

/-- A client closes its connection after the server has read its message. -/
def closeBeforeReply : List Event :=
  [.server (.epollWait [(4, .listen)]), .server (.accept (some 6)), .server .ctlAdd, .server .write,
    .server (.epollWait [(6, .conn 0)]),
    .server (.read (some ⟨'L'.toUInt8, bytes "hi", by decide⟩)), .client 0, .server .write,
    .server .write]

/-- `payment` ends before a message is passed on to it. -/
def paymentExit : List Event :=
  [.server (.epollWait [(4, .listen)]), .server (.accept (some 6)), .server .ctlAdd, .server .write,
    .payment, .server (.epollWait [(6, .conn 0)]),
    .server (.read (some ⟨'P'.toUInt8, bytes "hi", by decide⟩)), .server .write, .server .write]

theorem closed_peers_stop_server :
    (¬ ∀ (S : Setup) (es : List Event) (t : State), (∀ e ∈ es, e ≠ .payment) →
      (machine S).run (init S) es = some t → t.alive = true) ∧
    ¬ ∀ (S : Setup) (es : List Event) (t : State), (∀ k, .client k ∉ es) →
      (machine S).run (init S) es = some t → t.alive = true := by
  constructor
  · intro h
    exact absurd (h Descriptors.started closeBeforeReply _ (by simp [closeBeforeReply]) rfl)
      (by decide)
  · intro h
    exact absurd (h Descriptors.started paymentExit _ (by simp [paymentExit]) rfl) (by decide)

/-! ## What stops the server -/

/-- Whom the next `write` is meant for: the client whose message is answered, `payment`, or whatever
standard output was when the loop began. -/
def addressee (S : Setup) (s : Descriptors.State) : Option Description :=
  match s.pc with
  | .write w _ ev _ =>
    match w.dest with
    | .client => some ev.2
    | .logger | .health => S.table Descriptors.STDOUT_FILENO
    | .payment => some .payment
  | _ => none

/-- The server writes to somebody who has closed the connection. -/
def WritesToClosed (S : Setup) (s : State) : Event → Prop
  | .server e => e = .write ∧ ∃ f ∈ addressee S s.server, f ∈ s.closed
  | .client _ | .payment => False

section Run

variable {S : Setup} {s t : State} {e : Event}

/-- The descriptors denote what the server takes them for. -/
theorem written_eq_addressee {s : Descriptors.State} (hs : Descriptors.Inv S s) :
    written S s = addressee S s := by
  have hsafe := hs.safe .write
  unfold Descriptors.Safe at hsafe
  unfold written addressee
  cases hpc : s.pc with
  | write w ws ev evs =>
    simp only [hpc] at hsafe ⊢
    cases hdest : w.dest with
    | client =>
      simp only [hdest] at hsafe ⊢
      exact hsafe.1
    | logger | health | payment => simpa only [hdest] using hsafe
  | next | add | del | close => rfl

/-- What the peers do leaves the loop of the server in order. -/
theorem inv_step (hs : Descriptors.Inv S s.server) (h : step S s e = some t) :
    Descriptors.Inv S t.server := by
  cases e with
  | server e =>
    obtain ⟨-, h⟩ := Option.ite_none_right_eq_some.mp h
    split at h
    · obtain rfl := Option.some.inj h
      exact hs
    · obtain ⟨server, hserver, rfl⟩ := Option.map_eq_some_iff.mp h
      exact Descriptors.inv_step hs hserver
  | client k =>
    obtain rfl := Option.some.inj h
    exact hs
  | payment =>
    obtain rfl := Option.some.inj h
    exact hs

/-- The server survives a step unless it writes to a closed connection. -/
theorem alive_step (hs : Descriptors.Inv S s.server) (h : step S s e = some t) :
    t.alive = true ↔ s.alive = true ∧ ¬ WritesToClosed S s e := by
  cases e with
  | server e =>
    obtain ⟨halive, h⟩ := Option.ite_none_right_eq_some.mp h
    have hiff : RaisesSigpipe S s e ↔ WritesToClosed S s (.server e) := by
      unfold RaisesSigpipe WritesToClosed
      rw [written_eq_addressee hs]
    split at h
    next hsigpipe =>
      obtain rfl := Option.some.inj h
      exact iff_of_false Bool.false_ne_true fun hnot => hnot.2 (hiff.mp hsigpipe)
    next hsigpipe =>
      obtain ⟨server, -, rfl⟩ := Option.map_eq_some_iff.mp h
      exact iff_of_true halive ⟨halive, fun hw => hsigpipe (hiff.mpr hw)⟩
  | client k =>
    obtain rfl := Option.some.inj h
    exact (and_iff_left id).symm
  | payment =>
    obtain rfl := Option.some.inj h
    exact (and_iff_left id).symm

/-- A run leaves the server alive exactly if no step of it writes to a closed peer. -/
theorem alive_run (hs : Descriptors.Inv S s.server) {es : List Event}
    (hrun : (machine S).run s es = some t) :
    t.alive = true ↔
      s.alive = true ∧ (machine S).Along (fun s e => ¬ WritesToClosed S s e) s es := by
  induction es generalizing s with
  | nil =>
    obtain rfl := Option.some.inj hrun
    exact (and_iff_left (Machine.along_nil s)).symm
  | cons e es ih =>
    obtain ⟨u, hu, hrest⟩ := (machine S).run_cons_eq_some.mp hrun
    rw [ih (inv_step hs hu) hrest, alive_step hs hu, Machine.along_cons hu, and_assoc]

/-- In every place of the loop there is a call that the server can make, whoever has closed. -/
theorem exists_step (halive : s.alive = true) : ∃ e, (step S s (.server e)).isSome := by
  obtain ⟨⟨table, interest, conns, pc⟩, closed, alive⟩ := s
  obtain rfl : alive = true := halive
  cases pc with
  | next evs =>
    cases evs with
    | nil => exact ⟨.epollWait [], rfl⟩
    | cons ev evs =>
      by_cases hev : ev.1 = S.listenfd
      · exact ⟨.accept none, by simp [step, Descriptors.step, RaisesSigpipe, hev]⟩
      · exact ⟨.read none, by simp [step, Descriptors.step, RaisesSigpipe, hev]⟩
  | add connfd ev evs => exact ⟨.ctlAdd, rfl⟩
  | del ev evs => exact ⟨.ctlDel, rfl⟩
  | close ev evs => exact ⟨.close, rfl⟩
  | write w ws ev evs =>
    -- A `write` always has an outcome: either the signal or the next place of the loop.
    refine ⟨.write, ?_⟩
    simp only [step, if_true]
    split <;> rfl

/-- **What stops the server.** In every run of the server, its clients and `payment`, the server is
alive if and only if it has never written to a client that had closed its connection or to a
`payment` that had ended. While it is alive, it has a next call in its loop. -/
theorem alive_iff {es : List Event} (hrun : (machine S).run (init S) es = some t) :
    (t.alive = true ↔
      (machine S).Along (fun s e => ¬ WritesToClosed S s e) (init S) es) ∧
    (t.alive = true → ∃ e, (step S t (.server e)).isSome) := by
  refine ⟨?_, exists_step⟩
  rw [alive_run (Descriptors.inv_init S) hrun, and_iff_right (show (init S).alive = true from rfl)]

end Run

/-- A client gets its answer, ends, and is noticed. -/
def orderlyClient : List Event :=
  [.server (.epollWait [(4, .listen)]), .server (.accept (some 6)), .server .ctlAdd, .server .write,
    .server (.epollWait [(6, .conn 0)]),
    .server (.read (some ⟨'L'.toUInt8, bytes "hi", by decide⟩)), .server .write, .server .write,
    .client 0, .payment, .server (.epollWait [(6, .conn 0)]), .server (.read none), .server .ctlDel,
    .server .close, .server .write]

theorem alive_orderlyClient :
    let s := init Descriptors.started
    let t := ((machine Descriptors.started).run s orderlyClient).get (by decide)
    (t.alive = true ↔ (machine Descriptors.started).Along
      (fun s e => ¬ WritesToClosed Descriptors.started s e) s orderlyClient) ∧
    (t.alive = true → ∃ e, (step Descriptors.started t (.server e)).isSome) :=
  alive_iff (Option.some_get _).symm

end LinuxRiscv32.EpollServer.Peers

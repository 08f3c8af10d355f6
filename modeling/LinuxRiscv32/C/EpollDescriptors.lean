import LinuxRiscv32.C.EpollServer
import LinuxRiscv32.Common.Machine
import Mathlib.Logic.Function.Basic

/-!
# `epoll_server`: descriptors within a batch

Reference: the loop of `main` in `C/epoll_server.c`.

A batch of events is handled with numbers. While it lasts, `close` frees numbers and `accept` hands
them out again. Here the kernel keeps a table of open descriptors and the interest list of the epoll
instance, every system call of the loop is a step, and an event remembers what it was reported for,
so that it can be compared with what its number denotes when it is used.
-/

namespace LinuxRiscv32.EpollServer.Descriptors

open Common

/-- What a descriptor can denote; `conn k` is the `k`-th connection that was accepted. -/
inductive Description where
  | listen
  | payment
  | other (n : ℕ)
  | conn (k : ℕ)
deriving DecidableEq, Repr

/-- A number and what it denotes. -/
abbrev Entry := ℕ × Description

def MAX_EVENTS : ℕ := 10

/-- `STDOUT_FILENO`, the value of `logger_fd` and `health_fd`. -/
def STDOUT_FILENO : ℕ := 1

/-- The descriptors when the loop begins. -/
structure Setup where
  table : ℕ → Option Description
  listenfd : ℕ
  paymentFd : ℕ
  listen : table listenfd = some .listen
  payment : table paymentFd = some .payment
  stdout : table STDOUT_FILENO ≠ none
  no_conn : ∀ fd k, table fd ≠ some (.conn k)

/-- Where the server is. `next` is the head of the `for` loop, with the events that are left of the
batch; without any, it is `epoll_wait`. In the other places `ev` is the event at hand and `evs` are
those behind it. -/
inductive Pc where
  | next (evs : List Entry)
  | add (connfd : Option ℕ) (ev : Entry) (evs : List Entry)
  | del (ev : Entry) (evs : List Entry)
  | close (ev : Entry) (evs : List Entry)
  | write (w : Write) (ws : List Write) (ev : Entry) (evs : List Entry)
deriving DecidableEq

/-- The open descriptors, the interest list, how many connections were accepted, and the server. -/
structure State where
  table : ℕ → Option Description
  interest : List Entry
  conns : ℕ
  pc : Pc

/-- The calls in the loop and what they return. -/
inductive Event where
  | epollWait (evs : List Entry)
  | accept (connfd : Option ℕ)
  | ctlAdd
  | read (m : Option Received)
  | ctlDel
  | close
  | write
deriving DecidableEq

/-- `fd` is the lowest number that is not in use. -/
def LowestFree (table : ℕ → Option Description) (fd : ℕ) : Prop :=
  table fd = none ∧ ∀ n < fd, table n ≠ none

instance (table : ℕ → Option Description) (fd : ℕ) : Decidable (LowestFree table fd) :=
  inferInstanceAs (Decidable (_ ∧ _))

/-- The writes `ws` for the event `ev`, and the rest of the batch. -/
def Pc.writes (ws : List Write) (ev : Entry) (evs : List Entry) : Pc :=
  match ws with
  | [] => .next evs
  | w :: ws => .write w ws ev evs

/-- `epoll_ctl(epfd, EPOLL_CTL_ADD, connfd, &ev)`; it fails for a number that is not open. -/
def ctlAdd (s : State) (connfd : Option ℕ) : List Entry :=
  match connfd with
  | none => s.interest
  | some fd =>
    match s.table fd with
    | none => s.interest
    | some f => if (fd, f) ∈ s.interest then s.interest else s.interest ++ [(fd, f)]

/-- `epoll_ctl(epfd, EPOLL_CTL_DEL, fd, NULL)`. -/
def ctlDel (s : State) (fd : ℕ) : List Entry :=
  s.interest.filter fun x => ¬ (x.1 = fd ∧ s.table fd = some x.2)

def step (S : Setup) (s : State) : Event → Option State
  | .epollWait evs =>
    match s.pc with
    | .next [] =>
      if evs.length ≤ MAX_EVENTS ∧ (evs.map Prod.fst).Nodup ∧ ∀ x ∈ evs, x ∈ s.interest then
        some { s with pc := .next evs }
      else none
    | _ => none
  | .accept connfd =>
    match s.pc with
    | .next (ev :: evs) =>
      if ev.1 = S.listenfd then
        match connfd with
        | none => some { s with pc := .add none ev evs }
        | some fd =>
          if LowestFree s.table fd then
            some { s with
              table := Function.update s.table fd (some (.conn s.conns))
              conns := s.conns + 1
              pc := .add (some fd) ev evs }
          else none
      else none
    | _ => none
  | .ctlAdd =>
    match s.pc with
    | .add connfd ev evs =>
      some { s with interest := ctlAdd s connfd, pc := .writes Input.connect.writes ev evs }
    | _ => none
  | .read m =>
    match s.pc with
    | .next (ev :: evs) =>
      if ev.1 = S.listenfd then none
      else
        match m with
        | none => some { s with pc := .del ev evs }
        | some m => some { s with pc := .writes (Input.data m).writes ev evs }
    | _ => none
  | .ctlDel =>
    match s.pc with
    | .del ev evs => some { s with interest := ctlDel s ev.1, pc := .close ev evs }
    | _ => none
  | .close =>
    match s.pc with
    | .close ev evs =>
      -- what the number denotes leaves the interest list with it
      some { s with
        table := Function.update s.table ev.1 none
        interest := s.interest.filter fun x => s.table ev.1 ≠ some x.2
        pc := .writes Input.hangup.writes ev evs }
    | _ => none
  | .write =>
    match s.pc with
    | .write _ ws ev evs => some { s with pc := .writes ws ev evs }
    | _ => none

/-- The loop of the server. -/
def machine (S : Setup) : Machine State Event := ⟨step S⟩

def init (S : Setup) : State :=
  { table := S.table, interest := [(S.listenfd, .listen)], conns := 0, pc := .next [] }

/-! ## What an event is used for -/

/-- The number of the event denotes the connection that the event was reported for. -/
def Current (table : ℕ → Option Description) (ev : Entry) : Prop :=
  table ev.1 = some ev.2 ∧ ∃ k, ev.2 = .conn k

/-- Every call meets what it is meant for: the calls for an event its connection, the others what
their descriptors denoted when the loop began. -/
def Safe (S : Setup) (s : State) (e : Event) : Prop :=
  match e, s.pc with
  | .accept _, .next (ev :: _) => ev.1 = S.listenfd → s.table ev.1 = some .listen
  | .read _, .next (ev :: _) => ev.1 ≠ S.listenfd → Current s.table ev
  | .ctlDel, .del ev _ | .close, .close ev _ => Current s.table ev
  | .write, .write w _ ev _ =>
    match w.dest with
    | .client => Current s.table ev
    | .logger | .health => s.table STDOUT_FILENO = S.table STDOUT_FILENO
    | .payment => s.table S.paymentFd = some .payment
  | _, _ => True

/-- The interest list consists of the listening socket and the open connections. -/
def Watched (S : Setup) (s : State) : Prop :=
  ∀ x, x ∈ s.interest ↔ x = (S.listenfd, .listen) ∨ Current s.table x

/-! ## Events that are still to be handled -/

/-- An event was reported for the listening socket or for a connection that its number denotes. -/
def Reported (S : Setup) (table : ℕ → Option Description) (ev : Entry) : Prop :=
  ev = (S.listenfd, .listen) ∨ Current table ev

/-- The numbers of the events differ, so the `close` of one of them leaves the others alone. -/
def Pending (S : Setup) (table : ℕ → Option Description) (evs : List Entry) : Prop :=
  (evs.map Prod.fst).Nodup ∧ ∀ ev ∈ evs, Reported S table ev

/-- What the place of the server says about its events. -/
def Place (S : Setup) (table : ℕ → Option Description) : Pc → Prop
  | .next evs => Pending S table evs
  | .add connfd _ evs => (∀ fd ∈ connfd, ∃ k, table fd = some (.conn k)) ∧ Pending S table evs
  | .del ev evs | .close ev evs => Current table ev ∧ Pending S table (ev :: evs)
  | .write w ws ev evs =>
    (∀ w' ∈ w :: ws, w'.dest = .client → Current table ev) ∧ Pending S table evs

/-- The connection that may be missing from the interest list. -/
def Pc.unwatched : Pc → Option ℕ
  | .add connfd _ _ => connfd
  | .close ev _ => some ev.1
  | .next _ | .del _ _ | .write _ _ _ _ => none

/-- The table, the interest list and the events agree. -/
structure Inv (S : Setup) (s : State) : Prop where
  kept : ∀ fd f, S.table fd = some f → s.table fd = some f
  fresh : ∀ fd k, s.table fd = some (.conn k) → k < s.conns
  unique : ∀ fd fd' k, s.table fd = some (.conn k) → s.table fd' = some (.conn k) → fd = fd'
  listening : (S.listenfd, .listen) ∈ s.interest
  reported : ∀ x ∈ s.interest, Reported S s.table x
  watched : ∀ x, Current s.table x → x ∈ s.interest ∨ s.pc.unwatched = some x.1
  place : Place S s.table s.pc

/-- The places in which a call is made, what is known there, and the state behind it. -/
inductive Performs (S : Setup) (s : State) : Event → State → Prop
  | epollWait {evs : List Entry} (hpc : s.pc = .next []) (hnodup : (evs.map Prod.fst).Nodup)
      (hevs : ∀ x ∈ evs, x ∈ s.interest) : Performs S s (.epollWait evs) { s with pc := .next evs }
  | acceptFailed {ev : Entry} {evs : List Entry} (hpc : s.pc = .next (ev :: evs))
      (hev : ev.1 = S.listenfd) : Performs S s (.accept none) { s with pc := .add none ev evs }
  | accept {fd : ℕ} {ev : Entry} {evs : List Entry} (hpc : s.pc = .next (ev :: evs))
      (hev : ev.1 = S.listenfd) (hfree : LowestFree s.table fd) :
      Performs S s (.accept (some fd))
        { s with
          table := Function.update s.table fd (some (.conn s.conns))
          conns := s.conns + 1
          pc := .add (some fd) ev evs }
  | ctlAdd {connfd : Option ℕ} {ev : Entry} {evs : List Entry} (hpc : s.pc = .add connfd ev evs) :
      Performs S s .ctlAdd
        { s with
          interest := Descriptors.ctlAdd s connfd
          pc := .writes Input.connect.writes ev evs }
  | hangup {ev : Entry} {evs : List Entry} (hpc : s.pc = .next (ev :: evs))
      (hne : ev.1 ≠ S.listenfd) : Performs S s (.read none) { s with pc := .del ev evs }
  | read {m : Received} {ev : Entry} {evs : List Entry} (hpc : s.pc = .next (ev :: evs))
      (hne : ev.1 ≠ S.listenfd) :
      Performs S s (.read (some m)) { s with pc := .writes (Input.data m).writes ev evs }
  | ctlDel {ev : Entry} {evs : List Entry} (hpc : s.pc = .del ev evs) :
      Performs S s .ctlDel { s with interest := Descriptors.ctlDel s ev.1, pc := .close ev evs }
  | close {ev : Entry} {evs : List Entry} (hpc : s.pc = .close ev evs) :
      Performs S s .close
        { s with
          table := Function.update s.table ev.1 none
          interest := s.interest.filter fun x => s.table ev.1 ≠ some x.2
          pc := .writes Input.hangup.writes ev evs }
  | write {w : Write} {ws : List Write} {ev : Entry} {evs : List Entry}
      (hpc : s.pc = .write w ws ev evs) :
      Performs S s .write { s with pc := .writes ws ev evs }

section Run

variable {S : Setup} {s t : State} {e : Event} {table : ℕ → Option Description} {ev : Entry}
  {evs : List Entry}

/-- Every step is one of the steps of the loop. -/
theorem performs_of_step (h : step S s e = some t) : Performs S s e t := by
  obtain ⟨table, interest, conns, pc⟩ := s
  cases e with
  | epollWait evs =>
    cases pc with
    | next evs' =>
      cases evs' with
      | nil =>
        obtain ⟨⟨-, hnodup, hevs⟩, rfl⟩ := Machine.guard_eq_some.mp h
        exact .epollWait rfl hnodup hevs
      | cons ev evs' => cases h
    | _ => cases h
  | accept connfd =>
    cases pc with
    | next evs' =>
      cases evs' with
      | nil => cases h
      | cons ev evs =>
        obtain ⟨hev, h⟩ := Option.ite_none_right_eq_some.mp h
        cases connfd with
        | none =>
          obtain rfl := Option.some.inj h
          exact .acceptFailed rfl hev
        | some fd =>
          obtain ⟨hfree, rfl⟩ := Machine.guard_eq_some.mp h
          exact .accept rfl hev hfree
    | _ => cases h
  | ctlAdd =>
    cases pc with
    | add connfd ev evs =>
      obtain rfl := Option.some.inj h
      exact .ctlAdd rfl
    | _ => cases h
  | read m =>
    cases pc with
    | next evs' =>
      cases evs' with
      | nil => cases h
      | cons ev evs =>
        obtain ⟨hne, h⟩ := Option.ite_none_left_eq_some.mp h
        cases m with
        | none =>
          obtain rfl := Option.some.inj h
          exact .hangup rfl hne
        | some m =>
          obtain rfl := Option.some.inj h
          exact .read rfl hne
    | _ => cases h
  | ctlDel =>
    cases pc with
    | del ev evs =>
      obtain rfl := Option.some.inj h
      exact .ctlDel rfl
    | _ => cases h
  | close =>
    cases pc with
    | close ev evs =>
      obtain rfl := Option.some.inj h
      exact .close rfl
    | _ => cases h
  | write =>
    cases pc with
    | write w ws ev evs =>
      obtain rfl := Option.some.inj h
      exact .write rfl
    | _ => cases h

/-- An entry stays current if the table changes at another number. -/
theorem Current.update {x : Entry} {fd : ℕ} (h : Current table x) (hne : x.1 ≠ fd)
    (f : Option Description) : Current (Function.update table fd f) x := by
  rwa [Current, Function.update_of_ne hne]

/-- A change at a number that is not current in the batch leaves the batch in order. -/
theorem Pending.update {fd : ℕ} (h : Pending S table evs)
    (hne : ∀ x ∈ evs, Current table x → x.1 ≠ fd) (f : Option Description) :
    Pending S (Function.update table fd f) evs :=
  ⟨h.1, fun x hx => (h.2 x hx).imp_right fun hcurrent => hcurrent.update (hne x hx hcurrent) f⟩

theorem Pending.tail (h : Pending S table (ev :: evs)) : Pending S table evs :=
  ⟨(List.nodup_cons.mp h.1).2, fun x hx => h.2 x (List.mem_cons_of_mem ev hx)⟩

/-- A number occurs once in a batch. -/
theorem Pending.head_ne (h : Pending S table (ev :: evs)) : ∀ x ∈ evs, x.1 ≠ ev.1 := by
  intro x hx heq
  rw [Pending, List.map_cons, List.nodup_cons] at h
  exact h.1.1 (heq ▸ List.mem_map_of_mem hx)

/-- The events of a batch come from the interest list. -/
theorem Pending.of_interest (hs : Inv S s) (hnodup : (evs.map Prod.fst).Nodup)
    (hevs : ∀ x ∈ evs, x ∈ s.interest) : Pending S s.table evs :=
  ⟨hnodup, fun x hx => hs.reported x (hevs x hx)⟩

/-- The writes for an event are in place if its entry is current. -/
theorem place_writes {ws : List Write} (hclient : ∀ w ∈ ws, w.dest = .client → Current table ev)
    (hevs : Pending S table evs) : Place S table (.writes ws ev evs) := by
  cases ws with
  | nil => exact hevs
  | cons w ws => exact ⟨hclient, hevs⟩

/-- A number that is not in use denotes no connection, and nothing that was there at the beginning.
-/
theorem Current.ne_of_free {fd : ℕ} {x : Entry} (h : Current table x) (hfd : table fd = none) :
    x.1 ≠ fd := by
  rintro rfl
  rw [h.1] at hfd
  cases hfd

theorem Inv.place_eq {pc : Pc} (hs : Inv S s) (hpc : s.pc = pc) : Place S s.table pc :=
  hpc ▸ hs.place

/-- An event that is not one of the listening socket meets its connection. -/
theorem Inv.current_of_next (hs : Inv S s) (hpc : s.pc = .next (ev :: evs))
    (hne : ev.1 ≠ S.listenfd) : Current s.table ev :=
  ((hs.place_eq hpc).2 ev List.mem_cons_self).resolve_left fun hlisten => hne (hlisten ▸ rfl)

/-- A connection is watched, but for the one that the server is about to add or has just deleted. -/
theorem Inv.mem_interest {x : Entry} (hs : Inv S s) (hx : Current s.table x)
    (hunwatched : s.pc.unwatched ≠ some x.1) : x ∈ s.interest :=
  (hs.watched x hx).resolve_right hunwatched

/-- A step of the server to another place. -/
theorem Inv.move {pc : Pc} (hs : Inv S s) (hplace : Place S s.table pc)
    (hunwatched : s.pc.unwatched = none) : Inv S { s with pc := pc } :=
  { hs with
    watched := fun x hx => .inl (hs.mem_interest hx (by simp [hunwatched]))
    place := hplace }

/-- At first there are only the descriptors of the set-up. -/
theorem inv_init (S : Setup) : Inv S (init S) where
  kept _ _ h := h
  fresh fd k h := absurd h (S.no_conn fd k)
  unique fd _ k h := absurd h (S.no_conn fd k)
  listening := List.mem_singleton_self _
  reported x hx := .inl (List.mem_singleton.mp hx)
  watched x hx := by
    obtain ⟨htable, k, hk⟩ := hx
    exact absurd (htable.trans (congrArg some hk)) (S.no_conn x.1 k)
  place := ⟨List.nodup_nil, fun _ h => absurd h List.not_mem_nil⟩

/-- A connection gets a number that was not in use. -/
theorem Inv.accept {fd : ℕ} (hs : Inv S s) (hfree : s.table fd = none)
    (hunwatched : s.pc.unwatched = none) (hevs : Pending S s.table evs) :
    Inv S { s with
      table := Function.update s.table fd (some (.conn s.conns))
      conns := s.conns + 1
      pc := .add (some fd) ev evs } := by
  have hne : ∀ x, Current s.table x → x.1 ≠ fd := fun x hx => hx.ne_of_free hfree
  have hold : ∀ fd' f, s.table fd' = some f → fd' ≠ fd := by
    rintro fd' f h rfl
    rw [hfree] at h
    cases h
  -- an entry of the new table is the new connection or an old entry
  have hnew : ∀ fd' f, Function.update s.table fd (some (.conn s.conns)) fd' = some f →
      (fd' = fd ∧ f = .conn s.conns) ∨ s.table fd' = some f := by
    intro fd' f h
    by_cases hfd' : fd' = fd
    · subst hfd'
      rw [Function.update_self] at h
      exact .inl ⟨rfl, (Option.some.inj h).symm⟩
    · rw [Function.update_of_ne hfd'] at h
      exact .inr h
  constructor
  · intro fd' f h
    have hkept := hs.kept fd' f h
    exact (Function.update_of_ne (hold fd' f hkept) _ _).trans hkept
  · intro fd' k h
    rcases hnew fd' _ h with ⟨-, hk⟩ | h
    · cases hk
      exact Nat.lt_succ_self _
    · exact Nat.lt_succ_of_lt (hs.fresh fd' k h)
  · intro fd' fd'' k h h'
    rcases hnew fd' _ h with ⟨hfd', hk⟩ | hold' <;> rcases hnew fd'' _ h' with ⟨hfd'', hk'⟩ | hold''
    · exact hfd'.trans hfd''.symm
    · cases hk
      exact absurd (hs.fresh _ _ hold'') (lt_irrefl _)
    · cases hk'
      exact absurd (hs.fresh _ _ hold') (lt_irrefl _)
    · exact hs.unique fd' fd'' k hold' hold''
  · exact hs.listening
  · exact fun x hx => (hs.reported x hx).imp_right fun h => h.update (hne x h) _
  · intro x hx
    rcases hnew x.1 _ hx.1 with ⟨hfd, -⟩ | h
    · exact .inr (congrArg some hfd.symm)
    · exact .inl (hs.mem_interest ⟨h, hx.2⟩ (by simp [hunwatched]))
  · refine ⟨fun fd' hfd' => ?_, hevs.update (fun x _ => hne x) _⟩
    cases hfd'
    exact ⟨s.conns, Function.update_self _ _ _⟩

/-- `EPOLL_CTL_ADD` adds the entry with the description that is open under the number. -/
theorem mem_ctlAdd {fd : ℕ} {f : Description} (hfd : s.table fd = some f) (x : Entry) :
    x ∈ ctlAdd s (some fd) ↔ x ∈ s.interest ∨ x = (fd, f) := by
  simp only [ctlAdd, hfd]
  split
  next hmem => exact ⟨.inl, fun h => h.elim id fun hx => hx ▸ hmem⟩
  next => rw [List.mem_append, List.mem_singleton]

/-- The new connection joins the interest list. -/
theorem Inv.ctlAdd {connfd : Option ℕ} (hs : Inv S s) (hpc : s.pc = .add connfd ev evs) :
    Inv S { s with
      interest := ctlAdd s connfd, pc := .writes Input.connect.writes ev evs } := by
  obtain ⟨hconn, hevs⟩ := hs.place_eq hpc
  have hclient : ∀ w ∈ Input.connect.writes, w.dest ≠ .client := by decide
  have hwrites : Place S s.table (.writes Input.connect.writes ev evs) :=
    place_writes (fun w hw h => absurd h (hclient w hw)) hevs
  cases connfd with
  | none =>
    have hunwatched : s.pc.unwatched = none := by
      rw [hpc]
      rfl
    exact hs.move hwrites hunwatched
  | some fd =>
    obtain ⟨k, hk⟩ := hconn fd rfl
    refine { hs with listening := ?_, reported := ?_, watched := ?_, place := hwrites }
    · exact (mem_ctlAdd hk _).mpr (.inl hs.listening)
    · intro x hx
      rcases (mem_ctlAdd hk x).mp hx with hx | rfl
      · exact hs.reported x hx
      · exact .inr ⟨hk, k, rfl⟩
    · intro x hx
      refine .inl ((mem_ctlAdd hk x).mpr ((hs.watched x hx).imp_right fun h => ?_))
      rw [hpc] at h
      obtain rfl := Option.some.inj h
      exact Prod.ext rfl (Option.some.inj (hx.1.symm.trans hk))

/-- `EPOLL_CTL_DEL` removes the entry of this number and description only. -/
theorem mem_ctlDel {fd : ℕ} (x : Entry) :
    x ∈ ctlDel s fd ↔ x ∈ s.interest ∧ ¬ (x.1 = fd ∧ s.table fd = some x.2) := by
  rw [Descriptors.ctlDel, List.mem_filter, decide_eq_true_eq]

/-- The connection leaves the interest list. -/
theorem Inv.ctlDel (hs : Inv S s) (hpc : s.pc = .del ev evs) :
    Inv S { s with interest := ctlDel s ev.1, pc := .close ev evs } := by
  have hplace := hs.place_eq hpc
  obtain ⟨htable, k, hk⟩ := hplace.1
  refine { hs with listening := ?_, reported := ?_, watched := ?_, place := hplace }
  · refine (mem_ctlDel _).mpr ⟨hs.listening, fun h => ?_⟩
    rw [htable, hk] at h
    cases h.2
  · exact fun x hx => hs.reported x ((mem_ctlDel x).mp hx).1
  · intro x hx
    by_cases hne : x.1 = ev.1
    · exact .inr (congrArg some hne.symm)
    · have hin : x ∈ s.interest := hs.mem_interest hx (by simp [hpc, Pc.unwatched])
      exact .inl ((mem_ctlDel x).mpr ⟨hin, fun h => hne h.1⟩)

/-- The number of a connection is freed. The other events of the batch have other numbers. -/
theorem Inv.close (hs : Inv S s) (hpc : s.pc = .close ev evs) :
    Inv S { s with
      table := Function.update s.table ev.1 none
      interest := s.interest.filter fun x => s.table ev.1 ≠ some x.2
      pc := .writes Input.hangup.writes ev evs } := by
  obtain ⟨⟨htable, k, hk⟩, hevs⟩ := hs.place_eq hpc
  rw [hk] at htable
  have hmem : ∀ x, x ∈ s.interest.filter (fun x => s.table ev.1 ≠ some x.2) ↔
      x ∈ s.interest ∧ .conn k ≠ x.2 := fun x => by
    rw [List.mem_filter, decide_eq_true_eq, htable, Ne, Option.some.injEq]
  -- an entry that is left is an old one with another number
  have hleft : ∀ fd f, Function.update s.table ev.1 none fd = some f →
      fd ≠ ev.1 ∧ s.table fd = some f := by
    intro fd f h
    by_cases hfd : fd = ev.1
    · rw [hfd, Function.update_self] at h
      cases h
    · rw [Function.update_of_ne hfd] at h
      exact ⟨hfd, h⟩
  constructor
  · intro fd f h
    refine (Function.update_of_ne ?_ _ _).trans (hs.kept fd f h)
    rintro rfl
    have hf : f = .conn k := Option.some.inj ((hs.kept _ f h).symm.trans htable)
    exact S.no_conn _ k (hf ▸ h)
  · exact fun fd j h => hs.fresh fd j (hleft fd _ h).2
  · exact fun fd fd' j h h' => hs.unique fd fd' j (hleft fd _ h).2 (hleft fd' _ h').2
  · exact (hmem _).mpr ⟨hs.listening, Description.noConfusion⟩
  · intro x hx
    obtain ⟨hx, hne⟩ := (hmem x).mp hx
    refine (hs.reported x hx).imp_right fun h => h.update (fun heq => hne ?_) none
    exact Option.some.inj (htable.symm.trans (heq ▸ h.1))
  · intro x hx
    obtain ⟨hne, hold⟩ := hleft x.1 _ hx.1
    have hin : x ∈ s.interest :=
      hs.mem_interest ⟨hold, hx.2⟩ (by simp [hpc, Pc.unwatched, hne.symm])
    refine .inl ((hmem x).mpr ⟨hin, fun heq => hne ?_⟩)
    exact hs.unique x.1 ev.1 k (heq ▸ hold) htable
  · have hclient : ∀ w ∈ Input.hangup.writes, w.dest ≠ .client := by decide
    exact place_writes (fun w hw h => absurd h (hclient w hw))
      (hevs.tail.update (fun x hx _ => hevs.head_ne x hx) none)

/-- Each step keeps the table, the interest list and the events in agreement. -/
theorem inv_step (hs : Inv S s) (h : step S s e = some t) : Inv S t := by
  cases performs_of_step h with
  | epollWait hpc hnodup hevs =>
    exact hs.move (.of_interest hs hnodup hevs) (congrArg Pc.unwatched hpc)
  | acceptFailed hpc hev =>
    have hnone : ∀ fd ∈ none, ∃ k, s.table fd = some (.conn k) := fun fd hfd =>
      absurd hfd (Option.not_mem_none fd)
    exact hs.move ⟨hnone, (hs.place_eq hpc).tail⟩ (congrArg Pc.unwatched hpc)
  | accept hpc hev hfree =>
    exact hs.accept hfree.1 (congrArg Pc.unwatched hpc) (hs.place_eq hpc).tail
  | ctlAdd hpc => exact hs.ctlAdd hpc
  | hangup hpc hne =>
    exact hs.move ⟨hs.current_of_next hpc hne, hs.place_eq hpc⟩ (congrArg Pc.unwatched hpc)
  | read hpc hne =>
    have hcurrent := hs.current_of_next hpc hne
    refine hs.move ?_ (congrArg Pc.unwatched hpc)
    exact place_writes (fun _ _ _ => hcurrent) (hs.place_eq hpc).tail
  | ctlDel hpc => exact hs.ctlDel hpc
  | close hpc => exact hs.close hpc
  | write hpc =>
    obtain ⟨hclient, hevs⟩ := hs.place_eq hpc
    refine hs.move ?_ (congrArg Pc.unwatched hpc)
    exact place_writes (fun w' hw' => hclient w' (List.mem_cons_of_mem _ hw')) hevs

/-! ## Whole runs -/

/-- Where they agree, every call meets what it is meant for. -/
theorem Inv.safe (hs : Inv S s) (e : Event) : Safe S s e := by
  unfold Safe
  split
  next hpc =>
    intro heq
    rw [heq]
    exact hs.kept _ _ S.listen
  next hpc => exact hs.current_of_next hpc
  next hpc => exact (hs.place_eq hpc).1
  next hpc => exact (hs.place_eq hpc).1
  next w ws ev evs hpc =>
    obtain ⟨f, hf⟩ := Option.ne_none_iff_exists'.mp S.stdout
    split
    next hdest => exact (hs.place_eq hpc).1 w List.mem_cons_self hdest
    next => rw [hf, hs.kept _ f hf]
    next => rw [hf, hs.kept _ f hf]
    next => exact hs.kept _ _ S.payment
  next => trivial

/-- Between two batches, the interest list has nothing to catch up on. -/
theorem Inv.watched_of_next (hs : Inv S s) (hpc : s.pc = .next []) : Watched S s := by
  have hin : ∀ x, Current s.table x → x ∈ s.interest := fun x hx =>
    hs.mem_interest hx (by simp [hpc, Pc.unwatched])
  exact fun x => ⟨hs.reported x, fun h => h.elim (fun hx => hx ▸ hs.listening) (hin x)⟩

/-- **No event goes astray.** In every run, whatever the batches and the results of the calls: each
call in the loop meets the connection that its event was reported for, although numbers are freed
and handed out again within a batch; and between two batches the interest list consists of the
listening socket and the open connections. -/
theorem dispatches_of_run {es : List Event} (hrun : (machine S).run (init S) es = some t) :
    (machine S).Along (Safe S) (init S) es ∧ (t.pc = .next [] → Watched S t) := by
  have hstep : ∀ s e t, Inv S s → (machine S).step s e = some t → Inv S t :=
    fun _ _ _ hs h => inv_step hs h
  refine ⟨fun x hx => ?_, ?_⟩
  · exact (Machine.invariant_mem_trace_of_step hstep (inv_init S) hx).safe x.2
  · exact (Machine.invariant_of_step hstep (inv_init S) hrun).watched_of_next

end Run

/-- Descriptors 0 to 2 come from the shell, then `payment_fd`, `listenfd` and `epfd` were opened. -/
def started : Setup where
  table fd :=
    if fd < 3 then some (.other fd)
    else if fd = 3 then some .payment
    else if fd = 4 then some .listen
    else if fd = 5 then some (.other 5)
    else none
  listenfd := 4
  paymentFd := 3
  listen := rfl
  payment := rfl
  stdout := by decide
  no_conn fd k := by
    split_ifs <;> simp

/-- In one batch a connection is closed and a new one gets its number. -/
def reusedNumber : List Event :=
  [.epollWait [(4, .listen)], .accept (some 6), .ctlAdd, .write,
    .epollWait [(6, .conn 0), (4, .listen)], .read none, .ctlDel, .close, .write,
    .accept (some 6), .ctlAdd, .write]

theorem dispatches_reusedNumber :
    let t := ((machine started).run (init started) reusedNumber).get (by decide)
    (machine started).Along (Safe started) (init started) reusedNumber ∧
      (t.pc = .next [] → Watched started t) :=
  dispatches_of_run (Option.some_get _).symm

end LinuxRiscv32.EpollServer.Descriptors

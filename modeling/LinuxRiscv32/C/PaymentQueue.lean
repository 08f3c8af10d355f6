import LinuxRiscv32.Common.Machine
import LinuxRiscv32.C.EpollServer

/-!
# The stream between `epoll_server` and `payment`

Reference: `C/epoll_server.c` (the event loop) and `C/payment.c` (the processing loop).

The server forwards the payload of a `P` message with one `write` to a UNIX stream socket and
answers the client right after. `payment` takes for one request what one `read` returns. The socket
keeps the bytes and their order and forgets where a `write` ended.
-/

namespace LinuxRiscv32.PaymentQueue

open Common EpollServer

/-- The server between two system calls: in `epoll_wait`, or with writes to do for an event. -/
inductive Server where
  | epollWait
  | writing (e : Input) (todo : List Write)
deriving DecidableEq

/-- `payment` between two system calls. -/
inductive Payment where
  | reading
  /-- The body of the loop, which works on `buf`. -/
  | processing (buf : List Byte)
deriving DecidableEq

structure State where
  server : Server
  queue : List Byte
  payment : Payment

inductive Event where
  | input (e : Input)
  /-- The next write of the server. -/
  | write
  /-- `read(client_sock, buf, sizeof(buf) - 1)` returns `n`. -/
  | read (n : ℕ)
  /-- The end of the body of `payment`'s loop. -/
  | processed
deriving DecidableEq

/-- The server waits, nothing was forwarded yet. -/
def init : State := { server := .epollWait, queue := [], payment := .reading }

/-- The server after a write, with `todo` left. -/
def Server.next (e : Input) (todo : List Write) : Server :=
  if todo = [] then .epollWait else .writing e todo

/-- The bytes that a write puts into the stream. -/
def toPayment (x : Write) : Option (List Byte) :=
  if x.dest = .payment then some x.data else none

def step (s : State) : Event → Option State
  | .input e =>
    match s.server with
    | .epollWait => some { s with server := .writing e e.writes }
    | .writing _ _ => none
  | .write =>
    match s.server with
    | .writing e (x :: todo) =>
      some { s with server := .next e todo, queue := s.queue ++ (toPayment x).getD [] }
    | .writing _ [] | .epollWait => none
  | .read n =>
    match s.payment with
    | .reading =>
      -- any part of the stream that fits, from its front
      if 0 < n ∧ n ≤ 1023 ∧ n ≤ s.queue.length then
        some { s with payment := .processing (s.queue.take n), queue := s.queue.drop n }
      else none
    | .processing _ => none
  | .processed =>
    match s.payment with
    | .processing _ => some { s with payment := .reading }
    | .reading => none

/-- The server and `payment`, each at its own pace. -/
def machine : Machine State Event := ⟨step⟩

/-! ## What is asked of a run -/

/-- The payload that the server acknowledges in a step. -/
def acked (x : State × Event) : Option (List Byte) :=
  match x.2, x.1.server with
  | .write, .writing (.data m) (w :: _) =>
    if w = ⟨.client, Command.payment.reply⟩ then some m.payload else none
  | _, _ => none

/-- The buffer that `payment` has processed in a step. -/
def processed (x : State × Event) : Option (List Byte) :=
  match x.2, x.1.payment with
  | .processed, .processing buf => some buf
  | _, _ => none

/-- The server waits, the stream is empty and `payment` is back at its `read`. -/
def Drained (s : State) : Prop := s.server = .epollWait ∧ s.queue = [] ∧ s.payment = .reading

instance (s : State) : Decidable (Drained s) := inferInstanceAs (Decidable (_ ∧ _ ∧ _))

/-- The messages `Pa` and `Pb` one after the other. -/
def twoMessages : List Event :=
  [.input (.data ⟨'P'.toUInt8, bytes "a", by decide⟩), .write, .write, .write,
    .input (.data ⟨'P'.toUInt8, bytes "b", by decide⟩), .write, .write, .write]

/-- Two messages that are forwarded before `payment` reads are one request to it. -/
theorem merged_messages_break_exactlyOnce :
    ¬ ∀ (es : List Event) (t : State), machine.run init es = some t → Drained t →
      (machine.trace init es).filterMap processed = (machine.trace init es).filterMap acked := by
  intro h
  have heq := h (twoMessages ++ [.read 2, .processed]) _ rfl (by decide)
  exact absurd heq (by decide)

/-! ## Forwarded, acknowledged, processed -/

/-- The payload that the server has forwarded and not acknowledged yet. -/
def Server.owed : Server → List (List Byte)
  | .writing (.data m) todo =>
    if command m.cmd = .payment ∧ ∀ x ∈ todo, x.dest ≠ .payment then [m.payload] else []
  | _ => []

/-- The buffer that `payment` works on. -/
def Payment.current : Payment → List (List Byte)
  | .reading => []
  | .processing buf => [buf]

/-- What the server has left to do for an event are the last writes for this event. -/
def Server.Ok : Server → Prop
  | .epollWait => True
  | .writing e todo => todo ≠ [] ∧ todo <:+ e.writes

theorem owed_input (e : Input) : (Server.writing e e.writes).owed = [] := by
  cases e with
  | connect | hangup => rfl
  | data m =>
    show (if command m.cmd = .payment ∧ ∀ x ∈ dispatch m, x.dest ≠ .payment then _ else _) = _
    refine if_neg fun ⟨hc, hnone⟩ => hnone ⟨.payment, m.payload⟩ ?_ rfl
    simp [dispatch, hc]

theorem ok_next {e : Input} {x : Write} {todo : List Write}
    (h : (Server.writing e (x :: todo)).Ok) : (Server.next e todo).Ok := by
  unfold Server.next
  split
  next => trivial
  next hne => exact ⟨hne, (List.suffix_cons x todo).trans h.2⟩

/-- For another command than `P` the server neither forwards nor acknowledges a payment. -/
theorem quiet_of_mem_dispatch {m : Received} (hc : command m.cmd ≠ .payment) {x : Write}
    (hx : x ∈ dispatch m) : x.dest ≠ .payment ∧ x ≠ ⟨.client, Command.payment.reply⟩ := by
  have hreply : ∀ c : Command, c ≠ .payment → c.reply ≠ Command.payment.reply := fun c =>
    reply_injective.ne
  unfold dispatch at hx
  cases h : command m.cmd with
  | payment => exact absurd h hc
  | log | health =>
    simp only [h, List.mem_cons, List.not_mem_nil, or_false] at hx
    rcases hx with rfl | rfl
    · simp
    · simp [hreply]
  | unknown =>
    simp only [h, List.mem_cons, List.not_mem_nil, or_false] at hx
    subst hx
    simp [hreply]

/-- The server acknowledges a payload right after it has forwarded it. -/
theorem owed_write {s : State} {e : Input} {x : Write} {todo : List Write}
    (hs : s.server = .writing e (x :: todo)) (hok : s.server.Ok) :
    (acked (s, .write)).toList ++ (Server.next e todo).owed =
      s.server.owed ++ (toPayment x).toList := by
  rw [hs] at hok ⊢
  obtain ⟨-, hsuffix⟩ := hok
  cases e with
  | connect | hangup =>
    obtain ⟨rfl, rfl⟩ : x = _ ∧ todo = [] := by
      simpa [Input.writes, List.suffix_cons_iff] using hsuffix
    simp [acked, hs, Server.next, Server.owed, toPayment]
  | data m =>
    have hsuffix : x :: todo <:+ dispatch m := hsuffix
    by_cases hc : command m.cmd = .payment
    · -- the three writes of the branch, from the first one on
      simp only [dispatch, hc, List.suffix_cons_iff, List.suffix_nil, List.cons.injEq] at hsuffix
      rcases hsuffix with ⟨rfl, rfl⟩ | ⟨rfl, rfl⟩ | ⟨rfl, rfl⟩ | h
      · simp [acked, hs, Server.next, Server.owed, toPayment, hc]
      · simp [acked, hs, Server.next, Server.owed, toPayment, hc]
      · simp [acked, hs, Server.next, Server.owed, toPayment, hc]
      · cases h
    · obtain ⟨hdest, hack⟩ := quiet_of_mem_dispatch hc (hsuffix.subset List.mem_cons_self)
      have hnext : (Server.next (.data m) todo).owed = [] := by
        unfold Server.next
        split
        · rfl
        · exact if_neg fun h => hc h.1
      rw [hnext]
      simp [acked, hs, Server.owed, toPayment, hc, hdest, hack]

/-! ## One step -/

/-- What a step does to the server, the stream and `payment`. -/
inductive Effect (s t : State) : Event → Prop where
  | input {e : Input} (hack : acked (s, .input e) = none) (howed : t.server.owed = s.server.owed)
      (hok : t.server.Ok) (hqueue : t.queue = s.queue) (hpayment : t.payment = s.payment) :
      Effect s t (.input e)
  | write {x : Write} (howed : (acked (s, .write)).toList ++ t.server.owed =
      s.server.owed ++ (toPayment x).toList) (hok : t.server.Ok)
      (hqueue : t.queue = s.queue ++ (toPayment x).getD []) (hpayment : t.payment = s.payment)
      (hx : ∃ e todo, s.server = .writing e (x :: todo)) : Effect s t .write
  | read {n : ℕ} (hn : 0 < n ∧ n ≤ 1023 ∧ n ≤ s.queue.length) (hserver : t.server = s.server)
      (hqueue : t.queue = s.queue.drop n) (hs : s.payment = .reading)
      (ht : t.payment = .processing (s.queue.take n)) : Effect s t (.read n)
  | processed (buf : List Byte) (hserver : t.server = s.server) (hqueue : t.queue = s.queue)
      (hs : s.payment = .processing buf) (ht : t.payment = .reading) : Effect s t .processed

/-- Every step has one of these effects. -/
theorem step_effect {s t : State} {e : Event} (hok : s.server.Ok) (h : step s e = some t) :
    Effect s t e := by
  cases e with
  | input e =>
    simp only [step] at h
    split at h
    next hs =>
      cases h
      exact .input (by simp [acked]) (by rw [owed_input, hs]; rfl)
        ⟨Input.writes_ne_nil e, List.suffix_rfl⟩ rfl rfl
    · cases h
  | write =>
    simp only [step] at h
    split at h
    next e x todo hs =>
      cases h
      exact .write (owed_write hs hok) (ok_next (hs ▸ hok)) rfl rfl ⟨e, todo, hs⟩
    · cases h
    · cases h
  | read n =>
    simp only [step] at h
    split at h
    next hs =>
      obtain ⟨hn, rfl⟩ := Machine.guard_eq_some.mp h
      exact .read hn rfl rfl hs rfl
    · cases h
  | processed =>
    simp only [step] at h
    split at h
    next buf hs =>
      cases h
      exact .processed buf rfl rfl hs rfl
    · cases h

/-! ## The invariants -/

/-- The buffers `done` were processed and the payloads `ack` acknowledged: together with what is
under way, they are the same bytes. -/
structure Conserved (done ack : List (List Byte)) (s : State) : Prop where
  ok : s.server.Ok
  bytes : (done ++ s.payment.current).flatten ++ s.queue = (ack ++ s.server.owed).flatten
  sizes : ∀ buf ∈ done ++ s.payment.current, buf ≠ [] ∧ buf.length ≤ 1023

/-- Each step keeps the bytes acknowledged and the bytes processed in balance. -/
theorem conserved_step {done ack : List (List Byte)} {s t : State} {e : Event}
    (hs : Conserved done ack s) (h : step s e = some t) :
    Conserved (done ++ (processed (s, e)).toList) (ack ++ (acked (s, e)).toList) t := by
  cases step_effect hs.ok h with
  | input hack howed hok hqueue hpayment =>
    rw [hack]
    simp only [processed, Option.toList_none, List.append_nil]
    exact ⟨hok, by rw [hpayment, hqueue, howed]; exact hs.bytes, by rw [hpayment]; exact hs.sizes⟩
  | @write x howed hok hqueue hpayment _ =>
    simp only [processed, Option.toList_none, List.append_nil]
    refine ⟨hok, ?_, by rw [hpayment]; exact hs.sizes⟩
    -- a write to `payment` adds to the stream what it adds to the payloads owed
    have hflat : (ack ++ s.server.owed ++ (toPayment x).toList).flatten =
        (ack ++ s.server.owed).flatten ++ (toPayment x).getD [] := by
      cases toPayment x <;> simp
    rw [hpayment, hqueue, List.append_assoc ack, howed, ← List.append_assoc ack, hflat, ← hs.bytes,
      List.append_assoc]
  | @read n hn hserver hqueue hreading ht =>
    simp only [processed, acked, Option.toList_none, List.append_nil]
    have hbytes := hs.bytes
    have hsizes := hs.sizes
    rw [hreading, Payment.current, List.append_nil] at hbytes hsizes
    refine ⟨hserver ▸ hs.ok, ?_, ?_⟩
    · rw [ht, hqueue, hserver, ← hbytes, Payment.current, List.flatten_concat, List.append_assoc,
        List.take_append_drop]
    · rw [ht, Payment.current, List.forall_mem_append, List.forall_mem_singleton]
      refine ⟨hsizes, fun hnil => ?_, ?_⟩
      · rw [List.take_eq_nil_iff] at hnil
        rcases hnil with h0 | hnil
        · omega
        · rw [hnil, List.length_nil] at hn
          omega
      · rw [List.length_take]
        omega
  | processed buf hserver hqueue hprocessing ht =>
    have hbytes := hs.bytes
    have hsizes := hs.sizes
    simp only [processed, acked, hprocessing, Payment.current, Option.toList_none,
      Option.toList_some, List.append_nil] at hbytes hsizes ⊢
    refine ⟨hserver ▸ hs.ok, ?_, ?_⟩
    · rw [ht, hqueue, hserver, Payment.current, List.append_nil]
      exact hbytes
    · rw [ht, Payment.current, List.append_nil]
      exact hsizes

/-- A payment is forwarded into an empty stream, is not empty, and is read as a whole. -/
def OneAtATime (s : State) (e : Event) : Prop :=
  match e with
  | .write =>
    match s.server with
    | .writing _ (x :: _) => x.dest = .payment → s.queue = [] ∧ x.data ≠ []
    | _ => True
  | .read n => n = s.queue.length
  | _ => True

instance (s : State) (e : Event) : Decidable (OneAtATime s e) := by
  unfold OneAtATime
  split
  · split <;> infer_instance
  · infer_instance
  · infer_instance

/-- The stream holds one payload or none. -/
def waiting (s : State) : List (List Byte) := if s.queue = [] then [] else [s.queue]

/-- Message by message, what was processed and is under way is what was acknowledged or is owed. -/
def Matched (done ack : List (List Byte)) (s : State) : Prop :=
  done ++ s.payment.current ++ waiting s = ack ++ s.server.owed

/-- If the payments come one at a time, each step keeps the buffers those of the payments. -/
theorem matched_step {done ack : List (List Byte)} {s t : State} {e : Event} (hok : s.server.Ok)
    (hs : Matched done ack s) (hG : OneAtATime s e) (h : step s e = some t) :
    Matched (done ++ (processed (s, e)).toList) (ack ++ (acked (s, e)).toList) t := by
  unfold Matched at hs ⊢
  cases step_effect hok h with
  | input hack howed hok hqueue hpayment =>
    rw [hack, waiting, hpayment, hqueue, howed]
    simp only [processed, Option.toList_none, List.append_nil]
    exact hs
  | @write x howed hok hqueue hpayment hx =>
    obtain ⟨e, todo, hserver⟩ := hx
    rw [List.append_assoc ack, howed, ← List.append_assoc ack, ← hs, hpayment]
    simp only [processed, Option.toList_none, List.append_nil]
    simp only [OneAtATime, hserver] at hG
    by_cases hdest : x.dest = .payment
    · obtain ⟨hempty, hne⟩ := hG hdest
      simp [waiting, hqueue, toPayment, hdest, hempty, hne]
    · simp [waiting, hqueue, toPayment, hdest]
  | @read n hn hserver hqueue hreading ht =>
    obtain rfl : n = s.queue.length := hG
    have hne : s.queue ≠ [] := List.length_pos_iff.mp hn.1
    simp only [processed, acked, Option.toList_none, List.append_nil]
    rw [hserver, ← hs, ht, hreading]
    simp [waiting, hqueue, Payment.current, hne]
  | processed buf hserver hqueue hprocessing ht =>
    rw [hserver, ht, waiting, hqueue]
    rw [hprocessing] at hs
    simpa [processed, acked, hprocessing, Payment.current, waiting] using hs

/-! ## Runs -/

/-- **No byte of an acknowledged payment is lost, doubled or out of order.** Once the stream is
drained, the buffers that `payment` has processed are the acknowledged payloads, cut anew. They are
the same messages if and only if the reads have the sizes of the payloads, and so in every run in
which a payment is not empty, is forwarded into an empty stream and read as a whole. -/
theorem payments_conserved {es : List Event} {t : State} (hrun : machine.run init es = some t)
    (hdrained : Drained t) :
    let done := (machine.trace init es).filterMap processed
    let ack := (machine.trace init es).filterMap acked
    done.flatten = ack.flatten ∧ (∀ buf ∈ done, buf ≠ [] ∧ buf.length ≤ 1023) ∧
      (done = ack ↔ done.map List.length = ack.map List.length) ∧
      (machine.Along OneAtATime init es → done = ack) := by
  intro done ack
  obtain ⟨hserver, hqueue, hpayment⟩ := hdrained
  have hconserved : Conserved done ack t := by
    refine Machine.history_invariant_of_step (M := machine)
      (I := fun h s => Conserved (h.filterMap processed) (h.filterMap acked) s) ?_
      ⟨trivial, rfl, fun _ h => absurd h List.not_mem_nil⟩ hrun
    intro h s e t hs hstep
    rw [List.filterMap_append, List.filterMap_append]
    exact conserved_step hs hstep
  have hflat : done.flatten = ack.flatten := by
    simpa [hpayment, hserver, hqueue, Payment.current, Server.owed] using hconserved.bytes
  refine ⟨hflat, ?_, ?_, fun hG => ?_⟩
  · simpa [hpayment, Payment.current] using hconserved.sizes
  · -- a concatenation and the lengths of its parts determine the parts
    rw [List.eq_iff_flatten_eq]
    exact and_iff_right hflat
  · have hmatched : t.server.Ok ∧ Matched done ack t := by
      refine Machine.history_invariant (M := machine)
        (I := fun h s => s.server.Ok ∧ Matched (h.filterMap processed) (h.filterMap acked) s) ?_
        ⟨trivial, by rfl⟩ hG hrun
      intro h s e t hs hG hstep
      rw [List.filterMap_append, List.filterMap_append]
      refine ⟨?_, matched_step hs.1 hs.2 hG hstep⟩
      cases step_effect hs.1 hstep with
      | input _ _ hok _ _ | write _ hok _ _ _ => exact hok
      | read _ hserver _ _ _ | processed _ hserver _ _ _ => exact hserver ▸ hs.1
    simpa [Matched, waiting, hpayment, hserver, hqueue, Payment.current, Server.owed]
      using hmatched.2

/-- The same two messages, each of them read before the next one is forwarded. -/
def oneByOne : List Event :=
  twoMessages.take 4 ++ [.read 1, .processed] ++ twoMessages.drop 4 ++ [.read 1, .processed]

theorem payments_oneByOne :
    (machine.trace init oneByOne).filterMap processed =
      (machine.trace init oneByOne).filterMap acked := by
  have hrun : machine.run init oneByOne = some _ := (Option.some_get (by decide)).symm
  exact (payments_conserved hrun (by decide)).2.2.2 (by decide)

end LinuxRiscv32.PaymentQueue

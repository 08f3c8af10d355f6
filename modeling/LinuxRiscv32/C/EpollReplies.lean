import LinuxRiscv32.C.EpollPeers
import LinuxRiscv32.Common.Lines

/-!
# `epoll_server`: the replies as lines

Reference: the `switch` of `main` in `C/epoll_server.c`.

Every branch answers with a text that ends in a newline, under a length that is written out. The
length in the branch `P` is one too many, so the NUL behind the newline is sent along and stands in
front of the next answer.
-/

namespace LinuxRiscv32.EpollServer

open Common

/-- The answer as a line. -/
def Command.line : Command → List Byte
  | .payment => bytes "ACK payment"
  | .log => bytes "ACK: logger"
  | .health => bytes "ACK: health"
  | .unknown => bytes "ERR: unknown"

/-- What is sent behind the newline. -/
def Command.excess : Command → List Byte
  | .payment => [0]
  | .log | .health | .unknown => []

/-- The lines that a client reads: its bytes, cut at newlines. The last one is not complete. -/
def linesOf (bs : List Byte) : List (List Byte) := bs.splitOn '\n'.toUInt8

/-- The client reads the lines `ls` and nothing else. -/
def ReadsLines (bs : List Byte) (ls : List (List Byte)) : Prop := linesOf bs = ls ++ [[]]

instance (bs : List Byte) (ls : List (List Byte)) : Decidable (ReadsLines bs ls) :=
  inferInstanceAs (Decidable (_ = _))

/-- The answers to the messages, one line each. -/
def replyLines (rs : List Received) : List (List Byte) := rs.map fun m => (command m.cmd).line

/-- A payment alone: the NUL is left over. -/
theorem payment_breaks_lines :
    ¬ ∀ rs : List Received, ReadsLines (bytesTo .client (serve rs)) (replyLines rs) := by
  intro h
  exact absurd (h [⟨'P'.toUInt8, [], by decide⟩]) (by decide)

/-- Every reply is a line, a newline, and what stands behind it. -/
theorem reply_isLineCode :
    IsLineCode '\n'.toUInt8 Command.reply Command.line Command.excess where
  code_eq c := by cases c <;> decide
  sep_notMem_line c := by cases c <;> decide
  sep_notMem_excess c := by cases c <;> decide

/-- Only the reply to a payment has something behind its newline. -/
theorem excess_eq_nil_iff {c : Command} : c.excess = [] ↔ c ≠ .payment := by
  cases c <;> decide

theorem command_eq_payment_iff {cmd : Byte} : command cmd = .payment ↔ cmd = 'P'.toUInt8 := by
  unfold command
  split_ifs with h <;> simp [h]

/-- Each line of a client is the answer to a message behind the excess of the answer before. -/
theorem linesOf_client (rs : List Received) :
    linesOf (bytesTo .client (serve rs)) =
      pieces Command.line Command.excess [] (rs.map (command ·.cmd)) := by
  rw [bytesTo_client]
  exact reply_isLineCode.splitOn_flatMap List.not_mem_nil _

/-- **When the answers are lines.** Whatever messages are read from a client: the bytes that are
written back to it, cut at newlines, are the lines of the answers in order and nothing else if and
only if none of the messages begins with `P`. -/
theorem readsLines_iff (rs : List Received) :
    ReadsLines (bytesTo .client (serve rs)) (replyLines rs) ↔ ∀ m ∈ rs, m.cmd ≠ 'P'.toUInt8 := by
  have hlines : replyLines rs = (rs.map (command ·.cmd)).map Command.line := by
    rw [List.map_map]
    rfl
  rw [ReadsLines, linesOf_client, hlines, pieces_eq_iff, and_iff_right rfl, List.forall_mem_map]
  simp only [excess_eq_nil_iff, ne_eq, command_eq_payment_iff]

/-! ## A client among others -/

namespace Descriptors

/-- The bytes that a step writes to connection `k`. -/
def sentIn (S : Setup) (k : ℕ) (x : State × Event) : List Byte :=
  match x.2, x.1.pc with
  | .write, .write w _ _ _ => if Peers.written S x.1 = some (.conn k) then w.data else []
  | _, _ => []

/-- The message that a step reads from connection `k`. -/
def messageIn (k : ℕ) (x : State × Event) : Option Received :=
  match x.2, x.1.pc with
  | .read m, .next (ev :: _) => if x.1.table ev.1 = some (.conn k) then m else none
  | _, _ => none

/-- What is still to be written to connection `k` for the message at hand. -/
def owed (k : ℕ) : Pc → List Byte
  | .write w ws ev _ => if ev.2 = .conn k then bytesTo .client (w :: ws) else []
  | .next _ | .add _ _ _ | .del _ _ | .close _ _ => []

section Run

variable {S : Setup} {s t : State} {e : Event} {ev : Entry} {evs : List Entry} {k : ℕ}

/-- What a client is still owed stands in the writes that are left. -/
theorem owed_writes (k : ℕ) (ws : List Write) (ev : Entry) (evs : List Entry) :
    owed k (.writes ws ev evs) = if ev.2 = .conn k then bytesTo .client ws else [] := by
  cases ws with
  | nil => exact (ite_self _).symm
  | cons w ws => rfl

/-- Nothing is owed for an event that is not a message. -/
theorem owed_writes_nil (ws : List Write) (h : ∀ w ∈ ws, w.dest ≠ .client) :
    owed k (.writes ws ev evs) = [] := by
  have hws : bytesTo .client ws = [] := by
    rw [bytesTo, bytesWhere, List.filter_eq_nil_iff.mpr fun w hw => by simpa using h w hw]
    rfl
  rw [owed_writes, hws, ite_self]

/-- Only the answers to its messages are written to a connection. -/
theorem written_eq_conn_iff (hs : Inv S s) {w : Write} {ws : List Write}
    (hpc : s.pc = .write w ws ev evs) :
    Peers.written S s = some (.conn k) ↔ w.dest = .client ∧ ev.2 = .conn k := by
  rw [Peers.written_eq_addressee hs, Peers.addressee, hpc]
  dsimp only
  cases w.dest with
  | client => simp
  | logger | health => exact iff_of_false (S.no_conn _ k) fun h => Dest.noConfusion h.1
  | payment => simp

/-- A write pays off what it sends. -/
theorem owed_write (hs : Inv S s) {w : Write} {ws : List Write} (hpc : s.pc = .write w ws ev evs) :
    owed k s.pc = sentIn S k (s, .write) ++ owed k (.writes ws ev evs) := by
  rw [owed_writes, hpc, owed]
  simp only [sentIn, hpc, written_eq_conn_iff hs hpc]
  by_cases hdest : w.dest = .client <;> by_cases hev : ev.2 = .conn k <;>
    simp [bytesTo, bytesWhere, hdest, hev]

/-- A message that is read makes the server owe its answer. -/
theorem owed_read {m : Received} (hev : s.table ev.1 = some ev.2)
    (hpc : s.pc = .next (ev :: evs)) :
    owed k s.pc ++ bytesTo .client (serve (messageIn k (s, .read (some m))).toList) =
      sentIn S k (s, .read (some m)) ++ owed k (.writes (Input.data m).writes ev evs) := by
  rw [owed_writes]
  simp only [messageIn, sentIn, hpc, hev, Option.some.injEq, owed, List.nil_append]
  split
  next => simp [serve, Input.writes]
  next => rfl

/-- What a message adds to the debt of the server, its writes pay back. -/
theorem owed_step (hs : Inv S s) (h : step S s e = some t) :
    owed k s.pc ++ bytesTo .client (serve (messageIn k (s, e)).toList) =
      sentIn S k (s, e) ++ owed k t.pc := by
  have hquiet (hin : messageIn k (s, e) = none) (hout : sentIn S k (s, e) = [])
      (hold : owed k s.pc = []) (hnew : owed k t.pc = []) :
      owed k s.pc ++ bytesTo .client (serve (messageIn k (s, e)).toList) =
        sentIn S k (s, e) ++ owed k t.pc := by
    rw [hin, hout, hold, hnew]
    rfl
  cases performs_of_step h with
  | epollWait hpc | acceptFailed hpc | accept hpc | ctlDel hpc =>
    exact hquiet rfl rfl (by rw [hpc, owed]) rfl
  | ctlAdd hpc =>
    exact hquiet rfl rfl (by rw [hpc, owed]) (owed_writes_nil Input.connect.writes (by decide))
  | close hpc =>
    exact hquiet rfl rfl (by rw [hpc, owed]) (owed_writes_nil Input.hangup.writes (by decide))
  | hangup hpc hne =>
    refine hquiet ?_ rfl (by rw [hpc, owed]) rfl
    simp only [messageIn, hpc, ite_self]
  | read hpc hne => exact owed_read (hs.current_of_next hpc hne).1 hpc
  | write hpc =>
    rw [← owed_write hs hpc]
    exact List.append_nil _

/-- The bytes that a connection gets, and those that it is still to get, are the answers to the
messages that were read from it, whatever the other clients do meanwhile. -/
theorem sent_append_owed {es : List Event} (hrun : (machine S).run (init S) es = some t) :
    ((machine S).trace (init S) es).flatMap (sentIn S k) ++ owed k t.pc =
      bytesTo .client (serve (((machine S).trace (init S) es).filterMap (messageIn k))) := by
  have hstep : ∀ tr s e t,
      (Inv S s ∧ tr.flatMap (sentIn S k) ++ owed k s.pc =
        bytesTo .client (serve (tr.filterMap (messageIn k)))) →
      (machine S).step s e = some t →
      Inv S t ∧ (tr ++ [(s, e)]).flatMap (sentIn S k) ++ owed k t.pc =
        bytesTo .client (serve ((tr ++ [(s, e)]).filterMap (messageIn k))) := by
    rintro tr s e t ⟨hs, hsent⟩ h
    have hserve : ∀ rs rs' : List Received, bytesTo .client (serve (rs ++ rs')) =
        bytesTo .client (serve rs) ++ bytesTo .client (serve rs') := fun rs rs' => by
      simp only [bytesTo_client, List.map_append, List.flatMap_append]
    have hmessage : [(s, e)].filterMap (messageIn k) = (messageIn k (s, e)).toList := by
      rw [List.filterMap_cons, List.filterMap_nil]
      cases messageIn k (s, e) <;> rfl
    refine ⟨inv_step hs h, ?_⟩
    rw [List.filterMap_append, hserve, hmessage, ← hsent, List.append_assoc, owed_step hs h,
      List.flatMap_append, List.flatMap_singleton, List.append_assoc]
  exact (Machine.history_invariant_of_step hstep ⟨inv_init S, rfl⟩ hrun).2

/-- Between two messages of a run of the server, each client has read one line for every message it
has sent and nothing else if and only if none of them begins with `P`. -/
theorem readsLines_iff_of_run {es : List Event} (hrun : (machine S).run (init S) es = some t)
    (hpc : t.pc = .next evs) :
    let messages := ((machine S).trace (init S) es).filterMap (messageIn k)
    ReadsLines (((machine S).trace (init S) es).flatMap (sentIn S k)) (replyLines messages) ↔
      ∀ m ∈ messages, m.cmd ≠ 'P'.toUInt8 := by
  have hsent := sent_append_owed (k := k) hrun
  rw [hpc, owed, List.append_nil] at hsent
  rw [hsent]
  exact readsLines_iff _

end Run

end Descriptors

end LinuxRiscv32.EpollServer

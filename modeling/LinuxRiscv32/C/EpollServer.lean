import LinuxRiscv32.Common.PrefixCode
import Mathlib.Data.List.Forall2
import Mathlib.Data.List.TakeWhile
import Mathlib.Data.UInt

/-!
# `epoll_server`: one read, one command

Reference: `C/epoll_server.c`.

The loop of `main` takes what one `read` returned for one command: its first byte selects the branch
and the rest of the read is the payload. TCP does not keep the boundaries of the commands. What two
ways of cutting a stream have in common is worked out in the second half.
-/

namespace LinuxRiscv32.EpollServer

open Common

abbrev Byte := UInt8

/-- The bytes of a string literal, without the final NUL. -/
def bytes (s : String) : List Byte := s.toList.map Char.toUInt8

/-- What `%.*s` prints of `n - 1` bytes: those in front of the first NUL. -/
def cString (bs : List Byte) : List Byte := bs.takeWhile (· ≠ 0)

/-- A text without a NUL byte is its own C string. -/
theorem cString_eq_self {bs : List Byte} (h : 0 ∉ bs) : cString bs = bs := by
  rw [cString, List.takeWhile_eq_self_iff]
  intro b hb
  rw [decide_eq_true_eq]
  rintro rfl
  exact h hb

/-- A C string has no NUL byte in it. -/
theorem zero_notMem_cString (bs : List Byte) : 0 ∉ cString bs := fun h => by
  simpa using List.mem_takeWhile_imp h

/-- The result of `read(fd, buf, 1024)` with `n > 0`. -/
structure Received where
  cmd : Byte
  payload : List Byte
  fits : payload.length < 1024
deriving DecidableEq

/-- The descriptors that the loop writes to, by the variable that holds them; `client` is the one
that was read from. -/
inductive Dest where
  | logger
  | payment
  | health
  | client
deriving DecidableEq, Repr

structure Write where
  dest : Dest
  data : List Byte
deriving DecidableEq, Repr

/-- The branches of `switch (cmd)`. -/
inductive Command where
  | payment
  | log
  | health
  | unknown
deriving DecidableEq, Repr

def command (cmd : Byte) : Command :=
  if cmd = 'P'.toUInt8 then .payment
  else if cmd = 'L'.toUInt8 then .log
  else if cmd = 'H'.toUInt8 then .health
  else .unknown

/-- The answer to the client. The length 13 of `"ACK payment\n"` covers its final NUL. -/
def Command.reply : Command → List Byte
  | .payment => bytes "ACK payment\n" ++ [0]
  | .log => bytes "ACK: logger\n"
  | .health => bytes "ACK: health\n"
  | .unknown => bytes "ERR: unknown\n"

/-- The writes for one read of `n > 0` bytes. -/
def dispatch (m : Received) : List Write :=
  match command m.cmd with
  | .payment =>
    [⟨.logger, bytes "PAYING " ++ cString m.payload⟩, ⟨.payment, m.payload⟩,
      ⟨.client, Command.payment.reply⟩]
  | .log => [⟨.logger, bytes "LOGGING " ++ cString m.payload⟩, ⟨.client, Command.log.reply⟩]
  | .health => [⟨.health, m.payload⟩, ⟨.client, Command.health.reply⟩]
  | .unknown => [⟨.client, Command.unknown.reply⟩]

/-- What `epoll_wait` reports: a new connection, data, or the end of a connection. -/
inductive Input where
  | connect
  | data (m : Received)
  | hangup
deriving DecidableEq

/-- The writes for one event. -/
def Input.writes : Input → List Write
  | .connect => [⟨.logger, bytes "New client connected\n"⟩]
  | .data m => dispatch m
  | .hangup => [⟨.logger, bytes "Client disconnected\n"⟩]

theorem Input.writes_ne_nil (e : Input) : e.writes ≠ [] := by
  cases e with
  | connect | hangup => exact List.cons_ne_nil _ _
  | data m =>
    show dispatch m ≠ []
    unfold dispatch
    cases command m.cmd <;> exact List.cons_ne_nil _ _

/-! ## A client's stream -/

/-- The writes for the reads from one client. -/
def serve (rs : List Received) : List Write := rs.flatMap dispatch

/-- The bytes of the writes to some of the descriptors. -/
def bytesWhere (p : Dest → Bool) (ws : List Write) : List Byte :=
  (ws.filter (p ·.dest)).flatMap Write.data

/-- The bytes written to a descriptor. -/
def bytesTo (d : Dest) (ws : List Write) : List Byte := bytesWhere (· = d) ws

/-- Two sequences of reads have the same effects on every descriptor. -/
def SameEffects (rs rs' : List Received) : Prop := ∀ d, bytesTo d (serve rs) = bytesTo d (serve rs')

/-- The files behind the descriptors. -/
inductive File where
  | stdout
  | payment
  | client
deriving DecidableEq, Repr

/-- Both `logger_fd` and `health_fd` are `STDOUT_FILENO`. -/
def Dest.file : Dest → File
  | .logger | .health => .stdout
  | .payment => .payment
  | .client => .client

/-- The bytes that arrive in a file. -/
def bytesAt (f : File) (ws : List Write) : List Byte := bytesWhere (·.file = f) ws

/-- Two sequences of reads have the same effects on every file. -/
def SameOutput (rs rs' : List Received) : Prop := ∀ f, bytesAt f (serve rs) = bytesAt f (serve rs')

/-- The bytes that the reads took from the connection. -/
def stream (rs : List Received) : List Byte := rs.flatMap fun m => m.cmd :: m.payload

/-- A stream of newline-terminated commands, each a first byte with a payload. -/
def commandStream (cs : List (Byte × List Byte)) : List Byte :=
  cs.flatMap fun c => c.1 :: c.2 ++ ['\n'.toUInt8]

/-- A number of at most `k` digits is printed with one byte more for its sign. -/
theorem bytes_toString_length {x : ℤ} {k : ℕ} (hk : 0 < k) (h : x.natAbs < 10 ^ k) :
    (bytes (toString x)).length ≤ k + 1 := by
  have hdigits : x.natAbs.repr.length ≤ k := (Nat.length_repr_le_iff hk).mpr h
  rw [bytes, List.length_map, String.length_toList, Int.toString_eq_repr, Int.repr_eq_if]
  split
  next hpos =>
    rw [show x.toNat = x.natAbs by omega]
    exact Nat.le_succ_of_le hdigits
  next hneg =>
    rw [show (-x).toNat = x.natAbs by omega, String.length_append, Nat.add_comm]
    exact Nat.succ_le_succ hdigits

/-- The command `Pa` may arrive in one read or be cut behind its first byte. -/
theorem cut_payment_changes_effects :
    ¬ ∀ (cs : List (Byte × List Byte)) (rs rs' : List Received), stream rs = commandStream cs →
      stream rs' = commandStream cs → SameEffects rs rs' := by
  intro h
  have hsame := h [('P'.toUInt8, bytes "a")] [⟨'P'.toUInt8, bytes "a\n", by decide⟩]
    [⟨'P'.toUInt8, [], by decide⟩, ⟨'a'.toUInt8, bytes "\n", by decide⟩] (by decide) (by decide)
  exact absurd (hsame .payment) (by decide)

/-! ## Writes in order -/

/-- Two reads with the same command and, as far as it is used, the same payload. -/
def SameMessage (m m' : Received) : Prop :=
  command m.cmd = command m'.cmd ∧
    match command m.cmd with
    | .payment | .health => m.payload = m'.payload
    | .log => cString m.payload = cString m'.payload
    | .unknown => True

/-- Two messages are dispatched alike exactly if they have the same command and payload. -/
theorem dispatch_eq_iff {m m' : Received} : dispatch m = dispatch m' ↔ SameMessage m m' := by
  unfold SameMessage dispatch
  cases command m.cmd <;> cases command m'.cmd <;> simp
  exact fun h => congrArg cString h

/-- The reply to the client ends the writes for a read. -/
theorem dispatch_isPrefixCode : IsPrefixCode dispatch := by
  refine IsPrefixCode.of_mark (·.dest = .client) fun m => ?_
  refine ⟨(dispatch m).dropLast, ⟨.client, (command m.cmd).reply⟩, ?_, rfl, ?_⟩
  all_goals
    unfold dispatch
    cases command m.cmd <;> simp

/-- Two sequences are served alike exactly if their messages are pairwise the same. -/
theorem serve_eq_iff {rs rs' : List Received} :
    serve rs = serve rs' ↔ List.Forall₂ SameMessage rs rs' := by
  have hmap : rs.map dispatch = rs'.map dispatch ↔ List.Forall₂ SameMessage rs rs' := by
    rw [← List.forall₂_eq_eq_eq, List.forall₂_map_left_iff, List.forall₂_map_right_iff]
    simp only [dispatch_eq_iff]
  rw [← hmap]
  refine ⟨dispatch_isPrefixCode.map_eq_of_flatMap_eq, fun h => ?_⟩
  rw [serve, serve, List.flatMap_def, List.flatMap_def, h]

/-! ## Bytes on the descriptors -/

/-- The text that a read leaves in the log. -/
def logText (m : Received) : List Byte :=
  match command m.cmd with
  | .payment => bytes "PAYING " ++ cString m.payload
  | .log => bytes "LOGGING " ++ cString m.payload
  | .health | .unknown => []

/-- The payloads of the reads with command `c`, one after the other. -/
def payloads (c : Command) (rs : List Received) : List Byte :=
  (rs.filter (command ·.cmd = c)).flatMap Received.payload

/-- What a read leaves on standard output. -/
def stdoutText (m : Received) : List Byte :=
  if command m.cmd = .health then m.payload else logText m

/-- The bytes written for a sequence of reads are those written for each of them in turn. -/
theorem bytesWhere_serve {p : Dest → Bool} {text : Received → List Byte}
    (h : ∀ m, bytesWhere p (dispatch m) = text m) (rs : List Received) :
    bytesWhere p (serve rs) = rs.flatMap text := by
  rw [← funext h]
  simp only [bytesWhere, serve, List.filter_flatMap, List.flatMap_assoc]

/-- The client gets the replies in the order of its messages. -/
theorem bytesTo_client (rs : List Received) :
    bytesTo .client (serve rs) = (rs.map (command ·.cmd)).flatMap Command.reply := by
  rw [List.flatMap_map]
  apply bytesWhere_serve
  intro m
  unfold dispatch
  cases command m.cmd <;> simp [bytesWhere]

/-- The logger gets the texts in this order. -/
theorem bytesTo_logger (rs : List Received) : bytesTo .logger (serve rs) = rs.flatMap logText := by
  apply bytesWhere_serve
  intro m
  unfold dispatch logText
  cases command m.cmd <;> simp [bytesWhere]

theorem bytesAt_stdout (rs : List Received) :
    bytesAt .stdout (serve rs) = rs.flatMap stdoutText := by
  apply bytesWhere_serve
  intro m
  unfold dispatch stdoutText logText
  cases command m.cmd <;> simp [bytesWhere, Dest.file]

theorem payloads_eq_flatMap (c : Command) (rs : List Received) :
    payloads c rs = rs.flatMap fun m => if command m.cmd = c then m.payload else [] := by
  induction rs with
  | nil => rfl
  | cons m rs ih =>
    rw [List.flatMap_cons, ← ih]
    by_cases hm : command m.cmd = c <;> simp [payloads, hm]

/-- `payment` gets the payloads of the messages for it. -/
theorem bytesTo_payment (rs : List Received) :
    bytesTo .payment (serve rs) = payloads .payment rs := by
  rw [payloads_eq_flatMap]
  apply bytesWhere_serve
  intro m
  unfold dispatch
  cases command m.cmd <;> simp [bytesWhere]

/-- `health` gets the payloads of the messages for it. -/
theorem bytesTo_health (rs : List Received) :
    bytesTo .health (serve rs) = payloads .health rs := by
  rw [payloads_eq_flatMap]
  apply bytesWhere_serve
  intro m
  unfold dispatch
  cases command m.cmd <;> simp [bytesWhere]

/-- No reply begins another one, so the client can count them. -/
theorem reply_prefix_inj {c c' : Command} (h : c.reply <+: c'.reply) : c = c' := by
  by_contra hne
  revert h
  cases c <;> cases c' <;> first | exact absurd rfl hne | decide

/-- No reply is the beginning of another one. -/
theorem reply_isPrefixCode : IsPrefixCode Command.reply where
  ne_nil c := by cases c <;> decide
  prefix_inj _ _ h := congrArg _ (reply_prefix_inj h)

theorem reply_injective : Function.Injective Command.reply := fun _ _ h =>
  reply_prefix_inj (h ▸ List.prefix_rfl)

/-- The client can tell the commands from the replies. -/
theorem bytesTo_client_eq_iff {rs rs' : List Received} :
    bytesTo .client (serve rs) = bytesTo .client (serve rs') ↔
      rs.map (command ·.cmd) = rs'.map (command ·.cmd) := by
  rw [bytesTo_client, bytesTo_client]
  refine ⟨fun h => ?_, fun h => by rw [h]⟩
  exact List.map_injective_iff.mpr reply_injective (reply_isPrefixCode.map_eq_of_flatMap_eq h)

/-- The effects are the same exactly if the replies, the texts and the payloads are. -/
theorem sameEffects_iff {rs rs' : List Received} :
    SameEffects rs rs' ↔ rs.map (command ·.cmd) = rs'.map (command ·.cmd) ∧
      rs.flatMap logText = rs'.flatMap logText ∧
      payloads .payment rs = payloads .payment rs' ∧
      payloads .health rs = payloads .health rs' := by
  rw [← bytesTo_client_eq_iff, ← bytesTo_logger, ← bytesTo_logger, ← bytesTo_payment,
    ← bytesTo_payment, ← bytesTo_health, ← bytesTo_health]
  constructor
  · intro h
    exact ⟨h .client, h .logger, h .payment, h .health⟩
  · rintro ⟨hclient, hlogger, hpayment, hhealth⟩ d
    cases d with
    | logger => exact hlogger
    | payment => exact hpayment
    | health => exact hhealth
    | client => exact hclient

/-- A file behind a single descriptor. -/
theorem bytesAt_eq_bytesTo {f : File} {d : Dest} (h : ∀ d' : Dest, d'.file = f ↔ d' = d)
    (ws : List Write) : bytesAt f ws = bytesTo d ws := by
  simp only [bytesAt, bytesTo, bytesWhere, h]

theorem bytesAt_payment (ws : List Write) : bytesAt .payment ws = bytesTo .payment ws :=
  bytesAt_eq_bytesTo (fun d => by cases d <;> decide) ws

theorem bytesAt_client (ws : List Write) : bytesAt .client ws = bytesTo .client ws :=
  bytesAt_eq_bytesTo (fun d => by cases d <;> decide) ws

/-- The outputs are the same exactly if the replies, the texts shown and the payloads are. -/
theorem sameOutput_iff {rs rs' : List Received} :
    SameOutput rs rs' ↔ rs.map (command ·.cmd) = rs'.map (command ·.cmd) ∧
      rs.flatMap stdoutText = rs'.flatMap stdoutText ∧
      payloads .payment rs = payloads .payment rs' := by
  rw [← bytesTo_client_eq_iff, ← bytesTo_payment, ← bytesTo_payment, ← bytesAt_stdout,
    ← bytesAt_stdout, ← bytesAt_client, ← bytesAt_client, ← bytesAt_payment, ← bytesAt_payment]
  constructor
  · intro h
    exact ⟨h .client, h .stdout, h .payment⟩
  · rintro ⟨hclient, hstdout, hpayment⟩ f
    cases f with
    | stdout => exact hstdout
    | payment => exact hpayment
    | client => exact hclient

/-- **What a cut changes.** Two sequences of reads, such as two cuts of one stream, lead to the same
writes if and only if they correspond read by read. They have the same effects if and only if their
commands agree one by one and what each descriptor, or each file, gets agrees as a whole, so never
if one of them has more reads. -/
theorem cut_effects (rs rs' : List Received) :
    (serve rs = serve rs' ↔ List.Forall₂ SameMessage rs rs') ∧
    (SameEffects rs rs' ↔ rs.map (command ·.cmd) = rs'.map (command ·.cmd) ∧
      rs.flatMap logText = rs'.flatMap logText ∧
      payloads .payment rs = payloads .payment rs' ∧
      payloads .health rs = payloads .health rs') ∧
    (SameOutput rs rs' ↔ rs.map (command ·.cmd) = rs'.map (command ·.cmd) ∧
      rs.flatMap stdoutText = rs'.flatMap stdoutText ∧
      payloads .payment rs = payloads .payment rs') ∧
    (SameEffects rs rs' ∨ SameOutput rs rs' → rs.length = rs'.length) := by
  refine ⟨serve_eq_iff, sameEffects_iff, sameOutput_iff, fun h => ?_⟩
  have hcommands : rs.map (command ·.cmd) = rs'.map (command ·.cmd) :=
    h.elim (fun h => (sameEffects_iff.mp h).1) fun h => (sameOutput_iff.mp h).1
  have hlength := congrArg List.length hcommands
  rwa [List.length_map, List.length_map] at hlength

end LinuxRiscv32.EpollServer

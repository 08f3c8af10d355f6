import LinuxRiscv32.C.EpollServer
import LinuxRiscv32.Common.ByteLog

/-!
# `handle_client` and its buffer

Reference: `C/server_tcp.c`, `C/server_unix.c` (`handle_client`).

Both servers read up to `sizeof(buf)` bytes and store a NUL behind them, without a look at what
`read` has returned. That is in front of the buffer after an error, and behind it after a read that
has filled the buffer. `C/payment.c` asks for one byte less and leaves if `read` returns nothing.
-/

namespace LinuxRiscv32.HandleClient

open Common
open EpollServer (Byte bytes bytes_toString_length cString)

/-- `sizeof(buf)` -/
def BUF_SIZE : ℕ := 1024

/-- The result of `read(clientfd, buf, sizeof(buf))`: an error, or what has arrived of the stream of
the client, up to the size of the buffer. -/
inductive Read where
  | error
  | bytes (data : List Byte) (fits : data.length ≤ BUF_SIZE)

/-- `n` -/
def Read.ret : Read → ℤ
  | .error => -1
  | .bytes data _ => data.length

/-- The bytes that were received. -/
def Read.data : Read → List Byte
  | .error => []
  | .bytes data _ => data

/-- The string at the start of a memory of `limit` bytes, if it ends there. -/
def stringAt (mem : ℤ → Byte) (limit : ℕ) : Option (List Byte) :=
  if 0 ∈ slice mem 0 limit then some (cString (slice mem 0 limit)) else none

/-- `snprintf` into an array of `size` bytes. -/
def snprintf (size : ℕ) (text : List Byte) : List Byte := text.take (size - 1)

/-- What the two servers do not have in common: what they print for a text, and the two parts of
their response. -/
structure Server where
  request : (pid : ℤ) → (text : List Byte) → List Byte
  header : List Byte
  body : (pid : ℤ) → List Byte

def serverTcp : Server where
  request pid text :=
    bytes "PID " ++ bytes (toString pid) ++ bytes " handling request:\n" ++ text ++ bytes "\n"
  header := bytes "HTTP/1.1 200 OK\r\nContent-Type: text/plain\r\n\r\n"
  body pid := bytes "Hello! Served by PID: " ++ bytes (toString pid) ++ bytes "\n"

def serverUnix : Server where
  request pid text := bytes "PID " ++ bytes (toString pid) ++ bytes " got: " ++ text ++ bytes "\n"
  header := []
  body pid :=
    bytes "Hello! UNIX socket, Served by PID: " ++ bytes (toString pid) ++ bytes "\n"

/-- Where the terminator was stored, the text in `buf`, what is printed, and the response. The text
is `none` if the string does not end in the memory that can be read. -/
structure Outcome where
  index : ℤ
  text : Option (List Byte)
  printed : Option (List Byte)
  response : List Byte
deriving DecidableEq, Repr

/-- `handle_client(clientfd)` up to the response. The memory is given by the distance from `buf`;
it can be read up to `more` bytes behind the buffer. -/
def handleClient (sv : Server) (pid : ℤ) (stack : ℤ → Byte) (more : ℕ) (r : Read) : Outcome :=
  let mem := blit (blit stack 0 r.data) r.ret [0]
  let text := stringAt mem (BUF_SIZE + more)
  { index := r.ret
    text := text
    printed := text.map (sv.request pid)
    response := snprintf 512 (sv.header ++ snprintf 256 (sv.body pid)) }

/-- The terminator is stored inside the buffer, and what is printed of the buffer was received. -/
structure Inside (o : Outcome) (received : List Byte) : Prop where
  index_nonneg : 0 ≤ o.index
  index_lt : o.index < BUF_SIZE
  text : ∃ text, o.text = some text ∧ text <+: received

/-! ## The response -/

/-- A text that fits is not cut. -/
theorem snprintf_of_lt {size : ℕ} {text : List Byte} (h : text.length < size) :
    snprintf size text = text :=
  List.take_of_length_le (Nat.le_pred_of_lt h)

/-- Neither of the two arrays cuts what is printed into it: a `pid` has at most ten digits. -/
theorem response_complete {sv : Server} (hsv : sv = serverTcp ∨ sv = serverUnix) {pid : ℤ}
    (hpid : pid.natAbs < 10 ^ 10) (stack : ℤ → Byte) (more : ℕ) (r : Read) :
    (handleClient sv pid stack more r).response = sv.header ++ sv.body pid := by
  have hdigits := bytes_toString_length (show 0 < 10 by decide) hpid
  have hfits : sv.header.length ≤ 45 ∧ (sv.body pid).length ≤ 47 := by
    rcases hsv with rfl | rfl
    · refine ⟨show 45 ≤ 45 from le_rfl, ?_⟩
      rw [serverTcp, List.length_append, List.length_append]
      change 22 + _ + 1 ≤ 47
      omega
    · refine ⟨Nat.zero_le _, ?_⟩
      rw [serverUnix, List.length_append, List.length_append]
      change 35 + _ + 1 ≤ 47
      omega
  obtain ⟨hheader, hbody⟩ := hfits
  have hinner : snprintf 256 (sv.body pid) = sv.body pid := snprintf_of_lt (by omega)
  have houter : (sv.header ++ sv.body pid).length < 512 := by
    rw [List.length_append]
    omega
  rw [handleClient, hinner]
  exact snprintf_of_lt houter

/-! ## The text -/

section Text

variable {data : List Byte}

/-- A string ends at its first NUL. -/
theorem cString_append_zero (data rest : List Byte) :
    cString (data ++ 0 :: rest) = cString data := by
  induction data with
  | nil => rfl
  | cons b bs ih =>
    unfold cString at ih ⊢
    rw [List.cons_append, List.takeWhile_cons, List.takeWhile_cons, ih]

/-- The data is in memory and the terminator is stored behind it: the string is the data up to its
first NUL. -/
theorem stringAt_of_slice {mem : ℤ → Byte} {limit : ℕ} (hmem : slice mem 0 data.length = data)
    (h : data.length < limit) :
    stringAt (blit mem data.length [0]) limit = some (cString data) := by
  obtain ⟨rest, rfl⟩ : ∃ rest, limit = data.length + (1 + rest) :=
    ⟨limit - (data.length + 1), by omega⟩
  have hdata : slice (blit mem data.length [0]) 0 data.length = data :=
    (slice_congr _ fun i _ hi => blit_of_not_mem mem (.inl (by omega))).trans hmem
  have hzero : slice (blit mem data.length [0]) (0 + data.length) 1 = [0] := by
    rw [Int.zero_add]
    exact slice_blit mem le_rfl
  have hslice : slice (blit mem data.length [0]) 0 (data.length + (1 + rest)) =
      data ++ 0 :: slice (blit mem data.length [0]) (0 + data.length + (1 : ℕ)) rest := by
    rw [slice_add, slice_add, hdata, hzero, List.singleton_append]
  rw [stringAt, hslice, if_pos (List.mem_append_right _ List.mem_cons_self), cString_append_zero]

/-- With the terminator behind the data, the string is the data up to its first NUL. -/
theorem stringAt_terminated (stack : ℤ → Byte) {limit : ℕ} (h : data.length < limit) :
    stringAt (blit (blit stack 0 data) data.length [0]) limit = some (cString data) :=
  stringAt_of_slice ((slice_blit stack le_rfl).trans List.take_length) h

end Text

/-- **The buffer.** For both servers, whatever the stack held before, and for every result of the
read: the terminator is inside the buffer and the text that is printed was received if and only if
the read has returned at least 0 and has not filled the buffer. -/
theorem inside_iff (sv : Server) (pid : ℤ) (stack : ℤ → Byte) (more : ℕ) (r : Read) :
    Inside (handleClient sv pid stack more r) r.data ↔ 0 ≤ r.ret ∧ r.ret < 1024 := by
  constructor
  · exact fun h => ⟨h.index_nonneg, h.index_lt⟩
  · rintro ⟨h0, hlt⟩
    refine ⟨h0, hlt, ?_⟩
    cases r with
    | error => exact absurd h0 (by decide)
    | bytes data fits =>
      refine ⟨cString data, stringAt_terminated stack ?_, List.takeWhile_prefix _⟩
      exact Nat.lt_add_right more (Int.ofNat_lt.mp hlt)

/-- After an error the terminator is stored in front of the buffer, and after a read of 1024 bytes
behind it. -/
theorem ends_leave_buffer :
    (∀ sv pid stack more, ¬ Inside (handleClient sv pid stack more .error) []) ∧
      ∃ r : Read, r.ret = 1024 ∧
        ∀ sv pid stack more, ¬ Inside (handleClient sv pid stack more r) r.data := by
  constructor
  · exact fun sv pid stack more h => absurd h.index_nonneg (show ¬ (0 : ℤ) ≤ -1 by decide)
  · have hret : (Read.bytes (List.replicate 1024 1) List.length_replicate.le).ret = 1024 :=
      congrArg Nat.cast List.length_replicate
    refine ⟨_, hret, fun sv pid stack more h => ?_⟩
    exact absurd (lt_of_eq_of_lt hret.symm h.index_lt) (lt_irrefl _)

end LinuxRiscv32.HandleClient

import LinuxRiscv32.C.HandleClient
import LinuxRiscv32.C.Logger
import LinuxRiscv32.Common.Machine

/-!
# `logger`: from the FIFO to the log

Reference: the loop of `main` in `C/logger.c`.

The loop reads up to 255 bytes into `buf`, stores a NUL behind them, and stores another one over a
line feed at their end. Here `buf` is a memory in which every access is checked against the size of
the array: a turn of the loop that leaves it has no successor. The pieces of a stream may be cut
anywhere.
-/

namespace LinuxRiscv32.Logger

open Common
open EpollServer (Byte bytes cString)
open HandleClient (stringAt)

/-- `sizeof(buf)` -/
def BUF_SIZE : ℕ := 256

/-- What `read(fd, buf, sizeof(buf)-1)` returns: an error, nothing, or bytes. -/
inductive Read where
  | error
  | eof
  | data (m : Received 255)
deriving DecidableEq

/-- `n` -/
def Read.ret : Read → ℤ
  | .error => -1
  | .eof => 0
  | .data m => m.data.length

/-- The bytes that were received. -/
def Read.received : Read → List Byte
  | .error | .eof => []
  | .data m => m.data

/-- A turn of the loop: nothing is ready, or there is a read at the time `tbuf`. -/
inductive Turn where
  | idle
  | read (r : Read) (tbuf : String)
deriving DecidableEq

/-- `buf[i]` -/
def load (buf : ℤ → Byte) (i : ℤ) : Option Byte :=
  if 0 ≤ i ∧ i < BUF_SIZE then some (buf i) else none

/-- `buf[i] = b` -/
def store (buf : ℤ → Byte) (i : ℤ) (b : Byte) : Option (ℤ → Byte) :=
  if 0 ≤ i ∧ i < BUF_SIZE then some (blit buf i [b]) else none

/-- `buf[n] = '\0'; if (buf[n-1] == '\n') buf[n-1] = '\0';` -/
def terminate (buf : ℤ → Byte) (n : ℤ) : Option (ℤ → Byte) := do
  let buf ← store buf n 0
  let c ← load buf (n - 1)
  if c = '\n'.toUInt8 then store buf (n - 1) 0 else some buf

/-- The variables of the loop, the records that were appended to the log, and what was printed. -/
structure Loop where
  buf : ℤ → Byte
  cnt : ℤ
  log : List Record
  stdout : List Byte

/-- A turn of the loop. It is refused if an index leaves `buf`, also one of those that `dprintf` and
`printf` use. -/
def step (s : Loop) : Turn → Option Loop
  | .idle => some s
  | .read r tbuf =>
    let n := r.ret
    let buf := blit s.buf 0 r.received
    if n > 0 then do
      let buf ← terminate buf n
      let text ← stringAt buf BUF_SIZE
      let cnt := s32 (s.cnt + 1)
      some
        { buf := buf
          cnt := cnt
          log := s.log ++ [{ tbuf := tbuf, cnt := cnt, payload := text }]
          stdout := s.stdout ++ (bytes "[LOG] " ++ text) }
    else some { s with buf := buf }

/-- The loop of `logger`. -/
def machine : Machine Loop Turn := ⟨step⟩

/-- Before the first turn. Nothing is known of the array. -/
def init (buf : ℤ → Byte) : Loop := { buf := buf, cnt := 0, log := [], stdout := [] }

/-- The non-empty reads, with their times. -/
def reads (ts : List Turn) : List (String × Received 255) :=
  ts.filterMap fun
    | .read (.data m) tbuf => some (tbuf, m)
    | .idle | .read .error _ | .read .eof _ => none

/-- The pieces in which a stream was delivered. -/
def chunks (ts : List Turn) : List (List Byte) := (reads ts).map fun x => x.2.data

/-! ## One read -/

/-- A store inside the buffer is performed. -/
theorem store_of_lt (buf : ℤ → Byte) {i : ℕ} (h : i < BUF_SIZE) (b : Byte) :
    store buf i b = some (blit buf i [b]) :=
  if_pos ⟨Int.natCast_nonneg i, Int.ofNat_lt.mpr h⟩

/-- A load inside the buffer is performed. -/
theorem load_of_lt (buf : ℤ → Byte) {i : ℕ} (h : i < BUF_SIZE) : load buf i = some (buf i) :=
  if_pos ⟨Int.natCast_nonneg i, Int.ofNat_lt.mpr h⟩

/-- Both indices are inside of `buf`. The second one sees what was there before. -/
theorem terminate_succ (buf : ℤ → Byte) {i : ℕ} (h : i + 1 < BUF_SIZE) :
    terminate buf (i + 1 : ℕ) =
      some (if buf i = '\n'.toUInt8 then blit (blit buf (i + 1 : ℕ) [0]) i [0]
        else blit buf (i + 1 : ℕ) [0]) := by
  have hprev : ((i + 1 : ℕ) : ℤ) - 1 = i := by omega
  have hi : blit buf (i + 1 : ℕ) [0] i = buf i := blit_of_not_mem buf (.inl (by omega))
  simp only [terminate, store_of_lt buf h, load_of_lt _ (Nat.lt_of_succ_lt h), hprev, hi,
    store_of_lt _ (Nat.lt_of_succ_lt h), Option.bind_eq_bind, Option.bind_some]
  split <;> rfl

/-- The string in `buf` behind a read is the payload. -/
theorem terminate_data (buf : ℤ → Byte) (m : Received 255) :
    ∃ buf', terminate (blit buf 0 m.data) m.data.length = some buf' ∧
      stringAt buf' BUF_SIZE = some (payload m) := by
  obtain ⟨data, hne, hfits⟩ := m
  obtain ⟨l, b, rfl⟩ := (List.eq_nil_or_concat' data).resolve_left hne
  have hlength : (l ++ [b]).length = l.length + 1 := List.length_append
  have hfits' : l.length + 1 < BUF_SIZE := hlength ▸ Nat.lt_succ_of_le hfits
  have hlast : blit buf 0 (l ++ [b]) l.length = b := by
    have hread : blit buf 0 (l ++ [b]) (0 + l.length) = (l ++ [b])[l.length] :=
      blit_add buf (by omega)
    rwa [Int.zero_add, List.getElem_concat_length rfl] at hread
  refine ⟨_, (congrArg _ (congrArg _ hlength)).trans (terminate_succ _ hfits'), ?_⟩
  rw [hlast, payload, List.getLast?_concat, List.dropLast_concat]
  by_cases hb : b = '\n'.toUInt8
  · -- the line feed becomes the terminator
    rw [if_pos hb, if_pos (congrArg some hb)]
    refine HandleClient.stringAt_of_slice ?_ (Nat.lt_of_succ_lt hfits')
    rw [← hlength, blit_zero_append, slice_blit buf (by simp), List.append_assoc,
      List.take_left' rfl]
  · rw [if_neg hb, if_neg fun h => hb (Option.some.inj h), ← hlength]
    exact HandleClient.stringAt_terminated buf (hlength ▸ hfits')

/-- A read of data becomes a record, whatever `buf` held before. -/
theorem step_data (s : Loop) (m : Received 255) (tbuf : String) :
    ∃ buf, step s (.read (.data m) tbuf) = some
      { buf := buf
        cnt := s32 (s.cnt + 1)
        log := s.log ++ [record tbuf s.cnt m]
        stdout := s.stdout ++ (bytes "[LOG] " ++ payload m) } := by
  obtain ⟨buf, hterminate, htext⟩ := terminate_data s.buf m
  have hpos : (0 : ℤ) < m.data.length :=
    Int.natCast_pos.mpr (List.length_pos_iff.mpr m.ne_nil)
  refine ⟨buf, ?_⟩
  simp only [step, Read.ret, Read.received, gt_iff_lt, hpos, if_true, hterminate, htext,
    Option.bind_eq_bind, Option.bind_some]
  rfl

/-! ## Whole runs -/

/-- What the reads so far have left. -/
structure Logged (ts : List Turn) (s : Loop) : Prop where
  cnt : s.cnt = s32 (reads ts).length
  log : s.log = (reads ts).mapIdx fun k x => record x.1 (s32 k) x.2
  stdout : s.stdout = (reads ts).flatMap fun x => bytes "[LOG] " ++ payload x.2

/-- No turn is refused. -/
theorem Logged.step {ts : List Turn} {s : Loop} (hs : Logged ts s) (t : Turn) :
    ∃ s', step s t = some s' ∧ Logged (ts ++ [t]) s' := by
  have hreads : reads (ts ++ [t]) = reads ts ++ reads [t] := List.filterMap_append
  have hskip (hnil : reads [t] = []) {s' : Loop} (hcnt : s'.cnt = s.cnt) (hlog : s'.log = s.log)
      (hstdout : s'.stdout = s.stdout) : Logged (ts ++ [t]) s' := by
    rw [hnil, List.append_nil] at hreads
    exact ⟨by rw [hcnt, hreads, hs.cnt], by rw [hlog, hreads, hs.log],
      by rw [hstdout, hreads, hs.stdout]⟩
  cases t with
  | idle => exact ⟨s, rfl, hskip rfl rfl rfl rfl⟩
  | read r tbuf =>
    cases r with
    | error | eof => exact ⟨_, rfl, hskip rfl rfl rfl rfl⟩
    | data m =>
      obtain ⟨buf, hstep⟩ := step_data s m tbuf
      have hreads : reads (ts ++ [.read (.data m) tbuf]) = reads ts ++ [(tbuf, m)] := hreads
      refine ⟨_, hstep, ?_, ?_, ?_⟩
      · rw [hreads, hs.cnt, s32_succ, List.length_append, List.length_singleton]
      · rw [hreads, List.mapIdx_concat, hs.log, hs.cnt]
      · rw [hreads, List.flatMap_append, List.flatMap_singleton, hs.stdout]

/-- Every sequence of turns is performed, and its records are those of the reads. -/
theorem exists_logged (buf : ℤ → Byte) (ts : List Turn) :
    ∃ s, machine.run (init buf) ts = some s ∧ Logged ts s :=
  Machine.exists_run (fun _ _ t hs => hs.step t) ⟨rfl, rfl, rfl⟩ ts

/-! ## A stream without NUL -/

/-- A piece, but for one line feed at its end at most. -/
def Stripped (text data : List Byte) : Prop :=
  text = data ∨ text ++ ['\n'.toUInt8] = data

/-- Without a NUL byte, a record has what was read but a last newline. -/
theorem stripped_payload {m : Received 255} (h : 0 ∉ m.data) : Stripped (payload m) m.data := by
  unfold payload
  split
  next hlast =>
    obtain ⟨l, hl⟩ := List.getLast?_eq_some_iff.mp hlast
    rw [hl, List.mem_append, not_or] at h
    rw [hl, List.dropLast_concat, EpollServer.cString_eq_self h.1]
    exact .inr rfl
  next => exact .inl (EpollServer.cString_eq_self h)

/-- A line feed at the end does not count. -/
theorem Stripped.filter_eq {text data : List Byte} (h : Stripped text data) :
    text.filter (· ≠ '\n'.toUInt8) = data.filter (· ≠ '\n'.toUInt8) := by
  rcases h with rfl | rfl
  · rfl
  · simp

theorem forall₂_stripped {xs : List (String × Received 255)}
    (h : 0 ∉ (xs.map fun x => x.2.data).flatten) :
    List.Forall₂ Stripped (xs.map fun x => payload x.2) (xs.map fun x => x.2.data) := by
  rw [List.forall₂_map_left_iff, List.forall₂_map_right_iff, List.forall₂_same]
  intro x hx
  exact stripped_payload fun h0 => h (List.mem_flatten.mpr ⟨_, List.mem_map_of_mem hx, h0⟩)

/-- Stripped texts hold all bytes but newlines. -/
theorem flatten_filter_eq {texts data : List (List Byte)} (h : List.Forall₂ Stripped texts data) :
    texts.flatten.filter (· ≠ '\n'.toUInt8) = data.flatten.filter (· ≠ '\n'.toUInt8) := by
  induction h with
  | nil => rfl
  | cons h _ ih =>
    rw [List.flatten_cons, List.flatten_cons, List.filter_append, List.filter_append, h.filter_eq,
      ih]

theorem zero_notMem_logText (m : EpollServer.Received) : 0 ∉ EpollServer.logText m := by
  have hword (text : List Byte) (h : 0 ∉ text) : 0 ∉ text ++ cString m.payload := by
    rw [List.mem_append, not_or]
    exact ⟨h, EpollServer.zero_notMem_cString m.payload⟩
  unfold EpollServer.logText
  cases EpollServer.command m.cmd with
  | payment => exact hword (bytes "PAYING ") (by decide)
  | log => exact hword (bytes "LOGGING ") (by decide)
  | health | unknown => exact List.not_mem_nil

/-- What `epoll_server` prints into its log has no NUL in it. -/
theorem zero_notMem_logger (es : List EpollServer.Input) :
    0 ∉ EpollServer.bytesTo .logger (es.flatMap EpollServer.Input.writes) := by
  have hwrites : ∀ e : EpollServer.Input, 0 ∉ EpollServer.bytesTo .logger e.writes := by
    intro e
    cases e with
    | connect | hangup => decide
    | data m =>
      have hserve : EpollServer.bytesTo .logger (EpollServer.serve [m]) = EpollServer.logText m :=
        (EpollServer.bytesTo_logger [m]).trans (List.append_nil _)
      rw [EpollServer.serve, List.flatMap_singleton] at hserve
      exact hserve ▸ zero_notMem_logText m
  rw [EpollServer.bytesTo, EpollServer.bytesWhere, List.filter_flatMap, List.flatMap_assoc]
  intro h0
  obtain ⟨e, -, he⟩ := List.mem_flatMap.mp h0
  exact hwrites e he

section Log

variable {ts : List Turn} {s : Loop}

/-- The payloads of the records are those of the reads. -/
theorem Logged.payloads (hs : Logged ts s) :
    s.log.map Record.payload = (reads ts).map fun x => payload x.2 := by
  rw [hs.log, List.mapIdx_eq_zipIdx_map, List.map_map]
  conv_rhs => rw [← List.zipIdx_map_fst 0 (reads ts), List.map_map]
  rfl

/-- The records are numbered from 1 on. -/
theorem Logged.numbers (hs : Logged ts s) :
    s.log.map Record.cnt = (List.range (chunks ts).length).map fun k => s32 (k + 1 : ℕ) := by
  rw [hs.log, List.mapIdx_eq_zipIdx_map, List.map_map, chunks, List.length_map,
    List.range_eq_range', ← List.zipIdx_map_snd, List.map_map]
  simp only [Function.comp_def, record, s32_succ]

end Log

/-- **Nothing is lost or reordered.** What `epoll_server` prints into its log has no NUL in it.
Whatever `buf` holds at first and however a stream without NUL is cut into reads, also with turns
and reads that return nothing in between: every index is inside of `buf`, each read becomes one
record, with its bytes but for a line feed at their end, the records are numbered from 1 on, and
apart from line feeds the payloads are the stream. -/
theorem log_of_stream (buf : ℤ → Byte) {stream : List Byte} (hnul : 0 ∉ stream) {ts : List Turn}
    (hts : (chunks ts).flatten = stream) :
    (∀ es : List EpollServer.Input,
      0 ∉ EpollServer.bytesTo .logger (es.flatMap EpollServer.Input.writes)) ∧
    ∃ s, machine.run (init buf) ts = some s ∧
      List.Forall₂ Stripped (s.log.map Record.payload) (chunks ts) ∧
      s.log.map Record.cnt = (List.range (chunks ts).length).map (fun k => s32 (k + 1 : ℕ)) ∧
      ((chunks ts).length < 2 ^ 31 →
        s.log.map Record.cnt = (List.range (chunks ts).length).map fun k : ℕ => (k + 1 : ℤ)) ∧
      (s.log.map Record.payload).flatten.filter (· ≠ '\n'.toUInt8) =
        stream.filter (· ≠ '\n'.toUInt8) := by
  subst hts
  obtain ⟨s, hrun, hs⟩ := exists_logged buf ts
  have hstripped : List.Forall₂ Stripped (s.log.map Record.payload) (chunks ts) :=
    hs.payloads ▸ forall₂_stripped hnul
  refine ⟨zero_notMem_logger, s, hrun, hstripped, hs.numbers, fun hlength => ?_,
    flatten_filter_eq hstripped⟩
  rw [hs.numbers]
  refine List.map_congr_left fun k hk => ?_
  rw [List.mem_range] at hk
  exact (s32_of_range (by omega) (by omega)).trans (Nat.cast_succ k)

/-- A line in two pieces, a line feed alone, and turns without data. -/
def threeReads : List Turn :=
  [.idle, .read (.data ⟨bytes "PAYING ", by decide, by decide⟩) "12:00", .read .error "12:00",
    .read (.data ⟨bytes "a\nb\n", by decide, by decide⟩) "12:01", .read .eof "12:01",
    .read (.data ⟨bytes "\n", by decide, by decide⟩) "12:02"]

theorem log_of_threeReads :
    (∀ es : List EpollServer.Input,
      0 ∉ EpollServer.bytesTo .logger (es.flatMap EpollServer.Input.writes)) ∧
    ∃ s, machine.run (init fun _ => 7) threeReads = some s ∧
      List.Forall₂ Stripped (s.log.map Record.payload) (chunks threeReads) ∧
      s.log.map Record.cnt = (List.range 3).map (fun k => s32 (k + 1 : ℕ)) ∧
      ((3 : ℕ) < 2 ^ 31 → s.log.map Record.cnt = (List.range 3).map fun k : ℕ => (k + 1 : ℤ)) ∧
      (s.log.map Record.payload).flatten.filter (· ≠ '\n'.toUInt8) =
        (bytes "PAYING a\nb\n\n").filter (· ≠ '\n'.toUInt8) :=
  log_of_stream (fun _ => 7) (by decide) (by decide)

end LinuxRiscv32.Logger

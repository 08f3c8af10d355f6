import LinuxRiscv32.C.Logger

/-!
# `health`: words in a stream

Reference: `C/health.c`.

The loop of `main` handles the expirations of a timer and the reads from one client. A read is
searched for the words `STOP` and `START`, `STOP` first, and whichever is found decides whether the
checks are running. The words may stand anywhere in front of the first NUL. Nothing is kept from one
read to the next one.
-/

namespace LinuxRiscv32.Health

open EpollServer (Byte bytes cString)
open Logger (Received)

/-- `strstr(haystack, needle) != NULL`. -/
def strstr (haystack needle : List Byte) : Bool := needle <:+: cString haystack

inductive Command where
  | stop
  | start
deriving DecidableEq, Repr

def Command.word : Command → List Byte
  | .stop => bytes "STOP"
  | .start => bytes "START"

/-- The branch that a read leads to. -/
def command (m : Received 127) : Option Command :=
  if strstr m.data (Command.word .stop) then some .stop
  else if strstr m.data (Command.word .start) then some .start
  else none

/-- `running` after a command. -/
def Command.running : Command → ℤ
  | .stop => 0
  | .start => 1

/-- A `struct timespec`. -/
structure Timespec where
  sec : ℤ
  nsec : ℤ
deriving DecidableEq, Repr

/-- The lines of the log. `tbuf` is the local time of the batch. -/
inductive Line where
  | check (tbuf : String) (sec msec : ℤ)
  | waited (tbuf : String) (delayMs : ℤ)
  | stopped (tbuf : String)
  | started (tbuf : String)
deriving DecidableEq, Repr

/-- The text of `%03ld`. -/
def pad3 (n : ℤ) : String :=
  let digits := toString n
  "".pushn '0' (3 - digits.length) ++ digits

/-- What an LP64 build writes, where `%ld` fits a `time_t`. On RV32 a `time_t` has 64 bits and a
`long` has 32, so there the text of a check is not defined. -/
def Line.text : Line → String
  | .check tbuf sec msec =>
    let msec := pad3 msec
    s!"{tbuf} [HEALTH] Health check {sec}.{msec}s\n"
  | .waited tbuf delayMs => s!"{tbuf} [HEALTH] health check（待ち時間: {delayMs} ms）\n"
  | .stopped tbuf => s!"{tbuf} [HEALTH] health stopped\n"
  | .started tbuf => s!"{tbuf} [HEALTH] health started\n"

/-- `delay_ms`, from the time before `pi_sem_wait` to the time after the first line. -/
def delayMs (t1 t2 : Timespec) : ℤ :=
  Common.s32 ((t2.sec - t1.sec) * 1000 + (t2.nsec - t1.nsec).tdiv 1000000)

/-- The lines for an expiration of the timer while the checks are running. -/
def timerLines (tbuf : String) (t1 t2 : Timespec) : List Line :=
  Line.check tbuf (t1.sec.tmod 1000) (t1.nsec.tdiv 1000000) ::
    if delayMs t1 t2 > 10 then [Line.waited tbuf (delayMs t1 t2)] else []

/-- The line for a command. -/
def Command.line (tbuf : String) : Command → Line
  | .stop => .stopped tbuf
  | .start => .started tbuf

/-- An event of a batch, with what the calls in its branch return; `none` is a `read` of nothing or
an error. -/
inductive Event where
  | timer (tbuf : String) (t1 t2 : Timespec)
  | client (tbuf : String) (read : Option (Received 127))
deriving DecidableEq

/-- The global variable `running`, and the lines that were appended to the log. -/
structure Loop where
  running : ℤ
  log : List Line
deriving DecidableEq

/-- One turn of the `for` loop. -/
def Loop.handle (s : Loop) : Event → Loop
  | .timer tbuf t1 t2 =>
    if s.running ≠ 0 then { s with log := s.log ++ timerLines tbuf t1 t2 } else s
  | .client _ none => s
  | .client tbuf (some m) =>
    match command m with
    | some c => { running := c.running, log := s.log ++ [c.line tbuf] }
    | none => s

/-- The events of all batches, one after the other. -/
def run (es : List Event) : Loop := es.foldl Loop.handle { running := 0, log := [] }

/-- The reads of data from the client. -/
def reads (es : List Event) : List (Received 127) :=
  es.filterMap fun
    | .timer _ _ _ => none
    | .client _ read => read

/-- Commands as they are sent, each with a separator behind it. -/
def text (sep : List Byte) (cs : List Command) : List Byte := cs.flatMap fun c => c.word ++ sep

/-- The command `START` is cut in two, and none of the pieces is recognised. -/
theorem cut_start_breaks_follows :
    ¬ ∀ (sep : List Byte) (cs : List Command) (es : List Event),
      (reads es).flatMap Received.data = text sep cs →
        ((run es).running = 1 ↔ cs.getLast? = some .start) := by
  intro h
  have hrun := h [] [.start] [.client "" (some ⟨bytes "STA", by decide, by decide⟩),
    .client "" (some ⟨bytes "RT", by decide, by decide⟩)] (by decide)
  exact absurd (hrun.mpr (by decide)) (by decide)

/-! ## The last read with a word in it -/

/-- The words that the reads were searched for with success. -/
def found (es : List Event) : List Command := (reads es).filterMap command

/-- The commands are found read by read. -/
theorem found_concat (es : List Event) (e : Event) : found (es ++ [e]) = found es ++ found [e] := by
  rw [found, reads, List.filterMap_append, List.filterMap_append]
  rfl

theorem found_client (tbuf : String) (m : Received 127) :
    found [.client tbuf (some m)] = (command m).toList := by
  show [m].filterMap command = _
  rw [List.filterMap_cons, List.filterMap_nil]
  cases command m <;> rfl

/-- A turn of the loop sets `running` if it finds a word. -/
theorem handle_running (s : Loop) (e : Event) :
    (s.handle e).running = ((found [e]).getLast?.map Command.running).getD s.running := by
  cases e with
  | timer tbuf t1 t2 =>
    show (if s.running ≠ 0 then _ else s).running = s.running
    split <;> rfl
  | client tbuf read =>
    cases read with
    | none => rfl
    | some m =>
      rw [found_client, Loop.handle]
      cases command m <;> rfl

/-- After a run, `running` is what the last word made of it. -/
theorem running_run (es : List Event) :
    (run es).running = ((found es).getLast?.map Command.running).getD 0 := by
  induction es using List.reverseRecOn with
  | nil => rfl
  | append_singleton es e ih =>
    rw [run, List.foldl_concat, handle_running, found_concat, List.getLast?_append]
    cases (found [e]).getLast? with
    | none => exact ih
    | some c => rfl

/-- The checks run exactly if the last command found is a `START`. -/
theorem running_eq_one_iff (es : List Event) :
    (run es).running = 1 ↔ (found es).getLast? = some .start := by
  rw [running_run]
  cases (found es).getLast? with
  | none => decide
  | some c => cases c <;> decide

/-! ## Whole commands -/

/-- A separator that cannot be taken for a part of a word. -/
structure Separator (sep : List Byte) : Prop where
  nul : 0 ∉ sep
  stop : 'O'.toUInt8 ∉ sep
  start : 'A'.toUInt8 ∉ sep

/-- A letter that only the word of `c` has. -/
def Command.mark : Command → Byte
  | .stop => 'O'.toUInt8
  | .start => 'A'.toUInt8

section Text

variable {sep : List Byte} {cs : List Command}

/-- Each command has a letter that the other one does not have. -/
theorem mem_word_iff {c c' : Command} : c.mark ∈ c'.word ↔ c' = c := by
  cases c <;> cases c' <;> decide

theorem Separator.mark_notMem (h : Separator sep) (c : Command) : c.mark ∉ sep := by
  cases c with
  | stop => exact h.stop
  | start => exact h.start

/-- No byte of the text ends the string. -/
theorem cString_text (h : Separator sep) : cString (text sep cs) = text sep cs := by
  refine EpollServer.cString_eq_self fun hb => ?_
  obtain ⟨c, -, hb⟩ := List.mem_flatMap.mp hb
  rcases List.mem_append.mp hb with hb | hb
  · cases c <;> exact absurd hb (by decide)
  · exact h.nul hb

/-- A word is found in the text exactly if it is one of the commands. -/
theorem strstr_text (h : Separator sep) (c : Command) : strstr (text sep cs) c.word ↔ c ∈ cs := by
  rw [strstr, cString_text h, decide_eq_true_eq]
  constructor
  · intro hword
    have hmark : c.mark ∈ text sep cs := hword.subset (mem_word_iff.mpr rfl)
    obtain ⟨c', hc', hb⟩ := List.mem_flatMap.mp hmark
    rcases List.mem_append.mp hb with hb | hb
    · rwa [← mem_word_iff.mp hb]
    · exact absurd hb (h.mark_notMem c)
  · intro hc
    have hin : c.word ++ sep <:+: text sep cs := by
      rw [text, List.flatMap_def]
      exact List.infix_of_mem_flatten (List.mem_map_of_mem hc)
    exact (List.prefix_append _ _).isInfix.trans hin

theorem ne_nil_of_data {m : Received 127} (hm : m.data = text sep cs) : cs ≠ [] := by
  rintro rfl
  exact m.ne_nil hm

/-- A sequence without a `STOP` is one of `START`s only. -/
theorem forall_start_iff : (∀ c ∈ cs, c = .start) ↔ Command.stop ∉ cs := by
  refine ⟨fun hall hstop => absurd (hall _ hstop) Command.noConfusion, fun hstop c hc => ?_⟩
  cases c with
  | stop => exact absurd hc hstop
  | start => rfl

/-- A read of whole commands is `START` if all of them are, and `STOP` otherwise. -/
theorem command_text (h : Separator sep) {m : Received 127} (hm : m.data = text sep cs) :
    command m = some (if ∀ c ∈ cs, c = .start then .start else .stop) := by
  unfold command
  simp only [hm, strstr_text h]
  by_cases hstop : Command.stop ∈ cs
  · rw [if_pos hstop, if_neg fun hall => forall_start_iff.mp hall hstop]
  · -- without a `STOP`, the first command is a `START`
    have hall := forall_start_iff.mpr hstop
    obtain ⟨c, hc⟩ := List.exists_mem_of_ne_nil cs (ne_nil_of_data hm)
    rw [if_neg hstop, if_pos (hall c hc ▸ hc), if_pos hall]

/-- Reads of whole commands, and the last one of them. -/
theorem reads_cases {es : List Event} {css : List (List Command)}
    (hreads : (reads es).map Received.data = css.map (text sep)) :
    (css = [] ∧ found es = []) ∨
      ∃ css' cs ms m, css = css' ++ [cs] ∧ reads es = ms ++ [m] ∧ m.data = text sep cs := by
  rcases List.eq_nil_or_concat' css with rfl | ⟨css, cs, rfl⟩
  · rw [List.map_nil, List.map_eq_nil_iff] at hreads
    exact .inl ⟨rfl, by rw [found, hreads, List.filterMap_nil]⟩
  · rw [List.map_append, List.map_singleton] at hreads
    obtain ⟨ms, ms', hms, -, hms'⟩ := List.map_eq_append_iff.mp hreads
    obtain ⟨m, rfl, hm⟩ := List.map_eq_singleton_iff.mp hms'
    exact .inr ⟨css, cs, ms, m, rfl, hms, hm⟩

/-- If each read is a text of whole commands, the last one decides. -/
theorem running_eq_one_iff_text (h : Separator sep) {es : List Event} {css : List (List Command)}
    (hreads : (reads es).map Received.data = css.map (text sep)) :
    (run es).running = 1 ↔ ∃ cs, css.getLast? = some cs ∧ ∀ c ∈ cs, c = .start := by
  rw [running_eq_one_iff]
  rcases reads_cases hreads with ⟨rfl, hfound⟩ | ⟨css, cs, ms, m, rfl, hms, hm⟩
  · simp [hfound]
  · rw [found, hms, List.filterMap_append, List.getLast?_append, List.getLast?_concat,
      List.filterMap_cons, command_text h hm]
    simp

/-- The last command is followed unless it is a `START` in one read with a `STOP`. -/
theorem follows_iff (h : Separator sep) {es : List Event} {css : List (List Command)}
    (hreads : (reads es).map Received.data = css.map (text sep)) :
    ((run es).running = 1 ↔ css.flatten.getLast? = some .start) ↔
      ¬ ∃ cs, css.getLast? = some cs ∧ .stop ∈ cs ∧ cs.getLast? = some .start := by
  rw [running_eq_one_iff_text h hreads]
  rcases reads_cases hreads with ⟨rfl, -⟩ | ⟨css, cs, ms, m, rfl, -, hm⟩
  · simp
  · -- the last command of the stream is the last one of the last read
    obtain ⟨cs, c, rfl⟩ := (List.eq_nil_or_concat' cs).resolve_left (ne_nil_of_data hm)
    have hlast : (css ++ [cs ++ [c]]).flatten.getLast? = some c := by
      rw [List.flatten_concat, ← List.append_assoc, List.getLast?_concat]
    simp only [hlast, List.getLast?_concat, Option.some.injEq, exists_eq_left', forall_start_iff,
      List.mem_append, List.mem_singleton]
    cases c <;> simp

end Text

/-! ## Whole runs -/

/-- **One read, one word.** In every run, `running` is 1 exactly if the last word that a read was
found to contain is `START`, where `STOP` is looked for first. If no read begins or ends within a
command, it is 1 exactly if all commands of the last read are `START`; so it follows the last
command exactly if the last read does not end with a `START` behind a `STOP`. -/
theorem running_of_reads (es : List Event) :
    ((run es).running = 1 ↔ (found es).getLast? = some .start) ∧
    ((run es).running = 0 ∨ (run es).running = 1) ∧
    ∀ sep, Separator sep → ∀ css : List (List Command),
      (reads es).map Received.data = css.map (text sep) →
        ((run es).running = 1 ↔ ∃ cs, css.getLast? = some cs ∧ ∀ c ∈ cs, c = .start) ∧
        (((run es).running = 1 ↔ css.flatten.getLast? = some .start) ↔
          ¬ ∃ cs, css.getLast? = some cs ∧ .stop ∈ cs ∧ cs.getLast? = some .start) := by
  refine ⟨running_eq_one_iff es, ?_, fun sep hsep css hreads => ?_⟩
  · rw [running_run]
    cases (found es).getLast? with
    | none => exact .inl rfl
    | some c => cases c <;> decide
  · exact ⟨running_eq_one_iff_text hsep hreads, follows_iff hsep hreads⟩

/-- Both commands and a line feed in one read, an expiration, and `START` in the next read. -/
def twoReads : List Event :=
  [.client "" (some ⟨bytes "START\nSTOP\n", by decide, by decide⟩), .timer "" ⟨0, 0⟩ ⟨0, 0⟩,
    .client "" (some ⟨bytes "START\n", by decide, by decide⟩)]

theorem running_twoReads :
    (run twoReads).running = 1 ↔
      [[Command.start, .stop], [.start]].flatten.getLast? = some .start :=
  ((running_of_reads twoReads).2.2 (bytes "\n") ⟨by decide, by decide, by decide⟩
    [[.start, .stop], [.start]] (by decide)).2.mpr (by simp)

end LinuxRiscv32.Health

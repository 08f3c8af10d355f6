import LinuxRiscv32.C.EpollServer
import LinuxRiscv32.Common.Machine

/-!
# Forwarding two streams

Reference: `C/select.c`.

The program opens a FIFO for reading, then for writing, so that the FIFO never comes to an end when
other writers leave, and forwards what `select` finds on the standard input and on the FIFO. Bytes
arrive and writers come and go at any time.

`forwarded_of_run` is about every run: nothing is lost or comes out of order before the text of a
chunk is cut at its first NUL, the two branches for a FIFO without data are never taken, and the
program is only ever blocked in `select`, with nothing to read.
-/

namespace LinuxRiscv32.Select

open Common
open EpollServer (Byte cString)

inductive Source where
  | stdin
  | fifo
deriving DecidableEq, Repr

inductive End where
  /-- The standard input is at its end. -/
  | eof
  /-- A call has failed. -/
  | failed
deriving DecidableEq, Repr

inductive Pc where
  | openRd
  | openWr
  | select
  /-- `read` of a stream that is set in `readfds`; if `next`, the FIFO is set as well. -/
  | read (src : Source) (next : Bool)
  | ended (why : End)
deriving DecidableEq, Repr

/-- `rd` and `wr`: the descriptors `fifo_rd` and `fifo_wr` are open. `writers` counts the other
processes that have the FIFO open for writing, and `arrived` is all that has come. -/
structure State where
  pc : Pc
  rd : Bool
  wr : Bool
  writers : ℕ
  closed : Bool
  arrived : Source → List Byte
  pending : Source → List Byte
  taken : List (Source × List Byte)

def init : State where
  pc := .openRd
  rd := false
  wr := false
  writers := 0
  closed := false
  arrived := fun _ => []
  pending := fun _ => []
  taken := []

inductive Event where
  | arrive (src : Source) (bs : List Byte)
  /-- The standard input is closed. -/
  | close
  | writerOpens
  | writerCloses
  | openRd
  | openWr
  /-- `select` returns. -/
  | select
  /-- `select` returns `-1` with `EINTR`. -/
  | interrupted
  /-- `read` returns `n`, but for `0`. -/
  | take (n : ℕ)
  | zero
  /-- `read` returns `-1` with `EAGAIN`. -/
  | again
  /-- Any other failure of a call. -/
  | fail
deriving DecidableEq, Repr

namespace State

variable (s : State)

/-- Nothing more will come, as long as nobody opens the FIFO. -/
def AtEnd : Source → Prop
  | .stdin => s.closed
  | .fifo => s.writers = 0 ∧ s.wr = false

instance : ∀ src, Decidable (s.AtEnd src)
  | .stdin => inferInstanceAs (Decidable (s.closed = true))
  | .fifo => inferInstanceAs (Decidable (_ ∧ _))

/-- A `read` would not block. -/
def Readable (src : Source) : Prop := s.pending src ≠ [] ∨ s.AtEnd src

instance (src : Source) : Decidable (s.Readable src) :=
  inferInstanceAs (Decidable (¬ s.pending src = [] ∨ _))

/-- The calls behind the loop. -/
def leave (why : End) : State := { s with pc := .ended why, rd := false, wr := false }

end State

/-- `sizeof(buf) - 1` -/
def COUNT : ℕ := 255

def step (s : State) : Event → Option State
  | .arrive src bs =>
    if (src = .stdin → s.closed = false) ∧ (src = .fifo → 0 < s.writers) then
      some { s with
        arrived := Function.update s.arrived src (s.arrived src ++ bs)
        pending := Function.update s.pending src (s.pending src ++ bs) }
    else none
  | .close => if s.closed = false then some { s with closed := true } else none
  | .writerOpens => if s.rd then some { s with writers := s.writers + 1 } else none
  | .writerCloses => if 0 < s.writers then some { s with writers := s.writers - 1 } else none
  | .openRd => if s.pc = .openRd then some { s with pc := .openWr, rd := true } else none
  | .openWr =>
    if s.pc = .openWr then
      -- without a reader `open` fails with `ENXIO`
      if s.rd then some { s with pc := .select, wr := true } else some (s.leave .failed)
    else none
  | .select =>
    if s.pc = .select ∧ (s.Readable .stdin ∨ s.Readable .fifo) then
      some { s with
        pc := if s.Readable .stdin then .read .stdin (s.Readable .fifo) else .read .fifo false }
    else none
  | .interrupted => if s.pc = .select then some s else none
  | .take n =>
    match s.pc with
    | .read src next =>
      if 0 < n ∧ n ≤ COUNT ∧ n ≤ (s.pending src).length then
        some { s with
          pc := if next then .read .fifo false else .select
          pending := Function.update s.pending src ((s.pending src).drop n)
          taken := s.taken ++ [(src, (s.pending src).take n)] }
      else none
    | .openRd | .openWr | .select | .ended _ => none
  | .zero =>
    match s.pc with
    | .read .stdin _ =>
      if s.pending .stdin = [] ∧ s.AtEnd .stdin then some (s.leave .eof) else none
    | .read .fifo _ =>
      if s.pending .fifo = [] ∧ s.AtEnd .fifo then some { s with pc := .select } else none
    | .openRd | .openWr | .select | .ended _ => none
  | .again =>
    match s.pc with
    | .read .fifo _ => if ¬ s.Readable .fifo then some { s with pc := .select } else none
    | .openRd | .openWr | .select | .read .stdin _ | .ended _ => none
  | .fail =>
    match s.pc with
    | .openRd | .openWr | .select | .read _ _ => some (s.leave .failed)
    | .ended _ => none

def machine : Machine State Event := ⟨step⟩

/-- What is printed for a chunk: the tag, and `%s` of the buffer behind the chunk. -/
def message : Source × List Byte → String × List Byte
  | (.stdin, chunk) => ("[標準入力] ", cString chunk)
  | (.fifo, chunk) => ("[FIFO] ", cString chunk)

/-- The chunks of a stream. -/
def chunks (taken : List (Source × List Byte)) (src : Source) : List (List Byte) :=
  (taken.filter fun m => m.1 = src).map Prod.snd

/-- The texts that are printed for a stream. -/
def texts (taken : List (Source × List Byte)) (src : Source) : List (List Byte) :=
  ((taken.filter fun m => m.1 = src).map message).map Prod.snd

/-! ## Bytes -/

section Bytes

variable {s t : State} {e : Event}

theorem chunks_concat (taken : List (Source × List Byte)) (m : Source × List Byte) (src : Source) :
    chunks (taken ++ [m]) src = chunks taken src ++ if m.1 = src then [m.2] else [] := by
  rw [chunks, chunks, List.filter_append, List.map_append]
  by_cases h : m.1 = src <;> simp [h]

/-- What has come of a stream is what was taken, in order, and what is there. -/
structure Kept (s : State) : Prop where
  bytes : ∀ src, s.arrived src = (chunks s.taken src).flatten ++ s.pending src
  sizes : ∀ m ∈ s.taken, m.2 ≠ [] ∧ m.2.length ≤ COUNT

/-- Nothing has arrived at first. -/
theorem kept_init : Kept init := ⟨fun _ => rfl, fun _ h => absurd h List.not_mem_nil⟩

/-- What arrives is pending. -/
theorem Kept.arrive (hs : Kept s) (src : Source) (bs : List Byte) :
    Kept { s with
      arrived := Function.update s.arrived src (s.arrived src ++ bs)
      pending := Function.update s.pending src (s.pending src ++ bs) } := by
  refine ⟨fun src' => ?_, hs.sizes⟩
  by_cases h : src' = src
  · subst h
    simp only [Function.update_self]
    rw [hs.bytes, List.append_assoc]
  · simp only [Function.update_of_ne h]
    exact hs.bytes src'

/-- What is taken is no longer pending. -/
theorem Kept.take (hs : Kept s) {src : Source} {n : ℕ} (hn : 0 < n) (hcount : n ≤ COUNT)
    (hle : n ≤ (s.pending src).length) (pc : Pc) :
    Kept { s with
      pc := pc
      pending := Function.update s.pending src ((s.pending src).drop n)
      taken := s.taken ++ [(src, (s.pending src).take n)] } := by
  refine ⟨fun src' => ?_, fun m hm => ?_⟩
  · dsimp only
    rw [chunks_concat]
    by_cases h : src = src'
    · subst h
      -- the chunk moves from what is pending to what was taken
      rw [if_pos rfl, Function.update_self, List.flatten_append, List.flatten_singleton,
        List.append_assoc, List.take_append_drop]
      exact hs.bytes src
    · rw [if_neg h, Function.update_of_ne (Ne.symm h), List.append_nil]
      exact hs.bytes src'
  · obtain hm | hm := List.mem_append.mp hm
    · exact hs.sizes m hm
    · rw [List.mem_singleton.mp hm]
      have hlen : ((s.pending src).take n).length = n := List.length_take_of_le hle
      refine ⟨fun h => ?_, hlen.le.trans hcount⟩
      dsimp only at h
      rw [h, List.length_nil] at hlen
      omega

/-! ## Where the program is -/

/-- There is something to read, apart from the end of the FIFO. -/
def Ready (s : State) : Source → Prop
  | .stdin => s.pending .stdin ≠ [] ∨ s.closed
  | .fifo => s.pending .fifo ≠ []

/-- What holds where the program is. -/
def Control (s : State) : Pc → Prop
  | .openRd | .ended .failed => True
  | .openWr => s.rd
  | .select => s.wr
  | .read src next => s.wr ∧ Ready s src ∧ (next → src = .stdin ∧ Ready s .fifo)
  | .ended .eof => s.closed ∧ s.pending .stdin = []

/-- As long as the program has the FIFO open for writing, it is not at its end. -/
theorem readable_iff_ready (hwr : s.wr) (src : Source) : s.Readable src ↔ Ready s src := by
  cases src with
  | stdin => rfl
  | fifo => simp [State.Readable, State.AtEnd, Ready, hwr]

/-- Something arrives, or somebody comes or goes. -/
theorem Control.mono {pc : Pc} (hs : Control s pc) (hrd : t.rd = s.rd) (hwr : t.wr = s.wr)
    (hclosed : s.closed → t.closed) (hpending : ∀ src, s.pending src ≠ [] → t.pending src ≠ [])
    (hstdin : s.closed → t.pending .stdin = s.pending .stdin) : Control t pc := by
  have hready : ∀ src, Ready s src → Ready t src := fun src h => by
    cases src with
    | stdin => exact h.imp (hpending _) hclosed
    | fifo => exact hpending _ h
  cases pc with
  | openRd => trivial
  | openWr => exact hrd.trans hs
  | select => exact hwr.trans hs
  | read src next =>
    exact ⟨hwr.trans hs.1, hready _ hs.2.1, fun h => ⟨(hs.2.2 h).1, hready _ (hs.2.2 h).2⟩⟩
  | ended why =>
    cases why with
    | failed => trivial
    | eof => exact ⟨hclosed hs.1, (hstdin hs.1).trans hs.2⟩

structure Inv (s : State) : Prop where
  kept : Kept s
  control : Control s s.pc

/-- Nothing is open at first. -/
theorem inv_init : Inv init := ⟨kept_init, trivial⟩

/-- An arrival takes nothing away from what can be read. -/
theorem Inv.arrive (hs : Inv s) {src : Source} (hstdin : src = .stdin → s.closed = false)
    (bs : List Byte) :
    Inv { s with
      arrived := Function.update s.arrived src (s.arrived src ++ bs)
      pending := Function.update s.pending src (s.pending src ++ bs) } := by
  refine ⟨hs.kept.arrive src bs, hs.control.mono rfl rfl id (fun src' hne => ?_) fun hclosed => ?_⟩
  · dsimp only
    by_cases hsrc : src' = src
    · subst hsrc
      rw [Function.update_self]
      exact fun h => hne (List.append_eq_nil_iff.mp h).1
    · rwa [Function.update_of_ne hsrc]
  · -- behind its end nothing comes from the standard input
    dsimp only
    rw [Function.update_of_ne]
    rintro rfl
    rw [hstdin rfl] at hclosed
    cases hclosed

/-- `select` returns streams with something to read. -/
theorem Inv.select (hs : Inv s) (hpc : s.pc = .select)
    (hready : s.Readable .stdin ∨ s.Readable .fifo) :
    Inv { s with
      pc := if s.Readable .stdin then .read .stdin (s.Readable .fifo) else .read .fifo false } := by
  have hwr : s.wr = true := by
    have hcontrol := hs.control
    rwa [hpc] at hcontrol
  refine ⟨⟨hs.kept.bytes, hs.kept.sizes⟩, ?_⟩
  dsimp only
  split
  · exact ⟨hwr, (readable_iff_ready hwr .stdin).mp ‹_›, fun hnext =>
      ⟨rfl, (readable_iff_ready hwr .fifo).mp (of_decide_eq_true hnext)⟩⟩
  · exact ⟨hwr, (readable_iff_ready hwr .fifo).mp (hready.resolve_left ‹_›),
      fun h => absurd h Bool.false_ne_true⟩

/-- A read takes from a stream that has something. -/
theorem Inv.take (hs : Inv s) {src : Source} {next : Bool} {n : ℕ} (hpc : s.pc = .read src next)
    (hn : 0 < n) (hcount : n ≤ COUNT) (hle : n ≤ (s.pending src).length) :
    Inv { s with
      pc := if next then .read .fifo false else .select
      pending := Function.update s.pending src ((s.pending src).drop n)
      taken := s.taken ++ [(src, (s.pending src).take n)] } := by
  have hcontrol := hs.control
  rw [hpc] at hcontrol
  obtain ⟨hwr, -, hnext⟩ := hcontrol
  refine ⟨hs.kept.take hn hcount hle _, ?_⟩
  dsimp only
  split
  · -- the FIFO comes second, so what was read is the standard input
    obtain ⟨rfl, hfifo⟩ := hnext ‹_›
    refine ⟨hwr, ?_, fun h => absurd h Bool.false_ne_true⟩
    simp only [Ready]
    rwa [Function.update_of_ne (by decide)]
  · exact hwr

/-- Each step keeps the bytes and the place in the loop in order. -/
theorem inv_step (hs : Inv s) (h : step s e = some t) : Inv t := by
  have hcontrol := hs.control
  cases e with
  | arrive src bs =>
    obtain ⟨⟨hstdin, -⟩, rfl⟩ := Machine.guard_eq_some.mp h
    exact hs.arrive hstdin bs
  | close =>
    obtain ⟨-, rfl⟩ := Machine.guard_eq_some.mp h
    exact ⟨⟨hs.kept.bytes, hs.kept.sizes⟩,
      hcontrol.mono rfl rfl (fun _ => rfl) (fun _ h => h) fun _ => rfl⟩
  | writerOpens =>
    obtain ⟨-, rfl⟩ := Machine.guard_eq_some.mp h
    exact ⟨⟨hs.kept.bytes, hs.kept.sizes⟩, hcontrol.mono rfl rfl id (fun _ h => h) fun _ => rfl⟩
  | writerCloses =>
    obtain ⟨-, rfl⟩ := Machine.guard_eq_some.mp h
    exact ⟨⟨hs.kept.bytes, hs.kept.sizes⟩, hcontrol.mono rfl rfl id (fun _ h => h) fun _ => rfl⟩
  | openRd =>
    obtain ⟨-, rfl⟩ := Machine.guard_eq_some.mp h
    exact ⟨⟨hs.kept.bytes, hs.kept.sizes⟩, rfl⟩
  | openWr =>
    obtain ⟨hpc, h⟩ := Option.ite_none_right_eq_some.mp h
    rw [hpc] at hcontrol
    have hrd : s.rd = true := hcontrol
    rw [if_pos hrd, Option.some.injEq] at h
    subst h
    exact ⟨⟨hs.kept.bytes, hs.kept.sizes⟩, rfl⟩
  | select =>
    obtain ⟨⟨hpc, hready⟩, rfl⟩ := Machine.guard_eq_some.mp h
    exact hs.select hpc hready
  | interrupted =>
    obtain ⟨-, rfl⟩ := Machine.guard_eq_some.mp h
    exact hs
  | take n =>
    simp only [step] at h
    split at h <;> try cases h
    rename_i src next hpc
    obtain ⟨⟨hn, hcount, hle⟩, rfl⟩ := Machine.guard_eq_some.mp h
    exact hs.take hpc hn hcount hle
  | zero =>
    simp only [step] at h
    split at h <;> try cases h
    · obtain ⟨⟨hempty, hclosed⟩, rfl⟩ := Machine.guard_eq_some.mp h
      exact ⟨⟨hs.kept.bytes, hs.kept.sizes⟩, hclosed, hempty⟩
    · rename_i hpc
      rw [hpc] at hcontrol
      obtain ⟨⟨hempty, -⟩, -⟩ := Machine.guard_eq_some.mp h
      -- `select` has found something in the FIFO, and nobody else reads it
      exact absurd hempty hcontrol.2.1
  | again =>
    simp only [step] at h
    split at h <;> try cases h
    rename_i hpc
    rw [hpc] at hcontrol
    obtain ⟨hnot, -⟩ := Machine.guard_eq_some.mp h
    -- so `EAGAIN` does not occur either
    exact absurd (.inl hcontrol.2.1) hnot
  | fail =>
    simp only [step] at h
    split at h <;> cases h <;> exact ⟨⟨hs.kept.bytes, hs.kept.sizes⟩, trivial⟩

/-- Every run keeps the bytes and the place in the loop in order. -/
theorem inv_run {es : List Event} (h : machine.run init es = some s) : Inv s :=
  Machine.invariant_of_step (fun _ _ _ hs h => inv_step hs h) inv_init h

/-! ## What is printed -/

theorem length_cString_le (bs : List Byte) : (cString bs).length ≤ bs.length :=
  (List.takeWhile_prefix _).length_le

/-- The texts printed are the C strings of the chunks. -/
theorem texts_eq (taken : List (Source × List Byte)) (src : Source) :
    texts taken src = (chunks taken src).map cString := by
  rw [texts, chunks, List.map_map, List.map_map]
  refine List.map_congr_left fun m _ => ?_
  obtain ⟨_ | _, chunk⟩ := m <;> rfl

/-- A chunk is printed as a whole exactly if it has no NUL byte. -/
theorem cString_eq_self_iff {bs : List Byte} : cString bs = bs ↔ 0 ∉ bs :=
  ⟨fun h => h ▸ EpollServer.zero_notMem_cString bs, EpollServer.cString_eq_self⟩

theorem length_flatten_cString_le (cs : List (List Byte)) :
    (cs.map cString).flatten.length ≤ cs.flatten.length := by
  induction cs with
  | nil => exact le_rfl
  | cons c cs ih =>
    rw [List.map_cons, List.flatten_cons, List.flatten_cons, List.length_append,
      List.length_append]
    exact Nat.add_le_add (length_cString_le c) ih

/-- Nothing is cut exactly if there is no NUL anywhere. -/
theorem flatten_cString_eq_iff (cs : List (List Byte)) :
    (cs.map cString).flatten = cs.flatten ↔ 0 ∉ cs.flatten := by
  induction cs with
  | nil => simp
  | cons c cs ih =>
    rw [List.map_cons, List.flatten_cons, List.flatten_cons, List.mem_append, not_or, ← ih,
      ← cString_eq_self_iff]
    constructor
    · intro h
      -- both parts can only get shorter, so neither does
      have hlen := congrArg List.length h
      rw [List.length_append, List.length_append] at hlen
      have hhead := length_cString_le c
      have htail := length_flatten_cString_le cs
      exact List.append_inj h (by omega)
    · rintro ⟨hhead, htail⟩
      rw [hhead, htail]

end Bytes

/-! ## Runs -/

section Runs

variable {s : State} {es : List Event}

/-- A step of the program itself in which no call fails. -/
def Own : Event → Prop
  | .openRd | .openWr | .select | .take _ | .zero => True
  | .arrive _ _ | .close | .writerOpens | .writerCloses | .interrupted | .again | .fail => False

/-- The program is only blocked in `select`, with nothing to read. -/
theorem exists_own (hs : Inv s) (hpc : ∀ why, s.pc ≠ .ended why)
    (hready : s.pc = .select → ∃ src, Ready s src) : ∃ e t, Own e ∧ step s e = some t := by
  have hcontrol := hs.control
  cases h : s.pc with
  | openRd => exact ⟨.openRd, _, trivial, if_pos h⟩
  | openWr =>
    rw [h] at hcontrol
    exact ⟨.openWr, _, trivial, (if_pos h).trans (if_pos hcontrol)⟩
  | select =>
    rw [h] at hcontrol
    obtain ⟨src, hsrc⟩ := hready h
    have hreadable := (readable_iff_ready hcontrol src).mpr hsrc
    refine ⟨.select, _, trivial, if_pos ⟨h, ?_⟩⟩
    cases src with
    | stdin => exact .inl hreadable
    | fifo => exact .inr hreadable
  | read src next =>
    rw [h] at hcontrol
    have htake : s.pending src ≠ [] → ∃ t, step s (.take 1) = some t := by
      intro hne
      simp only [step, h]
      exact ⟨_, if_pos ⟨one_pos, by decide, List.length_pos_iff.mpr hne⟩⟩
    cases src with
    | fifo =>
      obtain ⟨t, ht⟩ := htake hcontrol.2.1
      exact ⟨.take 1, t, trivial, ht⟩
    | stdin =>
      by_cases hempty : s.pending .stdin = []
      · refine ⟨.zero, s.leave .eof, trivial, ?_⟩
        simp only [step, h]
        exact if_pos ⟨hempty, hcontrol.2.1.resolve_left fun hne => hne hempty⟩
      · obtain ⟨t, ht⟩ := htake hempty
        exact ⟨.take 1, t, trivial, ht⟩
  | ended why => exact absurd h (hpc why)

/-- The FIFO has a reader when it is opened for writing, and a `read` of it always finds data. -/
theorem never_again {x : State × Event} (hx : x ∈ machine.trace init es)
    (h : machine.run init es = some s) :
    (x.2 = .openWr → x.1.rd) ∧ ∀ next, x.1.pc = .read .fifo next → x.2 ≠ .zero ∧ x.2 ≠ .again := by
  obtain ⟨es₁, es₂, rfl, hreach⟩ := machine.mem_trace hx
  obtain ⟨u, hu, hrest⟩ := machine.run_append_eq_some.mp h
  obtain rfl := Option.some.inj (hreach.symm.trans hu)
  obtain ⟨t, hstep, -⟩ := machine.run_cons_eq_some.mp hrest
  have hs := inv_run hreach
  have hcontrol := hs.control
  refine ⟨fun hopen => ?_, fun next hpc => ⟨fun hzero => ?_, fun hagain => ?_⟩⟩
  · rw [hopen] at hstep
    obtain ⟨hpc, -⟩ := Option.ite_none_right_eq_some.mp hstep
    rw [hpc] at hcontrol
    exact hcontrol
  · rw [hpc] at hcontrol
    rw [hzero] at hstep
    simp only [machine, step, hpc] at hstep
    exact hcontrol.2.1 (Machine.guard_eq_some.mp hstep).1.1
  · rw [hpc] at hcontrol
    rw [hagain] at hstep
    simp only [machine, step, hpc] at hstep
    exact (Machine.guard_eq_some.mp hstep).1 (.inl hcontrol.2.1)

/-- What is taken of each stream is what has come, in order and in chunks of at most 255 bytes, and
it is printed as it is exactly if there is no NUL in it. Everything typed has been forwarded when
the program ends at the end of the standard input. -/
theorem forwarded_of_run (h : machine.run init es = some s) :
    (∀ src, s.arrived src = (chunks s.taken src).flatten ++ s.pending src) ∧
    (∀ src, (texts s.taken src).flatten = (chunks s.taken src).flatten ↔
      0 ∉ (chunks s.taken src).flatten) ∧
    (∀ m ∈ s.taken, m.2 ≠ [] ∧ m.2.length ≤ COUNT) ∧
    (s.pc = .ended .eof → s.closed ∧ s.pending .stdin = []) ∧
    (∀ x ∈ machine.trace init es, (x.2 = .openWr → x.1.rd) ∧
      ∀ next, x.1.pc = .read .fifo next → x.2 ≠ .zero ∧ x.2 ≠ .again) ∧
    ((∀ why, s.pc ≠ .ended why) → (s.pc = .select → ∃ src, Ready s src) →
      ∃ e t, Own e ∧ step s e = some t) := by
  have hs := inv_run h
  refine ⟨hs.kept.bytes, fun src => ?_, hs.kept.sizes, fun hpc => ?_,
    fun x hx => never_again hx h, exists_own hs⟩
  · rw [texts_eq]
    exact flatten_cString_eq_iff _
  · have hcontrol := hs.control
    rwa [hpc] at hcontrol

/-- A line is typed and a writer sends one, then the standard input is closed. -/
def twoLines : List Event :=
  [.openRd, .openWr, .arrive .stdin [104, 105, 10], .writerOpens, .arrive .fifo [111, 107, 10],
    .writerCloses, .select, .take 3, .take 3, .close, .select, .zero]

theorem forwarded_of_run_twoLines :
    ∃ s, machine.run init twoLines = some s ∧ s.closed ∧ s.pending .stdin = [] := by
  obtain ⟨s, hs, hpc⟩ := Option.map_eq_some_iff.mp
    (rfl : (machine.run init twoLines).map State.pc = some (.ended .eof))
  exact ⟨s, hs, (forwarded_of_run hs).2.2.2.1 hpc⟩

end Runs

end LinuxRiscv32.Select

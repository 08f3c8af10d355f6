import LinuxRiscv32.C.EpollServer
import LinuxRiscv32.Modules.VirtInt

/-!
# `virt-int`: reading `count` in pieces

Reference: `modules/virt-int.c` (`count_read`).

Every read renders `count` anew and returns the part of the text at the offset of the file. If
`irq_sw` runs between two reads of one reader, the parts belong to the texts of different numbers.
-/

namespace LinuxRiscv32.VirtInt.Count

open Common Kernel
open EpollServer (bytes bytes_toString_length)

/-- The text that `count_read` renders. -/
def countText (count : ℤ) : List Byte := bytes (toString count) ++ ['\n'.toUInt8]

/-- The text of a `long` is not cut: the buffer has 32 bytes. -/
theorem countText_length {count : ℤ} (h0 : -2 ^ 31 ≤ count) (h : count < 2 ^ 31) :
    (countText count).length ≤ 12 := by
  have hdigits : count.natAbs < 10 ^ 10 := by omega
  rw [countText, List.length_append, List.length_singleton]
  exact Nat.succ_le_succ (bytes_toString_length (by decide) hdigits)

/-- `count_read(file, ubuf, len, offp)`: what it copies to the user. -/
def countRead (d : Driver) (len offset : ℕ) : List Byte :=
  simpleReadFromBuffer len offset (countText d.count)

/-- A reader between two of its reads: the offset of its file, and whether it was returned 0. -/
structure Reader where
  driver : Driver
  offset : ℕ
  ended : Bool
deriving DecidableEq, Repr

/-- What happens while it reads. -/
inductive ReaderEvent where
  | read (len : ℕ)
  /-- An interrupt or a write to `trigger` that runs `irq_sw`. -/
  | irqSw
deriving DecidableEq, Repr

/-- One event; a run ends with the read that returns 0. -/
def Reader.step (s : Reader) : ReaderEvent → Option Reader
  | .read len =>
    if 0 < len ∧ s.ended = false then
      let data := countRead s.driver len s.offset
      some { s with offset := s.offset + data.length, ended := data.isEmpty }
    else none
  | .irqSw =>
    if s.ended = false then some { s with driver := VirtInt.irqSw s.driver } else none

/-- The reader, from the offset 0 on until a read returns 0, and the handler. -/
def Reader.machine : Machine Reader ReaderEvent := ⟨Reader.step⟩

/-- The file was opened. -/
def Reader.init (d : Driver) : Reader := { driver := d, offset := 0, ended := false }

/-- A read of the reader: its offset, the value of `count`, and what was returned. -/
structure Chunk where
  offset : ℕ
  count : ℤ
  data : List Byte
deriving DecidableEq, Repr

def chunk : Reader × ReaderEvent → Option Chunk
  | (s, .read len) =>
    some { offset := s.offset, count := s.driver.count, data := countRead s.driver len s.offset }
  | (_, .irqSw) => none

/-- The reads of a run. -/
def chunks (tr : List (Reader × ReaderEvent)) : List Chunk := tr.filterMap chunk

/-- All that was received. -/
def received (tr : List (Reader × ReaderEvent)) : List Byte := (chunks tr).flatMap Chunk.data

/-- The part of the text of `v` that lies where the chunk was read is the chunk. -/
def Chunk.PartOf (c : Chunk) (v : ℤ) : Prop :=
  ((countText v).drop c.offset).take c.data.length = c.data

/-- If `irq_sw` runs, the bytes that were received are in front of the new text, too. -/
def Keeps (s : Reader) : ReaderEvent → Prop
  | .read _ => True
  | .irqSw => (countText (VirtInt.irqSw s.driver).count).take s.offset =
      (countText s.driver.count).take s.offset

instance (s : Reader) (e : ReaderEvent) : Decidable (Keeps s e) := by
  unfold Keeps
  split <;> infer_instance

/-- The number 9 becomes 10 behind its first digit, and 90 is read. -/
theorem increment_mixes_texts :
    ¬ ∀ (d : Driver) (es : List ReaderEvent) (t : Reader),
      Reader.machine.run (.init d) es = some t → t.ended →
        ∃ x ∈ Reader.machine.trace (.init d) es,
          received (Reader.machine.trace (.init d) es) = countText x.1.driver.count := by
  intro h
  exact absurd (h { Driver.loaded false with count := 9 } [.read 1, .irqSw, .read 5, .read 5] _ rfl
    (by decide)) (by decide)

section Run

variable {s t : Reader} {e : ReaderEvent} {tr : List (Reader × ReaderEvent)}

/-! ## What was received -/

theorem chunks_concat (tr : List (Reader × ReaderEvent)) (x : Reader × ReaderEvent) :
    chunks (tr ++ [x]) = chunks tr ++ (chunk x).toList := by
  rw [chunks, List.filterMap_append, List.filterMap_cons]
  cases chunk x <;> rfl

theorem received_concat (tr : List (Reader × ReaderEvent)) (x : Reader × ReaderEvent) :
    received (tr ++ [x]) = received tr ++ (chunk x).elim [] Chunk.data := by
  rw [received, chunks_concat, List.flatMap_append]
  cases chunk x with
  | none => rfl
  | some c => exact congrArg _ (List.flatMap_singleton ..)

/-- A part of a list stays where it is when the list grows. -/
theorem take_drop_append {α : Type*} {l xs : List α} {k : ℕ} (h : (l.drop k).take xs.length = xs)
    (ys : List α) : ((l ++ ys).drop k).take xs.length = xs := by
  have hlength := congrArg List.length h
  rw [List.length_take, List.length_drop] at hlength
  by_cases hk : k ≤ l.length
  · rw [List.drop_append_of_le_length hk,
      List.take_append_of_le_length (by rw [List.length_drop]; omega), h]
  · have hnil : xs = [] := List.eq_nil_of_length_eq_zero (by omega)
    rw [hnil, List.length_nil, List.take_zero]

/-- What is returned is a part of the text of the number at the read. -/
theorem countRead_partOf (d : Driver) (len offset : ℕ) :
    Chunk.PartOf { offset := offset, count := d.count, data := countRead d len offset }
      d.count := by
  unfold Chunk.PartOf countRead simpleReadFromBuffer
  dsimp only
  rw [List.length_take, ← List.take_eq_take_min]

/-- A read returns nothing only at the end of the text. -/
theorem length_le_of_countRead_eq_nil {d : Driver} {len offset : ℕ} (hlen : 0 < len)
    (h : countRead d len offset = []) : (countText d.count).length ≤ offset := by
  have hlength := congrArg List.length h
  rw [countRead, simpleReadFromBuffer, List.length_take, List.length_drop,
    List.length_nil] at hlength
  omega

/-- The chunks lie one behind the other, and each is a part of the text of its own number. If all of
them are parts of one text, the received bytes are the front of it. -/
structure Inv (tr : List (Reader × ReaderEvent)) (s : Reader) : Prop where
  offset : (received tr).length = s.offset
  consecutive : ∀ c ∈ chunks tr, ((received tr).drop c.offset).take c.data.length = c.data
  partOf : ∀ c ∈ chunks tr, c.PartOf c.count
  front : ∀ v, (∀ c ∈ chunks tr, c.PartOf v) → received tr = (countText v).take s.offset
  ended : s.ended → (countText s.driver.count).length ≤ s.offset

/-- Nothing was read at first. -/
theorem inv_init (d : Driver) : Inv [] (.init d) where
  offset := rfl
  consecutive _ h := absurd h List.not_mem_nil
  partOf _ h := absurd h List.not_mem_nil
  front _ _ := rfl
  ended h := absurd h Bool.false_ne_true

/-- Each read continues where the one before it has ended. -/
theorem inv_step (hs : Inv tr s) (h : Reader.step s e = some t) : Inv (tr ++ [(s, e)]) t := by
  obtain ⟨hoffset, hconsecutive, hpartOf, hfront, -⟩ := hs
  cases e with
  | read len =>
    obtain ⟨⟨hlen, -⟩, rfl⟩ := Machine.guard_eq_some.mp h
    have hreceived : received (tr ++ [(s, .read len)]) =
        received tr ++ countRead s.driver len s.offset := received_concat tr _
    have hchunks : chunks (tr ++ [(s, .read len)]) =
        chunks tr ++ [{ offset := s.offset, count := s.driver.count
                        data := countRead s.driver len s.offset }] := chunks_concat tr _
    constructor
    · rw [hreceived, List.length_append, hoffset]
    · rw [hchunks, hreceived]
      refine List.forall_mem_append.mpr ⟨fun c hc => take_drop_append (hconsecutive c hc) _, ?_⟩
      refine List.forall_mem_singleton.mpr ?_
      rw [← hoffset, List.drop_left, List.take_length]
    · rw [hchunks]
      exact List.forall_mem_append.mpr
        ⟨hpartOf, List.forall_mem_singleton.mpr (countRead_partOf s.driver len s.offset)⟩
    · intro v hv
      rw [hchunks] at hv
      obtain ⟨hold, hnew⟩ := List.forall_mem_append.mp hv
      have hlast := List.forall_mem_singleton.mp hnew
      rw [hreceived, hfront v hold, List.take_add]
      exact congrArg _ hlast.symm
    · exact fun hended => (length_le_of_countRead_eq_nil hlen (List.isEmpty_iff.mp hended)).trans
        (Nat.le_add_right _ _)
  | irqSw =>
    obtain ⟨hopen, rfl⟩ := Machine.guard_eq_some.mp h
    have hreceived : received (tr ++ [(s, .irqSw)]) = received tr :=
      (received_concat tr _).trans (List.append_nil _)
    have hchunks : chunks (tr ++ [(s, .irqSw)]) = chunks tr :=
      (chunks_concat tr _).trans (List.append_nil _)
    constructor
    · rw [hreceived, hoffset]
    · rwa [hchunks, hreceived]
    · rwa [hchunks]
    · rwa [hchunks, hreceived]
    · exact fun hended => absurd hended (by rw [hopen]; exact Bool.false_ne_true)

/-- The received bytes are the front of the current text, as long as `irq_sw` keeps them there. -/
theorem front_step (hs : received tr = (countText s.driver.count).take s.offset) (hG : Keeps s e)
    (h : Reader.step s e = some t) :
    received (tr ++ [(s, e)]) = (countText t.driver.count).take t.offset := by
  cases e with
  | read len =>
    obtain ⟨-, rfl⟩ := Machine.guard_eq_some.mp h
    have hpart := countRead_partOf s.driver len s.offset
    rw [received_concat, hs, List.take_add]
    exact congrArg _ hpart.symm
  | irqSw =>
    obtain ⟨-, rfl⟩ := Machine.guard_eq_some.mp h
    exact (received_concat tr _).trans ((List.append_nil _).trans (hs.trans hG.symm))

/-- **Reading in pieces.** For every run of a reader until it is returned 0: each read returns a
part of the text of the number at that read, and the parts lie one behind the other. The received
bytes are the text of `v` if and only if each of the reads has returned a part of this text, and the
text is not longer. They are the text of the last number if `irq_sw` leaves the bytes that were
received in front of the text whenever it runs, in particular if it does not run behind the first
read. -/
theorem received_text_iff {d : Driver} {es : List ReaderEvent} {t : Reader}
    (hrun : Reader.machine.run (.init d) es = some t) (hended : t.ended) :
    let tr := Reader.machine.trace (.init d) es
    (∀ c ∈ chunks tr, c.PartOf c.count ∧
      ((received tr).drop c.offset).take c.data.length = c.data) ∧
    (∀ v, received tr = countText v ↔
      (∀ c ∈ chunks tr, c.PartOf v) ∧ (countText v).length ≤ (received tr).length) ∧
    (Reader.machine.Along Keeps (.init d) es → received tr = countText t.driver.count) ∧
    (Reader.machine.Along (fun s e => e = .irqSw → s.offset = 0) (.init d) es →
      received tr = countText t.driver.count) := by
  intro tr
  obtain ⟨hoffset, hconsecutive, hpartOf, hfront, hlong⟩ :=
    Machine.history_invariant_of_step (M := Reader.machine) (fun _ _ _ _ => inv_step) (inv_init d)
      hrun
  have hkeeps : Reader.machine.Along Keeps (.init d) es →
      received tr = countText t.driver.count := by
    intro hG
    have hreceived := Machine.history_invariant (M := Reader.machine) (G := Keeps)
      (I := fun tr s => received tr = (countText s.driver.count).take s.offset)
      (fun tr s e t hs hG h => front_step hs hG h) rfl hG hrun
    rw [hreceived, List.take_of_length_le (hlong hended)]
  refine ⟨fun c hc => ⟨hpartOf c hc, hconsecutive c hc⟩, fun v => ⟨?_, ?_⟩, hkeeps, fun hG => ?_⟩
  · intro heq
    refine ⟨fun c hc => ?_, heq ▸ le_rfl⟩
    rw [Chunk.PartOf, ← heq]
    exact hconsecutive c hc
  · rintro ⟨hv, hle⟩
    rw [hfront v hv, List.take_of_length_le (hoffset ▸ hle)]
  · refine hkeeps fun x hx => ?_
    obtain ⟨s, e⟩ := x
    cases e with
    | read len => trivial
    | irqSw =>
      show List.take s.offset _ = List.take s.offset _
      rw [hG _ hx rfl, List.take_zero, List.take_zero]

end Run

/-- The number 12 becomes 13 behind its first digit. -/
theorem received_text_iff_keeps :
    let d : Driver := { Driver.loaded false with count := 12 }
    let es : List ReaderEvent := [.read 1, .irqSw, .read 5, .read 5]
    let tr := Reader.machine.trace (.init d) es
    let t := (Reader.machine.run (.init d) es).get (by decide)
    (∀ c ∈ chunks tr, c.PartOf c.count ∧
      ((received tr).drop c.offset).take c.data.length = c.data) ∧
    (∀ v, received tr = countText v ↔
      (∀ c ∈ chunks tr, c.PartOf v) ∧ (countText v).length ≤ (received tr).length) ∧
    received tr = countText t.driver.count := by
  intro d es tr t
  have hrun : Reader.machine.run (.init d) es = some t := (Option.some_get _).symm
  obtain ⟨hparts, htext, hkeeps, -⟩ := received_text_iff hrun (by decide)
  exact ⟨hparts, htext, hkeeps (by decide)⟩

end LinuxRiscv32.VirtInt.Count

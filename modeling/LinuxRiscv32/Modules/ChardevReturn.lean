import LinuxRiscv32.Modules.ChardevLoops
import Mathlib.Logic.Function.Iterate

/-!
# `chardev`: what a return code tells

Reference: `modules/chardev.c` (`dev_read`, `dev_write`).

Both functions return how many bytes they have copied, also if that is none: a read that meets an
inaccessible page at once looks like the end of the data, and a write like one that is worth
repeating. `trigger_write` in `modules/virt-int.c` returns `-EFAULT` there. `dev_write` also reports
a full page for a write of no bytes.
-/

namespace LinuxRiscv32.Chardev

open Common Kernel

/-- Of `count` bytes, of which there is room for `room`, at least one is copied. -/
def CopiesSome (count : ℕ) (room : ℤ) (fault : ℕ) : Prop := (fault : ℤ) < min (count : ℤ) room

instance (count : ℕ) (room : ℤ) (fault : ℕ) : Decidable (CopiesSome count room fault) :=
  inferInstanceAs (Decidable (_ < _))

/-- A read of 0 bytes is the end of the data, and one that can copy nothing fails. -/
structure ReadCodes (d : Dev) (count : ℕ) (pos : ℤ) (fault : ℕ) : Prop where
  zero : (devRead d count pos fault).ret = 0 → count = 0 ∨ d.dataLen ≤ pos
  uncopied : 0 < count → pos < d.dataLen → ¬ CopiesSome count (d.dataLen - pos) fault →
    (devRead d count pos fault).ret < 0

/-- A write of 0 bytes was asked for none, `-ENOSPC` is the end of the page, and a write that can
copy nothing fails. -/
structure WriteCodes (d : Dev) (buf : List Byte) (pos : ℤ) (fault : ℕ) : Prop where
  zero : (devWrite d buf pos fault).ret = 0 → buf = []
  nospc : (devWrite d buf pos fault).ret = -ENOSPC → buf ≠ [] ∧ PAGE_SIZE ≤ pos
  uncopied : buf ≠ [] → pos < PAGE_SIZE → ¬ CopiesSome buf.length (PAGE_SIZE - pos) fault →
    (devWrite d buf pos fault).ret < 0

/-- Reading until a call returns 0 stops, and it stops at the end of the data. -/
structure ReadsToEnd (d : Dev) (pos : ℤ) (calls : List (ℕ × ℕ)) : Prop where
  stops : (d.dataLen - pos).toNat < calls.length → (readLoop d pos calls).isSome
  atEnd : ∀ e, readLoop d pos calls = some e → d.dataLen ≤ e.pos

/-- Every read in front of the end copies something. -/
def ReadsCopy (d : Dev) (pos : ℤ) : List (ℕ × ℕ) → Prop
  | [] => True
  | (count, fault) :: calls => pos < d.dataLen →
    CopiesSome count (d.dataLen - pos) fault ∧
      ReadsCopy d (pos + (min (count : ℤ) (d.dataLen - pos) - fault)) calls

/-- Writing until everything is accepted or a call returns an error stops. -/
def WritesStop (d : Dev) (buf : List Byte) (pos : ℤ) (fault : ℕ → ℕ) : Prop :=
  ∃ fuel, (writeLoop fault d pos 0 [buf] fuel).isSome

/-- How many bytes are accepted after one more write, of the `total` ones that fit. -/
def advance (fault : ℕ → ℕ) (total done : ℕ) : ℕ := done + (total - done - fault done)

/-- Every write in front of the end copies something, where `total` bytes fit. -/
def WritesCopy (fault : ℕ → ℕ) (total : ℕ) : Prop :=
  ∀ k, (advance fault total)^[k] 0 < total →
    fault ((advance fault total)^[k] 0) < total - (advance fault total)^[k] 0

/-! ## One call -/

section Codes

variable {d : Dev} {pos : ℤ}

/-- When the codes of one read are unambiguous. -/
theorem readCodes_iff (hd : d.Ok) (h0 : 0 ≤ pos) (count fault : ℕ) :
    ReadCodes d count pos fault ↔
      (0 < count → pos < d.dataLen → CopiesSome count (d.dataLen - pos) fault) := by
  by_cases h : pos < d.dataLen
  · obtain ⟨n, hn, hread⟩ := devRead_of_lt count fault hd h0 h
    have hcopies : CopiesSome count (d.dataLen - pos) fault ↔ fault < n := by
      rw [CopiesSome, ← hn, Nat.cast_lt]
    constructor
    · rintro ⟨-, huncopied⟩ hcount _
      by_contra hnone
      have hneg := huncopied hcount h hnone
      rw [hread] at hneg
      exact absurd hneg (Int.not_lt.mpr (Int.natCast_nonneg _))
    · intro hsome
      refine ⟨fun hzero => ?_, fun hcount _ hnone => absurd (hsome hcount h) hnone⟩
      rw [hread] at hzero
      by_contra hcount
      have := hcopies.mp (hsome (by omega) h)
      dsimp only at hzero
      omega
  · refine iff_of_true ⟨fun _ => .inr (not_lt.mp h), fun _ hlt => absurd hlt h⟩ ?_
    exact fun _ hlt => absurd hlt h

/-- When the codes of one write are unambiguous. -/
theorem writeCodes_iff (h0 : 0 ≤ pos) (buf : List Byte) (fault : ℕ) :
    WriteCodes d buf pos fault ↔
      buf ≠ [] ∧ (pos < PAGE_SIZE → CopiesSome buf.length (PAGE_SIZE - pos) fault) := by
  have hnospc : -ENOSPC < 0 := by decide
  by_cases hfull : PAGE_SIZE ≤ pos ∨ 0 ≤ pos ∧ buf = []
  · have hwrite := devWrite_of_full (d := d) fault hfull
    constructor
    · intro hcodes
      obtain ⟨hbuf, hpos⟩ := hcodes.nospc (by rw [hwrite])
      exact ⟨hbuf, fun hlt => absurd hpos (not_le.mpr hlt)⟩
    · rintro ⟨hbuf, -⟩
      have hpos : PAGE_SIZE ≤ pos := hfull.resolve_right fun h => hbuf h.2
      refine ⟨fun hzero => ?_, fun _ => ⟨hbuf, hpos⟩, fun _ hlt => absurd hpos (not_le.mpr hlt)⟩
      rw [hwrite] at hzero
      exact absurd hzero (ne_of_lt hnospc)
  · obtain ⟨hpos, hbuf⟩ := not_or.mp hfull
    have hlt : pos < PAGE_SIZE := not_le.mp hpos
    have hne : buf ≠ [] := fun h => hbuf ⟨h0, h⟩
    obtain ⟨n, hn, -, hwrite⟩ := devWrite_of_lt (d := d) fault h0 hlt hne
    have hcopies : CopiesSome buf.length (PAGE_SIZE - pos) fault ↔ fault < n := by
      rw [CopiesSome, ← hn, Nat.cast_lt]
    have hret : (devWrite d buf pos fault).ret = (n - fault : ℕ) := by rw [hwrite]
    constructor
    · rintro ⟨-, -, huncopied⟩
      refine ⟨hne, fun _ => ?_⟩
      by_contra hnone
      have := huncopied hne hlt hnone
      omega
    · rintro ⟨-, hsome⟩
      have := hcopies.mp (hsome hlt)
      exact ⟨fun hzero => by omega, fun hret' => by omega,
        fun _ _ hnone => absurd (hsome hlt) hnone⟩

end Codes

/-! ## Reading until a call returns 0 -/

section Reads

variable {d : Dev}

/-- A loop of reads stops: each call that does not end it copies a byte. -/
theorem readLoop_isSome (hd : d.Ok) (calls : List (ℕ × ℕ)) {pos : ℤ} (h0 : 0 ≤ pos)
    (hlen : (d.dataLen - pos).toNat < calls.length) : (readLoop d pos calls).isSome := by
  induction calls generalizing pos with
  | nil => exact absurd hlen (Nat.not_lt_zero _)
  | cons call calls ih =>
    obtain ⟨count, fault⟩ := call
    by_cases h : pos < d.dataLen
    · obtain ⟨n, hn, hloop⟩ := readLoop_of_lt hd h0 h count fault calls
      rw [hloop]
      split
      · rfl
      next hlt =>
        rw [Option.isSome_map]
        rw [List.length_cons] at hlen
        exact ih (by omega) (by omega)
    · rw [readLoop_of_ge (not_lt.mp h)]
      rfl

/-- A loop of reads ends at the end of the data exactly if each read copies something. -/
theorem readLoop_atEnd_iff (hd : d.Ok) (calls : List (ℕ × ℕ)) {pos : ℤ} (h0 : 0 ≤ pos) :
    (∀ e, readLoop d pos calls = some e → d.dataLen ≤ e.pos) ↔ ReadsCopy d pos calls := by
  induction calls generalizing pos with
  | nil => exact iff_of_true (fun e he => absurd he (Option.some_ne_none e).symm) trivial
  | cons call calls ih =>
    obtain ⟨count, fault⟩ := call
    by_cases h : pos < d.dataLen
    · obtain ⟨n, hn, hloop⟩ := readLoop_of_lt hd h0 h count fault calls
      rw [hloop, ReadsCopy, imp_iff_right h, CopiesSome, ← hn, Nat.cast_lt]
      split
      next hle =>
        -- nothing is copied, and the loop ends in front of the end
        refine iff_of_false (fun hend => ?_) fun hcopies => absurd hcopies.1 (Nat.not_lt.mpr hle)
        exact absurd (hend _ rfl) (not_le.mpr h)
      next hlt =>
        have hnext : pos + ((n : ℤ) - fault) = pos + (n - fault : ℕ) := by omega
        rw [hnext, and_iff_right (Nat.lt_of_not_le hlt), ← ih (by omega)]
        constructor
        · exact fun hend e he => hend { e with data := slice d.mem pos (n - fault) ++ e.data }
            (congrArg (Option.map _) he)
        · rintro hend e he
          obtain ⟨e', he', rfl⟩ := Option.map_eq_some_iff.mp he
          exact hend e' he'
    · rw [readLoop_of_ge (not_lt.mp h)]
      refine iff_of_true (fun e he => ?_) fun hlt => absurd hlt h
      obtain rfl := Option.some.inj he
      exact not_lt.mp h

theorem readsToEnd_iff (hd : d.Ok) {pos : ℤ} (h0 : 0 ≤ pos) (calls : List (ℕ × ℕ)) :
    ReadsToEnd d pos calls ↔ ReadsCopy d pos calls :=
  ⟨fun h => (readLoop_atEnd_iff hd calls h0).mp h.atEnd,
    fun h => ⟨readLoop_isSome hd calls h0, (readLoop_atEnd_iff hd calls h0).mpr h⟩⟩

end Reads

/-! ## Writing until everything is accepted -/

section Writes

variable {fault : ℕ → ℕ} {p : ℤ} {size done : ℕ} {rest : List Byte}

/-- A loop on a buffer of `size` bytes that has accepted `done` of the `total` ones that fit. -/
structure Under (p : ℤ) (size total done : ℕ) (rest : List Byte) : Prop where
  nonneg : 0 ≤ p
  le : done ≤ total
  length : done + rest.length = size
  total : total = min size (PAGE_SIZE - p).toNat

theorem le_advance_iterate {total : ℕ} (h : total ≤ done) (k : ℕ) :
    total ≤ (advance fault total)^[k] done := by
  induction k with
  | zero => exact h
  | succ k ih =>
    rw [Function.iterate_succ_apply', advance]
    exact ih.trans (Nat.le_add_right _ _)

variable {total : ℕ} (h : Under p size total done rest)

include h

theorem Under.rest_ne_nil (hlt : done < total) : rest ≠ [] := by
  obtain ⟨-, -, hlength, htotal⟩ := h
  exact List.length_pos_iff.mp (by omega)

/-- At the end nothing is left, or the page is full. -/
theorem Under.end (hdone : total ≤ done) (d : Dev) (fuel : ℕ) :
    (writeLoop fault d (p + done) done (resubmit rest []) (fuel + 1)).isSome := by
  obtain ⟨h0, hle, hlength, htotal⟩ := h
  unfold resubmit
  split
  · rfl
  next hrest =>
    have := List.length_pos_iff.mpr hrest
    rw [writeLoop_of_ge (by omega)]
    rfl

/-- One more write in front of the end. -/
theorem Under.step (fault : ℕ → ℕ) (hlt : done < total) (d : Dev) :
    ∃ (d' : Dev) (rest' : List Byte), Under p size total (advance fault total done) rest' ∧
      ∀ fuel, writeLoop fault d (p + done) done (resubmit rest []) (fuel + 1) =
        writeLoop fault d' (p + (advance fault total done : ℕ)) (advance fault total done)
          (resubmit rest' []) fuel := by
  have hrest := h.rest_ne_nil hlt
  obtain ⟨h0, hle, hlength, htotal⟩ := h
  refine ⟨(devWrite d rest (p + done) (fault done)).dev,
    rest.drop (total - done - fault done), ⟨h0, ?_, ?_, htotal⟩, fun fuel => ?_⟩
  · unfold advance
    omega
  · rw [List.length_drop, advance]
    omega
  · obtain ⟨n, hn, -, hloop⟩ := @writeLoop_of_lt d (p + done) fault done rest [] fuel
      (by omega) (by omega) hrest
    obtain rfl : n = total - done := by omega
    rw [resubmit, if_neg hrest, hloop, advance, Nat.cast_add, add_assoc]

/-- A write that copies nothing is repeated for ever. -/
theorem Under.stuck (hlt : done < total) (hfault : total - done ≤ fault done) (d : Dev)
    (fuel : ℕ) : writeLoop fault d (p + done) done (resubmit rest []) fuel = none := by
  have hsame : advance fault total done = done := by
    unfold advance
    omega
  induction fuel generalizing d rest with
  | zero =>
    rw [resubmit, if_neg (h.rest_ne_nil hlt)]
    rfl
  | succ fuel ih =>
    obtain ⟨d', rest', h', hloop⟩ := h.step fault hlt d
    rw [hloop, hsame]
    exact ih (hsame ▸ h') d'

/-- A loop that stops has copied something by each of its writes in front of the end. -/
theorem Under.copies (d : Dev) (fuel : ℕ)
    (hsome : (writeLoop fault d (p + done) done (resubmit rest []) fuel).isSome) (k : ℕ)
    (hk : (advance fault total)^[k] done < total) :
    fault ((advance fault total)^[k] done) < total - (advance fault total)^[k] done := by
  induction fuel generalizing d done rest k with
  | zero =>
    by_cases hlt : done < total
    · rw [resubmit, if_neg (h.rest_ne_nil hlt)] at hsome
      cases hsome
    · exact absurd hk (not_lt.mpr (le_advance_iterate (not_lt.mp hlt) k))
  | succ fuel ih =>
    by_cases hlt : done < total
    · cases k with
      | zero =>
        by_contra hnone
        rw [h.stuck hlt (not_lt.mp hnone) d] at hsome
        cases hsome
      | succ k =>
        obtain ⟨d', rest', h', hloop⟩ := h.step fault hlt d
        rw [hloop] at hsome
        exact ih h' d' hsome k hk
    · exact absurd hk (not_lt.mpr (le_advance_iterate (not_lt.mp hlt) k))

/-- A loop whose writes in front of the end all copy something stops. -/
theorem Under.stops (hcopies : ∀ k, (advance fault total)^[k] done < total →
      fault ((advance fault total)^[k] done) < total - (advance fault total)^[k] done)
    (d : Dev) {fuel : ℕ} (hfuel : total - done < fuel) :
    (writeLoop fault d (p + done) done (resubmit rest []) fuel).isSome := by
  induction fuel generalizing d done rest with
  | zero => exact absurd hfuel (Nat.not_lt_zero _)
  | succ fuel ih =>
    by_cases hlt : done < total
    · obtain ⟨d', rest', h', hloop⟩ := h.step fault hlt d
      have hsome := hcopies 0 hlt
      rw [hloop]
      refine ih h' (fun k => hcopies (k + 1)) d' ?_
      rw [Function.iterate_zero_apply] at hsome
      unfold advance
      omega
    · exact h.end (not_lt.mp hlt) d fuel

omit h in
/-- A loop of writes stops exactly if each write copies something. -/
theorem writesStop_iff (h0 : 0 ≤ p) (d : Dev) (buf : List Byte) :
    WritesStop d buf p fault ↔ WritesCopy fault (min buf.length (PAGE_SIZE - p).toNat) := by
  by_cases hbuf : buf = []
  · subst hbuf
    refine iff_of_true ⟨1, ?_⟩ fun k hk => absurd hk (by simp)
    rw [writeLoop, devWrite_of_full (fault 0) (.inr ⟨h0, rfl⟩)]
    rfl
  · have h : Under p buf.length (min buf.length (PAGE_SIZE - p).toNat) 0 buf :=
      ⟨h0, Nat.zero_le _, Nat.zero_add _, rfl⟩
    have hloop : ∀ fuel, writeLoop fault d p 0 [buf] fuel =
        writeLoop fault d (p + (0 : ℕ)) 0 (resubmit buf []) fuel := by
      intro fuel
      rw [Nat.cast_zero, add_zero, resubmit, if_neg hbuf]
    constructor
    · rintro ⟨fuel, hsome⟩
      exact h.copies d fuel (hloop fuel ▸ hsome)
    · intro hcopies
      refine ⟨min buf.length (PAGE_SIZE - p).toNat + 1, ?_⟩
      rw [hloop]
      exact h.stops hcopies d (Nat.lt_succ_self _)

end Writes

/-! ## Reachable states -/

section Reachable

variable {F : Type*} [DecidableEq F] {L : FixedSizeLlseek} {s : State F}

/-- **Return codes.** In every reachable state and at every position: the codes of `dev_read` are
unambiguous if and only if a read in front of the end copies something, those of `dev_write` if and
only if a write is not empty and copies something unless the page is full. Loops of reads stop, and
they stop at the end of the data if and only if each read in front of it copies something. Loops of
writes stop if and only if each write in front of the end copies something. -/
theorem codes_unambiguous_iff {junk : ℤ → Byte} {es : List (Event F)}
    (hrun : (machine F L).run (init junk) es = some s) {pos : ℤ} (h0 : 0 ≤ pos) :
    (∀ count fault, ReadCodes s.dev count pos fault ↔
      (0 < count → pos < s.dev.dataLen → CopiesSome count (s.dev.dataLen - pos) fault)) ∧
    (∀ buf fault, WriteCodes s.dev buf pos fault ↔
      buf ≠ [] ∧ (pos < PAGE_SIZE → CopiesSome buf.length (PAGE_SIZE - pos) fault)) ∧
    (∀ calls, ReadsToEnd s.dev pos calls ↔ ReadsCopy s.dev pos calls) ∧
    ∀ buf fault, WritesStop s.dev buf pos fault ↔
      WritesCopy fault (min buf.length (PAGE_SIZE - pos).toNat) := by
  have hd := (safe_of_run hrun).dev
  exact ⟨readCodes_iff hd h0, writeCodes_iff h0, readsToEnd_iff hd h0,
    fun buf _ => writesStop_iff h0 s.dev buf⟩

/-- A file that was opened and written. -/
theorem codes_unambiguous_iff_oneWrite :
    let es : List (Event Unit) := [.open (), .write () [7] 0]
    let s := ((machine Unit .linux).run (init fun _ => 0) es).get (by decide)
    (∀ count fault, ReadCodes s.dev count 0 fault ↔
      (0 < count → 0 < s.dev.dataLen → CopiesSome count (s.dev.dataLen - 0) fault)) ∧
    (∀ buf fault, WriteCodes s.dev buf 0 fault ↔
      buf ≠ [] ∧ ((0 : ℤ) < PAGE_SIZE → CopiesSome buf.length (PAGE_SIZE - 0) fault)) ∧
    (∀ calls, ReadsToEnd s.dev 0 calls ↔ ReadsCopy s.dev 0 calls) ∧
    ∀ buf fault, WritesStop s.dev buf 0 fault ↔
      WritesCopy fault (min buf.length (PAGE_SIZE - 0).toNat) :=
  codes_unambiguous_iff (Option.some_get _).symm le_rfl

/-- A file with one byte. If it cannot be copied to the reader, or the byte for it not from the
writer, 0 is returned; the reader takes this for the end of the data, the writer never stops. A
write of no bytes fails although there is room. -/
theorem uncopied_returns_zero :
    ∃ (es : List (Event Unit)) (s : State Unit),
      (machine Unit .linux).run (init fun _ => 0) es = some s ∧
        ¬ ReadCodes s.dev 1 0 1 ∧ ¬ ReadsToEnd s.dev 0 [(1, 1)] ∧
        ¬ WriteCodes s.dev [7] 0 1 ∧ ¬ WritesStop s.dev [7] 0 (fun _ => 1) ∧
        ¬ WriteCodes s.dev [] 0 0 := by
  refine ⟨[.open (), .write () [7] 0], _, (Option.some_get (by decide)).symm, ?_, ?_, ?_, ?_, ?_⟩
  · exact fun h => absurd (h.zero (by decide)) (by decide)
  · exact fun h => absurd (h.atEnd { ret := 0, pos := 0, data := [] } (by decide)) (by decide)
  · exact fun h => absurd (h.zero (by decide)) (by decide)
  · exact fun h => absurd ((writesStop_iff le_rfl _ [7]).mp h 0 (by decide)) (by decide)
  · exact fun h => absurd (h.nospc (by decide)).1 (by decide)

end Reachable

end LinuxRiscv32.Chardev

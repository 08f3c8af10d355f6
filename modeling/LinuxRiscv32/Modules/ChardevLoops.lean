import LinuxRiscv32.Modules.ChardevSafe

/-!
# `chardev` in the loops of its users

Reference: `modules/chardev.c` (`dev_read`, `dev_write`).

Two loops that programs run on an open file: reading until a call returns 0, and writing until
everything is accepted or a call returns an error. Here they are run on the functions of the driver,
and a run of the machine is found for the calls that they make.
-/

namespace LinuxRiscv32.Chardev

open Common Kernel

/-- What the last call of a loop of reads returned, the position behind it, and all that was
received. -/
structure ReadEnd where
  ret : ℤ
  pos : ℤ
  data : List Byte
deriving DecidableEq, Repr

/-- Reading until a call returns 0 or an error. The calls are given by their counts and by where
their copies stop; `none` if none of them ends the loop. -/
def readLoop (d : Dev) (pos : ℤ) : List (ℕ × ℕ) → Option ReadEnd
  | [] => none
  | (count, fault) :: calls =>
    let r := devRead d count pos fault
    let pos' := nextPos pos r.ret r.pos
    if r.ret ≤ 0 then some { ret := r.ret, pos := pos', data := r.data }
    else (readLoop d pos' calls).map fun e => { e with data := r.data ++ e.data }

/-- The device and the position after a loop of writes, how many bytes were accepted, and the error
that has ended the loop, if it was one. -/
structure WriteEnd where
  dev : Dev
  pos : ℤ
  accepted : ℕ
  error : Option ℤ

/-- The pieces that are left when `rest` was not accepted. -/
def resubmit (rest : List Byte) (pieces : List (List Byte)) : List (List Byte) :=
  if rest = [] then pieces else rest :: pieces

/-- Writing pieces one after the other, with what was not accepted of a piece written again, until
all is accepted or a call returns an error; `none` if this takes more than `fuel` calls. The copy
that starts after `done` bytes were accepted stops `fault done` bytes before its end. -/
def writeLoop (fault : ℕ → ℕ) (d : Dev) (pos : ℤ) (done : ℕ) :
    List (List Byte) → ℕ → Option WriteEnd
  | [], _ => some { dev := d, pos := pos, accepted := done, error := none }
  | _ :: _, 0 => none
  | piece :: pieces, fuel + 1 =>
    let r := devWrite d piece pos (fault done)
    let pos' := nextPos pos r.ret r.pos
    if r.ret < 0 then some { dev := r.dev, pos := pos', accepted := done, error := some r.ret }
    else
      writeLoop fault r.dev pos' (done + r.ret.toNat)
        (resubmit (piece.drop r.ret.toNat) pieces) fuel

/-! ## One turn -/

section Turn

variable {d : Dev} {pos : ℤ}

/-- At the end a loop of reads stops. -/
theorem readLoop_of_ge (h : d.dataLen ≤ pos) (count fault : ℕ) (calls : List (ℕ × ℕ)) :
    readLoop d pos ((count, fault) :: calls) = some { ret := 0, pos := pos, data := [] } := by
  rw [readLoop, devRead_of_ge fault h]
  rfl

/-- A read in front of the end. A call that copies nothing ends the loop, like the end of the data.
-/
theorem readLoop_of_lt (hd : d.Ok) (h0 : 0 ≤ pos) (h : pos < d.dataLen) (count fault : ℕ)
    (calls : List (ℕ × ℕ)) :
    ∃ n : ℕ, (n : ℤ) = min (count : ℤ) (d.dataLen - pos) ∧
      readLoop d pos ((count, fault) :: calls) =
        if n ≤ fault then some { ret := 0, pos := pos, data := [] }
        else (readLoop d (pos + (n - fault : ℕ)) calls).map fun e =>
          { e with data := slice d.mem pos (n - fault) ++ e.data } := by
  obtain ⟨n, hn, hr⟩ := devRead_of_lt count fault hd h0 h
  refine ⟨n, hn, ?_⟩
  rw [readLoop, hr]
  dsimp only
  rw [nextPos_of_nonneg _ _ (Int.natCast_nonneg _)]
  by_cases hle : n ≤ fault
  · rw [if_pos hle, Nat.sub_eq_zero_of_le hle, Nat.cast_zero, if_pos le_rfl, add_zero]
    rfl
  · rw [if_neg hle, if_neg (by omega)]

variable {fault : ℕ → ℕ} {done : ℕ} {piece : List Byte} {pieces : List (List Byte)} {fuel : ℕ}

/-- At the end of the page a loop of writes stops with an error. -/
theorem writeLoop_of_ge (h : PAGE_SIZE ≤ pos) :
    writeLoop fault d pos done (piece :: pieces) (fuel + 1) =
      some { dev := d, pos := pos, accepted := done, error := some (-ENOSPC) } := by
  rw [writeLoop, devWrite_of_full (fault done) (.inl h)]
  rfl

/-- A write inside the page. A call that copies nothing returns 0, and the piece is written again.
-/
theorem writeLoop_of_lt (h0 : 0 ≤ pos) (h : pos < PAGE_SIZE) (hpiece : piece ≠ []) :
    ∃ n : ℕ, (n : ℤ) = min (piece.length : ℤ) (PAGE_SIZE - pos) ∧ 0 < n ∧
      writeLoop fault d pos done (piece :: pieces) (fuel + 1) =
        writeLoop fault (devWrite d piece pos (fault done)).dev (pos + (n - fault done : ℕ))
          (done + (n - fault done)) (resubmit (piece.drop (n - fault done)) pieces) fuel := by
  obtain ⟨n, hn, hpos, hw⟩ := devWrite_of_lt (d := d) (fault done) h0 h hpiece
  refine ⟨n, hn, hpos, ?_⟩
  rw [writeLoop, hw]
  dsimp only
  rw [if_neg (Int.not_lt.mpr (Int.natCast_nonneg _)), nextPos_of_nonneg _ _ (Int.natCast_nonneg _),
    Int.toNat_natCast]

/-- What is resubmitted is what was left. -/
theorem resubmit_flatten (rest : List Byte) (pieces : List (List Byte)) :
    (resubmit rest pieces).flatten = rest ++ pieces.flatten := by
  unfold resubmit
  split
  next h => rw [h, List.nil_append]
  next => rw [List.flatten_cons]

theorem resubmit_size {n : ℕ} (hpiece : piece.length < n) (h : ∀ x ∈ pieces, x.length < n) (k : ℕ) :
    ∀ x ∈ resubmit (piece.drop k) pieces, x.length < n := by
  unfold resubmit
  split
  · exact h
  · refine List.forall_mem_cons.mpr ⟨?_, h⟩
    rw [List.length_drop]
    exact (Nat.sub_le _ _).trans_lt hpiece

theorem resubmit_ne_nil {rest : List Byte} {pieces : List (List Byte)}
    (h : ∀ p ∈ pieces, p ≠ []) : ∀ p ∈ resubmit rest pieces, p ≠ [] := by
  unfold resubmit
  split
  next => exact h
  next hrest => exact List.forall_mem_cons.mpr ⟨hrest, h⟩

end Turn

/-! ## On the machine -/

section Machine

variable {F : Type*} [DecidableEq F] {L : FixedSizeLlseek} {s : State F} {f : F} {p : ℤ}

/-- A write of a size that fits is performed. -/
theorem step_write (hs : Safe s) (hf : s.pos f = some p) {buf : List Byte}
    (hbuf : buf.length < 2 ^ 32) (fault : ℕ) :
    ∃ t, step L s (.write f buf fault) = some t ∧
      t.dev = (devWrite s.dev buf p fault).dev ∧
      t.pos f =
        some (nextPos p (devWrite s.dev buf p fault).ret (devWrite s.dev buf p fault).pos) := by
  obtain ⟨h0, hle⟩ := hs.pos f p hf
  have hpage : PAGE_SIZE = 4096 := rfl
  have hadmits : Admits buf.length p := ⟨hbuf, h0, by have := hs.dev.le; omega⟩
  refine ⟨{ s with
      dev := (devWrite s.dev buf p fault).dev
      pos := Function.update s.pos f (some (nextPos p (devWrite s.dev buf p fault).ret
        (devWrite s.dev buf p fault).pos)) }, ?_, rfl, Function.update_self f _ s.pos⟩
  rw [step, hf, Option.bind_some, if_pos hadmits]

/-- The writes of a loop, one after the other on one file, are a run. -/
theorem writeLoop_run {fault : ℕ → ℕ} {done fuel : ℕ} {pieces : List (List Byte)} {e : WriteEnd}
    (hs : Safe s) (hf : s.pos f = some p) (hsize : ∀ x ∈ pieces, x.length < 2 ^ 32)
    (h : writeLoop fault s.dev p done pieces fuel = some e) :
    ∃ (es : List (Event F)) (t : State F), (∀ x ∈ es, ∃ buf k, x = .write f buf (fault k)) ∧
      (machine F L).run s es = some t ∧ t.dev = e.dev ∧ t.pos f = some e.pos := by
  induction fuel generalizing s p done pieces with
  | zero =>
    cases pieces with
    | nil =>
      obtain rfl := Option.some.inj h
      exact ⟨[], s, fun x hx => absurd hx List.not_mem_nil, rfl, rfl, hf⟩
    | cons piece pieces => cases h
  | succ fuel ih =>
    cases pieces with
    | nil =>
      obtain rfl := Option.some.inj h
      exact ⟨[], s, fun x hx => absurd hx List.not_mem_nil, rfl, rfl, hf⟩
    | cons piece pieces =>
      obtain ⟨hpiece, hpieces⟩ := List.forall_mem_cons.mp hsize
      obtain ⟨t, hstep, hdev, hpos⟩ := step_write (L := L) hs hf hpiece (fault done)
      rw [writeLoop] at h
      split at h
      · obtain rfl := Option.some.inj h
        refine ⟨[.write f piece (fault done)], t, ?_, ?_, hdev, hpos⟩
        · exact List.forall_mem_singleton.mpr ⟨_, _, rfl⟩
        · exact Machine.run_cons_eq_some _ |>.mpr ⟨t, hstep, rfl⟩
      · rw [← hdev] at h
        obtain ⟨es, u, hes, hrun, hend⟩ :=
          ih (safe_step hs hstep) hpos (resubmit_size hpiece hpieces _) h
        refine ⟨.write f piece (fault done) :: es, u, ?_, ?_, hend⟩
        · exact List.forall_mem_cons.mpr ⟨⟨_, _, rfl⟩, hes⟩
        · exact Machine.run_cons_eq_some _ |>.mpr ⟨t, hstep, hrun⟩

end Machine

end LinuxRiscv32.Chardev

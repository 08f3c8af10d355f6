import LinuxRiscv32.Modules.ChardevSafe

/-!
# `chardev` is a bounded byte file

Reference: `modules/chardev.c` (`dev_read`, `dev_write`, `mychar_init`).

The abstract file is the log of what was stored: a byte is what was stored there last, or 0, and the
file ends at the largest end of a store. As long as every `copy_from_user` completes and nothing is
stored through a mapping, the page and `data_len` represent this file.
-/

namespace LinuxRiscv32.Chardev

open Common Kernel

variable {F : Type*}

/-- What a step stores by `dev_write`: the position and the bytes. -/
def stored (x : State F × Event F) : Option (ℤ × List Byte) :=
  (writeCall x.1 x.2).bind fun c =>
    let r := devWrite x.1.dev c.1 c.2.1 c.2.2
    if 0 < r.ret then some (c.2.1, c.1.take r.ret.toNat) else none

/-- Every `copy_from_user` completes and no mapping is written. -/
def CopiesComplete (_ : State F) : Event F → Prop
  | .write _ _ fault | .pwrite _ _ _ fault => fault = 0
  | .store _ _ _ => False
  | _ => True

instance (s : State F) (e : Event F) : Decidable (CopiesComplete s e) := by
  unfold CopiesComplete
  split <;> infer_instance

/-- In a run whose copies complete, the copy of a write is complete. -/
theorem fault_eq_zero {s : State F} {e : Event F} {buf : List Byte} {pos : ℤ} {fault : ℕ}
    (hG : CopiesComplete s e) (hcall : writeCall s e = some (buf, pos, fault)) : fault = 0 := by
  cases e with
  | write f buf' fault' =>
    obtain ⟨p, -, hp⟩ := Option.map_eq_some_iff.mp hcall
    obtain ⟨rfl, rfl, rfl⟩ := Prod.mk.injEq _ _ _ _ ▸ hp
    exact hG
  | pwrite f buf' pos' fault' =>
    obtain ⟨rfl, rfl, rfl⟩ := Prod.mk.injEq _ _ _ _ ▸ Option.some.inj hcall
    exact hG
  | _ => cases hcall

/-- The device represents the file with the stores `log`. -/
structure IsFile (log : List (ℤ × List Byte)) (s : State F) : Prop where
  safe : Safe s
  mem : Represents PAGE_SIZE 0 log s.dev.mem
  dataLen : s.dev.dataLen = logEnd log

/-- A new device is the empty file. -/
theorem isFile_init (junk : ℤ → Byte) : IsFile [] (init junk : State F) where
  safe := safe_init junk
  mem _ h0 hn := if_pos ⟨h0, hn⟩
  dataLen := rfl

variable [DecidableEq F] {L : FixedSizeLlseek} {log : List (ℤ × List Byte)} {s t : State F}
  {e : Event F}

/-- Each step adds to the file what it stores. -/
theorem isFile_step (hs : IsFile log s) (hG : CopiesComplete s e) (h : step L s e = some t) :
    IsFile (log ++ (stored (s, e)).toList) t := by
  have hsafe := safe_step hs.safe h
  cases step_effect h with
  | keep hdev _ hcall | map _ _ _ hdev _ hcall =>
    simp only [stored, hcall, Option.bind_none, Option.toList_none, List.append_nil]
    exact ⟨hsafe, hdev ▸ hs.mem, hdev ▸ hs.dataLen⟩
  | write buf pos fault hcall hadmits hdev _ =>
    obtain rfl := fault_eq_zero hG hcall
    simp only [stored, hcall, Option.bind_some]
    rcases devWrite_cases hadmits.2.1 buf 0 with hw | ⟨n, hn, hpos, hw⟩
    · -- the write has failed
      rw [hw] at hdev
      rw [hw, if_neg (by decide : ¬ 0 < -ENOSPC), Option.toList_none, List.append_nil]
      exact ⟨hsafe, hdev ▸ hs.mem, hdev ▸ hs.dataLen⟩
    · -- the `n` bytes stored are the first `n` of `buf`, as nothing was left uncopied
      rw [hw] at hdev
      rw [hw]
      have hret : (0 : ℤ) < (n - 0 : ℕ) := by omega
      rw [if_pos hret, Option.toList_some]
      have hlength : (buf.take n).length = n := by
        rw [List.length_take]
        omega
      refine ⟨hsafe, ?_, ?_⟩
      · rw [hdev]
        simpa using hs.mem.blit
      · rw [hdev, logEnd_concat, ← hs.dataLen]
        simp [hlength]
  | store i o bs m he | copy i o bs m he =>
    rw [he] at hG
    exact hG.elim

/-- A write that is let through to the driver and completes its copy stores as much as fits, unless
it is empty or at the end of the page. -/
theorem stored_of_step (hG : CopiesComplete s e) (h : step L s e = some t) {buf : List Byte}
    {pos : ℤ} {fault : ℕ} (hcall : writeCall s e = some (buf, pos, fault)) :
    stored (s, e) =
      if buf = [] ∨ PAGE_SIZE ≤ pos then none
      else some (pos, buf.take (min buf.length (PAGE_SIZE - pos).toNat)) := by
  obtain rfl := fault_eq_zero hG hcall
  have h0 : 0 ≤ pos := by
    cases step_effect h with
    | keep _ _ hnone | map _ _ _ _ _ hnone =>
      rw [hnone] at hcall
      cases hcall
    | write _ _ _ hcall' hadmits _ _ =>
      obtain ⟨rfl, rfl, -⟩ := Prod.mk.injEq _ _ _ _ ▸ Option.some.inj (hcall'.symm.trans hcall)
      exact hadmits.2.1
    | store _ _ _ _ he | copy _ _ _ _ he =>
      rw [he] at hcall
      cases hcall
  simp only [stored, hcall, Option.bind_some]
  by_cases hfull : buf = [] ∨ PAGE_SIZE ≤ pos
  · rw [if_pos hfull, devWrite_of_full 0 (hfull.symm.imp_right fun hbuf => ⟨h0, hbuf⟩),
      if_neg (by decide : ¬ 0 < -ENOSPC)]
  · obtain ⟨hbuf, hpos⟩ := not_or.mp hfull
    obtain ⟨n, hn, hn0, hwrite⟩ := devWrite_of_lt (d := s.dev) 0 h0 (not_le.mp hpos) hbuf
    have hret : (0 : ℤ) < (n - 0 : ℕ) := by omega
    have hmin : min buf.length (PAGE_SIZE - pos).toNat = n := by omega
    rw [if_neg hfull, hwrite, if_pos hret, hmin]
    rfl

/-- **A bounded byte file.** After any run in which the copies from the user complete and no mapping
is written, a `dev_read` delivers what was stored last at each position, or 0; it never reads beyond
the largest end of a store; and if the copy to the user is complete it returns all that was asked
for up to `data_len`. Every write of the run in front of the end of the page has stored as much of
its bytes as fits. -/
theorem devRead_of_run {junk : ℤ → Byte} {es : List (Event F)}
    (hG : (machine F L).Along CopiesComplete (init junk) es)
    (hrun : (machine F L).run (init junk) es = some s) {count : ℕ} {pos : ℤ}
    (hadmits : Admits count pos) (fault : ℕ) :
    let log := ((machine F L).trace (init junk) es).filterMap stored
    let r := devRead s.dev count pos fault
    r.data.length = r.ret ∧
      (∀ i (hi : i < r.data.length), r.data[i] = (lastStored log (pos + i)).getD 0) ∧
      (0 < r.ret → pos + r.ret ≤ logEnd log) ∧
      (0 < count → fault = 0 →
        r.ret = if pos < s.dev.dataLen then min (count : ℤ) (s.dev.dataLen - pos) else 0) ∧
      ∀ x ∈ (machine F L).trace (init junk) es, ∀ (buf : List Byte) (p : ℤ) (k : ℕ),
        writeCall x.1 x.2 = some (buf, p, k) →
          stored x =
            if buf = [] ∨ PAGE_SIZE ≤ p then none
            else some (p, buf.take (min buf.length (PAGE_SIZE - p).toNat)) := by
  intro log r
  have hfile : IsFile log s := by
    refine Machine.history_invariant (M := machine F L)
      (I := fun h u => IsFile (h.filterMap stored) u) ?_ (isFile_init junk) hG hrun
    intro h u e u' hu hGe hstep
    rw [List.filterMap_append]
    exact isFile_step hu hGe hstep
  have hwrites : ∀ x ∈ (machine F L).trace (init junk) es, ∀ (buf : List Byte) (p : ℤ) (k : ℕ),
      writeCall x.1 x.2 = some (buf, p, k) →
        stored x =
          if buf = [] ∨ PAGE_SIZE ≤ p then none
          else some (p, buf.take (min buf.length (PAGE_SIZE - p).toNat)) := by
    intro x hx buf p k hcall
    obtain ⟨u, hu⟩ := Machine.exists_step_of_mem_trace _ hrun hx
    exact stored_of_step (hG x hx) hu hcall
  have hd := hfile.safe.dev
  have h0 : 0 ≤ pos := hadmits.2.1
  by_cases h : pos < s.dev.dataLen
  · obtain ⟨n, hn, hr⟩ := devRead_of_lt count fault hd h0 h
    have hr : r = _ := hr
    clear_value r
    subst hr
    refine ⟨by rw [slice_length], fun i hi => ?_, fun _ => ?_, fun _ hfault => ?_, hwrites⟩
    · rw [slice_length] at hi
      rw [slice_getElem]
      have := hd.le
      exact hfile.mem _ (by omega) (by omega)
    · rw [← hfile.dataLen]
      dsimp only
      omega
    · rw [if_pos h, hfault, ← hn, Nat.sub_zero]
  · have hr : r = _ := devRead_of_ge fault (not_lt.mp h)
    clear_value r
    subst hr
    refine ⟨rfl, fun i hi => absurd hi (Nat.not_lt_zero i), fun h => absurd h (lt_irrefl _),
      fun _ _ => (if_neg h).symm, hwrites⟩

/-- Two files write over each other and leave a hole. -/
def twoFiles : List (Event Bool) :=
  [.open true, .open false, .write true [1, 2, 3] 0, .pwrite false [4, 5] 2 0, .pwrite true [6] 7 0]

theorem devRead_twoFiles :
    let M := machine Bool .linux
    let s := (M.run (init fun _ => 0) twoFiles).get (by decide)
    let log := (M.trace (init fun _ => 0) twoFiles).filterMap stored
    let r := devRead s.dev 100 1 0
    r.data.length = r.ret ∧
      (∀ i (hi : i < r.data.length), r.data[i] = (lastStored log (1 + i)).getD 0) ∧
      1 + r.ret ≤ logEnd log ∧ r.ret = min (100 : ℤ) (s.dev.dataLen - 1) ∧
      ∃ x ∈ M.trace (init fun _ => 0) twoFiles, stored x = some (0, [1, 2, 3]) := by
  intro M s log r
  have hrun : M.run (init fun _ => 0) twoFiles = some s := (Option.some_get _).symm
  have hadmits : Admits 100 1 := by decide
  obtain ⟨hlength, hdata, hend, hret, hwrites⟩ := devRead_of_run (by decide) hrun hadmits 0
  -- the third step of the run is the first of its writes
  have hmem : (M.trace (init fun _ => 0) twoFiles)[2] ∈ M.trace (init fun _ => 0) twoFiles :=
    List.getElem_mem _
  exact ⟨hlength, hdata, hend (by decide), (hret (by decide) rfl).trans (if_pos (by decide)),
    _, hmem, hwrites _ hmem [1, 2, 3] 0 0 (by decide)⟩

end LinuxRiscv32.Chardev

import LinuxRiscv32.Modules.Chardev

/-!
# `chardev` stays within its page

Reference: `modules/chardev.c` (`dev_read`, `dev_write`, `dev_llseek`).

The position of a file is bounded by `data_len`, which other files may change. As `data_len` never
decreases, their operations cannot break the bound.
-/

namespace LinuxRiscv32.Chardev

open Common Kernel

variable {F : Type*}

/-- `data_len` is at most a page and bounds every position. -/
structure Safe (s : State F) : Prop where
  dev : s.dev.Ok
  pos : ∀ f p, s.pos f = some p → 0 ≤ p ∧ p ≤ s.dev.dataLen

/-- The range, if there is one, lies within the first `n` bytes. -/
def Within (range : Option (ℤ × ℤ)) (n : ℤ) : Prop :=
  ∀ x ∈ range, 0 ≤ x.1 ∧ 0 ≤ x.2 ∧ x.1 + x.2 ≤ n

/-! ## The driver's functions -/

section Driver

variable {d : Dev} {pos : ℤ}

/-- A read touches what lies below `data_len`. -/
theorem devRead_range (hd : d.Ok) (h0 : 0 ≤ pos) (count fault : ℕ) :
    Within (devRead d count pos fault).range d.dataLen := by
  intro x hx
  by_cases h : pos < d.dataLen
  · obtain ⟨n, hn, hr⟩ := devRead_of_lt count fault hd h0 h
    rw [hr] at hx
    obtain rfl := Option.some.inj hx
    exact ⟨h0, by omega, by omega⟩
  · rw [devRead_of_ge fault (not_lt.mp h)] at hx
    cases hx

/-- A read leaves a position up to `data_len`. -/
theorem devRead_nextPos (hd : d.Ok) (h0 : 0 ≤ pos) (hle : pos ≤ d.dataLen) (count fault : ℕ) :
    0 ≤ nextPos pos (devRead d count pos fault).ret (devRead d count pos fault).pos ∧
      nextPos pos (devRead d count pos fault).ret (devRead d count pos fault).pos ≤ d.dataLen := by
  by_cases h : pos < d.dataLen
  · obtain ⟨n, hn, hr⟩ := devRead_of_lt count fault hd h0 h
    rw [hr, nextPos_of_nonneg _ _ (Int.natCast_nonneg _)]
    show 0 ≤ pos + (n - fault : ℕ) ∧ pos + (n - fault : ℕ) ≤ d.dataLen
    omega
  · rw [devRead_of_ge fault (not_lt.mp h), nextPos_of_nonneg _ _ le_rfl]
    exact ⟨h0, hle⟩

/-- Either a write changes nothing, or it stores `n` bytes inside the page. -/
theorem devWrite_cases (h0 : 0 ≤ pos) (buf : List Byte) (fault : ℕ) :
    devWrite d buf pos fault = { ret := -ENOSPC, pos := pos, dev := d, range := none } ∨
      ∃ n : ℕ, (n : ℤ) = min (buf.length : ℤ) (PAGE_SIZE - pos) ∧ 0 < n ∧
        devWrite d buf pos fault =
          { ret := (n - fault : ℕ), pos := pos + (n - fault : ℕ)
            dev :=
              { mem := blit d.mem pos (buf.take (n - fault) ++ List.replicate (min fault n) 0)
                dataLen := max d.dataLen (pos + (n - fault : ℕ)) }
            range := some (pos, n) } := by
  by_cases hbuf : buf = []
  · exact .inl (devWrite_of_full fault (.inr ⟨h0, hbuf⟩))
  · by_cases h : pos < PAGE_SIZE
    · exact .inr (devWrite_of_lt fault h0 h hbuf)
    · exact .inl (devWrite_of_full fault (.inl (not_lt.mp h)))

/-- A write touches what lies in the page. -/
theorem devWrite_range (h0 : 0 ≤ pos) (buf : List Byte) (fault : ℕ) :
    Within (devWrite d buf pos fault).range PAGE_SIZE := by
  intro x hx
  rcases devWrite_cases h0 buf fault with h | ⟨n, hn, -, h⟩
  · rw [h] at hx
    cases hx
  · rw [h] at hx
    obtain rfl := Option.some.inj hx
    exact ⟨h0, by omega, by omega⟩

/-- A write does not lower `data_len`, and keeps it in range. -/
theorem devWrite_dev (hd : d.Ok) (h0 : 0 ≤ pos) (buf : List Byte) (fault : ℕ) :
    (devWrite d buf pos fault).dev.Ok ∧ d.dataLen ≤ (devWrite d buf pos fault).dev.dataLen := by
  rcases devWrite_cases h0 buf fault with h | ⟨n, hn, -, h⟩
  · rw [h]
    exact ⟨hd, le_rfl⟩
  · rw [h]
    obtain ⟨hd0, hd1⟩ := hd
    exact ⟨⟨by dsimp only; omega, by dsimp only; omega⟩, by dsimp only; omega⟩

/-- A write leaves a position up to the new `data_len`. -/
theorem devWrite_nextPos (h0 : 0 ≤ pos) (hle : pos ≤ d.dataLen) (buf : List Byte) (fault : ℕ) :
    0 ≤ nextPos pos (devWrite d buf pos fault).ret (devWrite d buf pos fault).pos ∧
      nextPos pos (devWrite d buf pos fault).ret (devWrite d buf pos fault).pos ≤
        (devWrite d buf pos fault).dev.dataLen := by
  rcases devWrite_cases h0 buf fault with h | ⟨n, -, -, h⟩
  · rw [h, nextPos_of_neg _ _ (by decide : -ENOSPC < 0)]
    exact ⟨h0, hle⟩
  · rw [h, nextPos_of_nonneg _ _ (Int.natCast_nonneg _)]
    exact ⟨Int.add_nonneg h0 (Int.natCast_nonneg _), le_max_right _ _⟩

end Driver

/-! ## One operation -/

/-- An operation on file `f` that does not shorten the data and leaves `f` within them. -/
theorem Safe.set [DecidableEq F] {s t : State F} (hs : Safe s) {f : F} {q : Option ℤ}
    (hdev : t.dev.Ok) (hle : s.dev.dataLen ≤ t.dev.dataLen)
    (hpos : t.pos = Function.update s.pos f q) (hq : ∀ p ∈ q, 0 ≤ p ∧ p ≤ t.dev.dataLen) :
    Safe t where
  dev := hdev
  pos := by
    rw [hpos]
    refine (Function.forall_update_iff s.pos
      fun _ q => ∀ p, q = some p → 0 ≤ p ∧ p ≤ t.dev.dataLen).mpr ⟨hq, fun g _ p hg => ?_⟩
    exact ⟨(hs.pos g p hg).1, (hs.pos g p hg).2.trans hle⟩

variable [DecidableEq F] {L : FixedSizeLlseek} {s t : State F} {e : Event F}

/-- No step lowers `data_len`. -/
theorem dataLen_step (hs : Safe s) (h : step L s e = some t) :
    t.dev.Ok ∧ s.dev.dataLen ≤ t.dev.dataLen := by
  cases step_effect h with
  | keep hdev _ _ | map _ _ _ hdev _ _ | copy _ _ _ _ _ _ _ _ hdev _ =>
    rw [hdev]
    exact ⟨hs.dev, le_rfl⟩
  | write buf pos fault _ hadmits hdev _ =>
    rw [hdev]
    exact devWrite_dev hs.dev hadmits.2.1 buf fault
  | store _ _ _ _ _ _ _ _ hdev _ =>
    rw [hdev]
    exact ⟨⟨hs.dev.nonneg, hs.dev.le⟩, le_rfl⟩

/-- Each step keeps `data_len` and the positions in range. -/
theorem safe_step (hs : Safe s) (h : step L s e = some t) : Safe t := by
  obtain ⟨hdev, hle⟩ := dataLen_step hs h
  have hpos : ∀ u : State F, u.pos = s.pos → u.dev = t.dev → Safe u := by
    intro u hpos hu
    refine ⟨hu ▸ hdev, fun f p hf => ?_⟩
    rw [hpos] at hf
    rw [hu]
    exact ⟨(hs.pos f p hf).1, (hs.pos f p hf).2.trans hle⟩
  cases e with
  | «open» f =>
    obtain ⟨-, rfl⟩ := Machine.guard_eq_some.mp h
    refine hs.set hdev hle rfl fun p hp => ?_
    obtain rfl := Option.some.inj hp
    exact ⟨le_rfl, hs.dev.nonneg⟩
  | release f =>
    obtain ⟨-, rfl⟩ := Machine.refusal_eq_some.mp h
    exact hs.set hdev hle rfl fun p hp => nomatch hp
  | read f count fault =>
    obtain ⟨p, hf, hp⟩ := Option.bind_eq_some_iff.mp h
    obtain ⟨-, rfl⟩ := Machine.guard_eq_some.mp hp
    refine hs.set hdev hle rfl fun p' hp' => ?_
    obtain rfl := Option.some.inj hp'
    exact devRead_nextPos hs.dev (hs.pos f p hf).1 (hs.pos f p hf).2 count fault
  | write f buf fault =>
    obtain ⟨p, hf, hp⟩ := Option.bind_eq_some_iff.mp h
    obtain ⟨-, rfl⟩ := Machine.guard_eq_some.mp hp
    refine hs.set hdev hle rfl fun p' hp' => ?_
    obtain rfl := Option.some.inj hp'
    exact devWrite_nextPos (hs.pos f p hf).1 (hs.pos f p hf).2 buf fault
  | llseek f offset whence =>
    obtain ⟨p, hf, ht⟩ := Option.bind_eq_some_iff.mp h
    obtain rfl := Option.some.inj ht
    refine hs.set hdev hle rfl fun p' hp' => ?_
    obtain rfl := Option.some.inj hp'
    rcases L.keeps_or_sets p offset whence s.dev.dataLen with hkeep | hset
    · rw [hkeep]
      exact hs.pos f p hf
    · exact hset
  | pread f count pos fault =>
    obtain ⟨p, -, hp⟩ := Option.bind_eq_some_iff.mp h
    obtain ⟨-, rfl⟩ := Machine.guard_eq_some.mp hp
    exact hs
  | pwrite f buf pos fault =>
    obtain ⟨p, -, hp⟩ := Option.bind_eq_some_iff.mp h
    obtain ⟨-, rfl⟩ := Machine.guard_eq_some.mp hp
    exact hpos _ rfl rfl
  | mmap v ok =>
    obtain rfl := Option.some.inj h
    refine hpos _ ?_ rfl
    split <;> rfl
  | store i o bs =>
    obtain ⟨m, -, hp⟩ := Option.bind_eq_some_iff.mp h
    obtain ⟨-, rfl⟩ := Machine.guard_eq_some.mp hp
    exact hpos _ rfl rfl

omit [DecidableEq F] in
/-- A new device is safe. -/
theorem safe_init (junk : ℤ → Byte) : Safe (init junk : State F) :=
  ⟨⟨le_rfl, (by decide : (0 : ℤ) ≤ PAGE_SIZE)⟩, fun _ _ h => nomatch h⟩

/-- Every reachable state is safe. -/
theorem safe_of_run {junk : ℤ → Byte} {es : List (Event F)}
    (hrun : (machine F L).run (init junk) es = some s) : Safe s :=
  Machine.invariant_of_step (M := machine F L) (fun _ _ _ => safe_step) (safe_init junk) hrun

omit [DecidableEq F] in
/-- Whatever is called next, the driver stays within the data and within the page. -/
theorem ranges_of_safe (hs : Safe s) (e : Event F) :
    Within (readRange s e) s.dev.dataLen ∧ Within (writeRange s e) PAGE_SIZE := by
  constructor
  · intro x hx
    obtain ⟨c, -, hx⟩ := Option.bind_eq_some_iff.mp hx
    obtain ⟨hadmits, hx⟩ := Option.ite_none_right_eq_some.mp hx
    exact devRead_range hs.dev hadmits.2.1 _ _ x hx
  · intro x hx
    obtain ⟨c, -, hx⟩ := Option.bind_eq_some_iff.mp hx
    obtain ⟨hadmits, hx⟩ := Option.ite_none_right_eq_some.mp hx
    exact devWrite_range hadmits.2.1 _ _ x hx

/-- **The device is safe.** In every reachable state, `data_len` is at most a page, every open file
is positioned within the data, `data_len` never decreases from there on, and the next operation,
whatever it is, reads within the data and writes within the page. -/
theorem chardev_safe {junk : ℤ → Byte} {es : List (Event F)}
    (hrun : (machine F L).run (init junk) es = some s) :
    Safe s ∧ (∀ es' t, (machine F L).run s es' = some t → s.dev.dataLen ≤ t.dev.dataLen) ∧
      ∀ e, Within (readRange s e) s.dev.dataLen ∧ Within (writeRange s e) PAGE_SIZE := by
  have hs := safe_of_run hrun
  refine ⟨hs, fun es' t hrun' => ?_, ranges_of_safe hs⟩
  have hinv : Safe t ∧ s.dev.dataLen ≤ t.dev.dataLen := by
    refine Machine.invariant_of_step (M := machine F L)
      (I := fun u => Safe u ∧ s.dev.dataLen ≤ u.dev.dataLen) ?_ ⟨hs, le_rfl⟩ hrun'
    intro u e u' hu hstep
    exact ⟨safe_step hu.1 hstep, hu.2.trans (dataLen_step hu.1 hstep).2⟩
  exact hinv.2

/-- One file is written, moved and read. -/
def oneFile : List (Event Unit) :=
  [.open (), .write () [1, 2, 3] 1, .llseek () 1 .set, .read () 5 0]

theorem chardev_safe_oneFile :
    let s := ((machine Unit .linux).run (init fun _ => 0) oneFile).get (by decide)
    Safe s ∧ (∀ es t, (machine Unit .linux).run s es = some t → s.dev.dataLen ≤ t.dev.dataLen) ∧
      ∀ e, Within (readRange s e) s.dev.dataLen ∧ Within (writeRange s e) PAGE_SIZE :=
  chardev_safe (Option.some_get _).symm

end LinuxRiscv32.Chardev

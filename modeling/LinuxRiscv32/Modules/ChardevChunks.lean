import LinuxRiscv32.Modules.ChardevReturn

/-!
# `chardev`: chunking does not matter

Reference: `modules/chardev.c` (`dev_read`, `dev_write`).

What a sequence of writes leaves only depends on the concatenation of its pieces, and what a
sequence of reads returns is the data from the first position on. Both follow from one call by
`blit_append` and `slice_add`.
-/

namespace LinuxRiscv32.Chardev

open Common Kernel

/-- The device with `bs` stored at `pos`. -/
def Dev.store (d : Dev) (pos : ℤ) (bs : List Byte) : Dev :=
  { mem := blit d.mem pos bs, dataLen := max d.dataLen (pos + bs.length) }

/-- How many of `count` bytes fit behind `pos`. -/
def fitting (count : ℕ) (pos : ℤ) : ℕ := min count (PAGE_SIZE - pos).toNat

section Store

variable {d : Dev} {pos : ℤ}

/-- A store of no bytes changes nothing. -/
theorem Dev.store_nil (h : pos ≤ d.dataLen) : d.store pos [] = d := by
  rw [Dev.store, blit_nil, List.length_nil, Nat.cast_zero, add_zero, max_eq_left h]

/-- Two stores, one behind the other, are one. -/
theorem Dev.store_store (as bs : List Byte) :
    (d.store pos as).store (pos + as.length) bs = d.store pos (as ++ bs) := by
  unfold Dev.store
  rw [blit_append, List.length_append]
  congr 1
  dsimp only
  omega

/-- A store inside the page keeps `data_len` in range. -/
theorem Dev.Ok.store (hd : d.Ok) {bs : List Byte} (h : pos + bs.length ≤ PAGE_SIZE) :
    (d.store pos bs).Ok ∧ pos + bs.length ≤ (d.store pos bs).dataLen :=
  ⟨⟨hd.nonneg.trans (le_max_left _ _), max_le hd.le h⟩, le_max_right _ _⟩

/-- A write inside the page stores what fits. -/
theorem devWrite_fitting (h0 : 0 ≤ pos) (h : pos < PAGE_SIZE) {buf : List Byte} (hbuf : buf ≠ []) :
    0 < fitting buf.length pos ∧
      devWrite d buf pos 0 =
        { ret := fitting buf.length pos, pos := pos + fitting buf.length pos
          dev := d.store pos (buf.take (fitting buf.length pos))
          range := some (pos, fitting buf.length pos) } := by
  obtain ⟨n, hn, hpos, hwrite⟩ := devWrite_of_lt (d := d) 0 h0 h hbuf
  obtain rfl : fitting buf.length pos = n := by
    unfold fitting
    omega
  have hlength : (buf.take (fitting buf.length pos)).length = fitting buf.length pos := by
    rw [List.length_take]
    exact min_eq_left (Nat.min_le_left _ _)
  refine ⟨hpos, ?_⟩
  rw [hwrite, Dev.store, hlength, Nat.sub_zero, Nat.zero_min, List.replicate_zero, List.append_nil]

/-- A single write of bytes that fit; it may also be one of no bytes. -/
theorem devWrite_store (h0 : 0 ≤ pos) (hle : pos ≤ d.dataLen) {bs : List Byte}
    (hfit : fitting bs.length pos = bs.length) :
    (devWrite d bs pos 0).dev = d.store pos bs ∧
      nextPos pos (devWrite d bs pos 0).ret (devWrite d bs pos 0).pos = pos + bs.length ∧
      (devWrite d bs pos 0).ret.toNat = bs.length := by
  by_cases hbs : bs = []
  · rw [devWrite_of_full 0 (.inr ⟨h0, hbs⟩), hbs, Dev.store_nil hle]
    refine ⟨rfl, ?_, rfl⟩
    rw [nextPos_of_neg _ _ (by decide : -ENOSPC < 0), List.length_nil, Nat.cast_zero, add_zero]
  · have hpos := List.length_pos_iff.mpr hbs
    have hlt : pos < PAGE_SIZE := by
      unfold fitting at hfit
      omega
    obtain ⟨-, hwrite⟩ := devWrite_fitting (d := d) h0 hlt hbs
    rw [hwrite, hfit, List.take_length]
    exact ⟨rfl, nextPos_of_nonneg _ _ (Int.natCast_nonneg _), Int.toNat_natCast _⟩

end Store

/-! ## Writing pieces -/

section Writes

/-- What a loop of writes that copy everything leaves: all that fits is stored, and the loop ends
with an error if that is not all. -/
def chunksEnd (d : Dev) (pos : ℤ) (done : ℕ) (bs : List Byte) : WriteEnd :=
  { dev := d.store pos (bs.take (fitting bs.length pos))
    pos := pos + fitting bs.length pos
    accepted := done + fitting bs.length pos
    error := if (bs.length : ℤ) ≤ PAGE_SIZE - pos then none else some (-ENOSPC) }

variable {d : Dev} {pos : ℤ} {done : ℕ} {bs : List Byte}

/-- Storing the first `m` bytes and then the others is storing all. -/
theorem chunksEnd_drop {m : ℕ} (hm : m ≤ fitting bs.length pos) :
    chunksEnd (d.store pos (bs.take m)) (pos + m) (done + m) (bs.drop m) =
      chunksEnd d pos done bs := by
  have hle : m ≤ bs.length := hm.trans (Nat.min_le_left _ _)
  have htake : (bs.take m).length = m := by
    rw [List.length_take, min_eq_left hle]
  have hfit : m + fitting (bs.drop m).length (pos + m) = fitting bs.length pos := by
    unfold fitting at *
    rw [List.length_drop]
    omega
  have hdev : (d.store pos (bs.take m)).store (pos + m)
      ((bs.drop m).take (fitting (bs.drop m).length (pos + m))) =
      d.store pos (bs.take (fitting bs.length pos)) := by
    rw [← hfit, List.take_add, ← Dev.store_store, htake]
  have herror : (((bs.drop m).length : ℤ) ≤ PAGE_SIZE - (pos + m)) =
      ((bs.length : ℤ) ≤ PAGE_SIZE - pos) := by
    rw [List.length_drop]
    exact propext (by omega)
  unfold chunksEnd
  rw [hdev, add_assoc pos, add_assoc done, ← Nat.cast_add, hfit]
  simp only [herror]

/-- At the end of the page. -/
theorem chunksEnd_of_full (hle : pos ≤ d.dataLen) (hpage : pos = PAGE_SIZE) (hbs : bs ≠ []) :
    chunksEnd d pos done bs =
      { dev := d, pos := pos, accepted := done, error := some (-ENOSPC) } := by
  have hpos := List.length_pos_iff.mpr hbs
  have hfit : fitting bs.length pos = 0 := by
    unfold fitting
    omega
  rw [chunksEnd, hfit, List.take_zero, Dev.store_nil hle, Nat.cast_zero, add_zero, add_zero,
    if_neg (by omega)]

theorem chunksEnd_nil (hle : pos ≤ d.dataLen) (hpage : pos ≤ PAGE_SIZE) :
    chunksEnd d pos done [] = { dev := d, pos := pos, accepted := done, error := none } := by
  have hfit : fitting ([] : List Byte).length pos = 0 := Nat.zero_min _
  rw [chunksEnd, hfit, List.take_nil, Dev.store_nil hle, Nat.cast_zero, add_zero, add_zero,
    if_pos (by rw [List.length_nil]; omega)]

/-- A turn of the loop inside the page. -/
theorem writeLoop_fitting (h0 : 0 ≤ pos) (h : pos < PAGE_SIZE) {piece : List Byte}
    (hpiece : piece ≠ []) (pieces : List (List Byte)) (fuel : ℕ) :
    writeLoop (fun _ => 0) d pos done (piece :: pieces) (fuel + 1) =
      writeLoop (fun _ => 0) (d.store pos (piece.take (fitting piece.length pos)))
        (pos + fitting piece.length pos) (done + fitting piece.length pos)
        (resubmit (piece.drop (fitting piece.length pos)) pieces) fuel := by
  obtain ⟨-, hwrite⟩ := devWrite_fitting (d := d) h0 h hpiece
  rw [writeLoop, hwrite]
  dsimp only
  rw [if_neg (Int.not_lt.mpr (Int.natCast_nonneg _)), nextPos_of_nonneg _ _ (Int.natCast_nonneg _),
    Int.toNat_natCast]

/-- The loop of writes leaves what `chunksEnd` says. -/
theorem writeLoop_chunks (hd : d.Ok) (h0 : 0 ≤ pos) (hle : pos ≤ d.dataLen)
    {pieces : List (List Byte)} (hpieces : ∀ x ∈ pieces, x ≠ []) {fuel : ℕ}
    (hfuel : pieces.flatten.length < fuel) :
    writeLoop (fun _ => 0) d pos done pieces fuel =
      some (chunksEnd d pos done pieces.flatten) := by
  have hpage : pos ≤ PAGE_SIZE := hle.trans hd.le
  induction fuel generalizing d pos done pieces with
  | zero => exact absurd hfuel (Nat.not_lt_zero _)
  | succ fuel ih =>
    cases pieces with
    | nil => rw [writeLoop, List.flatten_nil, chunksEnd_nil hle hpage]
    | cons piece pieces =>
      obtain ⟨hpiece, hrest⟩ := List.forall_mem_cons.mp hpieces
      rw [List.flatten_cons] at hfuel ⊢
      by_cases hlt : pos < PAGE_SIZE
      · have hpos := (devWrite_fitting (d := d) h0 hlt hpiece).1
        have hm : fitting piece.length pos ≤ piece.length := Nat.min_le_left _ _
        have hroom : (fitting piece.length pos : ℤ) ≤ PAGE_SIZE - pos := by
          unfold fitting
          omega
        have htake : (piece.take (fitting piece.length pos)).length = fitting piece.length pos := by
          rw [List.length_take, min_eq_left hm]
        have hend : pos + (piece.take (fitting piece.length pos)).length ≤ PAGE_SIZE := by
          rw [htake]
          omega
        obtain ⟨hok, hbehind⟩ := hd.store hend
        rw [htake] at hbehind
        have hrestLength : (resubmit (piece.drop (fitting piece.length pos)) pieces).flatten.length
            < fuel := by
          rw [resubmit_flatten, List.length_append, List.length_drop]
          rw [List.length_append] at hfuel
          omega
        have hlater : fitting piece.length pos ≤ fitting (piece ++ pieces.flatten).length pos := by
          unfold fitting
          rw [List.length_append]
          omega
        rw [writeLoop_fitting h0 hlt hpiece, ih hok (by omega) hbehind (resubmit_ne_nil hrest)
          hrestLength (by omega), resubmit_flatten, ← List.drop_append_of_le_length hm,
          ← @List.take_append_of_le_length _ _ pieces.flatten _ hm, chunksEnd_drop hlater]
      · rw [writeLoop_of_ge (not_lt.mp hlt),
          chunksEnd_of_full hle (le_antisymm hpage (not_lt.mp hlt))
            (List.append_ne_nil_of_left_ne_nil hpiece _)]

end Writes

/-! ## Reading in chunks -/

/-- What a loop of reads receives if each of its reads copies something: the data from the first
position on. -/
theorem readLoop_data {d : Dev} (hd : d.Ok) (calls : List (ℕ × ℕ)) {pos : ℤ} (h0 : 0 ≤ pos)
    (hcopies : ReadsCopy d pos calls) {e : ReadEnd} (h : readLoop d pos calls = some e) :
    e.ret = 0 ∧ e.data = slice d.mem pos (d.dataLen - pos).toNat := by
  induction calls generalizing pos e with
  | nil => cases h
  | cons call calls ih =>
    obtain ⟨count, fault⟩ := call
    by_cases hlt : pos < d.dataLen
    · obtain ⟨n, hn, hloop⟩ := readLoop_of_lt hd h0 hlt count fault calls
      obtain ⟨hsome, hrest⟩ := hcopies hlt
      rw [CopiesSome, ← hn, Nat.cast_lt] at hsome
      have hnext : pos + (min (count : ℤ) (d.dataLen - pos) - fault) = pos + (n - fault : ℕ) := by
        omega
      have hlength : (d.dataLen - pos).toNat =
          (n - fault) + (d.dataLen - (pos + (n - fault : ℕ))).toNat := by
        omega
      rw [hloop, if_neg (Nat.not_le.mpr hsome)] at h
      obtain ⟨e', he', rfl⟩ := Option.map_eq_some_iff.mp h
      rw [hnext] at hrest
      obtain ⟨hret, hdata⟩ := ih (by omega) hrest he'
      refine ⟨hret, ?_⟩
      rw [hlength, slice_add, ← hdata]
    · rw [readLoop_of_ge (not_lt.mp hlt)] at h
      obtain rfl := Option.some.inj h
      rw [show (d.dataLen - pos).toNat = 0 by omega]
      exact ⟨rfl, rfl⟩

/-- Reads of positive counts whose copies complete copy something. -/
theorem readsCopy_of_pos (d : Dev) {counts : List ℕ} (h : ∀ count ∈ counts, 0 < count) (pos : ℤ) :
    ReadsCopy d pos (counts.map fun count => (count, 0)) := by
  induction counts generalizing pos with
  | nil => trivial
  | cons count counts ih =>
    obtain ⟨hcount, hcounts⟩ := List.forall_mem_cons.mp h
    refine fun hlt => ⟨?_, ih hcounts _⟩
    rw [CopiesSome, Nat.cast_zero]
    omega

/-! ## Reachable states -/

/-- A single write of as much of `bs` as fits. -/
def oneWrite (d : Dev) (pos : ℤ) (bs : List Byte) : WriteResult :=
  devWrite d (bs.take (fitting bs.length pos)) pos 0

/-- A loop of writes has left what the single write leaves, and it has ended with `-ENOSPC` if that
does not store all. -/
structure AsOneWrite (d : Dev) (p : ℤ) (bs : List Byte) (e : WriteEnd) : Prop where
  dev : e.dev = (oneWrite d p bs).dev
  pos : e.pos = nextPos p (oneWrite d p bs).ret (oneWrite d p bs).pos
  accepted : e.accepted = (oneWrite d p bs).ret.toNat
  accepted_eq : e.accepted = min bs.length (PAGE_SIZE - p).toNat
  error : e.error = if (bs.length : ℤ) > PAGE_SIZE - p then some (-ENOSPC) else none

/-- What a loop of writes leaves is what one write leaves. -/
theorem chunksEnd_asOneWrite {d : Dev} {pos : ℤ} (h0 : 0 ≤ pos) (hle : pos ≤ d.dataLen)
    (bs : List Byte) : AsOneWrite d pos bs (chunksEnd d pos 0 bs) := by
  have htake : (bs.take (fitting bs.length pos)).length = fitting bs.length pos := by
    rw [List.length_take]
    exact min_eq_left (Nat.min_le_left _ _)
  have hfit : fitting (bs.take (fitting bs.length pos)).length pos =
      (bs.take (fitting bs.length pos)).length := by
    rw [htake]
    unfold fitting
    omega
  obtain ⟨hdev, hpos, hret⟩ := devWrite_store h0 hle hfit
  rw [htake] at hpos hret
  constructor
  · exact hdev.symm
  · exact hpos.symm
  · rw [oneWrite, hret]
    exact Nat.zero_add _
  · exact Nat.zero_add _
  · simp only [chunksEnd, gt_iff_lt, ← not_le, ite_not]

section Reachable

variable {F : Type*} [DecidableEq F] {L : FixedSizeLlseek} {s : State F}

/-- **Chunking does not matter.** In every reachable state and for every open file: pieces that are
written one after the other leave what a single write leaves, and reads of positive counts receive
the data from their first position on. A write in front of the end of the page stores as much of its
bytes as fits. -/
theorem chunking_irrelevant {junk : ℤ → Byte} {es : List (Event F)}
    (hrun : (machine F L).run (init junk) es = some s) {f : F} {p : ℤ} (hf : s.pos f = some p) :
    (∀ pieces : List (List Byte), (∀ x ∈ pieces, x ≠ []) → ∃ e,
      AsOneWrite s.dev p pieces.flatten e ∧
      (∀ fuel, pieces.flatten.length < fuel →
        writeLoop (fun _ => 0) s.dev p 0 pieces fuel = some e) ∧
      ((∀ x ∈ pieces, x.length < 2 ^ 32) → ∃ (es' : List (Event F)) (t : State F),
        (∀ x ∈ es', ∃ buf, x = .write f buf 0) ∧ (machine F L).run s es' = some t ∧
          t.dev = e.dev ∧ t.pos f = some e.pos)) ∧
    (∀ (q : ℤ) (counts : List ℕ), 0 ≤ q → q ≤ s.dev.dataLen → (∀ count ∈ counts, 0 < count) →
      (∀ e, readLoop s.dev q (counts.map fun count => (count, 0)) = some e →
        e.ret = 0 ∧ e.data = slice s.dev.mem q (s.dev.dataLen - q).toNat) ∧
      ((s.dev.dataLen - q).toNat < counts.length →
        (readLoop s.dev q (counts.map fun count => (count, 0))).isSome)) ∧
    ∀ buf : List Byte, buf ≠ [] → p < PAGE_SIZE →
      let n := min buf.length (PAGE_SIZE - p).toNat
      devWrite s.dev buf p 0 =
        { ret := n, pos := p + n, dev := s.dev.store p (buf.take n), range := some (p, n) } := by
  have hs := safe_of_run hrun
  obtain ⟨h0, hle⟩ := hs.pos f p hf
  refine ⟨?_, ?_, fun buf hbuf hlt => (devWrite_fitting h0 hlt hbuf).2⟩
  · intro pieces hpieces
    have hloop : ∀ fuel, pieces.flatten.length < fuel →
        writeLoop (fun _ => 0) s.dev p 0 pieces fuel = some (chunksEnd s.dev p 0 pieces.flatten) :=
      fun fuel => writeLoop_chunks hs.dev h0 hle hpieces
    refine ⟨_, chunksEnd_asOneWrite h0 hle _, hloop, fun hsize => ?_⟩
    obtain ⟨es', t, hes', hrun', hend⟩ := writeLoop_run hs hf hsize (hloop _ (Nat.lt_succ_self _))
    refine ⟨es', t, fun x hx => ?_, hrun', hend⟩
    obtain ⟨buf, -, rfl⟩ := hes' x hx
    exact ⟨buf, rfl⟩
  · intro q counts hq hqle hcounts
    have hcopies := readsCopy_of_pos s.dev hcounts q
    refine ⟨fun e => readLoop_data hs.dev _ hq hcopies, fun hlen => ?_⟩
    exact readLoop_isSome hs.dev _ hq (by rw [List.length_map]; exact hlen)

/-- Two pieces behind the byte of an open file, and the data read in single bytes. -/
theorem chunking_irrelevant_oneByte :
    let es : List (Event Unit) := [.open (), .write () [7] 0]
    let s := ((machine Unit .linux).run (init fun _ => 0) es).get (by decide)
    (∃ e, AsOneWrite s.dev 1 [1, 2, 3] e ∧
      ∀ fuel, 3 < fuel → writeLoop (fun _ => 0) s.dev 1 0 [[1], [2, 3]] fuel = some e) ∧
    (∀ e, readLoop s.dev 0 [(1, 0), (1, 0)] = some e →
      e.ret = 0 ∧ e.data = slice s.dev.mem 0 1) ∧
    (devWrite s.dev [1, 2, 3] 1 0).dev = s.dev.store 1 [1, 2, 3] := by
  intro es s
  obtain ⟨hwrites, hreads, hwrite⟩ := chunking_irrelevant (s := s) (f := ()) (p := 1)
    (Option.some_get _).symm (by decide)
  obtain ⟨e, hone, hloop, -⟩ := hwrites [[1], [2, 3]] (by decide)
  exact ⟨⟨e, hone, hloop⟩, (hreads 0 [1, 1] (by decide) (by decide) (by decide)).1,
    congrArg WriteResult.dev (hwrite [1, 2, 3] (by decide) (by decide))⟩

end Reachable

end LinuxRiscv32.Chardev

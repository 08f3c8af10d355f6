import LinuxRiscv32.Modules.ChardevSafe
import Mathlib.Data.List.TakeDrop

/-!
# The two views of `chardev`'s page

Reference: `modules/chardev.c` (`dev_read`, `dev_write`, `remap_mm`) and `modules/chardev_user.c`
(`run_data_flow_test`).

A shared mapping shows the page itself, and `dev_read` shows its first `data_len` bytes. A store
through a mapping does not move `data_len`, so `dev_read` returns the stored bytes up to there only.
The test program stores into a part that was written before.

`remap_mm` does not ask for a shared area. A private one shows the page as well, until the first
store through it: that one gets a copy of the page, and from then on neither view sees what goes
through the other.
-/

namespace LinuxRiscv32.Chardev

open Common Kernel

variable {F : Type*}

/-- What `dev_write` stores is seen through the mapping. -/
def ShowsWrites (s : State F) (m : Mapping) : Prop :=
  ∀ (buf : List Byte) (pos : ℤ) (fault : ℕ), Admits buf.length pos →
    let r := devWrite s.dev buf pos fault
    ∀ i : ℕ, i < r.ret → pos + i < m.vma.size ∧ some (mapLoad m r.dev (pos + i)) = buf[i]?

/-- No `dev_write` changes what the mapping shows. -/
def HidesWrites (s : State F) (m : Mapping) : Prop :=
  ∀ (buf : List Byte) (pos : ℤ) (fault : ℕ), Admits buf.length pos →
    mapLoad m (devWrite s.dev buf pos fault).dev = mapLoad m s.dev

/-- `dev_read` returns the bytes stored through the mapping `i`. -/
def ReturnsStores (L : FixedSizeLlseek) (s : State F) [DecidableEq F] (i : ℕ) : Prop :=
  ∀ (o : ℕ) (bs : List Byte) (t : State F), step L s (.store i o bs) = some t →
    (devRead t.dev bs.length o 0).data = bs

/-- Something was stored through the mapping `i`. -/
def StoredTo (es : List (Event F)) (i : ℕ) : Prop :=
  ∃ (o : ℕ) (bs : List Byte), Event.store i o bs ∈ es ∧ bs ≠ []

/-- One page of user memory. -/
def userPage (shared : Bool) : Vma where
  start := 65536
  stop := 69632
  pgoff := 0
  shared := shared
  start_nonneg := by decide
  stop_lt := by decide
  start_lt_stop := by decide
  start_aligned := by decide
  stop_aligned := by decide

/-- Nothing was written to a new device, so `dev_read` does not return what is stored through a
mapping, even a shared one. A private mapping that was stored to does not show a later write, and
`dev_read` returns the byte that was written before the store. -/
theorem new_device_and_private_break_views :
    (¬ ∀ (es : List (Event Unit)) (s : State Unit) (i : ℕ) (m : Mapping),
        (machine Unit .linux).run (init fun _ => 0) es = some s → s.maps[i]? = some m →
          m.vma.shared = true → ShowsWrites s m ∧ ReturnsStores .linux s i) ∧
      (¬ ∀ (es : List (Event Unit)) (s : State Unit) (i : ℕ) (m : Mapping),
        (machine Unit .linux).run (init fun _ => 0) es = some s → s.maps[i]? = some m →
          m.vma.shared = false → ShowsWrites s m) ∧
      ¬ ∀ (es : List (Event Unit)) (s : State Unit) (i : ℕ) (m : Mapping),
        (machine Unit .linux).run (init fun _ => 0) es = some s → s.maps[i]? = some m →
          m.vma.shared = false → ReturnsStores .linux s i := by
  refine ⟨fun h => ?_, fun h => ?_, fun h => ?_⟩
  · obtain ⟨-, hreturns⟩ := h [.mmap (userPage true) true] _ 0 _ rfl rfl rfl
    exact absurd (hreturns 0 [1] _ rfl) (by decide)
  · obtain ⟨-, hload⟩ :=
      h [.mmap (userPage false) true, .store 0 0 [9]] _ 0 _ rfl rfl rfl [1] 0 0 (by decide) 0
        (by decide)
    exact absurd hload (by decide)
  · have hreturns :=
      h [.open (), .mmap (userPage false) true, .write () [1, 2] 0] _ 0 _ rfl rfl rfl
    exact absurd (hreturns 0 [9] _ rfl) (by decide)

/-! ## What an operation leaves alone -/

/-- The range of the page that is stored to through a shared mapping. -/
def storeRange (s : State F) : Event F → Option (ℤ × ℤ)
  | .store i o bs => s.maps[i]?.bind fun m => if m.vma.shared then some (o, bs.length) else none
  | _ => none

/-- The operation stores nothing into the page at the offsets `[o, o + k)`. -/
def Untouched (o k : ℕ) (s : State F) (e : Event F) : Prop :=
  (∀ r ∈ writeRange s e, r.1 + r.2 ≤ o ∨ o + k ≤ r.1) ∧
    ∀ r ∈ storeRange s e, r.1 + r.2 ≤ o ∨ o + k ≤ r.1

instance (o k : ℕ) (s : State F) (e : Event F) : Decidable (Untouched o k s e) :=
  inferInstanceAs (Decidable (_ ∧ _))

/-- A write changes no byte outside of the range it hands to `copy_from_user`. -/
theorem devWrite_mem {d : Dev} {buf : List Byte} {pos i : ℤ} {fault : ℕ} (h0 : 0 ≤ pos)
    (hi : ∀ r ∈ (devWrite d buf pos fault).range, i < r.1 ∨ r.1 + r.2 ≤ i) :
    (devWrite d buf pos fault).dev.mem i = d.mem i := by
  rcases devWrite_cases h0 buf fault with h | ⟨n, hn, -, h⟩
  · rw [h]
  · rw [h] at hi ⊢
    refine blit_of_not_mem _ ?_
    rw [stored_length fault (by omega)]
    exact hi (pos, n) rfl

variable [DecidableEq F] {L : FixedSizeLlseek} {s t : State F} {e : Event F}

/-- A step that leaves a range alone does not change it. -/
theorem mem_step {o k : ℕ} (hG : Untouched o k s e) (h : step L s e = some t) {i : ℤ} (hi : o ≤ i)
    (hk : i < o + k) : t.dev.mem i = s.dev.mem i := by
  cases step_effect h with
  | keep hdev _ _ | map _ _ _ hdev _ _ | copy _ _ _ _ _ _ _ _ hdev _ => rw [hdev]
  | write buf pos fault hcall hadmits hdev _ =>
    rw [hdev]
    refine devWrite_mem hadmits.2.1 fun r hr => ?_
    have hrange : r ∈ writeRange s e := by
      rw [writeRange, hcall, Option.bind_some, if_pos hadmits]
      exact hr
    have := hG.1 r hrange
    omega
  | store j o' bs m he hm hshared _ hdev _ =>
    rw [hdev]
    refine blit_of_not_mem _ ?_
    have hrange : storeRange s e = some ((o' : ℤ), (bs.length : ℤ)) := by
      rw [he, storeRange, hm, Option.bind_some, if_pos hshared]
    have := hG.2 _ hrange
    dsimp only at this
    omega

/-- A run that leaves a range alone does not change it. -/
theorem mem_run {o k : ℕ} {es : List (Event F)} (hs : Safe s)
    (hG : (machine F L).Along (Untouched o k) s es) (hrun : (machine F L).run s es = some t) :
    Safe t ∧ ∀ i : ℤ, o ≤ i → i < o + k → t.dev.mem i = s.dev.mem i := by
  refine Machine.invariant (M := machine F L)
    (I := fun u => Safe u ∧ ∀ i : ℤ, o ≤ i → i < o + k → u.dev.mem i = s.dev.mem i) ?_
    ⟨hs, fun _ _ _ => rfl⟩ hG hrun
  rintro u e u' ⟨hu, hmem⟩ hGe hstep
  exact ⟨safe_step hu hstep, fun i hi hk => (mem_step hGe hstep hi hk).trans (hmem i hi hk)⟩

/-! ## Mappings -/

/-- `remap_mm` accepts whole pages only, and the first page of the device only. -/
theorem size_of_remapMm {v : Vma} {ok : Bool} (h : remapMm v ok = 0) : v.size = PAGE_SIZE := by
  apply Vma.size_eq_of_le
  have hsize : u32 (v.stop - v.start) = v.size := by
    have := v.size_pos
    have := v.start_nonneg
    have := v.stop_lt
    unfold Vma.size at *
    exact u32_of_range (by omega) (by omega)
  by_contra hlt
  rw [remapMm, hsize, if_pos (not_le.mp hlt)] at h
  exact absurd h (by decide)

/-- Every mapping of a state covers the whole page. -/
def WholePages (s : State F) : Prop := ∀ m ∈ s.maps, m.vma.size = PAGE_SIZE

/-- Each step keeps the mappings whole. -/
theorem wholePages_step (hs : WholePages s) (h : step L s e = some t) : WholePages t := by
  unfold WholePages at hs ⊢
  cases step_effect h with
  | map v ok hv _ hmaps _ =>
    rw [hmaps, List.forall_mem_append, List.forall_mem_singleton]
    exact ⟨hs, size_of_remapMm hv⟩
  | copy i o bs m _ hm _ _ _ hmaps =>
    rw [hmaps]
    intro m' hm'
    rcases List.mem_or_eq_of_mem_set hm' with hm' | rfl
    · exact hs m' hm'
    · rw [Mapping.store_vma]
      exact hs m (List.mem_of_getElem? hm)
  | keep _ hmaps _ | write _ _ _ _ _ _ hmaps | store _ _ _ _ _ _ _ _ _ hmaps =>
    rw [hmaps]
    exact hs

omit [DecidableEq F] in
/-- A mapping that shows the page shows what is written to it. -/
theorem showsWrites_of_page {m : Mapping} (hsize : m.vma.size = PAGE_SIZE)
    (hpage : ∀ d : Dev, m.page d = d.mem) : ShowsWrites s m := by
  intro buf pos fault hadmits r i hi
  rcases devWrite_cases hadmits.2.1 buf fault with h | ⟨n, hn, -, h⟩
  · -- a write that fails stores nothing
    have hr : r = _ := h
    rw [hr] at hi
    have : (-ENOSPC : ℤ) < 0 := by decide
    dsimp only at hi
    omega
  · have hr : r = _ := h
    rw [hr] at hi ⊢
    dsimp only at hi
    refine ⟨by omega, ?_⟩
    have hin : i < (buf.take (n - fault)).length := by
      rw [List.length_take]
      omega
    rw [mapLoad, hpage]
    show some (blit s.dev.mem pos _ (pos + i)) = buf[i]?
    rw [blit_eq, stores_add, List.getElem?_append_left hin, List.getElem?_take_of_lt
      (by omega), List.getElem?_eq_getElem (by omega), Option.getD_some]

/-! ## The copies of private mappings -/

/-- A private mapping has a copy of its own if and only if something was stored through it. -/
structure Copies (es : List (Event F)) (s : State F) : Prop where
  index : ∀ i, StoredTo es i → i < s.maps.length
  copy : ∀ i m, s.maps[i]? = some m → m.vma.shared = false → (m.copy ≠ none ↔ StoredTo es i)

omit [DecidableEq F] in
/-- What a step more stores through a mapping. -/
theorem storedTo_append {es : List (Event F)} {e : Event F} {i : ℕ} :
    StoredTo (es ++ [e]) i ↔ StoredTo es i ∨ ∃ o bs, e = .store i o bs ∧ bs ≠ [] := by
  constructor
  · rintro ⟨o, bs, he, hbs⟩
    rcases List.mem_append.mp he with he | he
    · exact .inl ⟨o, bs, he, hbs⟩
    · exact .inr ⟨o, bs, (List.mem_singleton.mp he).symm, hbs⟩
  · rintro (⟨o, bs, he, hbs⟩ | ⟨o, bs, rfl, hbs⟩)
    · exact ⟨o, bs, List.mem_append_left _ he, hbs⟩
    · exact ⟨o, bs, List.mem_append_right _ (List.mem_singleton_self _), hbs⟩

omit [DecidableEq F] in
/-- The first store through a private mapping gives it a copy. -/
theorem Copies.store {es : List (Event F)} (hs : Copies es s) {i o : ℕ} {bs : List Byte}
    {m : Mapping} (hm : s.maps[i]? = some m) (hbs : bs ≠ [])
    (hmaps : t.maps = s.maps.set i (m.store s.dev o bs)) :
    Copies (es ++ [Event.store i o bs]) t := by
  have hi : i < s.maps.length := (List.getElem?_eq_some_iff.mp hm).1
  have hstored (j : ℕ) : StoredTo (es ++ [Event.store i o bs]) j ↔ StoredTo es j ∨ i = j := by
    rw [storedTo_append]
    refine or_congr_right ⟨?_, ?_⟩
    · rintro ⟨_, _, hev, -⟩
      exact (Event.store.inj hev).1
    · rintro rfl
      exact ⟨o, bs, rfl, hbs⟩
  constructor
  · intro j hj
    rw [hmaps, List.length_set]
    rcases (hstored j).mp hj with hj | rfl
    · exact hs.index j hj
    · exact hi
  · intro j m' hm' hprivate
    rw [hmaps] at hm'
    rw [hstored]
    by_cases hj : i = j
    · subst hj
      rw [List.getElem?_set_self hi] at hm'
      obtain rfl := Option.some.inj hm'
      rw [Mapping.store_vma] at hprivate
      rw [m.store_of_private _ hprivate hbs]
      exact iff_of_true (Option.some_ne_none _) (.inr rfl)
    · rw [List.getElem?_set_ne hj] at hm'
      rw [hs.copy j m' hm' hprivate]
      exact (or_iff_left hj).symm

omit [DecidableEq F] in
/-- A new mapping has no copy, and nothing was stored through it. -/
theorem Copies.map {es es' : List (Event F)} (hs : Copies es s)
    (hstored : ∀ j, StoredTo es' j ↔ StoredTo es j) {ms : List Mapping}
    (hms : ∀ m ∈ ms, m.copy = none) (hmaps : t.maps = s.maps ++ ms) : Copies es' t := by
  constructor
  · intro j hj
    rw [hmaps, List.length_append]
    exact Nat.lt_add_right _ (hs.index j ((hstored j).mp hj))
  · intro j m hm hprivate
    rw [hmaps] at hm
    rw [hstored]
    rcases Nat.lt_or_ge j s.maps.length with hj | hj
    · rw [List.getElem?_append_left hj] at hm
      exact hs.copy j m hm hprivate
    · rw [List.getElem?_append_right hj] at hm
      have hcopy := hms m (List.mem_of_getElem? hm)
      exact iff_of_false (fun hne => hne hcopy) fun hj' => Nat.not_lt.mpr hj (hs.index j hj')

/-- A step that stores nothing through a mapping at most appends a mapping without a copy. -/
theorem maps_of_not_storing (he : ∀ i o bs, e = .store i o bs → bs = [])
    (h : step L s e = some t) :
    ∃ ms : List Mapping, (∀ m ∈ ms, m.copy = none) ∧ t.maps = s.maps ++ ms := by
  cases step_effect h with
  | keep _ hmaps _ | write _ _ _ _ _ _ hmaps | store _ _ _ _ _ _ _ _ _ hmaps =>
    exact ⟨[], fun _ h => absurd h List.not_mem_nil, hmaps.trans (List.append_nil _).symm⟩
  | map v ok _ _ hmaps _ => exact ⟨[⟨v, none⟩], by simp, hmaps⟩
  | copy i o bs m hev hm _ _ _ hmaps =>
    obtain rfl := he i o bs hev
    rw [Mapping.store_nil, set_of_getElem? hm] at hmaps
    exact ⟨[], fun _ h => absurd h List.not_mem_nil, hmaps.trans (List.append_nil _).symm⟩

/-- A copy is made by the first store through the mapping, and by nothing else. -/
theorem copies_step {es : List (Event F)} (hs : Copies es s) (h : step L s e = some t) :
    Copies (es ++ [e]) t := by
  by_cases he : ∃ i o bs, e = .store i o bs ∧ bs ≠ []
  · obtain ⟨i, o, bs, rfl, hbs⟩ := he
    obtain ⟨m, hm, hp⟩ := Option.bind_eq_some_iff.mp h
    obtain ⟨-, rfl⟩ := Machine.guard_eq_some.mp hp
    exact hs.store hm hbs rfl
  · have hstored (j : ℕ) : StoredTo (es ++ [e]) j ↔ StoredTo es j := by
      rw [storedTo_append]
      exact or_iff_left fun ⟨o, bs, hev⟩ => he ⟨j, o, bs, hev⟩
    have hnil : ∀ i o bs, e = .store i o bs → bs = [] := fun i o bs hev => by
      by_contra hbs
      exact he ⟨i, o, bs, hev, hbs⟩
    obtain ⟨ms, hms, hmaps⟩ := maps_of_not_storing hnil h
    exact hs.map hstored hms hmaps

/-- After every run the copies are those of the mappings that were stored to. -/
theorem copies_of_run {junk : ℤ → Byte} {es : List (Event F)}
    (hrun : (machine F L).run (init junk) es = some s) : Copies es s := by
  refine Machine.label_invariant_of_step (M := machine F L) (fun _ _ _ _ => copies_step) ?_ hrun
  constructor
  · rintro i ⟨o, bs, he, -⟩
    exact absurd he List.not_mem_nil
  · intro i m hm
    exact absurd hm (by simp [init])

/-! ## The two views -/

/-- What a store does to the device. -/
theorem dev_of_store {i o : ℕ} {bs : List Byte} {m : Mapping} (hm : s.maps[i]? = some m)
    (hstep : step L s (.store i o bs) = some t) :
    t.dev = if m.vma.shared then { s.dev with mem := blit s.dev.mem o bs } else s.dev := by
  rw [step, hm, Option.bind_some] at hstep
  obtain ⟨-, rfl⟩ := Machine.guard_eq_some.mp hstep
  rfl

/-- After a store through a shared mapping, a `dev_read` at the same offset, with anything in
between that leaves these bytes alone, returns them as far as they lie below `data_len`. -/
theorem devRead_of_store {i o : ℕ} {bs : List Byte} {m : Mapping} (hs : Safe s)
    (hm : s.maps[i]? = some m) (hshared : m.vma.shared = true)
    (hstep : step L s (.store i o bs) = some t) {es : List (Event F)} {u : State F}
    (hG : (machine F L).Along (Untouched o bs.length) t es)
    (hrun : (machine F L).run t es = some u) :
    (devRead u.dev bs.length o 0).data = bs.take (u.dev.dataLen - o).toNat := by
  have ht := safe_step hs hstep
  obtain ⟨hu, hmem⟩ := mem_run ht hG hrun
  have hstored : t.dev.mem = blit s.dev.mem o bs := by
    rw [dev_of_store hm hstep, if_pos hshared]
  by_cases h : (o : ℤ) < u.dev.dataLen
  · obtain ⟨n, hn, hr⟩ := devRead_of_lt bs.length 0 hu.dev (Int.natCast_nonneg o) h
    rw [hr, Nat.sub_zero]
    have hslice : slice u.dev.mem o n = slice (blit s.dev.mem o bs) o n := by
      refine slice_congr _ fun i hi hk => ?_
      rw [hmem i hi (by omega), hstored]
    rw [hslice, slice_blit _ (by omega)]
    -- both take as many bytes as there are below `data_len`
    rcases Nat.lt_or_ge n bs.length with hlt | hge
    · rw [show n = (u.dev.dataLen - o).toNat by omega]
    · rw [List.take_of_length_le (by omega), List.take_of_length_le (by omega)]
  · rw [devRead_of_ge 0 (not_lt.mp h), show (u.dev.dataLen - o).toNat = 0 by omega, List.take_zero]

/-- **Two views of one page.** In every reachable state, what `dev_write` stores is seen through
every accepted mapping that is shared or was not stored to yet, and through no other. What is stored
through a private mapping does not reach the device. What is stored through a shared one is returned
by a later `dev_read` up to `data_len`, so as a whole if and only if it is empty or ends at
`data_len` or before. -/
theorem views_of_run {junk : ℤ → Byte} {es : List (Event F)} {i : ℕ} {m : Mapping}
    (hrun : (machine F L).run (init junk) es = some s) (hm : s.maps[i]? = some m) :
    (m.vma.shared = true ∨ ¬ StoredTo es i → ShowsWrites s m) ∧
      (m.vma.shared = false → StoredTo es i → HidesWrites s m) ∧
      ∀ (o : ℕ) (bs : List Byte) (t : State F), step L s (.store i o bs) = some t →
        (m.vma.shared = false → t.dev = s.dev) ∧
          (m.vma.shared = true → ∀ (es' : List (Event F)) (u : State F),
            (machine F L).run t es' = some u →
            (machine F L).Along (Untouched o bs.length) t es' →
            (devRead u.dev bs.length o 0).data = bs.take (u.dev.dataLen - o).toNat ∧
              ((devRead u.dev bs.length o 0).data = bs ↔
                bs = [] ∨ o + bs.length ≤ u.dev.dataLen)) := by
  have hs := safe_of_run hrun
  have hcopies := copies_of_run hrun
  have hpages : WholePages s := Machine.invariant_of_step (M := machine F L)
    (fun _ _ _ => wholePages_step) (fun _ h => absurd h List.not_mem_nil) hrun
  have hsize := hpages m (List.mem_of_getElem? hm)
  refine ⟨fun h => ?_, fun hprivate hstored => ?_, fun o bs t hstep => ⟨fun hprivate => ?_,
    fun hshared es' u hrun' hG => ?_⟩⟩
  · refine showsWrites_of_page hsize fun d => ?_
    by_cases hshared : m.vma.shared = true
    · exact m.page_of_shared d hshared
    · have hprivate := Bool.eq_false_iff.mpr hshared
      have hcopy : m.copy = none := by
        by_contra hcopy
        exact h.resolve_left hshared ((hcopies.copy i m hm hprivate).mp hcopy)
      rw [m.page_of_private d hprivate, hcopy, Option.getD_none]
  · obtain ⟨c, hc⟩ := Option.ne_none_iff_exists'.mp ((hcopies.copy i m hm hprivate).mpr hstored)
    intro buf pos fault _
    funext j
    rw [mapLoad, mapLoad, m.page_of_private _ hprivate, m.page_of_private _ hprivate, hc,
      Option.getD_some, Option.getD_some]
  · rw [dev_of_store hm hstep, if_neg (Bool.eq_false_iff.mp hprivate)]
  · have hdata := devRead_of_store hs hm hshared hstep hG hrun'
    refine ⟨hdata, ?_⟩
    -- `take` keeps the whole block if and only if the block is not longer than what is taken
    rw [hdata, List.take_eq_self_iff, ← List.length_eq_zero_iff]
    omega

/-- The page is mapped twice, shared and private, and three bytes are written. -/
def mapPage : List (Event Unit) :=
  [.open (), .mmap (userPage true) true, .mmap (userPage false) true, .write () [1, 2, 3] 0]

def mappedPage : State Unit := ((machine Unit .linux).run (init fun _ => 0) mapPage).get (by decide)

/-- The last two of them are replaced through the shared mapping. -/
def storedPage : State Unit := (step .linux mappedPage (.store 0 1 [8, 9])).get (by decide)

/-- The first of them is replaced through the private mapping. -/
def copiedPage : State Unit := (step .linux mappedPage (.store 1 0 [7])).get (by decide)

theorem views_mappedPage :
    ShowsWrites mappedPage ⟨userPage true, none⟩ ∧ ShowsWrites mappedPage ⟨userPage false, none⟩ ∧
      (devRead storedPage.dev 2 1 0).data = [8, 9] ∧ copiedPage.dev = mappedPage.dev ∧
      ∃ m, copiedPage.maps[1]? = some m ∧ HidesWrites copiedPage m := by
  have hrun : (machine Unit .linux).run (init fun _ => 0) mapPage = some mappedPage :=
    (Option.some_get _).symm
  have hstored : step .linux mappedPage (.store 0 1 [8, 9]) = some storedPage :=
    (Option.some_get _).symm
  have hcopied : step .linux mappedPage (.store 1 0 [7]) = some copiedPage :=
    (Option.some_get _).symm
  have hrun' : (machine Unit .linux).run (init fun _ => 0) (mapPage ++ [.store 1 0 [7]]) =
      some copiedPage :=
    (Machine.run_append_eq_some _).mpr
      ⟨mappedPage, hrun, (Machine.run_singleton _ _ _).trans hcopied⟩
  obtain ⟨hshows, -, hstore⟩ := views_of_run (i := 0) hrun rfl
  obtain ⟨hshows', -, hstore'⟩ := views_of_run (i := 1) hrun rfl
  obtain ⟨-, hhides, -⟩ := views_of_run (i := 1) hrun' rfl
  have hread := (hstore 1 [8, 9] storedPage hstored).2 rfl [] storedPage rfl
    (Machine.along_nil storedPage)
  refine ⟨hshows (.inl rfl), hshows' (.inr ?_), hread.2.mpr (.inr (by decide)),
    (hstore' 0 [7] copiedPage hcopied).1 rfl, _, rfl, hhides rfl ⟨0, [7], ?_, by decide⟩⟩
  · rintro ⟨o, bs, he, -⟩
    simp [mapPage] at he
  · exact List.mem_append_right _ (List.mem_singleton_self _)

end LinuxRiscv32.Chardev

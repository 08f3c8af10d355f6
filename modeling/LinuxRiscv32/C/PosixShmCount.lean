import LinuxRiscv32.Common.Measure
import LinuxRiscv32.Common.Permits
import LinuxRiscv32.C.PosixShm
import Mathlib.Data.Fintype.Card

/-!
# No lost update in the POSIX shared memory sample

Reference: `C/posix_shm_worker.c` and `C/posix_shm_init.c`.

After one `posix_shm_init` that created both objects, any number of workers run at the same time.
The critical sections take place one after the other, in the order in which the workers pass
`sem_wait`: the memory and the messages are those of a serial execution, up to the section under
way. Nobody waits for ever: whoever is inside can go on, and if nobody is, the semaphore is free. So
a finite number of workers can always come to their ends.
-/

namespace LinuxRiscv32.PosixShm.Count

open Common

section Program

variable {W I K : Type*}

/-! ## The serial execution -/

/-- One critical section, executed without interruption. -/
def sectionOf (w : ℕ) (pid : W → ℕ) (b : Mybuf) (p : W) : Mybuf :=
  { count := (b.count + 1) % 2 ^ w, buf := message (pid p) b.count }

/-- The critical sections of the workers `es`, one after the other on a new object. -/
def serial (w : ℕ) (pid : W → ℕ) (es : List W) : Mybuf := es.foldl (sectionOf w pid) .zero

/-- The messages of a serial execution: the `i`-th one carries the count `i`. -/
def messages (w : ℕ) (pid : W → ℕ) (es : List W) : List (W × List Char) :=
  es.mapIdx fun i p => (p, message (pid p) (i % 2 ^ w))

variable {w : ℕ} {pid : W → ℕ}

theorem serial_concat (es : List W) (p : W) :
    serial w pid (es ++ [p]) = sectionOf w pid (serial w pid es) p := List.foldl_concat _ _ _ _

/-- A serial execution counts its sections. -/
theorem serial_count (es : List W) : (serial w pid es).count = es.length % 2 ^ w := by
  induction es using List.reverseRecOn with
  | nil => rfl
  | append_singleton es p ih =>
    rw [serial_concat, sectionOf, ih, Nat.mod_add_mod, List.length_append, List.length_singleton]

theorem messages_concat (es : List W) (p : W) :
    messages w pid (es ++ [p]) =
      messages w pid es ++ [(p, message (pid p) (serial w pid es).count)] := by
  rw [messages, List.mapIdx_concat, ← messages, serial_count]

/-! ## What a run did -/

/-- The worker that passes `sem_wait` in a step. -/
def entered (x : State W I K × Event W I K) : Option W :=
  match x.2 with
  | .worker p _ =>
    match x.1.worker p with
    | .semWait _ => some p
    | _ => none
  | _ => none

/-- The message that a worker formats in a step. -/
def wrote (pid : W → ℕ) (x : State W I K × Event W I K) : Option (W × List Char) :=
  match x.2 with
  | .worker p _ =>
    match x.1.worker p with
    | .format h => (x.1.world.mem h.mem).map fun b => (p, message (pid p) b.count)
    | _ => none
  | _ => none

/-! ## The invariant -/

/-- The worker is between `sem_wait` and `sem_post`. -/
def Inside (a : WorkerPc) : Prop := a.inside.isSome

instance : DecidablePred Inside := fun _ => inferInstanceAs (Decidable (_ = true))

/-- How far worker `p`, which entered after the workers `es`, has come with its section. -/
def Stage (w : ℕ) (pid : W → ℕ) (es : List W) (p : W) (mem : Option Mybuf)
    (ms : List (W × List Char)) : WorkerPc → Prop
  | .before _ | .format _ => mem = some (serial w pid es) ∧ ms = messages w pid es
  | .load _ =>
    mem = some { serial w pid es with buf := message (pid p) (serial w pid es).count } ∧
      ms = messages w pid (es ++ [p])
  | .store _ count =>
    (mem = some { serial w pid es with buf := message (pid p) (serial w pid es).count } ∧
      ms = messages w pid (es ++ [p])) ∧ count = (serial w pid es).count
  | .semPost _ => mem = some (serial w pid (es ++ [p])) ∧ ms = messages w pid (es ++ [p])
  | .semOpen | .shmOpen _ | .mmap _ | .semWait _ | .done | .exited => False

/-- A worker inside finds an object of full size. -/
theorem mem_of_stage {es : List W} {p : W} {mem : Option Mybuf} {ms : List (W × List Char)}
    {a : WorkerPc} (h : Stage w pid es p mem ms a) : mem ≠ none := by
  cases a with
  | before | format | load | semPost =>
    rw [h.1]
    exact Option.some_ne_none _
  | store =>
    rw [h.1.1]
    exact Option.some_ne_none _
  | _ => exact h.elim

/-- The workers `es` have entered and the messages `ms` were written, on memory `m` and semaphore
`o`. -/
structure Inv (w : ℕ) (pid : W → ℕ) (m o : ℕ) (es : List W) (ms : List (W × List Char))
    (s : State W I K) : Prop where
  shm : s.world.shm.bound = some m
  sem : s.world.sem.bound = some o
  pending : ∀ p o', s.worker p = .shmOpen o' → o' = o
  handle : ∀ p, ∀ h ∈ (s.worker p).handle, h = ⟨m, o⟩
  total : permits (s.world.val o) Inside s.worker = 1
  free : (∀ p, ¬ Inside (s.worker p)) →
    s.world.mem m = some (serial w pid es) ∧ ms = messages w pid es
  inside : ∀ p, Inside (s.worker p) →
    ∃ es', es = es' ++ [p] ∧ Stage w pid es' p (s.world.mem m) ms (s.worker p)
  nodup : es.Nodup
  entered : ∀ p, p ∈ es ↔ Inside (s.worker p) ∨ s.worker p = .done

variable {m o : ℕ} {es : List W} {ms : List (W × List Char)} {s t : State W I K} {p : W}

/-- Two workers are never inside together. -/
theorem Inv.unique (hs : Inv w pid m o es ms s) {q : W} (hp : Inside (s.worker p))
    (hq : Inside (s.worker q)) : p = q :=
  eq_of_permits_le_one hs.total.le hp hq

section Step

variable [DecidableEq W] {b : WorkerPc}

omit [DecidableEq W] in
/-- What the worker making a step knows follows from what it knew or from the names. -/
theorem Inv.known (hs : Inv w pid m o es ms s) {x y : World} {n : ℕ}
    (hshm : x.shm.bound = some m) (hsem : x.sem.bound = some o)
    (h : WorkerEffect w n x y (s.worker p) b) :
    (∀ o', b = .shmOpen o' → o' = o) ∧ ∀ h ∈ b.handle, h = ⟨m, o⟩ := by
  have hpending := hs.pending p
  have hhandle := hs.handle p
  generalize s.worker p = a at h hpending hhandle
  cases h with
  | semOpen o' hbound _ =>
    refine ⟨fun o'' ho => ?_, fun _ h => (nomatch h)⟩
    cases ho
    exact Option.some.inj (hbound.symm.trans hsem)
  | shmOpen o' m' hbound _ =>
    refine ⟨fun _ ho => (nomatch ho), fun h hh => ?_⟩
    obtain rfl := Option.some.inj hh
    rw [hpending o' rfl, Option.some.inj (hbound.symm.trans hshm)]
  | mmap h _ | semWait h _ _ _ | before h _ | format h _ _ _ | load h _ _ _ | store h _ _ _ _ =>
    exact ⟨fun _ ho => (nomatch ho), hhandle⟩
  | semPost h _ | fail a _ _ | sigbus a h _ _ _ =>
    exact ⟨fun _ ho => (nomatch ho), fun _ h => (nomatch h)⟩

/-- A step of worker `p` keeps what it says about the objects; the rest is to be shown. -/
theorem Inv.update (hs : Inv w pid m o es ms s) {es' : List W} {ms' : List (W × List Char)}
    (hshm : t.world.shm = s.world.shm) (hsem : t.world.sem = s.world.sem)
    (hworker : t.worker = Function.update s.worker p b)
    (hknown : (∀ o', b = .shmOpen o' → o' = o) ∧ ∀ h ∈ b.handle, h = ⟨m, o⟩)
    (htotal : permits (t.world.val o) Inside t.worker = 1)
    (hfree : (∀ q, ¬ Inside (t.worker q)) →
      t.world.mem m = some (serial w pid es') ∧ ms' = messages w pid es')
    (hinside : ∀ q, Inside (t.worker q) →
      ∃ es₀, es' = es₀ ++ [q] ∧ Stage w pid es₀ q (t.world.mem m) ms' (t.worker q))
    (hnodup : es'.Nodup) (hentered : ∀ q, q ∈ es' ↔ Inside (t.worker q) ∨ t.worker q = .done) :
    Inv w pid m o es' ms' t where
  shm := hshm ▸ hs.shm
  sem := hsem ▸ hs.sem
  pending := by
    rw [hworker]
    exact (Function.forall_update_iff s.worker fun _ a => ∀ o', a = .shmOpen o' → o' = o).mpr
      ⟨hknown.1, fun q _ => hs.pending q⟩
  handle := by
    rw [hworker]
    exact (Function.forall_update_iff s.worker fun _ a => ∀ h ∈ a.handle, h = ⟨m, o⟩).mpr
      ⟨hknown.2, fun q _ => hs.handle q⟩
  total := htotal
  free := hfree
  inside := hinside
  nodup := hnodup
  entered := hentered

/-- A step outside the critical section. -/
theorem Inv.outside (hs : Inv w pid m o es ms s) (hworld : t.world = s.world)
    (hworker : t.worker = Function.update s.worker p b)
    (hknown : (∀ o', b = .shmOpen o' → o' = o) ∧ ∀ h ∈ b.handle, h = ⟨m, o⟩)
    (ha : ¬ (Inside (s.worker p) ∨ s.worker p = .done)) (hb : ¬ (Inside b ∨ b = .done)) :
    Inv w pid m o es ms t := by
  have hother : ∀ q, t.worker q = s.worker q ∨ q = p ∧ t.worker q = b := by
    intro q
    rw [hworker]
    by_cases hq : q = p
    · subst hq
      exact .inr ⟨rfl, Function.update_self _ _ _⟩
    · exact .inl (Function.update_of_ne hq _ _)
  refine hs.update (by rw [hworld]) (by rw [hworld]) hworker hknown ?_ ?_ ?_ hs.nodup ?_
  · rw [hworld, hworker, permits_keep _ (iff_of_false (fun h => hb (.inl h)) fun h => ha (.inl h))]
    exact hs.total
  · intro hfree
    rw [hworld]
    refine hs.free fun q hq => ?_
    rcases hother q with h | ⟨rfl, -⟩
    · exact hfree q (h ▸ hq)
    · exact ha (.inl hq)
  · intro q hq
    rcases hother q with h | ⟨-, h⟩
    · rw [hworld, h]
      exact hs.inside q (h ▸ hq)
    · exact absurd (h ▸ hq) fun h => hb (.inl h)
  · intro q
    rw [hs.entered q]
    rcases hother q with h | ⟨rfl, h⟩
    · rw [h]
    · rw [h]
      exact iff_of_false ha hb

/-- A step inside the critical section, which only its worker can make. -/
theorem Inv.progress (hs : Inv w pid m o es ms s) {ms' : List (W × List Char)}
    (hshm : t.world.shm = s.world.shm) (hsem : t.world.sem = s.world.sem)
    (hval : t.world.val = s.world.val) (hworker : t.worker = Function.update s.worker p b)
    (hknown : (∀ o', b = .shmOpen o' → o' = o) ∧ ∀ h ∈ b.handle, h = ⟨m, o⟩)
    (ha : Inside (s.worker p)) (hb : Inside b)
    (hstage : ∀ es₀, Stage w pid es₀ p (s.world.mem m) ms (s.worker p) →
      Stage w pid es₀ p (t.world.mem m) ms' b) : Inv w pid m o es ms' t := by
  have hself : t.worker p = b := by rw [hworker, Function.update_self]
  have hother : ∀ q, q ≠ p → t.worker q = s.worker q := fun q hq => by
    rw [hworker, Function.update_of_ne hq]
  refine hs.update hshm hsem hworker hknown ?_ ?_ ?_ hs.nodup ?_
  · rw [hval, hworker, permits_keep _ (iff_of_true hb ha)]
    exact hs.total
  · intro hfree
    exact absurd (hself ▸ hb) (hfree p)
  · intro q hq
    by_cases hqp : q = p
    · subst hqp
      obtain ⟨es₀, hes, hst⟩ := hs.inside q ha
      exact ⟨es₀, hes, hself ▸ hstage es₀ hst⟩
    · exact absurd (hs.unique ha (hother q hqp ▸ hq)).symm hqp
  · intro q
    rw [hs.entered q]
    by_cases hqp : q = p
    · subst hqp
      rw [hself]
      exact iff_of_true (.inl ha) (.inl hb)
    · rw [hother q hqp]

/-- `sem_wait`: the memory is that of the serial execution so far. -/
theorem Inv.enter (hs : Inv w pid m o es ms s) {v : ℕ} {h : Handle}
    (hworld : t.world = s.world.setVal o v) (hval : s.world.val o = v + 1)
    (hworker : t.worker = Function.update s.worker p (.before h)) (ha : s.worker p = .semWait h)
    (hh : h = ⟨m, o⟩) : Inv w pid m o (es ++ [p]) ms t := by
  have hself : t.worker p = .before h := by rw [hworker, Function.update_self]
  have hother : ∀ q, q ≠ p → t.worker q = s.worker q := fun q hq => by
    rw [hworker, Function.update_of_ne hq]
  -- the unit is free, so nobody holds it
  have hnone : ∀ q, ¬ Inside (s.worker q) := fun q hq => by
    have := free_lt_of_held (n := 1) hs.total.le hq
    omega
  have hin : Inside (.before h) := rfl
  have hp : ¬ (Inside (s.worker p) ∨ s.worker p = .done) := by
    rw [ha]
    exact fun h => h.elim (fun h => nomatch h) fun h => nomatch h
  obtain ⟨hmem, hms⟩ := hs.free hnone
  refine hs.update (by rw [hworld]; rfl) (by rw [hworld]; rfl) hworker
    ⟨fun _ ho => (nomatch ho), fun h' hh' => ?_⟩ ?_ ?_ ?_ ?_ ?_
  · exact (Option.some.inj hh').symm.trans hh
  · rw [hworld, World.setVal_val_self, hworker, permits_acquire v (hnone p) hin, ← hval]
    exact hs.total
  · intro hfree
    exact absurd (by rw [hself]; rfl) (hfree p)
  · intro q hq
    by_cases hqp : q = p
    · subst hqp
      rw [hself, hworld, World.setVal_mem]
      exact ⟨es, rfl, hmem, hms⟩
    · exact absurd (hother q hqp ▸ hq) (hnone q)
  · rw [List.nodup_append_comm]
    exact List.nodup_cons.mpr ⟨fun hmem => hp ((hs.entered p).mp hmem), hs.nodup⟩
  · intro q
    rw [List.mem_append, List.mem_singleton]
    by_cases hqp : q = p
    · subst hqp
      rw [hself]
      exact iff_of_true (.inr rfl) (.inl rfl)
    · rw [hother q hqp, ← hs.entered q, or_iff_left hqp]

/-- `sem_post`: the section is complete. -/
theorem Inv.leave (hs : Inv w pid m o es ms s) {h : Handle}
    (hworld : t.world = s.world.setVal o (s.world.val o + 1))
    (hworker : t.worker = Function.update s.worker p .done) (ha : s.worker p = .semPost h) :
    Inv w pid m o es ms t := by
  have hself : t.worker p = .done := by rw [hworker, Function.update_self]
  have hother : ∀ q, q ≠ p → t.worker q = s.worker q := fun q hq => by
    rw [hworker, Function.update_of_ne hq]
  have hp : Inside (s.worker p) := by
    rw [ha]
    rfl
  have hout : ¬ Inside .done := fun hd => nomatch hd
  have hnone : ∀ q, ¬ Inside (t.worker q) := fun q hq => by
    by_cases hqp : q = p
    · subst hqp
      rw [hself] at hq
      cases hq
    · exact hqp (hs.unique hp (hother q hqp ▸ hq)).symm
  refine hs.update (by rw [hworld]; rfl) (by rw [hworld]; rfl) hworker
    ⟨fun _ ho => (nomatch ho), fun _ hh => (nomatch hh)⟩ ?_ ?_ ?_ hs.nodup ?_
  · rw [hworld, World.setVal_val_self, hworker, permits_release _ hp hout]
    exact hs.total
  · intro _
    obtain ⟨es₀, rfl, hst⟩ := hs.inside p hp
    rw [ha] at hst
    rw [hworld, World.setVal_mem]
    exact hst
  · exact fun q hq => absurd hq (hnone q)
  · intro q
    rw [hs.entered q]
    by_cases hqp : q = p
    · subst hqp
      rw [hself]
      exact iff_of_true (.inl hp) (.inr rfl)
    · rw [hother q hqp]

variable [DecidableEq I] [DecidableEq K]

/-- One step of a worker. -/
theorem inv_step {ok : Bool} (hs : Inv w pid m o es ms s)
    (h : step w pid s (.worker p ok) = some t) :
    Inv w pid m o (es ++ (entered (s, .worker p ok)).toList)
      (ms ++ (wrote pid (s, .worker p ok)).toList) t := by
  obtain ⟨⟨y, b⟩, hstep, ht⟩ := Option.map_eq_some_iff.mp h
  have heffect := workerStep_effect hstep
  have hknown := hs.known hs.shm hs.sem heffect
  have hworld : t.world = y := by rw [← ht]
  have hworker : t.worker = Function.update s.worker p b := by rw [← ht]
  simp only [entered, wrote]
  generalize ha : s.worker p = a at heffect
  have hhandle : ∀ h ∈ a.handle, h = ⟨m, o⟩ := ha ▸ hs.handle p
  cases heffect with
  | semOpen _ _ hy | shmOpen _ _ _ hy | mmap _ hy =>
    simp only [Option.toList_none, List.append_nil]
    exact hs.outside (hworld.trans hy) hworker hknown (by simp [ha, Inside, WorkerPc.inside])
      (by simp [Inside, WorkerPc.inside])
  | semWait h v hval hy =>
    obtain rfl := hhandle h rfl
    simp only [Option.toList_some, Option.toList_none, List.append_nil]
    exact hs.enter (hworld.trans hy) hval hworker ha rfl
  | before h hy =>
    simp only [Option.toList_none, List.append_nil]
    refine hs.progress (by rw [hworld, hy]) (by rw [hworld, hy]) (by rw [hworld, hy]) hworker hknown
      (by rw [ha]; rfl) rfl fun es₀ hst => ?_
    rw [ha] at hst
    rwa [hworld, hy]
  | format h c hmem hy =>
    obtain rfl := hhandle h rfl
    simp only [hmem, Option.map_some, Option.toList_none, Option.toList_some, List.append_nil]
    refine hs.progress (by rw [hworld, hy]; rfl) (by rw [hworld, hy]; rfl) (by rw [hworld, hy]; rfl)
      hworker hknown (by rw [ha]; rfl) rfl fun es₀ hst => ?_
    rw [ha] at hst
    obtain ⟨hserial, hms⟩ := hst
    obtain rfl := Option.some.inj (hmem.symm.trans hserial)
    rw [hworld, hy, World.store_mem_self]
    exact ⟨rfl, by rw [messages_concat, hms]⟩
  | load h c hmem hy =>
    obtain rfl := hhandle h rfl
    simp only [Option.toList_none, List.append_nil]
    refine hs.progress (by rw [hworld, hy]) (by rw [hworld, hy]) (by rw [hworld, hy]) hworker hknown
      (by rw [ha]; rfl) rfl fun es₀ hst => ?_
    rw [ha] at hst
    rw [hworld, hy]
    exact ⟨hst, by rw [Option.some.inj (hmem.symm.trans hst.1)]⟩
  | store h count c hmem hy =>
    obtain rfl := hhandle h rfl
    simp only [Option.toList_none, List.append_nil]
    refine hs.progress (by rw [hworld, hy]; rfl) (by rw [hworld, hy]; rfl) (by rw [hworld, hy]; rfl)
      hworker hknown (by rw [ha]; rfl) rfl fun es₀ hst => ?_
    rw [ha] at hst
    -- the count loaded is still the one in memory, as nobody else is inside
    obtain ⟨⟨hserial, hms⟩, rfl⟩ := hst
    obtain rfl := Option.some.inj (hmem.symm.trans hserial)
    rw [hworld, hy, World.store_mem_self]
    exact ⟨by rw [serial_concat]; rfl, hms⟩
  | semPost h hy =>
    obtain rfl := hhandle h rfl
    simp only [Option.toList_none, List.append_nil]
    exact hs.leave (hworld.trans hy) hworker ha
  | fail a hopening hy =>
    cases a with
    | semOpen | shmOpen _ | mmap _ =>
      simp only [Option.toList_none, List.append_nil]
      exact hs.outside (hworld.trans hy) hworker hknown (by simp [ha, Inside, WorkerPc.inside])
        (by simp [Inside, WorkerPc.inside])
    | _ => cases hopening
  | sigbus a h hin hmem hy =>
    -- the object has its full size, so no access fails
    obtain ⟨es₀, -, hst⟩ := hs.inside p (by rw [ha, Inside, hin]; rfl)
    obtain rfl := hhandle h (handle_of_inside hin)
    exact absurd hmem (mem_of_stage hst)

/-- One complete run of `posix_shm_init` that creates both objects. -/
theorem run_initRun (w : ℕ) (pid : W → ℕ) {s : State W I K} {i : I}
    (hshm : s.world.shm.bound = none) (hsem : s.world.sem.bound = none) (hi : s.init i = .shmOpen) :
    ∃ u, (machine I K w pid).run s (initRun i) = some u ∧
      u.world.shm.bound = some s.world.shm.fresh ∧ u.world.sem.bound = some s.world.sem.fresh ∧
      u.world.mem s.world.shm.fresh = some .zero ∧ u.world.val s.world.sem.fresh = 1 ∧
      u.worker = s.worker := by
  simp [initRun, machine, Machine.run_cons, step, initStep, World.access, World.store, Mybuf.zero,
    hshm, hsem, hi]

omit [DecidableEq W] [DecidableEq I] [DecidableEq K] in
/-- Behind the init the invariant holds, with nobody entered. -/
theorem inv_start {u : State W I K} (hshm : u.world.shm.bound = some m)
    (hsem : u.world.sem.bound = some o) (hmem : u.world.mem m = some .zero)
    (hval : u.world.val o = 1) (hw : ∀ p, u.worker p = .semOpen) :
    Inv w pid m o [] [] u where
  shm := hshm
  sem := hsem
  pending p o' hp := by
    rw [hw p] at hp
    cases hp
  handle p h hp := by
    rw [hw p] at hp
    cases hp
  total := by
    rw [hval, permits_eq_of_forall_not, Nat.cast_one]
    intro p hp
    rw [hw p] at hp
    cases hp
  free _ := ⟨hmem, rfl⟩
  inside p hp := by
    rw [hw p] at hp
    cases hp
  nodup := List.nodup_nil
  entered p := by
    rw [hw p]
    exact iff_of_false List.not_mem_nil fun h => h.elim (fun h => nomatch h) fun h => nomatch h

end Step

/-! ## What is asked of a run -/

/-- The workers `es` have entered, in this order, and the messages `ms` were written to the memory
`m`; no update was lost. -/
structure NoLostUpdate (w : ℕ) (pid : W → ℕ) (m : ℕ) (es : List W)
    (ms : List (W × List Char)) (t : State W I K) : Prop where
  exclusive : ∀ p q, Inside (t.worker p) → Inside (t.worker q) → p = q
  once : es.Nodup
  /-- The `i`-th worker writes the count `i`; the last one may not have come to it yet. -/
  counts : ms <+: messages w pid es ∧ es.length ≤ ms.length + 1
  /-- When all have finished, the memory is that of a serial execution of those that did not fail
  before their section. -/
  finished : (∀ p, t.worker p = .done ∨ t.worker p = .exited) →
    ms = messages w pid es ∧ ∃ b, t.world.mem m = some b ∧
      b.count = {p | t.worker p = .done}.ncard % 2 ^ w ∧
      ∀ es₀ p, es = es₀ ++ [p] → b.buf = message (pid p) (es₀.length % 2 ^ w)
  /-- If no worker failed, the count is the number of workers. -/
  all : (∀ p, t.worker p = .done) → ∃ b, t.world.mem m = some b ∧ b.count = Nat.card W % 2 ^ w

/-- A worker writes the count of its turn: the texts written are those of the serial execution. -/
theorem Inv.counts (hs : Inv w pid m o es ms s) :
    ms <+: messages w pid es ∧ es.length ≤ ms.length + 1 := by
  have hlength : ∀ es' : List W, (messages w pid es').length = es'.length := fun _ =>
    List.length_mapIdx
  by_cases hfree : ∀ p, ¬ Inside (s.worker p)
  · obtain ⟨-, rfl⟩ := hs.free hfree
    exact ⟨List.prefix_rfl, by rw [hlength]; exact Nat.le_succ _⟩
  · obtain ⟨p, hp⟩ := not_forall_not.mp hfree
    obtain ⟨es₀, rfl, hst⟩ := hs.inside p hp
    -- the last worker has written its message, or it is about to
    have hms : ms = messages w pid es₀ ∨ ms = messages w pid (es₀ ++ [p]) := by
      cases hpc : s.worker p with
      | before | format =>
        rw [hpc] at hst
        exact .inl hst.2
      | load | semPost =>
        rw [hpc] at hst
        exact .inr hst.2
      | store =>
        rw [hpc] at hst
        exact .inr hst.1.2
      | _ =>
        rw [hpc] at hst
        exact hst.elim
    rcases hms with rfl | rfl
    · rw [messages_concat, hlength, List.length_append, List.length_singleton]
      exact ⟨List.prefix_append _ _, le_rfl⟩
    · rw [hlength]
      exact ⟨List.prefix_rfl, Nat.le_succ _⟩

/-- When all have finished, the memory is that of a serial execution. -/
theorem Inv.finished (hs : Inv w pid m o es ms s)
    (hend : ∀ p, s.worker p = .done ∨ s.worker p = .exited) :
    ms = messages w pid es ∧ s.world.mem m = some (serial w pid es) ∧
      es.length = {p | s.worker p = .done}.ncard := by
  classical
  have hnone : ∀ p, ¬ Inside (s.worker p) := fun p hp => by
    rcases hend p with h | h <;>
    · rw [h] at hp
      cases hp
  have hset : {p | s.worker p = .done} = (es.toFinset : Set W) := by
    ext p
    rw [Set.mem_ofPred_eq, Finset.mem_coe, List.mem_toFinset, hs.entered p, or_iff_right (hnone p)]
  obtain ⟨hmem, hms⟩ := hs.free hnone
  exact ⟨hms, hmem, by rw [hset, Set.ncard_coe_finset, List.toFinset_card_of_nodup hs.nodup]⟩

/-- The invariant contains what is asked of a run. -/
theorem noLostUpdate_of_inv (hs : Inv w pid m o es ms s) : NoLostUpdate w pid m es ms s where
  exclusive _ _ := hs.unique
  once := hs.nodup
  counts := hs.counts
  finished hend := by
    obtain ⟨hms, hmem, hlength⟩ := hs.finished hend
    refine ⟨hms, _, hmem, by rw [serial_count, hlength], fun es₀ p hes => ?_⟩
    rw [hes, serial_concat, sectionOf, serial_count]
  all hall := by
    obtain ⟨-, hmem, hlength⟩ := hs.finished fun p => .inl (hall p)
    have huniv : {p | s.worker p = .done} = Set.univ := Set.eq_univ_of_forall hall
    exact ⟨_, hmem, by rw [serial_count, hlength, huniv, Set.ncard_univ]⟩

variable [DecidableEq W] [DecidableEq I] [DecidableEq K]

/-- The steps of an init neither enter a section nor write a message. -/
theorem quiet_initRun {s : State W I K} {i : I} {x : State W I K × Event W I K}
    (hx : x ∈ (machine I K w pid).trace s (initRun i)) : entered x = none ∧ wrote pid x = none := by
  obtain ⟨as₁, as₂, hsplit, -⟩ := Machine.mem_trace _ hx
  have hmem : x.2 ∈ initRun (W := W) (K := K) i := by
    rw [hsplit]
    exact List.mem_append_right _ List.mem_cons_self
  have hinit : x.2 = .init i true := List.eq_of_mem_replicate hmem
  simp only [entered, wrote, hinit, and_self]

/-- The invariant of a run with one init that creates both objects. -/
theorem inv_of_run {s t : State W I K} {i : I} (ps : List (W × Bool))
    (hshm : s.world.shm.bound = none) (hsem : s.world.sem.bound = none) (hi : s.init i = .shmOpen)
    (hw : ∀ p, s.worker p = .semOpen)
    (hrun : (machine I K w pid).run s (initRun i ++ ps.map fun x => .worker x.1 x.2) = some t) :
    let tr := (machine I K w pid).trace s (initRun i ++ ps.map fun x => .worker x.1 x.2)
    Inv w pid s.world.shm.fresh s.world.sem.fresh (tr.filterMap entered)
      (tr.filterMap (wrote pid)) t := by
  intro tr
  obtain ⟨u, hu, hshm', hsem', hmem, hval, hworker⟩ := run_initRun w pid hshm hsem hi
  obtain ⟨u', hu', hrest⟩ := (Machine.run_append_eq_some _).mp hrun
  obtain rfl := Option.some.inj (hu.symm.trans hu')
  have htr : tr = (machine I K w pid).trace s (initRun i) ++
      (machine I K w pid).trace u (ps.map fun x => .worker x.1 x.2) := Machine.trace_append _ hu _
  have hentered : tr.filterMap entered =
      ((machine I K w pid).trace u (ps.map fun x => .worker x.1 x.2)).filterMap entered := by
    rw [htr, List.filterMap_append,
      List.filterMap_eq_nil_iff.mpr fun x hx => (quiet_initRun hx).1, List.nil_append]
  have hwrote : tr.filterMap (wrote pid) =
      ((machine I K w pid).trace u (ps.map fun x => .worker x.1 x.2)).filterMap (wrote pid) := by
    rw [htr, List.filterMap_append,
      List.filterMap_eq_nil_iff.mpr fun x hx => (quiet_initRun hx).2, List.nil_append]
  rw [hentered, hwrote]
  refine Machine.history_invariant (M := machine I K w pid)
    (G := fun _ e => ∃ p ok, e = .worker p ok)
    (I := fun h s' => Inv w pid _ _ (h.filterMap entered) (h.filterMap (wrote pid)) s')
    ?_ (inv_start hshm' hsem' hmem hval (hworker ▸ hw)) ?_ hrest
  · rintro h s' - t' hs' ⟨p, ok, rfl⟩ hstep
    rw [List.filterMap_append, List.filterMap_append]
    exact inv_step hs' hstep
  · intro x hx
    obtain ⟨as₁, as₂, hsplit, -⟩ := Machine.mem_trace _ hx
    have hmem' : x.2 ∈ ps.map fun x => (.worker x.1 x.2 : Event W I K) := by
      rw [hsplit]
      exact List.mem_append_right _ List.mem_cons_self
    obtain ⟨y, -, hy⟩ := List.mem_map.mp hmem'
    exact ⟨y.1, y.2, hy.symm⟩

/-! ## Every run can be completed -/

/-- How many steps a worker has in front of it. -/
def stepsLeft : WorkerPc → ℕ
  | .semOpen => 9
  | .shmOpen _ => 8
  | .mmap _ => 7
  | .semWait _ => 6
  | .before _ => 5
  | .format _ => 4
  | .load _ => 3
  | .store _ _ => 2
  | .semPost _ => 1
  | .done | .exited => 0

omit [DecidableEq W] [DecidableEq I] [DecidableEq K] in
/-- Who has no step left has finished or failed. -/
theorem stepsLeft_eq_zero {a : WorkerPc} : stepsLeft a = 0 ↔ a = .done ∨ a = .exited := by
  cases a <;> simp [stepsLeft]

/-- Every step of a worker brings it nearer to its end. -/
theorem stepsLeft_lt {x y : World} {n : ℕ} {a b : WorkerPc} (h : WorkerEffect w n x y a b) :
    stepsLeft b < stepsLeft a := by
  cases h with
  | fail a ha => cases a <;> first | exact Nat.zero_lt_succ _ | cases ha
  | sigbus a h ha => cases a <;> first | exact Nat.zero_lt_succ _ | cases ha
  | _ => exact Nat.lt_succ_self _

/-- The steps that all workers together have in front of them. -/
def totalLeft [Fintype W] (s : State W I K) : ℕ := ∑ p, stepsLeft (s.worker p)

/-- The machine without its other programs. -/
def workers (I K : Type*) [DecidableEq I] [DecidableEq K] (w : ℕ) (pid : W → ℕ) :
    Machine (State W I K) (W × Bool) := ⟨fun s x => step w pid s (.worker x.1 x.2)⟩

/-- A run of the workers alone is one of the whole machine. -/
theorem run_workers (s : State W I K) (ps : List (W × Bool)) :
    (workers I K w pid).run s ps =
      (machine I K w pid).run s (ps.map fun x => .worker x.1 x.2) := by
  have h := Machine.run_map (M := workers I K w pid) (N := machine I K w pid) (f := id)
    (g := fun x => .worker x.1 x.2) (fun _ _ => Option.map_id_apply) s ps
  rwa [Option.map_id_apply] at h

/-- Every step of a worker brings all of them together nearer to their ends. -/
theorem totalLeft_step [Fintype W] {x : W × Bool} (h : (workers I K w pid).step s x = some t) :
    totalLeft t < totalLeft s := by
  obtain ⟨⟨y, b⟩, hstep, rfl⟩ := Option.map_eq_some_iff.mp h
  have hlt := stepsLeft_lt (workerStep_effect hstep)
  have hsum := sum_update (fun _ => stepsLeft) s.worker x.1 b
  dsimp only [totalLeft] at *
  omega

/-- A worker inside goes on if its object has its full size. -/
theorem exists_workerStep_of_inside {n : ℕ} {x : World} {a : WorkerPc} {h : Handle} {c : Mybuf}
    (hin : a.inside = some h) (hmem : x.mem h.mem = some c) :
    ∃ y b, workerStep w n x true a = some (y, b) ∧ b ≠ .exited := by
  have haccess (k : Mybuf → World × WorkerPc) : x.access h.mem .exited k = k c := by
    rw [World.access, hmem, Option.elim_some]
  cases a with
  | before | format | load | store =>
    obtain rfl := Option.some.inj hin
    refine ⟨_, _, congrArg some (haccess _), ?_⟩
    simp
  | semPost =>
    refine ⟨_, _, rfl, ?_⟩
    simp
  | semOpen | shmOpen | mmap | semWait | done | exited => cases hin

omit [DecidableEq W] [DecidableEq I] [DecidableEq K] in
/-- As long as somebody has not come to its end, somebody can go on without a failure: a worker that
is inside, or anybody if nobody is. -/
theorem Inv.exists_step (hs : Inv w pid m o es ms s) (hp : stepsLeft (s.worker p) ≠ 0) :
    ∃ q y b, workerStep w (pid q) s.world true (s.worker q) = some (y, b) ∧ b ≠ .exited := by
  by_cases hfree : ∀ q, ¬ Inside (s.worker q)
  · -- nobody is inside, so the semaphore has its unit
    have hval : s.world.val o = 1 := by
      have := hs.total
      rw [permits_eq_of_forall_not hfree] at this
      exact_mod_cast this
    have hout := hfree p
    have hhandle := hs.handle p
    cases ha : s.worker p with
    | semOpen => exact ⟨p, s.world, .shmOpen o, by simp [ha, workerStep, hs.sem], by simp⟩
    | shmOpen o' =>
      exact ⟨p, s.world, .mmap ⟨m, o'⟩, by simp [ha, workerStep, hs.shm], by simp⟩
    | mmap h => exact ⟨p, s.world, .semWait h, by simp [ha, workerStep], by simp⟩
    | semWait h =>
      rw [ha] at hhandle
      obtain rfl := hhandle h rfl
      exact ⟨p, s.world.setVal o 0, .before ⟨m, o⟩, by simp [ha, workerStep, hval], by simp⟩
    | before | format | load | store | semPost =>
      rw [ha] at hout
      exact absurd rfl hout
    | done | exited =>
      rw [ha] at hp
      exact absurd rfl hp
  · -- the object has its full size, so no access of the worker inside fails
    obtain ⟨q, hq⟩ := not_forall_not.mp hfree
    obtain ⟨es₀, -, hst⟩ := hs.inside q hq
    obtain ⟨c, hc⟩ := Option.ne_none_iff_exists'.mp (mem_of_stage hst)
    obtain ⟨h, hin⟩ := Option.isSome_iff_exists.mp hq
    obtain rfl := hs.handle q h (handle_of_inside hin)
    exact ⟨q, exists_workerStep_of_inside hin hc⟩

/-- The invariant holds, and nobody has failed but those who have in `s`. -/
structure Completing (w : ℕ) (pid : W → ℕ) (m o : ℕ) (s t : State W I K) : Prop where
  inv : ∃ es ms, Inv w pid m o es ms t
  exited : ∀ p, t.worker p = .exited ↔ s.worker p = .exited

/-- One step on the way to the ends. -/
theorem Completing.step [Fintype W] {u : State W I K} (hu : Completing w pid m o s u)
    (hleft : totalLeft u ≠ 0) :
    ∃ x t, (workers I K w pid).step u x = some t ∧ Completing w pid m o s t ∧
      totalLeft t < totalLeft u := by
  obtain ⟨⟨es, ms, hinv⟩, hexited⟩ := hu
  obtain ⟨p, -, hp⟩ := Finset.exists_ne_zero_of_sum_ne_zero hleft
  obtain ⟨q, y, b, hstep, hb⟩ := hinv.exists_step hp
  have ht : (workers I K w pid).step u (q, true) =
      some { u with world := y, worker := Function.update u.worker q b } :=
    Option.map_eq_some_iff.mpr ⟨(y, b), hstep, rfl⟩
  refine ⟨(q, true), _, ht, ⟨⟨_, _, inv_step hinv ht⟩, fun p' => ?_⟩, totalLeft_step ht⟩
  rw [← hexited p']
  show Function.update u.worker q b p' = .exited ↔ u.worker p' = .exited
  by_cases hp' : p' = q
  · subst hp'
    refine iff_of_false (by rwa [Function.update_self]) fun h => ?_
    rw [h] at hstep
    cases hstep
  · rw [Function.update_of_ne hp']

/-- The workers that have not failed can all come to their ends. -/
theorem Inv.exists_completion [Fintype W] (hs : Inv w pid m o es ms s) :
    ∃ ps t, (workers I K w pid).run s ps = some t ∧
      ∀ p, t.worker p = if s.worker p = .exited then .exited else .done := by
  obtain ⟨ps, t, hrun, ht, hzero⟩ := Machine.exists_run_eq_zero (M := workers I K w pid)
    (m := totalLeft) (fun _ => Completing.step) ⟨⟨es, ms, hs⟩, fun _ => Iff.rfl⟩
  refine ⟨ps, t, hrun, fun p => ?_⟩
  have hp : stepsLeft (t.worker p) = 0 := (Finset.sum_eq_zero_iff.mp hzero) p (Finset.mem_univ p)
  split
  next h => exact (ht.exited p).mpr h
  next h => exact (stepsLeft_eq_zero.mp hp).resolve_right (mt (ht.exited p).mp h)

end Program

/-- Two workers: one opens the objects before the other starts and enters after it. -/
def twoWorkers : List (Bool × Bool) :=
  List.replicate 3 (true, true) ++ List.replicate 9 (false, true) ++ List.replicate 6 (true, true)

end LinuxRiscv32.PosixShm.Count

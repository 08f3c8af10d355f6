import LinuxRiscv32.Common.Permits
import LinuxRiscv32.C.PosixShm

/-!
# The life cycle of the POSIX shared memory sample

Reference: `C/posix_shm_init.c`, `C/posix_shm_worker.c` and `C/posix_shm_cleanup.c`.

The memory object and the semaphore are replaced one after the other and nothing ties a generation
of one to a generation of the other. A worker opens the semaphore first. If a cleanup and an init
run before it opens the memory, it works on new memory with an old semaphore.
-/

namespace LinuxRiscv32.PosixShm.Life

open Common Kernel

section Program

variable {W I K : Type*}

/-- Two workers that have mapped one memory object are never both between `sem_wait` and
`sem_post`. -/
def OneInside (s : State W I K) : Prop :=
  ∀ p q h h', (s.worker p).inside = some h → (s.worker q).inside = some h' → h.mem = h'.mem → p = q

/-- Two workers that have opened one semaphore are never both between `sem_wait` and `sem_post`. -/
def OneHolder (s : State W I K) : Prop :=
  ∀ p q h h', (s.worker p).inside = some h → (s.worker q).inside = some h' → h.sem = h'.sem → p = q

/-- A worker opens the first semaphore and the second memory object, another one the second of
both. -/
theorem mixed_generations_break_oneInside :
    ¬ ∀ (es : List (Event Bool Bool Unit)) (t : State Bool Bool Unit),
      (machine Bool Unit 32 fun p => bif p then 101 else 102).run init es = some t →
        OneInside t := by
  intro h
  have hone := h (initRun false ++ workerRun true 1 ++ cleanupRun () ++ initRun true ++
    workerRun true 3 ++ workerRun false 4) _ rfl
  exact absurd (hone true false ⟨1, 0⟩ ⟨1, 1⟩ rfl rfl rfl) (by decide)

/-- The worker has opened a semaphore and no memory yet. -/
def pending : WorkerPc → Option ℕ
  | .shmOpen o => some o
  | _ => none

/-- `sem_unlink` is executed only while no worker is between its `sem_open` and its `shm_open` and
none works on the object that `SHM_NAME` is bound to. -/
def SemUnlinkWhileUnused (s : State W I K) (e : Event W I K) : Prop :=
  match e with
  | .cleanup k _ => s.cleanup k = .semUnlink → ∀ p, pending (s.worker p) = none ∧
    ∀ h ∈ (s.worker p).handle, s.world.shm.bound ≠ some h.mem
  | _ => True

instance [Fintype W] (s : State W I K) (e : Event W I K) :
    Decidable (SemUnlinkWhileUnused s e) := by
  unfold SemUnlinkWhileUnused
  split <;> infer_instance

/-! ## One step -/

/-- What a step of a worker from `a` to `b` does to the objects it knows. -/
inductive Move (x : World) (a b : WorkerPc) : Prop where
  | semOpen (o : ℕ) (hbound : x.sem.bound = some o) (hb : b = .shmOpen o)
  | shmOpen (o m : ℕ) (ha : a = .shmOpen o) (hbound : x.shm.bound = some m) (hb : b = .mmap ⟨m, o⟩)
  | keep (hpending : pending b = none) (hhandle : ∀ h ∈ b.handle, h ∈ a.handle)

/-- What a step does to the names, the semaphores and the workers. -/
inductive Effect (w : ℕ) (pid : W → ℕ) (s t : State W I K) [DecidableEq W] :
    Event W I K → Prop where
  | worker {p : W} {ok : Bool} (b : WorkerPc)
      (heffect : WorkerEffect w (pid p) s.world t.world (s.worker p) b)
      (hworker : t.worker = Function.update s.worker p b) : Effect w pid s t (.worker p ok)
  | kill {p : W} (hworld : t.world = s.world)
      (hworker : t.worker = Function.update s.worker p .exited) : Effect w pid s t (.kill p)
  | quiet {e : Event W I K} (hshm : t.world.shm = s.world.shm) (hsem : t.world.sem = s.world.sem)
      (hval : t.world.val = s.world.val) (hworker : t.worker = s.worker) : Effect w pid s t e
  | shmCreate {e : Event W I K} (hbound : s.world.shm.bound = none)
      (hshm : t.world.shm = s.world.shm.create) (hsem : t.world.sem = s.world.sem)
      (hval : t.world.val = s.world.val) (hworker : t.worker = s.worker) : Effect w pid s t e
  | semCreate {e : Event W I K} (hbound : s.world.sem.bound = none)
      (hshm : t.world.shm = s.world.shm) (hsem : t.world.sem = s.world.sem.create)
      (hval : t.world.val = Function.update s.world.val s.world.sem.fresh 1)
      (hworker : t.worker = s.worker) : Effect w pid s t e
  | shmUnlink {e : Event W I K} (hshm : t.world.shm = s.world.shm.unlink)
      (hsem : t.world.sem = s.world.sem) (hval : t.world.val = s.world.val)
      (hworker : t.worker = s.worker) : Effect w pid s t e
  | semUnlink {k : K} {ok : Bool} (hpc : s.cleanup k = .semUnlink)
      (hshm : t.world.shm = s.world.shm) (hsem : t.world.sem = s.world.sem.unlink)
      (hval : t.world.val = s.world.val) (hworker : t.worker = s.worker) :
      Effect w pid s t (.cleanup k ok)

variable {w : ℕ} {pid : W → ℕ} {s t : State W I K} {e : Event W I K}

/-- Every step has one of these effects. -/
theorem step_effect [DecidableEq W] [DecidableEq I] [DecidableEq K]
    (h : step w pid s e = some t) : Effect w pid s t e := by
  cases e with
  | worker p ok =>
    obtain ⟨⟨y, b⟩, hstep, rfl⟩ := Option.map_eq_some_iff.mp h
    exact .worker b (workerStep_effect hstep) rfl
  | kill p =>
    obtain ⟨-, rfl⟩ := Machine.refusal_eq_some.mp h
    exact .kill rfl rfl
  | init i ok =>
    obtain ⟨⟨y, b⟩, hstep, rfl⟩ := Option.map_eq_some_iff.mp h
    cases initStep_effect hstep with
    | keep hshm hsem hval => exact .quiet hshm hsem hval rfl
    | shmCreate hbound hshm hsem hval => exact .shmCreate hbound hshm hsem hval rfl
    | semCreate hbound hshm hsem hval => exact .semCreate hbound hshm hsem hval rfl
  | cleanup k ok =>
    obtain ⟨⟨y, b⟩, hstep, rfl⟩ := Option.map_eq_some_iff.mp h
    cases hpc : s.cleanup k with
    | shmUnlink =>
      rw [hpc] at hstep
      obtain ⟨rfl, rfl⟩ := Prod.mk.inj (Option.some.inj hstep)
      cases ok
      · exact .quiet rfl rfl rfl rfl
      · exact .shmUnlink rfl rfl rfl rfl
    | semUnlink =>
      rw [hpc] at hstep
      obtain ⟨rfl, rfl⟩ := Prod.mk.inj (Option.some.inj hstep)
      cases ok
      · exact .quiet rfl rfl rfl rfl
      · exact .semUnlink hpc rfl rfl rfl rfl
    | done =>
      rw [hpc] at hstep
      cases hstep

/-- A worker changes no name. -/
theorem move_of_effect {n : ℕ} {x y : World} {a b : WorkerPc} (h : WorkerEffect w n x y a b) :
    y.shm = x.shm ∧ y.sem = x.sem ∧ Move x a b := by
  cases h with
  | semOpen o hbound hy =>
    subst hy
    exact ⟨rfl, rfl, .semOpen o hbound rfl⟩
  | shmOpen o m hbound hy =>
    subst hy
    exact ⟨rfl, rfl, .shmOpen o m rfl hbound rfl⟩
  | mmap h hy | before h hy | load h b hmem hy | semWait h v hval hy | format h b hmem hy
  | store h count b hmem hy =>
    subst hy
    exact ⟨rfl, rfl, .keep rfl fun _ hb => hb⟩
  | semPost h hy =>
    subst hy
    exact ⟨rfl, rfl, .keep rfl fun _ hb => (nomatch hb)⟩
  | fail a _ hy | sigbus a h _ _ hy =>
    subst hy
    exact ⟨rfl, rfl, .keep rfl fun _ hb => (nomatch hb)⟩

/-! ## One semaphore, one worker

The value of a semaphore and the workers that hold it never add up to more than 1. This needs no
condition on the life cycle; a worker that is killed takes its unit with it.
-/

/-- The semaphore a worker has opened. -/
def opened : WorkerPc → Option ℕ
  | .shmOpen o => some o
  | a => a.handle.map Handle.sem

/-- The worker is between `sem_wait` and `sem_post` of semaphore `o`. -/
def Holds (o : ℕ) (a : WorkerPc) : Prop := ∃ h ∈ a.inside, h.sem = o

/-- Who has mapped the memory has opened the semaphore before. -/
theorem opened_of_handle {a : WorkerPc} {h : Handle} (ha : a.handle = some h) :
    opened a = some h.sem := by
  cases a <;> first | exact congrArg (Option.map Handle.sem) ha | cases ha

structure Counted (s : State W I K) : Prop where
  opened_lt : ∀ p, ∀ o ∈ opened (s.worker p), o < s.world.sem.fresh
  total : ∀ o < s.world.sem.fresh, permits (s.world.val o) (Holds o) s.worker ≤ 1

/-- Units never multiply in a step of a worker. -/
theorem permits_workerEffect [DecidableEq W] {n : ℕ} {x y : World} {f : W → WorkerPc} {p : W}
    {b : WorkerPc} (h : WorkerEffect w n x y (f p) b) (o : ℕ) :
    permits (y.val o) (Holds o) (Function.update f p b) ≤ permits (x.val o) (Holds o) f := by
  generalize ha : f p = a at h
  cases h with
  | semOpen o' _ hy | shmOpen o' m _ hy | mmap h hy | before h hy | format h c _ hy
  | load h c _ hy | store h count c _ hy =>
    subst hy
    exact (permits_keep _ (by rw [ha]; exact Iff.rfl)).le
  | semWait h v hval hy =>
    subst hy
    by_cases ho : o = h.sem
    · -- the unit goes from the semaphore to the worker
      subst ho
      rw [World.setVal_val_self, hval]
      exact (permits_acquire v (by rw [ha]; exact fun ⟨_, h, _⟩ => (nomatch h)) ⟨h, rfl, rfl⟩).le
    · rw [World.setVal_val_of_ne _ _ ho]
      refine (permits_keep _ (iff_of_false ?_ ?_)).le
      · exact fun ⟨_, h, hne⟩ => ho (hne.symm.trans (congrArg _ (Option.some.inj h).symm))
      · rw [ha]
        exact fun ⟨_, h, _⟩ => (nomatch h)
  | semPost h hy =>
    subst hy
    by_cases ho : o = h.sem
    · subst ho
      rw [World.setVal_val_self]
      exact (permits_release _ (by rw [ha]; exact ⟨h, rfl, rfl⟩) fun ⟨_, h, _⟩ => (nomatch h)).le
    · rw [World.setVal_val_of_ne _ _ ho]
      refine (permits_keep _ (iff_of_false ?_ ?_)).le
      · exact fun ⟨_, h, _⟩ => (nomatch h)
      · rw [ha]
        exact fun ⟨_, h, hne⟩ => ho (hne.symm.trans (congrArg _ (Option.some.inj h).symm))
  | fail a _ hy | sigbus a h _ _ hy =>
    subst hy
    exact permits_drop _ fun ⟨_, h, _⟩ => (nomatch h)

/-- A worker opens the semaphore that the name is bound to. -/
theorem opened_of_move {x : World} {a b : WorkerPc} (h : Move x a b) :
    ∀ o ∈ opened b, o ∈ opened a ∨ x.sem.bound = some o := by
  intro o ho
  cases h with
  | semOpen o' hbound hb =>
    subst hb
    exact .inr (hbound.trans ho)
  | shmOpen o' m ha hbound hb =>
    subst ha hb
    exact .inl ho
  | keep hpending hhandle =>
    have hb : opened b = b.handle.map Handle.sem := by
      cases b <;> first | rfl | cases hpending
    rw [hb] at ho
    obtain ⟨h, hh, rfl⟩ := Option.map_eq_some_iff.mp ho
    exact .inl (opened_of_handle (hhandle h hh))

/-- A step of worker `p`, which creates no semaphore. -/
theorem Counted.update [DecidableEq W] {p : W} {b : WorkerPc} (hs : Counted s)
    (hsem : t.world.sem = s.world.sem) (hworker : t.worker = Function.update s.worker p b)
    (hopened : ∀ o ∈ opened b, o < s.world.sem.fresh)
    (htotal : ∀ o, permits (t.world.val o) (Holds o) t.worker ≤
      permits (s.world.val o) (Holds o) s.worker) : Counted t := by
  refine ⟨?_, fun o ho => (htotal o).trans (hs.total o (hsem ▸ ho))⟩
  rw [hworker, hsem]
  exact (Function.forall_update_iff s.worker fun _ a => ∀ o ∈ opened a, o < s.world.sem.fresh).mpr
    ⟨hopened, fun q _ => hs.opened_lt q⟩

/-- A step of an init or a cleanup that creates no semaphore. -/
theorem Counted.rename (hs : Counted s) (hsem : t.world.sem.fresh = s.world.sem.fresh)
    (hval : t.world.val = s.world.val) (hworker : t.worker = s.worker) : Counted t where
  opened_lt := by
    rw [hworker, hsem]
    exact hs.opened_lt
  total := by
    rw [hworker, hval, hsem]
    exact hs.total

/-- Each step keeps every semaphore at one unit at most, free or held. -/
theorem counted_step [DecidableEq W] [DecidableEq I] [DecidableEq K] (hs : Counted s)
    (h : step w pid s e = some t) : Counted t := by
  cases step_effect h with
  | @worker p ok b heffect hworker =>
    obtain ⟨-, hsem, hmove⟩ := move_of_effect heffect
    refine hs.update hsem hworker (fun o ho => ?_) fun o => hworker ▸ permits_workerEffect heffect o
    exact (opened_of_move hmove o ho).elim (hs.opened_lt p o) (s.world.sem.bound_lt o)
  | kill hworld hworker =>
    refine hs.update (by rw [hworld]) hworker (fun o ho => (nomatch ho)) fun o => ?_
    rw [hworld, hworker]
    exact permits_drop _ fun ⟨_, h, _⟩ => (nomatch h)
  | quiet hshm hsem hval hworker | shmCreate _ hshm hsem hval hworker
  | shmUnlink hshm hsem hval hworker =>
    exact hs.rename (by rw [hsem]) hval hworker
  | semUnlink hpc hshm hsem hval hworker =>
    exact hs.rename (by rw [hsem, Name.unlink_fresh]) hval hworker
  | semCreate hbound hshm hsem hval hworker =>
    refine ⟨fun q o ho => ?_, fun o ho => ?_⟩
    · rw [hsem]
      exact (hs.opened_lt q o (hworker ▸ ho)).trans (Nat.lt_succ_self _)
    · rw [hworker, hval]
      by_cases hnew : o = s.world.sem.fresh
      · -- nobody can hold a semaphore that did not exist
        subst hnew
        rw [Function.update_self, permits_eq_of_forall_not, Nat.cast_one]
        rintro q ⟨h, hh, hsem⟩
        have hlt := hs.opened_lt q _ (opened_of_handle (handle_of_inside hh))
        exact absurd hlt (hsem ▸ lt_irrefl _)
      · rw [Function.update_of_ne hnew]
        rw [hsem, Name.create_fresh] at ho
        exact hs.total o (by omega)

/-- No worker has opened a semaphore at first. -/
theorem counted_init : Counted (init : State W I K) :=
  ⟨fun _ _ h => (nomatch h), fun _ h => absurd h (Nat.not_lt_zero _)⟩

/-- With one unit at most there is one holder at most. -/
theorem oneHolder_of_counted (hs : Counted s) : OneHolder s := by
  intro p q h h' hp hq hsem
  have hlt := hs.opened_lt p h.sem (opened_of_handle (handle_of_inside hp))
  exact eq_of_permits_le_one (hs.total h.sem hlt) ⟨h, hp, rfl⟩ ⟨h', hq, hsem.symm⟩

/-! ## One memory object, one semaphore -/

/-- What the names are bound to ties every memory object to one semaphore. -/
structure Paired (s : State W I K) : Prop where
  pending : ∀ p, ∀ o ∈ pending (s.worker p), s.world.sem.bound = some o
  current : ∀ p, ∀ h ∈ (s.worker p).handle,
    s.world.shm.bound = some h.mem → s.world.sem.bound = some h.sem
  mem_lt : ∀ p, ∀ h ∈ (s.worker p).handle, h.mem < s.world.shm.fresh
  same : ∀ p q, ∀ h ∈ (s.worker p).handle, ∀ h' ∈ (s.worker q).handle,
    h.mem = h'.mem → h.sem = h'.sem

/-- A step of a worker, which leaves the names alone. -/
theorem Paired.move [DecidableEq W] {p : W} {b : WorkerPc} (hs : Paired s)
    (hshm : t.world.shm = s.world.shm) (hsem : t.world.sem = s.world.sem)
    (hworker : t.worker = Function.update s.worker p b) (hmove : Move s.world (s.worker p) b) :
    Paired t := by
  have hpending : ∀ q, ∀ o ∈ Life.pending (t.worker q), s.world.sem.bound = some o := by
    rw [hworker]
    refine (Function.forall_update_iff s.worker
      fun _ a => ∀ o ∈ Life.pending a, s.world.sem.bound = some o).mpr
      ⟨fun o ho => ?_, fun q _ => hs.pending q⟩
    cases hmove with
    | semOpen o' hbound hb =>
      subst hb
      exact hbound.trans ho
    | shmOpen o' m _ _ hb =>
      subst hb
      cases ho
    | keep hnone _ =>
      rw [hnone] at ho
      cases ho
  -- the objects of a worker were known before, or they are the ones the names are bound to
  have hknown : ∀ q, ∀ h ∈ (t.worker q).handle, h ∈ (s.worker q).handle ∨
      s.world.shm.bound = some h.mem ∧ s.world.sem.bound = some h.sem := by
    rw [hworker]
    refine (Function.forall_update_iff s.worker
      fun q a => ∀ h ∈ a.handle, h ∈ (s.worker q).handle ∨
        s.world.shm.bound = some h.mem ∧ s.world.sem.bound = some h.sem).mpr
      ⟨fun h hh => ?_, fun q _ h hh => .inl hh⟩
    cases hmove with
    | semOpen o' _ hb =>
      subst hb
      cases hh
    | shmOpen o' m ha hbound hb =>
      subst hb
      obtain rfl := Option.some.inj hh
      exact .inr ⟨hbound, hs.pending p o' (by rw [ha]; rfl)⟩
    | keep _ hhandle => exact .inl (hhandle h hh)
  have hcurrent : ∀ q, ∀ h ∈ (t.worker q).handle,
      s.world.shm.bound = some h.mem → s.world.sem.bound = some h.sem := fun q h hh hbound =>
    (hknown q h hh).elim (fun hold => hs.current q h hold hbound) fun hnew => hnew.2
  refine ⟨hsem ▸ hpending, hshm ▸ hsem ▸ hcurrent, fun q h hh => ?_, fun q r h hh h' hh' hmem => ?_⟩
  · rw [hshm]
    exact (hknown q h hh).elim (hs.mem_lt q h) fun hnew => s.world.shm.bound_lt _ hnew.1
  · rcases hknown q h hh with hold | ⟨hbound, hnew⟩
    · rcases hknown r h' hh' with hold' | ⟨hbound', hnew'⟩
      · exact hs.same q r h hold h' hold' hmem
      · exact Option.some.inj ((hcurrent q h hh (hmem ▸ hbound')).symm.trans hnew')
    · exact Option.some.inj (hnew.symm.trans (hcurrent r h' hh' (hmem ▸ hbound)))

/-- A step of an init or a cleanup, which leaves the workers alone. -/
theorem Paired.rename (hs : Paired s) (hworker : t.worker = s.worker)
    (hpending : ∀ p, ∀ o ∈ Life.pending (s.worker p), t.world.sem.bound = some o)
    (hcurrent : ∀ p, ∀ h ∈ (s.worker p).handle,
      t.world.shm.bound = some h.mem → t.world.sem.bound = some h.sem)
    (hfresh : s.world.shm.fresh ≤ t.world.shm.fresh) : Paired t where
  pending := hworker ▸ hpending
  current := hworker ▸ hcurrent
  mem_lt p h hh := (hs.mem_lt p h (hworker ▸ hh)).trans_le hfresh
  same := hworker ▸ hs.same

/-- If no semaphore is unlinked while it is in use, each memory object keeps its semaphore. -/
theorem paired_step [DecidableEq W] [DecidableEq I] [DecidableEq K] (hs : Paired s)
    (hG : SemUnlinkWhileUnused s e) (h : step w pid s e = some t) : Paired t := by
  cases step_effect h with
  | worker b heffect hworker =>
    obtain ⟨hshm, hsem, hmove⟩ := move_of_effect heffect
    exact hs.move hshm hsem hworker hmove
  | kill hworld hworker =>
    exact hs.move (by rw [hworld]) (by rw [hworld]) hworker
      (.keep rfl fun _ hb => (nomatch hb))
  | quiet hshm hsem hval hworker =>
    exact hs.rename hworker (hsem ▸ hs.pending) (hshm ▸ hsem ▸ hs.current)
      (congrArg Name.fresh hshm).ge
  | shmCreate hbound hshm hsem hval hworker =>
    refine hs.rename hworker (hsem ▸ hs.pending) (fun p h hh hnew => ?_) ?_
    · -- no worker has mapped the new object yet
      rw [hshm, Name.create_bound, Option.some.injEq] at hnew
      exact absurd (hs.mem_lt p h hh) (hnew ▸ lt_irrefl _)
    · rw [hshm, Name.create_fresh]
      exact Nat.le_succ _
  | semCreate hbound hshm hsem hval hworker =>
    refine hs.rename hworker (fun p o ho => ?_) (fun p h hh hmem => ?_)
      (congrArg Name.fresh hshm).ge
    · have := hs.pending p o ho
      rw [hbound] at this
      cases this
    · have := hs.current p h hh (hshm ▸ hmem)
      rw [hbound] at this
      cases this
  | shmUnlink hshm hsem hval hworker =>
    refine hs.rename hworker (hsem ▸ hs.pending) (fun p h hh hmem => ?_)
      (congrArg Name.fresh hshm).ge
    rw [hshm] at hmem
    cases hmem
  | semUnlink hpc hshm hsem hval hworker =>
    refine hs.rename hworker (fun p o ho => ?_) (fun p h hh hmem => ?_)
      (congrArg Name.fresh hshm).ge
    · rw [(hG hpc p).1] at ho
      cases ho
    · -- the condition rules out a worker on the current memory object
      exact absurd (hshm ▸ hmem) ((hG hpc p).2 h hh)

/-- At first no worker knows an object. -/
theorem paired_init : Paired (init : State W I K) :=
  ⟨fun _ _ h => (nomatch h), fun _ _ h => (nomatch h), fun _ _ h => (nomatch h),
    fun _ _ _ h => (nomatch h)⟩

/-- Workers on one memory object use one semaphore, so at most one of them is inside. -/
theorem oneInside_of_paired (hs : Paired s) (hcounted : Counted s) : OneInside s :=
  fun p q h h' hp hq hmem => oneHolder_of_counted hcounted p q h h' hp hq
    (hs.same p q h (handle_of_inside hp) h' (handle_of_inside hq) hmem)

/-! ## Runs -/

variable [DecidableEq W] [DecidableEq I] [DecidableEq K]

/-- **One worker in a memory object at a time.** Workers that have opened one semaphore exclude each
other in every run. Workers that have mapped one memory object do so in every run that executes
`sem_unlink` only while no worker still pairs the old semaphore with the memory of `SHM_NAME`. -/
theorem oneInside_of_semUnlinkWhileUnused {es : List (Event W I K)}
    (hrun : (machine I K w pid).run init es = some t) :
    OneHolder t ∧ ((machine I K w pid).Along SemUnlinkWhileUnused init es → OneInside t) := by
  have hcounted : Counted t := Machine.invariant_of_step (M := machine I K w pid)
    (fun _ _ _ => counted_step) counted_init hrun
  refine ⟨oneHolder_of_counted hcounted, fun hG => oneInside_of_paired ?_ hcounted⟩
  exact Machine.invariant (M := machine I K w pid) (fun _ _ _ hs => paired_step hs) paired_init hG
    hrun

end Program

/-- The second generation starts when the worker of the first one is through. -/
def generations : List (Event Bool Bool Unit) :=
  initRun false ++ workerRun true 9 ++ cleanupRun () ++ initRun true ++ workerRun false 4

theorem oneInside_generations :
    let M := machine Bool Unit 32 fun p : Bool => bif p then 101 else 102
    OneHolder ((M.run init generations).get (by decide)) ∧
      OneInside ((M.run init generations).get (by decide)) := by
  intro M
  have hrun : M.run init generations = some _ := (Option.some_get (by decide)).symm
  have h := oneInside_of_semUnlinkWhileUnused hrun
  exact ⟨h.1, h.2 (by decide)⟩

end LinuxRiscv32.PosixShm.Life

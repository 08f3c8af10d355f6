import LinuxRiscv32.Common.Machine
import LinuxRiscv32.C.PiSem
import Mathlib.Order.Nat
import Mathlib.Tactic.Common

/-!
# The lock shared by `logger`, `health` and `payment`

Reference: `C/shared_lock.h`, and the beginning of `main` in `C/logger.c`, `C/health.c` and
`C/payment.c`.

`logger` unlinks the name and creates the lock; `health` and `payment` open it, and try again up to
20 times. The programs are started next to each other, so the opens can come before the unlink. The
name may be absent at first or left over from programs that were killed.
-/

namespace LinuxRiscv32.SharedLock

open Common Kernel PiSem

/-- The programs that open the lock and leave its creation to `logger`. -/
inductive Client where
  | health
  | payment
deriving DecidableEq, Repr

/-- The start-up of `logger`. -/
inductive LoggerPc where
  | unlink
  | opening (c : Opening)
  | passed (o : ℕ)
  | exited
deriving DecidableEq, Repr

/-- The start-up of `health` or `payment`; `i` is the loop variable. -/
inductive ClientPc where
  | opening (i : ℕ) (c : Opening)
  | sleeping (i : ℕ)
  | passed (o : ℕ)
  | exited
deriving DecidableEq, Repr

structure State where
  world : World Unit
  logger : LoggerPc
  client : Client → ClientPc

/-- One system call of a program; `ok` as in `openStep`. -/
inductive Event where
  | logger (ok : Bool)
  | client (c : Client) (ok : Bool)
deriving DecidableEq, Repr

/-- The start of the three programs, with the name and its object as they are found. -/
def init (b : Build) (w : World Unit) : State :=
  { world := w
    logger := .unlink
    client := fun _ => .opening 0 (openOrCreate b false) }

/-- `logger` after a call of `pi_sem_open_or_create` went on to `r`. -/
def LoggerPc.next : OpenPc → LoggerPc
  | .done (some o) => .passed o
  | .done none | .sigbus => .exited
  | r => .opening (.pi r)

/-- `health` and `payment` likewise: a handle ends the loop, `NULL` is followed by `usleep`. -/
def ClientPc.next (i : ℕ) : OpenPc → ClientPc
  | .done (some o) => .passed o
  | .done none => .sleeping i
  | .sigbus => .exited
  | r => .opening i (.pi r)

def step (b : Build) (s : State) : Event → Option State
  | .logger ok =>
    match s.logger with
    | .unlink =>
      some { s with
        world := { s.world with name := s.world.name.unlink }
        logger := .opening (openOrCreate b true) }
    | .opening c =>
      (openStep s.world ok c).map fun r => { s with world := r.1, logger := .next r.2 }
    | .passed _ | .exited => none
  | .client p ok =>
    match s.client p with
    | .opening i c =>
      (openStep s.world ok c).map fun r =>
        { s with world := r.1, client := Function.update s.client p (.next i r.2) }
    | .sleeping i =>
      let pc := if i + 1 < 20 then .opening (i + 1) (openOrCreate b false) else .exited
      some { s with client := Function.update s.client p pc }
    | .passed _ | .exited => none

/-- The three programs during their start-up. -/
def machine (b : Build) : Machine State Event := ⟨step b⟩

/-! ## What is asked of a run -/

/-- Programs that have all passed their start-up hold handles to one object. -/
def OneLock (s : State) : Prop :=
  ∀ ol oh op, s.logger = .passed ol → s.client .health = .passed oh →
    s.client .payment = .passed op → oh = ol ∧ op = ol

/-- The object that `health` or `payment` creates in a step. -/
def clientCreates (x : State × Event) : Option ℕ :=
  match x.2 with
  | .logger _ => none
  | .client p ok =>
    match x.1.client p with
    | .opening _ c => if c.creates x.1.world ok then some x.1.world.name.fresh else none
    | _ => none

/-- The object that `logger` unlinks in a step. -/
def loggerUnlinks (x : State × Event) : Option ℕ :=
  match x.2, x.1.logger with
  | .logger _, .unlink => x.1.world.name.bound
  | _, _ => none

/-- No object that `health` or `payment` creates is one that `logger` unlinks. -/
def KeepsCreated (tr : List (State × Event)) : Prop :=
  ∀ x ∈ tr, ∀ y ∈ tr, ∀ o, clientCreates x = some o → loggerUnlinks y ≠ some o

/-- `health` opens the lock before `logger` starts, `payment` after it. -/
def earlyHealth (b : Build) : List Event :=
  match b with
  | .pi => List.replicate 4 (.client .health true) ++ List.replicate 5 (.logger true) ++
      List.replicate 3 (.client .payment true)
  | .posix => [.client .health true, .logger true, .logger true, .client .payment true]

/-- With `USE_PI_SEM`, `health` creates the lock that `logger` replaces, even if the name is absent
at first; without it, `health` keeps a lock that was left over. -/
theorem earlyHealth_breaks :
    (¬ ∀ (es : List Event) (t : State), (machine .pi).run (init .pi .absent) es = some t →
      OneLock t ∧ KeepsCreated ((machine .pi).trace (init .pi .absent) es)) ∧
    ¬ ∀ (es : List Event) (t : State),
      (machine .posix).run (init .posix (.leftover .semaphore)) es = some t →
        OneLock t ∧
          KeepsCreated ((machine .posix).trace (init .posix (.leftover .semaphore)) es) := by
  constructor
  · intro h
    obtain ⟨hone, -⟩ := h (earlyHealth .pi) _ rfl
    exact absurd (hone 1 0 1 rfl rfl rfl).1 (by decide)
  · intro h
    obtain ⟨hone, -⟩ := h (earlyHealth .posix) _ rfl
    exact absurd (hone 1 0 1 rfl rfl rfl).1 (by decide)

/-- `health` and `payment` find or create an object only after `logger` has unlinked the name. -/
def ObtainsAfterUnlink (s : State) (e : Event) : Prop :=
  match e with
  | .logger _ => True
  | .client p ok =>
    match s.client p with
    | .opening _ c => c.creates s.world ok ∨ c.finds s.world ok → s.logger ≠ .unlink
    | _ => True

instance (s : State) (e : Event) : Decidable (ObtainsAfterUnlink s e) := by
  unfold ObtainsAfterUnlink
  split
  · infer_instance
  · split <;> infer_instance

/-! ## One step -/

/-- The object a program has got hold of. -/
def LoggerPc.object : LoggerPc → Option ℕ
  | .opening c => c.object
  | .passed o => some o
  | .unlink | .exited => none

/-- The object a program has got hold of. -/
def ClientPc.object : ClientPc → Option ℕ
  | .opening _ c => c.object
  | .passed o => some o
  | .sleeping _ | .exited => none

@[simp] theorem openOrCreate_object (b : Build) (creat : Bool) :
    (openOrCreate b creat).object = none := by
  cases b <;> rfl

@[simp] theorem LoggerPc.next_object (r : OpenPc) : (LoggerPc.next r).object = r.object := by
  cases r with
  | done handle => cases handle <;> rfl
  | _ => rfl

@[simp] theorem ClientPc.next_object (i : ℕ) (r : OpenPc) :
    (ClientPc.next i r).object = r.object := by
  cases r with
  | done handle => cases handle <;> rfl
  | _ => rfl

theorem LoggerPc.next_ne_unlink (r : OpenPc) : LoggerPc.next r ≠ .unlink := by
  cases r with
  | done handle => cases handle <;> exact LoggerPc.noConfusion
  | _ => exact LoggerPc.noConfusion

/-- What a step does to the name and to the objects of the three programs. -/
inductive Effect (b : Build) (s t : State) : Event → Prop where
  | unlink {ok : Bool} (hlogger : s.logger = .unlink) (hname : t.world.name = s.world.name.unlink)
      (hlogger' : t.logger ≠ .unlink) (hobject : t.logger.object = none)
      (hclient : t.client = s.client) : Effect b s t (.logger ok)
  | loggerOpen {ok : Bool} (c : Opening) (r : OpenPc) (hlogger : s.logger = .opening c)
      (heffect : OpenEffect s.world t.world ok c r) (hlogger' : t.logger = .next r)
      (hclient : t.client = s.client) : Effect b s t (.logger ok)
  | clientOpen {p : Client} {ok : Bool} (i : ℕ) (c : Opening) (r : OpenPc)
      (hpc : s.client p = .opening i c) (heffect : OpenEffect s.world t.world ok c r)
      (hlogger : t.logger = s.logger)
      (hclient : t.client = Function.update s.client p (.next i r)) : Effect b s t (.client p ok)
  | wake {p : Client} {ok : Bool} (i : ℕ) (pc : ClientPc) (hpc : s.client p = .sleeping i)
      (hworld : t.world = s.world) (hlogger : t.logger = s.logger)
      (hclient : t.client = Function.update s.client p pc) (hobject : pc.object = none) :
      Effect b s t (.client p ok)

/-- Every step has one of these effects. -/
theorem step_effect {b : Build} {s t : State} {e : Event} (h : step b s e = some t) :
    Effect b s t e := by
  cases e with
  | logger ok =>
    simp only [step] at h
    split at h
    next hlogger =>
      cases h
      exact .unlink hlogger rfl LoggerPc.noConfusion (openOrCreate_object b true) rfl
    next c hlogger =>
      obtain ⟨⟨w, r⟩, hopen, rfl⟩ := Option.map_eq_some_iff.mp h
      exact .loggerOpen c r hlogger (openStep_effect hopen) rfl rfl
    · cases h
    · cases h
  | client p ok =>
    simp only [step] at h
    split at h
    next i c hpc =>
      obtain ⟨⟨w, r⟩, hopen, rfl⟩ := Option.map_eq_some_iff.mp h
      exact .clientOpen i c r hpc (openStep_effect hopen) rfl rfl
    next i hpc =>
      cases h
      refine .wake i _ hpc rfl rfl rfl ?_
      split
      · exact openOrCreate_object b false
      · rfl
    · cases h
    · cases h

/-! ## The invariant -/

/-- Nobody has an object before the unlink, and every object is the one the name is bound to. -/
structure Inv (s : State) : Prop where
  early : s.logger = .unlink → ∀ p, (s.client p).object = none
  logger : ∀ o ∈ s.logger.object, s.world.name.bound = some o
  client : ∀ p, ∀ o ∈ (s.client p).object, s.world.name.bound = some o

/-- Nobody has a handle at first. -/
theorem inv_init (b : Build) (w : World Unit) : Inv (init b w) where
  early _ _ := openOrCreate_object b false
  logger _ h := nomatch h
  client p o h := by
    rw [show ((init b w).client p).object = none from openOrCreate_object b false] at h
    cases h

/-- A name that is bound to a program's object stays so, and the caller gets this object. -/
theorem bound_of_openEffect {w w' : World Unit} {ok : Bool} {c : Opening} {r : OpenPc}
    (h : OpenEffect w w' ok c r) (hc : ∀ o ∈ c.object, w.name.bound = some o) :
    (∀ o, w.name.bound = some o → w'.name.bound = some o) ∧
      ∀ o ∈ r.object, w'.name.bound = some o := by
  cases h with
  | keep hname hobject _ =>
    rw [hname]
    exact ⟨fun _ h => h, fun o ho => hc o (hobject o ho)⟩
  | find o hname hbound hobject _ _ =>
    rw [hname, hobject]
    exact ⟨fun _ h => h, fun o' ho' => Option.some.inj ho' ▸ hbound⟩
  | create hbound hname hobject _ =>
    rw [hname, hobject, hbound]
    exact ⟨fun _ h => (nomatch h), fun o ho => ho⟩

/-- A step of `health` or `payment`: what holds of the others stays true. -/
theorem Inv.client_step {s t : State} {p : Client} {pc : ClientPc} (hs : Inv s)
    (hlogger : t.logger = s.logger) (hclient : t.client = Function.update s.client p pc)
    (hkeep : ∀ o, s.world.name.bound = some o → t.world.name.bound = some o)
    (hearly : s.logger = .unlink → pc.object = none)
    (hobject : ∀ o ∈ pc.object, t.world.name.bound = some o) : Inv t where
  early hunlink := by
    rw [hclient]
    exact (Function.forall_update_iff s.client fun _ a => a.object = none).mpr
      ⟨hearly (hlogger ▸ hunlink), fun q _ => hs.early (hlogger ▸ hunlink) q⟩
  logger o ho := hkeep o (hs.logger o (hlogger ▸ ho))
  client := by
    rw [hclient]
    exact (Function.forall_update_iff s.client
      fun _ a => ∀ o ∈ a.object, t.world.name.bound = some o).mpr
      ⟨hobject, fun q _ o ho => hkeep o (hs.client q o ho)⟩

/-- A step that obtains no object in front of the unlink preserves the invariant. -/
theorem inv_step {b : Build} {s t : State} {e : Event} (hs : Inv s) (hG : ObtainsAfterUnlink s e)
    (h : step b s e = some t) : Inv t := by
  cases step_effect h with
  | unlink hlogger hname hlogger' hobject hclient =>
    refine ⟨fun hunlink => absurd hunlink hlogger', fun o ho => ?_, fun p o ho => ?_⟩
    · rw [hobject] at ho
      cases ho
    · rw [hclient, hs.early hlogger p] at ho
      cases ho
  | loggerOpen c r hlogger heffect hlogger' hclient =>
    obtain ⟨hkeep, hr⟩ := bound_of_openEffect heffect
      (fun o ho => hs.logger o (by rw [hlogger]; exact ho))
    refine ⟨fun hunlink => absurd (hlogger' ▸ hunlink) (LoggerPc.next_ne_unlink r),
      fun o ho => hr o ?_,
      fun p o ho => hkeep o (hs.client p o (hclient ▸ ho))⟩
    rwa [hlogger', LoggerPc.next_object] at ho
  | @clientOpen p ok i c r hpc heffect hlogger hclient =>
    obtain ⟨hkeep, hr⟩ := bound_of_openEffect heffect
      (fun o ho => hs.client p o (by rw [hpc]; exact ho))
    simp only [ObtainsAfterUnlink, hpc] at hG
    refine hs.client_step hlogger hclient hkeep (fun hunlink => ?_) (fun o ho => hr o ?_)
    · -- before the unlink the call can neither find nor create an object
      have hnone : c.object = none := by
        simpa [hpc, ClientPc.object] using hs.early hunlink p
      rw [ClientPc.next_object]
      cases heffect with
      | keep _ hobject _ =>
        refine Option.eq_none_iff_forall_ne_some.mpr fun o ho => ?_
        have := hobject o ho
        rw [hnone] at this
        cases this
      | find _ _ _ _ hfinds _ => exact absurd hunlink (hG (.inr hfinds))
      | create _ _ _ hcreates => exact absurd hunlink (hG (.inl hcreates))
    · rwa [ClientPc.next_object] at ho
  | wake i pc hpc hworld hlogger hclient hobject =>
    refine hs.client_step hlogger hclient (fun o ho => by rwa [hworld]) (fun _ => hobject) ?_
    intro o ho
    rw [hobject] at ho
    cases ho

/-- All handles are to the object that the name is bound to. -/
theorem oneLock_of_inv {s : State} (hs : Inv s) : OneLock s := by
  intro ol oh op hl hh hp
  have hbound := hs.logger ol (by rw [hl]; rfl)
  have hhealth := hs.client .health oh (by rw [hh]; rfl)
  have hpayment := hs.client .payment op (by rw [hp]; rfl)
  exact ⟨Option.some.inj (hhealth.symm.trans hbound), Option.some.inj (hpayment.symm.trans hbound)⟩

/-! ## What was created and unlinked before -/

/-- The step concerns only objects on the right side of `F`: what a client creates is not older, and
what `logger` unlinks is. -/
def Sorted (F : ℕ) (x : State × Event) : Prop :=
  (∀ o, clientCreates x = some o → F ≤ o) ∧ ∀ u, loggerUnlinks x = some u → u < F

/-- Some number separates the objects unlinked so far from the ones the clients created. -/
structure History (h : List (State × Event)) (s : State) : Prop where
  early : s.logger = .unlink → ∀ x ∈ h, clientCreates x = none
  sorted : ∃ F ≤ s.world.name.fresh, ∀ x ∈ h, Sorted F x

theorem sorted_of_quiet {x : State × Event} (F : ℕ) (hc : clientCreates x = none)
    (hu : loggerUnlinks x = none) : Sorted F x := by
  refine ⟨fun o ho => ?_, fun u hu' => ?_⟩
  · rw [hc] at ho
    cases ho
  · rw [hu] at hu'
    cases hu'

/-- A step that keeps the separating number. -/
theorem History.snoc {h : List (State × Event)} {s t : State} {e : Event} (hh : History h s)
    (hfresh : s.world.name.fresh ≤ t.world.name.fresh)
    (hearly : t.logger = .unlink → s.logger = .unlink ∧ clientCreates (s, e) = none)
    (hsorted : ∀ F ≤ s.world.name.fresh, Sorted F (s, e)) : History (h ++ [(s, e)]) t := by
  obtain ⟨F, hF, hall⟩ := hh.sorted
  refine ⟨fun hunlink => ?_, F, hF.trans hfresh, ?_⟩
  · rw [List.forall_mem_append, List.forall_mem_singleton]
    exact ⟨hh.early (hearly hunlink).1, (hearly hunlink).2⟩
  · rw [List.forall_mem_append, List.forall_mem_singleton]
    exact ⟨hall, hsorted F hF⟩

theorem fresh_le_of_openEffect {w w' : World Unit} {ok : Bool} {c : Opening} {r : OpenPc}
    (h : OpenEffect w w' ok c r) : w.name.fresh ≤ w'.name.fresh := by
  cases h with
  | keep hname _ _ | find _ hname _ _ _ _ => exact (congrArg Name.fresh hname).ge
  | create _ hname _ _ =>
    rw [hname]
    exact Nat.le_succ _

/-- A step that obtains no object in front of the unlink keeps the two apart. -/
theorem history_step {b : Build} {h : List (State × Event)} {s t : State} {e : Event}
    (hh : History h s) (hG : ObtainsAfterUnlink s e) (hstep : step b s e = some t) :
    History (h ++ [(s, e)]) t := by
  cases step_effect hstep with
  | unlink hlogger hname hlogger' hobject hclient =>
    -- the unlink moves the separating number up to the next object
    obtain ⟨F, hF, hall⟩ := hh.sorted
    refine ⟨fun hunlink => absurd hunlink hlogger', s.world.name.fresh, by rw [hname]; exact le_rfl,
      ?_⟩
    rw [List.forall_mem_append, List.forall_mem_singleton]
    refine ⟨fun x hx => ⟨fun o ho => ?_, fun u hu => ((hall x hx).2 u hu).trans_le hF⟩,
      fun o ho => (nomatch ho), fun u hu => ?_⟩
    · rw [hh.early hlogger x hx] at ho
      cases ho
    · exact s.world.name.bound_lt u (by simpa [loggerUnlinks, hlogger] using hu)
  | loggerOpen c r hlogger heffect hlogger' hclient =>
    exact hh.snoc (fresh_le_of_openEffect heffect)
      (fun hunlink => absurd (hlogger' ▸ hunlink) (LoggerPc.next_ne_unlink r))
      fun F _ => sorted_of_quiet F rfl (by simp only [loggerUnlinks, hlogger])
  | @clientOpen p ok i c r hpc heffect hlogger hclient =>
    have hcreates : clientCreates (s, .client p ok) =
        if c.creates s.world ok then some s.world.name.fresh else none := by
      simp only [clientCreates, hpc]
    refine hh.snoc (fresh_le_of_openEffect heffect) (fun hunlink => ?_) fun F hF => ?_
    · have hs : s.logger = .unlink := hlogger ▸ hunlink
      simp only [ObtainsAfterUnlink, hpc] at hG
      refine ⟨hs, ?_⟩
      rw [hcreates, if_neg fun hc => hG (.inl hc) hs]
    · refine ⟨fun o ho => ?_, fun u hu => (nomatch hu)⟩
      rw [hcreates, Option.ite_none_right_eq_some, Option.some.injEq] at ho
      exact ho.2 ▸ hF
  | @wake p ok i pc hpc hworld hlogger hclient hobject =>
    have hquiet : clientCreates (s, .client p ok) = none := by simp only [clientCreates, hpc]
    exact hh.snoc (by rw [hworld]) (fun hunlink => ⟨hlogger ▸ hunlink, hquiet⟩)
      fun F _ => sorted_of_quiet F hquiet rfl

/-- What lies on different sides of a number is different. -/
theorem keepsCreated_of_history {h : List (State × Event)} {s : State} (hh : History h s) :
    KeepsCreated h := by
  obtain ⟨F, -, hall⟩ := hh.sorted
  intro x hx y hy o ho hu
  exact absurd ((hall x hx).1 o ho) (Nat.not_le.mpr ((hall y hy).2 o hu))

/-- **One lock for the three programs, if nobody gets hold of one before the unlink.** Whatever the
build and whatever the name was bound to at first, in every run in which `health` and `payment` find
or create an object only after `logger` has unlinked the name, the programs share one object once
they have all passed their start-up, and no object they created is unlinked. -/
theorem oneLock_of_obtainsAfterUnlink {b : Build} {w : World Unit} {es : List Event} {t : State}
    (hG : (machine b).Along ObtainsAfterUnlink (init b w) es)
    (hrun : (machine b).run (init b w) es = some t) :
    OneLock t ∧ KeepsCreated ((machine b).trace (init b w) es) := by
  have hinv := Machine.invariant (M := machine b) (fun _ _ _ hs => inv_step hs) (inv_init b w) hG
    hrun
  have hhistory := Machine.history_invariant (M := machine b) (I := History)
    (fun _ _ _ _ hh => history_step hh)
    ⟨fun _ _ h => absurd h List.not_mem_nil, 0, Nat.zero_le _, fun _ h => absurd h List.not_mem_nil⟩
    hG hrun
  exact ⟨oneLock_of_inv hinv, keepsCreated_of_history hhistory⟩

/-- `health` retries until `logger` has created the lock. -/
def lateHealth : List Event :=
  [.client .health true, .client .payment true, .logger true, .logger true, .client .health true,
    .client .health true, .client .payment true, .client .payment true]

theorem oneLock_lateHealth :
    OneLock (((machine .posix).run (init .posix .absent) lateHealth).get (by decide)) ∧
      KeepsCreated ((machine .posix).trace (init .posix .absent) lateHealth) :=
  oneLock_of_obtainsAfterUnlink (by decide) (Option.some_get _).symm

/-! ## Opening too early -/

/-- After the unlink, the name and `logger` know only objects from `F` on. -/
structure Since (F : ℕ) (s : State) : Prop where
  fresh : F ≤ s.world.name.fresh
  bound : s.logger ≠ .unlink → ∀ o ∈ s.world.name.bound, F ≤ o
  logger : ∀ o ∈ s.logger.object, F ≤ o

/-- A step behind the unlink meets no older object. -/
theorem since_step {b : Build} {F : ℕ} {s t : State} {e : Event} (hs : Since F s)
    (h : step b s e = some t) : Since F t := by
  cases step_effect h with
  | unlink hlogger hname hlogger' hobject hclient =>
    refine ⟨by rw [hname]; exact hs.fresh, fun _ o ho => ?_, fun o ho => ?_⟩
    · rw [hname] at ho
      cases ho
    · rw [hobject] at ho
      cases ho
  | loggerOpen c r hlogger heffect hlogger' hclient =>
    have hne : s.logger ≠ .unlink := by rw [hlogger]; exact LoggerPc.noConfusion
    have hc : ∀ o ∈ c.object, F ≤ o := fun o ho => hs.logger o (by rw [hlogger]; exact ho)
    refine ⟨hs.fresh.trans (fresh_le_of_openEffect heffect), fun _ o ho => ?_, fun o ho => ?_⟩
    · cases heffect with
      | keep hname _ _ | find _ hname _ _ _ _ => exact hs.bound hne o (hname ▸ ho)
      | create _ hname _ _ =>
        rw [hname] at ho
        exact Option.some.inj ho ▸ hs.fresh
    · rw [hlogger', LoggerPc.next_object] at ho
      cases heffect with
      | keep _ hobject _ => exact hc o (hobject o ho)
      | find o' _ hbound hobject _ _ => exact hs.bound hne o (hbound.trans (hobject.symm.trans ho))
      | create _ _ hobject _ => exact Option.some.inj (hobject.symm.trans ho) ▸ hs.fresh
  | clientOpen i c r hpc heffect hlogger hclient =>
    refine ⟨hs.fresh.trans (fresh_le_of_openEffect heffect), fun hne o ho => ?_,
      fun o ho => hs.logger o (hlogger ▸ ho)⟩
    cases heffect with
    | keep hname _ _ | find _ hname _ _ _ _ => exact hs.bound (hlogger ▸ hne) o (hname ▸ ho)
    | create _ hname _ _ =>
      rw [hname] at ho
      exact Option.some.inj ho ▸ hs.fresh
  | wake i pc hpc hworld hlogger hclient hobject =>
    exact ⟨hworld ▸ hs.fresh, fun hne o ho => hs.bound (hlogger ▸ hne) o (hworld ▸ ho),
      fun o ho => hs.logger o (hlogger ▸ ho)⟩

/-- An object that existed before the unlink is never the one `logger` passes with, so a program
that got hold of it before is left with another lock. -/
theorem early_handle_differs {b : Build} {es : List Event} {s t : State} {o ol : ℕ}
    (hs : s.logger = .unlink) (ho : o < s.world.name.fresh) (hrun : (machine b).run s es = some t)
    (hl : t.logger = .passed ol) : ol ≠ o := by
  have hsince : Since s.world.name.fresh s :=
    ⟨le_rfl, fun hne => absurd hs hne, fun o ho => by rw [hs] at ho; cases ho⟩
  have ht : Since s.world.name.fresh t := Machine.invariant_of_step (M := machine b)
    (fun _ _ _ => since_step) hsince hrun
  have hle := ht.logger ol (by rw [hl]; rfl)
  omega

end LinuxRiscv32.SharedLock

import LinuxRiscv32.Common.Machine

/-!
# A log that is written in sections

Writers append to one log. A writer enters a section before it appends and leaves the section
afterwards, and a section is entered only while nobody is in one. The machine keeps the log section
by section, so the entries of a section stand together by construction. `AtomicLog.entries_run` says
that nothing was rearranged for that: the sections, one after the other, are the entries in the
order in which they were appended. A system that simulates this machine has a log of whole sections.
-/

namespace Common

variable {ι β : Type*}

/-- Who is in a section, and the entries of every section, the newest section first. -/
structure AtomicLog (ι β : Type*) where
  holder : Option ι
  sections : List (ι × List β)
deriving DecidableEq, Repr

namespace AtomicLog

inductive Action (ι β : Type*) where
  | enter (p : ι)
  | append (p : ι) (e : β)
  | leave (p : ι)
deriving DecidableEq, Repr

def empty : AtomicLog ι β := { holder := none, sections := [] }

/-- The log as a whole. -/
def entries (a : AtomicLog ι β) : List β := a.sections.reverse.flatMap Prod.snd

/-- What an action appends. -/
def Action.entry : Action ι β → Option β
  | .append _ e => some e
  | .enter _ | .leave _ => none

section Program

variable [DecidableEq ι]

/-- `p` is in a section. -/
def inside (a : AtomicLog ι β) (p : ι) : Bool := a.holder = some p

def step (a : AtomicLog ι β) : Action ι β → Option (AtomicLog ι β)
  | .enter p =>
    if a.holder = none then some { holder := some p, sections := (p, []) :: a.sections } else none
  | .append p e =>
    match a.sections with
    | [] => none
    | s :: ss =>
      if a.holder = some p then some { a with sections := (s.1, s.2 ++ [e]) :: ss } else none
  | .leave p => if a.holder = some p then some { a with holder := none } else none

def machine (ι β : Type*) [DecidableEq ι] : Machine (AtomicLog ι β) (Action ι β) := ⟨step⟩

variable {a b : AtomicLog ι β} {x : Action ι β}

/-- A step appends its entry. -/
theorem entries_step (h : step a x = some b) : b.entries = a.entries ++ x.entry.toList := by
  cases x with
  | enter p =>
    obtain ⟨-, rfl⟩ := Machine.guard_eq_some.mp h
    simp [entries, Action.entry]
  | append p e =>
    simp only [step] at h
    split at h
    · cases h
    next s ss hsections =>
      obtain ⟨-, rfl⟩ := Machine.guard_eq_some.mp h
      simp [entries, hsections, Action.entry]
  | leave p =>
    obtain ⟨-, rfl⟩ := Machine.guard_eq_some.mp h
    exact (List.append_nil _).symm

/-- The sections, one after the other, are what was appended, in order. -/
theorem entries_run {xs : List (Action ι β)} (h : (machine ι β).run a xs = some b) :
    b.entries = a.entries ++ xs.filterMap Action.entry := by
  induction xs generalizing a with
  | nil =>
    obtain rfl := Option.some.inj h
    exact (List.append_nil _).symm
  | cons x xs ih =>
    obtain ⟨c, hc, hrun⟩ := (machine ι β).run_cons_eq_some.mp h
    rw [ih hrun, entries_step hc, List.append_assoc, List.filterMap_cons]
    cases x.entry <;> rfl

/-! ## Single actions -/

variable {p : ι}

/-- A section begins when nobody is inside. -/
theorem run_enter (h : a.holder = none) :
    (machine ι β).run a [.enter p] =
      some { holder := some p, sections := (p, []) :: a.sections } :=
  (machine ι β).run_cons_eq_some.mpr ⟨_, if_pos h, rfl⟩

/-- An entry goes to the section under way. -/
theorem run_append {e : β} {s : ι × List β} {ss : List (ι × List β)} (h : a.holder = some p)
    (hs : a.sections = s :: ss) :
    (machine ι β).run a [.append p e] = some { a with sections := (s.1, s.2 ++ [e]) :: ss } := by
  refine (machine ι β).run_cons_eq_some.mpr ⟨_, ?_, rfl⟩
  show step a (.append p e) = _
  simp only [step, hs, if_pos h]

/-- The section ends, and the log stays as it is. -/
theorem run_leave (h : a.holder = some p) :
    (machine ι β).run a [.leave p] = some { a with holder := none } :=
  (machine ι β).run_cons_eq_some.mpr ⟨_, if_pos h, rfl⟩

end Program

end AtomicLog

end Common

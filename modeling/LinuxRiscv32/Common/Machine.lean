import Mathlib.Data.List.Basic
import Mathlib.Data.List.Induction

/-!
# Machines and their runs

A machine performs labels one after the other; a label that a state refuses has no successor. An
interleaving of any number of parties is a list of labels, so a statement about every schedule is a
statement about every list. `Machine.trace` keeps the state each label was performed in. Conditions
on the steps of a run (`Machine.Along`) and histories of what a run did are read off the trace.

* `Machine.invariant` is the rule for properties of states: preserved by one step, hence by a run.
* `Machine.history_invariant` is the rule for properties that tie a state to the steps before it,
  and `Machine.label_invariant` for those that only look at the labels of these steps.
* Each of these has a version for a property that every step preserves (`_of_step`), and
  `Machine.exists_run` is the one for a machine that refuses nothing.
* `Machine.forall_state_iff` says when a property that is decided anew in every step holds
  throughout a run.
* `Machine.simulation` is the rule for a machine whose steps are runs of another machine, and
  `Machine.run_map` the one for a machine that is another one with less in its states.
-/

namespace Common

/-- States, labels, and the successor of a state under a label, if the state accepts it. -/
structure Machine (σ α : Type*) where
  step : σ → α → Option σ

namespace Machine

variable {σ α : Type*} (M : Machine σ α)

/-- Perform the labels in order; `none` as soon as one of them is refused. -/
def run : σ → List α → Option σ
  | s, [] => some s
  | s, a :: as => (M.step s a).bind fun t => run t as

/-- The steps taken by a run: every label together with the state it was performed in. -/
def trace : σ → List α → List (σ × α)
  | _, [] => []
  | s, a :: as => (s, a) :: (M.step s a).elim [] fun t => trace t as

/-- Every step of the run meets the condition `G` on its state and label. -/
def Along (G : σ → α → Prop) (s : σ) (as : List α) : Prop :=
  ∀ x ∈ M.trace s as, G x.1 x.2

@[simp] theorem run_nil (s : σ) : M.run s [] = some s := rfl

@[simp] theorem trace_nil (s : σ) : M.trace s [] = [] := rfl

theorem run_cons (s : σ) (a : α) (as : List α) :
    M.run s (a :: as) = (M.step s a).bind fun t => M.run t as := rfl

theorem run_singleton (s : σ) (a : α) : M.run s [a] = M.step s a := by
  rw [run_cons]
  exact Option.bind_fun_some _

/-- A run starts with one step and goes on from its successor. -/
theorem run_cons_eq_some {s u : σ} {a : α} {as : List α} :
    M.run s (a :: as) = some u ↔ ∃ t, M.step s a = some t ∧ M.run t as = some u := by
  rw [run_cons, Option.bind_eq_some_iff]

theorem trace_cons {s t : σ} {a : α} (h : M.step s a = some t) (as : List α) :
    M.trace s (a :: as) = (s, a) :: M.trace t as := by
  rw [trace, h, Option.elim_some]

/-- A run can be cut in two. -/
theorem run_append (s : σ) (as bs : List α) :
    M.run s (as ++ bs) = (M.run s as).bind fun t => M.run t bs := by
  induction as generalizing s with
  | nil => rfl
  | cons a as ih =>
    rw [List.cons_append, run_cons, run_cons, Option.bind_assoc]
    exact congrArg _ (funext fun t => ih t)

theorem run_append_eq_some {s u : σ} {as bs : List α} :
    M.run s (as ++ bs) = some u ↔ ∃ t, M.run s as = some t ∧ M.run t bs = some u := by
  rw [run_append, Option.bind_eq_some_iff]

/-- The trace of a run in two parts. -/
theorem trace_append {s t : σ} {as : List α} (h : M.run s as = some t) (bs : List α) :
    M.trace s (as ++ bs) = M.trace s as ++ M.trace t bs := by
  induction as generalizing s with
  | nil =>
    rw [run_nil, Option.some.injEq] at h
    rw [h, List.nil_append, trace_nil, List.nil_append]
  | cons a as ih =>
    obtain ⟨u, hu, hrun⟩ := M.run_cons_eq_some.mp h
    rw [List.cons_append, M.trace_cons hu, M.trace_cons hu, ih hrun, List.cons_append]

/-- A run takes a step for each of its labels. -/
theorem trace_map_snd {s t : σ} {as : List α} (h : M.run s as = some t) :
    (M.trace s as).map Prod.snd = as := by
  induction as generalizing s with
  | nil => rfl
  | cons a as ih =>
    obtain ⟨u, hu, hrun⟩ := M.run_cons_eq_some.mp h
    rw [M.trace_cons hu, List.map_cons, ih hrun]

/-- A step recorded in the trace of a run is reached by a shorter run. -/
theorem mem_trace {s : σ} {as : List α} {x : σ × α} (hx : x ∈ M.trace s as) :
    ∃ as₁ as₂, as = as₁ ++ x.2 :: as₂ ∧ M.run s as₁ = some x.1 := by
  induction as generalizing s with
  | nil => exact absurd hx List.not_mem_nil
  | cons a as ih =>
    rw [trace, List.mem_cons] at hx
    rcases hx with rfl | hx
    · exact ⟨[], as, rfl, rfl⟩
    · cases hstep : M.step s a with
      | none => simp [hstep] at hx
      | some t =>
        rw [hstep, Option.elim_some] at hx
        obtain ⟨as₁, as₂, rfl, hrun⟩ := ih hx
        exact ⟨a :: as₁, as₂, rfl, M.run_cons_eq_some.mpr ⟨t, hstep, hrun⟩⟩

/-- Every step recorded in the trace of a run was taken. -/
theorem exists_step_of_mem_trace {s t : σ} {as : List α} (hrun : M.run s as = some t) {x : σ × α}
    (hx : x ∈ M.trace s as) : ∃ u, M.step x.1 x.2 = some u := by
  obtain ⟨as₁, as₂, rfl, hx'⟩ := M.mem_trace hx
  obtain ⟨s', hs', hrest⟩ := M.run_append_eq_some.mp hrun
  obtain rfl := Option.some.inj (hx'.symm.trans hs')
  obtain ⟨u, hu, -⟩ := M.run_cons_eq_some.mp hrest
  exact ⟨u, hu⟩

/-! ## Conditions on the steps of a run -/

variable {M} {G : σ → α → Prop}

instance [∀ s a, Decidable (G s a)] (s : σ) (as : List α) : Decidable (M.Along G s as) :=
  inferInstanceAs (Decidable (∀ x ∈ M.trace s as, G x.1 x.2))

theorem along_nil (s : σ) : M.Along G s [] := fun _ h => absurd h List.not_mem_nil

theorem along_cons {s t : σ} {a : α} {as : List α} (h : M.step s a = some t) :
    M.Along G s (a :: as) ↔ G s a ∧ M.Along G t as := by
  rw [Along, M.trace_cons h, List.forall_mem_cons]
  rfl

/-- A condition holds along a run if it holds along its two parts. -/
theorem along_append {s t : σ} {as bs : List α} (h : M.run s as = some t) :
    M.Along G s (as ++ bs) ↔ M.Along G s as ∧ M.Along G t bs := by
  rw [Along, M.trace_append h, List.forall_mem_append]
  rfl

/-- A condition on the labels alone. -/
theorem along_iff_forall_mem {Q : α → Prop} {s t : σ} {as : List α} (h : M.run s as = some t) :
    M.Along (fun _ a => Q a) s as ↔ ∀ a ∈ as, Q a := by
  conv_rhs => rw [← M.trace_map_snd h, List.forall_mem_map]
  rfl

/-! ## Guarded steps -/

/-- A step that is taken if `p` holds, and then leads to one state. -/
theorem guard_eq_some {p : Prop} [Decidable p] {s t : σ} :
    (if p then some s else none) = some t ↔ p ∧ t = s := by
  rw [Option.ite_none_right_eq_some, Option.some.injEq, eq_comm]

/-- A step that is refused because `p` does not hold. -/
theorem guard_eq_none {p : Prop} [Decidable p] {s : σ} :
    (if p then some s else none) = none ↔ ¬ p := by
  rw [ite_eq_right_iff]
  exact ⟨fun h hp => Option.some_ne_none _ (h hp), fun h hp => absurd hp h⟩

/-- A step that is refused if `p` holds. -/
theorem refusal_eq_some {p : Prop} [Decidable p] {s t : σ} :
    (if p then none else some s) = some t ↔ ¬ p ∧ t = s := by
  rw [Option.ite_none_left_eq_some, Option.some.injEq, eq_comm]

/-! ## Induction over runs -/

/-- What every admitted step preserves holds at the end of every admitted run. -/
theorem invariant {I : σ → Prop}
    (hstep : ∀ s a t, I s → G s a → M.step s a = some t → I t)
    {s t : σ} {as : List α} (h0 : I s) (hG : M.Along G s as) (hrun : M.run s as = some t) :
    I t := by
  induction as generalizing s with
  | nil =>
    rw [run_nil, Option.some.injEq] at hrun
    exact hrun ▸ h0
  | cons a as ih =>
    obtain ⟨u, hu, hrest⟩ := M.run_cons_eq_some.mp hrun
    obtain ⟨hGa, hGas⟩ := (along_cons hu).mp hG
    exact ih (hstep s a u h0 hGa hu) hGas hrest

/-- An invariant of the admitted steps holds in the state of every step an admitted run takes. -/
theorem invariant_mem_trace {I : σ → Prop}
    (hstep : ∀ s a t, I s → G s a → M.step s a = some t → I t)
    {s : σ} {as : List α} (h0 : I s) (hG : M.Along G s as) {x : σ × α}
    (hx : x ∈ M.trace s as) : I x.1 := by
  obtain ⟨as₁, as₂, rfl, hrun⟩ := M.mem_trace hx
  exact invariant hstep h0 ((along_append hrun).mp hG).1 hrun

/-- A property that every step decides anew holds in all states of a run exactly if every step
decides for it. -/
theorem forall_state_iff {I : σ → Prop}
    (hstep : ∀ s a t, M.step s a = some t → (I t ↔ G s a))
    {s t : σ} {as : List α} (h0 : I s) (hrun : M.run s as = some t) :
    (I t ∧ ∀ x ∈ M.trace s as, I x.1) ↔ M.Along G s as := by
  constructor
  · intro h x hx
    obtain ⟨as₁, as₂, rfl, hx'⟩ := M.mem_trace hx
    obtain ⟨s', hs', hrest⟩ := M.run_append_eq_some.mp hrun
    obtain rfl := Option.some.inj (hx'.symm.trans hs')
    obtain ⟨u, hu, hrest⟩ := M.run_cons_eq_some.mp hrest
    refine (hstep _ _ _ hu).mp ?_
    -- the successor is the last state, or it takes a step of the run itself
    cases as₂ with
    | nil => exact Option.some.inj hrest ▸ h.1
    | cons a as₂ =>
      refine h.2 (u, a) ?_
      rw [M.trace_append hx', M.trace_cons hu]
      exact List.mem_append_right _ (List.mem_cons_of_mem _ List.mem_cons_self)
  · intro hG
    have hI : ∀ s a t, I s → G s a → M.step s a = some t → I t :=
      fun s a t _ ha h => (hstep s a t h).mpr ha
    exact ⟨invariant hI h0 hG hrun, fun _ hx => invariant_mem_trace hI h0 hG hx⟩

/-- The rule for a property of the state and of the steps taken before it. -/
theorem history_invariant {I : List (σ × α) → σ → Prop}
    (hstep : ∀ h s a t, I h s → G s a → M.step s a = some t → I (h ++ [(s, a)]) t)
    {s t : σ} {as : List α} (h0 : I [] s) (hG : M.Along G s as) (hrun : M.run s as = some t) :
    I (M.trace s as) t := by
  have general : ∀ (as : List α) (h : List (σ × α)) (s : σ), I h s → M.Along G s as →
      M.run s as = some t → I (h ++ M.trace s as) t := by
    intro as
    induction as with
    | nil =>
      intro h s hI _ hrun
      rw [run_nil, Option.some.injEq] at hrun
      rw [trace_nil, List.append_nil]
      exact hrun ▸ hI
    | cons a as ih =>
      intro h s hI hG hrun
      obtain ⟨u, hu, hrest⟩ := M.run_cons_eq_some.mp hrun
      obtain ⟨hGa, hGas⟩ := (along_cons hu).mp hG
      have := ih (h ++ [(s, a)]) u (hstep h s a u hI hGa hu) hGas hrest
      rwa [List.append_assoc, List.singleton_append, ← M.trace_cons hu] at this
  exact general as [] s h0 hG hrun

/-- The rule for a property of the state and of the labels performed before it. -/
theorem label_invariant {I : List α → σ → Prop}
    (hstep : ∀ as s a t, I as s → G s a → M.step s a = some t → I (as ++ [a]) t)
    {s t : σ} {as : List α} (h0 : I [] s) (hG : M.Along G s as) (hrun : M.run s as = some t) :
    I as t := by
  have h := history_invariant (I := fun tr s => I (tr.map Prod.snd) s) ?_ h0 hG hrun
  · rwa [M.trace_map_snd hrun] at h
  · intro tr s a t hs ha hstep'
    rw [List.map_append, List.map_singleton]
    exact hstep _ s a t hs ha hstep'

section Unconditional

variable {s t : σ} {as : List α}

theorem along_true : M.Along (fun _ _ => True) s as := fun _ _ => trivial

/-- The rule for a property that every step preserves. -/
theorem invariant_of_step {I : σ → Prop} (hstep : ∀ s a t, I s → M.step s a = some t → I t)
    (h0 : I s) (hrun : M.run s as = some t) : I t :=
  invariant (fun s a t hs _ => hstep s a t hs) h0 along_true hrun

theorem invariant_mem_trace_of_step {I : σ → Prop}
    (hstep : ∀ s a t, I s → M.step s a = some t → I t) (h0 : I s) {x : σ × α}
    (hx : x ∈ M.trace s as) : I x.1 :=
  invariant_mem_trace (fun s a t hs _ => hstep s a t hs) h0 along_true hx

theorem history_invariant_of_step {I : List (σ × α) → σ → Prop}
    (hstep : ∀ h s a t, I h s → M.step s a = some t → I (h ++ [(s, a)]) t) (h0 : I [] s)
    (hrun : M.run s as = some t) : I (M.trace s as) t :=
  history_invariant (fun h s a t hs _ => hstep h s a t hs) h0 along_true hrun

/-- The rule for a property of state and labels that every step preserves. -/
theorem label_invariant_of_step {I : List α → σ → Prop}
    (hstep : ∀ as s a t, I as s → M.step s a = some t → I (as ++ [a]) t) (h0 : I [] s)
    (hrun : M.run s as = some t) : I as t :=
  label_invariant (fun as s a t hs _ => hstep as s a t hs) h0 along_true hrun

end Unconditional

/-- The rule for a machine that refuses nothing, and for a property of the state and of the labels
performed before it. -/
theorem exists_run {I : List α → σ → Prop}
    (hstep : ∀ as s a, I as s → ∃ t, M.step s a = some t ∧ I (as ++ [a]) t) {s : σ} (h0 : I [] s)
    (as : List α) : ∃ t, M.run s as = some t ∧ I as t := by
  induction as using List.reverseRecOn with
  | nil => exact ⟨s, rfl, h0⟩
  | append_singleton as a ih =>
    obtain ⟨t, hrun, ht⟩ := ih
    obtain ⟨u, hu, hI⟩ := hstep as t a ht
    exact ⟨u, M.run_append_eq_some.mpr ⟨t, hrun, (M.run_singleton t a).trans hu⟩, hI⟩

/-- If not every step of a kind is refused, one is possible. -/
theorem exists_step_of_not_stuck {Q : α → Prop} {s : σ}
    (h : ¬ ∀ a, Q a → M.step s a = none) : ∃ a t, Q a ∧ M.step s a = some t := by
  obtain ⟨a, ha⟩ := not_forall.mp h
  obtain ⟨hQ, hstep⟩ := Classical.not_imp.mp ha
  obtain ⟨t, ht⟩ := Option.ne_none_iff_exists'.mp hstep
  exact ⟨a, t, hQ, ht⟩

/-- A machine whose steps are those of a second one, seen through `f` and `g`. -/
theorem run_map {τ β : Type*} {N : Machine τ β} {f : σ → τ} {g : α → β}
    (hstep : ∀ s a, (M.step s a).map f = N.step (f s) (g a)) (s : σ) (as : List α) :
    (M.run s as).map f = N.run (f s) (as.map g) := by
  induction as generalizing s with
  | nil => rfl
  | cons a as ih =>
    rw [run_cons, List.map_cons, run_cons, ← hstep s a, Option.map_bind, Option.bind_map]
    exact congrArg _ (funext ih)

/-- A machine whose steps are runs of a second one: related states stay related over a run. -/
theorem simulation {τ β : Type*} {N : Machine τ β} {R : σ → τ → Prop} {f : σ → α → List β}
    (hstep : ∀ s a t u, R s u → M.step s a = some t → ∃ v, N.run u (f s a) = some v ∧ R t v)
    {s t : σ} {u : τ} {as : List α} (h0 : R s u) (hrun : M.run s as = some t) :
    ∃ v, N.run u ((M.trace s as).flatMap fun x => f x.1 x.2) = some v ∧ R t v := by
  induction as generalizing s u with
  | nil =>
    rw [run_nil, Option.some.injEq] at hrun
    exact ⟨u, rfl, hrun ▸ h0⟩
  | cons a as ih =>
    obtain ⟨s', hs', hrest⟩ := M.run_cons_eq_some.mp hrun
    obtain ⟨u', hu', hR⟩ := hstep s a s' u h0 hs'
    obtain ⟨v, hv, hend⟩ := ih hR hrest
    rw [M.trace_cons hs', List.flatMap_cons]
    exact ⟨v, N.run_append_eq_some.mpr ⟨u', hu', hv⟩, hend⟩

end Machine

end Common

import LinuxRiscv32.Common.Measure
import LinuxRiscv32.Kernel.Process

/-!
# The children of a process

* `Layout.Fresh`: the name of a child that can still be forked is free.
* `Waits` is a bound on the children at every place of the text; by `Waits.Holds.gone` whoever has
  ended leaves no child behind.
* `Weights` is a measure that every call lowers (`Weights.total_act`).
* `Kept` is what every run keeps, and `Kept.exists_child` says when a process of the text is stuck.
-/

namespace LinuxRiscv32.Kernel.Process

open Common

/-! ## Children that can still be forked -/

section Fresh

variable {π φ χ κ : Type*} [DecidableEq φ] {P : Family π φ κ}

namespace Status

/-- The process has not come past the place `k`. -/
def Before (k : ℕ) : Status φ χ κ → Prop
  | .unborn => True
  | .text j _ => j ≤ k
  | .program _ _ | .zombie | .reaped => False

end Status

namespace Layout

variable (L : Layout P χ)

/-- In front of a `fork` the name of its child is free. -/
def Fresh (s : π → Status φ χ κ) : Prop :=
  ∀ p k skip, L.valid p k → P.text[k]? = some (.fork skip) → (s p).Before k →
    s (P.child p k) = .unborn

variable {L} {s t : π → Status φ χ κ} {p : π}

/-- What a call leaves unborn, and where it leads, if it is no `fork` with a child. -/
theorem Fresh.of_le (hs : L.Fresh s) (hunborn : ∀ c, s c = .unborn → t c = .unborn)
    (hbefore : ∀ q k, (t q).Before k → (s q).Before k) : L.Fresh t :=
  fun q k skip hv hi hq => hunborn _ (hs q k skip hv hi (hbefore q k hq))

variable [DecidableEq π]

/-- A process that is born and does not go back keeps the names free. -/
theorem Fresh.update (hs : L.Fresh s) (x : Status φ χ κ) (hp : s p ≠ .unborn)
    (hx : ∀ k, x.Before k → (s p).Before k) : L.Fresh (Function.update s p x) := by
  refine hs.of_le (fun c hc => ?_) fun q k hq => ?_
  · rwa [Function.update_of_ne]
    rintro rfl
    exact hp hc
  · by_cases he : q = p
    · subst he
      rw [Function.update_self] at hq
      exact hx k hq
    · rwa [Function.update_of_ne he] at hq

/-- A `fork` takes one name, which no other place can fork. -/
theorem Fresh.fork {k skip : ℕ} {fds : φ → Option χ} (hs : L.Fresh s)
    (hfits : L.Holds s) (hp : s p = .text k fds) (hi : P.text[k]? = some (.fork skip))
    (hc : s (P.child p k) = .unborn) :
    L.Fresh (Function.update (Function.update s (P.child p k) (.text (k + 1) fds)) p
      (.text skip fds)) := by
  have hv : L.valid p k := by
    have := hfits p
    rw [hp] at this
    exact this.1
  intro q l skip' hq hl hbefore
  -- whoever can still fork a child could do so before, and its name is not the one that is taken
  have hold : (s q).Before l ∧ (q = p → k < l) := by
    by_cases hqp : q = p
    · subst hqp
      rw [Function.update_self] at hbefore
      have hlt := lt_of_lt_of_le ((L.fork_of_valid hv hi).2) hbefore
      rw [hp]
      exact ⟨hlt.le, fun _ => hlt⟩
    · rw [Function.update_of_ne hqp] at hbefore
      by_cases hqc : q = P.child p k
      · rw [hqc, hc]
        exact ⟨trivial, fun h => absurd h (hqc ▸ hqp)⟩
      · rw [Function.update_of_ne hqc] at hbefore
        exact ⟨hbefore, fun h => absurd h hqp⟩
  have hfree := hs q l skip' hq hl hold.1
  -- a name belongs to one parent, and to one place of it
  have hne : P.child q l ≠ P.child p k := by
    intro he
    have hparent := (L.fork_of_valid hq hl).1
    rw [he, (L.fork_of_valid hv hi).1, Option.some.injEq] at hparent
    subst hparent
    exact absurd (L.child_inj hv hi hq hl he.symm) (hold.2 rfl).ne
  have hnp : P.child q l ≠ p := by
    intro he
    rw [he, hp] at hfree
    cases hfree
  rwa [Function.update_of_ne hnp, Function.update_of_ne hne]

/-- Each call keeps the names of future children free. -/
theorem fresh_act [Fintype π] {ok : Bool} {reap : Option π} (hfits : L.Holds s)
    (hs : L.Fresh s) (h : act P s p ok reap = some t) : L.Fresh t := by
  -- a process that goes on in the text has been before every place that it is before
  have step : ∀ {k l : ℕ} {fds fds' : φ → Option χ}, s p = .text k fds → k ≤ l →
      L.Fresh (Function.update s p (.text l fds')) := by
    intro k l fds fds' hp hkl
    refine hs.update _ (by rw [hp]; nofun) fun j hj => ?_
    rw [hp]
    exact hkl.trans hj
  have leave : ∀ {k : ℕ} {fds : φ → Option χ} {x : Status φ χ κ}, s p = .text k fds →
      (∀ k, ¬ x.Before k) → L.Fresh (Function.update s p x) := fun hp hx =>
    hs.update _ (by rw [hp]; nofun) fun j hj => absurd hj (hx j)
  cases performs_of_act h with
  | fork hp hi hc => exact hs.fork hfits hp hi hc
  | forkFails hp hi =>
    have := hfits p
    rw [hp] at this
    exact step hp (L.fork_of_valid this.1 hi).2.le
  | dup2 hp hi => exact step hp (Nat.le_succ _)
  | close hp hi => exact step hp (Nat.le_succ _)
  | execl hp hi => exact leave hp fun _ h => h
  | execlFails hp hi => exact step hp (Nat.le_succ _)
  | @reaps _ k fds c hp hi hc hz =>
    have hne : p ≠ c := by
      rintro rfl
      rw [hp] at hz
      cases hz
    refine Fresh.update (hs.update .reaped (by rw [hz]; nofun) fun _ h => absurd h id) _ ?_ ?_
    · rw [Function.update_of_ne hne, hp]
      nofun
    · intro j hj
      rw [Function.update_of_ne hne, hp]
      exact (Nat.le_succ k).trans hj
  | noChild hp hi _ => exact step hp (Nat.le_succ _)
  | exit hp hi => exact leave hp fun _ h => h

end Layout

end Fresh

/-! ## Children that are waited for -/

section Waits

variable {π φ χ κ : Type*}

/-- What the calls ask of the number of children that a process at a place may have. -/
def Awaits (budget : ℕ → ℕ) (k : ℕ) : Instr φ κ → Prop
  | .fork skip => budget k + 1 ≤ budget skip
  | .dup2 _ _ | .close _ => budget k ≤ budget (k + 1)
  | .execl _ | .exit => budget k = 0
  | .wait => budget k ≤ budget (k + 1) + 1

instance (budget : ℕ → ℕ) (k : ℕ) : ∀ i : Instr φ κ, Decidable (Awaits budget k i)
  | .fork _ | .dup2 _ _ | .close _ | .wait => inferInstanceAs (Decidable (_ ≤ _))
  | .execl _ | .exit => inferInstanceAs (Decidable (_ = _))

/-- A bound on the children at every place, such that nobody ends in front of its children. -/
structure Waits (P : Family π φ κ) where
  budget : ℕ → ℕ
  awaits : ∀ k i, P.text[k]? = some i → Awaits budget k i

/-- A child counts from its `fork` until it is reaped. -/
def childOf [DecidableEq π] (P : Family π φ κ) (p c : π) (x : Status φ χ κ) : ℕ :=
  if P.parent c = some p ∧ !x.isGone then 1 else 0

namespace Waits

variable [Fintype π] [DecidableEq π] {P : Family π φ κ}

def children (P : Family π φ κ) (s : π → Status φ χ κ) (p : π) : ℕ := ∑ c, childOf P p c (s c)

variable (W : Waits P)

def allowed : Status φ χ κ → ℕ
  | .text k _ => W.budget k
  | .unborn | .program _ _ | .zombie | .reaped => 0

def Holds (s : π → Status φ χ κ) : Prop := ∀ p, children P s p ≤ W.allowed (s p)

variable {W} {s t : π → Status φ χ κ} {p : π}

/-- How the children of a process change with one status. -/
theorem children_update (s : π → Status φ χ κ) (r c : π) (x : Status φ χ κ) :
    children P (Function.update s c x) r + childOf P r c (s c) =
      children P s r + childOf P r c x :=
  sum_update (childOf P r) s c x

/-- A call counts if it is not the last one. -/
theorem children_move {x : Status φ χ κ} (hx : x.isGone = (s p).isGone) (r : π) :
    children P (Function.update s p x) r = children P s r := by
  have := children_update (P := P) s r p x
  rw [childOf, childOf, hx] at this
  omega

/-- The process `p` goes on without a new child, and can have as many children as before. -/
theorem Holds.move (hs : W.Holds s) {x : Status φ χ κ} (hx : x.isGone = (s p).isGone)
    (hle : children P s p ≤ W.allowed x) : W.Holds (Function.update s p x) := by
  intro r
  rw [children_move hx]
  by_cases hr : r = p
  · subst hr
    rwa [Function.update_self]
  · rw [Function.update_of_ne hr]
    exact hs r

omit [Fintype π] in
theorem childOf_of_gone {r c : π} {x : Status φ χ κ} (h : x.isGone) : childOf P r c x = 0 := by
  rw [childOf, h]
  simp

/-- Somebody without children, and only somebody like that, has none that counts. -/
theorem children_eq_zero (h : ∀ c, P.parent c = some p → (s c).isGone) : children P s p = 0 := by
  refine Finset.sum_eq_zero fun c _ => ?_
  rw [childOf, if_neg]
  rintro ⟨hc, hgone⟩
  rw [h c hc] at hgone
  cases hgone

/-- Without children that count, all are gone. -/
theorem gone_of_children_eq_zero (h : children P s p = 0) {c : π} (hc : P.parent c = some p) :
    (s c).isGone := by
  have hzero := Finset.sum_eq_zero_iff.mp h c (Finset.mem_univ c)
  rw [childOf, ite_eq_right_iff] at hzero
  by_contra hgone
  exact absurd (hzero ⟨hc, by simpa using hgone⟩) one_ne_zero

/-- A `fork` adds a child that the next place allows. -/
theorem Holds.fork (hs : W.Holds s) {k skip : ℕ} {c : π} {fds : φ → Option χ}
    (hp : s p = .text k fds) (hc : s c = .unborn) (hparent : P.parent c = some p)
    (hbudget : W.budget k + 1 ≤ W.budget skip) :
    W.Holds (Function.update (Function.update s c (.text (k + 1) fds)) p (.text skip fds)) := by
  have hne : p ≠ c := by
    rintro rfl
    rw [hp] at hc
    cases hc
  intro r
  rw [children_move (by rw [Function.update_of_ne hne, hp]; rfl)]
  have hcount := children_update (P := P) s r c (.text (k + 1) fds)
  rw [hc, childOf_of_gone rfl] at hcount
  -- the parent may have one child more from now on, and nobody else gets one
  by_cases hr : r = p
  · subst hr
    have hold := hs r
    have hone : childOf P r c (Status.text (k + 1) fds : Status φ χ κ) ≤ 1 := by
      rw [childOf]
      split <;> omega
    rw [hp] at hold
    rw [Function.update_self]
    simp only [allowed] at hold ⊢
    omega
  · have hzero : childOf P r c (Status.text (k + 1) fds : Status φ χ κ) = 0 := by
      rw [childOf, if_neg]
      rintro ⟨h, -⟩
      exact hr (Option.some.inj (h.symm.trans hparent))
    have hold := hs r
    rw [Function.update_of_ne hr]
    by_cases hrc : r = c
    · subst hrc
      rw [hc] at hold
      simp only [allowed] at hold
      omega
    · rw [Function.update_of_ne hrc]
      omega

/-- A child that is reaped does not count any more. -/
theorem Holds.reap (hs : W.Holds s) {c : π} (hz : s c = .zombie) :
    W.Holds (Function.update s c .reaped) := by
  intro r
  have hcount := children_update (P := P) s r c .reaped
  rw [hz, childOf_of_gone (x := .reaped) rfl] at hcount
  have hold := hs r
  by_cases hrc : r = c
  · subst hrc
    rw [hz] at hold
    rw [Function.update_self]
    simp only [allowed] at hold ⊢
    omega
  · rw [Function.update_of_ne hrc]
    omega

/-- A `wait` takes a child off, and the next place may allow one fewer. -/
theorem Holds.reaps (hs : W.Holds s) {k : ℕ} {c : π} {fds : φ → Option χ}
    (hp : s p = .text k fds) (hparent : P.parent c = some p) (hz : s c = .zombie)
    (hbudget : W.budget k ≤ W.budget (k + 1) + 1) :
    W.Holds (Function.update (Function.update s c .reaped) p (.text (k + 1) fds)) := by
  have hne : p ≠ c := by
    rintro rfl
    rw [hp] at hz
    cases hz
  refine (hs.reap hz).move (by rw [Function.update_of_ne hne, hp]; rfl) ?_
  have hcount := children_update (P := P) s p c .reaped
  have hone : childOf P p c (Status.zombie : Status φ χ κ) = 1 := by
    rw [childOf, if_pos ⟨hparent, rfl⟩]
  rw [hz, childOf_of_gone (x := .reaped) rfl, hone] at hcount
  have hold := hs p
  rw [hp] at hold
  simp only [allowed] at hold ⊢
  omega

/-- Whoever has ended or executes a program has no child left. -/
theorem Holds.gone (hs : W.Holds s) (hp : ∀ k fds, s p ≠ .text k fds) {c : π}
    (hc : P.parent c = some p) : (s c).isGone := by
  refine gone_of_children_eq_zero (Nat.le_zero.mp ((hs p).trans ?_)) hc
  cases hx : s p with
  | text k fds => exact absurd hx (hp k fds)
  | unborn | program _ _ | zombie | reaped => exact le_rfl

/-- Each call keeps the children within the bound. -/
theorem waits_act [DecidableEq φ] {ok : Bool} {reap : Option π}
    (hparent : ∀ k skip fds, s p = .text k fds → P.text[k]? = some (.fork skip) →
      P.parent (P.child p k) = some p)
    (hs : W.Holds s) (h : act P s p ok reap = some t) : W.Holds t := by
  -- a process that goes on in the text, with the bound of the next place
  have step : ∀ {k l : ℕ} {fds fds' : φ → Option χ}, s p = .text k fds →
      W.budget k ≤ W.budget l → W.Holds (Function.update s p (.text l fds')) := by
    intro k l fds fds' hp hkl
    refine hs.move (by rw [hp]; rfl) ((hs p).trans ?_)
    rwa [hp]
  -- a process that leaves the text where it has no child
  have leave : ∀ {k : ℕ} {fds : φ → Option χ} {x : Status φ χ κ}, s p = .text k fds →
      W.budget k = 0 → x.isGone = false → W.Holds (Function.update s p x) := by
    intro k fds x hp hk hx
    refine hs.move (by rw [hp]; exact hx) ((hs p).trans ?_)
    rw [hp]
    exact hk.le.trans (Nat.zero_le _)
  cases performs_of_act h with
  | @fork k skip fds hp hi hc => exact hs.fork hp hc (hparent k skip fds hp hi) (W.awaits _ _ hi)
  | forkFails hp hi => exact step hp ((Nat.le_succ _).trans (W.awaits _ _ hi))
  | dup2 hp hi => exact step hp (W.awaits _ _ hi)
  | close hp hi => exact step hp (W.awaits _ _ hi)
  | execl hp hi => exact leave hp (W.awaits _ _ hi) rfl
  | execlFails hp hi => exact step hp ((W.awaits _ _ hi).le.trans (Nat.zero_le _))
  | @reaps _ k fds c hp hi hc hz => exact hs.reaps hp hc hz (W.awaits _ _ hi)
  | noChild hp hi hc =>
    refine hs.move (by rw [hp]; rfl) ?_
    rw [children_eq_zero hc]
    exact Nat.zero_le _
  | exit hp hi => exact leave hp (W.awaits _ _ hi) rfl

end Waits

end Waits

/-! ## The calls that are left -/

section Weights

variable {π φ χ κ : Type*}

/-- What the weights of places and programs have to be for an instruction at the place `k`. -/
def Drops (text : ℕ → ℕ) (program : κ → ℕ) (k : ℕ) : Instr φ κ → Prop
  | .fork skip => text (k + 1) + text skip < text k
  | .dup2 _ _ | .close _ | .wait => text (k + 1) < text k
  | .execl q => text (k + 1) < text k ∧ program q < text k
  | .exit => 0 < text k

instance (text : ℕ → ℕ) (program : κ → ℕ) (k : ℕ) :
    ∀ i : Instr φ κ, Decidable (Drops text program k i)
  | .fork _ | .dup2 _ _ | .close _ | .wait => inferInstanceAs (Decidable (_ < _))
  | .execl _ => inferInstanceAs (Decidable (_ ∧ _))
  | .exit => inferInstanceAs (Decidable (_ < _))

/-- A weight for every place and for every program. It goes down from call to call; a child starts
with a share of the weight of its parent. -/
structure Weights (P : Family π φ κ) where
  text : ℕ → ℕ
  program : κ → ℕ
  drops : ∀ k i, P.text[k]? = some i → Drops text program k i

namespace Weights

variable {P : Family π φ κ} (W : Weights P)

def weight : Status φ χ κ → ℕ
  | .text k _ => W.text k
  | .program q _ => W.program q
  | .unborn | .zombie | .reaped => 0

variable [Fintype π]

def total (s : π → Status φ χ κ) : ℕ := ∑ p, W.weight (s p)

variable {W} [DecidableEq π] {s t : π → Status φ χ κ} {p : π}

/-- How the total weight changes with one status. -/
theorem total_update (s : π → Status φ χ κ) (p : π) (x : Status φ χ κ) :
    W.total (Function.update s p x) + W.weight (s p) = W.total s + W.weight x :=
  sum_update (fun _ => W.weight) s p x

theorem total_update_lt {s : π → Status φ χ κ} {p : π} {x : Status φ χ κ}
    (h : W.weight x < W.weight (s p)) : W.total (Function.update s p x) < W.total s := by
  have := total_update (W := W) s p x
  omega

/-- Every call lowers the weight of all processes together. -/
theorem total_act [DecidableEq φ] {ok : Bool} {reap : Option π} (h : act P s p ok reap = some t) :
    W.total t < W.total s := by
  cases performs_of_act h with
  | @fork k skip fds hp hi hc =>
    have hne : p ≠ P.child p k := by
      rintro he
      rw [← he, hp] at hc
      cases hc
    have hchild := total_update (W := W) s (P.child p k) (.text (k + 1) fds)
    have hparent := total_update (W := W) (Function.update s (P.child p k) (.text (k + 1) fds)) p
      (.text skip fds)
    rw [Function.update_of_ne hne, hp] at hparent
    rw [hc] at hchild
    have hdrops : W.text (k + 1) + W.text skip < W.text k := W.drops k _ hi
    simp only [weight] at hchild hparent
    omega
  | @forkFails k skip fds hp hi =>
    have hdrops : W.text (k + 1) + W.text skip < W.text k := W.drops k _ hi
    apply total_update_lt
    rw [hp]
    exact lt_of_le_of_lt (Nat.le_add_left _ _) hdrops
  | dup2 hp hi =>
    apply total_update_lt
    rw [hp]
    exact W.drops _ _ hi
  | close hp hi =>
    apply total_update_lt
    rw [hp]
    exact W.drops _ _ hi
  | execl hp hi =>
    apply total_update_lt
    rw [hp]
    exact (W.drops _ _ hi).2
  | execlFails hp hi =>
    apply total_update_lt
    rw [hp]
    exact (W.drops _ _ hi).1
  | @reaps _ k fds c hp hi hc hz =>
    have hne : p ≠ c := by
      rintro rfl
      rw [hp] at hz
      cases hz
    -- a process that has ended has no weight, reaped or not
    refine lt_of_lt_of_le (total_update_lt ?_) (?_ : W.total (Function.update s c .reaped) ≤ _)
    · rw [Function.update_of_ne hne, hp]
      exact W.drops _ _ hi
    · have := total_update (W := W) s c .reaped
      rw [hz] at this
      exact this.le
  | noChild hp hi _ =>
    apply total_update_lt
    rw [hp]
    exact W.drops _ _ hi
  | exit hp hi =>
    apply total_update_lt
    rw [hp]
    exact W.drops _ _ hi

end Weights

end Weights

/-! ## What every run keeps -/

section Kept

variable {π φ χ κ : Type*} [DecidableEq π] [Fintype π] [DecidableEq φ] {P : Family π φ κ}

structure Kept (L : Layout P χ) (W : Waits P) (s : π → Status φ χ κ) : Prop where
  fits : L.Holds s
  fresh : L.Fresh s
  waits : W.Holds s

namespace Kept

variable {L : Layout P χ} {W : Waits P} {s t : π → Status φ χ κ} {p : π} {k : ℕ}
  {fds : φ → Option χ}

/-- A process in the text is at a place of the layout. -/
theorem valid (hs : Kept L W s) (hp : s p = .text k fds) : L.valid p k ∧ fds = L.tab p k := by
  have := hs.fits p
  rwa [hp] at this

/-- Each call keeps the layout, the free names and the bound. -/
theorem act {ok : Bool} {reap : Option π} (hs : Kept L W s) (h : act P s p ok reap = some t) :
    Kept L W t :=
  ⟨L.layout_act hs.fits h, L.fresh_act hs.fits hs.fresh h,
    W.waits_act (fun _ _ _ hp hi => (L.fork_of_valid (hs.valid hp).1 hi).1) hs.waits h⟩

/-- A program ends. -/
theorem finish (hs : Kept L W s) {q : κ} (hp : s p = .program q fds) :
    Kept L W (Function.update s p .zombie) where
  fits := hs.fits.update .zombie trivial
  fresh := hs.fresh.update .zombie (by rw [hp]; nofun) fun _ h => absurd h id
  waits := by
    refine hs.waits.move (by rw [hp]; rfl) ((hs.waits p).trans ?_)
    rw [hp]
    exact le_rfl

/-- A child that has ended is reaped without a call, by a handler of signals. -/
theorem reap (hs : Kept L W s) (hp : s p = .zombie) : Kept L W (Function.update s p .reaped) where
  fits := hs.fits.update .reaped trivial
  fresh := hs.fresh.update .reaped (by rw [hp]; nofun) fun _ h => absurd h id
  waits := hs.waits.reap hp

/-- Somebody without a parent stays. -/
theorem alive_act {ok : Bool} {reap : Option π} {r : π} (hr : P.parent r = none)
    (hs : (s r).isGone = false) (h : Process.act P s p ok reap = some t) :
    (t r).isGone = false := by
  by_cases hrp : r = p
  · subst hrp
    obtain ⟨_, _, -, ⟨_, _, ht⟩ | ⟨_, ht⟩ | ht⟩ := act_self h <;> rw [ht] <;> rfl
  · obtain ht | ⟨_, _, hunborn, -⟩ | ⟨-, -, hparent⟩ := act_other hrp h
    · rwa [ht]
    · rw [hunborn] at hs
      cases hs
    · rw [hr] at hparent
      cases hparent

/-- A process in the text can make its next call, unless it has to wait; `fork` and `execl` can
succeed. -/
theorem exists_act (hs : Kept L W s) (hp : s p = .text k fds) {i : Instr φ κ}
    (hi : P.text[k]? = some i) (hwait : i ≠ .wait) : ∃ t, Process.act P s p true none = some t := by
  cases i with
  | fork skip =>
    have hfree : s (P.child p k) = .unborn :=
      hs.fresh p k skip (hs.valid hp).1 hi (by rw [hp]; exact le_rfl)
    simp [Process.act, hp, hi, hfree, Status.isUnborn]
  | wait => exact absurd rfl hwait
  | dup2 old new | close fd | execl q | exit => simp [Process.act, hp, hi]

/-- A `wait` with a child that has ended can be made. -/
theorem exists_act_reap {c : π} (hp : s p = .text k fds)
    (hi : P.text[k]? = some .wait) (hc : P.parent c = some p) (hz : s c = .zombie) :
    ∃ t, Process.act P s p true (some c) = some t := by
  simp [Process.act, hp, hi, hc, hz, Status.isZombie]

/-- A `wait` without children left can be made. -/
theorem exists_act_noChild (hp : s p = .text k fds) (hi : P.text[k]? = some .wait)
    (hc : ∀ c, P.parent c = some p → (s c).isGone) :
    ∃ t, Process.act P s p true none = some t := by
  simp only [Process.act, hp, hi, if_pos hc]
  exact ⟨_, rfl⟩

/-- Nobody is stuck in the text unless a child is still there that has not ended. -/
theorem exists_child (hs : Kept L W s) (hp : s p = .text k fds) {i : Instr φ κ}
    (hi : P.text[k]? = some i)
    (hstuck : ∀ reap, Process.act P s p true reap = none) :
    i = .wait ∧ ∃ c, P.parent c = some p ∧ (s c).isGone = false ∧ s c ≠ .zombie := by
  have hwait : i = .wait := by
    by_contra hne
    obtain ⟨t, ht⟩ := hs.exists_act hp hi hne
    rw [hstuck] at ht
    cases ht
  subst hwait
  refine ⟨rfl, ?_⟩
  by_contra hnone
  by_cases hz : ∃ c, P.parent c = some p ∧ s c = .zombie
  · obtain ⟨c, hc, hz⟩ := hz
    obtain ⟨t, ht⟩ := exists_act_reap hp hi hc hz
    rw [hstuck] at ht
    cases ht
  · obtain ⟨t, ht⟩ := exists_act_noChild hp hi fun c hc => by
      by_contra hgone
      exact hnone ⟨c, hc, by simpa using hgone, fun h => hz ⟨c, hc, h⟩⟩
    rw [hstuck] at ht
    cases ht

end Kept

end Kept

end LinuxRiscv32.Kernel.Process

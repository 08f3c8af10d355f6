import LinuxRiscv32.Common.Machine
import Mathlib.Data.Fintype.Basic

/-!
# Processes that share a text

A process that forks goes on in the text it was started with, and so does its child, with a copy of
the table of descriptors. It leaves the text when it executes another program. What the programs do
is left open here.

* `act` is one call of one process, and `Performs` the same by results.
* `Layout` is a table of descriptors for every place of the text that a process can be at, and
  `Layout.layout_act` says that no process has another one.
-/

namespace LinuxRiscv32.Kernel.Process

open Common

/-- A call of the text. `φ` are the descriptors that it names and `κ` the programs. -/
inductive Instr (φ κ : Type*) where
  /-- `if (fork() == 0) { .. }`, where the block ends in front of the place `skip`. -/
  | fork (skip : ℕ)
  | dup2 (old new : φ)
  | close (fd : φ)
  | execl (q : κ)
  | wait
  | exit
deriving DecidableEq, Repr

/-- Where a process is. The `χ` are the files that descriptors stand for. -/
inductive Status (φ χ κ : Type*) where
  | unborn
  | text (k : ℕ) (fds : φ → Option χ)
  | program (q : κ) (fds : φ → Option χ)
  | zombie
  | reaped

namespace Status

variable {φ χ κ : Type*}

def isUnborn : Status φ χ κ → Bool
  | .unborn => true
  | .text _ _ | .program _ _ | .zombie | .reaped => false

def isZombie : Status φ χ κ → Bool
  | .zombie => true
  | .unborn | .text _ _ | .program _ _ | .reaped => false

/-- Not there: not forked, or reaped. -/
def isGone : Status φ χ κ → Bool
  | .unborn | .reaped => true
  | .text _ _ | .program _ _ | .zombie => false

theorem isUnborn_iff {x : Status φ χ κ} : x.isUnborn ↔ x = .unborn := by
  cases x <;> simp [isUnborn]

theorem isZombie_iff {x : Status φ χ κ} : x.isZombie ↔ x = .zombie := by
  cases x <;> simp [isZombie]

/-- Ended, reaped or not. -/
def Dead (x : Status φ χ κ) : Prop := x = .zombie ∨ x = .reaped

theorem not_dead_of_text {x : Status φ χ κ} {k : ℕ} {fds : φ → Option χ} (hx : x = .text k fds) :
    ¬ x.Dead := by
  rintro (h | h) <;> rw [hx] at h <;> cases h

theorem not_dead_of_program {x : Status φ χ κ} {q : κ} {fds : φ → Option χ}
    (hx : x = .program q fds) : ¬ x.Dead := by
  rintro (h | h) <;> rw [hx] at h <;> cases h

/-- The descriptors of a process that is running. -/
def fds : Status φ χ κ → φ → Option χ
  | .text _ fds | .program _ fds => fds
  | .unborn | .zombie | .reaped => fun _ => none

/-- Who has a descriptor open is running. -/
theorem running_of_fds {x : Status φ χ κ} {fd : φ} {f : χ} (h : x.fds fd = some f) :
    (∃ k fds, x = .text k fds ∧ fds fd = some f) ∨
      ∃ q fds, x = .program q fds ∧ fds fd = some f := by
  cases x with
  | text k fds => exact .inl ⟨k, fds, rfl, h⟩
  | program q fds => exact .inr ⟨q, fds, rfl, h⟩
  | unborn | zombie | reaped => cases h

theorem running_of_not_gone {x : Status φ χ κ} (hgone : x.isGone = false) (hzombie : x ≠ .zombie) :
    (∃ k fds, x = .text k fds) ∨ ∃ q fds, x = .program q fds := by
  cases x with
  | text k fds => exact .inl ⟨k, fds, rfl⟩
  | program q fds => exact .inr ⟨q, fds, rfl⟩
  | zombie => exact absurd rfl hzombie
  | unborn | reaped => cases hgone

end Status

/-- A text, and the names `π` of the processes: of the child that is forked at a place, and of the
parent. -/
structure Family (π φ κ : Type*) where
  text : List (Instr φ κ)
  child : π → ℕ → π
  parent : π → Option π

/-- There is a `fork` at the place `k`. -/
def Family.forks {π φ κ : Type*} (P : Family π φ κ) (k : ℕ) : Bool :=
  match P.text[k]? with
  | some (.fork _) => true
  | _ => false

/-- Somebody has the file open. -/
def IsOpen {π φ χ κ : Type*} (s : π → Status φ χ κ) (f : χ) : Prop := ∃ p fd, (s p).fds fd = some f

instance {π φ χ κ : Type*} [Fintype π] [Fintype φ] [DecidableEq χ] (s : π → Status φ χ κ) (f : χ) :
    Decidable (IsOpen s f) :=
  inferInstanceAs (Decidable (∃ p fd, (s p).fds fd = some f))

/-- The table behind `dup2(old, new)`, which fails if `old` is not open. -/
def dup2 {φ χ : Type*} [DecidableEq φ] (fds : φ → Option χ) (old new : φ) : φ → Option χ :=
  if (fds old).isSome then Function.update fds new (fds old) else fds

/-- The table behind `close(fd)`. -/
def close {φ χ : Type*} [DecidableEq φ] (fds : φ → Option χ) (fd : φ) : φ → Option χ :=
  Function.update fds fd none

section Program

variable {π φ χ κ : Type*} [DecidableEq π] [Fintype π] [DecidableEq φ] (P : Family π φ κ)

/-- The process `p` makes its next call. A `fork` or an `execl` succeeds if `ok`, and `wait` reaps
the child `reap`, or fails if there is no child. -/
def act (s : π → Status φ χ κ) (p : π) (ok : Bool) (reap : Option π) :
    Option (π → Status φ χ κ) :=
  match s p with
  | .text k fds =>
    match P.text[k]? with
    | some (.fork skip) =>
      if ok then
        if (s (P.child p k)).isUnborn then
          some (Function.update (Function.update s (P.child p k) (.text (k + 1) fds)) p
            (.text skip fds))
        else none
      else some (Function.update s p (.text skip fds))
    | some (.dup2 old new) => some (Function.update s p (.text (k + 1) (dup2 fds old new)))
    | some (.close fd) => some (Function.update s p (.text (k + 1) (close fds fd)))
    | some (.execl q) =>
      some (Function.update s p (if ok then .program q fds else .text (k + 1) fds))
    | some .wait =>
      match reap with
      | some c =>
        if P.parent c = some p ∧ (s c).isZombie then
          some (Function.update (Function.update s c .reaped) p (.text (k + 1) fds))
        else none
      | none =>
        if ∀ c, P.parent c = some p → (s c).isGone then
          some (Function.update s p (.text (k + 1) fds))
        else none
    | some .exit => some (Function.update s p .zombie)
    | none => none
  | .unborn | .program _ _ | .zombie | .reaped => none

/-- The calls by their results. -/
inductive Performs (s : π → Status φ χ κ) (p : π) : Bool → (π → Status φ χ κ) → Prop
  | fork {k skip : ℕ} {fds : φ → Option χ} (hp : s p = .text k fds)
      (hi : P.text[k]? = some (.fork skip)) (hc : s (P.child p k) = .unborn) :
      Performs s p true (Function.update (Function.update s (P.child p k) (.text (k + 1) fds)) p
        (.text skip fds))
  | forkFails {k skip : ℕ} {fds : φ → Option χ} (hp : s p = .text k fds)
      (hi : P.text[k]? = some (.fork skip)) :
      Performs s p false (Function.update s p (.text skip fds))
  | dup2 {ok : Bool} {k : ℕ} {fds : φ → Option χ} {old new : φ} (hp : s p = .text k fds)
      (hi : P.text[k]? = some (.dup2 old new)) :
      Performs s p ok (Function.update s p (.text (k + 1) (Process.dup2 fds old new)))
  | close {ok : Bool} {k : ℕ} {fds : φ → Option χ} {fd : φ} (hp : s p = .text k fds)
      (hi : P.text[k]? = some (.close fd)) :
      Performs s p ok (Function.update s p (.text (k + 1) (Process.close fds fd)))
  | execl {k : ℕ} {fds : φ → Option χ} {q : κ} (hp : s p = .text k fds)
      (hi : P.text[k]? = some (.execl q)) :
      Performs s p true (Function.update s p (.program q fds))
  | execlFails {k : ℕ} {fds : φ → Option χ} {q : κ} (hp : s p = .text k fds)
      (hi : P.text[k]? = some (.execl q)) :
      Performs s p false (Function.update s p (.text (k + 1) fds))
  | reaps {ok : Bool} {k : ℕ} {fds : φ → Option χ} {c : π} (hp : s p = .text k fds)
      (hi : P.text[k]? = some .wait) (hc : P.parent c = some p) (hz : s c = .zombie) :
      Performs s p ok (Function.update (Function.update s c .reaped) p (.text (k + 1) fds))
  | noChild {ok : Bool} {k : ℕ} {fds : φ → Option χ} (hp : s p = .text k fds)
      (hi : P.text[k]? = some .wait) (hc : ∀ c, P.parent c = some p → (s c).isGone) :
      Performs s p ok (Function.update s p (.text (k + 1) fds))
  | exit {ok : Bool} {k : ℕ} {fds : φ → Option χ} (hp : s p = .text k fds)
      (hi : P.text[k]? = some .exit) : Performs s p ok (Function.update s p .zombie)

variable {P} in
/-- Every call is one of these. -/
theorem performs_of_act {s t : π → Status φ χ κ} {p : π} {ok : Bool} {reap : Option π}
    (h : act P s p ok reap = some t) : Performs P s p ok t := by
  unfold act at h
  split at h
  case h_2 => cases h
  case h_3 => cases h
  case h_4 => cases h
  case h_5 => cases h
  case h_1 k fds hp =>
  split at h
  case h_7 => cases h
  case h_1 skip hi =>
    cases ok with
    | true =>
      obtain ⟨hc, rfl⟩ := Machine.guard_eq_some.mp h
      exact .fork hp hi (Status.isUnborn_iff.mp hc)
    | false =>
      obtain rfl := Option.some.inj h
      exact .forkFails hp hi
  case h_2 old new hi =>
    obtain rfl := Option.some.inj h
    exact .dup2 hp hi
  case h_3 fd hi =>
    obtain rfl := Option.some.inj h
    exact .close hp hi
  case h_4 q hi =>
    obtain rfl := Option.some.inj h
    cases ok with
    | true => exact .execl hp hi
    | false => exact .execlFails hp hi
  case h_5 hi =>
    cases reap with
    | some c =>
      obtain ⟨⟨hc, hz⟩, rfl⟩ := Machine.guard_eq_some.mp h
      exact .reaps hp hi hc (Status.isZombie_iff.mp hz)
    | none =>
      obtain ⟨hc, rfl⟩ := Machine.guard_eq_some.mp h
      exact .noChild hp hi hc
  case h_6 hi =>
    obtain rfl := Option.some.inj h
    exact .exit hp hi

section Who

variable {P} {s t : π → Status φ χ κ} {p : π} {ok : Bool} {reap : Option π}

/-- Where a call takes the process that makes it. -/
theorem act_self (h : act P s p ok reap = some t) : ∃ k fds, s p = .text k fds ∧
    ((∃ l fds', t p = .text l fds') ∨ (∃ q, t p = .program q fds) ∨ t p = .zombie) := by
  cases performs_of_act h with
  | fork hp | forkFails hp | dup2 hp | close hp | execlFails hp | reaps hp | noChild hp =>
    exact ⟨_, _, hp, .inl ⟨_, _, Function.update_self ..⟩⟩
  | execl hp => exact ⟨_, _, hp, .inr (.inl ⟨_, Function.update_self ..⟩)⟩
  | exit hp => exact ⟨_, _, hp, .inr (.inr (Function.update_self ..))⟩

/-- To the others it only happens that they are born, or reaped by their parent. -/
theorem act_other {r : π} (hr : r ≠ p) (h : act P s p ok reap = some t) :
    t r = s r ∨ (∃ k fds, s r = .unborn ∧ s p = .text k fds ∧ r = P.child p k ∧
      t r = .text (k + 1) fds) ∨ s r = .zombie ∧ t r = .reaped ∧ P.parent r = some p := by
  cases performs_of_act h with
  | @fork k skip fds hp hi hc =>
    rw [Function.update_of_ne hr]
    by_cases hrc : r = P.child p k
    · exact .inr (.inl ⟨k, fds, hrc ▸ hc, hp, hrc, hrc ▸ Function.update_self ..⟩)
    · exact .inl (Function.update_of_ne hrc ..)
  | forkFails | dup2 | close | execl | execlFails | noChild | exit =>
    exact .inl (Function.update_of_ne hr ..)
  | @reaps _ k fds c hp hi hc hz =>
    rw [Function.update_of_ne hr]
    by_cases hrc : r = c
    · subst hrc
      exact .inr (.inr ⟨hz, Function.update_self .., hc⟩)
    · exact .inl (Function.update_of_ne hrc ..)

/-- A `dup2` opens no file. -/
theorem fds_dup2 {fds : φ → Option χ} {old new fd : φ} {f : χ}
    (h : dup2 fds old new fd = some f) : ∃ fd, fds fd = some f := by
  rw [dup2] at h
  split at h
  · by_cases hfd : fd = new
    · rw [hfd, Function.update_self] at h
      exact ⟨old, h⟩
    · rw [Function.update_of_ne hfd] at h
      exact ⟨fd, h⟩
  · exact ⟨fd, h⟩

/-- A `close` opens no file. -/
theorem fds_close {fds : φ → Option χ} {fd' fd : φ} {f : χ} (h : close fds fd' fd = some f) :
    fds fd = some f := by
  rw [close] at h
  by_cases hfd : fd = fd'
  · rw [hfd, Function.update_self] at h
    cases h
  · rwa [Function.update_of_ne hfd] at h

omit [Fintype π] [DecidableEq φ] in
/-- Who has the file open then is somebody else, or the process that changes. -/
theorem isOpen_update {q : π} {x : Status φ χ κ} {f : χ} (h : IsOpen (Function.update s q x) f) :
    IsOpen s f ∨ ∃ fd, x.fds fd = some f := by
  obtain ⟨r, fd, h⟩ := h
  by_cases hr : r = q
  · rw [hr, Function.update_self] at h
    exact .inr ⟨fd, h⟩
  · rw [Function.update_of_ne hr] at h
    exact .inl ⟨r, fd, h⟩

omit [Fintype π] [DecidableEq φ] in
theorem dead_update {q : π} {x : Status φ χ κ} (h : x.Dead ↔ (s q).Dead) (r : π) :
    (Function.update s q x r).Dead ↔ (s r).Dead := by
  by_cases hr : r = q
  · rw [hr, Function.update_self]
    exact h
  · rw [Function.update_of_ne hr]

/-- A call opens no file that nobody has open. -/
theorem isOpen_of_act {f : χ} (h : act P s p ok reap = some t) (ht : IsOpen t f) : IsOpen s f := by
  -- every table that changes is made from the one of the process that makes the call
  have old : ∀ {fds : φ → Option χ} {k : ℕ}, s p = .text k fds → (∃ fd, fds fd = some f) →
      IsOpen s f := by
    rintro fds k hp ⟨fd, h⟩
    exact ⟨p, fd, by rw [hp]; exact h⟩
  cases performs_of_act h with
  | fork hp _ _ =>
    exact (isOpen_update ht).elim (fun h => (isOpen_update h).elim id (old hp)) (old hp)
  | forkFails hp | execl hp | execlFails hp | noChild hp =>
    exact (isOpen_update ht).elim id (old hp)
  | dup2 hp => exact (isOpen_update ht).elim id fun ⟨_, h⟩ => old hp (fds_dup2 h)
  | close hp => exact (isOpen_update ht).elim id fun ⟨_, h⟩ => old hp ⟨_, fds_close h⟩
  | reaps hp => exact (isOpen_update ht).elim (fun h => (isOpen_update h).elim id nofun) (old hp)
  | exit => exact (isOpen_update ht).elim id nofun

end Who

end Program

/-! ## Tables of descriptors -/

section Layout

variable {π φ χ κ : Type*} [DecidableEq φ]

/-- What the call at a place leads to: `At p k fds` for every process `p` that is then at a place
`k` with the table `fds`. A child knows its parent, and a text is forked forward. -/
def Leads (P : Family π φ κ) (At : π → ℕ → (φ → Option χ) → Prop) (p : π) (k : ℕ)
    (fds : φ → Option χ) : Instr φ κ → Prop
  | .fork skip => (At p skip fds ∧ At (P.child p k) (k + 1) fds) ∧
    P.parent (P.child p k) = some p ∧ k < skip
  | .dup2 old new => At p (k + 1) (dup2 fds old new)
  | .close fd => At p (k + 1) (close fds fd)
  | .execl _ | .wait => At p (k + 1) fds
  | .exit => True

instance [DecidableEq π] (P : Family π φ κ) (At : π → ℕ → (φ → Option χ) → Prop)
    [∀ p k fds, Decidable (At p k fds)] (p : π) (k : ℕ) (fds : φ → Option χ) :
    ∀ i, Decidable (Leads P At p k fds i)
  | .fork _ => inferInstanceAs (Decidable ((_ ∧ _) ∧ _ ∧ _))
  | .dup2 _ _ | .close _ | .execl _ | .wait => inferInstanceAs (Decidable (At _ _ _))
  | .exit => inferInstanceAs (Decidable True)

/-- The places that a process can be at, with the table that it has there. -/
structure Layout (P : Family π φ κ) (χ : Type*) where
  valid : π → ℕ → Bool
  tab : π → ℕ → φ → Option χ
  leads : ∀ p k i, valid p k → P.text[k]? = some i →
    Leads P (fun p k fds => valid p k ∧ fds = tab p k) p k (tab p k) i
  /-- No two places fork a child of the same name. -/
  child : ∀ p k l, valid p k → valid p l → P.forks k → P.forks l → P.child p k = P.child p l → k = l

namespace Layout

variable {P : Family π φ κ} (L : Layout P χ)

/-- A process that executes a program has the table of the place it has left. -/
def Fits (p : π) : Status φ χ κ → Prop
  | .text k fds => L.valid p k ∧ fds = L.tab p k
  | .program q fds => ∃ k, L.valid p k ∧ P.text[k]? = some (.execl q) ∧ fds = L.tab p k
  | .unborn | .zombie | .reaped => True

def Holds (s : π → Status φ χ κ) : Prop := ∀ p, L.Fits p (s p)

variable {L} [DecidableEq π] {s t : π → Status φ χ κ} {p : π}

variable (L) in
omit [DecidableEq π] in
/-- A process at a place of the layout comes to another one by its call. -/
theorem leads_of_fits (hs : L.Holds s) {k : ℕ} {fds : φ → Option χ} {i : Instr φ κ}
    (hp : s p = .text k fds) (hi : P.text[k]? = some i) :
    Leads P (fun p k fds => L.valid p k ∧ fds = L.tab p k) p k fds i := by
  have hfits := hs p
  rw [hp] at hfits
  obtain ⟨hvalid, rfl⟩ := hfits
  exact L.leads p k i hvalid hi

omit [DecidableEq π] in
theorem fork_of_valid {k skip : ℕ} (hv : L.valid p k) (hi : P.text[k]? = some (.fork skip)) :
    P.parent (P.child p k) = some p ∧ k < skip :=
  (L.leads p k _ hv hi).2

omit [DecidableEq π] in
/-- Different places fork different children. -/
theorem child_inj {k l skip skip' : ℕ} (hk : L.valid p k) (hi : P.text[k]? = some (.fork skip))
    (hl : L.valid p l) (hi' : P.text[l]? = some (.fork skip')) (h : P.child p k = P.child p l) :
    k = l :=
  L.child p k l hk hl (by rw [Family.forks, hi]) (by rw [Family.forks, hi']) h

/-- One process comes to another place. -/
theorem Holds.update (hs : L.Holds s) (x : Status φ χ κ) (hx : L.Fits p x) :
    L.Holds (Function.update s p x) := by
  intro q
  by_cases hq : q = p
  · subst hq
    rwa [Function.update_self]
  · rw [Function.update_of_ne hq]
    exact hs q

/-- A call changes the table as the layout says. -/
theorem layout_act [Fintype π] {ok : Bool} {reap : Option π} (hs : L.Holds s)
    (h : act P s p ok reap = some t) : L.Holds t := by
  cases performs_of_act h with
  | fork hp hi hc =>
    obtain ⟨⟨hparent, hchild⟩, -⟩ := L.leads_of_fits hs hp hi
    exact (hs.update (.text _ _) hchild).update (.text _ _) hparent
  | forkFails hp hi => exact hs.update (.text _ _) (L.leads_of_fits hs hp hi).1.1
  | dup2 hp hi => exact hs.update (.text _ _) (L.leads_of_fits hs hp hi)
  | close hp hi => exact hs.update (.text _ _) (L.leads_of_fits hs hp hi)
  | execl hp hi =>
    have hfits := hs p
    rw [hp] at hfits
    exact hs.update (.program _ _) ⟨_, hfits.1, hi, hfits.2⟩
  | execlFails hp hi => exact hs.update (.text _ _) (L.leads_of_fits hs hp hi)
  | reaps hp hi _ _ =>
    exact (hs.update .reaped trivial).update (.text _ _) (L.leads_of_fits hs hp hi)
  | noChild hp hi _ => exact hs.update (.text _ _) (L.leads_of_fits hs hp hi)
  | exit _ _ => exact hs.update .zombie trivial

end Layout

end Layout

end LinuxRiscv32.Kernel.Process

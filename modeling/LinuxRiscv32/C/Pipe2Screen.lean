import LinuxRiscv32.C.Pipe2Ends

/-!
# What the screen shows

`pipeline_of_run` for the program as it is, and `never_returns` for the one without the two `close`
calls of the parent.
-/

namespace LinuxRiscv32.Pipe2

open Common Kernel.Process

variable {β : Type*}

/-! ## Runs in which nothing fails -/

section Fine

variable {E : Env β} {s t : State β} {u : Process → Status Fd File Program}

/-- Where the parent forks a child. -/
def forkPlace : Process → ℕ
  | .childB => 5
  | .parent | .childA | .stray => 0

/-- What holds of the processes if no `fork` and no `execl` has failed. -/
structure OnTime (procs : Process → Status Fd File Program) : Prop where
  stray : procs .stray = .unborn
  early : ∀ p k fds, p ≠ .parent → procs p = .text k fds → k ≤ execPlace p
  born : ∀ p, p ≠ .parent → p ≠ .stray → procs p = .unborn →
    ∃ k fds, procs .parent = .text k fds ∧ k ≤ forkPlace p

def IsTable : Instr Fd Program → Prop
  | .dup2 _ _ | .close _ => True
  | .fork _ | .execl _ | .wait | .exit => False

instance : ∀ i, Decidable (IsTable i)
  | .dup2 _ _ | .close _ => inferInstanceAs (Decidable True)
  | .fork _ | .execl _ | .wait | .exit => inferInstanceAs (Decidable False)

/-- Up to its `execl` a child only moves its descriptors. -/
theorem child_instr : ∀ closed p, p ≠ .parent → ∀ k ∈ places closed p, k ≤ execPlace p →
    ∀ i ∈ (text closed)[k]?, (k < execPlace p ∧ IsTable i) ∨ i = .execl (program p) := by
  decide

/-- The parent forks twice and then closes, waits and ends. -/
theorem parent_instr : ∀ closed, ∀ k ∈ places closed .parent, ∀ i ∈ (text closed)[k]?,
    (i = .fork (k + 5) ∧ (k = 0 ∨ k = 5)) ∨ (10 ≤ k ∧ (IsTable i ∨ i = .wait ∨ i = .exit)) := by
  decide

/-- A child that has not come past its `execl` changes its descriptors, or executes its program. -/
theorem child_act (hs : Sound E s) (ht : OnTime s.procs) {p : Process} (hp : p ≠ .parent)
    {reap : Option Process} (h : act (family E.closed) s.procs p true reap = some u) :
    ∃ k fds x, s.procs p = .text k fds ∧ u = Function.update s.procs p x ∧
      ((∃ fds', x = .text (k + 1) fds' ∧ k < execPlace p) ∨ ∃ q, x = .program q fds) := by
  have instr : ∀ {k : ℕ} {fds : Fd → Option File} {i : Instr Fd Program},
      s.procs p = .text k fds → (text E.closed)[k]? = some i →
        (k < execPlace p ∧ IsTable i) ∨ i = .execl (program p) := fun hk hi =>
    child_instr E.closed p hp _ (of_decide_eq_true (hs.1.valid hk).1) (ht.early _ _ _ hp hk) _ hi
  cases performs_of_act h with
  | @fork k skip fds hk hi hc => obtain ⟨-, h⟩ | h := instr hk hi <;> cases h
  | @dup2 _ k fds _ _ hk hi =>
    obtain ⟨hlt, -⟩ | h := instr hk hi
    · exact ⟨k, fds, _, hk, rfl, .inl ⟨_, rfl, hlt⟩⟩
    · cases h
  | @close _ k fds _ hk hi =>
    obtain ⟨hlt, -⟩ | h := instr hk hi
    · exact ⟨k, fds, _, hk, rfl, .inl ⟨_, rfl, hlt⟩⟩
    · cases h
  | @execl k fds q hk hi => exact ⟨k, fds, _, hk, rfl, .inr ⟨q, rfl⟩⟩
  | reaps hk hi | noChild hk hi | exit hk hi => obtain ⟨-, h⟩ | h := instr hk hi <;> cases h

/-- The parent forks, or closes the pipe, waits and ends. -/
theorem parent_act (hs : Sound E s) {reap : Option Process}
    (h : act (family E.closed) s.procs .parent true reap = some u) :
    ∃ k fds, s.procs .parent = .text k fds ∧
      ((∃ c, (c = .childA ∨ c = .childB) ∧ k = forkPlace c ∧ s.procs c = .unborn ∧
        u = Function.update (Function.update s.procs c (.text (k + 1) fds)) .parent
          (.text (k + 5) fds)) ∨
      (10 ≤ k ∧ ∃ x, (x = .zombie ∨ ∃ fds', x = .text (k + 1) fds') ∧
        (u = Function.update s.procs .parent x ∨ ∃ c, c ≠ .parent ∧ s.procs c = .zombie ∧
          u = Function.update (Function.update s.procs c .reaped) .parent x))) := by
  have instr : ∀ {k : ℕ} {fds : Fd → Option File} {i : Instr Fd Program},
      s.procs .parent = .text k fds → (text E.closed)[k]? = some i →
        (i = .fork (k + 5) ∧ (k = 0 ∨ k = 5)) ∨ (10 ≤ k ∧ (IsTable i ∨ i = .wait ∨ i = .exit)) :=
    fun hk hi => parent_instr E.closed _ (of_decide_eq_true (hs.1.valid hk).1) _ hi
  have late : ∀ {k : ℕ} {fds : Fd → Option File} {i : Instr Fd Program},
      s.procs .parent = .text k fds → (text E.closed)[k]? = some i → (∀ l, i ≠ .fork l) → 10 ≤ k :=
    fun hk hi hne => (instr hk hi).elim (fun h => absurd h.1 (hne _)) fun h => h.1
  cases performs_of_act h with
  | @fork k skip fds hk hi hc =>
    refine ⟨k, fds, hk, .inl ?_⟩
    obtain ⟨h, rfl | rfl⟩ | ⟨-, h | h | h⟩ := instr hk hi
    · obtain rfl := Instr.fork.inj h
      exact ⟨.childA, .inl rfl, rfl, hc, rfl⟩
    · obtain rfl := Instr.fork.inj h
      exact ⟨.childB, .inr rfl, rfl, hc, rfl⟩
    all_goals cases h
  | @dup2 _ k fds _ _ hk hi =>
    exact ⟨k, fds, hk, .inr ⟨late hk hi nofun, _, .inr ⟨_, rfl⟩, .inl rfl⟩⟩
  | @close _ k fds _ hk hi =>
    exact ⟨k, fds, hk, .inr ⟨late hk hi nofun, _, .inr ⟨_, rfl⟩, .inl rfl⟩⟩
  | @execl k fds q hk hi => obtain ⟨h, -⟩ | ⟨-, h | h | h⟩ := instr hk hi <;> cases h
  | @reaps _ k fds c hk hi hc hz =>
    refine ⟨k, fds, hk, .inr ⟨late hk hi nofun, _, .inr ⟨_, rfl⟩, .inr ⟨c, ?_, hz, rfl⟩⟩⟩
    rintro rfl
    cases hc
  | @noChild _ k fds hk hi hc =>
    exact ⟨k, fds, hk, .inr ⟨late hk hi nofun, _, .inr ⟨_, rfl⟩, .inl rfl⟩⟩
  | @exit _ k fds hk hi => exact ⟨k, fds, hk, .inr ⟨late hk hi nofun, _, .inl rfl, .inl rfl⟩⟩

/-- A child that changes without ending. -/
theorem OnTime.child {procs : Process → Status Fd File Program} (ht : OnTime procs) {p : Process}
    (hp : p ≠ .parent) (hstray : p ≠ .stray) (x : Status Fd File Program) (hx : x ≠ .unborn)
    (hearly : ∀ k fds, x = .text k fds → k ≤ execPlace p) :
    OnTime (Function.update procs p x) where
  stray := by rw [Function.update_of_ne hstray.symm, ht.stray]
  early q k fds hq h := by
    by_cases hqp : q = p
    · subst hqp
      rw [Function.update_self] at h
      exact hearly k fds h
    · rw [Function.update_of_ne hqp] at h
      exact ht.early q k fds hq h
  born q hq hq' h := by
    by_cases hqp : q = p
    · subst hqp
      rw [Function.update_self] at h
      exact absurd h hx
    · rw [Function.update_of_ne hqp] at h
      rw [Function.update_of_ne hp.symm]
      exact ht.born q hq hq' h

/-- The parent goes on. -/
theorem OnTime.parent {procs : Process → Status Fd File Program} (ht : OnTime procs)
    {x : Status Fd File Program}
    (hborn : ∀ p, p ≠ .parent → p ≠ .stray → procs p = .unborn →
      ∃ k fds, x = .text k fds ∧ k ≤ forkPlace p) :
    OnTime (Function.update procs .parent x) where
  stray := by rw [Function.update_of_ne (by decide), ht.stray]
  early q k fds hq h := by
    rw [Function.update_of_ne hq] at h
    exact ht.early q k fds hq h
  born q hq hq' h := by
    rw [Function.update_of_ne hq] at h
    rw [Function.update_self]
    exact hborn q hq hq' h

/-- Behind place 10 the parent has forked both children. -/
theorem OnTime.ne_unborn {procs : Process → Status Fd File Program} (ht : OnTime procs) {k : ℕ}
    {fds : Fd → Option File} (hk : procs .parent = .text k fds) (hlate : 10 ≤ k) {q : Process}
    (hq : q ≠ .parent) (hstray : q ≠ .stray) : procs q ≠ .unborn := by
  intro h
  obtain ⟨_, _, hk', hle⟩ := ht.born q hq hstray h
  rw [hk] at hk'
  cases hk'
  have hplace : forkPlace q ≤ 5 := by cases q <;> decide
  omega

/-- A `fork` of the parent starts the child whose turn it is. -/
theorem OnTime.fork {procs : Process → Status Fd File Program} (ht : OnTime procs) {c : Process}
    (hc : c = .childA ∨ c = .childB) {fds : Fd → Option File}
    (hk : procs .parent = .text (forkPlace c) fds) :
    OnTime (Function.update (Function.update procs c (.text (forkPlace c + 1) fds)) .parent
      (.text (forkPlace c + 5) fds)) := by
  have hne : c ≠ .parent ∧ c ≠ .stray ∧ forkPlace c < execPlace c := by
    rcases hc with rfl | rfl <;> decide
  refine (ht.child hne.1 hne.2.1 (.text _ _) nofun fun l fds' hl => ?_).parent
    fun q hq hq' hfree => ?_
  · cases hl
    exact hne.2.2
  · have hqc : q ≠ c := by
      rintro rfl
      rw [Function.update_self] at hfree
      cases hfree
    rw [Function.update_of_ne hqc] at hfree
    -- a child that is not born yet is one that the parent still comes to
    obtain ⟨_, _, hk', hle⟩ := ht.born q hq hq' hfree
    rw [hk] at hk'
    cases hk'
    refine ⟨_, _, rfl, ?_⟩
    revert hle hqc
    rcases hc with rfl | rfl <;> cases q <;> simp_all [forkPlace]

/-- Behind the forks, a step of the parent leaves the children on their way. -/
theorem OnTime.late {procs : Process → Status Fd File Program} (ht : OnTime procs) {k : ℕ}
    {fds : Fd → Option File} (hk : procs .parent = .text k fds) (hlate : 10 ≤ k)
    (x : Status Fd File Program) : OnTime (Function.update procs .parent x) :=
  ht.parent fun _ hq hstray h => absurd h (ht.ne_unborn hk hlate hq hstray)

/-- Behind the forks, the parent can reap a child. -/
theorem OnTime.reap {procs : Process → Status Fd File Program} (ht : OnTime procs) {k : ℕ}
    {fds : Fd → Option File} (hk : procs .parent = .text k fds) (hlate : 10 ≤ k) {c : Process}
    (hc : c ≠ .parent) (hz : procs c = .zombie) (x : Status Fd File Program) :
    OnTime (Function.update (Function.update procs c .reaped) .parent x) := by
  have hstray : c ≠ .stray := by
    rintro rfl
    rw [ht.stray] at hz
    cases hz
  have hk' : Function.update procs c .reaped .parent = .text k fds := by
    rw [Function.update_of_ne hc.symm, hk]
  exact (ht.child hc hstray .reaped nofun nofun).late hk' hlate x

/-- A call that succeeds leaves all children on their way, and nobody ends by it but the parent. -/
theorem onTime_act (hs : Sound E s) (ht : OnTime s.procs) {p : Process} {reap : Option Process}
    (h : act (family E.closed) s.procs p true reap = some u) :
    OnTime u ∧ ∀ q, q ≠ .parent → ((u q).Dead ↔ (s.procs q).Dead) := by
  by_cases hp : p = .parent
  · subst hp
    obtain ⟨k, fds, hk, ⟨c, hc, rfl, hfree, rfl⟩ | ⟨hlate, x, -, rfl | ⟨c, hc, hz, rfl⟩⟩⟩ :=
      parent_act hs h
    · refine ⟨ht.fork hc hk, fun q hq => ?_⟩
      rw [Function.update_of_ne hq]
      refine dead_update ?_ q
      rw [hfree]
      exact iff_of_false (Status.not_dead_of_text rfl) (by rintro (h | h) <;> cases h)
    · exact ⟨ht.late hk hlate x, fun q hq => by rw [Function.update_of_ne hq]⟩
    · refine ⟨ht.reap hk hlate hc hz x, fun q hq => ?_⟩
      rw [Function.update_of_ne hq]
      refine dead_update ?_ q
      rw [hz]
      exact iff_of_true (.inr rfl) (.inl rfl)
  · obtain ⟨k, fds, x, hk, rfl, hx⟩ := child_act hs ht hp h
    have hstray : p ≠ .stray := by
      rintro rfl
      rw [ht.stray] at hk
      cases hk
    have hx' : x ≠ .unborn ∧ ¬ x.Dead := by
      obtain ⟨_, rfl, -⟩ | ⟨_, rfl⟩ := hx
      · exact ⟨nofun, Status.not_dead_of_text rfl⟩
      · exact ⟨nofun, Status.not_dead_of_program rfl⟩
    refine ⟨ht.child hp hstray x hx'.1 fun l fds' hl => ?_, fun q _ => dead_update ?_ q⟩
    · obtain ⟨_, rfl, hlt⟩ | ⟨_, rfl⟩ := hx
      · cases hl
        exact hlt
      · cases hl
    · exact iff_of_false hx'.2 (Status.not_dead_of_text hk)

/-- The end of the pipe that a child keeps. -/
def keeps : Process → File
  | .childA => .writeEnd
  | .parent | .childB | .stray => .readEnd

/-- As long as a child has not ended, it has its end of the pipe open, or will inherit it. -/
theorem open_of_alive (hs : Sound E s) (ht : OnTime s.procs) {c : Process} (hc : c ≠ .parent)
    (hc' : c ≠ .stray) (halive : ¬ (s.procs c).Dead) : s.IsOpen (keeps c) := by
  have hparent : ∀ closed, ∀ k ∈ places closed .parent, k ≤ 5 → ∀ c,
      ∃ fd, tab closed .parent k fd = some (keeps c) := by decide
  have hchild : ∀ closed c, c ≠ .parent → c ≠ .stray → ∀ k ∈ places closed c, k ≤ execPlace c →
      ∃ fd, tab closed c k fd = some (keeps c) := by decide
  have hexec : ∀ closed c, c ≠ .parent → c ≠ .stray →
      ∃ fd, tab closed c (execPlace c) fd = some (keeps c) := by decide
  cases hstatus : s.procs c with
  | unborn =>
    obtain ⟨k, fds, hk, hle⟩ := ht.born c hc hc' hstatus
    obtain ⟨hv, rfl⟩ := hs.1.valid hk
    have h5 : forkPlace c ≤ 5 := by cases c <;> decide
    obtain ⟨fd, hfd⟩ := hparent E.closed k (of_decide_eq_true hv) (hle.trans h5) c
    exact ⟨.parent, fd, by rw [hk]; exact hfd⟩
  | text k fds =>
    obtain ⟨hv, rfl⟩ := hs.1.valid hstatus
    obtain ⟨fd, hfd⟩ :=
      hchild E.closed c hc hc' k (of_decide_eq_true hv) (ht.early c k _ hc hstatus)
    exact ⟨c, fd, by rw [hstatus]; exact hfd⟩
  | program q fds =>
    obtain ⟨-, rfl, rfl⟩ := program_eq hs hstatus
    obtain ⟨fd, hfd⟩ := hexec E.closed c hc hc'
    exact ⟨c, fd, by rw [hstatus]; exact hfd⟩
  | zombie => exact absurd (.inl hstatus) halive
  | reaped => exact absurd (.inr hstatus) halive

/-- The screen shows what a `grep` has written of what it has to write. -/
def Shown (E : Env β) (g : Grep β) (screen : List β) : Prop :=
  g.put ≤ (E.grep g.eof g.got).length ∧ screen = (E.grep g.eof g.got).take g.put

namespace Shown

variable {g : Grep β} {screen : List β}

/-- `grep` has written more of what it has to write. -/
theorem wrote (h : Shown E g screen) {n : ℕ}
    (hle : n ≤ ((E.grep g.eof g.got).drop g.put).length) :
    Shown E (g.wrote n) (screen ++ ((E.grep g.eof g.got).drop g.put).take n) := by
  rw [List.length_drop] at hle
  refine ⟨?_, ?_⟩
  · have := h.1
    simp only [Grep.wrote]
    omega
  · rw [h.2]
    exact List.take_add.symm

/-- More input does not change what has been written. -/
theorem grows (h : Shown E g screen) {g' : Grep β} (hput : g'.put = g.put)
    (hgrows : E.grep g.eof g.got <+: E.grep g'.eof g'.got) : Shown E g' screen := by
  obtain ⟨hle, rfl⟩ := h
  rw [Shown, hput]
  obtain ⟨r, hr⟩ := hgrows
  rw [← hr, List.length_append, List.take_append_of_le_length hle]
  exact ⟨hle.trans (Nat.le_add_right _ _), rfl⟩

end Shown

/-- What holds as long as no call has failed. -/
structure Fine (E : Env β) (s : State β) : Prop where
  onTime : OnTime s.procs
  bytes : E.psOut = (s.greps .childB).got ++ s.pipe ++ s.psLeft
  shown : Shown E (s.greps .childB) s.screen
  deadA : (s.procs .childA).Dead → s.psLeft = []
  eof : (s.greps .childB).eof → (s.procs .childA).Dead ∧ s.pipe = []
  deadB : (s.procs .childB).Dead → (s.greps .childB).eof ∧ s.output E .childB .grep = []

theorem fine_init (E : Env β) : Fine E (init E) where
  onTime := by
    refine ⟨rfl, fun p k fds hp h => ?_, fun p hp _ _ => ⟨0, opened, rfl, Nat.zero_le _⟩⟩
    rw [init_procs E hp] at h
    cases h
  bytes := rfl
  shown := ⟨Nat.zero_le _, rfl⟩
  deadA := by rintro (h | h) <;> cases h
  eof := nofun
  deadB := by rintro (h | h) <;> cases h

/-- A program ends only when it has nothing left to do. -/
theorem Fine.finish (hs : Sound E s) (hf : Fine E s) {p : Process} {fds : Fd → Option File}
    (hprog : s.procs p = .program (program p) fds) (hdone : Done E s p (program p)) :
    Fine E (s.ended p) := by
  have hp := (program_eq hs hprog).1
  have hp' : p ≠ .stray := by
    rintro rfl
    rw [hf.onTime.stray] at hprog
    cases hprog
  have hother : ∀ {q}, ((s.ended p).procs q).Dead → q = p ∨ (s.procs q).Dead := by
    intro q h
    by_cases hq : q = p
    · exact .inl hq
    · simp only [State.ended] at h
      rw [Function.update_of_ne hq] at h
      exact .inr h
  refine ⟨hf.onTime.child hp hp' .zombie (fun h => by cases h) (fun _ _ h => by cases h),
    hf.bytes, hf.shown, fun h => ?_, fun h => ⟨?_, (hf.eof h).2⟩, fun h => ?_⟩
  · obtain rfl | h := hother h
    · exact hdone
    · exact hf.deadA h
  · have hne : .childA ≠ p := by
      rintro rfl
      exact Status.not_dead_of_program hprog (hf.eof h).1
    simp only [State.ended]
    rw [Function.update_of_ne hne]
    exact (hf.eof h).1
  · obtain rfl | h := hother h
    · exact hdone
    · exact hf.deadB h

/-- As long as nothing fails, no byte is lost and nobody ends too early. -/
theorem fine_step (hE : Filters E.grep) (hs : Sound E s) (hf : Fine E s) {e : Event}
    (he : e.Succeeds) (h : step E s e = some t) : Fine E t := by
  have hstray : ∀ {q : Program} {fds : Fd → Option File}, s.procs .stray ≠ .program q fds := by
    intro q fds h
    rw [hf.onTime.stray] at h
    cases h
  cases moves_of_step hs h with
  | @call p ok reap u h' =>
    obtain rfl : ok = true := he
    obtain ⟨ht, hdead⟩ := onTime_act hs hf.onTime h'
    have hA := hdead .childA (by decide)
    have hB := hdead .childB (by decide)
    exact ⟨ht, hf.bytes, hf.shown, fun h => hf.deadA (hA.mp h),
      fun h => ⟨hA.mpr (hf.eof h).1, (hf.eof h).2⟩, fun h => hf.deadB (hB.mp h)⟩
  | @fill p n hp hprog hn hle hopen hfits =>
    obtain rfl | rfl := hp
    · -- what leaves `ps` is in the pipe now
      have halive := Status.not_dead_of_program hprog
      refine ⟨hf.onTime, ?_, hf.shown, fun h => absurd h halive,
        fun h => absurd (hf.eof h).1 halive, hf.deadB⟩
      change E.psOut = (s.greps .childB).got ++ (s.pipe ++ s.psLeft.take n) ++ s.psLeft.drop n
      rw [hf.bytes, List.append_assoc, List.append_assoc, List.append_assoc, List.take_append_drop]
    · exact absurd hprog hstray
  | @print n hprog hn hle =>
    have halive := Status.not_dead_of_program hprog
    refine ⟨hf.onTime, ?_, ?_, hf.deadA, ?_, fun h => absurd h halive⟩ <;>
      simp only [State.wrote, Function.update_self]
    · exact hf.bytes
    · exact hf.shown.wrote hle
    · exact hf.eof
  | @drain n hprog heof hn hle =>
    have halive := Status.not_dead_of_program hprog
    refine ⟨hf.onTime, ?_, ?_, hf.deadA, ?_, fun h => absurd h halive⟩ <;>
      simp only [State.took, Function.update_self]
    · rw [hf.bytes]
      simp only [Grep.took]
      rw [List.append_assoc _ (s.pipe.take n), List.take_append_drop]
    · refine hf.shown.grows rfl ?_
      simp only [Grep.took, heof]
      exact hE.append ..
    · intro h
      rw [Grep.took, heof] at h
      cases h
  | type hprog => exact absurd hprog hstray
  | @eof p fds hp hprog heof hend =>
    obtain rfl | rfl := hp
    · obtain ⟨hempty, hclosed⟩ := hend rfl
      refine ⟨hf.onTime, ?_, ?_, hf.deadA, fun _ => ⟨?_, hempty⟩,
        fun h => absurd h (Status.not_dead_of_program hprog)⟩
      · simp only [Function.update_self]
        exact hf.bytes
      · simp only [Function.update_self]
        refine hf.shown.grows rfl ?_
        simp only [Grep.ended, heof]
        exact hE.ends _
      · by_contra halive
        exact hclosed (open_of_alive hs hf.onTime (c := .childA) (by decide) (by decide) halive)
    · exact absurd hprog hstray
  | finish hprog hdone => exact hf.finish hs hprog hdone
  | @sigpipe p hp hprog hout hclosed =>
    obtain rfl | rfl := hp
    · -- the second child has the pipe open until it ends, and it ends after the first
      refine absurd (open_of_alive hs hf.onTime (c := .childB) (by decide) (by decide)
        fun h => ?_) hclosed
      exact Status.not_dead_of_program hprog (hf.eof (hf.deadB h).1).1
    · exact absurd hprog hstray

end Fine

/-! ## Runs -/

section Runs

variable {E : Env β} {es es' : List Event} {s t : State β}

/-- After a run in which nothing fails, no byte is lost and nobody has ended too early. -/
theorem fine_of_run (hE : Filters E.grep) (h : (machine E).run (init E) es = some s)
    (hok : ∀ e ∈ es, e.Succeeds) : Fine E s := by
  have hstep : ∀ s e t, (Sound E s ∧ Fine E s) → e.Succeeds → (machine E).step s e = some t →
      Sound E t ∧ Fine E t := fun s e t hs he h =>
    ⟨sound_step hs.1 h, fine_step hE hs.1 hs.2 he h⟩
  exact (Machine.invariant hstep ⟨sound_init E, fine_init E⟩
    ((Machine.along_iff_forall_mem h).mpr hok) h).2

/-- `main` waits for its children, and the first child for the one that it has forked. -/
theorem gone_of_zombie (hs : Sound E s) (hparent : s.procs .parent = .zombie) {p : Process}
    (hp : p ≠ .parent) : (s.procs p).isGone := by
  have hmain : ∀ k fds, s.procs .parent ≠ .text k fds := fun k fds h => by
    rw [hparent] at h
    cases h
  have hA : (s.procs .childA).isGone := hs.1.waits.gone hmain rfl
  cases p with
  | parent => exact absurd rfl hp
  | childA => exact hA
  | childB => exact hs.1.waits.gone hmain rfl
  | stray =>
    refine hs.1.waits.gone (fun k fds h => ?_) (rfl : parent .stray = some .childA)
    rw [h] at hA
    cases hA

/-- In the end the screen shows what `grep` makes of the output of `ps`. -/
theorem screen_of_zombie (hs : Sound E s) (hf : Fine E s) (hparent : s.procs .parent = .zombie) :
    s.screen = E.grep true E.psOut := by
  have hdead : ∀ {p}, p ≠ .parent → p ≠ .stray → (s.procs p).Dead := by
    intro p hp hp'
    have hgone := gone_of_zombie hs hparent hp
    cases hstatus : s.procs p with
    | unborn =>
      obtain ⟨k, fds, h, -⟩ := hf.onTime.born p hp hp' hstatus
      rw [hparent] at h
      cases h
    | text | program | zombie => rw [hstatus] at hgone; cases hgone
    | reaped => exact .inr rfl
  have hleft := hf.deadA (hdead (by decide) (by decide))
  obtain ⟨heof, hout⟩ := hf.deadB (hdead (by decide) (by decide))
  have hgot : E.psOut = (s.greps .childB).got := by
    rw [hf.bytes, (hf.eof heof).2, hleft, List.append_nil, List.append_nil]
  rw [hf.shown.2, hgot, heof]
  rw [State.output, heof] at hout
  exact List.take_of_length_le (List.drop_eq_nil_iff.mp hout)

/-- The pipeline comes to an end, whatever fails, and leaves no process behind. If nothing has
failed the screen then shows what `grep` makes of the output of `ps`. -/
theorem pipeline_of_run (hclosed : E.closed = true) (hcap : 0 < E.capacity)
    (hE : Filters E.grep) (h : (machine E).run (init E) es = some s) :
    es.length ≤ 45 + 4 * E.typed.length + 3 * E.psOut.length ∧
    (s.procs .parent ≠ .zombie → ∃ e t, e.Succeeds ∧ step E s e = some t) ∧
    (s.procs .parent = .zombie →
      (∀ p, p ≠ .parent → (s.procs p).isGone) ∧
      ((∀ e ∈ es, e.Succeeds) → s.screen = E.grep true E.psOut)) :=
  ⟨length_le hE h, exists_step hclosed hcap (sound_run h), fun hparent =>
    ⟨fun _ => gone_of_zombie (sound_run h) hparent, fun hok =>
      screen_of_zombie (sound_run h) (fine_of_run hE h hok) hparent⟩⟩

/-- One line, written and shown in two pieces. -/
def oneLine : Env Char where
  closed := true
  capacity := 4096
  psOut := "1 bash\n".toList
  typed := []
  grep := fun eof l => if eof then l else []

def oneLineRun : List Event :=
  [.call .parent true none, .call .parent true none, .call .parent true none,
    .call .childB true none, .call .childA true none, .call .childA true none,
    .call .childA true none, .call .childA true none, .write .childA 4, .call .childB true none,
    .call .childB true none, .call .childB true none, .read .childB 4, .call .parent true none,
    .write .childA 3, .finish .childA, .call .parent true (some .childA), .read .childB 3,
    .eof .childB, .write .childB 1, .write .childB 6, .finish .childB,
    .call .parent true (some .childB), .call .parent true none]

theorem pipeline_of_run_oneLine :
    ∃ s, (machine oneLine).run (init oneLine) oneLineRun = some s ∧
      s.screen = "1 bash\n".toList := by
  obtain ⟨s, hs, hparent⟩ := Option.map_eq_some_iff.mp
    (rfl : ((machine oneLine).run (init oneLine) oneLineRun).map (fun s => s.procs .parent) =
      some .zombie)
  have hfilters : Filters oneLine.grep := by
    refine ⟨fun b l => ?_, fun _ _ => List.prefix_rfl, fun _ => List.nil_prefix⟩
    cases b <;> simp [oneLine]
  exact ⟨s, hs, ((pipeline_of_run rfl (by decide) hfilters hs).2.2 hparent).2 (by decide)⟩

end Runs

/-! ## Without the two `close` calls -/

section Open

variable {E : Env β} {es es' : List Event} {s t : State β}

/-- While `grep` runs, the parent has not ended, as it waits for it. -/
theorem parent_ne_zombie (hs : Sound E s) {fds : Fd → Option File}
    (hB : s.procs .childB = .program .grep fds) : s.procs .parent ≠ .zombie := by
  intro hparent
  have := gone_of_zombie hs hparent (p := .childB) (by decide)
  rw [hB] at this
  cases this

/-- The parent has the write end open until it returns. -/
theorem open_of_parent (hopen : E.closed = false) (hs : Sound E s)
    (hparent : s.procs .parent ≠ .zombie) : s.IsOpen .writeEnd := by
  have htab : ∀ k ∈ places false .parent, tab false .parent k .wr = some .writeEnd := by decide
  cases hstatus : s.procs .parent with
  | unborn | reaped =>
    have := hs.2
    rw [hstatus] at this
    cases this
  | zombie => exact absurd hstatus hparent
  | program => exact absurd rfl (program_eq hs hstatus).1
  | text k fds =>
    obtain ⟨hv, rfl⟩ := hs.1.valid hstatus
    rw [hopen] at hv hstatus
    exact ⟨.parent, .wr, by rw [hstatus]; exact htab k (of_decide_eq_true hv)⟩

/-- So the second child does not see the end of its input. -/
theorem no_eof_step (hopen : E.closed = false) (hs : Sound E s)
    (heof : (s.greps .childB).eof = false) {e : Event} (h : step E s e = some t) :
    (t.greps .childB).eof = false := by
  cases moves_of_step hs h with
  | call | finish | sigpipe => exact heof
  | fill hp =>
    rcases hp with rfl | rfl
    · exact heof
    · simp only [State.wrote, program]
      rwa [Function.update_of_ne (by decide)]
  | print =>
    simp only [State.wrote, Function.update_self]
    exact heof
  | drain =>
    simp only [State.took, Function.update_self]
    exact heof
  | type =>
    simp only [State.took]
    rwa [Function.update_of_ne (by decide)]
  | eof hp hprog _ hend =>
    rcases hp with rfl | rfl
    · exact absurd (open_of_parent hopen hs (parent_ne_zombie hs hprog)) (hend rfl).2
    · dsimp only
      rwa [Function.update_of_ne (by decide)]

/-- After no run has the second child seen the end of its input. -/
theorem no_eof_run (hopen : E.closed = false) (h : (machine E).run (init E) es = some s) :
    Sound E s ∧ (s.greps .childB).eof = false := by
  refine Machine.invariant_of_step (I := fun s => Sound E s ∧ (s.greps .childB).eof = false)
    ?_ ⟨sound_init E, rfl⟩ h
  exact fun s e t hs h => ⟨sound_step hs.1 h, no_eof_step hopen hs.1 hs.2 h⟩

/-- It goes on with `grep`. -/
theorem runs_on_step (hs : Sound E s) (heof : (s.greps .childB).eof = false)
    {fds : Fd → Option File} (hB : s.procs .childB = .program .grep fds) {e : Event}
    (h : step E s e = some t) : t.procs .childB = .program .grep fds := by
  have hended : ∀ {p}, .childB ≠ p → (s.ended p).procs .childB = .program .grep fds := by
    intro p hp
    simp only [State.ended]
    rwa [Function.update_of_ne hp]
  cases moves_of_step hs h with
  | @call p ok reap u h' =>
    have hp : .childB ≠ p := by
      rintro rfl
      obtain ⟨k, fds', hk, -⟩ := act_self h'
      rw [hB] at hk
      cases hk
    obtain hu | ⟨_, _, hu, -⟩ | ⟨hu, -⟩ := act_other hp h'
    · exact hu.trans hB
    all_goals rw [hB] at hu; cases hu
  | fill | print => rwa [State.wrote_procs]
  | drain | type | eof => exact hB
  | @finish p _ _ hdone =>
    refine hended ?_
    rintro rfl
    rw [hdone.1] at heof
    cases heof
  | sigpipe hp => exact hended (by rcases hp with rfl | rfl <;> decide)

/-- Without them `main` does not return any more once the second child has executed `grep`, which
never sees the end of its input. -/
theorem never_returns (hopen : E.closed = false) (h : (machine E).run (init E) es = some s)
    {fds : Fd → Option File} (hB : s.procs .childB = .program .grep fds)
    (h' : (machine E).run s es' = some t) :
    (t.greps .childB).eof = false ∧ t.procs .childB = .program .grep fds ∧
      t.procs .parent ≠ .zombie := by
  have hstep : ∀ s e t, ((Sound E s ∧ (s.greps .childB).eof = false) ∧
      s.procs .childB = .program .grep fds) → (machine E).step s e = some t →
      (Sound E t ∧ (t.greps .childB).eof = false) ∧ t.procs .childB = .program .grep fds :=
    fun s e t hs h => ⟨⟨sound_step hs.1.1 h, no_eof_step hopen hs.1.1 hs.1.2 h⟩,
      runs_on_step hs.1.1 hs.1.2 hs.2 h⟩
  obtain ⟨⟨hsound, heof⟩, hruns⟩ := Machine.invariant_of_step hstep ⟨no_eof_run hopen h, hB⟩ h'
  exact ⟨heof, hruns, parent_ne_zombie hsound hruns⟩

/-- The same line, and the parent waits for ever. -/
theorem never_returns_oneLine :
    ∃ s fds, (machine { oneLine with closed := false }).run (init oneLine)
        [.call .parent true none, .call .parent true none, .call .childB true none,
          .call .childB true none, .call .childB true none, .call .childB true none] = some s ∧
      s.procs .childB = .program .grep fds ∧ ∀ es t,
        (machine { oneLine with closed := false }).run s es = some t →
          (t.greps .childB).eof = false ∧ t.procs .parent ≠ .zombie := by
  obtain ⟨s, hs, hB⟩ := Option.map_eq_some_iff.mp
    (rfl : ((machine { oneLine with closed := false }).run (init oneLine)
        [.call .parent true none, .call .parent true none, .call .childB true none,
          .call .childB true none, .call .childB true none, .call .childB true none]).map
        (fun s => s.procs .childB) = some (.program .grep (tab false .childB 9)))
  refine ⟨s, _, hs, hB, fun es t h => ?_⟩
  obtain ⟨heof, -, hparent⟩ := never_returns rfl hs hB h
  exact ⟨heof, hparent⟩

end Open

end LinuxRiscv32.Pipe2

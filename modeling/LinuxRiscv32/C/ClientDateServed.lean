import LinuxRiscv32.C.ClientDate

/-!
# What the client receives

`exists_step` and `length_le`: the handling of a client comes to an end, whatever fails.
`received_prefix` and `Told` say what is on the connection at any time, `Fine` what holds if nothing
has failed, and `served_of_run` puts it together.
-/

namespace LinuxRiscv32.ClientDate

open Common Kernel.Process

variable {β : Type*}

/-! ## The end -/

section Ends

variable {E : Env β} {s t : State β}

/-- The handler has ended, and the client has seen the end or has closed. -/
def Over (s : State β) : Prop := s.procs .handler = .zombie ∧ (s.eof ∨ s.hungup)

def Stuck (E : Env β) (s : State β) : Prop := ∀ e : Event, e.Succeeds → step E s e = none

/-- A process of the text is stuck only in front of a child that has not ended. -/
theorem stuck_text (hs : Sound s) (hstuck : Stuck E s) {p : Process} {k : ℕ}
    {fds : Fd → Option File} (hp : s.procs p = .text k fds) :
    ∃ c, parent c = some p ∧ (s.procs c).isGone = false ∧ s.procs c ≠ .zombie := by
  have hplace : ∀ p, ∀ k ∈ places p, k < text.length := by decide
  have hk := hplace p k (of_decide_eq_true (hs.1.valid hp).1)
  refine (hs.1.exists_child hp (List.getElem?_eq_getElem hk) fun reap => ?_).2
  have := hstuck (.call p true reap) rfl
  rwa [step, Option.map_eq_none_iff] at this

/-- The child has no child to wait for. -/
theorem stuck_childText (hs : Sound s) (hstuck : Stuck E s) (k : ℕ) (fds : Fd → Option File) :
    s.procs .child ≠ .text k fds := by
  intro h
  obtain ⟨c, hc, -⟩ := stuck_text hs hstuck h
  cases c <;> cases hc

/-- Nothing is left that the client could receive. -/
theorem stuck_client (hstuck : Stuck E s) : s.hungup ∨ s.connection = [] := by
  have hreceive : ¬ (s.hungup = false ∧ 0 < 1 ∧ 1 ≤ s.connection.length) :=
    Machine.guard_eq_none.mp (hstuck (.receive 1) trivial)
  by_contra h
  rw [not_or, Bool.not_eq_true] at h
  exact hreceive ⟨h.1, one_pos, List.length_pos_iff.mpr h.2⟩

/-- The program of the child could write unless the connection were full. -/
theorem stuck_childProgram (hcap : 0 < E.capacity) (hs : Sound s) (hstuck : Stuck E s) (q : Program)
    (fds : Fd → Option File) : s.procs .child ≠ .program q fds := by
  intro h
  have hstdout : fds .stdout = some .connection := by
    rw [(program_eq hs h).2]
    rfl
  have hfinish : ¬ s.output E q = [] :=
    Machine.guard_eq_none.mp (by simpa only [step, h] using hstuck .finish trivial)
  -- a client that has closed would end the program
  have hsigpipe : ¬ (fds .stdout = some .connection ∧ s.hungup ∧ s.output E q ≠ []) :=
    Machine.guard_eq_none.mp (by simpa only [step, h] using hstuck .sigpipe trivial)
  have hwrite : ¬ (fds .stdout = some .connection ∧ s.hungup = false ∧ 0 < 1 ∧
      1 ≤ (s.output E q).length ∧ s.connection.length + 1 ≤ E.capacity) :=
    Machine.guard_eq_none.mp (by simpa only [step, h] using hstuck (.write 1) trivial)
  have hup : s.hungup = false := by
    rw [← Bool.not_eq_true]
    exact fun hup => hsigpipe ⟨hstdout, hup, hfinish⟩
  obtain hhungup | hempty := stuck_client hstuck
  · rw [hup] at hhungup
    cases hhungup
  · refine hwrite ⟨hstdout, hup, one_pos, List.length_pos_iff.mpr hfinish, ?_⟩
    rw [hempty]
    exact hcap

/-- If nobody can go on, the handler has ended. -/
theorem stuck_handler (hcap : 0 < E.capacity) (hs : Sound s) (hstuck : Stuck E s) :
    s.procs .handler = .zombie := by
  cases h : s.procs .handler with
  | unborn | reaped =>
    have := hs.2
    rw [h] at this
    cases this
  | zombie => rfl
  | program => exact absurd (program_eq hs h).1 (by decide)
  | text k fds =>
    obtain ⟨c, hc, hgone, hzombie⟩ := stuck_text hs hstuck h
    obtain rfl : c = .child := by cases c <;> first | rfl | cases hc
    obtain ⟨_, _, hchild⟩ | ⟨_, _, hchild⟩ := Status.running_of_not_gone hgone hzombie
    · exact absurd hchild (stuck_childText hs hstuck _ _)
    · exact absurd hchild (stuck_childProgram hcap hs hstuck _ _)

/-- If nobody can go on, nobody has the connection open any more. -/
theorem stuck_not_isOpen (hcap : 0 < E.capacity) (hs : Sound s) (hstuck : Stuck E s) :
    ¬ IsOpen s.procs .connection := by
  rintro ⟨p, fd, h⟩
  obtain ⟨k, fds, hp, -⟩ | ⟨q, fds, hp, -⟩ := Status.running_of_fds h
  · cases p with
    | handler =>
      rw [stuck_handler hcap hs hstuck] at hp
      cases hp
    | child => exact stuck_childText hs hstuck _ _ hp
  · obtain ⟨rfl, -⟩ := program_eq hs hp
    exact stuck_childProgram hcap hs hstuck _ _ hp

/-- As long as it is not over somebody can take a step, and no call has to fail for it. -/
theorem exists_step (hcap : 0 < E.capacity) (hs : Sound s) (hover : ¬ Over s) :
    ∃ e t, e.Succeeds ∧ step E s e = some t := by
  refine (machine E).exists_step_of_not_stuck fun hstuck : Stuck E s => ?_
  have hopen := stuck_not_isOpen hcap hs hstuck
  refine hover ⟨stuck_handler hcap hs hstuck, ?_⟩
  by_contra hend
  rw [not_or, Bool.not_eq_true, Bool.not_eq_true] at hend
  have hempty : s.connection = [] := (stuck_client hstuck).resolve_left (by simp [hend.2])
  exact Machine.guard_eq_none.mp (hstuck .eof trivial) ⟨hend.2, hend.1, hempty, hopen⟩

/-- The longest content. -/
def Env.most (E : Env β) : ℕ := max E.date.length E.held.length

theorem length_content_le (E : Env β) (q : Program) : (E.content q).length ≤ E.most := by
  cases q
  · exact le_max_left ..
  · exact le_max_right ..

/-- Somebody who has not been reaped can be. -/
def unreaped : Status Fd File Program → ℕ
  | .reaped => 0
  | .unborn | .text _ _ | .program _ _ | .zombie => 1

/-- The steps that are left: a byte of the child is written and received. -/
def measure (E : Env β) (s : State β) : ℕ :=
  weights.total s.procs + unreaped (s.procs .child) + 2 * (E.most - s.put) + s.connection.length +
    (!s.eof).toNat + (!s.hungup).toNat

theorem unreaped_act {p : Process} {ok : Bool} {reap : Option Process}
    {u : Process → Status Fd File Program} (h : act family s.procs p ok reap = some u) :
    unreaped (u .child) ≤ unreaped (s.procs .child) := by
  have hone : ∀ x : Status Fd File Program, unreaped x ≤ 1 := fun x => by
    cases x <;> simp [unreaped]
  cases hchild : s.procs .child with
  | unborn | text | program | zombie => exact hone _
  | reaped =>
    have hp : .child ≠ p := by
      rintro rfl
      obtain ⟨_, _, hp, -⟩ := act_self h
      rw [hchild] at hp
      cases hp
    obtain hu | ⟨_, _, hu, -⟩ | ⟨hu, -⟩ := act_other hp h
    · rw [hu, hchild]
    all_goals rw [hchild] at hu; cases hu

/-- Every step lowers the measure. -/
theorem measure_step (hs : Sound s) {e : Event} (h : step E s e = some t) :
    measure E t < measure E s := by
  cases moves_of_step hs h with
  | call h' =>
    have := Weights.total_act (W := weights) h'
    have := unreaped_act h'
    simp only [measure]
    omega
  | reap hz =>
    have := Weights.total_update (W := weights) s.procs .child .reaped
    rw [hz] at this
    simp only [Weights.weight] at this
    simp only [measure, Function.update_self, hz, unreaped]
    omega
  | @write q n hq hup hn hle =>
    have hlen := length_content_le E q
    have htake : ((s.output E q).take n).length = n := List.length_take_of_le hle
    rw [State.output, List.length_drop] at hle
    simp only [measure, List.length_append, htake]
    omega
  | finish hq | sigpipe hq =>
    have := Weights.total_update (W := weights) s.procs .child .zombie
    rw [hq] at this
    simp only [Weights.weight, weights] at this
    simp only [measure, Function.update_self, hq, unreaped, weights]
    omega
  | receive hn hle =>
    simp only [measure, List.length_drop]
    omega
  | eof _ heof =>
    simp only [measure, heof, Bool.not_false, Bool.not_true, Bool.toNat_true, Bool.toNat_false]
    omega
  | hangup hup =>
    simp only [measure, hup, Bool.not_false, Bool.not_true, Bool.toNat_true, Bool.toNat_false]
    omega

/-- At first the measure is the bound that `length_le` states. -/
theorem measure_init (E : Env β) : measure E (init E) = 12 + 2 * E.most + E.response.length := by
  have htotal : weights.total (init E).procs = 9 := rfl
  rw [measure, htotal]
  simp only [init, unreaped, Bool.not_false, Bool.toNat_true, Nat.sub_zero]
  rw [Function.update_of_ne (by decide)]
  dsimp only
  omega

/-- A run takes a bounded number of steps. -/
theorem length_le {es : List Event} (h : (machine E).run (init E) es = some s) :
    es.length ≤ 12 + 2 * E.most + E.response.length := by
  have := Machine.length_add_le (m := measure E)
    (fun s e t hs h => ⟨sound_step hs h, measure_step hs h⟩) (sound_init E) h
  rw [measure_init] at this
  omega

end Ends

/-! ## What the client receives -/

section Received

variable {E : Env β} {es : List Event} {s t : State β}

/-- What is on the connection behind the response. A program may have been killed if the client has
closed. -/
def Said (E : Env β) (s : State β) : Status Fd File Program → Prop
  | .unborn | .text _ _ => s.put = 0 ∧ s.received ++ s.connection = E.response
  | .program q _ =>
    s.put ≤ (E.content q).length ∧
      s.received ++ s.connection = E.response ++ (E.content q).take s.put
  | .zombie | .reaped =>
    s.received ++ s.connection = E.response ∨
    (∃ q, s.received ++ s.connection = E.response ++ E.content q) ∨
    (s.hungup ∧ ∃ q, s.received ++ s.connection = E.response ++ (E.content q).take s.put)

/-- What the client has received at the end of the stream. -/
def Whole (E : Env β) (s : State β) : Prop :=
  s.received = E.response ∨ ∃ q, s.received = E.response ++ E.content q

structure Told (E : Env β) (s : State β) : Prop where
  said : Said E s (s.procs .child)
  eof : s.eof → (s.connection = [] ∧ ¬ IsOpen s.procs .connection) ∧ Whole E s

/-- At first the client has received nothing but what is on its way. -/
theorem told_init (E : Env β) : Told E (init E) := ⟨⟨rfl, rfl⟩, nofun⟩

/-- The process of a child that has not come to its program, or to its end, has said nothing. -/
theorem Said.call (hf : Said E s (s.procs .child)) {p : Process} {ok : Bool}
    {reap : Option Process} {u : Process → Status Fd File Program}
    (h : act family s.procs p ok reap = some u) : Said E s (u .child) := by
  by_cases hp : .child = p
  · subst hp
    obtain ⟨k, fds, hk, ⟨_, _, hu⟩ | ⟨q, hu⟩ | hu⟩ := act_self h <;> rw [hk] at hf <;> rw [hu]
    · exact hf
    · obtain ⟨hput, hbytes⟩ := hf
      rw [Said, hput, List.take_zero, List.append_nil]
      exact ⟨Nat.zero_le _, hbytes⟩
    · exact .inl hf.2
  · obtain hu | ⟨_, _, hold, -, -, hu⟩ | ⟨hold, hu, -⟩ := act_other hp h
    · rwa [hu]
    · rw [hold] at hf
      rwa [hu]
    · rw [hold] at hf
      rwa [hu]

/-- Behind the end of the stream nobody has the connection open. -/
theorem Told.not_eof (hf : Told E s) {q : Program}
    (hq : s.procs .child = .program q (tab .child 3)) : ¬ s.eof :=
  fun heof => (hf.eof heof).1.2 ⟨.child, .stdout, by rw [hq]; rfl⟩

theorem take_append_drop_connection (n : ℕ) :
    (s.received ++ s.connection.take n) ++ s.connection.drop n = s.received ++ s.connection := by
  rw [List.append_assoc, List.take_append_drop]

/-- A step loses nothing between the one that writes and the client. -/
theorem told_step (hs : Sound s) (hf : Told E s) {e : Event} (h : step E s e = some t) :
    Told E t := by
  have hsaid := hf.said
  cases moves_of_step hs h with
  | call h' =>
    refine ⟨hsaid.call h', fun heof => ?_⟩
    obtain ⟨⟨hempty, hclosed⟩, hwhole⟩ := hf.eof heof
    exact ⟨⟨hempty, fun hopen => hclosed (isOpen_of_act h' hopen)⟩, hwhole⟩
  | reap hz =>
    rw [hz] at hsaid
    refine ⟨?_, fun heof => ?_⟩
    · simp only [Function.update_self]
      exact hsaid
    · obtain ⟨⟨hempty, hclosed⟩, hwhole⟩ := hf.eof heof
      exact ⟨⟨hempty, fun hopen => hclosed ((isOpen_update hopen).elim id nofun)⟩, hwhole⟩
  | @write q n hq hup hn hle =>
    rw [hq] at hsaid
    -- the bytes that are written are those behind the first `put`
    obtain ⟨hput, hbytes⟩ := hsaid
    rw [State.output, List.length_drop] at hle
    refine ⟨?_, fun heof => absurd heof (hf.not_eof hq)⟩
    dsimp only
    rw [hq]
    refine ⟨by dsimp only; omega, ?_⟩
    dsimp only
    rw [← List.append_assoc, hbytes, List.append_assoc, State.output, ← List.take_add]
  | @finish q hq hout =>
    rw [hq] at hsaid
    refine ⟨?_, fun heof => absurd heof (hf.not_eof hq)⟩
    simp only [Function.update_self]
    refine .inr (.inl ⟨q, hsaid.2.trans ?_⟩)
    rw [List.take_of_length_le (List.drop_eq_nil_iff.mp hout)]
  | @sigpipe q hq hup =>
    rw [hq] at hsaid
    refine ⟨?_, fun heof => absurd heof (hf.not_eof hq)⟩
    simp only [Function.update_self]
    exact .inr (.inr ⟨hup, q, hsaid.2⟩)
  | @receive n hn hle =>
    refine ⟨?_, fun heof => ?_⟩
    · dsimp only
      cases hchild : s.procs .child <;> rw [hchild] at hsaid <;>
        simpa only [Said, take_append_drop_connection] using hsaid
    · rw [(hf.eof heof).1.1] at hle
      exact absurd hle (by simpa using hn.ne')
  | eof hup heof hempty hclosed =>
    refine ⟨hsaid, fun _ => ⟨⟨hempty, hclosed⟩, ?_⟩⟩
    -- nobody has the connection open, so the child has not begun, or has ended
    cases hchild : s.procs .child with
    | unborn =>
      rw [hchild] at hsaid
      exact .inl (by simpa only [hempty, List.append_nil] using hsaid.2)
    | text => exact absurd (isOpen_of_text hs hchild (.inl rfl)) hclosed
    | program q fds =>
      refine absurd ⟨.child, .stdout, ?_⟩ hclosed
      rw [hchild, (program_eq hs hchild).2]
      rfl
    | zombie | reaped =>
      rw [hchild] at hsaid
      simp only [Said, hempty, List.append_nil, hup, Bool.false_eq_true, false_and,
        or_false] at hsaid
      exact hsaid
  | hangup hup =>
    refine ⟨?_, hf.eof⟩
    dsimp only
    cases hchild : s.procs .child with
    | unborn | text | program =>
      rw [hchild] at hsaid
      exact hsaid
    | zombie | reaped =>
      rw [hchild] at hsaid
      obtain h | h | ⟨-, h⟩ := hsaid
      · exact .inl h
      · exact .inr (.inl h)
      · exact .inr (.inr ⟨rfl, h⟩)

/-- No run loses anything between the one that writes and the client. -/
theorem told_run (h : (machine E).run (init E) es = some s) : Sound s ∧ Told E s :=
  Machine.invariant_of_step (I := fun s => Sound s ∧ Told E s)
    (fun _ _ _ hs h => ⟨sound_step hs.1 h, told_step hs.1 hs.2 h⟩) ⟨sound_init E, told_init E⟩ h

/-- At any time the client has received a part of the response and of one content behind it. -/
theorem received_prefix (hf : Told E s) : ∃ q, s.received <+: E.response ++ E.content q := by
  have hpre : ∀ {l}, s.received ++ s.connection = l → s.received <+: l := fun h =>
    h ▸ List.prefix_append ..
  have hsaid := hf.said
  cases hchild : s.procs .child with
  | unborn | text =>
    rw [hchild] at hsaid
    exact ⟨.date, (hpre hsaid.2).trans (List.prefix_append ..)⟩
  | program q =>
    rw [hchild] at hsaid
    exact ⟨q, (hpre hsaid.2).trans (List.prefix_append_right_inj _ |>.mpr (List.take_prefix ..))⟩
  | zombie | reaped =>
    rw [hchild] at hsaid
    obtain h | ⟨q, h⟩ | ⟨-, q, h⟩ := hsaid
    · exact ⟨.date, (hpre h).trans (List.prefix_append ..)⟩
    · exact ⟨q, hpre h⟩
    · exact ⟨q, (hpre h).trans (List.prefix_append_right_inj _ |>.mpr (List.take_prefix ..))⟩

end Received

/-! ## Runs in which nothing fails -/

section Fine

variable {E : Env β} {es : List Event} {s t : State β} {u : Process → Status Fd File Program}

/-- How far the child has come if no `fork` and no `execlp` has failed. -/
structure OnTime (procs : Process → Status Fd File Program) : Prop where
  unborn : procs .child = .unborn → procs .handler = .text 0 opened
  early : ∀ k fds, procs .child = .text k fds → k ≤ 3
  program : ∀ q fds, procs .child = .program q fds → q = .date

/-- Up to its `execl` the child only moves its descriptors. -/
theorem child_instr : ∀ k ∈ places .child, k ≤ 3 → ∀ i ∈ text[k]?,
    (k < 3 ∧ (i = .dup2 .clientfd .stdout ∨ i = .close .clientfd)) ∨ i = .execl .date := by
  decide

/-- A child that is on time gets to `date`, and does not end on the way. -/
theorem onTime_child (hs : Sound s) (ht : OnTime s.procs) {reap : Option Process}
    (h : act family s.procs .child true reap = some u) :
    OnTime u ∧ ((u .child).Dead → (s.procs .child).Dead) := by
  have instr : ∀ {k : ℕ} {fds : Fd → Option File} {i : Instr Fd Program},
      s.procs .child = .text k fds → text[k]? = some i →
        (k < 3 ∧ (i = .dup2 .clientfd .stdout ∨ i = .close .clientfd)) ∨ i = .execl .date :=
    fun hk hi => child_instr _ (of_decide_eq_true (hs.1.valid hk).1) (ht.early _ _ hk) _ hi
  have step : ∀ {k : ℕ} {fds : Fd → Option File}, k ≤ 3 →
      OnTime (Function.update s.procs .child (.text k fds)) := by
    intro k fds hle
    refine ⟨fun h => ?_, fun _ _ h => ?_, fun _ _ h => ?_⟩ <;> rw [Function.update_self] at h <;>
      cases h
    exact hle
  cases performs_of_act h with
  | dup2 hk hi | close hk hi =>
    obtain ⟨hlt, -⟩ | h := instr hk hi
    · refine ⟨step hlt, fun h => ?_⟩
      rw [Function.update_self] at h
      exact absurd h (Status.not_dead_of_text rfl)
    · cases h
  | @execl k fds q hk hi =>
    obtain ⟨-, h | h⟩ | h := instr hk hi <;> cases h
    refine ⟨⟨fun h => ?_, fun _ _ h => ?_, fun _ _ h => ?_⟩, fun h => ?_⟩ <;>
      rw [Function.update_self] at h
    · cases h
    · cases h
    · exact (Status.program.inj h).1.symm
    · exact absurd h (Status.not_dead_of_program rfl)
  | fork hk hi | reaps hk hi | noChild hk hi | exit hk hi =>
    obtain ⟨-, h | h⟩ | h := instr hk hi <;> cases h

/-- The handler forks the child at its first place, and later only reaps it. -/
theorem onTime_handler (ht : OnTime s.procs) {reap : Option Process}
    (h : act family s.procs .handler true reap = some u) :
    OnTime u ∧ ((u .child).Dead → (s.procs .child).Dead) := by
  obtain hu | ⟨k, fds, hold, hk, -, hu⟩ | ⟨hold, hu, -⟩ :=
    act_other (show Process.child ≠ .handler by decide) h
  · refine ⟨⟨fun h' => ?_, fun _ _ h' => ht.early _ _ (hu ▸ h'), fun _ _ h' =>
      ht.program _ _ (hu ▸ h')⟩, fun h' => hu ▸ h'⟩
    -- a child that is still not born was not forked, but it was the place to do it
    rw [hu] at h'
    have hhandler := ht.unborn h'
    cases performs_of_act h with
    | fork hk hi hc =>
      rw [Function.update_of_ne (by decide)] at hu
      exact absurd ((Function.update_self ..).symm.trans (hu.trans h')) nofun
    | dup2 hk hi | close hk hi | execl hk hi | reaps hk hi | noChild hk hi | exit hk hi =>
      rw [hhandler] at hk
      cases hk
      cases hi
  · rw [ht.unborn hold] at hk
    cases hk
    refine ⟨⟨fun h' => ?_, fun _ _ h' => ?_, fun _ _ h' => ?_⟩, fun h' => ?_⟩ <;> rw [hu] at h'
    · cases h'
    · cases h'
      decide
    · cases h'
    · exact absurd h' (Status.not_dead_of_text rfl)
  · refine ⟨⟨fun h' => ?_, fun _ _ h' => ?_, fun _ _ h' => ?_⟩, fun _ => .inl hold⟩ <;>
      rw [hu] at h' <;> cases h'

/-- A call that succeeds leaves the child on its way to `date`. -/
theorem onTime_act (hs : Sound s) (ht : OnTime s.procs) {p : Process} {reap : Option Process}
    (h : act family s.procs p true reap = some u) :
    OnTime u ∧ ((u .child).Dead → (s.procs .child).Dead) := by
  cases p with
  | handler => exact onTime_handler ht h
  | child => exact onTime_child hs ht h

/-- What holds as long as no call has failed and the client has not closed. -/
structure Fine (E : Env β) (s : State β) : Prop where
  onTime : OnTime s.procs
  up : s.hungup = false
  dead : (s.procs .child).Dead → s.received ++ s.connection = E.response ++ E.date
  eof : s.eof → s.received = E.response ++ E.date

theorem fine_init (E : Env β) : Fine E (init E) :=
  ⟨⟨fun _ => rfl, nofun, nofun⟩, rfl, (by rintro (h | h) <;> cases h), nofun⟩

/-- The child ends or is reaped. -/
theorem onTime_ends {x : Status Fd File Program} (hx : x.Dead) :
    OnTime (Function.update s.procs .child x) := by
  refine ⟨fun h => ?_, fun k fds h => ?_, fun q fds h => ?_⟩ <;> rw [Function.update_self] at h <;>
    subst h
  · rcases hx with h | h <;> cases h
  · exact absurd hx (Status.not_dead_of_text rfl)
  · exact absurd hx (Status.not_dead_of_program rfl)

/-- A step that succeeds keeps the child on its way to all of `date`. -/
theorem fine_step (hs : Sound s) (hf : Told E s) (hfine : Fine E s) {e : Event} (he : e.Succeeds)
    (h : step E s e = some t) : Fine E t := by
  cases moves_of_step hs h with
  | @call p ok reap u h' =>
    obtain rfl : ok = true := he
    obtain ⟨ht, hdead⟩ := onTime_act hs hfine.onTime h'
    exact ⟨ht, hfine.up, fun h => hfine.dead (hdead h), hfine.eof⟩
  | reap hz =>
    exact ⟨onTime_ends (.inr rfl), hfine.up, fun _ => hfine.dead (.inl hz), hfine.eof⟩
  | write hq =>
    exact ⟨hfine.onTime, hfine.up, fun h => absurd h (Status.not_dead_of_program hq), hfine.eof⟩
  | @finish q hq hout =>
    obtain rfl := hfine.onTime.program _ _ hq
    have hsaid := hf.said
    rw [hq] at hsaid
    refine ⟨onTime_ends (.inl rfl), hfine.up, fun _ => hsaid.2.trans ?_, hfine.eof⟩
    rw [List.take_of_length_le (List.drop_eq_nil_iff.mp hout)]
    rfl
  | sigpipe hq hup =>
    rw [hfine.up] at hup
    cases hup
  | receive hn hle =>
    refine ⟨hfine.onTime, hfine.up, fun h => ?_, fun heof => ?_⟩
    · rw [← hfine.dead h]
      exact take_append_drop_connection _
    · rw [(hf.eof heof).1.1] at hle
      exact absurd hle (by simpa using hn.ne')
  | eof hup heof hempty hclosed =>
    refine ⟨hfine.onTime, hfine.up, hfine.dead, fun _ => ?_⟩
    have hdead := hfine.dead
    rw [hempty, List.append_nil] at hdead
    cases hchild : s.procs .child with
    | unborn =>
      exact absurd (isOpen_of_text hs (hfine.onTime.unborn hchild) (.inr (Nat.zero_le _))) hclosed
    | text => exact absurd (isOpen_of_text hs hchild (.inl rfl)) hclosed
    | program q fds =>
      refine absurd ⟨.child, .stdout, ?_⟩ hclosed
      rw [hchild, (program_eq hs hchild).2]
      rfl
    | zombie => exact hdead (.inl hchild)
    | reaped => exact hdead (.inr hchild)
  | hangup => exact absurd he id

/-- After a run in which nothing fails, the child is on its way to all of `date`. -/
theorem fine_run (h : (machine E).run (init E) es = some s) (hok : ∀ e ∈ es, e.Succeeds) :
    Fine E s := by
  have hstep : ∀ s e t, ((Sound s ∧ Told E s) ∧ Fine E s) → e.Succeeds →
      (machine E).step s e = some t → (Sound t ∧ Told E t) ∧ Fine E t := fun s e t hs he h =>
    ⟨⟨sound_step hs.1.1 h, told_step hs.1.1 hs.1.2 h⟩, fine_step hs.1.1 hs.1.2 hs.2 he h⟩
  exact (Machine.invariant hstep ⟨⟨sound_init E, told_init E⟩, fine_init E⟩
    ((Machine.along_iff_forall_mem h).mpr hok) h).2

/-- The client gets the response with the date behind it, in order, and then the end of the stream;
whatever fails the stream ends, with a part of this or of what `exit(1)` writes, and the handler
leaves no child behind. -/
theorem served_of_run (hcap : 0 < E.capacity) (h : (machine E).run (init E) es = some s) :
    es.length ≤ 12 + 2 * E.most + E.response.length ∧
    (¬ Over s → ∃ e t, e.Succeeds ∧ step E s e = some t) ∧
    (s.procs .handler = .zombie → (s.procs .child).isGone) ∧
    (∃ q, s.received <+: E.response ++ E.content q) ∧
    (s.eof → Whole E s ∧ ¬ IsOpen s.procs .connection) ∧
    ((∀ e ∈ es, e.Succeeds) → s.eof → s.received = E.response ++ E.date) := by
  obtain ⟨hs, hf⟩ := told_run h
  refine ⟨length_le h, exists_step hcap hs, fun hzombie => ?_, received_prefix hf,
    fun heof => ⟨(hf.eof heof).2, (hf.eof heof).1.2⟩, fun hok => (fine_run h hok).eof⟩
  refine hs.1.waits.gone (fun k fds hk => ?_) (rfl : parent .child = some .handler)
  rw [hzombie] at hk
  cases hk

/-- The date in two portions, and a child that is reaped by the handler of the signal. -/
def twoPortions : Env Char where
  capacity := 16
  response := "Hello!\n".toList
  date := "Thu Jan  1".toList
  held := []

def twoPortionsRun : List Event :=
  [.call .handler true none, .call .child true none, .call .child true none,
    .call .child true none, .write 9, .receive 10, .write 1, .finish, .reap,
    .call .handler true none, .receive 7, .call .handler true none, .call .handler true none, .eof]

theorem served_of_run_twoPortions :
    ∃ s, (machine twoPortions).run (init twoPortions) twoPortionsRun = some s ∧
      s.received = "Hello!\nThu Jan  1".toList := by
  obtain ⟨s, hs, heof⟩ := Option.map_eq_some_iff.mp
    (rfl : ((machine twoPortions).run (init twoPortions) twoPortionsRun).map State.eof = some true)
  exact ⟨s, hs, (served_of_run (by decide) hs).2.2.2.2.2 (by decide) heof⟩

end Fine

end LinuxRiscv32.ClientDate

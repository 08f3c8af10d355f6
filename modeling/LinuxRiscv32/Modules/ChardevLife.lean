import LinuxRiscv32.Kernel.Module
import LinuxRiscv32.Kernel.Vfs

/-!
# Loading and unloading `chardev`

Reference: `modules/chardev.c` (`mychar_init`, `mychar_exit`), `modules/mychardev.c`.

The init function of `chardev` acquires a page, a device number, a `cdev`, a class and a device, and
its labels undo what was done before a stage that fails. An open file, and a mapping of it, pins the
module through `my_cdev.owner`, so neither outlives the page. `mychardev` ignores what its calls
return.
-/

namespace LinuxRiscv32.ChardevLife

open Common Common.Stages Kernel Module

/-- What `mychar_init` acquires. -/
inductive Resource where
  | kernelBuffer
  | devNumber
  | myCdev
  | myClass
  | myDevice
deriving DecidableEq, Repr

/-- The results of the calls in `mychar_init`, with the major number that is assigned. -/
structure InitCalls where
  kernelBuffer : Bool
  devNumber : Except Errno ℕ
  myCdev : Except Errno Unit
  myClass : Except Errno Unit
  myDevice : Except Errno Unit

/-- What an init function returns, its calls, and its messages. -/
structure InitResult where
  ret : ℤ
  calls : List (Action Resource)
  log : List String

/-- What is done from the label `fail_cdev` on. -/
def failCdev : List (Action Resource) := [.release .devNumber, .release .kernelBuffer]

def failClass : List (Action Resource) := .release .myCdev :: failCdev

def failDevice : List (Action Resource) := .release .myClass :: failClass

/-- `mychar_init` of `chardev`. -/
def mycharInit (c : InitCalls) : InitResult :=
  if ¬ c.kernelBuffer then
    { ret := -ENOMEM, calls := [], log := ["mychardev: Failed to allocate buffer\n"] }
  else
    let calls := [.acquire .kernelBuffer]
    match c.devNumber with
    | .error e => { ret := e.code, calls := calls ++ [.release .kernelBuffer], log := [] }
    | .ok major =>
      let calls := calls ++ [.acquire .devNumber]
      match c.myCdev with
      | .error e => { ret := e.code, calls := calls ++ failCdev, log := [] }
      | .ok () =>
        let calls := calls ++ [.acquire .myCdev]
        match c.myClass with
        | .error e => { ret := e.code, calls := calls ++ failClass, log := [] }
        | .ok () =>
          let calls := calls ++ [.acquire .myClass]
          match c.myDevice with
          | .error e => { ret := e.code, calls := calls ++ failDevice, log := [] }
          | .ok () =>
            { ret := 0, calls := calls ++ [.acquire .myDevice]
              log := [s!"mychardev: Loaded (Major={major}, Minor=0)\n"] }

/-- `mychar_exit` of `chardev`. -/
def mycharExit : List (Action Resource) :=
  [.release .myDevice, .release .myClass, .release .myCdev, .release .devNumber,
    .release .kernelBuffer]

/-- `modules/chardev.c`. The number of the `cdev` can be opened as soon as it is added. -/
def chardev : Module (List Resource) (Action Resource) InitCalls :=
  ofStages (fun c => ((mycharInit c).ret, (mycharInit c).calls)) (fun _ => mycharExit) .myCdev .pins

/-! ## One load -/

def all : List Resource := [.kernelBuffer, .devNumber, .myCdev, .myClass, .myDevice]

/-- Whatever its calls return, `mychar_init` takes the stages in order and undoes them. -/
theorem attempts_mycharInit (c : InitCalls) :
    Attempts all ((mycharInit c).ret, (mycharInit c).calls) := by
  unfold mycharInit
  split
  · exact .inr ⟨by decide, [], List.nil_prefix, rfl⟩
  split
  next e _ => exact .inr ⟨e.neg, [.kernelBuffer], ⟨_, rfl⟩, rfl⟩
  split
  next e _ => exact .inr ⟨e.neg, [.kernelBuffer, .devNumber], ⟨_, rfl⟩, rfl⟩
  split
  next e _ => exact .inr ⟨e.neg, [.kernelBuffer, .devNumber, .myCdev], ⟨_, rfl⟩, rfl⟩
  split
  next e _ => exact .inr ⟨e.neg, [.kernelBuffer, .devNumber, .myCdev, .myClass], ⟨_, rfl⟩, rfl⟩
  next => exact .inl ⟨le_rfl, rfl⟩

theorem nodup_all : all.Nodup := by decide

/-- The module fits the life cycle. -/
theorem staged_chardev : chardev.Staged (· = []) (Within all) :=
  staged_ofStages (fun _ => all) within_nil (fun _ _ => id) (fun _ => nodup_all)
    attempts_mycharInit fun _ _ => rfl

/-- **The page outlives its users.** In every run of loads, whatever their calls return, of unloads,
and of opens, mappings and closes in between: no call releases what is not held or acquires what is,
nothing is held behind a load that fails or an unload, and everything while the module is loaded. If
nobody opens the device during a load that fails, every open file and every mapping finds the `cdev`
and the page in place, and the module is not unloaded before they are gone. -/
theorem life_of_run {F : Type*} [DecidableEq F] {es : List (Event InitCalls F)}
    {t : State (List Resource) (Action Resource) F}
    (hrun : chardev.machine.run chardev.start es = some t) :
    (∀ a, t.next = some a → ∃ held, Stages.apply t.holds a = some held) ∧
    (t.status = .absent → t.holds = []) ∧
    (t.status = .live → t.holds = all.reverse) ∧
    (chardev.machine.Along (fun s e => chardev.calm s e) chardev.start es → t.users ≠ [] →
      .myCdev ∈ t.holds ∧ .kernelBuffer ∈ t.holds ∧ ∀ as, t.status ≠ .going as) := by
  have hsettled := settled_of_run staged_chardev hrun
  refine ⟨fun a ha => hsettled.next ha, fun hstatus => ?_, fun hstatus => ?_, fun hG husers => ?_⟩
  · rw [Settled, hstatus] at hsettled
    exact hsettled
  · rw [Settled, hstatus] at hsettled
    obtain ⟨c, -, hholds⟩ :=
      loaded_ofStages (fun _ => all) (fun _ => nodup_all) attempts_mycharInit hsettled
    exact hholds
  · obtain ⟨hopen, hpins⟩ := inside_of_run staged_chardev hrun hG husers
    have hcdev : .myCdev ∈ t.holds := of_decide_eq_true hopen
    have hpage := (hsettled.holds staged_chardev).mem [.kernelBuffer, .devNumber] rfl
      (by decide) hcdev List.mem_cons_self
    refine ⟨hcdev, hpage, fun as hgoing => ?_⟩
    rcases hpins rfl with hlive | ⟨ret, as', hcoming, -⟩
    · rw [hgoing] at hlive
      cases hlive
    · rw [hgoing] at hcoming
      cases hcoming

/-- The calls of a load that gets the major number 240. -/
def allOk : InitCalls := ⟨true, .ok 240, .ok (), .ok (), .ok ()⟩

/-- The module is loaded, and the device is opened, mapped and closed. -/
def openAndMap : List (Event InitCalls ℕ) :=
  .load allOk :: List.replicate 6 .act ++ [.enter 0, .again 0, .leave 0]

/-- The mapping is still there. -/
theorem life_of_run_openAndMap :
    let t := (chardev.machine.run chardev.start openAndMap).get (by decide)
    t.status = .live ∧ t.users = [0] ∧ t.holds = all.reverse ∧ .kernelBuffer ∈ t.holds := by
  intro t
  have hlife := life_of_run (t := t) (Option.some_get _).symm
  exact ⟨rfl, rfl, hlife.2.2.1 rfl, (hlife.2.2.2 (by decide) (by decide)).2.1⟩

/-- The device is opened by its number before the class is found to be there already, and the page
is released under the open file. -/
example : ∃ t, chardev.machine.run chardev.start
    (.load { allOk with myClass := .error ⟨-17, by decide⟩ } ::
      [.act, .act, .act, .enter 0, .act, .act, .act, .act]) = some t ∧
    t.users = [0] ∧ t.holds = ([] : List Resource) :=
  ⟨_, rfl, rfl, rfl⟩

/-! ## `mychardev` -/

/-- A call whose result is ignored. -/
def attempt (ok : Bool) (r : Resource) : List (Action Resource) := if ok then [.acquire r] else []

/-- `mychar_init` of `mychardev`, whose buffer is a static array. `dev_number` stays 0 if none is
assigned. -/
def mychardevInit (c : InitCalls) : InitResult where
  ret := 0
  calls := attempt c.devNumber.isOk .devNumber ++ attempt c.myCdev.isOk .myCdev ++
    attempt c.myClass.isOk .myClass ++ attempt c.myDevice.isOk .myDevice
  log :=
    let major := c.devNumber.toOption.getD 0
    [s!"mychardev: Major={major}, Minor=0\n"]

/-- `mychar_exit` of `mychardev`. -/
def mychardevExit : List (Action Resource) :=
  [.release .myDevice, .release .myClass, .release .myCdev, .release .devNumber]

/-- Whether the call for a resource succeeds. -/
def InitCalls.succeeds (c : InitCalls) : Resource → Bool
  | .kernelBuffer => c.kernelBuffer
  | .devNumber => c.devNumber.isOk
  | .myCdev => c.myCdev.isOk
  | .myClass => c.myClass.isOk
  | .myDevice => c.myDevice.isOk

def mychardevAll : List Resource := [.devNumber, .myCdev, .myClass, .myDevice]

/-- An attempt for the first resource, and the others. -/
theorem setup_filter (ok : Resource → Bool) (r : Resource) (rs : List Resource) :
    setup ((r :: rs).filter ok) = attempt (ok r) r ++ setup (rs.filter ok) := by
  rw [List.filter_cons, attempt]
  split <;> rfl

/-- What a load of `mychardev` acquires is all that its calls succeed for. -/
theorem calls_mychardevInit (c : InitCalls) :
    (mychardevInit c).calls = setup (mychardevAll.filter c.succeeds) := by
  have hnil : setup ([] : List Resource) = [] := rfl
  simp only [mychardevAll, setup_filter, List.filter_nil, hnil, List.append_nil, mychardevInit,
    List.append_assoc]
  rfl

/-- A module that was loaded with a call that failed releases what it does not hold when it is
unloaded. -/
theorem mychardev_unload_iff (c : InitCalls) :
    (Stages.machine Resource).run [] ((mychardevInit c).calls ++ mychardevExit) = some [] ↔
      ∀ r ∈ mychardevAll, c.succeeds r := by
  have hnodup : (mychardevAll.filter c.succeeds).Nodup :=
    List.Nodup.filter _ (by decide : mychardevAll.Nodup)
  have hexit : mychardevExit = teardown mychardevAll := rfl
  rw [calls_mychardevInit, hexit, run_setup_teardown_iff hnodup, List.filter_eq_self]

end LinuxRiscv32.ChardevLife

import TwoWire.BusClear
import TwoWire.Proofs.Execution
/-!
# The course of a clearing

Whatever the board answers, a clearing of the bus takes one of few courses. One sample tells whether
the bus is free. If it is not, the pads are taken from the controller, its queues are emptied of what
they hold, and pulses follow until SDA is found high after one that ended with SCL high, or until the
limit is reached; then the pads go back and a last sample tells the outcome. Every course can come
up, and nothing else can. It does not matter how many of its steps are made one by one.
-/
namespace TwoWire

namespace Access

/-- Every access but a look at a pin and a pause. -/
def isAct : Access → Bool
  | readPin _ => false
  | delay _ => false
  | _ => true

end Access

/-- What a trace does besides looking at pins and pausing. -/
def acts (trace : List Event) : List Event := trace.filter fun e => e.access.isAct

theorem acts_append (first second : List Event) :
    acts (first ++ second) = acts first ++ acts second :=
  List.filter_append first second

/-- Each line that is driven is let go again later on. -/
def LetsGo (trace : List Event) : Prop :=
  ∀ before pin level after, trace = before ++ ⟨.drivePin pin level, ()⟩ :: after →
    ⟨.turnPin pin .input, ()⟩ ∈ after

theorem letsGo_nil : LetsGo [] := by
  intro before pin level after h
  simp at h

theorem letsGo_cons {e : Event} {rest : List Event} :
    LetsGo (e :: rest) ↔
      (∀ pin level, e = ⟨.drivePin pin level, ()⟩ → ⟨.turnPin pin .input, ()⟩ ∈ rest) ∧
        LetsGo rest := by
  constructor
  · intro h
    refine ⟨fun pin level he => h [] pin level rest (by rw [he]; rfl), ?_⟩
    intro before pin level after hrest
    exact h (e :: before) pin level after (by rw [hrest]; rfl)
  · rintro ⟨hfirst, hrest⟩ before pin level after h
    cases before with
    | nil =>
      obtain ⟨he, rfl⟩ := List.cons.inj h
      exact hfirst pin level he
    | cons _ before => exact hrest before pin level after (List.cons.inj h).2

theorem LetsGo.append {first second : List Event} (hfirst : LetsGo first)
    (hsecond : LetsGo second) : LetsGo (first ++ second) := by
  induction first with
  | nil => exact hsecond
  | cons e rest ih =>
    obtain ⟨he, hrest⟩ := letsGo_cons.mp hfirst
    exact letsGo_cons.mpr
      ⟨fun pin level h => List.mem_append_left _ (he pin level h), ih hrest⟩

namespace BusClear
open Program

/-! ## Courses -/

/-- The levels that the board shows at one pulse. -/
structure Pulse where
  /-- SDA before the pulse. -/
  sda : Bool
  /-- SCL when it has just been let go. -/
  early : Bool
  /-- SCL after a first time to rise. -/
  late : Bool
  /-- SCL at the end of the pulse. -/
  scl : Bool

/-- The pause that a line gets if it is still low. -/
def pauseUnless (high : Bool) (nanoseconds : UInt32) : List Event :=
  if high then [] else [⟨.delay nanoseconds, ()⟩]

/-- A look at SDA, and a pulse after it. -/
def Pulse.trace (scl sda : UInt32) (p : Pulse) : List Event :=
  [⟨.readPin sda, p.sda⟩, ⟨.drivePin scl false, ()⟩, ⟨.delay 5, ()⟩, ⟨.drivePin sda false, ()⟩,
    ⟨.delay 5, ()⟩, ⟨.turnPin scl .input, ()⟩, ⟨.delay 5, ()⟩, ⟨.readPin scl, p.early⟩] ++
  (pauseUnless p.early 20 ++ (⟨.readPin scl, p.late⟩ :: (pauseUnless p.late 10000 ++
    [⟨.readPin scl, p.scl⟩, ⟨.turnPin sda .input, ()⟩, ⟨.delay 5, ()⟩])))

/-- What a pulse does to the lines. -/
def pulseActs (scl sda : UInt32) : List Event :=
  [⟨.drivePin scl false, ()⟩, ⟨.drivePin sda false, ()⟩, ⟨.turnPin scl .input, ()⟩,
    ⟨.turnPin sda .input, ()⟩]

/-- How the queues of the controller are emptied of what the sample shows; `byte` is what the read
queue holds. -/
def unblocking (sample byte : UInt32) : List Event :=
  if (Status.mk sample).has .readFull then
    [⟨.writeRegister .writeData FifoWord.stop.bits, ()⟩, ⟨.readRegister .readData, byte⟩]
  else if (Status.mk sample).has .busMaster then
    [⟨.writeRegister .writeData (FifoWord.data 0xff true).bits, ()⟩]
  else []

/-- The look at SDA after the last pulse, if there is one. -/
def look (sda : UInt32) (found : Option Bool) : List Event :=
  found.toList.map fun level => ⟨.readPin sda, level⟩

/-- The pads go back, and the bus is looked at. -/
def restoring (last : UInt32) : List Event :=
  [⟨.routePads true, ()⟩, ⟨.delay 10, ()⟩, ⟨.readRegister .status, last⟩]

/-- The outcome that the last sample tells. -/
def ending (pulses : Nat) (last : UInt32) : ClearOutcome :=
  if (Status.mk last).isBusy then .stillBusy else .cleared pulses

/-- What the board shows in the course of a clearing. -/
inductive Course
  | free (sample : UInt32)
  /-- `found` is SDA after the last pulse, if it is looked at then. -/
  | pulsed (sample byte : UInt32) (pulses : List Pulse) (found : Option Bool) (last : UInt32)

namespace Course

def trace (scl sda : UInt32) : Course → List Event
  | free sample => [⟨.readRegister .status, sample⟩]
  | pulsed sample byte pulses found last =>
    [⟨.readRegister .status, sample⟩, ⟨.routePads false, ()⟩] ++ (unblocking sample byte ++
      (pulses.flatMap (Pulse.trace scl sda) ++ (look sda found ++ restoring last)))

/-- What is done in the course, besides looking at pins and pausing. -/
def acts (scl sda : UInt32) : Course → List Event
  | free sample => [⟨.readRegister .status, sample⟩]
  | pulsed sample byte pulses _ last =>
    [⟨.readRegister .status, sample⟩, ⟨.routePads false, ()⟩] ++ (unblocking sample byte ++
      ((List.replicate pulses.length (pulseActs scl sda)).flatten ++
        [⟨.routePads true, ()⟩, ⟨.readRegister .status, last⟩]))

def outcome : Course → ClearOutcome
  | free _ => .notNeeded
  | pulsed _ _ pulses _ last => ending pulses.length last

end Course

/-- After `n` pulses SDA is found high, and the last of them ended with SCL high; before the first
one SCL counts as `high`. -/
def FreedAfter (high : Bool) (pulses : List Pulse) (found : Option Bool) (n : Nat) : Prop :=
  (pulses.map Pulse.sda ++ found.toList)[n]? = some true ∧
    (high :: pulses.map Pulse.scl)[n]? = some true

/-- The pulses are as many as it takes after `issued` others: no fewer of them freed the bus, and
they freed it or reached the limit. In the latter case nothing is looked at any more. -/
structure Suffice (issued : Nat) (high : Bool) (pulses : List Pulse) (found : Option Bool) :
    Prop where
  within : issued + pulses.length ≤ pulseLimit
  fewer : ∀ n < pulses.length, ¬ FreedAfter high pulses found n
  freed : issued + pulses.length < pulseLimit → FreedAfter high pulses found pulses.length
  looked : found.isSome ↔ issued + pulses.length < pulseLimit

/-- Bits of a sample that say that the bus is not free. -/
def stuckMask : UInt32 := Status.Flag.busActive.mask ||| Status.Flag.writeFull.mask

/-- A course that a clearing can take. -/
def Course.Valid : Course → Prop
  | free sample => (Status.mk sample).meets stuckMask = false
  | pulsed sample _ pulses found _ =>
    (Status.mk sample).meets stuckMask = true ∧ 0 < pulses.length ∧ Suffice 0 false pulses found

/-! ## Numbers of pulses -/

section
variable {issued : Nat} {high : Bool} {p : Pulse} {rest : List Pulse} {found : Option Bool}

theorem freedAfter_zero :
    FreedAfter high (p :: rest) found 0 ↔ p.sda = true ∧ high = true := by
  simp [FreedAfter]

theorem freedAfter_succ (n : Nat) :
    FreedAfter high (p :: rest) found (n + 1) ↔ FreedAfter p.scl rest found n := Iff.rfl

/-- Short of the limit, no pulse suffices only if the bus is found free. -/
theorem suffice_nil_iff (hissued : issued < pulseLimit) :
    Suffice issued high [] found ↔ high = true ∧ found = some true := by
  constructor
  · intro h
    obtain ⟨hfound, hhigh⟩ := h.freed hissued
    cases found with
    | none => cases hfound
    | some level => exact ⟨Option.some.inj hhigh, hfound⟩
  · rintro ⟨rfl, rfl⟩
    exact ⟨Nat.le_of_lt hissued, nofun, fun _ => ⟨rfl, rfl⟩, iff_of_true rfl hissued⟩

/-- At the limit nothing is looked at any more. -/
theorem suffice_limit_iff : Suffice pulseLimit high [] found ↔ found = none := by
  have hlimit : ¬ pulseLimit + [].length (α := Pulse) < pulseLimit := Nat.lt_irrefl _
  constructor
  · intro h
    rw [← Option.not_isSome_iff_eq_none, h.looked]
    exact hlimit
  · rintro rfl
    exact ⟨Nat.le_refl _, nofun, fun h => absurd h hlimit, iff_of_false nofun hlimit⟩

/-- A pulse is made where the bus is not found free; the pulses after it are to suffice then. -/
theorem suffice_cons :
    Suffice issued high (p :: rest) found ↔
      (p.sda && high) = false ∧ Suffice (issued + 1) p.scl rest found := by
  have hlength : issued + (p :: rest).length = issued + 1 + rest.length := by
    rw [List.length_cons]
    omega
  have hzero : (p.sda && high) = false ↔ ¬ FreedAfter high (p :: rest) found 0 := by
    rw [freedAfter_zero, ← Bool.and_eq_true, Bool.not_eq_true]
  rw [hzero]
  constructor
  · rintro ⟨hwithin, hfewer, hfreed, hlooked⟩
    rw [hlength] at hwithin hfreed hlooked
    refine ⟨hfewer 0 (Nat.succ_pos _), hwithin, fun n hn => ?_, hfreed, hlooked⟩
    rw [← freedAfter_succ n]
    exact hfewer (n + 1) (Nat.succ_lt_succ hn)
  · rintro ⟨hfirst, hwithin, hfewer, hfreed, hlooked⟩
    rw [← hlength] at hwithin hfreed hlooked
    refine ⟨hwithin, fun n hn => ?_, hfreed, hlooked⟩
    cases n with
    | zero => exact hfirst
    | succ n =>
      rw [freedAfter_succ]
      exact hfewer n (Nat.lt_of_succ_lt_succ hn)

end

/-- A first pulse is always made. -/
theorem Suffice.length_pos {pulses : List Pulse} {found : Option Bool}
    (h : Suffice 0 false pulses found) : 0 < pulses.length := by
  cases pulses with
  | nil =>
    obtain ⟨-, hhigh⟩ := h.freed (by decide)
    cases hhigh
  | cons p rest => exact Nat.succ_pos _

/-! ## Executions of each part -/

theorem executes_stretch_bind {α : Type} {c : BusClear} {nanoseconds : UInt32}
    {f : Unit → Program α} {trace : List Event} {a : α} :
    (c.stretch nanoseconds >>= f).Executes trace a ↔
      ∃ high rest, trace = ⟨.readPin c.scl, high⟩ :: (pauseUnless high nanoseconds ++ rest) ∧
        (f ()).Executes rest a := by
  simp only [stretch, readPin, delay, access_bind, pure_bind, executes_access]
  refine exists_congr fun high => ?_
  cases high with
  | true => rfl
  | false =>
    simp only [Bool.false_eq_true, if_false, access_bind, pure_bind, executes_access]
    constructor
    · rintro ⟨_, rfl, _, rest, rfl, h⟩
      exact ⟨rest, rfl, h⟩
    · rintro ⟨rest, rfl, h⟩
      exact ⟨_, rfl, (), rest, rfl, h⟩

theorem executes_pulse {c next : BusClear} {issued : Nat} {trace : List Event} (level : Bool) :
    (∃ rest, trace = ⟨.readPin c.sda, level⟩ :: rest ∧ (c.pulse issued).Executes rest next) ↔
      ∃ p : Pulse, p.sda = level ∧ trace = p.trace c.scl c.sda ∧
        next = { c with state := .pulseClock (issued + 1), clockHigh := p.scl } := by
  simp only [pulse, readPin, drivePin, turnPin, delay, access_bind, pure_bind, executes_access,
    executes_stretch_bind, executes_pure]
  constructor
  · rintro ⟨_, rfl, _, _, rfl, _, _, rfl, _, _, rfl, _, _, rfl, _, _, rfl, _, _, rfl, early, _, rfl,
      late, _, rfl, high, _, rfl, _, _, rfl, _, _, rfl, rfl, rfl⟩
    exact ⟨⟨level, early, late, high⟩, rfl, rfl, rfl⟩
  · rintro ⟨p, rfl, rfl, rfl⟩
    exact ⟨_, rfl, (), _, rfl, (), _, rfl, (), _, rfl, (), _, rfl, (), _, rfl, (), _, rfl,
      p.early, _, rfl, p.late, _, rfl, p.scl, _, rfl, (), _, rfl, (), _, rfl, rfl, rfl⟩

/-- From `pulseClock`, either the pulsing ends or one more pulse is made. -/
theorem executes_pulseClock {c next : BusClear} {issued : Nat} (hissued : issued ≤ pulseLimit)
    {trace : List Event} :
    (c.pulseClock issued).Executes trace next ↔
      (∃ found, Suffice issued c.clockHigh [] found ∧ trace = look c.sda found ∧
        next = { c with state := .restorePads, pulses := issued }) ∨
      issued < pulseLimit ∧ ∃ p : Pulse, (p.sda && c.clockHigh) = false ∧
        trace = p.trace c.scl c.sda ∧
        next = { c with state := .pulseClock (issued + 1), clockHigh := p.scl } := by
  rw [pulseClock]
  split
  next hlimit =>
    obtain rfl := Nat.le_antisymm hissued hlimit
    simp [suffice_limit_iff, look]
  next hless =>
    rw [Nat.not_le] at hless
    simp only [readPin, access_bind, pure_bind, executes_access, suffice_nil_iff hless, hless,
      true_and]
    constructor
    · rintro ⟨level, rest, rfl, h⟩
      split at h
      next hfreed =>
        obtain ⟨rfl, rfl⟩ := executes_pure.mp h
        obtain ⟨rfl, hhigh⟩ := Bool.and_eq_true_iff.mp hfreed
        exact .inl ⟨some true, ⟨hhigh, rfl⟩, rfl, rfl⟩
      next hheld =>
        obtain ⟨p, rfl, htrace, hnext⟩ := (executes_pulse level).mp ⟨rest, rfl, h⟩
        exact .inr ⟨p, Bool.eq_false_iff.mpr hheld, htrace, hnext⟩
    · rintro (⟨_, ⟨hhigh, rfl⟩, rfl, rfl⟩ | ⟨p, hheld, htrace, hnext⟩)
      · refine ⟨true, [], rfl, ?_⟩
        rw [Bool.true_and, if_pos hhigh]
        exact executes_pure.mpr ⟨rfl, rfl⟩
      · obtain ⟨rest, htrace, h⟩ := (executes_pulse p.sda).mpr ⟨p, rfl, htrace, hnext⟩
        refine ⟨p.sda, rest, htrace, ?_⟩
        rw [if_neg (Bool.eq_false_iff.mp hheld)]
        exact h

theorem executes_restore {c next : BusClear} {trace : List Event} :
    c.restore.Executes trace next ↔
      ∃ last, trace = restoring last ∧ next = { c with state := .done (ending c.pulses last) } := by
  simp only [restore, routePads, delay, Controller.sample, readRegister, access_bind, pure_bind,
    executes_access, executes_pure]
  constructor
  · rintro ⟨_, _, rfl, _, _, rfl, last, _, rfl, rfl, rfl⟩
    exact ⟨last, rfl, rfl⟩
  · rintro ⟨last, rfl, rfl⟩
    exact ⟨(), _, rfl, (), _, rfl, last, _, rfl, rfl, rfl⟩

theorem executes_unblock {word : UInt32} {trace : List Event} :
    (unblock ⟨word⟩).Executes trace () ↔ ∃ byte, trace = unblocking word byte := by
  unfold unblock unblocking
  split
  · simp only [Controller.push, Controller.pull, writeRegister, readRegister, access_bind, pure_bind,
      executes_access, executes_pure, and_true]
    constructor
    · rintro ⟨_, _, rfl, byte, _, rfl, rfl⟩
      exact ⟨byte, rfl⟩
    · rintro ⟨byte, rfl⟩
      exact ⟨(), _, rfl, byte, _, rfl, rfl⟩
  · rw [exists_const]
    split
    · simp only [Controller.push, writeRegister, executes_access, executes_pure, and_true]
      constructor
      · rintro ⟨_, _, rfl, rfl⟩
        rfl
      · rintro rfl
        exact ⟨(), _, rfl, rfl⟩
    · simp only [executes_pure, and_true]

theorem executes_probe {c next : BusClear} {trace : List Event} :
    c.probe.Executes trace next ↔
      (∃ sample, (Status.mk sample).meets stuckMask = false ∧
        trace = [⟨.readRegister .status, sample⟩] ∧
        next = { c with state := .done .notNeeded }) ∨
      ∃ sample byte, (Status.mk sample).meets stuckMask = true ∧
        trace = ⟨.readRegister .status, sample⟩ :: ⟨.routePads false, ()⟩ ::
          unblocking sample byte ∧
        next = { c with state := .pulseClock 0 } := by
  have hmask : Status.Flag.busActive.mask ||| Status.Flag.writeFull.mask = stuckMask := rfl
  simp only [probe, Controller.sample, readRegister, routePads, access_bind, pure_bind,
    executes_access, hmask]
  rw [← exists_or]
  refine exists_congr fun sample => ?_
  cases (Status.mk sample).meets stuckMask with
  | false =>
    simp only [Bool.false_eq_true, if_false, executes_pure, true_and, false_and, exists_const,
      or_false]
    constructor
    · rintro ⟨_, rfl, rfl, rfl⟩
      exact ⟨rfl, rfl⟩
    · rintro ⟨rfl, rfl⟩
      exact ⟨_, rfl, rfl, rfl⟩
  | true =>
    simp only [if_true, executes_access, executes_bind, executes_pure, Bool.true_eq_false, false_and,
      true_and, false_or]
    constructor
    · rintro ⟨_, rfl, _, _, rfl, first, _, _, rfl, h, rfl, rfl⟩
      obtain ⟨byte, rfl⟩ := executes_unblock.mp h
      exact ⟨byte, by rw [List.append_nil], rfl⟩
    · rintro ⟨byte, rfl, rfl⟩
      exact ⟨_, rfl, (), _, rfl, _, (), [], (List.append_nil _).symm,
        executes_unblock.mpr ⟨byte, rfl⟩, rfl, rfl⟩

/-! ## Executions of what is left -/

/-- Run to the end, `c` can leave this trace and tell this outcome. -/
def Finishes (c : BusClear) (trace : List Event) (outcome : ClearOutcome) : Prop :=
  ∃ last, c.run.Executes trace (outcome, last)

theorem finishes_iff {c : BusClear} {trace : List Event} {outcome : ClearOutcome} :
    c.Finishes trace outcome ↔
      ∃ first next second, trace = first ++ second ∧ c.step.Executes first next ∧
        match next.outcome? with
        | some told => second = [] ∧ outcome = told
        | none => next.Finishes second outcome := by
  unfold Finishes
  rw [run_eq]
  simp only [executes_bind]
  constructor
  · rintro ⟨last, first, next, second, rfl, hfirst, hsecond⟩
    refine ⟨first, next, second, rfl, hfirst, ?_⟩
    cases hnext : next.outcome? with
    | none =>
      rw [hnext] at hsecond
      exact ⟨last, hsecond⟩
    | some told =>
      rw [hnext] at hsecond
      obtain ⟨rfl, hlast⟩ := executes_pure.mp hsecond
      exact ⟨rfl, congrArg Prod.fst hlast⟩
  · rintro ⟨first, next, second, rfl, hfirst, hsecond⟩
    cases hnext : next.outcome? with
    | none =>
      rw [hnext] at hsecond
      obtain ⟨last, hlast⟩ := hsecond
      refine ⟨last, first, next, second, rfl, hfirst, ?_⟩
      rw [hnext]
      exact hlast
    | some told =>
      rw [hnext] at hsecond
      obtain ⟨rfl, rfl⟩ := hsecond
      refine ⟨next, first, next, [], rfl, hfirst, ?_⟩
      rw [hnext]
      exact executes_pure.mpr ⟨rfl, rfl⟩

theorem finishes_restorePads {c : BusClear} (hstate : c.state = .restorePads) {trace : List Event}
    {outcome : ClearOutcome} :
    c.Finishes trace outcome ↔
      ∃ last, trace = restoring last ∧ outcome = ending c.pulses last := by
  have hstep : c.step = c.restore := by rw [step, hstate]
  rw [finishes_iff, hstep]
  constructor
  · rintro ⟨first, next, second, rfl, hfirst, hsecond⟩
    obtain ⟨last, rfl, rfl⟩ := executes_restore.mp hfirst
    obtain ⟨rfl, rfl⟩ := hsecond
    exact ⟨last, List.append_nil _, rfl⟩
  · rintro ⟨last, rfl, rfl⟩
    exact ⟨restoring last, _, [], (List.append_nil _).symm, executes_restore.mpr ⟨last, rfl, rfl⟩,
      rfl, rfl⟩

/-- From `pulseClock`, the pads go back or one more pulse is made. -/
theorem finishes_pulseClock_iff {c : BusClear} {issued : Nat} (hstate : c.state = .pulseClock issued)
    (hissued : issued ≤ pulseLimit) {trace : List Event} {outcome : ClearOutcome} :
    c.Finishes trace outcome ↔
      (∃ found last, Suffice issued c.clockHigh [] found ∧
        trace = look c.sda found ++ restoring last ∧ outcome = ending issued last) ∨
      issued < pulseLimit ∧ ∃ (p : Pulse) (rest : List Event), (p.sda && c.clockHigh) = false ∧
        trace = p.trace c.scl c.sda ++ rest ∧
        Finishes { c with state := .pulseClock (issued + 1), clockHigh := p.scl } rest outcome := by
  have hstep : c.step = c.pulseClock issued := by rw [step, hstate]
  rw [finishes_iff, hstep]
  simp only [executes_pulseClock hissued]
  constructor
  · rintro ⟨_, _, second, rfl, ⟨found, hfound, rfl, rfl⟩ | ⟨hless, p, hheld, rfl, rfl⟩, hsecond⟩
    · obtain ⟨last, rfl, rfl⟩ := (finishes_restorePads rfl).mp hsecond
      exact .inl ⟨found, last, hfound, rfl, rfl⟩
    · exact .inr ⟨hless, p, second, hheld, rfl, hsecond⟩
  · rintro (⟨found, last, hfound, rfl, rfl⟩ | ⟨hless, p, rest, hheld, rfl, hrest⟩)
    · exact ⟨_, _, restoring last, rfl, .inl ⟨found, hfound, rfl, rfl⟩,
        (finishes_restorePads rfl).mpr ⟨last, rfl, rfl⟩⟩
    · exact ⟨_, _, rest, rfl, .inr ⟨hless, p, hheld, rfl, rfl⟩, hrest⟩

/-- Pulses follow that suffice, as many as it takes. The induction is on the pulses that may still
be made. -/
theorem finishes_pulseClock (left : Nat) {c : BusClear} {issued : Nat}
    (hstate : c.state = .pulseClock issued) (hleft : issued + left = pulseLimit)
    {trace : List Event} {outcome : ClearOutcome} :
    c.Finishes trace outcome ↔
      ∃ pulses found last, Suffice issued c.clockHigh pulses found ∧
        trace = pulses.flatMap (Pulse.trace c.scl c.sda) ++ (look c.sda found ++ restoring last) ∧
        outcome = ending (issued + pulses.length) last := by
  induction left generalizing c issued trace outcome with
  | zero =>
    have hlimit : issued = pulseLimit := hleft
    rw [finishes_pulseClock_iff hstate (Nat.le_of_eq hlimit)]
    constructor
    · rintro (⟨found, last, hfound, rfl, rfl⟩ | ⟨hless, -⟩)
      · exact ⟨[], found, last, hfound, rfl, rfl⟩
      · exact absurd hlimit (Nat.ne_of_lt hless)
    · rintro ⟨pulses, found, last, hsuffice, rfl, rfl⟩
      have hwithin := hsuffice.within
      obtain rfl : pulses = [] := List.length_eq_zero_iff.mp (by omega)
      exact .inl ⟨found, last, hsuffice, rfl, rfl⟩
  | succ left ih =>
    have hnext : issued + 1 + left = pulseLimit := by omega
    have hless : issued < pulseLimit := by omega
    have hcount (p : Pulse) (pulses : List Pulse) :
        issued + (p :: pulses).length = issued + 1 + pulses.length := by
      rw [List.length_cons]
      omega
    rw [finishes_pulseClock_iff hstate (Nat.le_of_lt hless)]
    constructor
    · rintro (⟨found, last, hfound, rfl, rfl⟩ | ⟨-, p, rest, hheld, rfl, hrest⟩)
      · exact ⟨[], found, last, hfound, rfl, rfl⟩
      · obtain ⟨pulses, found, last, hsuffice, rfl, rfl⟩ := (ih rfl hnext).mp hrest
        refine ⟨p :: pulses, found, last, suffice_cons.mpr ⟨hheld, hsuffice⟩, ?_, ?_⟩
        · rw [List.flatMap_cons, List.append_assoc]
        · rw [hcount]
    · rintro ⟨pulses, found, last, hsuffice, rfl, rfl⟩
      cases pulses with
      | nil => exact .inl ⟨found, last, hsuffice, rfl, rfl⟩
      | cons p pulses =>
        obtain ⟨hheld, hrest⟩ := suffice_cons.mp hsuffice
        rw [List.flatMap_cons, List.append_assoc, hcount]
        exact .inr ⟨hless, p, _, hheld, rfl,
          (ih rfl hnext).mpr ⟨pulses, found, last, hrest, rfl, rfl⟩⟩

/-- The courses are all that a clearing can do, and it can take each of them. -/
theorem finishes_start {scl sda : UInt32} {trace : List Event} {outcome : ClearOutcome} :
    (start scl sda).Finishes trace outcome ↔
      ∃ course : Course, course.Valid ∧ trace = course.trace scl sda ∧ outcome = course.outcome := by
  have hidle : (start scl sda).Finishes trace outcome ↔
      Finishes { start scl sda with state := .probeStatus } trace outcome := by
    rw [finishes_iff]
    constructor
    · rintro ⟨_, _, _, rfl, hfirst, hsecond⟩
      obtain ⟨rfl, rfl⟩ := executes_pure.mp hfirst
      exact hsecond
    · intro h
      exact ⟨[], _, trace, rfl, executes_pure.mpr ⟨rfl, rfl⟩, h⟩
  have hpulses {rest : List Event} :
      Finishes { start scl sda with state := .pulseClock 0 } rest outcome ↔ _ :=
    finishes_pulseClock pulseLimit rfl (Nat.zero_add _)
  rw [hidle, finishes_iff]
  constructor
  · rintro ⟨first, _, second, rfl, hfirst, hsecond⟩
    rcases executes_probe.mp hfirst with
      ⟨sample, hfree, rfl, rfl⟩ | ⟨sample, byte, hstuck, rfl, rfl⟩
    · obtain ⟨rfl, rfl⟩ := hsecond
      exact ⟨.free sample, hfree, rfl, rfl⟩
    · obtain ⟨pulses, found, last, hsuffice, rfl, rfl⟩ := hpulses.mp hsecond
      refine ⟨.pulsed sample byte pulses found last, ⟨hstuck, hsuffice.length_pos, hsuffice⟩, rfl, ?_⟩
      rw [Nat.zero_add, Course.outcome]
  · rintro ⟨course, hvalid, rfl, rfl⟩
    cases course with
    | free sample =>
      exact ⟨[_], _, [], rfl, executes_probe.mpr (.inl ⟨sample, hvalid, rfl, rfl⟩), rfl, rfl⟩
    | pulsed sample byte pulses found last =>
      obtain ⟨hstuck, -, hsuffice⟩ := hvalid
      refine ⟨_ :: _ :: unblocking sample byte, _, _, rfl,
        executes_probe.mpr (.inr ⟨sample, byte, hstuck, rfl, rfl⟩), hpulses.mpr ?_⟩
      exact ⟨pulses, found, last, hsuffice, rfl, by rw [Nat.zero_add, Course.outcome]⟩

/-! ## What a course does -/

theorem Pulse.acts_trace (scl sda : UInt32) (p : Pulse) :
    TwoWire.acts (p.trace scl sda) = pulseActs scl sda := by
  obtain ⟨_, early, late, _⟩ := p
  cases early <;> cases late <;> rfl

theorem acts_unblocking (sample byte : UInt32) :
    TwoWire.acts (unblocking sample byte) = unblocking sample byte := by
  unfold unblocking
  split
  · rfl
  · split <;> rfl

theorem acts_look (sda : UInt32) (found : Option Bool) : TwoWire.acts (look sda found) = [] := by
  cases found <;> rfl

theorem acts_pulses (scl sda : UInt32) (pulses : List Pulse) :
    TwoWire.acts (pulses.flatMap (Pulse.trace scl sda)) =
      (List.replicate pulses.length (pulseActs scl sda)).flatten := by
  induction pulses with
  | nil => rfl
  | cons p rest ih =>
    rw [List.flatMap_cons, acts_append, p.acts_trace, ih, List.length_cons, List.replicate_succ,
      List.flatten_cons]

theorem Course.acts_trace (scl sda : UInt32) (course : Course) :
    TwoWire.acts (course.trace scl sda) = course.acts scl sda := by
  cases course with
  | free sample => rfl
  | pulsed sample byte pulses found last =>
    simp only [Course.trace, Course.acts, acts_append, acts_unblocking, acts_pulses, acts_look,
      List.nil_append]
    rfl

theorem Pulse.letsGo_trace (scl sda : UInt32) (p : Pulse) : LetsGo (p.trace scl sda) := by
  obtain ⟨_, early, late, _⟩ := p
  cases early <;> cases late <;> simp [Pulse.trace, pauseUnless, letsGo_cons, letsGo_nil]

theorem letsGo_unblocking (sample byte : UInt32) : LetsGo (unblocking sample byte) := by
  unfold unblocking
  split
  · simp [letsGo_cons, letsGo_nil]
  · split <;> simp [letsGo_cons, letsGo_nil]

theorem letsGo_look (sda : UInt32) (found : Option Bool) : LetsGo (look sda found) := by
  cases found <;> simp [look, letsGo_cons, letsGo_nil]

theorem letsGo_pulses (scl sda : UInt32) (pulses : List Pulse) :
    LetsGo (pulses.flatMap (Pulse.trace scl sda)) := by
  induction pulses with
  | nil => exact letsGo_nil
  | cons p rest ih => exact (p.letsGo_trace scl sda).append ih

theorem Course.letsGo_trace (scl sda : UInt32) (course : Course) :
    LetsGo (course.trace scl sda) := by
  cases course with
  | free sample => simp [Course.trace, letsGo_cons, letsGo_nil]
  | pulsed sample byte pulses found last =>
    refine .append (by simp [letsGo_cons, letsGo_nil]) ((letsGo_unblocking sample byte).append ?_)
    refine (letsGo_pulses scl sda pulses).append ((letsGo_look sda found).append ?_)
    simp [restoring, letsGo_cons, letsGo_nil]

/-! ## Single steps -/

/-- Make `n` transitions. -/
def steps : Nat → BusClear → Program BusClear
  | 0, c => pure c
  | n + 1, c => c.step >>= steps n

theorem step_of_done {c : BusClear} {outcome : ClearOutcome} (h : c.outcome? = some outcome) :
    c.step = pure c := by
  unfold outcome? at h
  unfold step
  split at h
  next hstate => rw [hstate]
  next => cases h

theorem steps_of_done {c : BusClear} {outcome : ClearOutcome} (h : c.outcome? = some outcome)
    (n : Nat) : c.steps n = pure c := by
  induction n with
  | zero => rfl
  | succ n ih => rw [steps, step_of_done h, pure_bind, ih]

theorem run_of_done {c : BusClear} {outcome : ClearOutcome} (h : c.outcome? = some outcome) :
    c.run = pure (outcome, c) := by
  rw [run_eq, step_of_done h, pure_bind, h]

/-- A transition made by itself is made up for by a shorter run. -/
theorem step_bind_run (c : BusClear) : c.step >>= run = c.run := by
  rw [run_eq c]
  congr 1
  funext next
  cases h : next.outcome? with
  | some outcome => exact run_of_done h
  | none => rfl

theorem steps_bind_run (n : Nat) (c : BusClear) : c.steps n >>= run = c.run := by
  induction n generalizing c with
  | zero => rw [steps, pure_bind]
  | succ n ih =>
    calc c.steps (n + 1) >>= run
        = c.step >>= fun next => next.steps n >>= run := by rw [steps, bind_assoc]
      _ = c.step >>= run := by simp only [ih]
      _ = c.run := c.step_bind_run

/-- As many transitions as there can be left come to the same as a run. -/
theorem steps_eq_run {n : Nat} {c : BusClear} (h : c.distance ≤ n) :
    c.steps n = Prod.snd <$> c.run := by
  cases hdone : c.outcome? with
  | some outcome => rw [steps_of_done hdone, run_of_done hdone, map_pure]
  | none =>
    induction n generalizing c with
    | zero =>
      have := distance_eq_zero_iff.mp (Nat.le_zero.mp h)
      simp [hdone] at this
    | succ n ih =>
      rw [steps, ← step_bind_run c, map_bind]
      apply bind_congr_of_returns
      intro next reached
      cases hnext : next.outcome? with
      | some outcome => rw [steps_of_done hnext, run_of_done hnext, map_pure]
      | none => exact ih (Nat.le_of_lt_succ (Nat.lt_of_lt_of_le (distance_lt reached hnext) h)) hnext

/-- A run ends in the state that tells its outcome. -/
theorem outcome?_of_run {c last : BusClear} {outcome : ClearOutcome}
    (h : c.run.Returns (outcome, last)) : last.outcome? = some outcome := by
  induction c using BusClear.run.induct with
  | case1 c ih =>
    rw [run_eq, returns_bind] at h
    obtain ⟨next, reached, h⟩ := h
    cases hnext : next.outcome? with
    | some told =>
      rw [hnext, returns_pure] at h
      cases h
      exact hnext
    | none =>
      rw [hnext] at h
      exact ih next reached hnext h

/-- On every board a clearing takes one of the courses and lets go of the lines that it drives. It is
over after thirteen transitions, after which transitions do nothing; and however many of them are
made one by one first, the run that follows makes up the rest. -/
theorem clearing_takes_course {σ : Type} (hw : Hardware σ) (s : σ) (scl sda : UInt32) :
    let fresh := start scl sda
    let o := fresh.run.run hw s
    (∃ course : Course, course.Valid ∧ o.trace = course.trace scl sda ∧
      TwoWire.acts o.trace = course.acts scl sda ∧ o.value.1 = course.outcome) ∧
    LetsGo o.trace ∧
    o.value.2.outcome? = some o.value.1 ∧ (∀ n, o.value.2.steps n = pure o.value.2) ∧
    fresh.steps 13 = Prod.snd <$> fresh.run ∧
    ∀ n, fresh.steps n >>= run = fresh.run := by
  intro fresh o
  have hdone : o.value.2.outcome? = some o.value.1 := outcome?_of_run (returns_value_run hw _ s)
  obtain ⟨course, hvalid, htrace, houtcome⟩ :=
    finishes_start.mp ⟨o.value.2, executes_run hw fresh.run s⟩
  refine ⟨⟨course, hvalid, htrace, ?_, houtcome⟩, ?_, hdone, steps_of_done hdone, ?_, ?_⟩
  · rw [htrace, course.acts_trace]
  · rw [htrace]
    exact course.letsGo_trace scl sda
  · exact steps_eq_run (Nat.le_refl _)
  · exact fun n => fresh.steps_bind_run n

end BusClear
end TwoWire

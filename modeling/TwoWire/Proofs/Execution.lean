import TwoWire.Program.Returns
/-!
# Executions

`p.Executes trace a` says that the answers recorded in `trace` lead `p` to the result `a`. A run on
any board is such an execution, so what holds of all executions holds on every board. `p.ends hw s`
keeps of a run its result and the last state of the board only, and follows sequences by itself.
-/
namespace TwoWire.Program

variable {α β σ : Type}

/-! ## Any board -/

inductive Executes : Program α → List Event → α → Prop
  | done (a : α) : Executes (.done a) [] a
  | access {request : Access} {next : request.Reply → Program α} {trace : List Event} {a : α}
      (reply : request.Reply) (rest : Executes (next reply) trace a) :
      Executes (.access request next) (⟨request, reply⟩ :: trace) a
  | note {entry : LogEntry} {next : Program α} {trace : List Event} {a : α}
      (rest : Executes next trace a) : Executes (.note entry next) trace a

@[simp] theorem executes_pure {a b : α} {trace : List Event} :
    Executes (pure a : Program α) trace b ↔ trace = [] ∧ b = a := by
  constructor
  · intro h
    cases h
    exact ⟨rfl, rfl⟩
  · rintro ⟨rfl, rfl⟩
    exact .done _

@[simp] theorem executes_access {request : Access} {next : request.Reply → Program α}
    {trace : List Event} {a : α} :
    Executes (.access request next) trace a ↔
      ∃ reply rest, trace = ⟨request, reply⟩ :: rest ∧ Executes (next reply) rest a := by
  constructor
  · intro h
    cases h with
    | access reply rest => exact ⟨reply, _, rfl, rest⟩
  · rintro ⟨reply, rest, rfl, h⟩
    exact .access reply h

@[simp] theorem executes_note {entry : LogEntry} {next : Program α} {trace : List Event} {a : α} :
    Executes (.note entry next) trace a ↔ Executes next trace a := by
  constructor
  · intro h
    cases h with
    | note rest => exact rest
  · exact .note

/-- An execution of a sequence falls into one of each part. -/
theorem executes_bind {p : Program α} {f : α → Program β} {trace : List Event} {b : β} :
    Executes (p >>= f) trace b ↔
      ∃ first a second, trace = first ++ second ∧ Executes p first a ∧
        Executes (f a) second b := by
  induction p generalizing trace with
  | done a =>
    simp only [done_eq, pure_bind, executes_pure]
    constructor
    · intro h
      exact ⟨[], a, trace, rfl, ⟨rfl, rfl⟩, h⟩
    · rintro ⟨_, _, second, rfl, ⟨rfl, rfl⟩, h⟩
      exact h
  | access request next ih =>
    simp only [access_bind, executes_access, ih]
    constructor
    · rintro ⟨reply, _, rfl, first, a, second, rfl, h, hb⟩
      exact ⟨_, a, second, rfl, ⟨reply, first, rfl, h⟩, hb⟩
    · rintro ⟨_, a, second, rfl, ⟨reply, first, rfl, h⟩, hb⟩
      exact ⟨reply, _, rfl, first, a, second, rfl, h, hb⟩
  | note entry next ih => simp only [note_bind, executes_note, ih]

theorem executes_notes {entries : List LogEntry} {trace : List Event} {u : Unit}
    (h : Executes (notes entries) trace u) : trace = [] := by
  induction entries with
  | nil => exact (executes_pure.mp h).1
  | cons entry rest ih => exact ih (executes_note.mp h)

theorem returns_of_executes {p : Program α} {trace : List Event} {a : α}
    (h : p.Executes trace a) : p.Returns a := by
  induction h with
  | done a => exact .done a
  | access reply _ ih => exact .access reply ih
  | note _ ih => exact .note ih

/-- Every possible result is that of some execution. -/
theorem executes_of_returns {p : Program α} {a : α} (h : p.Returns a) :
    ∃ trace, p.Executes trace a := by
  induction h with
  | done a => exact ⟨[], .done a⟩
  | access reply _ ih =>
    obtain ⟨trace, hrest⟩ := ih
    exact ⟨_, .access reply hrest⟩
  | note _ ih =>
    obtain ⟨trace, hrest⟩ := ih
    exact ⟨trace, .note hrest⟩

/-- Two continuations that agree on every possible result make the same program. -/
theorem bind_congr_of_returns {p : Program α} {f g : α → Program β}
    (h : ∀ a, p.Returns a → f a = g a) : p >>= f = p >>= g := by
  induction p with
  | done a => exact h a (.done a)
  | access request next ih =>
    simp only [access_bind]
    congr 1
    funext reply
    apply ih
    intro a ha
    exact h a (.access reply ha)
  | note entry next ih =>
    simp only [note_bind]
    congr 1
    apply ih
    intro a ha
    exact h a (.note ha)

/-- What happens on a board is an execution. -/
theorem executes_run (hw : Hardware σ) (p : Program α) (s : σ) :
    p.Executes (p.run hw s).trace (p.run hw s).value := by
  induction p generalizing s with
  | done a => exact .done a
  | access request next ih =>
    rw [run_access, Outcome.value_andThen, Outcome.trace_andThen]
    exact .access _ (ih _ _)
  | note entry next ih =>
    rw [run_note, Outcome.value_andThen, Outcome.trace_andThen]
    exact .note (ih s)

/-! ## The end of a run -/

/-- The result of a run and the state in which it leaves the board. -/
def ends (hw : Hardware σ) (p : Program α) (s : σ) : α × σ :=
  ((p.run hw s).value, (p.run hw s).state)

theorem run_of_ends {hw : Hardware σ} {p : Program α} {s s' : σ} {a : α}
    (h : p.ends hw s = (a, s')) : (p.run hw s).value = a ∧ (p.run hw s).state = s' :=
  ⟨congrArg Prod.fst h, congrArg Prod.snd h⟩

@[simp] theorem ends_pure (hw : Hardware σ) (a : α) (s : σ) :
    (pure a : Program α).ends hw s = (a, s) := rfl

@[simp] theorem ends_notes (hw : Hardware σ) (entries : List LogEntry) (s : σ) :
    (notes entries).ends hw s = ((), s) := by
  simp [ends]

@[simp] theorem ends_debug (hw : Hardware σ) (logger : Logger) (pieces : List String) (s : σ) :
    (logger.debug pieces).ends hw s = ((), s) :=
  ends_notes hw _ s

@[simp] theorem ends_error (hw : Hardware σ) (logger : Logger) (pieces : List String) (s : σ) :
    (logger.error pieces).ends hw s = ((), s) :=
  ends_notes hw _ s

@[simp] theorem ends_bind (hw : Hardware σ) (p : Program α) (f : α → Program β) (s : σ) :
    (p >>= f).ends hw s = (f (p.ends hw s).1).ends hw (p.ends hw s).2 := by
  simp [ends]

theorem ends_bind_eq {hw : Hardware σ} {p : Program α} {s s' : σ} {a : α}
    (h : p.ends hw s = (a, s')) (f : α → Program β) :
    (p >>= f).ends hw s = (f a).ends hw s' := by
  rw [ends_bind, h]

@[simp] theorem ends_ite (hw : Hardware σ) (c : Prop) [Decidable c] (p q : Program α) (s : σ) :
    (if c then p else q).ends hw s = if c then p.ends hw s else q.ends hw s :=
  apply_ite (fun r => r.ends hw s) c p q

end TwoWire.Program

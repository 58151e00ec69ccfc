import TwoWire.Program
/-!
# Playing a program

`run` plays a program against a behaviour of the board. The outcome holds the result, the board's
last state, every event in order and every log entry in order. A sequence of two programs has the
second outcome laid after the first.
-/
namespace TwoWire

/-- What is left of a played program. -/
@[ext] structure Outcome (σ α : Type) where
  value : α
  state : σ
  trace : List Event
  log : List LogEntry

/-- The outcome of a program that is played after `first`. -/
def Outcome.andThen {σ α β : Type} (first : Outcome σ α) (second : Outcome σ β) : Outcome σ β :=
  ⟨second.value, second.state, first.trace ++ second.trace, first.log ++ second.log⟩

namespace Outcome

variable {σ α β : Type} (first : Outcome σ α) (second : Outcome σ β)

@[simp] theorem value_andThen : (first.andThen second).value = second.value := rfl
@[simp] theorem state_andThen : (first.andThen second).state = second.state := rfl
@[simp] theorem trace_andThen : (first.andThen second).trace = first.trace ++ second.trace := rfl
@[simp] theorem log_andThen : (first.andThen second).log = first.log ++ second.log := rfl

end Outcome

namespace Program

variable {α β σ : Type}

/-- Play a program; `trace` and `log` hold what has happened so far, the latest first. -/
def play (hw : Hardware σ) : Program α → σ → List Event → List LogEntry → Outcome σ α
  | done a, s, trace, log => ⟨a, s, trace.reverse, log.reverse⟩
  | access request next, s, trace, log =>
    let answer := hw request s
    play hw (next answer.1) answer.2 (⟨request, answer.1⟩ :: trace) log
  | note entry next, s, trace, log => play hw next s trace (entry :: log)

/-- Play a program from a state of the board. -/
def run (hw : Hardware σ) (p : Program α) (s : σ) : Outcome σ α := play hw p s [] []

theorem play_eq (hw : Hardware σ) (p : Program α) (s : σ) (trace : List Event)
    (log : List LogEntry) :
    play hw p s trace log =
      ⟨(p.run hw s).value, (p.run hw s).state, trace.reverse ++ (p.run hw s).trace,
        log.reverse ++ (p.run hw s).log⟩ := by
  induction p generalizing s trace log with
  | done a => simp [run, play]
  | access request next ih =>
    rw [run, play, play, ih, ih _ _ [⟨request, (hw request s).1⟩]]
    simp
  | note entry next ih =>
    rw [run, play, play, ih, ih _ _ [entry]]
    simp

@[simp] theorem run_pure (hw : Hardware σ) (a : α) (s : σ) :
    (pure a : Program α).run hw s = ⟨a, s, [], []⟩ := rfl

@[simp] theorem run_access (hw : Hardware σ) (request : Access)
    (next : request.Reply → Program α) (s : σ) :
    (access request next).run hw s =
      (⟨(), (hw request s).2, [⟨request, (hw request s).1⟩], []⟩ : Outcome σ Unit).andThen
        ((next (hw request s).1).run hw (hw request s).2) := by
  rw [run, play, play_eq]
  rfl

@[simp] theorem run_note (hw : Hardware σ) (entry : LogEntry) (next : Program α) (s : σ) :
    (note entry next).run hw s =
      (⟨(), s, [], [entry]⟩ : Outcome σ Unit).andThen (next.run hw s) := by
  rw [run, play, play_eq]
  rfl

@[simp] theorem run_notes (hw : Hardware σ) (entries : List LogEntry) (s : σ) :
    (notes entries).run hw s = ⟨(), s, [], entries⟩ := by
  induction entries with
  | nil => rfl
  | cons entry rest ih => simp [notes, ih, Outcome.andThen]

@[simp] theorem run_debug (hw : Hardware σ) (logger : Logger) (pieces : List String) (s : σ) :
    (logger.debug pieces).run hw s = ⟨(), s, [], logger.entries .debug pieces⟩ :=
  run_notes hw _ s

@[simp] theorem run_error (hw : Hardware σ) (logger : Logger) (pieces : List String) (s : σ) :
    (logger.error pieces).run hw s = ⟨(), s, [], logger.entries .error pieces⟩ :=
  run_notes hw _ s

@[simp] theorem run_bind (hw : Hardware σ) (p : Program α) (f : α → Program β) (s : σ) :
    (p >>= f).run hw s =
      (p.run hw s).andThen ((f (p.run hw s).value).run hw (p.run hw s).state) := by
  induction p generalizing s with
  | done a => simp [Outcome.andThen]
  | access request next ih => simp [ih, Outcome.andThen]
  | note entry next ih => simp [ih, Outcome.andThen]

@[simp] theorem run_map (hw : Hardware σ) (f : α → β) (p : Program α) (s : σ) :
    (f <$> p).run hw s =
      ⟨f (p.run hw s).value, (p.run hw s).state, (p.run hw s).trace, (p.run hw s).log⟩ := by
  simp [← bind_pure_comp, Outcome.andThen]

@[simp] theorem run_ite (hw : Hardware σ) (c : Prop) [Decidable c] (p q : Program α) (s : σ) :
    (if c then p else q).run hw s = if c then p.run hw s else q.run hw s :=
  apply_ite (fun r => r.run hw s) c p q

end Program
end TwoWire

import TwoWire.Program.Run
/-!
# Possible results

`p.Returns a` says that some answers of the hardware, whatever they are, lead `p` to the result `a`;
what a run returns is one of these.
`bindOn` is sequencing in which the second program may rely on that, so that a loop can show its
own descent from what its body can return; apart from this it is ordinary sequencing.
-/
namespace TwoWire.Program

variable {α β : Type}

inductive Returns : Program α → α → Prop
  | done (a : α) : Returns (.done a) a
  | access {request : Access} {next : request.Reply → Program α} {a : α} (reply : request.Reply)
      (rest : Returns (next reply) a) : Returns (.access request next) a
  | note {entry : LogEntry} {next : Program α} {a : α} (rest : Returns next a) :
      Returns (.note entry next) a

@[simp] theorem returns_pure {a b : α} : Returns (pure a : Program α) b ↔ b = a := by
  constructor
  · intro h
    cases h
    rfl
  · rintro rfl
    exact .done _

@[simp] theorem returns_access {request : Access} {next : request.Reply → Program α} {a : α} :
    Returns (.access request next) a ↔ ∃ reply, Returns (next reply) a := by
  constructor
  · intro h
    cases h with
    | access reply rest => exact ⟨reply, rest⟩
  · rintro ⟨reply, rest⟩
    exact .access reply rest

@[simp] theorem returns_note {entry : LogEntry} {next : Program α} {a : α} :
    Returns (.note entry next) a ↔ Returns next a := by
  constructor
  · intro h
    cases h with
    | note rest => exact rest
  · exact .note

@[simp] theorem returns_bind {p : Program α} {f : α → Program β} {b : β} :
    Returns (p >>= f) b ↔ ∃ a, Returns p a ∧ Returns (f a) b := by
  induction p with
  | done a => simp
  | access request next ih =>
    simp only [access_bind, returns_access, ih]
    constructor
    · rintro ⟨reply, a, h, hb⟩
      exact ⟨a, ⟨reply, h⟩, hb⟩
    · rintro ⟨a, ⟨reply, h⟩, hb⟩
      exact ⟨reply, a, h, hb⟩
  | note entry next ih => simp [ih]

@[simp] theorem returns_map {p : Program α} {f : α → β} {b : β} :
    Returns (f <$> p) b ↔ ∃ a, Returns p a ∧ b = f a := by
  simp [← bind_pure_comp]

@[simp] theorem returns_notes {entries : List LogEntry} {u : Unit} :
    Returns (notes entries) u := by
  induction entries with
  | nil => exact .done u
  | cons entry rest ih => exact .note ih

/-- On every board, a run returns one of the possible results. -/
theorem returns_value_run {σ : Type} (hw : Hardware σ) (p : Program α) (s : σ) :
    p.Returns (p.run hw s).value := by
  induction p generalizing s with
  | done a => exact .done a
  | access request next ih =>
    rw [run_access, Outcome.value_andThen]
    exact .access _ (ih _ _)
  | note entry next ih =>
    rw [run_note, Outcome.value_andThen]
    exact .note (ih s)

/-- Sequencing in which the second program may use that its input is a possible result. -/
def bindOn : (p : Program α) → ((a : α) → p.Returns a → Program β) → Program β
  | .done a, f => f a (.done a)
  | .access request next, f =>
    .access request fun reply => (next reply).bindOn fun a h => f a (.access reply h)
  | .note entry next, f => .note entry (next.bindOn fun a h => f a (.note h))

@[simp] theorem bindOn_eq_bind (p : Program α) (f : α → Program β) :
    (p.bindOn fun a _ => f a) = p >>= f := by
  induction p with
  | done a => rfl
  | access request next ih =>
    rw [bindOn, access_bind]
    exact congrArg _ (funext ih)
  | note entry next ih => rw [bindOn, ih, note_bind]

end TwoWire.Program

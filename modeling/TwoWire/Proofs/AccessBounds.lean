import TwoWire.Proofs.Retries
import TwoWire.Proofs.WellFormed
/-!
# How many accesses a call can make

No call waits for the board without end: whatever the board answers, the number of accesses is bounded,
and the bound depends on nothing but the bytes of the call. Loops are bounded by what their measure says:
a wait by the bytes outstanding, the clearing of the bus by its distance from the end, the attempts by
the retries that are left.
-/
namespace TwoWire

/-- Any access at all. -/
def Access.isAny : Access → Bool
  | _ => true

/-- Accesses of a kind in a trace. -/
def accesses (kind : Access → Bool) (trace : List Event) : Nat := trace.countP fun e => kind e.access

@[simp] theorem accesses_append (kind : Access → Bool) (first second : List Event) :
    accesses kind (first ++ second) = accesses kind first + accesses kind second :=
  List.countP_append

@[simp] theorem accesses_singleton (kind : Access → Bool) (e : Event) :
    accesses kind [e] = (kind e.access).toNat := by
  unfold accesses
  cases h : kind e.access <;> simp [h]

theorem accesses_isAny (trace : List Event) : accesses Access.isAny trace = trace.length :=
  congrFun List.countP_true trace

namespace Program

variable {α β : Type} {kind : Access → Bool} {p : Program α} {f : α → Program β} {m n : Nat}

/-- The program makes no more than `n` accesses of the kind, whatever the answers are. -/
def AtMost (kind : Access → Bool) : Nat → Program α → Prop
  | _, .done _ => True
  | n, .access request next =>
    (kind request).toNat ≤ n ∧ ∀ reply, (next reply).AtMost kind (n - (kind request).toNat)
  | n, .note _ next => next.AtMost kind n

theorem AtMost.mono (h : p.AtMost kind m) (hle : m ≤ n) : p.AtMost kind n := by
  induction p generalizing m n with
  | done a => trivial
  | access request next ih =>
    exact ⟨Nat.le_trans h.1 hle, fun reply => ih reply (h.2 reply) (Nat.sub_le_sub_right hle _)⟩
  | note entry next ih => exact ih h hle

/-- Each access counts once or not at all. -/
theorem AtMost.access {request : Access} {next : request.Reply → Program α}
    (h : ∀ reply, (next reply).AtMost kind n) :
    (Program.access request next).AtMost kind (n + 1) := by
  have hone := Bool.toNat_le (kind request)
  exact ⟨by omega, fun reply => (h reply).mono (by omega)⟩

/-- The bounds of the parts of a sequence add up. -/
theorem AtMost.bind (h : p.AtMost kind m) (hf : ∀ a, p.Returns a → (f a).AtMost kind n) :
    (p >>= f).AtMost kind (m + n) := by
  induction p generalizing m with
  | done a => exact (hf a (.done a)).mono (Nat.le_add_left n m)
  | access request next ih =>
    refine ⟨Nat.le_trans h.1 (Nat.le_add_right m n), fun reply => ?_⟩
    rw [Nat.sub_add_comm h.1]
    exact ih reply (h.2 reply) fun a ha => hf a (.access reply ha)
  | note entry next ih => exact ih h fun a ha => hf a (.note ha)

theorem AtMost.bind_pure (h : p.AtMost kind n) (g : α → β) :
    (p >>= fun a => pure (g a)).AtMost kind n :=
  h.bind (n := 0) fun _ _ => trivial

theorem atMost_pure (a : α) : (pure a : Program α).AtMost kind n := trivial

/-- Logging is no access. -/
theorem atMost_notes (entries : List LogEntry) : (notes entries).AtMost kind n := by
  induction entries with
  | nil => trivial
  | cons entry rest ih => exact ih

theorem AtMost.ite {c : Prop} [Decidable c] {q : Program α} (h : p.AtMost kind n)
    (h' : q.AtMost kind n) : (if c then p else q).AtMost kind n := by
  split
  · exact h
  · exact h'

/-- What is logged first does not count. -/
theorem AtMost.noted (h : p.AtMost kind n) (entries : List LogEntry) :
    (notes entries >>= fun _ => p).AtMost kind n :=
  ((atMost_notes (n := 0) entries).bind fun _ _ => h).mono (Nat.le_of_eq (Nat.zero_add n))

/-- Accesses of other kinds do not count. -/
theorem Confined.atMost {narrow : Access → Bool} (h : p.Confined narrow)
    (hother : ∀ {a : Access}, narrow a → kind a = false) : p.AtMost kind 0 := by
  induction p with
  | done a => trivial
  | access request next ih =>
    change (kind request).toNat ≤ 0 ∧ ∀ reply, (next reply).AtMost kind (0 - (kind request).toNat)
    rw [hother h.1]
    exact ⟨Nat.le_refl 0, fun reply => ih reply (h.2 reply)⟩
  | note entry next ih => exact ih h

/-- On every board, a run has no more accesses than the bound says. -/
theorem AtMost.accesses_run {σ : Type} (h : p.AtMost kind n) (hw : Hardware σ) (s : σ) :
    accesses kind (p.run hw s).trace ≤ n := by
  induction p generalizing n s with
  | done a => exact Nat.zero_le n
  | access request next ih =>
    rw [run_access, Outcome.trace_andThen]
    have hfirst := h.1
    have hrest := ih (hw request s).1 (h.2 (hw request s).1) (hw request s).2
    rw [accesses_append, accesses_singleton]
    change (kind request).toNat + _ ≤ n
    omega
  | note entry next ih =>
    rw [run_note, Outcome.trace_andThen]
    exact ih h s

end Program

open Program

/-! ## Events -/

namespace Controller

theorem atMost_sample : sample.AtMost Access.isAny 1 := ⟨Nat.le_refl 1, fun _ => trivial⟩

theorem atMost_pushPaced (word : UInt32) : (pushPaced word).AtMost Access.isAny 3 := by
  refine .access fun levels => AtMost.ite ?_ ?_
  · exact .access fun _ => trivial
  · exact .access fun _ => .access fun _ => trivial

theorem atMost_stopIf (due : Bool) : (stopIf due).AtMost Access.isAny 1 :=
  AtMost.ite (.access fun _ => trivial) trivial

end Controller

namespace Transaction

theorem atMost_feedOn (t : Transaction) (status : Status) :
    (t.feedOn status).AtMost Access.isAny 3 := by
  unfold feedOn feed
  split
  · trivial
  split
  · trivial
  · exact (Controller.atMost_pushPaced _).bind_pure _

theorem atMost_drainOn (t : Transaction) (status : Status) :
    (t.drainOn status).AtMost Access.isAny 2 := by
  unfold drainOn drain
  split
  case isFalse => trivial
  split
  · exact (Controller.atMost_stopIf _).bind (n := 1) fun _ _ => .access fun _ => trivial
  · exact (Controller.atMost_stopIf _).bind (n := 1) fun _ _ => .access fun _ => trivial

theorem atMost_onEvent (t : Transaction) (status : Status) :
    (t.onEvent status).AtMost Access.isAny 5 := by
  unfold onEvent
  split
  · trivial
  split
  · trivial
  · exact (t.atMost_feedOn status).bind (n := 2) fun fed _ =>
      (fed.2.atMost_drainOn status).bind_pure _

end Transaction

/-! ## Clearing the bus -/

namespace BusClear

theorem atMost_unblock (status : Status) : (unblock status).AtMost Access.isAny 2 := by
  unfold unblock
  refine AtMost.ite ?_ (AtMost.ite ?_ trivial)
  · exact .access fun _ => .access fun _ => trivial
  · exact .access fun _ => trivial

theorem atMost_stretch (c : BusClear) (nanoseconds : UInt32) :
    (c.stretch nanoseconds).AtMost Access.isAny 2 :=
  .access fun _ => AtMost.ite trivial (.access fun _ => trivial)

theorem atMost_pulse (c : BusClear) (issued : Nat) : (c.pulse issued).AtMost Access.isAny 13 := by
  refine .access fun _ => .access fun _ => .access fun _ => .access fun _ =>
    .access fun _ => .access fun _ => ?_
  refine (c.atMost_stretch 20).bind (n := 5) fun _ _ =>
    (c.atMost_stretch 10000).bind (n := 3) fun _ _ => ?_
  exact .access fun _ => .access fun _ => .access fun _ => trivial

/-- A transition makes no more accesses than a pulse with a look at SDA before it. -/
theorem atMost_step (c : BusClear) : c.step.AtMost Access.isAny 14 := by
  unfold step
  split
  · trivial
  · refine .access fun word => AtMost.ite ?_ trivial
    exact .access fun _ => (atMost_unblock _).bind (n := 10) fun _ _ => trivial
  · unfold pulseClock
    refine AtMost.ite trivial (.access fun released => AtMost.ite trivial ?_)
    exact c.atMost_pulse _
  · exact .access fun _ => .access fun _ => .access fun _ => trivial
  · trivial

/-- Every transition comes nearer to the end. -/
theorem atMost_run (c : BusClear) : c.run.AtMost Access.isAny (14 * (c.distance + 1)) := by
  induction c using BusClear.run.induct with
  | case1 c ih =>
    rw [run_eq, Nat.mul_succ, Nat.add_comm]
    refine c.atMost_step.bind fun next reached => ?_
    split
    · trivial
    · rename_i unfinished
      have hnearer := distance_lt reached unfinished
      exact (ih next reached unfinished).mono (Nat.mul_le_mul_left 14 hnearer)

end BusClear

/-! ## Waits -/

namespace Session

variable (bus : Bus) {kind : Access → Bool} {n k : Nat}

theorem atMost_reportWait (polls : Nat) : (reportWait bus polls).AtMost kind n :=
  AtMost.ite (atMost_notes _) trivial

/-- A wait for an idle bus makes the accesses of its polls and pauses. -/
theorem atMost_awaitIdle (hpoll : (pollIdle bus).AtMost kind n)
    (hpause : ∀ idle, (backoff idle).AtMost kind k) (tries : Nat) :
    (awaitIdle bus tries).AtMost kind ((n + k) * tries) := by
  induction tries with
  | zero => exact AtMost.noted (atMost_pure _) _
  | succ tries ih =>
    have hsplit : (n + k) * (tries + 1) = n + (k + (n + k) * tries) := by
      rw [Nat.mul_succ]
      omega
    rw [hsplit]
    refine hpoll.bind fun _ _ => AtMost.ite ((hpause _).bind fun _ _ => ih) ?_
    exact (atMost_reportWait bus _).bind_pure _

/-- So does a wait for a transaction. A poll that moves nothing brings it nearer to its limit, and one
that moves a byte lowers the bytes outstanding. -/
theorem atMost_settle (hpoll : ∀ t, (poll bus t).AtMost kind n)
    (hpause : ∀ idle, (backoff idle).AtMost kind k) (idle : Nat) (t : Transaction) :
    (settle bus idle t).AtMost kind ((n + k) * (pollLimit * (t.outstanding + 1) - idle)) := by
  induction idle, t using Session.settle.induct bus with
  | case1 idle t early ihStill ihMoved =>
    have hround : pollLimit * (t.outstanding + 1) = pollLimit * t.outstanding + pollLimit :=
      Nat.mul_succ _ _
    obtain ⟨further, hfurther⟩ : ∃ further, pollLimit * (t.outstanding + 1) - idle = further + 1 :=
      Nat.exists_eq_succ_of_ne_zero (by omega)
    have hsplit : (n + k) * (further + 1) = n + (k + (n + k) * further) := by
      rw [Nat.mul_succ]
      omega
    rw [settle_eq, if_pos early, hfurther, hsplit]
    refine (hpoll t).bind fun seen reached => ?_
    obtain ⟨hbalance, hmoved⟩ := balance_poll reached
    split
    · trivial
    split
    · rename_i hsame
      refine (hpause idle).bind fun _ _ => (ihStill seen reached hsame).mono ?_
      have hleft : seen.transaction.outstanding = t.outstanding := by omega
      rw [hleft]
      exact Nat.mul_le_mul_left (n + k) (by omega)
    · rename_i hother
      have hless : seen.transaction.outstanding + 1 ≤ t.outstanding := by omega
      have hbound := Nat.mul_le_mul_left pollLimit hless
      have hnext : pollLimit * (seen.transaction.outstanding + 1) - 0 ≤ further := by omega
      refine (ihMoved seen reached hother).mono ?_
      exact Nat.le_trans (Nat.mul_le_mul_left (n + k) hnext) (Nat.le_add_left _ k)
  | case2 idle t late =>
    rw [settle_eq, if_neg late]
    exact AtMost.noted (atMost_pure _) _

/-! ## Sessions -/

variable {chain : List Message}

/-- Accesses of a clearing of the bus. -/
def clearBudget : Nat := 14 * (BusClear.pulseLimit + 5) + 1

/-- Accesses of a wait for an idle bus: three for each poll and its pause. -/
def idleBudget : Nat := 3 * pollLimit

/-- Accesses of a wait with `left` bytes outstanding: eight for each poll and its pause. -/
def waitBudget (left : Nat) : Nat := 8 * (pollLimit * (left + 1))

/-- Accesses of a session that carries `total` bytes: a wait on each side of the first event, and the
bus may have to be cleared before it, after the wait for it was given up, and after a fault. -/
def budget (total : Nat) : Nat :=
  idleBudget + (clearBudget + (6 + (waitBudget total + 2 * clearBudget))) + 4

theorem atMost_backoff (idle : Nat) : (backoff idle).AtMost Access.isAny 1 :=
  AtMost.ite (.access fun _ => trivial) trivial

theorem atMost_pollIdle : (pollIdle bus).AtMost Access.isAny 2 :=
  .access fun _ => .access fun _ => trivial

theorem atMost_poll (t : Transaction) : (poll bus t).AtMost Access.isAny 7 := by
  refine .access fun _ => .access fun word => AtMost.ite ?_ trivial
  exact (t.atMost_onEvent _).bind_pure _

theorem atMost_clear : (clear bus).AtMost Access.isAny clearBudget := by
  have hrun : ((BusClear.start bus.config.scl bus.config.sda).run).AtMost Access.isAny
      (14 * (BusClear.pulseLimit + 5)) :=
    (BusClear.start bus.config.scl bus.config.sda).atMost_run
  refine hrun.bind (n := 1) fun cleared _ => ?_
  split
  · trivial
  · exact AtMost.noted (atMost_pure _) _
  · exact Controller.atMost_sample.bind (n := 0) fun _ _ => AtMost.noted (atMost_pure _) _

theorem atMost_reportIncomplete (t : Transaction) :
    (reportIncomplete bus t).AtMost kind n :=
  AtMost.ite (atMost_notes _) trivial

theorem atMost_reportUnrequested (t : Transaction) :
    (reportUnrequested bus t).AtMost kind n :=
  AtMost.ite (atMost_notes _) trivial

theorem atMost_conclude (t : Transaction) : (conclude bus t).AtMost Access.isAny clearBudget := by
  unfold conclude
  split
  · exact AtMost.noted ((atMost_clear bus).bind_pure _) _
  · exact (atMost_reportIncomplete bus t).bind_pure _

theorem atMost_abandon (t : Transaction) :
    (abandon bus t).AtMost Access.isAny (2 * clearBudget) := by
  rw [Nat.two_mul]
  refine AtMost.noted ((atMost_clear bus).bind fun cleared _ => ?_) _
  cases cleared with
  | ok _ => exact atMost_conclude bus _
  | error _ => trivial

/-- The transaction that a session begins has no more bytes outstanding than its chain has. -/
theorem outstanding_le {status : Status} {primed : Transaction} (hc : chain ≠ [])
    (h : ((Transaction.start chain).onEvent status).Returns primed) :
    primed.outstanding ≤ Message.cost chain := by
  rw [← (Transaction.upright_start hc).balance, ← Transaction.balance_onEvent h]
  exact Nat.le_add_left _ _

theorem atMost_carry (hc : chain ≠ []) :
    (carry bus chain).AtMost Access.isAny
      (6 + (waitBudget (Message.cost chain) + 2 * clearBudget)) := by
  rw [show 6 = 1 + 5 from rfl, Nat.add_assoc]
  refine Controller.atMost_sample.bind fun status _ => ?_
  refine (Transaction.atMost_onEvent _ status).bind fun primed reached => ?_
  have hwait : (settle bus 0 primed).AtMost Access.isAny (waitBudget (Message.cost chain)) := by
    refine (atMost_settle bus (atMost_poll bus) atMost_backoff 0 primed).mono ?_
    have hle := outstanding_le hc reached
    exact Nat.mul_le_mul_left 8 (Nat.mul_le_mul_left pollLimit (Nat.succ_le_succ hle))
  refine hwait.bind fun watched _ => ?_
  rw [← Nat.zero_add (2 * clearBudget)]
  refine (atMost_reportUnrequested bus _).bind fun _ _ => AtMost.ite ?_ (atMost_abandon bus _)
  exact (atMost_conclude bus _).mono (Nat.le_mul_of_pos_left _ Nat.two_pos)

theorem atMost_transact (hc : chain ≠ []) :
    (transact bus chain).AtMost Access.isAny
      (idleBudget + (clearBudget + (6 + (waitBudget (Message.cost chain) + 2 * clearBudget)))) := by
  refine (atMost_awaitIdle bus (atMost_pollIdle bus) atMost_backoff pollLimit).bind fun idle _ => ?_
  refine AtMost.ite ((atMost_carry bus hc).mono (Nat.le_add_left _ _)) ?_
  refine (atMost_clear bus).bind fun cleared _ => ?_
  cases cleared with
  | ok _ => exact atMost_carry bus hc
  | error _ => trivial

/-- Opening and closing a session takes two accesses each. -/
theorem atMost_hold {α : Type} (refused : α) {body : Program α}
    (h : body.AtMost Access.isAny n) : (hold bus refused body).AtMost Access.isAny (n + 4) := by
  refine .access fun granted => AtMost.ite (.access fun _ => ?_) trivial
  exact h.bind fun _ _ => .access fun _ => .access fun _ => trivial

end Session

/-! ## Calls -/

namespace Master

variable (m : Master)

/-- An attempt hands back as many bytes to move as it was given. -/
theorem cost_of_transact {m : Master} {chain : List Message} {answer : Answer Nat}
    (h : (m.transact chain).Returns answer) : Message.cost answer.chain = Message.cost chain := by
  by_cases hv : Message.Valid chain
  · obtain ⟨trace, hexec⟩ := executes_of_returns h
    obtain ⟨_, _, t, -, -, hledger, hanswer, -⟩ := booked_transact hv hexec
    rw [hanswer]
    exact Message.cost_congr hledger.lengths
  · unfold transact at h
    rw [if_neg hv] at h
    split at h
    · cases returns_pure.mp h
      rfl
    · obtain ⟨_, -, h⟩ := returns_bind.mp h
      cases returns_pure.mp h
      rfl

theorem atMost_transact (chain : List Message) :
    (m.transact chain).AtMost Access.isAny (Session.budget (Message.cost chain)) := by
  unfold transact
  refine AtMost.ite ?_ (AtMost.noted (atMost_pure _) _)
  split
  · rename_i hv
    exact Session.atMost_hold _ _ (Session.atMost_transact _ hv.1)
  · trivial

/-- Every attempt has the same bound, and there is a pause between any two of them. -/
theorem atMost_persist (retries left : Nat) (chain : List Message) :
    (m.persist retries left chain).AtMost Access.isAny
      ((left + 1) * (Session.budget (Message.cost chain) + 1)) := by
  induction left generalizing chain with
  | zero =>
    unfold persist
    refine ((m.atMost_transact chain).bind (n := 0) fun attempt _ => ?_).mono (by omega)
    split
    · trivial
    · trivial
    · exact AtMost.noted (atMost_pure _) _
  | succ left ih =>
    rw [Nat.succ_mul, Nat.add_comm]
    unfold persist
    rw [Nat.add_assoc]
    refine (m.atMost_transact chain).bind fun attempt reached => ?_
    split
    · trivial
    · trivial
    · have hnext := ih attempt.chain
      rw [cost_of_transact reached] at hnext
      rw [Nat.add_comm 1]
      exact .access fun _ => AtMost.noted hnext _

theorem atMost_transactRetrying (retries : Nat) (chain : List Message) :
    (m.transactRetrying retries chain).AtMost Access.isAny
      ((retries + 1) * (Session.budget (Message.cost chain) + 1)) :=
  AtMost.ite (m.atMost_persist retries retries chain)
    (AtMost.noted (atMost_pure _) _)

theorem atMost_perform (address : UInt8) (operations : List Payload) :
    (m.perform address operations).AtMost Access.isAny
      (Session.budget (Message.cost (operations.map (Message.mk address)))) := by
  unfold perform
  refine AtMost.ite trivial (AtMost.ite trivial ?_)
  exact (m.atMost_transact _).bind_pure _

theorem atMost_recover : m.recover.AtMost Access.isAny (Session.clearBudget + 4) :=
  AtMost.ite (Session.atMost_hold _ _ (Session.atMost_clear _))
    (AtMost.noted (atMost_pure _) _)

theorem atMost_install : m.install.AtMost Access.isAny 7 := by
  unfold install
  refine AtMost.ite (AtMost.noted (atMost_pure _) _) ?_
  refine .access fun _ => .access fun _ => .access fun _ => AtMost.ite ?_ trivial
  refine .access fun _ => AtMost.noted (.access fun _ => .access fun claimed => ?_) _
  cases claimed <;> trivial

theorem atMost_uninstall : m.uninstall.AtMost Access.isAny 4 :=
  AtMost.ite (.access fun _ => .access fun _ => .access fun _ => .access fun _ => trivial) trivial

end Master

namespace Call

/-- Accesses of a call, from its bytes alone. -/
def budget : Call → Nat
  | install => 7
  | uninstall => 4
  | transact chain => Session.budget (Message.cost chain)
  | write address bytes =>
    (Master.writeRetries + 1) * (Session.budget (Message.cost [.write address bytes]) + 1)
  | read address register buffer =>
    (Master.readRetries + 1) *
      (Session.budget (Message.cost [.write address [register], .read address buffer]) + 1)
  | writeRead address bytes buffer =>
    (Master.readRetries + 1) *
      (Session.budget (Message.cost [.write address bytes, .read address buffer]) + 1)
  | perform address operations =>
    Session.budget (Message.cost (operations.map (Message.mk address)))
  | recover => Session.clearBudget + 4

/-- Every call keeps its budget, whatever the board answers. -/
theorem atMost_submit (m : Master) (call : Call) :
    (call.submit m).AtMost Access.isAny call.budget := by
  cases call with
  | install => exact m.atMost_install
  | uninstall => exact m.atMost_uninstall.bind_pure _
  | transact chain => exact (m.atMost_transact chain).bind_pure _
  | write address bytes =>
    exact (m.atMost_transactRetrying _ _).bind_pure _
  | read address register buffer =>
    exact (m.atMost_transactRetrying _ _).bind_pure _
  | writeRead address bytes buffer =>
    exact (m.atMost_transactRetrying _ _).bind_pure _
  | perform address operations =>
    exact (m.atMost_perform address operations).bind_pure _
  | recover => exact m.atMost_recover.bind_pure _

end Call

end TwoWire

import TwoWire.Proofs.AccessBounds
/-!
# How long a wait lasts

Only polls that move no byte count against the limit of a wait, and each byte that is moved starts the
count anew. The bytes outstanding bound how often that can happen, so they bound the polls. A wait is
given up after a standstill alone: as many polls in a row as the limit allows, none of which moved a
byte, and each of which found the bus busy or left the transaction unsettled.
-/
namespace TwoWire
open Program

/-- Polls in a trace. -/
def polls (trace : List Event) : Nat := accesses Access.isPoll trace

theorem polls_append (first second : List Event) :
    polls (first ++ second) = polls first + polls second :=
  accesses_append Access.isPoll first second

theorem polls_cons (e : Event) (rest : List Event) :
    polls (e :: rest) = e.access.isPoll.toNat + polls rest := by
  rw [← List.singleton_append, polls_append, polls, accesses_singleton]

/-- The handling of an event polls nothing. -/
theorem Program.Confined.polls_eq_zero {α : Type} {p : Program α} {trace : List Event} {a : α}
    (h : p.Confined Access.isExchange) (he : p.Executes trace a) : polls trace = 0 :=
  List.countP_eq_zero.mpr fun e hmem => by
    rw [Access.not_isPoll_of_isExchange (h.of_executes he e hmem)]
    exact Bool.false_ne_true

namespace Session

variable {bus : Bus} {line : UInt32} {t next last : Transaction} {trace : List Event} {n idle : Nat}

theorem exchanges_backoff (idle : Nat) : (backoff idle).Confined Access.isExchange := by
  unfold backoff
  split
  · exact ⟨rfl, fun _ => trivial⟩
  · trivial

/-! ## The number of polls -/

theorem polls_backoff (idle : Nat) : (backoff idle).AtMost Access.isPoll 0 :=
  (exchanges_backoff idle).atMost Access.not_isPoll_of_isExchange

theorem polls_pollIdle (bus : Bus) : (pollIdle bus).AtMost Access.isPoll 1 :=
  ⟨Nat.le_refl 1, fun _ => ⟨Nat.le_refl 0, fun _ => trivial⟩⟩

theorem polls_poll (bus : Bus) (t : Transaction) : (poll bus t).AtMost Access.isPoll 1 := by
  refine ⟨Nat.le_refl 1, fun _ => ⟨Nat.le_refl 0, fun word => AtMost.ite ?_ trivial⟩⟩
  exact ((t.exchanges_onEvent _).atMost Access.not_isPoll_of_isExchange).bind_pure _

theorem polls_settle (bus : Bus) (t : Transaction) :
    (settle bus 0 t).AtMost Access.isPoll (pollLimit * (t.outstanding + 1)) := by
  have hcount := atMost_settle bus (polls_poll bus) polls_backoff 0 t
  rwa [Nat.add_zero, Nat.one_mul, Nat.sub_zero] at hcount

theorem polls_awaitIdle (bus : Bus) (tries : Nat) :
    (awaitIdle bus tries).AtMost Access.isPoll tries := by
  have hcount := atMost_awaitIdle bus (polls_pollIdle bus) polls_backoff tries
  rwa [Nat.add_zero, Nat.one_mul] at hcount

/-! ## Polls that end no wait -/

/-- A poll that does not end the wait for a transaction, and the transaction after it. -/
inductive BusyPoll (line : UInt32) (t : Transaction) : List Event → Transaction → Prop
  /-- Nothing was pending and nothing failed, so the transaction was left alone; but the bus is busy. -/
  | unasked {word : UInt32} (clean : (Status.mk word).fault? = none)
      (busy : (Status.mk word).isBusy = true) :
    BusyPoll line t [⟨.takePending line, false⟩, ⟨.readRegister .status, word⟩] t
  /-- The event was handled; the bus is busy or the transaction has not settled yet. -/
  | handled {pending : Bool} {word : UInt32} {served : List Event} {next : Transaction}
      (asked : pending = true ∨ (Status.mk word).fault?.isSome)
      (event : (t.onEvent ⟨word⟩).Executes served next)
      (busy : (Status.mk word).isBusy = true ∨ next.phase.isTerminal = false) :
    BusyPoll line t (⟨.takePending line, pending⟩ :: ⟨.readRegister .status, word⟩ :: served) next

/-- `n` such polls in a row with their pauses, each of which takes the transaction on as `keeps`
says. -/
inductive Polling (line : UInt32) (keeps : Transaction → Transaction → Prop) :
    Nat → Transaction → List Event → Transaction → Prop
  | none (t : Transaction) : Polling line keeps 0 t [] t
  | more {n idle : Nat} {t next last : Transaction} {polled pause rest : List Event}
      (poll : BusyPoll line t polled next) (kept : keeps t next)
      (paused : (backoff idle).Executes pause ()) (further : Polling line keeps n next rest last) :
    Polling line keeps (n + 1) t (polled ++ (pause ++ rest)) last

/-- Polls in a row none of which moved a byte. -/
def Standstill (line : UInt32) : Nat → Transaction → List Event → Transaction → Prop :=
  Polling line fun t next => next.moved = t.moved

/-- Any polls in a row that end no wait. -/
def Waiting (line : UInt32) : Nat → Transaction → List Event → Transaction → Prop :=
  Polling line fun _ _ => True

theorem BusyPoll.polls_eq (h : BusyPoll line t trace next) : polls trace = 1 := by
  cases h with
  | unasked _ _ => rfl
  | handled _ event _ =>
    rw [polls_cons, polls_cons, (t.exchanges_onEvent _).polls_eq_zero event]
    rfl

theorem Polling.polls_eq {keeps : Transaction → Transaction → Prop}
    (h : Polling line keeps n t trace last) : polls trace = n := by
  induction h with
  | none t => rfl
  | more poll _ paused _ ih =>
    rw [polls_append, polls_append, poll.polls_eq, (exchanges_backoff _).polls_eq_zero paused, ih]
    omega

/-- Every poll looks for a pending event and takes a sample first. -/
theorem executes_look {α : Type} {a : α} {f : Bool → Status → Program α}
    (h : (takePending line >>= fun pending =>
      Controller.sample >>= fun status => f pending status).Executes trace a) :
    ∃ pending word rest,
      trace = ⟨.takePending line, pending⟩ :: ⟨.readRegister .status, word⟩ :: rest ∧
        (f pending ⟨word⟩).Executes rest a := by
  obtain ⟨pending, _, rfl, hsample⟩ := executes_access.mp h
  obtain ⟨word, rest, rfl, hrest⟩ := executes_access.mp hsample
  exact ⟨pending, word, rest, rfl, hrest⟩

theorem pause_of_backoff (h : (backoff idle).Executes trace ()) :
    trace = [] ∨ trace = [⟨.delay (backoffMicros * 1000), ()⟩] := by
  unfold backoff at h
  split at h
  · obtain ⟨_, _, rfl, hpure⟩ := executes_access.mp h
    obtain ⟨rfl, -⟩ := executes_pure.mp hpure
    exact .inr rfl
  · exact .inl (executes_pure.mp h).1

theorem busyPoll_of_executes {seen : Watched} (h : (poll bus t).Executes trace seen)
    (busy : seen.quiet = false) : BusyPoll bus.config.line t trace seen.transaction := by
  obtain ⟨pending, word, rest, rfl, hrest⟩ := executes_look h
  split at hrest
  · rename_i hasked
    obtain ⟨served, next, _, rfl, hevent, hpure⟩ := executes_bind.mp hrest
    obtain ⟨rfl, rfl⟩ := executes_pure.mp hpure
    rw [List.append_nil]
    refine .handled (Bool.or_eq_true_iff.mp hasked) hevent ?_
    rcases Bool.and_eq_false_iff.mp busy with hbus | hphase
    · exact .inl (by simpa using hbus)
    · exact .inr hphase
  · rename_i hunasked
    rw [Bool.not_eq_true, Bool.or_eq_false_iff] at hunasked
    obtain ⟨rfl, rfl⟩ := executes_pure.mp hrest
    obtain ⟨rfl, hclean⟩ := hunasked
    rw [Option.isSome_eq_false_iff, Option.isNone_iff_eq_none] at hclean
    exact .unasked hclean (by simpa using busy)

/-! ## Giving up -/

/-- The wait from `t` that ends in `last` ends with a standstill of as many polls as the limit
allows. -/
def EndsStill (line : UInt32) (t : Transaction) (trace : List Event) (last : Transaction) : Prop :=
  ∃ n earlier entered still, trace = earlier ++ still ∧ Waiting line n t earlier entered ∧
    Standstill line pollLimit entered still last

/-- A poll in front changes nothing about the end. -/
theorem EndsStill.after {polled pause rest : List Event}
    (h : EndsStill line next rest last) (poll : BusyPoll line t polled next)
    (paused : (backoff idle).Executes pause ()) :
    EndsStill line t (polled ++ (pause ++ rest)) last := by
  obtain ⟨n, earlier, entered, still, rfl, hearlier, hstill⟩ := h
  refine ⟨n + 1, polled ++ (pause ++ earlier), entered, still, ?_, ?_, hstill⟩
  · simp only [List.append_assoc]
  · exact .more poll trivial paused hearlier

theorem Standstill.endsStill (h : Standstill line pollLimit t trace last) :
    EndsStill line t trace last :=
  ⟨0, [], t, trace, rfl, .none t, h⟩

theorem EndsStill.le_polls (h : EndsStill line t trace last) : pollLimit ≤ polls trace := by
  obtain ⟨n, earlier, entered, still, rfl, hearlier, hstill⟩ := h
  rw [polls_append, hearlier.polls_eq, hstill.polls_eq]
  exact Nat.le_add_left _ _

/-- A wait that is given up either stood still from here on, up to the limit, or stood still at its end
for as long as the limit allows. -/
theorem still_of_settle {watched : Watched} (h : (settle bus idle t).Executes trace watched)
    (hidle : idle ≤ pollLimit) (hbusy : watched.quiet = false) :
    Standstill bus.config.line (pollLimit - idle) t trace watched.transaction ∨
      EndsStill bus.config.line t trace watched.transaction := by
  induction idle, t using Session.settle.induct bus generalizing trace with
  | case1 idle t early ihStill ihMoved =>
    rw [settle_eq, if_pos early] at h
    obtain ⟨polled, seen, _, rfl, hpoll, h⟩ := executes_bind.mp h
    have hreached := returns_of_executes hpoll
    split at h
    · rename_i hquiet
      obtain ⟨rfl, rfl⟩ := executes_pure.mp h
      cases hquiet.symm.trans hbusy
    rename_i hunsettled
    have hbusyPoll := busyPoll_of_executes hpoll (Bool.not_eq_true _ ▸ hunsettled)
    split at h
    · rename_i hsame
      obtain ⟨pause, _, rest, rfl, hpause, h⟩ := executes_bind.mp h
      rcases ihStill seen hreached hsame h early with hstill | hend
      · left
        have hsplit : pollLimit - idle = pollLimit - (idle + 1) + 1 := by omega
        rw [hsplit]
        exact .more hbusyPoll hsame hpause hstill
      · exact .inr (hend.after hbusyPoll hpause)
    · rename_i hother
      right
      have hnone : (backoff 0).Executes [] () := executes_pure.mpr ⟨rfl, rfl⟩
      rcases ihMoved seen hreached hother h (Nat.zero_le _) with hstill | hend
      · exact (Standstill.endsStill hstill).after hbusyPoll hnone
      · exact hend.after hbusyPoll hnone
  | case2 idle t late =>
    rw [settle_eq, if_neg late] at h
    obtain ⟨_, _, _, rfl, hnotes, h⟩ := executes_bind.mp h
    obtain ⟨rfl, rfl⟩ := executes_pure.mp h
    rw [executes_notes hnotes]
    left
    have hspent : pollLimit - idle = 0 := by omega
    rw [hspent]
    exact .none t

theorem endsStill_of_settle {watched : Watched} (h : (settle bus 0 t).Executes trace watched)
    (hbusy : watched.quiet = false) :
    EndsStill bus.config.line t trace watched.transaction := by
  rcases still_of_settle h (Nat.zero_le _) hbusy with hstill | hend
  · exact Standstill.endsStill hstill
  · exact hend

/-- Without a transaction every poll found the bus busy. -/
theorem busy_of_awaitIdle {tries : Nat} (h : (awaitIdle bus tries).Executes trace false) :
    polls trace = tries ∧
      ∀ word, (⟨.readRegister .status, word⟩ : Event) ∈ trace → (Status.mk word).isBusy = true := by
  induction tries generalizing trace with
  | zero =>
    obtain ⟨_, _, _, rfl, hnotes, h⟩ := executes_bind.mp h
    obtain ⟨rfl, -⟩ := executes_pure.mp h
    rw [executes_notes hnotes]
    exact ⟨rfl, nofun⟩
  | succ tries ih =>
    simp only [awaitIdle, pollIdle, bind_assoc, pure_bind] at h
    obtain ⟨pending, sampled, _, rfl, hpolled⟩ := executes_look h
    split at hpolled
    · rename_i hbusy
      obtain ⟨pause, _, rest, rfl, hpause, hrest⟩ := executes_bind.mp hpolled
      obtain ⟨hcount, hall⟩ := ih hrest
      have hnone : polls pause = 0 := (exchanges_backoff _).polls_eq_zero hpause
      refine ⟨?_, fun word hmem => ?_⟩
      · rw [polls_cons, polls_cons, polls_append, hnone, hcount]
        simp only [Access.isPoll, Bool.toNat_true, Bool.toNat_false]
        omega
      · rcases List.mem_cons.mp hmem with heq | hmem
        · cases heq
        rcases List.mem_cons.mp hmem with heq | hmem
        · cases heq
          exact hbusy
        rcases List.mem_append.mp hmem with hmem | hmem
        · rcases pause_of_backoff hpause with rfl | rfl
          · cases hmem
          · cases List.mem_singleton.mp hmem
        · exact hall word hmem
    · obtain ⟨_, _, _, rfl, -, hpure⟩ := executes_bind.mp hpolled
      cases (executes_pure.mp hpure).2

/-! ## Bounds -/

/-- Whatever has happened to a transaction before, a wait for it makes no more polls than the limit
allows for each byte that is outstanding and once more, and if it is given up it ends with a standstill:
as many polls in a row as the limit allows, none of which moved a byte, while the bus was busy or the
transaction unsettled. A wait for an idle bus makes no more polls than the limit allows, and if it is
given up the bus was busy in all of them. So every call, however it goes, ends within a number of
accesses that its bytes alone determine. -/
theorem waits_are_bounded {σ : Type} (hw : Hardware σ) (s : σ) (bus : Bus) (chain : List Message)
    (hc : chain ≠ []) (before : List Transaction.Incident) :
    let begun := (Transaction.undergo before (.start chain)).run hw s
    let waited := (settle bus 0 begun.value).run hw begun.state
    let idled := (awaitIdle bus pollLimit).run hw s
    polls waited.trace ≤ pollLimit * (Message.cost chain - begun.value.moved + 1) ∧
      (waited.value.quiet = false → pollLimit ≤ polls waited.trace ∧
        EndsStill bus.config.line begun.value waited.trace waited.value.transaction) ∧
      polls idled.trace ≤ pollLimit ∧
      (idled.value = false → polls idled.trace = pollLimit ∧
        ∀ word, (⟨.readRegister .status, word⟩ : Event) ∈ idled.trace →
          (Status.mk word).isBusy = true) ∧
      ∀ (m : Master) (call : Call), ((call.submit m).run hw s).trace.length ≤ call.budget := by
  intro begun waited idled
  have hupright := (Transaction.upright_start hc).undergo
    (returns_value_run hw (Transaction.undergo before (.start chain)) s)
  have houtstanding : begun.value.outstanding = Message.cost chain - begun.value.moved :=
    Nat.eq_sub_of_add_eq' hupright.balance
  have hwaited := executes_run hw (settle bus 0 begun.value) begun.state
  have hidled := executes_run hw (awaitIdle bus pollLimit) s
  refine ⟨?_, fun hbusy => ?_, ?_, fun hbusy => ?_, fun m call => ?_⟩
  · rw [← houtstanding]
    exact (polls_settle bus begun.value).accesses_run hw begun.state
  · have hend := endsStill_of_settle hwaited hbusy
    exact ⟨hend.le_polls, hend⟩
  · exact (polls_awaitIdle bus pollLimit).accesses_run hw s
  · change (awaitIdle bus pollLimit).Executes idled.trace idled.value at hidled
    rw [hbusy] at hidled
    exact busy_of_awaitIdle hidled
  · rw [← accesses_isAny]
    exact (call.atMost_submit m).accesses_run hw s

/-- The bus reads busy for ever and nothing is ever pending. -/
def jammedScript : Script := { status := ⟨[(0x100, 1)]⟩ }

theorem ends_poll_jammed (t : Transaction) :
    (poll bus t).ends Script.respond jammedScript = (⟨false, t⟩, jammedScript) := by
  have hpending : (takePending bus.config.line).ends Script.respond jammedScript =
      (false, jammedScript) := rfl
  have hsample : Controller.sample.ends Script.respond jammedScript =
      (⟨0x100⟩, jammedScript) := rfl
  have hclean : (Status.mk 0x100).fault? = none := by decide
  have hbusy : (Status.mk 0x100).isBusy = true := by decide
  rw [poll, ends_bind_eq hpending, ends_bind_eq hsample, hclean, hbusy]
  rfl

theorem ends_settle_jammed (t : Transaction) {left : Nat} (hleft : idle + left = pollLimit) :
    (settle bus idle t).ends Script.respond jammedScript = (⟨false, t⟩, jammedScript) := by
  induction left generalizing idle with
  | zero => exact Bench.ends_settle_limit (Nat.le_of_eq hleft.symm)
  | succ left ih =>
    have hpause : ((backoff idle).ends Script.respond jammedScript).2 = jammedScript := by
      unfold backoff
      split <;> rfl
    rw [Bench.ends_settle_still (by omega) (ends_poll_jammed t) rfl rfl, hpause]
    exact ih (by omega)

theorem given_up_jammed (t : Transaction) :
    ((settle bus 0 t).run Script.respond jammedScript).value.quiet = false := by
  rw [(run_of_ends (ends_settle_jammed t (Nat.zero_add pollLimit))).1]

/-- The address of a write goes out and then the bus stays busy: the wait for the other two bytes is
given up, after no more than three times the polls that the limit allows. -/
theorem waits_are_bounded_on_jammedScript :
    let bus := benchMaster.bus
    let chain := [Message.write 0x48 [16, 7]]
    let begun := (Transaction.undergo [.event ⟨0⟩] (.start chain)).run Script.respond jammedScript
    let waited := (settle bus 0 begun.value).run Script.respond begun.state
    chain ≠ [] ∧ begun.value.moved = 1 ∧ waited.value.quiet = false ∧
      200 ≤ polls waited.trace ∧ polls waited.trace ≤ 600 ∧
      EndsStill bus.config.line begun.value waited.trace waited.value.transaction ∧
      ((Call.recover.submit benchMaster).run Script.respond jammedScript).trace.length ≤ 201 := by
  obtain ⟨hpolls, hgivenUp, -, -, hcalls⟩ := waits_are_bounded Script.respond jammedScript
    benchMaster.bus [.write 0x48 [16, 7]] nofun [.event ⟨0⟩]
  obtain ⟨hlong, hend⟩ := hgivenUp (given_up_jammed _)
  exact ⟨nofun, by decide, given_up_jammed _, hlong, hpolls, hend, hcalls benchMaster .recover⟩

end Session
end TwoWire

import TwoWire.Proofs.Calls
import TwoWire.Proofs.Delivery
/-!
# The law of retries

A call that is tried again is a row of attempts, each of them one transaction on the same messages.
The row ends with the first attempt that gets every message through, or with the last one that is
allowed, and a single pause stands between any two of them. A row that ends well hands back what was
read in its last attempt: an attempt that gets every message through fills every buffer anew.
-/
namespace TwoWire
open Program

namespace Message

/-- The message without what its buffer holds. -/
def blank (m : Message) : Message :=
  match m.payload with
  | .write _ => m
  | .read buffer => .read m.address (.replicate buffer.length 0)

theorem blank_fill {m : Message} {received : List UInt8}
    (h : (m.fill received).length = m.length) : (m.fill received).blank = m.blank := by
  obtain ⟨address, payload⟩ := m
  cases payload with
  | write bytes => rfl
  | read buffer => exact congrArg (fun n => Message.read address (.replicate n 0)) h

@[simp] theorem legs_blank (m : Message) (j : Nat) (last : Bool) :
    m.blank.legs j last = m.legs j last := by
  obtain ⟨address, payload⟩ := m
  cases payload with
  | write bytes => rfl
  | read buffer =>
    simp [blank, read, legs, body, addressWord, isRead, Payload.isRead, length, Payload.bytes]

/-- What a chain has to move does not depend on what its buffers hold. -/
theorem itinerary_blank (j : Nat) (chain : List Message) :
    itinerary j (chain.map blank) = itinerary j chain := by
  induction chain generalizing j with
  | nil => rfl
  | cons m rest ih => simp [itinerary, ih]

end Message

/-! ## What an attempt moves -/

namespace Ledger

variable {chain : List Message} {moves : List Move} {t : Transaction} {trace : List Event}

theorem blank (h : Ledger chain moves t) :
    t.chain.map Message.blank = chain.map Message.blank := by
  refine List.ext_getElem? fun j => ?_
  have hlength := congrArg (fun lengths : List Nat => lengths[j]?) h.lengths
  rw [h.filled] at hlength ⊢
  simp only [List.getElem?_map, getElem?_filled] at hlength ⊢
  cases hm : chain[j]? with
  | none => rfl
  | some m =>
    simp only [hm, Option.map_some, Option.some.injEq] at hlength ⊢
    exact Message.blank_fill hlength

/-- Once every message has been moved, each of them has moved all its bytes. -/
theorem dataMoved_of_completed (h : Ledger chain moves t) (hall : t.completed = chain.length)
    {j : Nat} {m : Message} (hm : chain[j]? = some m) : t.dataMoved j m.length = m.length := by
  obtain ⟨hj, -⟩ := List.getElem?_eq_some_iff.mp hm
  rw [← h.length_chain] at hall hj
  obtain ⟨hlast, -, hleft⟩ := (Transaction.completed_eq_length_iff h.fits).mp hall
  unfold Transaction.messagesLeft at hlast
  by_cases hcurrent : j = t.current
  · subst hcurrent
    obtain ⟨m', hm', -, hlength⟩ := h.current
    rw [hm, Option.some.injEq] at hm'
    subst hm'
    simp [Transaction.dataMoved]
    omega
  · have hbefore : j < t.current := by omega
    simp [Transaction.dataMoved, hbefore]

/-- All stages are done then, and every buffer holds what was stored. -/
theorem of_completed (h : Ledger chain moves t) (hall : t.completed = chain.length) :
    moves.filterMap Move.stage? = Message.itinerary 0 chain ∧
      ∀ j m, t.chain[j]? = some m → m.isRead → m.payload.bytes = storedIn j moves := by
  constructor
  · have hdone := hall
    rw [← h.length_chain] at hdone
    obtain ⟨hlast, hposition, hleft⟩ := (Transaction.completed_eq_length_iff h.fits).mp hdone
    have hstages := h.stages
    rwa [Transaction.ahead_eq_nil h.fits hlast hposition hleft, List.append_nil] at hstages
  · intro j m hm hread
    rw [h.filled, getElem?_filled] at hm
    obtain ⟨m₀, hm₀, rfl⟩ := Option.map_eq_some_iff.mp hm
    rw [Message.isRead_fill] at hread
    have hstored := h.stored j m₀ hm₀ hread
    rw [h.dataMoved_of_completed hall hm₀] at hstored
    obtain ⟨address, payload⟩ := m₀
    cases payload with
    | write bytes => cases hread
    | read buffer =>
      have hfull : (storedIn j moves).length = buffer.length := hstored
      simp [Message.fill, Payload.fill, Payload.bytes, hfull]

theorem completed_le (h : Ledger chain moves t) : t.completed ≤ chain.length := by
  obtain ⟨m, hm, -⟩ := h.fits
  obtain ⟨hlt, -⟩ := List.getElem?_eq_some_iff.mp hm
  rw [← h.length_chain]
  unfold Transaction.completed
  split <;> omega

/-! ## Through a session -/

/-- What happens between the moves of two parts is booked with them. -/
theorem Books.append {first second : List Event} {t' : Transaction}
    (h : Books chain moves first t)
    (h' : ∀ {made}, Ledger chain made t → Books chain made second t') :
    Books chain moves (first ++ second) t' := by
  obtain ⟨more, hmore, hledger⟩ := h
  obtain ⟨later, hlater, hledger'⟩ := h' hledger
  refine ⟨more ++ later, ?_, ?_⟩
  · rw [List.map_append]
    exact hmore.append hlater
  · rwa [← List.append_assoc]

theorem Books.none (h : Ledger chain moves t) : Books chain moves [] t :=
  ⟨[], .nil, by simpa using h⟩

/-- What comes before the moves may be anything that is no traffic. -/
theorem Books.after {first second : List Event} (h : Books chain moves second t)
    (hs : Carries first []) : Books chain moves (first ++ second) t := by
  obtain ⟨more, hmore, hledger⟩ := h
  exact ⟨more, hs.append hmore, hledger⟩

end Ledger

namespace Session

variable {bus : Bus} {chain : List Message} {moves : List Move} {t : Transaction}
  {trace : List Event} {answer : Answer Nat}

theorem silent_takePending {line : UInt32} {pending : Bool}
    (h : (takePending line).Executes trace pending) : Carries trace [] := by
  obtain ⟨_, _, rfl, hpure⟩ := executes_access.mp h
  obtain ⟨rfl, -⟩ := executes_pure.mp hpure
  exact fun _ => rfl

theorem silent_sample {status : Status} (h : Controller.sample.Executes trace status) :
    Carries trace [] := by
  simp only [Controller.sample, readRegister, executes_bind, executes_access, executes_pure] at h
  obtain ⟨_, _, _, rfl, ⟨_, _, rfl, rfl, -⟩, rfl, -⟩ := h
  exact fun _ => rfl

theorem silent_backoff {idle : Nat} (h : (backoff idle).Executes trace ()) : Carries trace [] := by
  unfold backoff at h
  split at h
  · obtain ⟨_, _, rfl, hpure⟩ := executes_access.mp h
    obtain ⟨rfl, -⟩ := executes_pure.mp hpure
    exact fun _ => rfl
  · obtain ⟨rfl, -⟩ := executes_pure.mp h
    exact .nil

theorem books_poll {seen : Watched} (h : Ledger chain moves t)
    (he : (poll bus t).Executes trace seen) : Ledger.Books chain moves trace seen.transaction := by
  obtain ⟨_, pending, _, rfl, hpending, he⟩ := executes_bind.mp he
  obtain ⟨_, status, _, rfl, hsample, he⟩ := executes_bind.mp he
  refine .after (.after ?_ (silent_sample hsample)) (silent_takePending hpending)
  split at he
  · obtain ⟨first, next, _, rfl, hevent, hpure⟩ := executes_bind.mp he
    obtain ⟨rfl, rfl⟩ := executes_pure.mp hpure
    rw [List.append_nil]
    exact h.books_onEvent hevent
  · obtain ⟨rfl, rfl⟩ := executes_pure.mp he
    exact .none h

/-- Whatever its polls find, a wait books what it moves. -/
theorem books_settle {idle : Nat} {watched : Watched} (h : Ledger chain moves t)
    (he : (settle bus idle t).Executes trace watched) :
    Ledger.Books chain moves trace watched.transaction := by
  induction idle, t using settle.induct bus generalizing moves trace with
  | case1 idle t early ihStill ihMoved =>
    rw [settle_eq, if_pos early] at he
    obtain ⟨first, seen, _, rfl, hpoll, he⟩ := executes_bind.mp he
    have hreached := returns_of_executes hpoll
    refine (books_poll h hpoll).append fun h => ?_
    split at he
    · obtain ⟨rfl, rfl⟩ := executes_pure.mp he
      exact .none h
    split at he
    · rename_i hsame
      obtain ⟨_, _, _, rfl, hpause, he⟩ := executes_bind.mp he
      exact (ihStill seen hreached hsame h he).after (silent_backoff hpause)
    · rename_i hother
      exact ihMoved seen hreached hother h he
  | case2 idle t late =>
    rw [settle_eq, if_neg late] at he
    obtain ⟨_, _, _, rfl, hnotes, he⟩ := executes_bind.mp he
    obtain ⟨rfl, rfl⟩ := executes_pure.mp he
    rw [executes_notes hnotes]
    exact .none h

/-- The answer tells of the transaction: its chain, and how many messages went through if nothing
failed. -/
def Renders (t : Transaction) (answer : Answer Nat) : Prop :=
  answer.chain = t.chain ∧ ∀ completed, answer.result = .ok completed → completed = t.completed

theorem renders_conclude (h : (conclude bus t).Returns answer) : Renders t answer := by
  unfold conclude at h
  split at h
  · simp only [returns_bind, returns_pure] at h
    obtain ⟨_, -, _, -, rfl⟩ := h
    exact ⟨rfl, fun _ hok => by cases hok⟩
  · simp only [returns_bind, returns_pure] at h
    obtain ⟨_, -, rfl⟩ := h
    exact ⟨rfl, fun _ hok => (Except.ok.inj hok).symm⟩

theorem renders_abandon (h : (abandon bus t).Returns answer) : Renders t answer := by
  simp only [abandon, returns_bind] at h
  obtain ⟨_, -, cleared, -, h⟩ := h
  cases cleared with
  | ok _ => exact renders_conclude (t := t.giveUp) h
  | error _ =>
    cases returns_pure.mp h
    exact ⟨rfl, nofun⟩

/-- Somewhere in the trace the chain is moved, and the answer tells how far. -/
def Booked (chain : List Message) (trace : List Event) (answer : Answer Nat) : Prop :=
  ∃ window moves t, window <:+: trace ∧ Carries window (moves.map Move.beat) ∧
    Ledger chain moves t ∧ Renders t answer

/-- A chain that was not begun is as it was. -/
theorem Booked.untouched (hc : chain ≠ []) (trace : List Event) (error : Error) :
    Booked chain trace ⟨.error error, chain⟩ :=
  ⟨[], [], .start chain, List.nil_infix, .nil, .start hc, rfl, nofun⟩

theorem Booked.widen {longer : List Event} (h : Booked chain trace answer)
    (hwithin : trace <:+: longer) : Booked chain longer answer := by
  obtain ⟨window, moves, t, hwindow, hrest⟩ := h
  exact ⟨window, moves, t, hwindow.trans hwithin, hrest⟩

theorem booked_carry (hc : chain ≠ []) (h : (carry bus chain).Executes trace answer) :
    Booked chain trace answer := by
  obtain ⟨sampled, status, _, rfl, hsample, h⟩ := executes_bind.mp h
  obtain ⟨begun, primed, _, rfl, hevent, h⟩ := executes_bind.mp h
  obtain ⟨settled, watched, last, rfl, hsettle, h⟩ := executes_bind.mp h
  have hbegun := (Ledger.start hc).books_onEvent hevent
  have hbooks : Ledger.Books chain [] (sampled ++ (begun ++ settled)) watched.transaction :=
    (hbegun.append fun h => books_settle h hsettle).after (silent_sample hsample)
  obtain ⟨moves, hcarries, hledger⟩ := hbooks
  refine ⟨_, moves, watched.transaction, ?_, hcarries, hledger, ?_⟩
  · exact ⟨[], last, by simp only [List.nil_append, List.append_assoc]⟩
  · obtain ⟨_, -, hanswer⟩ := returns_bind.mp (returns_of_executes h)
    split at hanswer
    · exact renders_conclude hanswer
    · exact renders_abandon hanswer

theorem booked_transact (hc : chain ≠ []) (h : (transact bus chain).Executes trace answer) :
    Booked chain trace answer := by
  obtain ⟨waited, idle, _, rfl, -, h⟩ := executes_bind.mp h
  refine Booked.widen ?_ (List.suffix_append waited _).isInfix
  split at h
  · exact booked_carry hc h
  · obtain ⟨freed, cleared, _, rfl, -, h⟩ := executes_bind.mp h
    refine Booked.widen ?_ (List.suffix_append freed _).isInfix
    cases cleared with
    | ok _ => exact booked_carry hc h
    | error error =>
      obtain ⟨rfl, rfl⟩ := executes_pure.mp h
      exact .untouched hc _ error

/-- A held session runs its body, or is refused without it. -/
theorem body_of_hold {α : Type} {refused a : α} {body : Program α}
    (h : (hold bus refused body).Executes trace a) :
    a = refused ∨ ∃ inner, inner <:+: trace ∧ body.Executes inner a := by
  obtain ⟨opened, granted, _, rfl, -, h⟩ := executes_bind.mp h
  split at h
  · obtain ⟨unmasked, _, _, rfl, -, h⟩ := executes_bind.mp h
    obtain ⟨inner, result, last, rfl, hbody, h⟩ := executes_bind.mp h
    simp only [maskLine, disableClock, executes_bind, executes_access, executes_pure] at h
    obtain ⟨_, _, _, -, -, _, _, _, -, -, -, rfl⟩ := h
    exact .inr ⟨inner, ⟨opened ++ unmasked, last, by simp only [List.append_assoc]⟩, hbody⟩
  · exact .inl (executes_pure.mp h).2

end Session

namespace Master

variable {σ : Type} {hw : Hardware σ} {m : Master} {chain : List Message} {s : σ}

theorem booked_transact {trace : List Event} {answer : Answer Nat} (hv : Message.Valid chain)
    (h : (m.transact chain).Executes trace answer) : Session.Booked chain trace answer := by
  unfold transact at h
  rw [if_pos hv] at h
  split at h
  · obtain rfl | ⟨inner, hinner, hbody⟩ := Session.body_of_hold h
    · exact .untouched hv.1 _ _
    · exact (Session.booked_transact hv.1 hbody).widen hinner
  · obtain ⟨_, _, _, rfl, -, hpure⟩ := executes_bind.mp h
    obtain ⟨rfl, rfl⟩ := executes_pure.mp hpure
    exact .untouched hv.1 _ _

/-! ## A row of attempts -/

/-- Attempt number `i`, if none before it is the last one. Each but the first comes after a pause,
on the chain that the one before it handed back. -/
def attempt (hw : Hardware σ) (m : Master) (chain : List Message) (s : σ) :
    Nat → Outcome σ (Answer Nat)
  | 0 => (m.transact chain).run hw s
  | i + 1 =>
    let before := attempt hw m chain s i
    (m.transact before.value.chain).run hw (hw pause before.state).2

/-- The attempts after the first one are a row of their own. -/
theorem attempt_succ (i : Nat) :
    let o := attempt hw m chain s 0
    attempt hw m chain s (i + 1) = attempt hw m o.value.chain (hw pause o.state).2 i := by
  intro o
  induction i with
  | zero => rfl
  | succ i ih => rw [attempt, ih, attempt]

/-- What the answer of a row makes of its last attempt: number `n`, with `left + 1` allowed. -/
inductive Verdict (left n requested : Nat) : Except Error Nat → Except Error Unit → Prop
  | done : Verdict left n requested (.ok requested) (.ok ())
  | failed (spent : n = left) (error : Error) :
    Verdict left n requested (.error error) (.error error)
  | incomplete (spent : n = left) {completed : Nat} (short : completed < requested) :
    Verdict left n requested (.ok completed) (.error (.incomplete completed requested))

theorem Verdict.succ {left n requested : Nat} {result : Except Error Nat}
    {verdict : Except Error Unit} (h : Verdict left n requested result verdict) :
    Verdict (left + 1) (n + 1) requested result verdict := by
  cases h with
  | done => exact .done
  | failed spent error => exact .failed (congrArg _ spent) error
  | incomplete spent short => exact .incomplete (congrArg _ spent) short

/-- The attempt has moved the chain from its first to its last byte, and what it hands back in the
buffers is what it stored there itself. -/
def Anew (chain : List Message) (o : Outcome σ (Answer Nat)) : Prop :=
  ∃ window moves, window <:+: o.trace ∧ traffic window = moves.map Move.beat ∧
    moves.filterMap Move.stage? = Message.itinerary 0 chain ∧
    ∀ j m, o.value.chain[j]? = some m → m.isRead → m.payload.bytes = storedIn j moves

/-- The outcome `o` is that of the attempts `0` to `n`, out of at most `left + 1`. -/
structure Row (hw : Hardware σ) (m : Master) (left : Nat) (chain : List Message) (s : σ) (n : Nat)
    (o : Outcome σ (Answer Unit)) : Prop where
  bound : n ≤ left
  failed : ∀ i < n, (attempt hw m chain s i).value.result ≠ .ok chain.length
  verdict : Verdict left n chain.length (attempt hw m chain s n).value.result o.value.result
  answered : o.value.chain = (attempt hw m chain s n).value.chain
  state : o.state = (attempt hw m chain s n).state
  trace : o.trace = (attempt hw m chain s 0).trace ++
    (List.range n).flatMap fun i => ⟨pause, ()⟩ :: (attempt hw m chain s (i + 1)).trace
  same : ∀ i, (attempt hw m chain s i).value.chain.map Message.blank = chain.map Message.blank
  anew : o.value.result = .ok () → Anew chain (attempt hw m chain s n)

section
variable (hw : Hardware σ) (m : Master) (s : σ)

theorem booked_attempt (hv : Message.Valid chain) :
    let o := attempt hw m chain s 0
    Session.Booked chain o.trace o.value :=
  booked_transact hv (executes_run hw _ _)

theorem accepts_attempt (hv : Message.Valid chain) :
    let o := attempt hw m chain s 0
    Session.Accepts chain o.value :=
  accepts_of_transact hv (returns_value_run hw _ _)

theorem same_first (hv : Message.Valid chain) :
    let o := attempt hw m chain s 0
    Message.Valid o.value.chain ∧
      o.value.chain.map Message.blank = chain.map Message.blank := by
  obtain ⟨_, _, _, -, -, hledger, hanswer, -⟩ := booked_attempt hw m s hv
  refine ⟨Message.valid_of_addresses (accepts_attempt hw m s hv).addresses hv, ?_⟩
  rw [hanswer, hledger.blank]

/-- All attempts are on the same messages, up to what the buffers hold. -/
theorem same_attempt (hv : Message.Valid chain) (i : Nat) :
    let o := attempt hw m chain s i
    Message.Valid o.value.chain ∧
      o.value.chain.map Message.blank = chain.map Message.blank := by
  induction i with
  | zero => exact same_first hw m s hv
  | succ i ih =>
    obtain ⟨hvalid, hblank⟩ :=
      same_first hw m (hw pause (attempt hw m chain s i).state).2 ih.1
    exact ⟨hvalid, hblank.trans ih.2⟩

/-- The verdict on an attempt that no other attempt follows. -/
theorem verdict_last {left : Nat} (hv : Message.Valid chain) :
    let result := (attempt hw m chain s 0).value.result
    Answer.Final chain.length result ∨ left = 0 →
      Verdict left 0 chain.length result (Answer.verdict chain.length result) := by
  intro result h
  obtain ⟨_, _, t, -, -, hledger, -, hcompleted⟩ := booked_attempt hw m s hv
  have haccepted : result ≠ .error .invalidChain := (accepts_attempt hw m s hv).accepted
  change ∀ completed, result = _ → _ at hcompleted
  clear_value result
  cases result with
  | ok completed =>
    by_cases hall : completed = chain.length
    · subst hall
      simpa [Answer.verdict] using Verdict.done
    · have hspent : left = 0 := h.resolve_left (Answer.not_final_ok hall)
      have hshort : completed < chain.length := by
        have hle := hledger.completed_le
        rw [← hcompleted completed rfl] at hle
        omega
      simpa [Answer.verdict, hall] using Verdict.incomplete hspent.symm hshort
  | error error =>
    refine .failed (h.resolve_left ?_).symm error
    rintro (hok | hinvalid)
    · cases hok
    · exact haccepted hinvalid

theorem anew_attempt (hv : Message.Valid chain) :
    let o := attempt hw m chain s 0
    o.value.result = .ok chain.length → Anew chain o := by
  intro o hall
  obtain ⟨window, moves, t, hwindow, hcarries, hledger, hanswer, hcompleted⟩ :=
    booked_attempt hw m s hv
  obtain ⟨hstages, hstored⟩ := hledger.of_completed (hcompleted _ hall).symm
  refine ⟨window, moves, hwindow, hcarries.traffic_eq, hstages, ?_⟩
  rw [hanswer]
  exact hstored

theorem Anew.of_same {other : List Message} {o : Outcome σ (Answer Nat)} (h : Anew other o)
    (hsame : other.map Message.blank = chain.map Message.blank) : Anew chain o := by
  obtain ⟨window, moves, hwindow, htraffic, hstages, hstored⟩ := h
  refine ⟨window, moves, hwindow, htraffic, ?_, hstored⟩
  rw [hstages, ← Message.itinerary_blank 0 chain, ← hsame, Message.itinerary_blank]

variable {left : Nat}

/-- A row that ends with its first attempt. -/
theorem row_last (hv : Message.Valid chain) (retries : Nat)
    (h : Answer.Final chain.length (attempt hw m chain s 0).value.result ∨ left = 0) :
    m.Row hw left chain s 0 ((m.persist retries left chain).run hw s) := by
  have hfirst : (m.transact chain).run hw s = attempt hw m chain s 0 := rfl
  obtain ⟨hvalue, hstate, htrace⟩ := run_persist_last hfirst retries h
  constructor
  case bound => exact Nat.zero_le left
  case failed => exact nofun
  case verdict =>
    rw [hvalue]
    exact verdict_last hw m s hv h
  case answered => rw [hvalue]
  case state => exact hstate
  case trace => simpa using htrace
  case same => exact fun i => (same_attempt hw m s hv i).2
  case anew =>
    intro hok
    rw [hvalue] at hok
    exact anew_attempt hw m s hv (Answer.verdict_eq_ok.mp hok)

/-- A row that goes on after its first attempt. -/
theorem row_again (hv : Message.Valid chain) (retries : Nat)
    (h : ¬ Answer.Final chain.length (attempt hw m chain s 0).value.result) {n : Nat} :
    let o := attempt hw m chain s 0
    let s' := (hw pause o.state).2
    let rest := (m.persist retries left o.value.chain).run hw s'
    let all := (m.persist retries (left + 1) chain).run hw s
    m.Row hw left o.value.chain s' n rest → m.Row hw (left + 1) chain s (n + 1) all := by
  intro o s' rest all hrest
  obtain ⟨hvalue, hstate, htrace⟩ : all.value = rest.value ∧ all.state = rest.state ∧
      all.trace = o.trace ++ ⟨pause, ()⟩ :: rest.trace := run_persist_again rfl h retries left
  have hsame : o.value.chain.map Message.blank = chain.map Message.blank :=
    (same_attempt hw m s hv 0).2
  have hlength : o.value.chain.length = chain.length := by
    simpa using congrArg List.length hsame
  have hshift : ∀ i, attempt hw m chain s (i + 1) = attempt hw m o.value.chain s' i := attempt_succ
  constructor
  case bound => exact Nat.succ_le_succ hrest.bound
  case failed =>
    intro i hi
    cases i with
    | zero => exact fun hok => h (.inl hok)
    | succ i =>
      rw [hshift, ← hlength]
      exact hrest.failed i (Nat.lt_of_succ_lt_succ hi)
  case verdict =>
    rw [hvalue, hshift, ← hlength]
    exact hrest.verdict.succ
  case answered => rw [hvalue, hshift, hrest.answered]
  case state => rw [hstate, hshift, hrest.state]
  case trace =>
    have hfurther : (List.range (n + 1)).flatMap (fun i =>
        ⟨pause, ()⟩ :: (attempt hw m chain s (i + 1)).trace) = ⟨pause, ()⟩ ::
          ((attempt hw m o.value.chain s' 0).trace ++ (List.range n).flatMap fun i =>
            ⟨pause, ()⟩ :: (attempt hw m o.value.chain s' (i + 1)).trace) := by
      simp only [List.range_succ_eq_map, List.flatMap_cons, List.flatMap_map, hshift,
        List.cons_append]
    rw [htrace, hrest.trace, hfurther]
  case same => exact fun i => (same_attempt hw m s hv i).2
  case anew =>
    intro hok
    rw [hvalue] at hok
    rw [hshift]
    exact (hrest.anew hok).of_same hsame

/-- However the attempts go, they make a row. -/
theorem row_of_persist (hv : Message.Valid chain) (retries left : Nat) :
    ∃ n, m.Row hw left chain s n ((m.persist retries left chain).run hw s) := by
  induction left generalizing chain s with
  | zero => exact ⟨0, row_last hw m s hv retries (.inr rfl)⟩
  | succ left ih =>
    by_cases hfinal : Answer.Final chain.length (attempt hw m chain s 0).value.result
    · exact ⟨0, row_last hw m s hv retries (.inl hfinal)⟩
    · obtain ⟨n, hrest⟩ := ih (hw pause (attempt hw m chain s 0).state).2 (same_first hw m s hv).1
      exact ⟨n + 1, row_again hw m s hv retries hfinal hrest⟩

end

/-! ## Calls -/

/-- A call that is tried again, the address it is for and the chain that it comes to. -/
inductive Retried (m : Master) (address : UInt8) : Program (Answer Unit) → List Message → Prop
  | write (bytes : List UInt8) : Retried m address (m.write address bytes) [.write address bytes]
  | writeRead (bytes buffer : List UInt8) :
    Retried m address (m.writeRead address bytes buffer)
      [.write address bytes, .read address buffer]
  | read (register : UInt8) (buffer : List UInt8) :
    Retried m address (m.read address register buffer)
      [.write address [register], .read address buffer]

variable {address : UInt8} {call : Program (Answer Unit)}

theorem Retried.valid_iff (h : m.Retried address call chain) :
    Message.Valid chain ↔ address ≤ 0x7f := by
  cases h <;> simp [Message.Valid, Message.write, Message.read]

theorem Retried.address_eq (h : m.Retried address call chain) :
    ∀ w ∈ chain, w.address = address := by
  cases h <;> simp [Message.write, Message.read]

/-- No call reads before its last message. -/
theorem Retried.reads (h : m.Retried address call chain) :
    ∀ w ∈ chain.dropLast, w.isRead = false := by
  cases h <;> simp [Message.write, Message.isRead, Payload.isRead]

theorem Retried.call_eq (hm : m.installed = true) (h : m.Retried address call chain) :
    call = m.persist 10 10 chain := by
  cases h <;> exact if_pos hm

/-- A call of an installed master for an address that a bus has is a row of up to eleven attempts:
transactions on the same messages with a single pause between any two of them and nothing besides.
It ends with the first one that gets every message through, or else with the eleventh, whose failure
is the answer. If it ends well, all that the buffers hold was stored in its last attempt. For any
other address the call is turned away before the first access. -/
theorem calls_are_rows (hm : m.installed = true) (hcall : m.Retried address call chain)
    (hw : Hardware σ) (s : σ) :
    let o := call.run hw s
    if address ≤ 0x7f then ∃ n, m.Row hw 10 chain s n o
    else o.value = ⟨.error .invalidChain, chain⟩ ∧ o.state = s ∧ o.trace = [] := by
  intro o
  have ho : o = (m.persist 10 10 chain).run hw s := by rw [← hcall.call_eq hm]
  rw [ho]
  split
  · rename_i haddress
    exact row_of_persist hw m s (hcall.valid_iff.mpr haddress) 10 10
  · rename_i haddress
    have hinvalid : (m.transact chain).run hw s = ⟨⟨.error .invalidChain, chain⟩, s, [], []⟩ := by
      rw [transact, if_pos hm, if_neg (mt hcall.valid_iff.mp haddress), run_pure]
    exact run_persist_last hinvalid 10 (.inl (.inr rfl))

/-- A write on a bench that has no such slave, and a read for an address that no bus has. -/
theorem calls_are_rows_on_registerBench :
    benchMaster.installed = true ∧
      (∃ n, benchMaster.Row Bench.respond 10 [.write 0x50 [16, 7]] registerBench n
        ((benchMaster.write 0x50 [16, 7]).run Bench.respond registerBench)) ∧
      ((benchMaster.read 0x80 16 [0]).run Bench.respond registerBench).value =
        ⟨.error .invalidChain, [.write 0x80 [16], .read 0x80 [0]]⟩ := by
  have hwrite : benchMaster.Retried 0x50 _ _ := .write [16, 7]
  have hread : benchMaster.Retried 0x80 _ _ := .read 16 [0]
  have hrow := calls_are_rows rfl hwrite Bench.respond registerBench
  have hrejected := calls_are_rows rfl hread Bench.respond registerBench
  rw [if_pos (by decide)] at hrow
  rw [if_neg (by decide)] at hrejected
  exact ⟨rfl, hrow, hrejected.1⟩

end Master
end TwoWire

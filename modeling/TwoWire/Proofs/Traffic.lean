import TwoWire.Proofs.Execution
import TwoWire.Transaction
/-!
# Traffic at the queues

A trace lists every access. What crosses the two queues is read off it: the words pushed after a
look at the pads, the words pushed at once, and the bytes pulled. Whatever else a trace holds, the
traffic of a sequence is the traffic of its parts, as long as no part ends between a look at the
pads and the word that it was for.
-/
namespace TwoWire

/-- One word or byte at the queues. -/
inductive Beat
  /-- A word pushed after a look at the pads. -/
  | paced (word : UInt32)
  /-- A word pushed at once. -/
  | bare (word : UInt32)
  | pulled (byte : UInt8)
  deriving DecidableEq

namespace Beat

def paced? : Beat → Option UInt32
  | paced word => some word
  | _ => none

/-- The word of a beat that goes out. -/
def pushed? : Beat → Option UInt32
  | paced word => some word
  | bare word => some word
  | pulled _ => none

end Beat

/-- The traffic of a trace; `looked` says that the pads were looked at for the next word. -/
def trafficFrom : (looked : Bool) → List Event → List Beat
  | _, [] => []
  | _, ⟨.readRegister .interfaceSelect, _⟩ :: rest => trafficFrom true rest
  | looked, ⟨.writeRegister .writeData word, _⟩ :: rest =>
    (if looked then .paced word else .bare word) :: trafficFrom false rest
  | looked, ⟨.readRegister .readData, reply⟩ :: rest =>
    .pulled (reply : UInt32).toUInt8 :: trafficFrom looked rest
  | looked, _ :: rest => trafficFrom looked rest

def traffic (trace : List Event) : List Beat := trafficFrom false trace

/-- Wherever it stands, the trace contributes these beats. -/
def Carries (trace : List Event) (beats : List Beat) : Prop :=
  ∀ rest, traffic (trace ++ rest) = beats ++ traffic rest

namespace Carries

theorem nil : Carries [] [] := fun _ => rfl

theorem append {first second : List Event} {beats more : List Beat} (h : Carries first beats)
    (h' : Carries second more) : Carries (first ++ second) (beats ++ more) := by
  intro rest
  rw [List.append_assoc, h, h', List.append_assoc]

theorem traffic_eq {trace : List Event} {beats : List Beat} (h : Carries trace beats) :
    traffic trace = beats := by
  have := h []
  simpa [traffic, trafficFrom] using this

end Carries

namespace Controller
open Program

theorem carries_pushPaced {word : UInt32} {trace : List Event}
    (h : (pushPaced word).Executes trace ()) : Carries trace [.paced word] := by
  simp only [pushPaced, padLevels, push, readRegister, writeRegister, delay, executes_bind,
    executes_access, executes_pure] at h
  obtain ⟨_, levels, _, rfl, ⟨_, _, _, rfl, ⟨reply, _, rfl, rfl, rfl⟩, rfl, rfl⟩, h⟩ := h
  split at h
  · simp only [executes_access, executes_pure] at h
    obtain ⟨_, _, rfl, rfl, _⟩ := h
    exact fun _ => rfl
  · simp only [executes_bind, executes_access, executes_pure] at h
    obtain ⟨_, _, _, rfl, ⟨_, _, rfl, rfl, _⟩, _, _, rfl, rfl, _⟩ := h
    exact fun _ => rfl

/-- The traffic of a stop request that may be due. -/
def stopBeats (due : Bool) : List Beat := if due then [.bare FifoWord.stop.bits] else []

theorem carries_stopIf {due : Bool} {trace : List Event} (h : (stopIf due).Executes trace ()) :
    Carries trace (stopBeats due) := by
  cases due with
  | true =>
    obtain ⟨_, _, rfl, hrest⟩ := executes_access.mp h
    obtain ⟨rfl, _⟩ := executes_pure.mp hrest
    exact fun _ => rfl
  | false =>
    obtain ⟨rfl, _⟩ := executes_pure.mp h
    exact .nil

theorem carries_pull {byte : UInt8} {trace : List Event} (h : pull.Executes trace byte) :
    Carries trace [.pulled byte] := by
  simp only [pull, readRegister, executes_bind, executes_access, executes_pure] at h
  obtain ⟨_, _, _, rfl, ⟨reply, _, rfl, rfl, rfl⟩, rfl, rfl⟩ := h
  exact fun _ => rfl

end Controller

namespace Transaction
open Program

/-! ## One event -/

/-- What the sending half of an event can do: its traffic, whether more may be to send, and the
transaction after it. -/
inductive Feeds (status : Status) (t : Transaction) : List Beat → Bool → Transaction → Prop
  | full (h : status.has .writeFull) : Feeds status t [] true t
  | spent (h : ¬ status.has .writeFull) (last : t.nextWord? = none) : Feeds status t [] false t
  | sends (h : ¬ status.has .writeFull) {word : FifoWord} (next : t.nextWord? = some word) :
      Feeds status t [.paced word.bits] true t.sent

/-- What the receiving half of an event can do. -/
inductive Drains (status : Status) (t : Transaction) : List Beat → Transaction → Prop
  | empty (h : ¬ status.has .readFull) : Drains status t [] t
  | stores (h : status.has .readFull) {position : Nat} (slot : t.slot? = some position)
      (byte : UInt8) :
      Drains status t (Controller.stopBeats (t.stopDue position) ++ [.pulled byte])
        (t.received position byte)
  | discards (h : status.has .readFull) (slot : t.slot? = none) (byte : UInt8) :
      Drains status t (Controller.stopBeats (t.unrequested % 2 = 1) ++ [.pulled byte]) t.discarded

/-- What an event can do. -/
inductive Handles (status : Status) (t : Transaction) : List Beat → Transaction → Prop
  | inert (h : t.isInert) : Handles status t [] t
  | halts (h : ¬ t.isInert) {fault : Fault} (faulty : status.fault? = some fault) :
      Handles status t [] (t.halt fault)
  | moves (h : ¬ t.isInert) (clean : status.fault? = none) {out inward : List Beat}
      {sending : Bool} {fed drained : Transaction} (feeds : Feeds status t out sending fed)
      (drains : Drains status fed inward drained) :
      Handles status t (out ++ inward) (drained.advance sending)

theorem feeds_of_executes {t : Transaction} {status : Status} {fed : Bool × Transaction}
    {trace : List Event} (h : (t.feedOn status).Executes trace fed) :
    ∃ beats, Carries trace beats ∧ Feeds status t beats fed.1 fed.2 := by
  unfold feedOn at h
  split at h
  · rename_i hfull
    obtain ⟨rfl, rfl⟩ := executes_pure.mp h
    exact ⟨[], .nil, .full hfull⟩
  rename_i hfree
  unfold feed at h
  split at h
  · rename_i hlast
    obtain ⟨rfl, rfl⟩ := executes_pure.mp h
    exact ⟨[], .nil, .spent hfree hlast⟩
  · rename_i word hnext
    obtain ⟨first, _, second, rfl, hpush, hrest⟩ := executes_bind.mp h
    obtain ⟨rfl, rfl⟩ := executes_pure.mp hrest
    rw [List.append_nil]
    exact ⟨_, Controller.carries_pushPaced hpush, .sends hfree hnext⟩

theorem drains_of_executes {t t' : Transaction} {status : Status} {trace : List Event}
    (h : (t.drainOn status).Executes trace t') :
    ∃ beats, Carries trace beats ∧ Drains status t beats t' := by
  unfold drainOn at h
  split at h
  case isFalse hempty =>
    obtain ⟨rfl, rfl⟩ := executes_pure.mp h
    exact ⟨[], .nil, .empty hempty⟩
  rename_i hfull
  unfold drain at h
  split at h
  · rename_i position hslot
    obtain ⟨first, _, _, rfl, hfirst, h⟩ := executes_bind.mp h
    obtain ⟨second, byte, _, rfl, hsecond, h⟩ := executes_bind.mp h
    obtain ⟨rfl, rfl⟩ := executes_pure.mp h
    rw [List.append_nil]
    exact ⟨_, (Controller.carries_stopIf hfirst).append (Controller.carries_pull hsecond),
      .stores hfull hslot byte⟩
  · rename_i hslot
    obtain ⟨first, _, _, rfl, hfirst, h⟩ := executes_bind.mp h
    obtain ⟨second, byte, _, rfl, hsecond, h⟩ := executes_bind.mp h
    obtain ⟨rfl, rfl⟩ := executes_pure.mp h
    rw [List.append_nil]
    exact ⟨_, (Controller.carries_stopIf hfirst).append (Controller.carries_pull hsecond),
      .discards hfull hslot byte⟩

/-- Every execution of an event is one of the cases above, with its traffic. -/
theorem handles_of_executes {t t' : Transaction} {status : Status} {trace : List Event}
    (h : (t.onEvent status).Executes trace t') :
    ∃ beats, Carries trace beats ∧ Handles status t beats t' := by
  unfold onEvent at h
  split at h
  · rename_i hinert
    obtain ⟨rfl, rfl⟩ := executes_pure.mp h
    exact ⟨[], .nil, .inert hinert⟩
  rename_i hlive
  split at h
  · rename_i fault hfault
    obtain ⟨rfl, rfl⟩ := executes_pure.mp h
    exact ⟨[], .nil, .halts hlive hfault⟩
  · rename_i hclean
    obtain ⟨first, fed, _, rfl, hfed, h⟩ := executes_bind.mp h
    obtain ⟨second, drained, _, rfl, hdrained, h⟩ := executes_bind.mp h
    obtain ⟨rfl, rfl⟩ := executes_pure.mp h
    obtain ⟨out, hout, hf⟩ := feeds_of_executes hfed
    obtain ⟨inward, hin, hd⟩ := drains_of_executes hdrained
    rw [List.append_nil]
    exact ⟨_, hout.append hin, .moves hlive hclean hf hd⟩

theorem handles_run {σ : Type} (hw : Hardware σ) (s : σ) (t : Transaction) (status : Status) :
    let o := (t.onEvent status).run hw s
    Handles status t (traffic o.trace) o.value := by
  intro o
  obtain ⟨beats, hcarry, hhandles⟩ := handles_of_executes (executes_run hw (t.onEvent status) s)
  have htraffic : traffic o.trace = beats := hcarry.traffic_eq
  rw [htraffic]
  exact hhandles

/-! ## Any number of events -/

/-- Handle events in order. -/
def serve : List Status → Transaction → Program Transaction
  | [], t => pure t
  | status :: rest, t => do
    let next ← t.onEvent status
    serve rest next

theorem serve_append (first second : List Status) (t : Transaction) :
    serve (first ++ second) t = serve first t >>= serve second := by
  induction first generalizing t with
  | nil => rw [List.nil_append, serve, pure_bind]
  | cons status rest ih => simp only [List.cons_append, serve, ih, bind_assoc]

theorem serve_singleton (status : Status) (t : Transaction) :
    serve [status] t = t.onEvent status := by
  simp only [serve, bind_pure]

/-- The last event is handled after all the others. -/
theorem run_serve_concat {σ : Type} (hw : Hardware σ) (before : List Status) (status : Status)
    (t : Transaction) (s : σ) :
    let o := (serve before t).run hw s
    (serve (before ++ [status]) t).run hw s =
      o.andThen ((o.value.onEvent status).run hw o.state) := by
  intro o
  rw [serve_append, run_bind, serve_singleton]

/-- Nothing moves an inert transaction. -/
theorem serve_of_isInert {t : Transaction} (h : t.isInert) (statuses : List Status) :
    serve statuses t = pure t := by
  induction statuses with
  | nil => rfl
  | cons status rest ih =>
    rw [serve, onEvent, if_pos h, pure_bind, ih]

end Transaction
end TwoWire

import Mathlib.Data.List.Basic
import TwoWire.BusConfig
import TwoWire.Access
/-!
# Scopes in a trace

The grammar of what a master does to its board. While a session lasts, the pads may be taken from the
controller and are handed back; around it stand the clock and the interrupt line; the life of a
master is a row of such sessions between its installation and its removal. From the grammar follows
what each kind of access is enclosed by.
-/
namespace TwoWire

namespace Access

/-- Accesses that a session makes while the controller has the pads. -/
def isPlain : Access → Bool
  | readRegister _ => true
  | writeRegister _ _ => true
  | takePending _ => true
  | delay _ => true
  | _ => false

/-- The plain accesses that the handling of an event makes. -/
def isExchange : Access → Bool
  | readRegister _ => true
  | writeRegister .writeData _ => true
  | delay _ => true
  | _ => false

/-- The plain accesses that serve a transfer. -/
def isTransfer : Access → Bool
  | readRegister _ => true
  | writeRegister .writeData _ => true
  | takePending _ => true
  | delay _ => true
  | _ => false

/-- Accesses to a pad as a plain pin. -/
def isPinAccess : Access → Bool
  | readPin _ => true
  | drivePin _ _ => true
  | turnPin _ _ => true
  | _ => false

/-- Accesses that a session makes while it has taken the pads from the controller. -/
def isManual : Access → Bool
  | readRegister _ => true
  | writeRegister _ _ => true
  | delay _ => true
  | a => a.isPinAccess

/-- The manual accesses that serve the clearing of the bus. -/
def isClearing : Access → Bool
  | readRegister _ => true
  | writeRegister .writeData _ => true
  | delay _ => true
  | a => a.isPinAccess

/-- Consumption of a pending event. -/
def isPoll : Access → Bool
  | takePending _ => true
  | _ => false

/-- Accesses to the clock and to the interrupt line, except for consuming its event. -/
def isFraming : Access → Bool
  | enableClock _ => true
  | disableClock _ => true
  | claimLine _ => true
  | releaseLine _ => true
  | unmaskLine _ => true
  | maskLine _ => true
  | _ => false

/-- Whom the access hands the pads to. -/
def routes? : Access → Option Bool
  | routePads toBus => some toBus
  | _ => none

theorem isTransfer_of_isExchange {a : Access} (h : a.isExchange) : a.isTransfer := by
  cases a with
  | writeRegister register word => cases register <;> first | rfl | cases h
  | _ => first | rfl | cases h

theorem not_isPoll_of_isExchange {a : Access} (h : a.isExchange) : a.isPoll = false := by
  cases a <;> first | rfl | cases h

theorem isPlain_of_isTransfer {a : Access} (h : a.isTransfer) : a.isPlain := by
  cases a <;> first | rfl | cases h

theorem isManual_of_isClearing {a : Access} (h : a.isClearing) : a.isManual := by
  cases a <;> first | rfl | cases h

theorem not_isFraming_of_isPlain {a : Access} (h : a.isPlain) : a.isFraming = false := by
  cases a <;> first | rfl | cases h

theorem not_isFraming_of_isManual {a : Access} (h : a.isManual) : a.isFraming = false := by
  cases a <;> first | rfl | cases h

theorem routes?_of_isPlain {a : Access} (h : a.isPlain) : a.routes? = none := by
  cases a <;> first | rfl | cases h

theorem not_isPinAccess_of_isPlain {a : Access} (h : a.isPlain) : a.isPinAccess = false := by
  cases a <;> first | rfl | cases h

end Access

/-! ## Enclosed accesses -/

/-- A place in two traces laid together is in the first or in the second. -/
theorem place_append {α : Type} {first second before after : List α} {e : α}
    (h : first ++ second = before ++ e :: after) :
    (∃ rest, first = before ++ e :: rest ∧ after = rest ++ second) ∨
      ∃ front, before = first ++ front ∧ second = front ++ e :: after := by
  rcases List.append_eq_append_iff.mp h with ⟨front, hbefore, hsecond⟩ | ⟨rest, hfirst, hrest⟩
  · exact .inr ⟨front, hbefore, hsecond⟩
  · cases rest with
    | nil =>
      right
      refine ⟨[], ?_, ?_⟩
      · rw [hfirst, List.append_nil, List.append_nil]
      · simpa using hrest.symm
    | cons x rest =>
      obtain ⟨rfl, hafter⟩ := List.cons.inj hrest
      exact .inl ⟨rest, hfirst, hafter⟩

/-- Each access of the kind stands between the opening event and the next closing one. -/
def Enclosed (inner : Access → Bool) (opening closing : Event) (trace : List Event) : Prop :=
  ∀ before e after, trace = before ++ e :: after → inner e.access →
    (∃ front mid, before = front ++ opening :: mid ∧ closing ∉ mid) ∧ closing ∈ after

namespace Enclosed

variable {inner : Access → Bool} {opening closing : Event} {second trace : List Event}

theorem of_none (h : ∀ e ∈ trace, inner e.access = false) :
    Enclosed inner opening closing trace := by
  rintro before e after rfl hinner
  have := h e (List.mem_append_right _ List.mem_cons_self)
  rw [this] at hinner
  cases hinner

theorem append (first : List Event) (h : Enclosed inner opening closing first)
    (h' : Enclosed inner opening closing second) :
    Enclosed inner opening closing (first ++ second) := by
  intro before e after hplace hinner
  rcases place_append hplace with ⟨rest, hfirst, rfl⟩ | ⟨front, rfl, hsecond⟩
  · obtain ⟨hopened, hclosed⟩ := h before e rest hfirst hinner
    exact ⟨hopened, List.mem_append_left _ hclosed⟩
  · obtain ⟨⟨start, mid, rfl, hmid⟩, hclosed⟩ := h' front e after hsecond hinner
    exact ⟨⟨first ++ start, mid, (List.append_assoc ..).symm, hmid⟩, hclosed⟩

/-- Whatever stands between the two events is enclosed by them. -/
theorem wrap (body : List Event) (hopening : inner opening.access = false)
    (hclosing : inner closing.access = false) (h : closing ∉ body) :
    Enclosed inner opening closing (opening :: body ++ [closing]) := by
  intro before e after hplace hinner
  cases before with
  | nil =>
    obtain ⟨rfl, -⟩ := List.cons.inj hplace
    rw [hopening] at hinner
    cases hinner
  | cons x before =>
    obtain ⟨rfl, hrest⟩ := List.cons.inj hplace
    rcases place_append hrest with ⟨rest, hbody, rfl⟩ | ⟨front, -, hend⟩
    · refine ⟨⟨[], before, rfl, ?_⟩, ?_⟩
      · intro hmem
        apply h
        rw [hbody]
        exact List.mem_append_left _ hmem
      · exact List.mem_append_right _ (List.mem_singleton.mpr rfl)
    · cases front with
      | nil =>
        obtain ⟨rfl, -⟩ := List.cons.inj hend
        rw [hclosing] at hinner
        cases hinner
      | cons y front => simp at hend

end Enclosed

/-! ## Who has the pads -/

/-- Whom the last routing in a trace hands the pads to, if there is one. -/
def routed? (trace : List Event) : Option Bool :=
  (trace.filterMap fun e => e.access.routes?).getLast?

theorem routed?_append (first second : List Event) :
    routed? (first ++ second) = (routed? second).or (routed? first) := by
  unfold routed?
  rw [List.filterMap_append, List.getLast?_append]

theorem routed?_of_none {trace : List Event} (h : ∀ e ∈ trace, e.access.routes? = none) :
    routed? trace = none := by
  unfold routed?
  rw [List.filterMap_eq_nil_iff.mpr h]
  rfl

/-- Each time a trace gives the clock up, the pads are with the controller; `past` is what happened
before it. -/
def PadsReturned (clock : UInt32) (past trace : List Event) : Prop :=
  ∀ before after, trace = before ++ ⟨.disableClock clock, ()⟩ :: after →
    routed? (past ++ before) = some true

namespace PadsReturned

variable {clock : UInt32} {past second trace : List Event}

theorem of_not_mem (h : ⟨.disableClock clock, ()⟩ ∉ trace) : PadsReturned clock past trace := by
  rintro before after rfl
  exact absurd (List.mem_append_right _ List.mem_cons_self) h

theorem append (first : List Event) (h : PadsReturned clock past first)
    (h' : PadsReturned clock (past ++ first) second) :
    PadsReturned clock past (first ++ second) := by
  intro before after hplace
  rcases place_append hplace with ⟨rest, hfirst, -⟩ | ⟨front, rfl, hsecond⟩
  · exact h before rest hfirst
  · rw [← List.append_assoc]
    exact h' front after hsecond

/-- The clock is given up once, at the end. -/
theorem concat (trace : List Event) (h : ⟨.disableClock clock, ()⟩ ∉ trace)
    (hpads : routed? (past ++ trace) = some true) :
    PadsReturned clock past (trace ++ [⟨.disableClock clock, ()⟩]) := by
  refine append trace (of_not_mem h) ?_
  intro before after hplace
  cases before with
  | nil => rwa [List.append_nil]
  | cons x before => simp at hplace

end PadsReturned

/-! ## A session's body -/

/-- What a session does between its opening and its end. Each time it takes the pads from the
controller it hands them back. -/
inductive Body : List Event → Prop
  | nil : Body []
  | plain {e : Event} {rest : List Event} (h : e.access.isPlain) (tail : Body rest) :
      Body (e :: rest)
  | detour {pins rest : List Event} (h : ∀ e ∈ pins, e.access.isManual) (tail : Body rest) :
      Body (⟨.routePads false, ()⟩ :: pins ++ [⟨.routePads true, ()⟩] ++ rest)

namespace Body

variable {first second body : List Event}

theorem append (h : Body first) (h' : Body second) : Body (first ++ second) := by
  induction h with
  | nil => exact h'
  | plain hplain _ ih => exact .plain hplain ih
  | detour hpins _ ih =>
    rw [List.append_assoc]
    exact .detour hpins ih

theorem of_plain (h : ∀ e ∈ body, e.access.isPlain) : Body body := by
  induction body with
  | nil => exact .nil
  | cons e rest ih =>
    obtain ⟨he, hrest⟩ := List.forall_mem_cons.mp h
    exact .plain he (ih hrest)

theorem not_isFraming (h : Body body) : ∀ e ∈ body, e.access.isFraming = false := by
  induction h with
  | nil => exact nofun
  | plain hplain _ ih =>
    exact List.forall_mem_cons.mpr ⟨Access.not_isFraming_of_isPlain hplain, ih⟩
  | detour hpins _ ih =>
    simp only [List.cons_append, List.forall_mem_cons, List.forall_mem_append]
    refine ⟨rfl, ⟨?_, rfl, nofun⟩, ih⟩
    intro e he
    exact Access.not_isFraming_of_isManual (hpins e he)

/-- A body leaves the pads where they are, or with the controller. -/
theorem routed? (h : Body body) : routed? body = none ∨ routed? body = some true := by
  induction h with
  | nil => exact .inl rfl
  | @plain e rest hplain _ ih =>
    have hnone : TwoWire.routed? [e] = none :=
      routed?_of_none (by simpa using Access.routes?_of_isPlain hplain)
    rwa [← List.singleton_append, routed?_append, hnone, Option.or_none]
  | detour _ _ ih =>
    right
    rw [routed?_append]
    rcases ih with hrest | hrest
    · rw [hrest, routed?_append]
      rfl
    · rw [hrest]
      rfl

theorem pins_enclosed (h : Body body) :
    Enclosed Access.isPinAccess ⟨.routePads false, ()⟩ ⟨.routePads true, ()⟩ body := by
  induction h with
  | nil => exact .of_none nofun
  | @plain e rest hplain _ ih =>
    rw [← List.singleton_append]
    refine .append [e] (.of_none ?_) ih
    simpa using Access.not_isPinAccess_of_isPlain hplain
  | @detour pins rest hpins _ ih =>
    refine .append _ (.wrap pins rfl rfl ?_) ih
    intro hmem
    cases hpins _ hmem

end Body

/-! ## The life of a master -/

/-- One thing that a master does, and whether it is installed before and after. -/
inductive Stretch (config : BusConfig) : Bool → List Event → Bool → Prop
  /-- The clock is refused and the master stays as it was. -/
  | clockless : Stretch config false
      [⟨.maskLine config.line, ()⟩, ⟨.routePads true, ()⟩, ⟨.enableClock config.clock, false⟩] false
  /-- The divider is programmed under the clock, and the line is claimed after it. -/
  | install (claimed : Except ClaimError Unit) : Stretch config false
      [⟨.maskLine config.line, ()⟩, ⟨.routePads true, ()⟩, ⟨.enableClock config.clock, true⟩,
        ⟨.writeRegister .clockControl config.clockControl, ()⟩, ⟨.disableClock config.clock, ()⟩,
        ⟨.claimLine config.line, claimed⟩] claimed.toBool
  | uninstall : Stretch config true
      [⟨.maskLine config.line, ()⟩, ⟨.disableClock config.clock, ()⟩,
        ⟨.releaseLine config.line, ()⟩, ⟨.routePads false, ()⟩] false
  /-- A session that does not open. -/
  | refused : Stretch config true [⟨.enableClock config.clock, false⟩] true
  | session {body : List Event} (h : Body body) : Stretch config true
      (⟨.enableClock config.clock, true⟩ :: (⟨.unmaskLine config.line, ()⟩ :: body ++
        [⟨.maskLine config.line, ()⟩]) ++ [⟨.disableClock config.clock, ()⟩]) true
  /-- The pause before another attempt. -/
  | pause (nanoseconds : UInt32) : Stretch config true [⟨.delay nanoseconds, ()⟩] true

/-- One stretch after another. -/
inductive Story (config : BusConfig) : Bool → List Event → Bool → Prop
  | nil (installed : Bool) : Story config installed [] installed
  | cons {before between after : Bool} {first rest : List Event}
      (head : Stretch config before first between) (tail : Story config between rest after) :
      Story config before (first ++ rest) after

namespace Stretch

variable {config : BusConfig} {before after : Bool} {trace : List Event}

/-- Registers are touched only while the clock is held. -/
theorem registers_enclosed (h : Stretch config before trace after) :
    Enclosed Access.isRegisterAccess ⟨.enableClock config.clock, true⟩
      ⟨.disableClock config.clock, ()⟩ trace := by
  cases h with
  | clockless => exact .of_none (by simp [Access.isRegisterAccess])
  | install claimed =>
    refine .append [_, _] (.of_none (by simp [Access.isRegisterAccess])) ?_
    refine .append [_, _, _] (.wrap [_] rfl rfl (by simp)) ?_
    exact .of_none (by simp [Access.isRegisterAccess])
  | uninstall => exact .of_none (by simp [Access.isRegisterAccess])
  | refused => exact .of_none (by simp [Access.isRegisterAccess])
  | session hbody =>
    refine .wrap _ rfl rfl ?_
    intro hmem
    simp only [List.cons_append, List.mem_cons, List.mem_append, List.not_mem_nil, or_false,
      reduceCtorEq, Event.mk.injEq, false_and, false_or] at hmem
    cases hbody.not_isFraming _ hmem
  | pause _ => exact .of_none (by simp [Access.isRegisterAccess])

/-- Pending events are consumed only while the line is unmasked. -/
theorem polls_enclosed (h : Stretch config before trace after) :
    Enclosed Access.isPoll ⟨.unmaskLine config.line, ()⟩ ⟨.maskLine config.line, ()⟩ trace := by
  cases h with
  | session hbody =>
    refine .append (_ :: _) (.append [_] (.of_none (by simp [Access.isPoll]))
      (.wrap _ rfl rfl ?_)) (.of_none (by simp [Access.isPoll]))
    intro hmem
    cases hbody.not_isFraming _ hmem
  | clockless => exact .of_none (by simp [Access.isPoll])
  | install _ => exact .of_none (by simp [Access.isPoll])
  | uninstall => exact .of_none (by simp [Access.isPoll])
  | refused => exact .of_none (by simp [Access.isPoll])
  | pause _ => exact .of_none (by simp [Access.isPoll])

/-- Pads are used as plain pins only while the controller does not have them. -/
theorem pins_enclosed (h : Stretch config before trace after) :
    Enclosed Access.isPinAccess ⟨.routePads false, ()⟩ ⟨.routePads true, ()⟩ trace := by
  cases h with
  | session hbody =>
    refine .append (_ :: _) (.append [_, _] (.of_none ?_) ?_) (.of_none ?_)
    · simp [Access.isPinAccess]
    · exact .append _ hbody.pins_enclosed (.of_none (by simp [Access.isPinAccess]))
    · simp [Access.isPinAccess]
  | clockless => exact .of_none (by simp [Access.isPinAccess])
  | install _ => exact .of_none (by simp [Access.isPinAccess])
  | uninstall => exact .of_none (by simp [Access.isPinAccess])
  | refused => exact .of_none (by simp [Access.isPinAccess])
  | pause _ => exact .of_none (by simp [Access.isPinAccess])

/-- If an installed master's controller has the pads, it still has them whenever the clock is given
up and, if the master is installed then, at the end. -/
theorem pads_returned {past : List Event} (h : Stretch config before trace after)
    (hpast : before = true → routed? past = some true) :
    PadsReturned config.clock past trace ∧
      (after = true → routed? (past ++ trace) = some true) := by
  cases h with
  | clockless => exact ⟨.of_not_mem (by simp), nofun⟩
  | install claimed =>
    refine ⟨.append [_, _, _, _, _] (.concat [_, _, _, _] ?_ ?_) ?_, ?_⟩
    · simp
    · rw [routed?_append]
      rfl
    · exact .of_not_mem (by simp)
    · intro _
      rw [routed?_append]
      rfl
  | uninstall =>
    refine ⟨.append [_, _] (.concat [_] ?_ ?_) ?_, nofun⟩
    · simp
    · rw [routed?_append, hpast rfl]
      rfl
    · exact .of_not_mem (by simp)
  | refused =>
    refine ⟨.of_not_mem (by simp), fun _ => ?_⟩
    rw [routed?_append, hpast rfl]
    rfl
  | @session body hbody =>
    have hkept : ∀ rest, routed? rest = none → routed? (past ++ (⟨.enableClock config.clock, true⟩ ::
        ⟨.unmaskLine config.line, ()⟩ :: body ++ rest)) = some true := by
      intro rest hrest
      have hopening : routed? [⟨.enableClock config.clock, true⟩, ⟨.unmaskLine config.line, ()⟩] =
        none := rfl
      rw [routed?_append, routed?_append, hrest, Option.none_or]
      change (routed? ([_, _] ++ body)).or _ = _
      rw [routed?_append, hopening, Option.or_none, hpast rfl]
      rcases hbody.routed? with hnone | hbus
      · rw [hnone]
        rfl
      · rw [hbus]
        rfl
    refine ⟨.concat _ ?_ (hkept [_] rfl), fun _ => ?_⟩
    · intro hmem
      simp only [List.cons_append, List.mem_cons, List.mem_append, List.not_mem_nil, or_false,
        reduceCtorEq, Event.mk.injEq, false_and, false_or] at hmem
      cases hbody.not_isFraming _ hmem
    · have := hkept [⟨.maskLine config.line, ()⟩, ⟨.disableClock config.clock, ()⟩] rfl
      simpa using this
  | pause _ =>
    refine ⟨.of_not_mem (by simp), fun _ => ?_⟩
    rw [routed?_append, hpast rfl]
    rfl

end Stretch

namespace Story

variable {config : BusConfig} {before between after : Bool} {first second trace : List Event}

theorem single (h : Stretch config before trace after) : Story config before trace after := by
  rw [← List.append_nil trace]
  exact .cons h (.nil after)

theorem append (h : Story config before first between) (h' : Story config between second after) :
    Story config before (first ++ second) after := by
  induction h with
  | nil _ => exact h'
  | cons head _ ih =>
    rw [List.append_assoc]
    exact .cons head (ih h')

/-- What every stretch encloses, every story encloses. -/
theorem enclosed {inner : Access → Bool} {opening closing : Event}
    (hstretch : ∀ {before after trace}, Stretch config before trace after →
      Enclosed inner opening closing trace)
    (h : Story config before trace after) : Enclosed inner opening closing trace := by
  induction h with
  | nil _ => exact .of_none nofun
  | cons head _ ih => exact .append _ (hstretch head) ih

theorem pads_returned {past : List Event} (h : Story config before trace after)
    (hpast : before = true → routed? past = some true) : PadsReturned config.clock past trace := by
  induction h generalizing past with
  | nil _ => exact .of_not_mem List.not_mem_nil
  | cons head _ ih =>
    obtain ⟨hfirst, hbetween⟩ := head.pads_returned hpast
    exact .append _ hfirst (ih hbetween)

end Story
end TwoWire

import Mathlib.Logic.Function.Basic
import TwoWire.Proofs.Tenure
/-!
# Masters that share a bench

Any number of masters, of any configurations, can be wired to one bench. The interrupt line decides which
of them has its controller: at most one master is installed, and only its removal releases the line. The
divider is not guarded in this way. A master that is refused the line has programmed its own divider by
then, and the installed one goes on at that rate.
-/
namespace TwoWire

/-- A call that was made, and what it answered. -/
structure Submission (ι : Type) where
  master : ι
  call : Call
  result : Except Error Unit

namespace Submission

variable {ι : Type}

/-- The master was installed. -/
def isGranted (r : Submission ι) : Bool := r.call = .install ∧ r.result = .ok ()

/-- The master was not installed for want of the line. -/
def isRefused (r : Submission ι) : Bool := r.call = .install ∧ r.result = .error .noInterrupt

/-- The divider was programmed. -/
def programs (r : Submission ι) : Bool := r.isGranted || r.isRefused

end Submission

/-- Masters on one bench, and the calls that were made on it. -/
structure SharedBench (ι : Type) where
  masters : ι → Master
  bench : Bench
  submitted : List (Submission ι)

/-- What can happen to a shared bench: a call to one of the masters, a device attached, a line held by
a slave. -/
inductive Turn (ι : Type)
  | call (i : ι) (call : Call)
  | attach (address : UInt8) (device : Bench.Device)
  | wedge (address : UInt8)

namespace SharedBench

variable {ι : Type}

/-- No call has been made yet. -/
def fresh (buses : ι → Bus) : SharedBench ι := ⟨fun i => { bus := buses i }, {}, []⟩

/-- What a call comes to. -/
def outcome (s : SharedBench ι) (i : ι) (call : Call) :
    Outcome Bench (Except Error Unit × Master) :=
  (call.submit (s.masters i)).run Bench.respond s.bench

def play [DecidableEq ι] (s : SharedBench ι) : Turn ι → SharedBench ι
  | .call i call =>
    let o := s.outcome i call
    ⟨Function.update s.masters i o.value.2, o.state, s.submitted ++ [⟨i, call, o.value.1⟩]⟩
  | .attach address device => { s with bench := s.bench.attach address device }
  | .wedge address => { s with bench := s.bench.wedge address }

variable {s s' : SharedBench ι} {i : ι} {r : Submission ι}

/-! ## Ownership -/

/-- The controller belongs to the installed master, if there is one. -/
structure Exclusive (s : SharedBench ι) : Prop where
  rest : s.bench.AtRest
  unique : ∀ i j, (s.masters i).installed = true → (s.masters j).installed = true → i = j
  claimed : s.bench.claimed = true ↔ ∃ i, (s.masters i).installed = true
  claims : s.bench.tally.claims = s.submitted.countP Submission.isGranted

theorem exclusive_fresh (buses : ι → Bus) : Exclusive (fresh buses) where
  rest := ⟨rfl, rfl⟩
  unique := nofun
  claimed := ⟨nofun, fun ⟨_, h⟩ => nomatch h⟩
  claims := rfl

/-- A call that neither installs nor removes its master. -/
theorem Exclusive.kept (h : s.Exclusive) (hrest : s'.bench.AtRest) (hmasters : s'.masters = s.masters)
    (hclaimed : s'.bench.claimed = s.bench.claimed)
    (hclaims : s'.bench.tally.claims = s.bench.tally.claims)
    (hsubmitted : s'.submitted = s.submitted ++ [r]) (hr : r.isGranted = false) : s'.Exclusive where
  rest := hrest
  unique := by rw [hmasters]; exact h.unique
  claimed := by rw [hmasters, hclaimed]; exact h.claimed
  claims := by
    rw [hclaims, hsubmitted, List.countP_append, h.claims]
    simp [hr]

section
variable [DecidableEq ι]

theorem play_call (h : s.bench.AtRest) (i : ι) (call : Call) :
    let s' := s.play (.call i call)
    s'.bench.AtRest ∧ ∃ result after, call.Shifts (s.masters i) s.bench.tenure result after
        s'.bench.tenure ∧
      s'.masters = Function.update s.masters i after ∧
      s'.submitted = s.submitted ++ [⟨i, call, result⟩] := by
  intro s'
  obtain ⟨hrest, hshift⟩ := Call.shifts_submit (m := s.masters i) h call
  exact ⟨hrest, _, _, hshift, rfl, rfl⟩

/-- A master gets the free line. -/
theorem Exclusive.joined (h : s.Exclusive) (hrest : s'.bench.AtRest) (hfree : s.bench.claimed = false)
    {m : Master} (hmasters : s'.masters = Function.update s.masters i m) (hm : m.installed = true)
    (hclaimed : s'.bench.claimed = true) (hclaims : s'.bench.tally.claims = s.bench.tally.claims + 1)
    (hsubmitted : s'.submitted = s.submitted ++ [r]) (hr : r.isGranted = true) : s'.Exclusive := by
  have honly : ∀ j, (s'.masters j).installed = true → j = i := by
    intro j hj
    by_cases hji : j = i
    · exact hji
    · rw [hmasters, Function.update_of_ne hji] at hj
      rw [h.claimed.mpr ⟨j, hj⟩] at hfree
      cases hfree
  refine ⟨hrest, fun j k hj hk => (honly j hj).trans (honly k hk).symm, ?_, ?_⟩
  · refine iff_of_true hclaimed ⟨i, ?_⟩
    rw [hmasters, Function.update_self, hm]
  · rw [hclaims, hsubmitted, List.countP_append, h.claims]
    simp [hr]

/-- The master that has the line gives it up; it was the only one. -/
theorem Exclusive.vacated (h : s.Exclusive) (hrest : s'.bench.AtRest)
    (hi : (s.masters i).installed = true) {m : Master}
    (hmasters : s'.masters = Function.update s.masters i m) (hm : m.installed = false)
    (hclaimed : s'.bench.claimed = false) (hclaims : s'.bench.tally.claims = s.bench.tally.claims)
    (hsubmitted : s'.submitted = s.submitted ++ [r]) (hr : r.isGranted = false) : s'.Exclusive := by
  have hnone : ∀ j, (s'.masters j).installed ≠ true := by
    intro j hj
    by_cases hji : j = i
    · rw [hmasters, hji, Function.update_self, hm] at hj
      cases hj
    · rw [hmasters, Function.update_of_ne hji] at hj
      exact hji (h.unique j i hj hi)
  refine ⟨hrest, fun j _ hj => absurd hj (hnone j), ?_, ?_⟩
  · rw [hclaimed]
    exact iff_of_false nofun fun ⟨j, hj⟩ => hnone j hj
  · rw [hclaims, hsubmitted, List.countP_append, h.claims]
    simp [hr]

theorem Exclusive.play (h : s.Exclusive) (turn : Turn ι) : (s.play turn).Exclusive := by
  cases turn with
  | attach address device => exact ⟨⟨h.rest.clockOn, h.rest.unmasked⟩, h.unique, h.claimed, h.claims⟩
  | wedge address => exact ⟨⟨h.rest.clockOn, h.rest.unmasked⟩, h.unique, h.claimed, h.claims⟩
  | call i call =>
    obtain ⟨hrest, result, after, hshift, hmasters, hsubmitted⟩ := play_call h.rest i call
    generalize s.play (.call i call) = s' at hrest hshift hmasters hsubmitted
    have hsame : Function.update s.masters i (s.masters i) = s.masters :=
      Function.update_eq_self i s.masters
    generalize htenure : s'.bench.tenure = t at hshift
    cases hshift with
    | none hinstall _ =>
      obtain ⟨hclaimed, hclaims, -⟩ := Bench.Tenure.mk.inj htenure
      have hnot : Submission.isGranted ⟨i, call, result⟩ = false :=
        decide_eq_false fun ⟨hcall, hok⟩ => (hinstall hcall).1 hok
      exact h.kept hrest (hmasters.trans hsame) hclaimed hclaims hsubmitted hnot
    | refused _ =>
      obtain ⟨hclaimed, hclaims, -⟩ := Bench.Tenure.mk.inj htenure
      exact h.kept hrest (hmasters.trans hsame) hclaimed hclaims hsubmitted rfl
    | granted _ hfree =>
      obtain ⟨hclaimed, hclaims, -⟩ := Bench.Tenure.mk.inj htenure
      exact h.joined hrest hfree hmasters rfl hclaimed hclaims hsubmitted rfl
    | removed hm =>
      obtain ⟨hclaimed, hclaims, -⟩ := Bench.Tenure.mk.inj htenure
      exact h.vacated hrest hm hmasters rfl hclaimed hclaims hsubmitted rfl

theorem Exclusive.foldl (h : s.Exclusive) (turns : List (Turn ι)) :
    (turns.foldl SharedBench.play s).Exclusive := by
  induction turns generalizing s with
  | nil => exact h
  | cons turn rest ih => exact ih (h.play turn)

theorem play_install_error (h : s.bench.AtRest) {error : Error}
    (herror : (s.outcome i .install).value.1 = .error error) :
    let s' := s.play (.call i .install)
    s'.masters = s.masters ∧ s'.bench.claimed = s.bench.claimed ∧
      s'.bench.tally.claims = s.bench.tally.claims ∧ s'.bench.clockOn = false := by
  obtain ⟨hrest, hshift⟩ := Call.shifts_submit (m := s.masters i) h .install
  change (s.outcome i .install).state.AtRest at hrest
  change Call.Shifts _ _ _ (s.outcome i .install).value.1 (s.outcome i .install).value.2
    (s.outcome i .install).state.tenure at hshift
  dsimp only [SharedBench.play]
  generalize s.outcome i .install = o at herror hrest hshift
  obtain ⟨⟨result, after⟩, b', _, _⟩ := o
  obtain rfl : result = .error error := herror
  dsimp only at hrest hshift
  generalize htenure : b'.tenure = t at hshift
  cases hshift with
  | none _ _ =>
    obtain ⟨hclaimed, hclaims, -⟩ := Bench.Tenure.mk.inj htenure
    exact ⟨Function.update_eq_self i s.masters, hclaimed, hclaims, hrest.clockOn⟩
  | refused _ =>
    obtain ⟨hclaimed, hclaims, -⟩ := Bench.Tenure.mk.inj htenure
    exact ⟨Function.update_eq_self i s.masters, hclaimed, hclaims, hrest.clockOn⟩

theorem play_uninstall_idle (hm : (s.masters i).installed = false) :
    let s' := s.play (.call i .uninstall)
    s'.masters = s.masters ∧ s'.bench = s.bench := by
  have houtcome : s.outcome i .uninstall = ⟨(.ok (), s.masters i), s.bench, [], []⟩ := by
    rw [outcome, Call.submit, Master.uninstall,
      if_neg (by rw [hm]; exact Bool.false_ne_true)]
    rfl
  dsimp only [SharedBench.play]
  rw [houtcome]
  exact ⟨Function.update_eq_self i s.masters, rfl⟩

end

/-- Whatever masters share a bench, of whatever configurations, and whatever has happened: at most one of
them is installed, the interrupt line is claimed exactly if one is, and it was claimed as often as an
installation was granted. The clock is gated and the line masked. An installation that fails changes no
master and no claim, and a master that is not installed is removed without any effect. -/
theorem ownership_exclusive [DecidableEq ι] (buses : ι → Bus) (turns : List (Turn ι)) :
    let s := turns.foldl play (fresh buses)
    (∀ i j, (s.masters i).installed = true → (s.masters j).installed = true → i = j) ∧
      (s.bench.claimed = true ↔ ∃ i, (s.masters i).installed = true) ∧
      s.bench.tally.claims = s.submitted.countP Submission.isGranted ∧
      s.bench.clockOn = false ∧ s.bench.unmasked = false ∧
      (∀ i error, (s.outcome i .install).value.1 = .error error →
        let s' := s.play (.call i .install)
        s'.masters = s.masters ∧ s'.bench.claimed = s.bench.claimed ∧
          s'.bench.tally.claims = s.bench.tally.claims ∧ s'.bench.clockOn = false) ∧
      ∀ i, (s.masters i).installed = false →
        let s' := s.play (.call i .uninstall)
        s'.masters = s.masters ∧ s'.bench = s.bench := by
  intro s
  have h : s.Exclusive := (exclusive_fresh buses).foldl turns
  refine ⟨h.unique, h.claimed, h.claims, h.rest.clockOn, h.rest.unmasked, ?_, ?_⟩
  · exact fun i error herror => play_install_error h.rest herror
  · exact fun i hm => play_uninstall_idle hm

/-! ## The divider -/

/-- The clock control word that the divider was last programmed with. -/
def programmed (buses : ι → Bus) (submitted : List (Submission ι)) : UInt32 :=
  (submitted.filter Submission.programs).getLast?.elim 0 fun r =>
    (buses r.master).config.clockControl

theorem programmed_concat (buses : ι → Bus) (submitted : List (Submission ι)) (r : Submission ι) :
    programmed buses (submitted ++ [r]) =
      if r.programs then (buses r.master).config.clockControl else programmed buses submitted := by
  unfold programmed
  rw [List.filter_append]
  cases hr : r.programs <;> simp [hr]

/-- The last installation that was granted is that of the master. -/
def LastGranted (submitted : List (Submission ι)) (i : ι) (since : List (Submission ι)) : Prop :=
  (∃ before, submitted = before ++ ⟨i, .install, .ok ()⟩ :: since) ∧ ∀ r ∈ since, r.isGranted = false

theorem LastGranted.concat {submitted since : List (Submission ι)}
    (h : LastGranted submitted i since) (hr : r.isGranted = false) :
    LastGranted (submitted ++ [r]) i (since ++ [r]) := by
  obtain ⟨⟨before, rfl⟩, hsince⟩ := h
  refine ⟨⟨before, by rw [List.append_assoc]; rfl⟩, ?_⟩
  exact List.forall_mem_append.mpr ⟨hsince, List.forall_mem_singleton.mpr hr⟩

/-- After an installation that was granted only refused ones can have changed the divider. -/
theorem LastGranted.programmed_eq {submitted since : List (Submission ι)}
    (h : LastGranted submitted i since) (buses : ι → Bus) :
    programmed buses submitted =
      (since.filter Submission.isRefused).getLast?.elim (buses i).config.clockControl fun r =>
        (buses r.master).config.clockControl := by
  obtain ⟨⟨before, rfl⟩, hsince⟩ := h
  have hfilter : since.filter Submission.programs = since.filter Submission.isRefused := by
    refine List.filter_congr fun r hr => ?_
    rw [Submission.programs, hsince r hr, Bool.false_or]
  have hgranted : Submission.programs (⟨i, .install, .ok ()⟩ : Submission ι) = true := rfl
  unfold programmed
  rw [List.filter_append, List.filter_cons_of_pos hgranted, hfilter, List.getLast?_append,
    List.getLast?_cons]
  cases (since.filter Submission.isRefused).getLast? <;> rfl

/-- The divider is what the calls made of it, and an installed master was the last one to be granted. -/
structure Programmed (buses : ι → Bus) (s : SharedBench ι) : Prop where
  wired : ∀ i, (s.masters i).bus = buses i
  divider : s.bench.clockControl = programmed buses s.submitted
  granted : ∀ i, (s.masters i).installed = true → ∃ since, LastGranted s.submitted i since

theorem programmed_fresh (buses : ι → Bus) : Programmed buses (fresh buses) :=
  ⟨fun _ => rfl, rfl, nofun⟩

theorem Programmed.play [DecidableEq ι] {buses : ι → Bus} (h : Programmed buses s) (hex : s.Exclusive)
    (turn : Turn ι) : Programmed buses (s.play turn) := by
  have hex' := hex.play turn
  cases turn with
  | attach address device => exact ⟨h.wired, h.divider, h.granted⟩
  | wedge address => exact ⟨h.wired, h.divider, h.granted⟩
  | call i call =>
    obtain ⟨-, result, after, hshift, hmasters, hsubmitted⟩ := play_call hex.rest i call
    generalize s.play (.call i call) = s' at hex' hshift hmasters hsubmitted
    have hwired : ∀ j, (s'.masters j).bus = buses j := by
      intro j
      rw [hmasters]
      by_cases hji : j = i
      · rw [hji, Function.update_self, hshift.bus, h.wired]
      · rw [Function.update_of_ne hji, h.wired]
    have hkept (hsame : after = s.masters i) (hr : Submission.isGranted ⟨i, call, result⟩ = false) :
        ∀ j, (s'.masters j).installed = true → ∃ since, LastGranted s'.submitted j since := by
      intro j hj
      rw [hmasters, hsame, Function.update_eq_self] at hj
      obtain ⟨since, hsince⟩ := h.granted j hj
      rw [hsubmitted]
      exact ⟨_, hsince.concat hr⟩
    generalize htenure : s'.bench.tenure = t at hshift
    cases hshift with
    | none hinstall _ =>
      obtain ⟨-, -, hcontrol⟩ := Bench.Tenure.mk.inj htenure
      have hgranted : Submission.isGranted ⟨i, call, result⟩ = false :=
        decide_eq_false fun ⟨hcall, hok⟩ => (hinstall hcall).1 hok
      have hrefused : Submission.isRefused ⟨i, call, result⟩ = false :=
        decide_eq_false fun ⟨hcall, herror⟩ => (hinstall hcall).2 herror
      refine ⟨hwired, ?_, hkept rfl hgranted⟩
      rw [hcontrol, hsubmitted, programmed_concat, Submission.programs, hgranted, hrefused]
      exact h.divider
    | refused _ =>
      obtain ⟨-, -, hcontrol⟩ := Bench.Tenure.mk.inj htenure
      refine ⟨hwired, ?_, hkept rfl rfl⟩
      rw [hcontrol, hsubmitted, programmed_concat, h.wired]
      rfl
    | granted _ hfree =>
      obtain ⟨-, -, hcontrol⟩ := Bench.Tenure.mk.inj htenure
      refine ⟨hwired, ?_, ?_⟩
      · rw [hcontrol, hsubmitted, programmed_concat, h.wired]
        rfl
      · intro j hj
        have hi : (s'.masters i).installed = true := by rw [hmasters, Function.update_self]
        obtain rfl := hex'.unique j i hj hi
        exact ⟨[], ⟨s.submitted, hsubmitted⟩, nofun⟩
    | removed hm =>
      obtain ⟨hclaimed, -, hcontrol⟩ := Bench.Tenure.mk.inj htenure
      refine ⟨hwired, ?_, ?_⟩
      · rw [hcontrol, hsubmitted, programmed_concat]
        exact h.divider
      · intro j hj
        rw [hex'.claimed.mpr ⟨j, hj⟩] at hclaimed
        cases hclaimed

theorem Programmed.foldl [DecidableEq ι] {buses : ι → Bus} (h : Programmed buses s)
    (hex : s.Exclusive) (turns : List (Turn ι)) :
    Programmed buses (turns.foldl SharedBench.play s) := by
  induction turns generalizing s with
  | nil => exact h
  | cons turn rest ih => exact ih (h.play hex turn) (hex.play turn)

/-- The divider on a shared bench is that of the master whose installation programmed it last, whether
or not that one got the line. An installed master's own divider is in force exactly if the last
installation that was refused the line since, if there was any, has the same; its rate is then the one
that it tells. -/
theorem divider_in_force [DecidableEq ι] (buses : ι → Bus) (turns : List (Turn ι)) :
    let s := turns.foldl play (fresh buses)
    s.bench.clockControl =
        ((s.submitted.filter Submission.programs).getLast?.elim 0 fun r =>
          (buses r.master).config.clockControl) ∧
      ∀ i, (s.masters i).installed = true →
        ∃ before since, s.submitted = before ++ ⟨i, .install, .ok ()⟩ :: since ∧
          (∀ r ∈ since, r.isGranted = false) ∧
          (s.bench.clockControl = (buses i).config.clockControl ↔
            ∀ r, (since.filter Submission.isRefused).getLast? = some r →
              (buses r.master).config.clockControl = (buses i).config.clockControl) ∧
          (s.bench.clockControl = (buses i).config.clockControl →
            (buses i).config.resultingRate s.bench.clockControl = (s.masters i).busRate) := by
  intro s
  have h : Programmed buses s := (programmed_fresh buses).foldl (exclusive_fresh buses) turns
  refine ⟨h.divider, fun i hi => ?_⟩
  obtain ⟨since, hlast⟩ := h.granted i hi
  obtain ⟨before, hsubmitted⟩ := hlast.1
  refine ⟨before, since, hsubmitted, hlast.2, ?_, fun hown => ?_⟩
  · rw [h.divider, hlast.programmed_eq buses]
    cases hrefused : (since.filter Submission.isRefused).getLast? with
    | none => exact iff_of_true rfl nofun
    | some r =>
      constructor
      · rintro heq _ ⟨⟩
        exact heq
      · exact fun hsame => hsame r rfl
  · rw [hown, Master.busRate, h.wired]
    rfl

/-- Two buses that differ in their rates only. -/
def rivalBuses (slow : Bool) : Bus :=
  ⟨{ Bench.config with busRate := if slow then Speed.standard.rate else Speed.fast.rate }, .silent⟩

/-- A second master is refused the line, and the installed one, which tells 400 kHz, goes on at 100 kHz. -/
theorem divider_lost_to_refused :
    let s := [.call false .install, .call true .install].foldl play (fresh rivalBuses)
    s.submitted.map Submission.result = [.ok (), .error .noInterrupt] ∧
      (s.masters false).installed = true ∧
      s.bench.clockControl ≠ (rivalBuses false).config.clockControl ∧
      (s.masters false).busRate = 400000 ∧
      (rivalBuses false).config.resultingRate s.bench.clockControl = 100000 := by
  decide +kernel

end SharedBench
end TwoWire

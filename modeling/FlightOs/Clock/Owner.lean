/-
# Who owns a clock device: `kernel/watchdog.c` and `kernel/tick.c`

A device is offered to the watchdog and to the ticker of the CPU that runs.  Each takes what it
prefers if it has none yet, and never gives it back.

* `ClockInv`: a device has at most one owner, is in use if it has one, and whatever was asked of a
  device its owner asked;
* `watchdogCheckDevice_cases`, `tickCheckDevice_cases`: what an offer can lead to;
* `clock_ownership`: in every run whose registrations keep clear of `ClockClash`, the invariant
  holds and no assertion fails; and from such a state exactly the registrations that meet it fail.

`clockevents_register_device` offers the device to the ticker a second time, whatever became of the
first offer.  `clock_ownership_clash` is the registration that this stops.
-/
import FlightOs.Clock.Device
import FlightOs.Lib.System

namespace FlightOs

/-! ## 1. The watchdog -/

def watchdogCheckPreferred (cur : Option Nat) (new : ClockEventDevice) : Bool :=
  if !clockeventsFeatureWatchdog new then false else cur.isNone

def watchdogSetupDevice (c : Clock) (dev : Nat) : Clock :=
  let c := irqSetAffinity .watchdog c dev 0
  let c := clockeventsSetState .watchdog c dev .watchdog
  clockeventsSetHandler c dev (some .watchdogInternal)

def watchdogCheckDevice (c : Clock) (dev : Nat) : Option Clock :=
  if !watchdogCheckPreferred c.wdDev (c.devs dev) then some c
  else do
    let c ← clockeventsExchangeDevice .watchdog c c.wdDev (some dev)
    some (watchdogSetupDevice { c with wdDev := some dev } dev)

inductive WatchdogMode
  | unleash | leash

/-- Zero, or a negated error number. -/
def watchdogSetMode (c : Clock) (mode : WatchdogMode) : Clock × Int :=
  match c.wdDev with
  | none => (c, -(ENODEV : Int))
  | some dev =>
    match mode with
    | .unleash => (clockeventsSetState .watchdog c dev .watchdog, 0)
    | .leash => (clockeventsSetState .watchdog c dev .shutdown, 0)

/-! ## 2. The ticker -/

inductive TickMode
  | periodic | oneshot

/-- What the clock decides while a device is calibrated: the number of rounds until the first
interrupt that is told apart, the number of those that follow, and whether none of them failed. -/
structure TickCalibration where
  step : Nat
  rounds : Nat
  loops : Nat
  complete : Bool

/-- The timeouts that are programmed, in order. -/
def TickCalibration.timeouts (cal : TickCalibration) : List Nat :=
  (List.range cal.rounds).map (fun i => (i + 1) * cal.step % 2 ^ 32) ++
    List.replicate cal.loops (cal.rounds * cal.step % 2 ^ 32)

def tickCheckPreferred (cur : Option Nat) (new : ClockEventDevice) : Bool :=
  if !clockeventsFeaturePeriodic new then false else cur.isNone

def tickSetModePeriodic (c : Clock) (cpu dev : Nat) : Clock × Int :=
  if !clockeventsFeaturePeriodic (c.devs dev) then (c, -(EINVAL : Int))
  else (clockeventsSetState (.ticker cpu) c dev .periodic, 0)

def tickSetModeOneshot (c : Clock) (cpu dev : Nat) : Clock × Int :=
  if !clockeventsFeatureOneshot (c.devs dev) then (c, -(EINVAL : Int))
  else (clockeventsSetState (.ticker cpu) c dev .oneshot, 0)

/-- Zero, or a negated error number. -/
def tickSetMode (c : Clock) (cpu : Nat) (mode : TickMode) : Clock × Int :=
  match c.tickDevice cpu with
  | none => (c, -(ENODEV : Int))
  | some dev =>
    match mode with
    | .periodic => tickSetModePeriodic c cpu dev
    | .oneshot => tickSetModeOneshot c cpu dev

/-- The rounds of the calibration, once a mode is set. -/
def tickCalibrate (c : Clock) (cpu dev : Nat) (cal : TickCalibration) : Clock :=
  let c := clockeventsSetHandler c dev (some .tickCalibrate)
  let c := cal.timeouts.foldl (fun c t => (clockeventsProgramTimeoutNs (.ticker cpu) c dev t).1) c
  if cal.complete then clockeventsSetHandler c dev none else c

/-- One-shot mode is preferred; a device with neither mode is left as it is. -/
def tickCalibrateMin (c : Clock) (cpu dev : Nat) (cal : TickCalibration) : Clock :=
  let r := tickSetMode c cpu .oneshot
  if r.2 ≠ 0 then
    let r := tickSetMode r.1 cpu .periodic
    if r.2 ≠ 0 then r.1 else tickCalibrate r.1 cpu dev cal
  else tickCalibrate r.1 cpu dev cal

def tickSetupDevice (c : Clock) (dev cpu : Nat) (cal : TickCalibration) : Clock :=
  let c := irqSetAffinity (.ticker cpu) c dev cpu
  let c := tickCalibrateMin c cpu dev cal
  (tickSetModePeriodic c cpu dev).1

def tickCheckDevice (c : Clock) (cpu dev : Nat) (cal : TickCalibration) : Option Clock :=
  let cur := c.tickDevice cpu
  if !tickCheckPreferred cur (c.devs dev) then some c
  else do
    let c ← clockeventsExchangeDevice (.ticker cpu) c cur (some dev)
    some (tickSetupDevice { c with tickDevice := Function.update c.tickDevice cpu (some dev) }
      dev cpu cal)

/-! ## 3. Registration and offers -/

/-- The callbacks that a device must have. -/
def ClockEventDevice.ready (dev : ClockEventDevice) : Bool :=
  dev.setNextEvent && (dev.features &&& clockEvtFeatKtime == 0 || dev.setNextKtime) && dev.setState

/-- The watchdog first; the ticker if the device is still unused. -/
def clockeventsOffer (c : Clock) (cpu dev : Nat) (cal : TickCalibration) : Option Clock := do
  let c ← watchdogCheckDevice c dev
  if (c.devs dev).state = .unused then tickCheckDevice c cpu dev cal else some c

def clockeventsRegisterDevice (c : Clock) (cpu dev : Nat) (cal : TickCalibration) :
    Option Clock :=
  if !(c.devs dev).ready then some c
  else do
    let c ← clockeventsOffer { c with devices := c.devices ++ [dev] } cpu dev cal
    -- whatever became of the offer
    tickCheckDevice c cpu dev cal

/-- Zero, or a negated error number. -/
def clockeventsOfferDevice (c : Clock) (cpu : Nat) (cal : TickCalibration) : Option (Clock × Int) :=
  match c.devices.find? (fun dev => (c.devs dev).state = .unused) with
  | none => some (c, -(ENODEV : Int))
  | some dev => (clockeventsOffer c cpu dev cal).map (fun c => (c, 0))

/-! ## 4. Runs -/

/-- What happens to the devices: registrations and offers, on any CPU, and changes of mode. -/
inductive ClockOp
  | register (cpu dev : Nat) (cal : TickCalibration)
  | offer (cpu : Nat) (cal : TickCalibration)
  | tickMode (cpu : Nat) (mode : TickMode)
  | watchdogMode (mode : WatchdogMode)

/-- There is no result if an assertion fails. -/
def clockStep (c : Clock) : ClockOp → Option Clock
  | .register cpu dev cal => clockeventsRegisterDevice c cpu dev cal
  | .offer cpu cal => (clockeventsOfferDevice c cpu cal).map Prod.fst
  | .tickMode cpu mode => some (tickSetMode c cpu mode).1
  | .watchdogMode mode => some (watchdogSetMode c mode).1

/-- Before the first registration nothing is owned, and every device is as its driver sets it up. -/
structure Clock.Initial (c : Clock) : Prop where
  devices : c.devices = []
  wdDev : c.wdDev = none
  tickDevice : ∀ cpu, c.tickDevice cpu = none
  unused : ∀ dev, (c.devs dev).state = .unused
  calls : c.calls = []

def clockSystem : System Clock ClockOp := .ofFun Clock.Initial clockStep

/-- A device is registered once. -/
def ClockFresh (c : Clock) : ClockOp → Prop
  | .register _ dev _ => dev ∉ c.devices
  | _ => True

/-- The device goes to the watchdog, and the ticker of the CPU, which has none, would take it. -/
def Clock.Clash (c : Clock) (cpu dev : Nat) : Prop :=
  (c.devs dev).ready = true ∧ clockeventsFeatureWatchdog (c.devs dev) = true ∧ c.wdDev = none ∧
    clockeventsFeaturePeriodic (c.devs dev) = true ∧ c.tickDevice cpu = none

instance (c : Clock) (cpu dev : Nat) : Decidable (c.Clash cpu dev) := by
  unfold Clock.Clash
  infer_instance

/-- No registration of a device for both, on a CPU without a ticker. -/
def ClockClear (c : Clock) : ClockOp → Prop
  | .register cpu dev _ => ¬ c.Clash cpu dev
  | _ => True

instance (c : Clock) : ∀ o, Decidable (ClockFresh c o ∧ ClockClear c o)
  | .register cpu dev _ => inferInstanceAs (Decidable (dev ∉ c.devices ∧ ¬ c.Clash cpu dev))
  | .offer _ _ => inferInstanceAs (Decidable (True ∧ True))
  | .tickMode _ _ => inferInstanceAs (Decidable (True ∧ True))
  | .watchdogMode _ => inferInstanceAs (Decidable (True ∧ True))

/-- The user has the device. -/
def Clock.Owns (c : Clock) : ClockUser → Nat → Prop
  | .watchdog, dev => c.wdDev = some dev
  | .ticker cpu, dev => c.tickDevice cpu = some dev

/-- The invariant of a run. -/
structure ClockInv (c : Clock) : Prop where
  single : ∀ {u v dev}, c.Owns u dev → c.Owns v dev → u = v
  used : ∀ {u dev}, c.Owns u dev → dev ∈ c.devices ∧ (c.devs dev).state ≠ .unused
  calls : ∀ x ∈ c.calls, c.Owns x.user x.dev
  fresh : ∀ dev ∉ c.devices, (c.devs dev).state = .unused

/-! ## 5. What the owner does -/

namespace Touched

variable {user : ClockUser} {cpu dev : Nat} {c c' : Clock}

theorem owns (h : Touched user dev c c') (u : ClockUser) (e : Nat) :
    c'.Owns u e ↔ c.Owns u e := by
  cases u with
  | watchdog => rw [Clock.Owns, Clock.Owns, h.wdDev]
  | ticker cpu => rw [Clock.Owns, Clock.Owns, h.tickDevice]

/-- What an owner does to its device keeps the invariant. -/
theorem inv (h : Touched user dev c c') (ho : c.Owns user dev) (I : ClockInv c) : ClockInv c' where
  single hu hv := I.single ((h.owns _ _).mp hu) ((h.owns _ _).mp hv)
  used {u e} hu := by
    obtain ⟨hmem, hst⟩ := I.used ((h.owns _ _).mp hu)
    rw [h.devices]
    refine ⟨hmem, ?_⟩
    by_cases hed : e = dev
    · subst hed
      exact h.used hst
    · rw [h.devs e hed]
      exact hst
  calls x hx := by
    rw [h.owns]
    rcases h.calls x hx with hx | ⟨hu, hd⟩
    · exact I.calls x hx
    · rw [hu, hd]
      exact ho
  fresh e he := by
    rw [h.devices] at he
    have hed : e ≠ dev := by
      rintro rfl
      exact he (I.used ho).1
    rw [h.devs e hed]
    exact I.fresh e he

theorem setModePeriodic (c : Clock) :
    Touched (.ticker cpu) dev c (tickSetModePeriodic c cpu dev).1 := by
  rw [tickSetModePeriodic]
  split
  · exact refl _ _ _
  · exact setState c (by decide)

theorem setModeOneshot (c : Clock) :
    Touched (.ticker cpu) dev c (tickSetModeOneshot c cpu dev).1 := by
  rw [tickSetModeOneshot]
  split
  · exact refl _ _ _
  · exact setState c (by decide)

theorem tickSetMode (hd : c.tickDevice cpu = some dev) (mode : TickMode) :
    Touched (.ticker cpu) dev c (tickSetMode c cpu mode).1 := by
  rw [FlightOs.tickSetMode, hd]
  cases mode with
  | periodic => exact setModePeriodic c
  | oneshot => exact setModeOneshot c

/-- The timeouts of a calibration, by induction on their list. -/
theorem timeouts : ∀ (ts : List Nat) (c : Clock), Touched (.ticker cpu) dev c
    (ts.foldl (fun c t => (clockeventsProgramTimeoutNs (.ticker cpu) c dev t).1) c)
  | [], c => refl _ _ c
  | t :: ts, c => (programTimeout c t).trans (timeouts ts _)

theorem calibrate (c : Clock) (cal : TickCalibration) :
    Touched (.ticker cpu) dev c (tickCalibrate c cpu dev cal) := by
  have h : Touched (.ticker cpu) dev c _ :=
    (setHandler c (some .tickCalibrate)).trans (timeouts cal.timeouts _)
  simp only [tickCalibrate]
  split
  · exact h.trans (setHandler _ none)
  · exact h

theorem calibrateMin (hd : c.tickDevice cpu = some dev) (cal : TickCalibration) :
    Touched (.ticker cpu) dev c (tickCalibrateMin c cpu dev cal) := by
  have h1 := tickSetMode hd .oneshot
  simp only [tickCalibrateMin]
  split
  · have h2 := tickSetMode (h1.tickDevice ▸ hd) .periodic
    split
    · exact h1.trans h2
    · exact (h1.trans h2).trans (calibrate _ cal)
  · exact h1.trans (calibrate _ cal)

theorem tickSetup (hd : c.tickDevice cpu = some dev) (cal : TickCalibration) :
    Touched (.ticker cpu) dev c (tickSetupDevice c dev cpu cal) := by
  have h1 : Touched (.ticker cpu) dev c (irqSetAffinity (.ticker cpu) c dev cpu) := call _ _ _ _
  have h2 := calibrateMin (h1.tickDevice.symm ▸ hd) cal
  exact (h1.trans h2).trans (setModePeriodic _)

theorem watchdogSetup (c : Clock) : Touched .watchdog dev c (watchdogSetupDevice c dev) := by
  have h1 : Touched .watchdog dev c (irqSetAffinity .watchdog c dev 0) := call _ _ _ _
  have h2 : Touched .watchdog dev _ _ := setState (irqSetAffinity .watchdog c dev 0)
    (by decide : ClockEventState.watchdog ≠ .unused)
  exact (h1.trans h2).trans (setHandler _ _)

end Touched

/-! ## 6. Offers -/

/-- The user has taken a device that nobody had. -/
structure Taken (user : ClockUser) (dev : Nat) (c c' : Clock) : Prop where
  devices : c'.devices = c.devices
  devs : ∀ e ≠ dev, c'.devs e = c.devs e
  features : (c'.devs dev).features = (c.devs dev).features
  used : (c'.devs dev).state ≠ .unused
  owns : ∀ u e, c'.Owns u e ↔ u = user ∧ e = dev ∨ c.Owns u e
  calls : ∀ x ∈ c'.calls, x ∈ c.calls ∨ x.user = user ∧ x.dev = dev

namespace Taken

variable {user : ClockUser} {dev : Nat} {c c' : Clock}

/-- The exchange, the owner's entry, and what the owner then does. -/
theorem of_touched (c₁ : Clock) (hc₁ : c₁.devices = c.devices)
    (hdevs : c₁.devs = (clockeventsSetState user c dev .shutdown).devs)
    (hcalls : c₁.calls = (clockeventsSetState user c dev .shutdown).calls)
    (howns : ∀ u e, c₁.Owns u e ↔ u = user ∧ e = dev ∨ c.Owns u e)
    (h : Touched user dev c₁ c') : Taken user dev c c' := by
  have h0 : Touched user dev c (clockeventsSetState user c dev .shutdown) :=
    Touched.setState c (by decide)
  refine ⟨h.devices.trans hc₁, fun e he => ?_, ?_, h.used ?_, fun u e => ?_, fun x hx => ?_⟩
  · rw [h.devs e he, hdevs, h0.devs e he]
  · rw [h.features, hdevs, h0.features]
  · rw [hdevs, clockeventsSetState_shutdown]
    decide
  · rw [h.owns, howns]
  · rcases h.calls x hx with hx | hx
    · rw [hcalls] at hx
      exact h0.calls x hx
    · exact Or.inr hx

/-- An unused device that is taken keeps the invariant. -/
theorem inv (h : Taken user dev c c') (hmem : dev ∈ c.devices) (hun : (c.devs dev).state = .unused) (I : ClockInv c) :
    ClockInv c' where
  single {u v e} hu hv := by
    have hnone : ∀ w, ¬ c.Owns w dev := fun w hw => (I.used hw).2 hun
    rcases (h.owns u e).mp hu with ⟨rfl, rfl⟩ | hu'
    · rcases (h.owns v _).mp hv with ⟨rfl, -⟩ | hv'
      · rfl
      · exact absurd hv' (hnone v)
    · rcases (h.owns v e).mp hv with ⟨rfl, rfl⟩ | hv'
      · exact absurd hu' (hnone u)
      · exact I.single hu' hv'
  used {u e} hu := by
    rw [h.devices]
    rcases (h.owns u e).mp hu with ⟨-, rfl⟩ | hu'
    · exact ⟨hmem, h.used⟩
    · obtain ⟨hm, hst⟩ := I.used hu'
      have hed : e ≠ dev := by
        rintro rfl
        exact hst hun
      rw [h.devs e hed]
      exact ⟨hm, hst⟩
  calls x hx := by
    rw [h.owns]
    exact (h.calls x hx).elim (fun hx' => Or.inr (I.calls x hx')) Or.inl
  fresh e he := by
    rw [h.devices] at he
    have hed : e ≠ dev := by
      rintro rfl
      exact he hmem
    rw [h.devs e hed]
    exact I.fresh e he

/-- A device that the watchdog takes leaves the tickers alone. -/
theorem tickDevice (h : Taken .watchdog dev c c') (cpu : Nat) :
    c'.tickDevice cpu = c.tickDevice cpu := by
  refine Option.ext (fun e => ?_)
  have := h.owns (.ticker cpu) e
  simpa [Clock.Owns] using this

end Taken

section Offer

variable {c c' : Clock} {cpu dev : Nat} {cal : TickCalibration}

/-- The watchdog has no device and could use this one. -/
def Clock.WatchdogWants (c : Clock) (dev : Nat) : Prop :=
  clockeventsFeatureWatchdog (c.devs dev) = true ∧ c.wdDev = none

/-- The ticker of the CPU has no device and could use this one. -/
def Clock.TickWants (c : Clock) (cpu dev : Nat) : Prop :=
  clockeventsFeaturePeriodic (c.devs dev) = true ∧ c.tickDevice cpu = none

theorem watchdogCheckDevice_idle (h : ¬ c.WatchdogWants dev) :
    watchdogCheckDevice c dev = some c := by
  have hpref : watchdogCheckPreferred c.wdDev (c.devs dev) = false := by
    rw [watchdogCheckPreferred]
    cases hf : clockeventsFeatureWatchdog (c.devs dev) with
    | false => rfl
    | true =>
      have hcur : c.wdDev ≠ none := fun e => h ⟨hf, e⟩
      simpa [Option.isSome_iff_ne_none] using hcur
  rw [watchdogCheckDevice, if_pos (by simp [hpref])]

/-- **The watchdog takes** an unused device that it wants. -/
theorem watchdogCheckDevice_takes (h : c.WatchdogWants dev)
    (hun : (c.devs dev).state = .unused) :
    ∃ c', watchdogCheckDevice c dev = some c' ∧ Taken .watchdog dev c c' := by
  obtain ⟨hf, hcur⟩ := h
  have hpref : watchdogCheckPreferred c.wdDev (c.devs dev) = true := by
    simp [watchdogCheckPreferred, hf, hcur]
  have h0 : Touched .watchdog dev c (clockeventsSetState .watchdog c dev .shutdown) :=
    Touched.setState c (by decide)
  let c₁ : Clock :=
    { clockeventsSetState .watchdog c dev .shutdown with wdDev := some dev }
  refine ⟨watchdogSetupDevice c₁ dev, ?_, Taken.of_touched c₁ h0.devices rfl rfl
    (fun u e => ?_) (Touched.watchdogSetup c₁)⟩
  · rw [watchdogCheckDevice, if_neg (by simp [hpref]), hcur, clockeventsExchangeDevice_none,
      if_pos hun]
    rfl
  · cases u with
    | watchdog => simp [Clock.Owns, c₁, hcur, eq_comm]
    | ticker cpu => simp [Clock.Owns, c₁, h0.tickDevice]

theorem tickCheckDevice_idle (h : ¬ c.TickWants cpu dev) :
    tickCheckDevice c cpu dev cal = some c := by
  have hpref : tickCheckPreferred (c.tickDevice cpu) (c.devs dev) = false := by
    rw [tickCheckPreferred]
    cases hf : clockeventsFeaturePeriodic (c.devs dev) with
    | false => rfl
    | true =>
      have hcur : c.tickDevice cpu ≠ none := fun e => h ⟨hf, e⟩
      simpa [Option.isSome_iff_ne_none] using hcur
  rw [tickCheckDevice, if_pos (by simp [hpref])]

/-- **The ticker takes** an unused device that it wants. -/
theorem tickCheckDevice_takes (cal : TickCalibration) (h : c.TickWants cpu dev)
    (hun : (c.devs dev).state = .unused) :
    ∃ c', tickCheckDevice c cpu dev cal = some c' ∧ Taken (.ticker cpu) dev c c' := by
  obtain ⟨hf, hcur⟩ := h
  have hpref : tickCheckPreferred (c.tickDevice cpu) (c.devs dev) = true := by
    simp [tickCheckPreferred, hf, hcur]
  have h0 : Touched (.ticker cpu) dev c (clockeventsSetState (.ticker cpu) c dev .shutdown) :=
    Touched.setState c (by decide)
  let c₁ : Clock :=
    { clockeventsSetState (.ticker cpu) c dev .shutdown with
      tickDevice := Function.update
        (clockeventsSetState (.ticker cpu) c dev .shutdown).tickDevice cpu (some dev) }
  have hd : c₁.tickDevice cpu = some dev := Function.update_self _ _ _
  refine ⟨tickSetupDevice c₁ dev cpu cal, ?_, Taken.of_touched c₁ h0.devices rfl rfl
    (fun u e => ?_) (Touched.tickSetup hd cal)⟩
  · rw [tickCheckDevice, if_neg (by simp [hpref]), hcur, clockeventsExchangeDevice_none,
      if_pos hun]
    rfl
  · cases u with
    | watchdog => simp [Clock.Owns, c₁, h0.wdDev]
    | ticker k =>
      rcases eq_or_ne k cpu with rfl | hk
      · simp [Clock.Owns, c₁, hcur, eq_comm]
      · simp [Clock.Owns, c₁, h0.tickDevice, hk]

/-- **A device in use must not be wanted.** -/
theorem tickCheckDevice_fails (h : c.TickWants cpu dev) (hu : (c.devs dev).state ≠ .unused) :
    tickCheckDevice c cpu dev cal = none := by
  obtain ⟨hf, hcur⟩ := h
  have hpref : tickCheckPreferred (c.tickDevice cpu) (c.devs dev) = true := by
    simp [tickCheckPreferred, hf, hcur]
  rw [tickCheckDevice, if_neg (by simp [hpref]), hcur, clockeventsExchangeDevice_none, if_neg hu]
  rfl

/-- What an offer of an unused device leads to. -/
inductive Offered (c : Clock) (cpu dev : Nat) (c' : Clock) : Prop
  | watchdog : c.WatchdogWants dev → Taken .watchdog dev c c' → Offered c cpu dev c'
  | ticker : ¬ c.WatchdogWants dev → Taken (.ticker cpu) dev c c' → Offered c cpu dev c'
  | idle : ¬ c.TickWants cpu dev → c' = c → Offered c cpu dev c'

/-- **An offer of an unused device** always has a result. -/
theorem clockeventsOffer_spec (cpu : Nat) (cal : TickCalibration)
    (hun : (c.devs dev).state = .unused) :
    ∃ c', clockeventsOffer c cpu dev cal = some c' ∧ Offered c cpu dev c' := by
  by_cases hw : c.WatchdogWants dev
  · obtain ⟨c', heq, ht⟩ := watchdogCheckDevice_takes hw hun
    refine ⟨c', ?_, .watchdog hw ht⟩
    rw [clockeventsOffer, heq, Option.bind_eq_bind, Option.bind_some, if_neg ht.used]
  · have heq : clockeventsOffer c cpu dev cal = tickCheckDevice c cpu dev cal := by
      rw [clockeventsOffer, watchdogCheckDevice_idle hw, Option.bind_eq_bind, Option.bind_some,
        if_pos hun]
    by_cases ht : c.TickWants cpu dev
    · obtain ⟨c', hc', htaken⟩ := tickCheckDevice_takes cal ht hun
      exact ⟨c', heq.trans hc', .ticker hw htaken⟩
    · exact ⟨c, heq.trans (tickCheckDevice_idle ht), .idle ht rfl⟩

theorem Offered.inv (h : Offered c cpu dev c') (hmem : dev ∈ c.devices)
    (hun : (c.devs dev).state = .unused) (I : ClockInv c) : ClockInv c' := by
  cases h with
  | watchdog _ ht => exact ht.inv hmem hun I
  | ticker _ ht => exact ht.inv hmem hun I
  | idle _ heq => exact heq ▸ I

/-- After the offer the ticker wants the device only if the watchdog has taken it. -/
theorem Offered.tickWants_iff (h : Offered c cpu dev c') :
    c'.TickWants cpu dev ↔ c.WatchdogWants dev ∧ c.TickWants cpu dev := by
  cases h with
  | watchdog hw ht =>
    have hp : clockeventsFeaturePeriodic (c'.devs dev) = clockeventsFeaturePeriodic (c.devs dev) := by
      rw [clockeventsFeaturePeriodic, clockeventsFeaturePeriodic, ht.features]
    rw [Clock.TickWants, Clock.TickWants, hp, ht.tickDevice, and_iff_right hw]
  | ticker hw ht =>
    have hown : c'.tickDevice cpu = some dev := (ht.owns (.ticker cpu) dev).mpr (Or.inl ⟨rfl, rfl⟩)
    simp [Clock.TickWants, hown, hw]
  | idle hn heq => simp [heq, hn]

/-- A device on the list that nobody has. -/
theorem ClockInv.add (I : ClockInv c) (dev : Nat) :
    ClockInv { c with devices := c.devices ++ [dev] } where
  single hu hv := I.single hu hv
  used hu := ⟨List.mem_append_left _ (I.used hu).1, (I.used hu).2⟩
  calls x hx := I.calls x hx
  fresh e he := I.fresh e (fun hmem => he (List.mem_append_left _ hmem))

/-- **A registration** fails exactly at a clash, and keeps the invariant otherwise. -/
theorem clockeventsRegisterDevice_spec (I : ClockInv c) (hnew : dev ∉ c.devices) (cpu : Nat)
    (cal : TickCalibration) :
    if c.Clash cpu dev then clockeventsRegisterDevice c cpu dev cal = none
    else ∃ c', clockeventsRegisterDevice c cpu dev cal = some c' ∧ ClockInv c' := by
  by_cases hr : (c.devs dev).ready = true
  · let c₁ : Clock := { c with devices := c.devices ++ [dev] }
    have hun : (c₁.devs dev).state = .unused := I.fresh dev hnew
    have hmem : dev ∈ c₁.devices := List.mem_append_right _ (List.mem_singleton_self dev)
    obtain ⟨c', hoff, ho⟩ := clockeventsOffer_spec cpu cal hun
    have I' : ClockInv c' := ho.inv hmem hun (I.add dev)
    have hreg : clockeventsRegisterDevice c cpu dev cal = tickCheckDevice c' cpu dev cal := by
      rw [clockeventsRegisterDevice, if_neg (by simp [hr]), hoff]
      rfl
    have hclash : c.Clash cpu dev ↔ c'.TickWants cpu dev := by
      rw [ho.tickWants_iff, Clock.Clash, and_iff_right hr, ← and_assoc]
      rfl
    rw [hreg]
    split
    · next hc =>
      have hwant := hclash.mp hc
      refine tickCheckDevice_fails hwant ?_
      cases ho with
      | watchdog _ ht => exact ht.used
      | ticker _ ht => exact ht.used
      | idle hn heq => exact absurd (heq ▸ hwant) hn
    · next hc => exact ⟨c', tickCheckDevice_idle (fun h => hc (hclash.mpr h)), I'⟩
  · rw [if_neg (fun h => hr h.1)]
    refine ⟨c, ?_, I⟩
    rw [clockeventsRegisterDevice, if_pos (by simpa using hr)]

/-- **An offer of what is left** never fails. -/
theorem clockeventsOfferDevice_spec (I : ClockInv c) (cpu : Nat) (cal : TickCalibration) :
    ∃ r, clockeventsOfferDevice c cpu cal = some r ∧ ClockInv r.1 := by
  rw [clockeventsOfferDevice]
  cases hf : c.devices.find? (fun dev => (c.devs dev).state = .unused) with
  | none => exact ⟨_, rfl, I⟩
  | some dev =>
    have hun : (c.devs dev).state = .unused := by simpa using List.find?_some hf
    obtain ⟨c', hoff, ho⟩ := clockeventsOffer_spec cpu cal hun
    exact ⟨(c', 0), by simp [hoff], ho.inv (List.mem_of_find?_eq_some hf) hun I⟩

end Offer

/-! ## 7. Ownership over a run -/

theorem ClockInv.initial {c : Clock} (h : c.Initial) : ClockInv c where
  single {u v dev} hu := by
    cases u with
    | watchdog => simp [Clock.Owns, h.wdDev] at hu
    | ticker cpu => simp [Clock.Owns, h.tickDevice] at hu
  used {u dev} hu := by
    cases u with
    | watchdog => simp [Clock.Owns, h.wdDev] at hu
    | ticker cpu => simp [Clock.Owns, h.tickDevice] at hu
  calls x hx := by
    rw [h.calls] at hx
    exact absurd hx List.not_mem_nil
  fresh dev _ := h.unused dev

/-- **One step.**  It fails exactly at a clash, and keeps the invariant otherwise. -/
theorem ClockInv.step {c : Clock} (I : ClockInv c) {o : ClockOp} (hnew : ClockFresh c o) :
    (∃ c', clockStep c o = some c' ∧ ClockInv c') ∧ ClockClear c o ∨
      clockStep c o = none ∧ ¬ ClockClear c o := by
  cases o with
  | register cpu dev cal =>
    have hspec := clockeventsRegisterDevice_spec I hnew cpu cal
    rw [ClockClear, not_not]
    split at hspec
    · next h => exact Or.inr ⟨hspec, h⟩
    · next h => exact Or.inl ⟨hspec, h⟩
  | offer cpu cal =>
    obtain ⟨r, heq, hr⟩ := clockeventsOfferDevice_spec I cpu cal
    exact Or.inl ⟨⟨r.1, by simp [clockStep, heq], hr⟩, trivial⟩
  | tickMode cpu mode =>
    refine Or.inl ⟨⟨_, rfl, ?_⟩, trivial⟩
    cases hd : c.tickDevice cpu with
    | none =>
      rw [tickSetMode, hd]
      exact I
    | some dev =>
      have hown : c.Owns (.ticker cpu) dev := hd
      exact (Touched.tickSetMode hd mode).inv hown I
  | watchdogMode mode =>
    refine Or.inl ⟨⟨_, rfl, ?_⟩, trivial⟩
    cases hd : c.wdDev with
    | none =>
      rw [watchdogSetMode, hd]
      exact I
    | some dev =>
      have hown : c.Owns .watchdog dev := hd
      rw [watchdogSetMode, hd]
      cases mode with
      | unleash => exact 
        (Touched.setState c (by decide : ClockEventState.watchdog ≠ .unused)).inv hown I
      | leash => exact
        (Touched.setState c (by decide : ClockEventState.shutdown ≠ .unused)).inv hown I

/-- **Devices are owned**: one owner for each device, and nothing is asked of a device but by
its owner. -/
structure ClockOwned (c : Clock) : Prop where
  single : ∀ dev u v, c.Owns u dev → c.Owns v dev → u = v
  calls : ∀ x ∈ c.calls, c.Owns x.user x.dev
  watchdog : ∀ dev, c.wdDev = some dev → ∀ x ∈ c.calls, x.dev = dev → x.user = .watchdog

theorem ClockInv.owned {c : Clock} (I : ClockInv c) : ClockOwned c where
  single _ _ _ hu hv := I.single hu hv
  calls := I.calls
  watchdog _ hd x hx hxd := by
    have hu := I.calls x hx
    rw [hxd] at hu
    exact I.single hu hd

/-- **Ownership of clock devices.**  In every run of registrations and offers in which no
registration clashes, every device has one owner at most and answers to nobody else; and the next
step fails an assertion if and only if it is a registration that clashes. -/
theorem clock_ownership {c : Clock}
    (h : clockSystem.Reachable (fun c o => ClockFresh c o ∧ ClockClear c o) c) :
    ClockOwned c ∧ ∀ o, ClockFresh c o → ((clockStep c o).isSome ↔ ClockClear c o) := by
  have I : ClockInv c := by
    refine h.invariant (I := ClockInv) (fun c hc => .initial hc) (fun c o c' I hok hs => ?_)
    rcases I.step hok.1 with ⟨⟨c₁, heq, I'⟩, -⟩ | ⟨-, hn⟩
    · obtain rfl : c₁ = c' := Option.some.inj (heq.symm.trans hs)
      exact I'
    · exact absurd hok.2 hn
  refine ⟨I.owned, fun o ho => ?_⟩
  rcases I.step ho with ⟨⟨c₁, heq, -⟩, hok⟩ | ⟨heq, hn⟩
  · simp [heq, hok]
  · simp [heq, hn]

/-! ## 8. Two runs -/

/-- A device as its driver sets it up, with the features given. -/
def clockSampleDevice (features : Nat) : ClockEventDevice where
  eventHandler := none
  setNextEvent := true
  setNextKtime := true
  setState := true
  maxDeltaNs := 0xFFFFFFFF
  minDeltaNs := 100
  mult := 10
  state := .unused
  features := features
  irq := 8

/-- The timers of the GR712: the fourth can be the watchdog. -/
def clockSample : Clock where
  devs dev := clockSampleDevice (if dev = 3 then 15 else 7)
  devices := []
  wdDev := none
  tickDevice _ := none
  calls := []

theorem clockSample_initial : clockSample.Initial := by
  refine ⟨rfl, rfl, fun _ => rfl, fun dev => ?_, rfl⟩
  simp only [clockSample]
  split <;> rfl

/-- Calibrated in one round. -/
def clockSampleCal : TickCalibration := ⟨50, 1, 2, true⟩

/-- The order in which the machine registers them, and an offer on a second CPU. -/
def clockSampleOps : List ClockOp :=
  [.register 0 0 clockSampleCal, .register 0 1 clockSampleCal, .register 0 2 clockSampleCal,
    .register 0 3 clockSampleCal, .offer 1 clockSampleCal]

theorem clock_ownership_timers : ∃ c, System.stepAll clockStep clockSample clockSampleOps = some c ∧
    ClockOwned c ∧ ∀ o, ClockFresh c o → ((clockStep c o).isSome ↔ ClockClear c o) := by
  obtain ⟨c, hc⟩ : ∃ c, System.stepAll clockStep clockSample clockSampleOps = some c :=
    Option.isSome_iff_exists.mp (by decide)
  exact ⟨c, hc, clock_ownership (.stepAll clockSampleOps (.init clockSample_initial)
    (by decide) hc)⟩

/-- **A timer for both.**  The one that can be the watchdog is registered first. -/
theorem clock_ownership_clash : ∃ c, clockSystem.Reachable ClockFresh c ∧
    ∃ o, ClockFresh c o ∧ clockStep c o = none :=
  ⟨clockSample, .init clockSample_initial, .register 0 3 clockSampleCal, List.not_mem_nil,
    Option.isNone_iff_eq_none.mp (by decide)⟩

end FlightOs

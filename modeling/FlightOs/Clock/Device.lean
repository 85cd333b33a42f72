/-
# Clock event devices: `kernel/clockevent.c`

The devices, what a user of a device does to it, and how one device is exchanged for another.  A
`BUG_ON` that fires halts the machine: the function then has no result.

Who calls is not part of the source's data.  It is kept in `calls`, the list of what has been asked
of the devices and by whom, which no function reads.  `Touched` collects what a user changes when
it operates a device: that device and the list.
-/
import FlightOs.Errno
import Mathlib.Logic.Function.Basic

namespace FlightOs

/-! ## 1. Devices and their users -/

/-- `enum clock_event_state` -/
inductive ClockEventState
  | unused | shutdown | periodic | oneshot | watchdog
deriving DecidableEq

/-- The functions that are set as handlers of an event. -/
inductive ClockEventHandler
  | tickCalibrate
  | watchdogInternal

/-- A clock event device, `struct clock_event_device`: of the callbacks, whether they are set. -/
structure ClockEventDevice where
  eventHandler : Option ClockEventHandler
  setNextEvent : Bool
  setNextKtime : Bool
  setState : Bool
  maxDeltaNs : Nat
  minDeltaNs : Nat
  mult : Nat
  state : ClockEventState
  features : Nat
  irq : Nat

def clockEvtFeatPeriodic : Nat := 0x000001
def clockEvtFeatOneshot : Nat := 0x000002
def clockEvtFeatKtime : Nat := 0x000004
def clockEvtFeatWatchdog : Nat := 0x000008

/-- Who operates a device: the watchdog, or the ticker of a CPU. -/
inductive ClockUser
  | watchdog
  | ticker (cpu : Nat)
deriving DecidableEq

/-- What is asked of a device, or of the interrupt controller for it. -/
inductive ClockAct
  | setState (state : ClockEventState)
  | setNextEvent (evt : Nat)
  | setAffinity (irq cpu : Nat)

/-- A user operates a device. -/
structure ClockCall where
  user : ClockUser
  dev : Nat
  act : ClockAct

/-- The devices by number, the list `clockevent_devices`, the device of the watchdog and those of
the tickers, and what has been asked of the devices. -/
structure Clock where
  devs : Nat → ClockEventDevice
  devices : List Nat
  wdDev : Option Nat
  tickDevice : Nat → Option Nat
  calls : List ClockCall

namespace Clock

def setDev (c : Clock) (dev : Nat) (d : ClockEventDevice) : Clock :=
  { c with devs := Function.update c.devs dev d }

def call (c : Clock) (user : ClockUser) (dev : Nat) (act : ClockAct) : Clock :=
  { c with calls := ⟨user, dev, act⟩ :: c.calls }

end Clock

/-! ## 2. The functions -/

def clockeventsDelta2ticks (delta : Nat) (dev : ClockEventDevice) : Nat :=
  min (max (delta % 2 ^ 32) dev.minDeltaNs) dev.maxDeltaNs / dev.mult

def clockeventsFeaturePeriodic (dev : ClockEventDevice) : Bool :=
  dev.features &&& clockEvtFeatPeriodic != 0

def clockeventsFeatureOneshot (dev : ClockEventDevice) : Bool :=
  dev.features &&& clockEvtFeatOneshot != 0

def clockeventsFeatureWatchdog (dev : ClockEventDevice) : Bool :=
  dev.features &&& clockEvtFeatWatchdog != 0

def clockeventsStateSupported (dev : ClockEventDevice) : ClockEventState → Bool
  | .periodic => clockeventsFeaturePeriodic dev
  | .oneshot => clockeventsFeatureOneshot dev
  | .watchdog => clockeventsFeatureWatchdog dev
  | _ => true

/-- A state that the device does not support has no effect. -/
def clockeventsSetState (user : ClockUser) (c : Clock) (dev : Nat) (state : ClockEventState) :
    Clock :=
  if !clockeventsStateSupported (c.devs dev) state then c
  else if (c.devs dev).state ≠ state then
    (c.call user dev (.setState state)).setDev dev { c.devs dev with state }
  else c

def clockeventsSetHandler (c : Clock) (dev : Nat) (eventHandler : Option ClockEventHandler) :
    Clock :=
  c.setDev dev { c.devs dev with eventHandler }

/-- The old device is released, and the new one must not be in use. -/
def clockeventsExchangeDevice (user : ClockUser) (c : Clock) (old new : Option Nat) :
    Option Clock :=
  let c := match old with
    | some old => clockeventsSetState user c old .unused
    | none => c
  match new with
  | some new =>
    if (c.devs new).state ≠ .unused then none
    else some (clockeventsSetState user c new .shutdown)
  | none => some c

/-- Whether the timeout was clamped, next to the clock. -/
def clockeventsProgramTimeoutNs (user : ClockUser) (c : Clock) (dev nanoseconds : Nat) :
    Clock × Bool :=
  if (c.devs dev).state = .shutdown then (c, false)
  else
    let evt := clockeventsDelta2ticks nanoseconds (c.devs dev)
    (c.call user dev (.setNextEvent evt), evt != nanoseconds)

def irqSetAffinity (user : ClockUser) (c : Clock) (dev cpu : Nat) : Clock :=
  c.call user dev (.setAffinity (c.devs dev).irq cpu)

/-! ## 3. Operating a device -/

/-- A user has operated a device: nothing else has changed, the device is in use if it was, and its
features are the same. -/
structure Touched (user : ClockUser) (dev : Nat) (c c' : Clock) : Prop where
  devices : c'.devices = c.devices
  wdDev : c'.wdDev = c.wdDev
  tickDevice : c'.tickDevice = c.tickDevice
  devs : ∀ e ≠ dev, c'.devs e = c.devs e
  features : (c'.devs dev).features = (c.devs dev).features
  used : (c.devs dev).state ≠ .unused → (c'.devs dev).state ≠ .unused
  calls : ∀ x ∈ c'.calls, x ∈ c.calls ∨ x.user = user ∧ x.dev = dev

namespace Touched

variable {user : ClockUser} {dev : Nat} {c c' c'' : Clock}

theorem refl (user : ClockUser) (dev : Nat) (c : Clock) : Touched user dev c c :=
  ⟨rfl, rfl, rfl, fun _ _ => rfl, rfl, id, fun _ h => Or.inl h⟩

theorem trans (h : Touched user dev c c') (h' : Touched user dev c' c'') :
    Touched user dev c c'' where
  devices := h'.devices.trans h.devices
  wdDev := h'.wdDev.trans h.wdDev
  tickDevice := h'.tickDevice.trans h.tickDevice
  devs e he := (h'.devs e he).trans (h.devs e he)
  features := h'.features.trans h.features
  used hu := h'.used (h.used hu)
  calls x hx := (h'.calls x hx).elim (h.calls x) Or.inr

theorem call (c : Clock) (user : ClockUser) (dev : Nat) (act : ClockAct) :
    Touched user dev c (c.call user dev act) where
  devices := rfl
  wdDev := rfl
  tickDevice := rfl
  devs _ _ := rfl
  features := rfl
  used := id
  calls _ hx := (List.mem_cons.mp hx).elim (fun e => Or.inr (e ▸ ⟨rfl, rfl⟩)) Or.inl

/-- A change of a device that leaves it in use and its features as they are. -/
theorem setDev {d : ClockEventDevice} (hf : d.features = (c.devs dev).features)
    (hu : (c.devs dev).state ≠ .unused → d.state ≠ .unused) :
    Touched user dev c (c.setDev dev d) where
  devices := rfl
  wdDev := rfl
  tickDevice := rfl
  devs _ he := Function.update_of_ne he _ _
  features := by
    rw [Clock.setDev]
    simp [hf]
  used h := by
    rw [Clock.setDev]
    simpa using hu h
  calls _ h := Or.inl h

theorem setState (c : Clock) {state : ClockEventState} (hs : state ≠ .unused) :
    Touched user dev c (clockeventsSetState user c dev state) := by
  rw [clockeventsSetState]
  split
  · exact refl _ _ _
  split
  · refine (call c user dev (.setState state)).trans ?_
    exact setDev rfl (fun _ => hs)
  · exact refl _ _ _

theorem setHandler (c : Clock) (handler : Option ClockEventHandler) :
    Touched user dev c (clockeventsSetHandler c dev handler) := setDev rfl id

theorem programTimeout (c : Clock) (nanoseconds : Nat) :
    Touched user dev c (clockeventsProgramTimeoutNs user c dev nanoseconds).1 := by
  rw [clockeventsProgramTimeoutNs]
  split
  · exact refl _ _ _
  · exact call _ _ _ _

end Touched

/-! ## 4. The exchange -/

/-- With nothing to release, the exchange takes exactly the devices that are not in use. -/
theorem clockeventsExchangeDevice_none (user : ClockUser) (c : Clock) (dev : Nat) :
    clockeventsExchangeDevice user c none (some dev) =
      if (c.devs dev).state = .unused then some (clockeventsSetState user c dev .shutdown)
      else none := by
  rw [clockeventsExchangeDevice]
  simp only [ne_eq, ite_not]

/-- A device that is taken is in use. -/
theorem clockeventsSetState_shutdown (user : ClockUser) (c : Clock) (dev : Nat) :
    ((clockeventsSetState user c dev .shutdown).devs dev).state = .shutdown := by
  rw [clockeventsSetState, if_neg (by simp [clockeventsStateSupported])]
  split
  · simp [Clock.setDev, Clock.call]
  · next h => exact not_not.mp h

end FlightOs

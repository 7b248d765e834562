import FirefighterRover.Lib.CMemory
import FirefighterRover.Lib.EventRuns
import FirefighterRover.Lib.FlagWord
import FirefighterRover.Lib.Waiting

/-!
network_if.c: the status word, the handlers that write it, and the connection to an access
point. Events reach the handlers while the task sleeps.
-/
namespace RoverNetworkIf
open CMemory EventRuns FlagWord Waiting

abbrev Status := BitVec 32

/-! e_StatusBits, as far as the functions below use it. -/
def statusBitConnection : Nat := 1
def statusBitIpLeased : Nat := 2
def statusBitIpAcquired : Nat := 3

def isConnected (status : Status) : Bool := testFlag status statusBitConnection
def isIpAcquired (status : Status) : Bool := testFlag status statusBitIpAcquired

inductive WlanEvent where
  | connect
  | disconnect
  | staAdded
  | staRemoved
  | unexpected
  deriving DecidableEq, Repr

inductive NetAppEvent where
  | ipv4Acquired
  | ipv6Acquired
  | dhcpv4Leased
  | dhcpv4Released
  | unexpected
  deriving DecidableEq, Repr

inductive NetEvent where
  | wlan (e : WlanEvent)
  | netApp (e : NetAppEvent)
  deriving DecidableEq, Repr

def simpleLinkWlanEventHandler (status : Status) : WlanEvent → Status
  | .connect => setFlag status statusBitConnection
  | .disconnect => clearFlag (clearFlag status statusBitConnection) statusBitIpAcquired
  | .staAdded => setFlag status statusBitConnection
  | .staRemoved => clearFlag (clearFlag status statusBitConnection) statusBitIpLeased
  | .unexpected => status

def simpleLinkNetAppEventHandler (status : Status) : NetAppEvent → Status
  | .ipv4Acquired => setFlag status statusBitIpAcquired
  | .ipv6Acquired => setFlag status statusBitIpAcquired
  | .dhcpv4Leased => setFlag status statusBitIpLeased
  | .dhcpv4Released => clearFlag status statusBitIpLeased
  | .unexpected => status

def handle (status : Status) : NetEvent → Status
  | .wlan e => simpleLinkWlanEventHandler status e
  | .netApp e => simpleLinkNetAppEventHandler status e

/-- What happens in a call, in order: events, calls of the driver and what they return, and
    the looks of the loop at the status. -/
inductive Occurrence where
  | event (e : NetEvent)
  | wlanDisconnect (ret : Int)
  | wlanConnect (ssid : List UInt8) (ret : Int)
  | poll
  | netCfgGet (ret : Int)
  deriving DecidableEq, Repr

/-- What the driver does: the events it delivers at each sleep and usleep, counted from the
    start of the call, and what it returns. -/
structure SimpleLink where
  schedule : Nat → List NetEvent
  disconnectBefore : Int
  wlanConnect : Int
  disconnectAfter : Int
  netCfgGet : Int

structure Task where
  status : Status
  slept : Nat
  trace : List Occurrence
  deriving DecidableEq, Repr

def Task.enter (status : Status) : Task := ⟨status, 0, []⟩

def Task.note (s : Task) (o : Occurrence) : Task := { s with trace := s.trace ++ [o] }

def Task.deliver (s : Task) (e : NetEvent) : Task :=
  { s with status := handle s.status e, trace := s.trace ++ [.event e] }

def Task.sleep (sl : SimpleLink) (s : Task) : Task :=
  { run Task.deliver s (sl.schedule s.slept) with slept := s.slept + 1 }

def Task.clearConnection (s : Task) : Task :=
  { s with status := clearFlag (clearFlag s.status statusBitConnection) statusBitIpAcquired }

/-- The value returned and the task then; none when the fuel does not reach the end of the
    loop of usleep calls. -/
def networkIfDisconnectFromAP (sl : SimpleLink) (wlanDisconnect : Int) (fuel : Nat) (s : Task) :
    Option (Int × Task) :=
  if isConnected s.status then
    if wlanDisconnect = 0 then
      (waitUntil (fun s => !isConnected s.status) (Task.sleep sl) fuel
        (s.note (.wlanDisconnect wlanDisconnect))).map fun s => (0, s)
    else some (wlanDisconnect, s.note (.wlanDisconnect wlanDisconnect))
  else some (0, s)

def Task.isUp (s : Task) : Bool := isConnected s.status && isIpAcquired s.status

def Task.pollPass (sl : SimpleLink) (s : Task) : Task := (s.sleep sl).note .poll

def checkConnection (sl : SimpleLink) (fuel : Nat) (s : Task) : Option (Int × Task) :=
  if !isConnected s.status || !isIpAcquired s.status then
    (networkIfDisconnectFromAP sl sl.disconnectAfter fuel s).map fun (_, s) =>
      (-1, s.clearConnection)
  else if sl.netCfgGet < 0 then some (sl.netCfgGet, s.note (.netCfgGet sl.netCfgGet))
  else some (0, s.note (.netCfgGet sl.netCfgGet))

def networkIfConnectAP (sl : SimpleLink) (pcSsid : Option (List UInt8)) (fuel : Nat) (s : Task) :
    Option (Int × Task) :=
  match networkIfDisconnectFromAP sl sl.disconnectBefore fuel s with
  | none => none
  | some (_, s) =>
    match pcSsid with
    | none => some (-1, s.clearConnection)
    | some ssid =>
      let s := s.clearConnection.note (.wlanConnect ssid sl.wlanConnect)
      if sl.wlanConnect < 0 then some (sl.wlanConnect, s)
      else checkConnection sl fuel (pollUntil Task.isUp (Task.pollPass sl) 10 s)

def ssidName : List UInt8 := lit "Peyton"

/-- Mqtt_IF_Connect (main_task.c) from the result of Network_IF_InitDriver on. -/
def mqttIfConnect (sl : SimpleLink) (initDriver : Int) (fuel : Nat) (s : Task) :
    Option (Int × Task) :=
  if initDriver < 0 then some (-1, s)
  else
    (networkIfConnectAP sl (some ssidName) fuel s).map fun (ret, s) =>
      if ret < 0 then (-1, s) else (0, s)

def written (bit : Nat) : NetEvent → Option Bool
  | .wlan .connect => if bit = statusBitConnection then some true else none
  | .wlan .disconnect =>
    if bit = statusBitConnection ∨ bit = statusBitIpAcquired then some false else none
  | .wlan .staAdded => if bit = statusBitConnection then some true else none
  | .wlan .staRemoved =>
    if bit = statusBitConnection ∨ bit = statusBitIpLeased then some false else none
  | .wlan .unexpected => none
  | .netApp .ipv4Acquired => if bit = statusBitIpAcquired then some true else none
  | .netApp .ipv6Acquired => if bit = statusBitIpAcquired then some true else none
  | .netApp .dhcpv4Leased => if bit = statusBitIpLeased then some true else none
  | .netApp .dhcpv4Released => if bit = statusBitIpLeased then some false else none
  | .netApp .unexpected => none

theorem setFlag_written (status : Status) {flag : Nat} (inside : flag < 32) (bit : Nat) :
    (setFlag status flag).getLsbD bit =
      (if bit = flag then some true else none).getD (status.getLsbD bit) := by
  rw [setFlag_bit inside]
  split <;> rfl

theorem clearFlag_written (status : Status) (flag bit : Nat) :
    (clearFlag status flag).getLsbD bit =
      (if bit = flag then some false else none).getD (status.getLsbD bit) := by
  rw [clearFlag_bit]
  split <;> rfl

theorem clearFlags_written (status : Status) (flag other bit : Nat) :
    (clearFlag (clearFlag status flag) other).getLsbD bit =
      (if bit = flag ∨ bit = other then some false else none).getD (status.getLsbD bit) := by
  rw [clearFlag_bit, clearFlag_bit]
  by_cases first : bit = flag <;> by_cases second : bit = other <;> simp [first, second]

theorem wlan_written (status : Status) (e : WlanEvent) (bit : Nat) :
    (simpleLinkWlanEventHandler status e).getLsbD bit =
      (written bit (.wlan e)).getD (status.getLsbD bit) := by
  cases e with
  | connect => exact setFlag_written status (by decide) bit
  | disconnect => exact clearFlags_written status _ _ bit
  | staAdded => exact setFlag_written status (by decide) bit
  | staRemoved => exact clearFlags_written status _ _ bit
  | unexpected => rfl

theorem netApp_written (status : Status) (e : NetAppEvent) (bit : Nat) :
    (simpleLinkNetAppEventHandler status e).getLsbD bit =
      (written bit (.netApp e)).getD (status.getLsbD bit) := by
  cases e with
  | ipv4Acquired => exact setFlag_written status (by decide) bit
  | ipv6Acquired => exact setFlag_written status (by decide) bit
  | dhcpv4Leased => exact setFlag_written status (by decide) bit
  | dhcpv4Released => exact clearFlag_written status _ bit
  | unexpected => rfl

theorem bit_register (bit : Nat) :
    IsRegister handle (fun status : Status => status.getLsbD bit) (written bit) := by
  intro status e
  cases e with
  | wlan e => exact wlan_written status e bit
  | netApp e => exact netApp_written status e bit

end RoverNetworkIf

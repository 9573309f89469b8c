import MyTestFiles.InlinePower.Negotiator
import MyTestFiles.Lib.Run

/-!
# `MyTestFiles.InlinePower.Results`: the results that are reported to a port

`updateResultsFromAutoNegotiation` of `PimEthAutoNegotiator.cxx`. What it reads from the
negotiator, the port's settings and the clock is an input of the call. It returns what it
passes to `pp->linked`, which is nothing where the debounce timer suppresses the report.
The messages to the log are left out.

* `firstLinkDownTime_` is a time or `MicrosecondsNever`. The model has `none` for the latter, so
  the comparison with it is a case distinction.
* `linked` is computed from the answers of the negotiator, and with a debounce time a link that is
  down is reported only after it has been down for longer than that.
* With the link up the results of the negotiation go to the port, behind an assertion that they
  are known. A failed assertion ends the call (`none`).

The enumerations are those of the source with all of their values. The attributes of the port that
the call writes are in `PortResults`.
-/

set_option autoImplicit false

namespace MyTestFiles.InlinePower

open MyTestFiles.Lib

/-- `EthDuplex` -/
inductive EthDuplex where
  | null
  | half
  | full
  deriving DecidableEq

/-- `EthLineSpeed` -/
inductive EthLineSpeed where
  | null
  | speed10Mbps
  | speed100Mbps
  | speed1Gbps
  deriving DecidableEq

/-- `EthLoopback` -/
inductive EthLoopback where
  | null
  | off
  | on
  deriving DecidableEq

/-- `EthFlowControlMode` -/
inductive EthFlowControlMode where
  | null
  | none
  | sendOnly
  | recvOnly
  | sendRecv
  deriving DecidableEq

/-- `EthClockMode` -/
inductive EthClockMode where
  | null
  | none
  | auto
  | master
  | slave
  | forcedMaster
  | forcedSlave
  | prefMaster
  | prefSlave
  deriving DecidableEq

/-- `EthNegotiationError` -/
inductive EthNegotiationError where
  | null
  | duplexIncompatible
  | lineSpeedIncompatible
  | flowControlRecvIncompatible
  | flowControlSendIncompatible
  | flowControlBothIncompatible
  deriving DecidableEq

/-- `EthFaultIndication` -/
inductive EthFaultIndication where
  | null
  | none
  | linkFailure
  | disabledByUser
  deriving DecidableEq

/-- What the `EthAutoNegotiator` answers in one call. -/
structure NegotiatorReading where
  linkStatus : EthLinkStatus
  duplex : EthDuplex
  lineSpeed : EthLineSpeed
  loopback : EthLoopback
  flowControlMode : EthFlowControlMode
  clockMode : EthClockMode
  negotiationError : EthNegotiationError
  remoteFaultIndication : EthFaultIndication
  linkDownEvents : Nat
  deriving DecidableEq

/-- One call: the time, the debounce time of the port and the negotiator's answers. -/
structure UpdateCall where
  currentTime : Int
  debounceTime : Int
  neg : NegotiatorReading
  deriving DecidableEq

/-- The attributes of a `PimPhyport` that the results set. -/
structure PortResults where
  linked : Bool
  duplex : EthDuplex
  loopback : EthLoopback
  lineSpeed : EthLineSpeed
  flowControlMode : EthFlowControlMode
  autoNegotiationError : EthNegotiationError
  remoteFaultIndication : EthFaultIndication
  linkDownEvents : Nat
  clockMode : EthClockMode
  deriving DecidableEq

/-- `firstLinkDownTime_`, where `none` is `MicrosecondsNever`, and the port. -/
structure Reporter where
  firstLinkDownTime : Option Int
  port : PortResults
  deriving DecidableEq

/-- `linked` of `updateResultsFromAutoNegotiation` -/
def UpdateCall.linked (call : UpdateCall) : Bool := call.neg.linkStatus == .up

/-- The end of `updateResultsFromAutoNegotiation`, with the link up. -/
def reportLinked (neg : NegotiatorReading) : PortResults where
  linked := true
  duplex := neg.duplex
  loopback := neg.loopback
  lineSpeed := neg.lineSpeed
  flowControlMode := neg.flowControlMode
  autoNegotiationError := neg.negotiationError
  remoteFaultIndication := neg.remoteFaultIndication
  linkDownEvents := neg.linkDownEvents
  clockMode := neg.clockMode

/-- The end of `updateResultsFromAutoNegotiation`, with the link down. -/
def reportDown (neg : NegotiatorReading) : PortResults where
  linked := false
  duplex := .null
  loopback := .null
  lineSpeed := .null
  flowControlMode := .null
  autoNegotiationError := neg.negotiationError
  remoteFaultIndication := neg.remoteFaultIndication
  linkDownEvents := neg.linkDownEvents
  clockMode := .null

/-- The assertion on the results of a link that is up. -/
def resultsKnown (neg : NegotiatorReading) : Prop :=
  neg.duplex ≠ .null ∧ neg.lineSpeed ≠ .null ∧ neg.loopback ≠ .null ∧ neg.flowControlMode ≠ .null

instance (neg : NegotiatorReading) : Decidable (resultsKnown neg) :=
  inferInstanceAs (Decidable (_ ∧ _ ∧ _ ∧ _))

/-- `updateResultsFromAutoNegotiation`, with what it passes to `pp->linked`. `none` is a
failed assertion. -/
def updateResultsFromAutoNegotiation (build : Build) (reporter : Reporter) (call : UpdateCall) :
    Option (Reporter × Option Bool) :=
  if call.linked then
    if build = .debug ∧ ¬ resultsKnown call.neg then none
    else
      let firstLinkDownTime :=
        if call.debounceTime > 0 then none else reporter.firstLinkDownTime
      some ({ firstLinkDownTime, port := reportLinked call.neg }, some true)
  else if call.debounceTime > 0 then
    match reporter.firstLinkDownTime with
    | none =>
        -- don't report the first link down
        some ({ reporter with firstLinkDownTime := some call.currentTime }, none)
    | some first =>
        -- the link has been down for less than the debounce time
        if call.currentTime - first ≤ call.debounceTime then some (reporter, none)
        else some ({ reporter with port := reportDown call.neg }, some false)
  else some ({ reporter with port := reportDown call.neg }, some false)

end MyTestFiles.InlinePower

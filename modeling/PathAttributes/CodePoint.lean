import PathAttributes.Named

namespace PathAttributes

inductive AttrType
  | origin | asPath | nextHop | multiExitDisc | localPref | atomicAggregate | aggregator
deriving DecidableEq

instance : Numbered AttrType where
  all := [.origin, .asPath, .nextHop, .multiExitDisc, .localPref, .atomicAggregate, .aggregator]
  name
    | .origin => "Origin"
    | .asPath => "AsPath"
    | .nextHop => "Nexthop"
    | .multiExitDisc => "Med"
    | .localPref => "LocalPref"
    | .atomicAggregate => "AtomicAggregate"
    | .aggregator => "Aggregator"
  code
    | .origin => 1
    | .asPath => 2
    | .nextHop => 3
    | .multiExitDisc => 4
    | .localPref => 5
    | .atomicAggregate => 6
    | .aggregator => 7
  find_name a := by cases a <;> decide
  find_code a := by cases a <;> decide

/-- The attributes without which no route is complete, in the order in which their absence is
reported. -/
def AttrType.mandatory : List AttrType := [.origin, .asPath, .nextHop]

inductive Namespace
  | generic | bgp | rip | ospf
deriving DecidableEq

instance : Numbered Namespace where
  all := [.generic, .bgp, .rip, .ospf]
  name
    | .generic => "Generic"
    | .bgp => "Bgp"
    | .rip => "Rip"
    | .ospf => "Ospf"
  code
    | .generic => 0
    | .bgp => 1
    | .rip => 2
    | .ospf => 3
  find_name a := by cases a <;> decide
  find_code a := by cases a <;> decide

theorem Namespace.toNat_code (ns : Namespace) : (Numbered.code ns).toNat = Named.rank ns := by
  cases ns <;> decide

inductive Origin
  | igp | egp | incomplete
deriving DecidableEq

instance : Numbered Origin where
  all := [.igp, .egp, .incomplete]
  name
    | .igp => "Igp"
    | .egp => "Egp"
    | .incomplete => "Incomplete"
  code
    | .igp => 0
    | .egp => 1
    | .incomplete => 2
  find_name a := by cases a <;> decide
  find_code a := by cases a <;> decide

def Origin.text : Origin → String
  | .igp => "IGP"
  | .egp => "EGP"
  | .incomplete => "Incomplete"

inductive SegmentKind
  | set | sequence
deriving DecidableEq

instance : Numbered SegmentKind where
  all := [.set, .sequence]
  name
    | .set => "Set"
    | .sequence => "Sequence"
  code
    | .set => 1
    | .sequence => 2
  find_name a := by cases a <;> decide
  find_code a := by cases a <;> decide

inductive MessageType
  | opening | update | notification | keepalive
deriving DecidableEq

instance : Numbered MessageType where
  all := [.opening, .update, .notification, .keepalive]
  name
    | .opening => "Open"
    | .update => "Update"
    | .notification => "Notification"
    | .keepalive => "Keepalive"
  code
    | .opening => 1
    | .update => 2
    | .notification => 3
    | .keepalive => 4
  find_name a := by cases a <;> decide
  find_code a := by cases a <;> decide

inductive ErrorCode
  | messageHeader | openMessage | updateMessage | holdTimerExpired | finiteStateMachine | cease
deriving DecidableEq

instance : Numbered ErrorCode where
  all := [.messageHeader, .openMessage, .updateMessage, .holdTimerExpired, .finiteStateMachine,
    .cease]
  name
    | .messageHeader => "MessageHeaderError"
    | .openMessage => "OpenMessageError"
    | .updateMessage => "UpdateMessageError"
    | .holdTimerExpired => "HoldTimerExpired"
    | .finiteStateMachine => "FiniteStateMachineError"
    | .cease => "Cease"
  code
    | .messageHeader => 1
    | .openMessage => 2
    | .updateMessage => 3
    | .holdTimerExpired => 4
    | .finiteStateMachine => 5
    | .cease => 6
  find_name a := by cases a <;> decide
  find_code a := by cases a <;> decide

inductive UpdateSubcode
  | unspecific | malformedAttributeList | unrecognizedWellKnown | missingWellKnown | attributeFlags
  | attributeLength | invalidOrigin | invalidNextHop | optionalAttribute | invalidNetworkField
  | malformedAsPath
deriving DecidableEq

instance : Numbered UpdateSubcode where
  all := [.unspecific, .malformedAttributeList, .unrecognizedWellKnown, .missingWellKnown,
    .attributeFlags, .attributeLength, .invalidOrigin, .invalidNextHop, .optionalAttribute,
    .invalidNetworkField, .malformedAsPath]
  name
    | .unspecific => "Unspecific"
    | .malformedAttributeList => "MalformedAttributeList"
    | .unrecognizedWellKnown => "UnrecognizedWellKnownAttribute"
    | .missingWellKnown => "MissingWellKnownAttribute"
    | .attributeFlags => "AttributeFlagsError"
    | .attributeLength => "AttributeLengthError"
    | .invalidOrigin => "InvalidOriginAttribute"
    | .invalidNextHop => "InvalidNexthopAttribute"
    | .optionalAttribute => "OptionalAttributeError"
    | .invalidNetworkField => "InvalidNetworkField"
    | .malformedAsPath => "MalformedAsPath"
  code
    | .unspecific => 0
    | .malformedAttributeList => 1
    | .unrecognizedWellKnown => 2
    | .missingWellKnown => 3
    | .attributeFlags => 4
    | .attributeLength => 5
    | .invalidOrigin => 6
    | .invalidNextHop => 8
    | .optionalAttribute => 9
    | .invalidNetworkField => 10
    | .malformedAsPath => 11
  find_name a := by cases a <;> decide
  find_code a := by cases a <;> decide

inductive PeerType
  | internal | external
deriving DecidableEq

instance : Named PeerType where
  all := [.internal, .external]
  name
    | .internal => "Internal"
    | .external => "External"
  find_name a := by cases a <;> decide

def PeerType.text : PeerType → String
  | .internal => "internal"
  | .external => "external"

end PathAttributes

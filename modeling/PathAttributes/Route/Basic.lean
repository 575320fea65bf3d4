import PathAttributes.AttrList.Basic

namespace PathAttributes

structure PeerInfo where
  remoteAddr : Ipv4
  peerType : PeerType
  localAs : Asn
  identifier : Ipv4
deriving DecidableEq

inductive RouteSource
  | static | device | rip | ripExternal | ospf | ospfExternal
deriving DecidableEq

instance : Named RouteSource where
  all := [.static, .device, .rip, .ripExternal, .ospf, .ospfExternal]
  name
    | .static => "Static"
    | .device => "Device"
    | .rip => "Rip"
    | .ripExternal => "RipExternal"
    | .ospf => "Ospf"
    | .ospfExternal => "OspfExternal"
  find_name a := by cases a <;> decide

def RouteSource.isExternal : RouteSource → Bool
  | .ripExternal | .ospfExternal => true
  | _ => false

inductive RouteDest
  | router | device | blackhole | unreachable | prohibit
deriving DecidableEq

instance : Named RouteDest where
  all := [.router, .device, .blackhole, .unreachable, .prohibit]
  name
    | .router => "Router"
    | .device => "Device"
    | .blackhole => "Blackhole"
    | .unreachable => "Unreachable"
    | .prohibit => "Prohibit"
  find_name a := by cases a <;> decide

inductive RouteOrigin
  | neighbor (peer : PeerInfo)
  | protocol (source : RouteSource)
deriving DecidableEq

/-- What is known of a route beside the network to which it leads. -/
structure Route where
  origin : RouteOrigin
  dest : RouteDest
  gateway : Option Ipv4
  ifindex : Option UInt32
  attrs : AttrList
deriving DecidableEq

namespace PeerInfo

def key (p : PeerInfo) : List Nat :=
  [p.remoteAddr.bits.toNat, Named.rank p.peerType, p.localAs.toNat, p.identifier.bits.toNat]

end PeerInfo

def RouteOrigin.key : RouteOrigin → List Nat
  | neighbor peer => 0 :: peer.key
  | protocol source => [1, Named.rank source]

namespace Route

/-- Nothing comes before any number. -/
def optionKey : Option Nat → List Nat
  | none => [0]
  | some n => [1, n]

def key (r : Route) : List Nat :=
  r.origin.key ++ Named.rank r.dest :: (optionKey (r.gateway.map (·.bits.toNat)) ++
    optionKey (r.ifindex.map UInt32.toNat))

instance : Ord Route := ⟨compareLex (compareOn key) (compareOn attrs)⟩

end Route

end PathAttributes

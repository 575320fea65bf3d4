import PathAttributes.AttrList.Decode
import PathAttributes.Config
import PathAttributes.Route.Basic

namespace PathAttributes

structure Gateway where
  addr : Ipv4
  ifindex : UInt32
deriving DecidableEq

structure Peering where
  remoteAddr : Ipv4
  peerType : PeerType
  localAs : Asn
  localAddr : Ipv4
  defaultLocalPref : UInt32
  nextHopSelf : Bool
  /-- The identifier of the peer, once it is known. -/
  identifier : Option Ipv4
  /-- The gateway through which the peer is reached, if there is one. -/
  gateway : Option Gateway
deriving DecidableEq

namespace Peering

/-- A peer is internal if it has the number of the speaker's own AS. -/
def ofConfig (c : Config) (n : NeighborConfig) (localAddr : Ipv4) : Peering where
  remoteAddr := n.remoteAddr
  peerType := if n.remoteAs = c.asn then .internal else .external
  localAs := c.asn
  localAddr := localAddr
  defaultLocalPref := c.defaultLocalPref
  nextHopSelf := n.nextHopSelf
  identifier := none
  gateway := none

def context (p : Peering) : Context := ⟨p.peerType, p.defaultLocalPref⟩

def peerInfo (p : Peering) : PeerInfo :=
  ⟨p.remoteAddr, p.peerType, p.localAs, p.identifier.getD .unspecified⟩

def ifindex (p : Peering) : Option UInt32 := p.gateway.map (·.ifindex)

end Peering

end PathAttributes

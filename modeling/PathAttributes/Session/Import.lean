import PathAttributes.Session.Peering

namespace PathAttributes

inductive ImportRefusal
  | asLoop | selfNextHop | nextHopUnreachable
deriving DecidableEq

instance : Named ImportRefusal where
  all := [.asLoop, .selfNextHop, .nextHopUnreachable]
  name
    | .asLoop => "AsLoop"
    | .selfNextHop => "SelfNexthop"
    | .nextHopUnreachable => "NexthopUnreachable"
  find_name a := by cases a <;> decide

def ImportRefusal.message : ImportRefusal → String
  | asLoop => "AS path loop"
  | selfNextHop => "nexthop is a local address"
  | nextHopUnreachable => "nexthop unreachable"

namespace Peering

def hasLoop (p : Peering) (attrs : AttrList) : Bool :=
  ((attrs.get? .asPath).bind (·.value.asPath?)).any (AsPath.contains · p.localAs)

/-- The route of attributes that a peer sent. Packets go to the gateway of the next hop, or else
through the peer. -/
def accept (p : Peering) (resolve : Ipv4 → Option Gateway) (attrs : AttrList) :
    Except ImportRefusal Route :=
  if p.hasLoop attrs then .error .asLoop
  else match (attrs.get? .nextHop).bind (·.value.address?) with
    | none => .error .nextHopUnreachable
    | some nextHop =>
      if nextHop = p.localAddr then .error .selfNextHop
      else match (resolve nextHop).or p.gateway with
        | none => .error .nextHopUnreachable
        | some gateway =>
          .ok ⟨.neighbor p.peerInfo, .router, some gateway.addr, some gateway.ifindex, attrs⟩

end Peering

end PathAttributes

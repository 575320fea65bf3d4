import PathAttributes.AsPath.Prepend
import PathAttributes.Session.Peering

namespace PathAttributes

inductive ExportRefusal
  | poison | ibgpToIbgp | asPathOverflow
deriving DecidableEq

instance : Named ExportRefusal where
  all := [.poison, .ibgpToIbgp, .asPathOverflow]
  name
    | .poison => "Poison"
    | .ibgpToIbgp => "IbgpToIbgp"
    | .asPathOverflow => "AsPathOverflow"
  find_name a := by cases a <;> decide

def ExportRefusal.message : ExportRefusal → String
  | poison => "route learned from the same neighbor"
  | ibgpToIbgp => "iBGP route can't be sent to iBGP neighbor"
  | asPathOverflow => "AS_PATH too long"

namespace Peering

def ownPath (p : Peering) (path : Blob) : Except ExportRefusal Attr :=
  match AsPath.prepend? path p.localAs with
  | some path => .ok (.bgp .asPath (.asPath path))
  | none => .error .asPathOverflow

def isIbgpToIbgp (p : Peering) (peer : PeerInfo) : Bool :=
  peer.localAs = p.localAs && peer.peerType = .internal && p.peerType = .internal

/-- The next hop of a learned route stays if the peer can reach it: within the AS, or on the network
of the peer. -/
def keepsNextHop (p : Peering) (r : Route) : Bool :=
  (r.attrs.get? .nextHop).isSome && !p.nextHopSelf &&
    (p.peerType = .internal || (r.ifindex.isSome && r.ifindex = p.ifindex))

/-- What changes in the attributes of a learned route: outside the AS the path, and the next hop
unless it stays. -/
def updates (p : Peering) (r : Route) : Except ExportRefusal (List Attr) := do
  let nextHop := if p.keepsNextHop r then [] else [Attr.bgp .nextHop (.address p.localAddr)]
  match p.peerType with
  | .internal => return nextHop
  | .external =>
    return (← p.ownPath (((r.attrs.get? .asPath).bind (·.value.asPath?)).getD [])) :: nextHop

/-- The next hop of a route of the speaker's own: its gateway within the AS, else the speaker. -/
def nextHopOf (p : Peering) (r : Route) : Ipv4 :=
  match r.gateway with
  | some gateway =>
    if !p.nextHopSelf && p.peerType = .internal && r.dest = .router then gateway else p.localAddr
  | none => p.localAddr

def creations (p : Peering) (r : Route) (source : RouteSource) :
    Except ExportRefusal (List Attr) := do
  let origin : Origin := if source.isExternal then .incomplete else .igp
  let path ← match p.peerType with
    | .internal => .ok (Attr.bgp .asPath (.asPath []))
    | .external => p.ownPath []
  return [.bgp .origin (.int (Numbered.code origin).toUInt32), path,
    .bgp .nextHop (.address (p.nextHopOf r))]

def overrides (p : Peering) (r : Route) : Except ExportRefusal AttrList := do
  let attrs ← match r.origin with
    | .neighbor peer =>
      if peer.remoteAddr = p.remoteAddr then .error .poison
      else if p.isIbgpToIbgp peer then .error .ibgpToIbgp
      else p.updates r
    | .protocol source => p.creations r source
  return (AttrList.ofList attrs).sort

end Peering

end PathAttributes

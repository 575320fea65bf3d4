import PathAttributes.Route.Basic

namespace PathAttributes.Route

def localPref (r : Route) : Option UInt32 := (r.attrs.get? .localPref).bind (·.value.int?)

/-- Routes that were not learned from a peer count as external. -/
def peerType (r : Route) : PeerType :=
  match r.origin with
  | .neighbor peer => peer.peerType
  | .protocol _ => .external

def identifier (r : Route) : Ipv4 :=
  match r.origin with
  | .neighbor peer => peer.identifier
  | .protocol _ => .unspecified

/-- Preferences are compared where both routes have one. -/
def compareLocalPref (r s : Route) : Ordering :=
  match r.localPref, s.localPref with
  | some m, some n => compare m n
  | _, _ => .eq

def comparePeerType (r s : Route) : Ordering :=
  match r.peerType, s.peerType with
  | .external, .internal => .gt
  | .internal, .external => .lt
  | _, _ => .eq

/-- Compares the preference for two routes; `gt` means that the first is preferred. The lower
identifier wins a tie. -/
def preference (r s : Route) : Ordering :=
  ((compareLocalPref r s).then (comparePeerType r s)).then (compare s.identifier r.identifier)

def isBetter (r s : Route) : Bool := preference r s == .gt

end PathAttributes.Route

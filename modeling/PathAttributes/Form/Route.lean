import PathAttributes.Form.Attribute
import PathAttributes.Route.Store

namespace PathAttributes

open JsonForm

instance : JsonForm PeerInfo where
  toJson p := .record [("remote_addr", toJson p.remoteAddr), ("peer_type", toJson p.peerType),
    ("local_as", toJson p.localAs), ("identifier", toJson p.identifier)]
  ofJson? j := do
    match ← j.fields? ["remote_addr", "peer_type", "local_as", "identifier"] with
    | [addr, type, localAs, identifier] =>
      return ⟨← required? addr, ← required? type, ← required? localAs, ← required? identifier⟩
    | _ => none

instance : JsonForm RouteOrigin where
  toJson
    | .neighbor peer => .variant "Neighbor" (toJson peer)
    | .protocol source => .variant "Protocol" (toJson source)
  ofJson? j := do
    match ← j.content? with
    | ("Neighbor", peer) => (ofJson? peer).map .neighbor
    | ("Protocol", source) => (ofJson? source).map .protocol
    | _ => none

instance : JsonForm Route where
  toJson r := .record
    [("origin", toJson r.origin), ("dest", toJson r.dest), ("gateway", toJson r.gateway),
    ("ifindex", toJson r.ifindex), ("attrs", toJson r.attrs)]
  ofJson? j := do
    match ← j.fields? ["origin", "dest", "gateway", "ifindex", "attrs"] with
    | [origin, dest, gateway, ifindex, attrs] =>
      return ⟨← required? origin, ← required? dest, ← optional? gateway, ← optional? ifindex,
        ← required? attrs⟩
    | _ => none

instance : JsonForm Record where
  toJson x := .record [("index", toJson x.index), ("value", toJson x.route)]
  ofJson? j := do
    match ← j.fields? ["index", "value"] with
    | [index, route] => return ⟨← required? index, ← required? route⟩
    | _ => none

end PathAttributes

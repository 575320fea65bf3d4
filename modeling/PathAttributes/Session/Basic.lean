import PathAttributes.Notification
import PathAttributes.Route.Store
import PathAttributes.Session.Export
import PathAttributes.Session.Import

namespace PathAttributes

structure Counters where
  updatesReceived : UInt32
  routesAccepted : UInt32
  routesRejected : UInt32
  routesExported : UInt32
  routesNotExported : UInt32
deriving DecidableEq

def Counters.zero : Counters := ⟨0, 0, 0, 0, 0⟩

structure Session where
  peering : Peering
  buckets : BucketTable
  counters : Counters

inductive SessionError
  | update (addr : Ipv4) (e : UpdateError)
  | missingAttr (addr : Ipv4) (type : AttrType)
deriving DecidableEq

namespace SessionError

def message : SessionError → String
  | update _ _ => "failed to decode path attributes"
  | missingAttr _ _ => "mandatory attribute missing"

def notification? : SessionError → Option Notification
  | update _ e => some (.ofUpdateError e)
  | missingAttr _ _ => none

def source? : SessionError → Option UpdateError
  | update _ e => some e
  | missingAttr _ _ => none

end SessionError

inductive Event
  | received (addr : Ipv4) (attrs : AttrList)
  | faulty (type : AttrType) (fault : AttrFault)
  | notAccepted (addr : Ipv4) (reason : ImportRefusal)
  | notExported (addr : Ipv4) (reason : ExportRefusal)
  | bucket (e : BucketEvent)

namespace Session

def ofConfig (c : Config) (n : NeighborConfig) (localAddr : Ipv4) : Session :=
  ⟨.ofConfig c n localAddr, .ofSize c.bucketTableSize.toNat, .zero⟩

/-- What comes of an UPDATE message: the record of the route that was accepted, if there was one. -/
structure Received where
  session : Session
  store : Store
  result : Except SessionError (Option Record)
  events : List Event

def receive (s : Session) (resolve : Ipv4 → Option Gateway) (store : Store) (bs : Octets) :
    Received :=
  let p := s.peering
  let counters := { s.counters with updatesReceived := s.counters.updatesReceived + 1 }
  let faults := (AttrList.decodeFaults p.context bs).map (fun f ↦ Event.faulty f.1 f.2)
  match AttrList.decode p.context bs with
  | .error e =>
    ⟨{ s with counters := counters }, store, .error (.update p.remoteAddr e), faults⟩
  | .ok attrs =>
    let events := faults ++ [.received p.remoteAddr attrs]
    match p.accept resolve attrs with
    | .error reason =>
      let counters := { counters with routesRejected := counters.routesRejected + 1 }
      ⟨{ s with counters := counters }, store, .ok none,
        events ++ [.notAccepted p.remoteAddr reason]⟩
    | .ok route =>
      let counters := { counters with routesAccepted := counters.routesAccepted + 1 }
      let (store, record) := store.intern route
      ⟨{ s with counters := counters }, store, .ok (some record), events⟩

/-- What comes of a route that may be sent: the number of its bucket, if it is sent. -/
structure Notified where
  session : Session
  result : Except SessionError (Option Nat)
  events : List Event

def notify (s : Session) (r : Route) : Notified :=
  let p := s.peering
  match p.overrides r with
  | .error reason =>
    let counters := { s.counters with routesNotExported := s.counters.routesNotExported + 1 }
    ⟨{ s with counters := counters }, .ok none, [.notExported p.remoteAddr reason]⟩
  | .ok attrs =>
    let reply := s.buckets.getOrCreate attrs r.attrs
    let events := reply.events.map Event.bucket
    match reply.result with
    | .error (.missingMandatory type) =>
      ⟨{ s with buckets := reply.table }, .error (.missingAttr p.remoteAddr type), events⟩
    | .ok id =>
      let counters := { s.counters with routesExported := s.counters.routesExported + 1 }
      ⟨{ s with buckets := reply.table, counters := counters }, .ok (some id), events⟩

end Session

end PathAttributes

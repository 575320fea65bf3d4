import PathAttributes.AsPath.Segment
import PathAttributes.BucketTable
import PathAttributes.Form.Record

namespace PathAttributes

open JsonForm

structure NeighborConfig where
  remoteAddr : Ipv4
  remoteAs : Asn
  nextHopSelf : Bool
deriving DecidableEq

structure Config where
  asn : Asn
  defaultLocalPref : UInt32
  bucketTableSize : UInt32
  neighbors : List NeighborConfig
deriving DecidableEq

namespace NeighborConfig

def default : NeighborConfig := ⟨.unspecified, 0, false⟩

def ofJson? (j : Json) : Option NeighborConfig := do
  match ← j.settings? ["remote_addr", "remote_as", "next_hop_self"] with
  | [addr, remoteAs, nextHopSelf] =>
    return ⟨← withDefault? default.remoteAddr addr, ← withDefault? default.remoteAs remoteAs,
      ← withDefault? default.nextHopSelf nextHopSelf⟩
  | _ => none

end NeighborConfig

namespace Config

def default : Config := ⟨0, 100, UInt32.ofNat BucketTable.defaultSize, []⟩

def neighbors? : Option Json → Option (List NeighborConfig)
  | none => some []
  | some (.array js) => js.mapM NeighborConfig.ofJson?
  | some _ => none

def ofJson? (j : Json) : Option Config := do
  match ← j.settings? ["asn", "default_local_pref", "bucket_table_size", "neighbors"] with
  | [asn, localPref, size, neighbors] =>
    return ⟨← withDefault? default.asn asn, ← withDefault? default.defaultLocalPref localPref,
      ← withDefault? default.bucketTableSize size, ← neighbors? neighbors⟩
  | _ => none

def ofText? (s : String) : Option Config := (Json.parse? s).bind ofJson?

end Config

end PathAttributes

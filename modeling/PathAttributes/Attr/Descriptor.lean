import PathAttributes.AsPath.Text
import PathAttributes.Attr.Basic
import PathAttributes.Fault

namespace PathAttributes

/-- What is laid down for a known attribute. -/
structure Descriptor where
  name : String
  /-- The length of the value, if it is fixed. -/
  length : Option Nat
  /-- Whether the attribute is optional, and whether it is transitive. -/
  flags : Flags
  kind : Kind
  /-- What the octets of the value are checked for. -/
  check : Option (PeerType → Octets → Except AttrFault Unit)
  /-- How the value is shown. -/
  valueText : Option (Value → String)

namespace Descriptor

def validate (d : Descriptor) (peer : PeerType) (data : Octets) : Except AttrFault Unit :=
  match d.check with
  | some check => check peer data
  | none => .ok ()

def checkOrigin (_ : PeerType) (data : Octets) : Except AttrFault Unit :=
  match (data.head?.bind Numbered.ofCode? : Option Origin) with
  | some _ => .ok ()
  | none => .error .invalidOrigin

def checkNextHop (_ : PeerType) (data : Octets) : Except AttrFault Unit :=
  if (Ipv4.ofOctets? data).any (·.isUsable) then .ok () else .error .invalidNextHop

/-- A preference is heeded only within an AS. -/
def checkLocalPref (peer : PeerType) (_ : Octets) : Except AttrFault Unit :=
  match peer with
  | .internal => .ok ()
  | .external => .error .discard

def originText (v : Value) : String :=
  match (v.int?.bind (fun n ↦ Numbered.ofNumber? n.toNat) : Option Origin) with
  | some origin => origin.text
  | none => "?"

def asPathText (v : Value) : String :=
  match v.asPath? with
  | some data => AsPath.text data
  | none => "?"

end Descriptor

def AttrType.descriptor : AttrType → Descriptor
  | .origin =>
    ⟨"ORIGIN", some 1, .transitiveBit, .int, some Descriptor.checkOrigin,
      some Descriptor.originText⟩
  | .asPath =>
    ⟨"AS_PATH", none, .transitiveBit, .asPath, some (fun _ ↦ AsPath.check),
      some Descriptor.asPathText⟩
  | .nextHop => ⟨"NEXT_HOP", some 4, .transitiveBit, .address, some Descriptor.checkNextHop, none⟩
  | .multiExitDisc => ⟨"MULTI_EXIT_DISC", some 4, .optionalBit, .int, none, none⟩
  | .localPref => ⟨"LOCAL_PREF", some 4, .optionalBit, .int, some Descriptor.checkLocalPref, none⟩
  | .atomicAggregate => ⟨"ATOMIC_AGGREGATE", some 0, .optionalBit, .raw, none, none⟩
  | .aggregator => ⟨"AGGREGATOR", some 6, .optionalBit, .raw, none, none⟩

namespace Attr

def bgp (type : AttrType) (value : Value) : Attr := ⟨type.id, type.descriptor.flags, value⟩

def descriptor? (a : Attr) : Option Descriptor := a.id.type?.map AttrType.descriptor

def text (a : Attr) : String :=
  if a.id.ns ≠ .bgp then a.id.text
  else match a.descriptor? with
    | some d => d.name ++ (match d.valueText with
      | some valueText => ": " ++ valueText a.value
      | none => "")
    | none => Numeral.hexText [a.id.code] ++ if a.flags.contains .transitiveBit then " [t]" else ""

end Attr

end PathAttributes

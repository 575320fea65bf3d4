import PathAttributes.AttrList.Basic
import PathAttributes.Tlv

namespace PathAttributes

structure Context where
  peerType : PeerType
  defaultLocalPref : UInt32
deriving DecidableEq

inductive Ruling
  | retained (a : Attr)
  | faulty (type : AttrType) (fault : AttrFault)
  | refused (e : UpdateError)

namespace Ruling

/-- A known attribute is held to its length, its flags and the check of its value, in this order. -/
def ofKnown (peer : PeerType) (type : AttrType) (t : Tlv) : Ruling :=
  let d := type.descriptor
  let flags := Flags.ofOctet t.flags
  if d.length.any (· ≠ t.value.length) then refused (.attributeLength t.octets)
  else if flags.category ≠ d.flags then refused (.attributeFlags t.octets)
  else match d.validate peer t.value with
    | .ok () => retained ⟨type.id, flags, d.kind.value t.value⟩
    | .error fault => faulty type fault

/-- An unknown attribute must be optional, and is marked as partial if it will be passed on. -/
def ofUnknown (t : Tlv) : Ruling :=
  let flags := Flags.ofOctet t.flags
  if !flags.contains .optionalBit then refused (.unrecognizedWellKnown t.octets)
  else
    let flags := if flags.contains .transitiveBit then flags.union .partialBit else flags
    retained ⟨.bgp t.code, flags, .raw t.value⟩

/-- No code may be retained twice. -/
def ofTlv (peer : PeerType) (seen : List UInt8) (t : Tlv) : Ruling :=
  if t.code ∈ seen then refused .malformedAttributeList
  else match Numbered.ofCode? t.code with
    | some type => ofKnown peer type t
    | none => ofUnknown t

end Ruling

namespace AttrList

/-- The attributes that are retained, when those of the given codes have been already. -/
def retained (peer : PeerType) : List UInt8 → List Tlv → Except UpdateError (List Attr)
  | _, [] => .ok []
  | seen, t :: ts =>
    match Ruling.ofTlv peer seen t with
    | .refused e => .error e
    | .faulty _ fault =>
      match fault.updateError? t.octets with
      | some e => .error e
      | none => retained peer seen ts
    | .retained a => (retained peer (t.code :: seen) ts).map (a :: ·)

/-- The faults of values met before the attributes come to an end or one is refused. -/
def faults (peer : PeerType) : List UInt8 → List Tlv → List (AttrType × AttrFault)
  | _, [] => []
  | seen, t :: ts =>
    match Ruling.ofTlv peer seen t with
    | .refused _ => []
    | .faulty type fault =>
      (type, fault) :: match fault.updateError? t.octets with
        | some _ => []
        | none => faults peer seen ts
    | .retained _ => faults peer (t.code :: seen) ts

def holds (attrs : List Attr) (type : AttrType) : Bool := attrs.any (fun a ↦ a.id = type.id)

def complete (context : Context) (attrs : List Attr) : Except UpdateError AttrList :=
  match AttrType.mandatory.find? (fun type ↦ !holds attrs type) with
  | some type => .error (.missingWellKnown type)
  | none =>
    let preference := Attr.bgp .localPref (.int context.defaultLocalPref)
    .ok (ofList (if holds attrs .localPref then attrs else attrs ++ [preference])).sort

def decode (context : Context) (bs : Octets) : Except UpdateError AttrList := do
  let s := Tlv.split bs
  let attrs ← retained context.peerType [] s.1
  if s.2.isEmpty then complete context attrs else .error .malformedAttributeList

def decodeFaults (context : Context) (bs : Octets) : List (AttrType × AttrFault) :=
  faults context.peerType [] (Tlv.split bs).1

end AttrList

end PathAttributes

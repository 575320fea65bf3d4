import PathAttributes.Blob
import PathAttributes.CodePoint
import PathAttributes.Flags
import PathAttributes.Ipv4

namespace PathAttributes

/-- An attribute is known by its number within the namespace of a protocol. -/
structure AttrId where
  ns : Namespace
  code : UInt8
deriving DecidableEq

namespace AttrId

def bgp (code : UInt8) : AttrId := ⟨.bgp, code⟩

/-- The number by which ids are ordered: by namespace, then by code. -/
def number (i : AttrId) : Nat := 256 * (Numbered.code i.ns).toNat + i.code.toNat

theorem number_injective {i j : AttrId} (h : i.number = j.number) : i = j := by
  have hi := i.code.toNat_lt
  have hj := j.code.toNat_lt
  simp only [number] at h
  have hns : Numbered.code i.ns = Numbered.code j.ns := UInt8.toNat_inj.1 (by omega)
  have hns' : i.ns = j.ns := Numbered.code_injective hns
  have hc : i.code = j.code := UInt8.toNat_inj.1 (by omega)
  cases i
  cases j
  simp_all

def type? (i : AttrId) : Option AttrType :=
  if i.ns = .bgp then Numbered.ofCode? i.code else none

def text (i : AttrId) : String := Named.name i.ns ++ "." ++ Numeral.hexText [i.code]

end AttrId

def AttrType.id (type : AttrType) : AttrId := .bgp (Numbered.code type)

theorem AttrType.type?_id (type : AttrType) : type.id.type? = some type :=
  Numbered.ofCode?_code type

inductive Kind
  | int | routerId | address | raw | asPath | intSet
deriving DecidableEq

instance : Numbered Kind where
  all := [.int, .routerId, .address, .raw, .asPath, .intSet]
  name
    | .int => "Int"
    | .routerId => "RouterId"
    | .address => "IpAddress"
    | .raw => "Opaque"
    | .asPath => "AsPath"
    | .intSet => "IntSet"
  code
    | .int => 0
    | .routerId => 1
    | .address => 2
    | .raw => 3
    | .asPath => 4
    | .intSet => 5
  find_name a := by cases a <;> decide
  find_code a := by cases a <;> decide

inductive Value
  | int (n : UInt32)
  | routerId (a : Ipv4)
  | address (a : Ipv4)
  | raw (data : Blob)
  | asPath (data : Blob)
  | intSet (data : Blob)
deriving DecidableEq

namespace Value

def kind : Value → Kind
  | int _ => .int
  | routerId _ => .routerId
  | address _ => .address
  | raw _ => .raw
  | asPath _ => .asPath
  | intSet _ => .intSet

def form : Value → String
  | int _ => "Int"
  | routerId _ => "RouterId"
  | address _ => "Ip"
  | raw _ => "Opaque"
  | asPath _ => "AsPath"
  | intSet _ => "IntSet"

def int? : Value → Option UInt32
  | int n => some n
  | _ => none

def address? : Value → Option Ipv4
  | address a => some a
  | _ => none

def asPath? : Value → Option Blob
  | asPath data => some data
  | _ => none

def blob? : Value → Option Blob
  | raw data | asPath data | intSet data => some data
  | _ => none

def text (v : Value) : String :=
  v.form ++ "(" ++ (match v with
    | int n => Numeral.text n.toNat
    | routerId a | address a => a.text
    | raw data | asPath data | intSet data => Blob.text data) ++ ")"

end Value

/-- Whether values of a kind take a fixed number of octets. -/
def Kind.isInline : Kind → Bool
  | .int | .routerId | .address => true
  | .raw | .asPath | .intSet => false

def Kind.value (data : Octets) : Kind → Value
  | .int => .int (UInt32.ofNat (Octets.toNat data))
  | .routerId => .routerId ⟨UInt32.ofNat (Octets.toNat data)⟩
  | .address => .address ⟨UInt32.ofNat (Octets.toNat data)⟩
  | .raw => .raw data
  | .asPath => .asPath data
  | .intSet => .intSet data

structure Attr where
  id : AttrId
  flags : Flags
  value : Value
deriving DecidableEq

end PathAttributes

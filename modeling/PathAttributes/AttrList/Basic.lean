import PathAttributes.Attr.Order
import PathAttributes.Attr.Wire
import PathAttributes.IntSet

namespace PathAttributes

/-- A list of attributes. Where it is marked as sorted, ids are strictly increasing. -/
structure AttrList where
  attrs : List Attr
  sorted : Bool
deriving DecidableEq

namespace AttrList

def empty : AttrList := ⟨[], false⟩

def ofList (attrs : List Attr) : AttrList := ⟨attrs, false⟩

def push (l : AttrList) (a : Attr) : AttrList := ⟨l.attrs ++ [a], false⟩

/-- Adds an attribute to a list in order of ids, unless the list has one of its id. -/
def insertNew (a : Attr) : List Attr → List Attr
  | [] => [a]
  | b :: l =>
    if a.id.number < b.id.number then a :: b :: l
    else if a.id = b.id then b :: l
    else b :: insertNew a l

def firsts (attrs : List Attr) : List Attr := attrs.foldl (fun l a ↦ insertNew a l) []

def sort (l : AttrList) : AttrList := if l.sorted then l else ⟨firsts l.attrs, true⟩

/-- Where a search by halves ends, of `size` attributes from `base` on. -/
def bisect (attrs : List Attr) (number : Nat) (base size : Nat) : Nat :=
  if size ≤ 1 then base
  else
    let mid := base + size / 2
    let isAbove := attrs[mid]?.any (fun a ↦ decide (number < a.id.number))
    bisect attrs number (if isAbove then base else mid) (size - size / 2)
termination_by size

/-- The first attribute of an id, looked for by halves where the list is marked as sorted. -/
def find? (l : AttrList) (id : AttrId) : Option Attr :=
  if l.sorted then
    l.attrs[bisect l.attrs id.number 0 l.attrs.length]?.filter (fun a ↦ a.id = id)
  else l.attrs.find? (fun a ↦ a.id = id)

def get? (l : AttrList) (type : AttrType) : Option Attr := l.find? type.id

def canonicalAttr (a : Attr) : Attr :=
  match a.value with
  | .intSet data => { a with value := .intSet (IntSet.canonical data) }
  | _ => a

/-- The canonical form of a list: sorted, and the members of each set in ascending order. -/
def normalize (l : AttrList) : AttrList := { l.sort with attrs := l.sort.attrs.map canonicalAttr }

def retain (l : AttrList) (ns : Namespace) : AttrList :=
  { l with attrs := l.attrs.filter (fun a ↦ a.id.ns = ns) }

def encode (l : AttrList) : Octets := (l.retain .bgp).attrs.flatMap Attr.octets

def text (l : AttrList) : String := ", ".intercalate (l.attrs.map Attr.text)

/-- Equality of the attributes, whatever the marks. -/
def same (l m : AttrList) : Bool := l.attrs == m.attrs

instance : Ord AttrList := ⟨compareOn attrs⟩

end AttrList

end PathAttributes

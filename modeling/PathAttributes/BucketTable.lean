import PathAttributes.AttrList.Chain
import PathAttributes.AttrList.Hash

namespace PathAttributes

structure Bucket where
  attrs : AttrList
  hash : UInt32
deriving DecidableEq

inductive BucketEvent
  | found (id : Nat) (hash : UInt32)
  | created (id : Nat) (hash : UInt32)
  | grown (oldSize newSize : Nat)
deriving DecidableEq

inductive BucketError
  | missingMandatory (type : AttrType)
deriving DecidableEq

def BucketError.message : BucketError → String
  | missingMandatory type => "mandatory attribute " ++ Named.name type ++ " missing"

/-- The buckets in the order of their creation, each also in the chain of its hash, and the number
of buckets above which chains are added. -/
structure BucketTable where
  buckets : Array Bucket
  chains : Array (List Nat)
  limit : Nat

namespace BucketTable

def defaultSize : Nat := 256

def loadFactor : Nat := 4

def sizeLimit : Nat := 65536

/-- The number of buckets above which chains are added to so many chains. -/
def nextLimit (size : Nat) : Nat :=
  if sizeLimit ≤ size * loadFactor then UInt32.size - 1 else size * loadFactor

/-- A table without buckets; the number of chains is rounded up to a power of two. -/
def ofSize (n : Nat) : BucketTable :=
  let size := (if n < 1 then 1 else if sizeLimit < n then sizeLimit else n).nextPowerOfTwo
  ⟨#[], Array.replicate size [], nextLimit size⟩

def size (t : BucketTable) : Nat := t.chains.size

def length (t : BucketTable) : Nat := t.buckets.size

def canonical (high low : AttrList) : AttrList := ((Chain.merge [high, low]).retain .bgp).normalize

def find? (t : BucketTable) (attrs : AttrList) (hash : UInt32) : Option Nat :=
  (t.chains[hash.toNat % t.size]?.getD []).find? (fun id ↦
    t.buckets[id]?.any (fun b ↦ b.hash == hash && b.attrs.same attrs))

def lookup (t : BucketTable) (high low : AttrList) : Option Nat :=
  let attrs := canonical high low
  t.find? attrs attrs.hash

def get? (t : BucketTable) (id : Nat) : Option Bucket := t.buckets[id]?

def toList (t : BucketTable) : List Bucket := t.buckets.toList

def link (size : Nat) (buckets : Array Bucket) : Array (List Nat) :=
  buckets.zipIdx.foldl (fun chains b ↦ chains.modify (b.1.hash.toNat % size) (b.2 :: ·))
    (Array.replicate size [])

def grow (t : BucketTable) : BucketTable := ⟨t.buckets, link t.limit t.buckets, nextLimit t.limit⟩

def push : BucketTable → Bucket → BucketTable
  | ⟨buckets, chains, limit⟩, b =>
    let id := buckets.size
    let place := b.hash.toNat % chains.size
    ⟨buckets.push b, chains.modify place (id :: ·), limit⟩

structure Reply where
  table : BucketTable
  result : Except BucketError Nat
  events : List BucketEvent

def getOrCreate (t : BucketTable) (high low : AttrList) : Reply :=
  let attrs := canonical high low
  let hash := attrs.hash
  match t.find? attrs hash with
  | some id => ⟨t, .ok id, [.found id hash]⟩
  | none =>
    match AttrType.mandatory.find? (fun type ↦ (attrs.get? type).isNone) with
    | some type => ⟨t, .error (.missingMandatory type), []⟩
    | none =>
      let id := t.length
      let limit := t.limit
      let size := t.size
      let t := t.push ⟨attrs, hash⟩
      if limit < id + 1 then ⟨t.grow, .ok id, [.created id hash, .grown size limit]⟩
      else ⟨t, .ok id, [.created id hash]⟩

end BucketTable

end PathAttributes

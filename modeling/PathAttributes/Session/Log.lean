import PathAttributes.Form.Attribute
import PathAttributes.Session.Basic

namespace PathAttributes

inductive LogLevel
  | debug | warn
deriving DecidableEq

def LogLevel.text : LogLevel → String
  | debug => "DEBUG"
  | warn => "WARN"

/-- A line of a log: what happened, where, the outermost place first, and what belongs to it. -/
structure LogLine where
  level : LogLevel
  spans : List String
  message : String
  fields : List (String × String)
deriving DecidableEq

namespace LogLine

def neighborSpan (addr : Ipv4) : String := "neighbor addr=" ++ addr.text

def bucketFields (id : Nat) (hash : UInt32) : List (String × String) :=
  [("id", "BucketId(" ++ Numeral.text id ++ ")"), ("hash", Numeral.text hash.toNat)]

def ofBucketEvent : BucketEvent → LogLine
  | .found id hash => ⟨.debug, [], "found bucket", bucketFields id hash⟩
  | .created id hash => ⟨.debug, [], "creating bucket", bucketFields id hash⟩
  | .grown oldSize newSize =>
    ⟨.debug, [], "rehashing bucket table",
      [("old_size", Numeral.text oldSize), ("new_size", Numeral.text newSize)]⟩

def ofEvent : Event → LogLine
  | .received addr attrs =>
    ⟨.debug, [neighborSpan addr, "input"], "path attributes", [("data", JsonForm.write attrs)]⟩
  | .faulty type fault =>
    ⟨.debug, [], "malformed attribute", [("attr_type", Named.name type), ("action", fault.message)]⟩
  | .notAccepted addr reason =>
    ⟨.debug, [neighborSpan addr], "route not accepted", [("reason", reason.message)]⟩
  | .notExported addr reason =>
    ⟨.debug, [neighborSpan addr, "output"], "route not exported", [("reason", reason.message)]⟩
  | .bucket e => ofBucketEvent e

/-- An error is logged by whoever asked for what failed. -/
def ofSessionError (e : SessionError) : LogLine :=
  match e with
  | .update addr cause => ⟨.warn, [neighborSpan addr], e.message, [("error", cause.message)]⟩
  | .missingAttr addr type =>
    ⟨.warn, [neighborSpan addr], e.message, [("attr_type", Named.name type)]⟩

end LogLine

end PathAttributes

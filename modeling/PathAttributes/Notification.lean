import PathAttributes.Fault
import PathAttributes.Numeral

namespace PathAttributes

structure Notification where
  errorCode : UInt8
  errorSubcode : UInt8
  data : Octets
deriving DecidableEq

namespace Notification

def minLength : Nat := 21

def maxLength : Nat := 4096

def maxDataLength : Nat := maxLength - minLength

/-- The whole message: marker, length, type and body, with as much of the data as it can hold. -/
def encode (m : Notification) : Octets :=
  let data := m.data.take maxDataLength
  List.replicate 16 0xFF ++ Octets.ofNat 2 (minLength + data.length) ++
    Numbered.code MessageType.notification :: m.errorCode :: m.errorSubcode :: data

def decode : Octets → Option Notification
  | code :: subcode :: data => some ⟨code, subcode, data⟩
  | _ => none

def ofUpdateError (e : UpdateError) : Notification :=
  ⟨Numbered.code ErrorCode.updateMessage, Numbered.code e.subcode, e.data.take maxDataLength⟩

def text (m : Notification) : String :=
  String.ofList ("error code ".toList ++ Numeral.decimal m.errorCode.toNat ++ " subcode ".toList ++
    Numeral.decimal m.errorSubcode.toNat ++ " data [".toList ++
    List.intercalate [',', ' '] (m.data.map Numeral.hexPair) ++ [']'])

end Notification

end PathAttributes

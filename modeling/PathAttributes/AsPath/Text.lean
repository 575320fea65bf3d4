import PathAttributes.AsPath.Reader
import PathAttributes.Numeral

namespace PathAttributes.AsPath

def segmentChars (s : Segment) : List Char :=
  let members := List.intercalate [' '] (s.members.map (fun m ↦ Numeral.decimal m.toNat))
  match s.kind with
  | .set => ['{'] ++ members ++ ['}']
  | .sequence => members

def text (bs : Octets) : String :=
  String.ofList (List.intercalate [' '] ((segments bs).map segmentChars))

end PathAttributes.AsPath

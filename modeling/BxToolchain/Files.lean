import BxToolchain.Data.Table
import BxToolchain.Fault

namespace BxToolchain

abbrev Files := Table String String

namespace Files

def read (files : Files) (name : String) : Except Fault String :=
  match files.get? name with
  | some text => .ok (String.ofList (Text.unifyNewlines text.toList))
  | none => .error (.noSuchFile name)

end Files

end BxToolchain

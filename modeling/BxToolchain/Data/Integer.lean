import BxToolchain.Data.Datum
import BxToolchain.Fault

namespace BxToolchain.Datum

def integer : Datum → Except Fault Int
  | .str s =>
    match Text.readInteger s with
    | .ok n => .ok n
    | .error d => .error (.badInteger d)
  | .int n => .ok n
  | .bool b => .ok (if b then 1 else 0)
  | .real m e => .ok (truncate m e)
  | _ => .error .wrongKind

end BxToolchain.Datum

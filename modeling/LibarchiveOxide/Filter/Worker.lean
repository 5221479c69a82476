import LibarchiveOxide.Core.Metadata

/-! # The worker of a threaded decoder

The XZ and lzip decoders run a pull decoder on a thread of its own. It reads from an `InputPipe`, whose
input arrives over one bounded queue, and sends its output over another one. -/

namespace LibarchiveOxide.Filter.Worker

open Core.Failure

/-- `InputMessage`. -/
inductive InputMessage where
  | data (bytes : List Byte)
  | finish
deriving DecidableEq

/-- An I/O error, as far as the owner looks at it. -/
structure IoError where
  outOfMemory : Bool
  text : String
deriving DecidableEq

end LibarchiveOxide.Filter.Worker

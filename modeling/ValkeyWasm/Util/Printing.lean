import ValkeyWasm.Util.Decimal

/-! What `ll2string` leaves in its buffer, for every buffer length. -/
namespace ValkeyWasm.Util
open Library.Decimal Library.Memory Function List

variable {value dstlen : Nat} {v : Int}

end ValkeyWasm.Util

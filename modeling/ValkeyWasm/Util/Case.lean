import ValkeyWasm.Util.Decimal

/-! Comparison of C strings without regard to case: both strings end at their first zero byte. -/

namespace ValkeyWasm.Util

def lower (c : BitVec 8) : BitVec 8 := if 65 ≤ c.toNat ∧ c.toNat ≤ 90 then c + 32 else c

def foldCase (s : Str) : Str := (s.takeWhile (· ≠ 0)).map lower

def strcasecmp (a b : Str) : Bool := foldCase a = foldCase b

end ValkeyWasm.Util

import ValkeyWasm.Library.Memory
import ValkeyWasm.Hashtable.Bucket

/-! The intset: a sorted array of integers of one width in one block of bytes.
Positions and lengths are the 32-bit numbers of the code. The bytes that `zrealloc` adds
have whatever value the allocator left there. -/
namespace ValkeyWasm
open Library.Memory
open Hashtable (Layout)

inductive Intset.Encoding where
  | int16
  | int32
  | int64
  deriving DecidableEq, Repr

/-- `allocated` is what the allocator knows of the block: the bytes of `contents` it holds. -/
structure Intset where
  encoding : Intset.Encoding
  length : Nat
  contents : Bytes
  allocated : Nat

namespace Intset

variable (L : Layout) (fresh : Bytes) (is : Intset) (value : Int)

def Encoding.bytes : Encoding → Nat
  | int16 => 2
  | int32 => 4
  | int64 => 8

def intsetValueEncoding (v : Int) : Encoding :=
  if v < -2^31 ∨ v > 2^31 - 1 then .int64 else if v < -2^15 ∨ v > 2^15 - 1 then .int32 else .int16

def headerSize : Nat := 8

def intsetGetEncoded (pos : Nat) (enc : Encoding) : Int :=
  signed enc.bytes (readLE is.contents (pos * enc.bytes) enc.bytes)

def intsetGetAt (pos : Nat) : Int := is.intsetGetEncoded pos is.encoding

def intsetSet (pos : Nat) (value : Int) : Intset :=
  {is with contents := writeLE is.contents (pos * is.encoding.bytes) is.encoding.bytes (unsigned is.encoding.bytes value)}

def intsetNew : Intset := ⟨.int16,0,fresh,0⟩

def intsetResize (len : Nat) : Option Intset :=
  let size := len * is.encoding.bytes
  if size ≤ 2^L.sizeBits - 1 - headerSize then
    some {is with contents := fun i => if i < min is.allocated size then is.contents i else fresh i, allocated := size}
  else none

def searchLoop (is : Intset) (value : Int) : Nat → Int → Int → Int → Int → Int × Int × Int
  | 0, min, _, mid, cur => (min,mid,cur)
  | rounds + 1, min, max, mid, cur =>
    if max ≥ min then
      let mid := (min + max) % 2^32 / 2
      let cur := is.intsetGetAt mid.toNat
      if value > cur then searchLoop is value rounds (mid + 1) max mid cur
      else if value < cur then searchLoop is value rounds min (mid - 1) mid cur
      else (min,mid,cur)
    else (min,mid,cur)

def intsetSearch : Bool × Nat :=
  let max := Int.bmod (is.length - 1) (2^32)
  if is.length = 0 then (false,0)
  else if value > is.intsetGetAt max.toNat then (false,is.length)
  else if value < is.intsetGetAt 0 then (false,0)
  else
    let (min,mid,cur) := is.searchLoop value (is.length + 1) 0 max (-1) (-1)
    if value = cur then (true,mid.toNat) else (false,min.toNat)

def upgradeLoop (curenc : Encoding) (prepend : Nat) : Nat → Intset → Intset
  | 0, is => is
  | length + 1, is => upgradeLoop curenc prepend length (is.intsetSet (length + prepend) (is.intsetGetEncoded length curenc))

def intsetUpgradeAndAdd : Option Intset := do
  let prepend := if value < 0 then 1 else 0
  let resized ← intsetResize L fresh {is with encoding := intsetValueEncoding value} ((is.length + 1) % 2^32)
  let upgraded := upgradeLoop is.encoding prepend is.length resized
  let stored := if prepend = 1 then upgraded.intsetSet 0 value else upgraded.intsetSet is.length value
  return {stored with length := (is.length + 1) % 2^32}

/-- The product is taken in the 32 bits of `bytes`. -/
def intsetMoveTail (src dst : Nat) : Intset :=
  let bytes := (is.length + 2^32 - src) % 2^32 * is.encoding.bytes % 2^32
  {is with contents := memmove is.contents (dst * is.encoding.bytes) (src * is.encoding.bytes) bytes}

def intsetAdd : Option (Intset × Bool) :=
  if is.encoding.bytes < (intsetValueEncoding value).bytes then do
    let upgraded ← is.intsetUpgradeAndAdd L fresh value
    return (upgraded,true)
  else
    match is.intsetSearch value with
    | (true,_) => some (is,false)
    | (false,pos) => do
      let resized ← is.intsetResize L fresh ((is.length + 1) % 2^32)
      let moved := if pos < resized.length then resized.intsetMoveTail pos (pos + 1) else resized
      let stored := moved.intsetSet pos value
      return ({stored with length := (is.length + 1) % 2^32},true)

def intsetRemove : Option (Intset × Bool) :=
  if (intsetValueEncoding value).bytes ≤ is.encoding.bytes then
    match is.intsetSearch value with
    | (false,_) => some (is,false)
    | (true,pos) => do
      let len := is.length
      let moved := if pos < len - 1 then is.intsetMoveTail (pos + 1) pos else is
      let resized ← moved.intsetResize L fresh (len - 1)
      return ({resized with length := len - 1},true)
  else some (is,false)

def intsetFind : Bool :=
  decide ((intsetValueEncoding value).bytes ≤ is.encoding.bytes) && (is.intsetSearch value).1

def intsetLen : Nat := is.length

end Intset

end ValkeyWasm

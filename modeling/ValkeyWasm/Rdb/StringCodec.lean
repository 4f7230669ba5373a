import ValkeyWasm.Library.ByteOrder
import ValkeyWasm.Util.Decimal
import ValkeyWasm.Hashtable.Bucket

/-! Strings in an RDB file: lengths, small integers, compressed strings and plain bytes.
A failed load is `none`, whether the code returns `NULL` or reports a corrupt file. -/
namespace ValkeyWasm.Rdb
open Library.Memory Library.ByteOrder Util
open Hashtable (Layout)

def lenErr : Nat := 2^64 - 1
def encVal : Nat := 3
def uint32Max : Nat := 2^32 - 1

def byteOf (v : Nat) : BitVec 8 := BitVec.ofNat 8 v

/-- The compressor. An output of no bytes stands for the result 0 of both functions. -/
structure Lzf where
  compress : Str → Nat → Str
  decompress : Str → Nat → Str
  compress_le : ∀ s room, (compress s room).length ≤ room
  decompress_le : ∀ c room, (decompress c room).length ≤ room
  decompress_compress : ∀ s room, compress s room ≠ [] → decompress (compress s room) s.length = s

structure Sink where
  bytes : Str
  room : Nat

def Sink.rdbWriteRaw (rdb : Sink) (p : Str) : Option Sink :=
  if rdb.bytes.length + p.length ≤ rdb.room then some { rdb with bytes := rdb.bytes ++ p } else none

/-- With the number of bytes written, as in all functions that save. -/
def rdbSaveLen (rdb : Sink) (len : Nat) : Option (Sink × Nat) :=
  if len < 2^6 then do
    let rdb ← rdb.rdbWriteRaw [byteOf len]
    return (rdb,1)
  else if len < 2^14 then do
    let rdb ← rdb.rdbWriteRaw [byteOf (len / 2^8 + 2^6),byteOf len]
    return (rdb,2)
  else if len ≤ uint32Max then do
    let rdb ← rdb.rdbWriteRaw [0x80]
    let rdb ← rdb.rdbWriteRaw (bigEndian 4 len)
    return (rdb,1 + 4)
  else do
    let rdb ← rdb.rdbWriteRaw [0x81]
    let rdb ← rdb.rdbWriteRaw (bigEndian 8 len)
    return (rdb,1 + 8)

def rioRead (input : Str) (len : Nat) : Option (Str × Str) :=
  if len ≤ input.length then some (input.take len,input.drop len) else none

/-- Whether an encoding follows, the length or the encoding, and the input behind it. -/
def rdbLoadLenByRef (input : Str) : Option (Bool × Nat × Str) :=
  match input with
  | [] => none
  | b :: input =>
    let type := b.toNat / 2^6
    if type = encVal then some (true,b.toNat % 2^6,input)
    else if type = 0 then some (false,b.toNat % 2^6,input)
    else if type = 1 then do
      let (next,input) ← rioRead input 1
      return (false,b.toNat % 2^6 * 2^8 + ofBigEndian next,input)
    else if b = 0x80 then do
      let (len,input) ← rioRead input 4
      return (false,ofBigEndian len,input)
    else if b = 0x81 then do
      let (len,input) ← rioRead input 8
      return (false,ofBigEndian len,input)
    else none

/-- `RDB_LENERR` is an error also when it was read as a length. -/
def rdbLoadLen (input : Str) : Option (Bool × Nat × Str) := do
  let (isencoded,len,input) ← rdbLoadLenByRef input
  guard (len ≠ lenErr)
  return (isencoded,len,input)

def rdbEncodeInteger (value : Int) : Option Str :=
  if value ≥ -2^7 ∧ value ≤ 2^7 - 1 then some (byteOf (encVal * 2^6) :: littleEndian 1 (unsigned 1 value))
  else if value ≥ -2^15 ∧ value ≤ 2^15 - 1 then some (byteOf (encVal * 2^6 + 1) :: littleEndian 2 (unsigned 2 value))
  else if value ≥ -2^31 ∧ value ≤ 2^31 - 1 then some (byteOf (encVal * 2^6 + 2) :: littleEndian 4 (unsigned 4 value))
  else none

def rdbTryIntegerEncoding (s : Str) : Option Str := (string2ll s).bind rdbEncodeInteger

def rdbSaveLzfBlob (rdb : Sink) (data : Str) (originalLen : Nat) : Option (Sink × Nat) := do
  let rdb ← rdb.rdbWriteRaw [byteOf (encVal * 2^6 + 3)]
  let (rdb,n) ← rdbSaveLen rdb data.length
  let (rdb,m) ← rdbSaveLen rdb originalLen
  let rdb ← rdb.rdbWriteRaw data
  return (rdb,1 + n + m + data.length)

/-- Nothing is written when the string is not compressed. -/
def rdbSaveLzfStringObject (lzf : Lzf) (rdb : Sink) (s : Str) : Option (Sink × Nat) :=
  if s.length ≤ 4 then some (rdb,0)
  else
    let out := lzf.compress s (s.length - 4)
    if out = [] then some (rdb,0) else rdbSaveLzfBlob rdb out s.length

def saveVerbatim (rdb : Sink) (s : Str) : Option (Sink × Nat) := do
  let (rdb,n) ← rdbSaveLen rdb s.length
  if 0 < s.length then
    let rdb ← rdb.rdbWriteRaw s
    return (rdb,n + s.length)
  else return (rdb,n)

def rdbSaveRawString (lzf : Lzf) (compression : Bool) (rdb : Sink) (s : Str) : Option (Sink × Nat) :=
  match if s.length ≤ 11 then rdbTryIntegerEncoding s else none with
  | some enc => (rdb.rdbWriteRaw enc).map fun rdb => (rdb,enc.length)
  | none =>
    if compression && decide (20 < s.length) then do
      let (rdb,n) ← rdbSaveLzfStringObject lzf rdb s
      if 0 < n then return (rdb,n) else saveVerbatim rdb s
    else saveVerbatim rdb s

/-- `buf` is what the buffer on the stack holds before. -/
def rdbSaveLongLongAsStringObject (buf : Bytes) (rdb : Sink) (value : Int) : Option (Sink × Nat) :=
  match rdbEncodeInteger value with
  | some enc => (rdb.rdbWriteRaw enc).map fun rdb => (rdb,enc.length)
  | none => do
    let text := ll2string buf 32 value
    guard (text.length < 32)
    let (rdb,n) ← rdbSaveLen rdb text.length
    let rdb ← rdb.rdbWriteRaw text
    return (rdb,n + text.length)

inductive Mode where
  | plain
  | sds
  | object
  | encoded
  deriving DecidableEq, Repr

inductive Loaded where
  | bytes (s : Str)
  | object (s : Str)
  | integer (v : Int)
  deriving DecidableEq, Repr

/-- A result of a load: the value, the length if it was stored, and the input behind it. -/
structure Load where
  value : Loaded
  len : Option Nat
  rest : Str
  deriving DecidableEq, Repr

def Mode.wrap (mode : Mode) (s : Str) : Loaded :=
  match mode with
  | plain | sds => .bytes s
  | object | encoded => .object s

def rdbLoadIntegerObject (buf : Bytes) (enctype : Nat) (mode : Mode) (input : Str) : Option Load := do
  let width ← match enctype with
    | 0 => some 1
    | 1 => some 2
    | 2 => some 4
    | _ => none
  let (enc,input) ← rioRead input width
  let val := signed width (ofLittleEndian enc)
  let text := ll2string buf longStrSize val
  match mode with
  | .plain | .sds => return ⟨.bytes text,some text.length,input⟩
  | .encoded => return ⟨.integer val,none,input⟩
  | .object => return ⟨.object text,none,input⟩

variable (L : Layout)

def sizeT (n : Nat) : Nat := n % 2^L.sizeBits

/-- `memory` says which requests the allocator can serve. -/
def rdbLoadLzfStringObject (lzf : Lzf) (memory : Nat → Bool) (mode : Mode) (input : Str) : Option Load := do
  let (_,clen,input) ← rdbLoadLen input
  let (_,len,input) ← rdbLoadLen input
  guard (memory (sizeT L clen))
  guard (memory (sizeT L len))
  let (c,input) ← rioRead input (sizeT L clen)
  let val := lzf.decompress c (sizeT L len)
  guard (val.length = len)
  return ⟨mode.wrap val,some (sizeT L len),input⟩

def rdbGenericLoadStringObject (lzf : Lzf) (memory : Nat → Bool) (buf : Bytes) (mode : Mode) (input : Str) : Option Load := do
  let (isencoded,len,input) ← rdbLoadLen input
  if isencoded then
    match len with
    | 0 | 1 | 2 => rdbLoadIntegerObject buf len mode input
    | 3 => rdbLoadLzfStringObject L lzf memory mode input
    | _ => none
  else
    guard (memory (sizeT L len))
    let (s,input) ← rioRead input (sizeT L len)
    match mode with
    | .plain | .sds => return ⟨.bytes s,some (sizeT L len),input⟩
    | .object | .encoded => return ⟨.object s,none,input⟩

end ValkeyWasm.Rdb

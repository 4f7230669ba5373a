import ValkeyWasm.Library.Memory
import ValkeyWasm.Hashtable.Bucket

/-! The listpack: entries of several encodings in one block of bytes.
A pointer into the block is its distance from the start of the block, in the words of the
target, so pointer arithmetic wraps. `none` is an assertion that fails or a byte read
outside the block. -/
namespace ValkeyWasm.Listpack
open Library.Memory
open Hashtable (Layout)

structure Block (L : Layout) where
  address : Nat
  size : Nat
  bytes : Bytes
  fits : address + size ≤ 2^L.sizeBits

variable {L : Layout}

def headerSize : Nat := 6
def eof : Nat := 0xFF
def numeleUnknown : Nat := 0xFFFF
def uint64Max : Nat := 2^64 - 1

inductive Kind where
  | uint7
  | str6
  | int13
  | int16
  | int24
  | int32
  | int64
  | str12
  | str32
  | eof
  | unknown
  deriving DecidableEq, Repr

def kind (byte : Nat) : Kind :=
  if byte / 2^7 = 0 then .uint7
  else if byte / 2^6 = 2 then .str6
  else if byte / 2^5 = 6 then .int13
  else if byte = 0xF1 then .int16
  else if byte = 0xF2 then .int24
  else if byte = 0xF3 then .int32
  else if byte = 0xF4 then .int64
  else if byte / 2^4 = 14 then .str12
  else if byte = 0xF0 then .str32
  else if byte = 0xFF then .eof
  else .unknown

/-- The bytes that hold the encoding and the length, as `lpCurrentEncodedSizeBytes` has them. -/
def Kind.lenbytes : Kind → Nat
  | .str12 => 2
  | .str32 => 5
  | .unknown => 0
  | _ => 1

def plus (L : Layout) (p n : Nat) : Nat := (p + n) % 2^L.sizeBits

def minus (L : Layout) (p n : Nat) : Nat := (p + 2^L.sizeBits - n % 2^L.sizeBits) % 2^L.sizeBits

def backlenSize (l : Nat) : Nat :=
  if l ≤ 127 then 1 else if l ≤ 16383 then 2 else if l ≤ 2097151 then 3 else if l ≤ 268435455 then 4 else 5

/-- The first byte of the entry that ends before `p`: `p -= prevlen - 1` from the byte before `p`, where
`prevlen - 1` is taken in 64 bits. -/
def previous (L : Layout) (p prevlen : Nat) : Nat := minus L (minus L p 1) ((prevlen + backlenSize prevlen) % 2^64 + uint64Max)

/-- What `lpValidateNext` answers, with the cursor it leaves. -/
inductive Verdict where
  | invalid
  | valid (next : Option Nat)
  deriving DecidableEq, Repr

inductive Progress (α : Type*) where
  | running
  | done (result : α)
  deriving DecidableEq, Repr

inductive Element where
  | integer (value : Int)
  | string (start len : Nat)
  | unrecognized (value : Int)
  deriving DecidableEq, Repr

/-- The two's complement of an integer element, as `lpGet` computes it in 64 bits. -/
def fromUnsigned (uval negstart negmax : Nat) : Int := if uval ≥ negstart then -((negmax : Int) - uval) - 1 else uval

namespace Block

variable (lp : Block L) (p : Nat)

def load : Option Nat := if p < lp.size then some (lp.bytes p).toNat else none

def loadLE (lp : Block L) : Nat → Nat → Option Nat
  | _, 0 => some 0
  | p, width + 1 => do
    let byte ← lp.load p
    let rest ← lp.loadLE (plus L p 1) width
    return byte + 256 * rest

def lpGetTotalBytes : Option Nat := lp.loadLE 0 4

def lpGetNumElements : Option Nat := lp.loadLE 4 2

def lpSetTotalBytes (v : Nat) : Block L := {lp with bytes := writeLE lp.bytes 0 4 v}

def lpSetNumElements (v : Nat) : Block L := {lp with bytes := writeLE lp.bytes 4 2 v}

/-- The encoded size by the encoding, a `uint32_t`: the length of a 32-bit string wraps. -/
def sizeUnsafe (p byte : Nat) : Kind → Option Nat
  | .uint7 => some 1
  | .str6 => some (1 + byte % 2^6)
  | .int13 => some 2
  | .int16 => some 3
  | .int24 => some 4
  | .int32 => some 5
  | .int64 => some 9
  | .str12 => do
    let low ← lp.load (plus L p 1)
    return 2 + (byte % 2^4 * 2^8 + low)
  | .str32 => do
    let len ← lp.loadLE (plus L p 1) 4
    return (5 + len) % 2^32
  | .eof => some 1
  | .unknown => some 0

def lpCurrentEncodedSizeUnsafe : Option Nat := do
  let byte ← lp.load p
  lp.sizeUnsafe p byte (kind byte)

def lpCurrentEncodedSizeBytes : Option Nat := do
  let byte ← lp.load p
  return (kind byte).lenbytes

def decodeLoop (lp : Block L) : Nat → Nat → Nat → Nat → Option Nat
  | 0, _, _, _ => some uint64Max
  | rounds + 1, p, shift, val => do
    let byte ← lp.load p
    let val := val + byte % 2^7 * 2^shift
    if byte / 2^7 = 0 then return val else lp.decodeLoop rounds (minus L p 1) (shift + 7) val

def lpDecodeBacklen : Option Nat := lp.decodeLoop 5 p 0 0

def entryLength : Option Nat := do
  let entrylen ← lp.lpCurrentEncodedSizeUnsafe p
  return (entrylen + backlenSize entrylen) % 2^L.sizeBits

def lpSkip : Option Nat := do
  let entrylen ← lp.entryLength p
  return plus L p entrylen

def outOfRange (lpbytes p : Nat) : Bool :=
  let address := plus L lp.address p
  decide (address < plus L lp.address headerSize) || decide (address > minus L (plus L lp.address lpbytes) 1)

def lpValidateNext (pp : Option Nat) (lpbytes : Nat) : Option Verdict :=
  match pp with
  | none => some .invalid
  | some p =>
    if lp.outOfRange lpbytes p then some .invalid
    else do
      let byte ← lp.load p
      if byte = eof then
        if plus L p 1 ≠ lpbytes % 2^L.sizeBits then return .invalid else return .valid none
      else
        let lenbytes ← lp.lpCurrentEncodedSizeBytes p
        if lenbytes = 0 then return .invalid
        else if lp.outOfRange lpbytes (plus L p lenbytes) then return .invalid
        else
          let size ← lp.lpCurrentEncodedSizeUnsafe p
          let entrylen ← lp.entryLength p
          if lp.outOfRange lpbytes (plus L p entrylen) then return .invalid
          else
            let next := plus L p entrylen
            let prevlen ← lp.lpDecodeBacklen (minus L next 1)
            if (prevlen + backlenSize size) % 2^64 ≠ entrylen then return .invalid else return .valid (some next)

def lpAssertValidEntry (lpbytes p : Nat) : Option Unit := do
  match ← lp.lpValidateNext (some p) lpbytes with
  | .invalid => none
  | .valid _ => some ()

def entryAt (bytes p : Nat) : Option (Option Nat) := do
  let byte ← lp.load p
  if byte = eof then
    if plus L p 1 = bytes % 2^L.sizeBits then return none else none
  else
    lp.lpAssertValidEntry bytes p
    return some p

def lpNext : Option (Option Nat) := do
  let next ← lp.lpSkip p
  let bytes ← lp.lpGetTotalBytes
  lp.entryAt bytes next

def lpFirst : Option (Option Nat) := do
  let bytes ← lp.lpGetTotalBytes
  lp.entryAt bytes headerSize

def lpPrev : Option (Option Nat) :=
  if p = headerSize then some none
  else do
    let prevlen ← lp.lpDecodeBacklen (minus L p 1)
    let bytes ← lp.lpGetTotalBytes
    lp.lpAssertValidEntry bytes (previous L p prevlen)
    return some (previous L p prevlen)

def lpLast : Option (Option Nat) := do
  let bytes ← lp.lpGetTotalBytes
  lp.lpPrev (minus L bytes 1)

def element (p byte : Nat) : Kind → Option Element
  | .uint7 => some (.integer (byte % 2^7 : Nat))
  | .str6 => some (.string (plus L p 1) (byte % 2^6))
  | .int13 => do
    let low ← lp.load (plus L p 1)
    return .integer (fromUnsigned (byte % 2^5 * 2^8 + low) (2^12) 8191)
  | .int16 => do
    let uval ← lp.loadLE (plus L p 1) 2
    return .integer (fromUnsigned uval (2^15) (2^16 - 1))
  | .int24 => do
    let uval ← lp.loadLE (plus L p 1) 3
    return .integer (fromUnsigned uval (2^23) (2^24 - 1))
  | .int32 => do
    let uval ← lp.loadLE (plus L p 1) 4
    return .integer (fromUnsigned uval (2^31) (2^32 - 1))
  | .int64 => do
    let uval ← lp.loadLE (plus L p 1) 8
    return .integer (fromUnsigned uval (2^63) (2^64 - 1))
  | .str12 => do
    let low ← lp.load (plus L p 1)
    return .string (plus L p 2) (byte % 2^4 * 2^8 + low)
  | .str32 => do
    let len ← lp.loadLE (plus L p 1) 4
    return .string (plus L p 5) len
  | .eof | .unknown => some (.unrecognized (12345678900000000 + byte))

def lpGet : Option Element := do
  let byte ← lp.load p
  lp.element p byte (kind byte)

/-- The entry size that `lpGetWithSize` reports, where it does. -/
def entrySize (count : Nat) : Kind → Option Nat
  | .uint7 => some 2
  | .str6 => some (1 + count + backlenSize (count + 1))
  | .int13 => some 3
  | .int16 => some 4
  | .int24 => some 5
  | .int32 => some 6
  | .int64 => some 10
  | .str12 => some (2 + count + backlenSize (count + 2))
  | .str32 => some (5 + count + backlenSize (count + 5))
  | .eof | .unknown => none

def lpGetWithSize : Option (Element × Option Nat) := do
  let byte ← lp.load p
  match ← lp.element p byte (kind byte) with
  | .string start count => return (.string start count,entrySize count (kind byte))
  | element => return (element,entrySize 0 (kind byte))

/-- The loop of `lpValidateIntegrity` without a callback: the cursor it ends with and the
entries it has counted, or `none` for an entry that is not valid. -/
def validateLoop (lp : Block L) (bytes : Nat) : Nat → Option Nat → Nat → Option (Progress (Option (Option Nat × Nat)))
  | 0, _, _ => some .running
  | _ + 1, none, count => some (.done (some (none,count)))
  | rounds + 1, some p, count => do
    let byte ← lp.load p
    if byte = eof then return .done (some (some p,count))
    else
      match ← lp.lpValidateNext (some p) bytes with
      | .invalid => return .done none
      | .valid next => lp.validateLoop bytes rounds next ((count + 1) % 2^32)

def lpValidateIntegrity (rounds size : Nat) (deep : Bool) : Option (Progress Bool) :=
  if size < headerSize + 1 then some (.done false)
  else do
    let bytes ← lp.lpGetTotalBytes
    if bytes ≠ size then return .done false
    else
      let last ← lp.load (size - 1)
      if last ≠ eof then return .done false
      else if !deep then return .done true
      else
        let numele ← lp.lpGetNumElements
        match ← lp.validateLoop bytes rounds (some headerSize) 0 with
        | .running => return .running
        | .done none => return .done false
        | .done (some (p,count)) =>
          if p ≠ some (size - 1) then return .done false
          else if numele ≠ numeleUnknown ∧ numele ≠ count then return .done false
          else return .done true

def traverse (next : Nat → Option (Option Nat)) : Nat → Option Nat → Option (List Nat)
  | _, none => some []
  | 0, some _ => none
  | rounds + 1, some p => do
    let q ← next p
    let rest ← traverse next rounds q
    return p :: rest

def countLoop (lp : Block L) : Nat → Option Nat → Nat → Option Nat
  | _, none, count => some count
  | 0, some _, _ => none
  | rounds + 1, some p, count => do
    let next ← lp.lpNext p
    lp.countLoop rounds next ((count + 1) % 2^32)

/-- The number of entries, and the block with a header that may have been brought up to date. -/
def lpLength (rounds : Nat) : Option (Nat × Block L) := do
  let numele ← lp.lpGetNumElements
  if numele ≠ numeleUnknown then return (numele,lp)
  else
    let first ← lp.lpFirst
    let count ← lp.countLoop rounds first 0
    if count < numeleUnknown then return (count,lp.lpSetNumElements count) else return (count,lp)

end Block

end ValkeyWasm.Listpack

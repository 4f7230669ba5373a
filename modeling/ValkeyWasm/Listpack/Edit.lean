import ValkeyWasm.Listpack.Block
import ValkeyWasm.Util.Decimal

/-! Editing a listpack: encoding an element, `lpInsert` and the calls made of it, and seeking.
`lpInsert` inserts, replaces and deletes; the inner `none` is its `NULL`. -/
namespace ValkeyWasm.Listpack
open Library.Memory Util
open Hashtable (Layout)

variable {L : Layout}

def uint32Max : Nat := 2^32 - 1
def intbufSize : Nat := 21

def byteOf (v : Nat) : BitVec 8 := BitVec.ofNat 8 v

def bytesLE (width v : Nat) : Str := (List.range width).map (fun i => byteOf (v / 256^i))

def stored (bits : Nat) (v : Int) : Nat := (if v < 0 then 2^bits + v else v).toNat

def lpEncodeIntegerGetType (v : Int) : Str :=
  if v ≥ 0 ∧ v ≤ 127 then [byteOf v.toNat]
  else if v ≥ -4096 ∧ v ≤ 4095 then [byteOf (0xC0 + stored 13 v / 2^8),byteOf (stored 13 v)]
  else if v ≥ -32768 ∧ v ≤ 32767 then 0xF1 :: bytesLE 2 (stored 16 v)
  else if v ≥ -8388608 ∧ v ≤ 8388607 then 0xF2 :: bytesLE 3 (stored 24 v)
  else if v ≥ -2147483648 ∧ v ≤ 2147483647 then 0xF3 :: bytesLE 4 (stored 32 v)
  else 0xF4 :: bytesLE 8 (stored 64 v)

def lpEncodeGetType (ele : Str) : Option Str × Nat :=
  match string2ll ele with
  | some v => (some (lpEncodeIntegerGetType v),(lpEncodeIntegerGetType v).length)
  | none => (none,if ele.length < 64 then 1 + ele.length else if ele.length < 4096 then 2 + ele.length else 5 + ele.length)

def lpEncodeBacklen (l : Nat) : Str :=
  if l ≤ 127 then [byteOf l]
  else if l ≤ 16383 then [byteOf (l / 2^7),byteOf (l % 2^7 + 2^7)]
  else if l ≤ 2097151 then [byteOf (l / 2^14),byteOf (l / 2^7 % 2^7 + 2^7),byteOf (l % 2^7 + 2^7)]
  else if l ≤ 268435455 then [byteOf (l / 2^21),byteOf (l / 2^14 % 2^7 + 2^7),byteOf (l / 2^7 % 2^7 + 2^7),byteOf (l % 2^7 + 2^7)]
  else [byteOf (l / 2^28),byteOf (l / 2^21 % 2^7 + 2^7),byteOf (l / 2^14 % 2^7 + 2^7),byteOf (l / 2^7 % 2^7 + 2^7),byteOf (l % 2^7 + 2^7)]

def lpEncodeString (s : Str) : Str :=
  if s.length < 64 then byteOf (0x80 + s.length) :: s
  else if s.length < 4096 then byteOf (0xE0 + s.length / 2^8) :: byteOf s.length :: s
  else 0xF0 :: (bytesLE 4 s.length ++ s)

inductive Input where
  | string (elestr : Str)
  | integer (eleint : Str)
  | delete
  deriving DecidableEq, Repr

inductive Where where
  | before
  | after
  | replace
  deriving DecidableEq, Repr

/-- What the allocator returns for `n` bytes; the byte after them has an address. -/
structure Allocation (L : Layout) (n : Nat) where
  address : Nat
  usable : Nat
  fresh : Bytes
  roomy : n ≤ usable
  fits : address + usable < 2^L.sizeBits

abbrev Allocator (L : Layout) := (n : Nat) → n ≤ uint32Max → Allocation L n

namespace Block

variable (lp : Block L) (alloc : Allocator L) (ele : Input) (p : Nat)

def realloc (lp : Block L) {n : Nat} (a : Allocation L n) : Block L :=
  ⟨a.address,a.usable,fun i => if i < min lp.size n then lp.bytes i else a.fresh i,a.fits.le⟩

def lpNew {capacity : Nat} (a : Allocation L (max capacity (headerSize + 1))) : Block L :=
  let lp : Block L := ⟨a.address,a.usable,a.fresh,a.fits.le⟩
  let lp := (lp.lpSetTotalBytes (headerSize + 1)).lpSetNumElements 0
  {lp with bytes := writeBytes lp.bytes headerSize [byteOf eof]}

/-- `ASSERT_INTEGRITY_LEN`, and `ASSERT_INTEGRITY` for no bytes. -/
def assertIntegrity (p len : Nat) : Option Unit := do
  let bytes ← lp.lpGetTotalBytes
  if plus L lp.address p ≥ plus L lp.address headerSize ∧ plus L lp.address (plus L p len) < plus L lp.address bytes then some () else none

def replacedLen (replace : Bool) : Option Nat :=
  if replace then do
    let size ← lp.lpCurrentEncodedSizeUnsafe p
    let len := (size + backlenSize size) % 2^32
    lp.assertIntegrity p len
    return len
  else some 0

def insertionPoint (place : Where) : Option (Nat × Bool) :=
  match (if ele = .delete then .replace else place : Where) with
  | .before => some (p,false)
  | .replace => some (p,true)
  | .after => do
    let next ← lp.lpSkip p
    lp.assertIntegrity next 0
    return (next,false)

def encode : Input → Str × Nat
  | .string s =>
    match lpEncodeGetType s with
    | (some intenc,enclen) => (intenc,enclen)
    | (none,enclen) => (lpEncodeString s,enclen)
  | .integer intenc => (intenc,intenc.length)
  | .delete => ([],0)

def countElement (replace : Bool) : Option (Block L) :=
  if replace = false ∨ ele = .delete then do
    let num ← lp.lpGetNumElements
    if num ≠ numeleUnknown then
      if ele ≠ .delete then return lp.lpSetNumElements (num + 1) else return lp.lpSetNumElements (num - 1)
    else return lp
  else return lp

/-- `*newp`: the new element, or for a deletion the element behind it, if there is one. -/
def newPointer (dst : Nat) : Option (Option Nat) :=
  if ele = .delete then do
    let first ← lp.load dst
    if first = eof then return none else return some dst
  else some (some dst)

/-- Making the exact room: the bytes from `src` on move to `dst`, with a reallocation before
if the listpack outgrows its block and after if it gets smaller. -/
def relocate (lp : Block L) (alloc : Allocator L) (old : Nat) {new : Nat} (room : new ≤ uint32Max) (dst src : Nat) : Block L :=
  let grown := if new > old ∧ new > lp.size then lp.realloc (alloc new room) else lp
  let moved := {grown with bytes := memmove grown.bytes dst src (old - src)}
  if new < old then moved.realloc (alloc new room) else moved

def store (dst : Nat) (encoded : Str) (enclen : Nat) (backlen : Str) : Block L :=
  {lp with bytes := writeBytes (writeBytes lp.bytes dst encoded) (dst + enclen) backlen}

/-- The last lines of `lpInsert`: `*newp`, the entry and the header. -/
def complete (replace : Bool) (dst : Nat) (encoded : Str) (enclen : Nat) (backlen : Str) (new : Nat) :
    Option (Block L × Option Nat) := do
  let newp ← lp.newPointer ele dst
  let counted ← (lp.store dst encoded enclen backlen).countElement ele replace
  return (counted.lpSetTotalBytes new,newp)

/-- `lpInsert` with only the two cases that it deals with, before an entry and in place of it. -/
def insertAt (poff : Nat) (replace : Bool) : Option (Option (Block L × Option Nat)) := do
  let (encoded,enclen) := encode ele
  let backlen := if ele ≠ .delete then lpEncodeBacklen enclen else []
  let old ← lp.lpGetTotalBytes
  let replaced ← lp.replacedLen poff replace
  let new := old + enclen + backlen.length - replaced
  if room : new ≤ uint32Max then
    let relocated := lp.relocate alloc old room (poff + enclen + backlen.length) (poff + replaced)
    let result ← relocated.complete ele replace poff encoded enclen backlen new
    return some result
  else return none

def lpInsert (place : Where) : Option (Option (Block L × Option Nat)) := do
  let (poff,replace) ← lp.insertionPoint ele p place
  lp.insertAt alloc ele poff replace

def lpInsertString (s : Str) (p : Nat) (place : Where) : Option (Option (Block L × Option Nat)) :=
  lp.lpInsert alloc (.string s) p place

def lpInsertInteger (lval : Int) (p : Nat) (place : Where) : Option (Option (Block L × Option Nat)) :=
  lp.lpInsert alloc (.integer (lpEncodeIntegerGetType lval)) p place

def lpAppend (s : Str) : Option (Option (Block L × Option Nat)) := do
  let bytes ← lp.lpGetTotalBytes
  lp.lpInsert alloc (.string s) (minus L bytes 1) .before

def lpPrepend (s : Str) : Option (Option (Block L × Option Nat)) := do
  match ← lp.lpFirst with
  | none => lp.lpAppend alloc s
  | some p => lp.lpInsert alloc (.string s) p .before

def lpReplace (s : Str) : Option (Option (Block L × Option Nat)) :=
  lp.lpInsert alloc (.string s) p .replace

def lpReplaceInteger (lval : Int) : Option (Option (Block L × Option Nat)) :=
  lp.lpInsertInteger alloc lval p .replace

def lpDelete : Option (Option (Block L × Option Nat)) :=
  lp.lpInsert alloc .delete p .replace

def hop (next : Nat → Option (Option Nat)) : Nat → Option Nat → Option (Option Nat)
  | 0, ele => some ele
  | _ + 1, none => some none
  | steps + 1, some p => do
    let q ← next p
    hop next steps q

def lpSeek (index : Int) : Option (Option Nat) := do
  let numele ← lp.lpGetNumElements
  if numele ≠ numeleUnknown then
    let index := if index < 0 then (numele : Int) + index else index
    if index < 0 then return none
    else if index ≥ numele then return none
    else if index > (numele : Int) / 2 then
      let last ← lp.lpLast
      hop lp.lpPrev (-1 - (index - numele)).toNat last
    else
      let first ← lp.lpFirst
      hop lp.lpNext index.toNat first
  else if index < 0 then
    let last ← lp.lpLast
    hop lp.lpPrev (-1 - index).toNat last
  else
    let first ← lp.lpFirst
    hop lp.lpNext index.toNat first

def loadBytes (lp : Block L) : Nat → Nat → Option Str
  | _, 0 => some []
  | p, len + 1 => do
    let byte ← lp.load p
    let rest ← lp.loadBytes (plus L p 1) len
    return byteOf byte :: rest

def lpGetString (intbuf : Bytes) (p : Nat) : Option Str := do
  match ← lp.lpGet p with
  | .integer v => return ll2string intbuf intbufSize v
  | .unrecognized v => return ll2string intbuf intbufSize v
  | .string start len => lp.loadBytes start len

end Block

end ValkeyWasm.Listpack

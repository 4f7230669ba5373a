import ValkeyWasm.Util.Decimal

/-! Replies of commands on their way to a script: the values of Lua with the stack of a C function, the reply handlers
of the Lua engine (`script_lua.c`) and the parser that calls them (`resp_parser.c`, `call_reply.c`). -/

namespace ValkeyWasm.Lua
open Util (Str string2ll)

def byte (c : Char) : BitVec 8 := BitVec.ofNat 8 c.toNat

def bytes (s : String) : Str := s.toList.map byte

/-- The conversions to `lua_Number`: `(lua_Number)val` and `valkey_strtod_n`. -/
structure Arithmetic (F : Type) where
  number : Int → F
  strtod : Str → F

inductive Value (F : Type) where
  | nil
  | boolean (b : Bool)
  | number (n : F)
  | string (s : Str)
  | table (fields : List (Value F × Value F))

namespace Value
variable {F : Type}

def isNil : Value F → Bool
  | .nil => true
  | _ => false

variable [DecidableEq F]

/-- Raw equality of keys. A table equals itself only; the tables of a reply are made afresh and stored once, so a
table is never found again as a key. -/
def sameKey : Value F → Value F → Bool
  | .boolean a, .boolean b => a == b
  | .number m, .number n => decide (m = n)
  | .string s, .string t => s == t
  | _, _ => false

def assign (fields : List (Value F × Value F)) (key value : Value F) : List (Value F × Value F) :=
  let others := fields.filter fun field => !sameKey field.1 key
  if value.isNil then others else others ++ [(key,value)]

end Value

inductive CollectionType where
  | array
  | map
  | set
  deriving DecidableEq, Repr

def maxNestedCollectionsDepth : Nat := 256

def maxCStack : Nat := 8000

inductive Errno where
  | zero
  | espipe
  | einval
  | enoent
  | eacces
  | other
  deriving DecidableEq, Repr

/-- `callCtx` with the Lua stack, top first. `room` is the number of slots the C function may use, and `inCollection`
counts the open collections (`in_collection + 1`). `slot` notes where the collection of each level lies and `strayed`
whether a table access has hit another slot than the one it was meant for; the code has neither. -/
structure CallCtx (F : Type) where
  stack : List (Value F)
  room : Nat
  error : Bool
  inCollection : Nat
  itemCount : Nat → Nat
  collectionType : Nat → CollectionType
  slot : Nat → Nat
  strayed : Bool

namespace CallCtx
variable {F : Type}

def initial (stack : List (Value F)) : CallCtx F :=
  ⟨stack,stack.length + 20,false,0,fun _ => 0,fun _ => .array,fun _ => 0,false⟩

/-- A push outside the room of the function is a fault. -/
def push (v : Value F) (ctx : CallCtx F) : Option (CallCtx F) :=
  if ctx.stack.length < ctx.room then some {ctx with stack := v::ctx.stack} else none

def checkstack (n : Nat) (ctx : CallCtx F) : Option (CallCtx F) :=
  if maxCStack < ctx.stack.length + n then none else some {ctx with room := max ctx.room (ctx.stack.length + n)}

variable [DecidableEq F]

/-- `lua_settable(lua, -3)`, meant for the table in the slot `target`. Anything but a table there, or the key `nil`,
raises a Lua error. -/
def settable (target : Nat) (ctx : CallCtx F) : Option (CallCtx F) :=
  match ctx.stack with
  | value::key::.table fields::rest =>
    if key.isNil then none
    else some {ctx with stack := .table (Value.assign fields key value)::rest, strayed := ctx.strayed || rest.length != target}
  | _ => none

def setField (target : Nat) (name : String) (v : Value F) (ctx : CallCtx F) : Option (CallCtx F) :=
  (ctx.push (.string (bytes name))).bind fun named => (named.push v).bind (settable target)

variable (arith : Arithmetic F)

def processCollectionElementBegin (ctx : CallCtx F) : Option (CallCtx F) :=
  if ctx.inCollection = 0 then some ctx
  else
    let level := ctx.inCollection - 1
    let counted := {ctx with itemCount := Function.update ctx.itemCount level (ctx.itemCount level + 1)}
    if ctx.collectionType level = .array then counted.push (.number (arith.number (ctx.itemCount level + 1))) else some counted

def processCollectionElementEnd (ctx : CallCtx F) : Option (CallCtx F) :=
  if ctx.inCollection = 0 then some ctx
  else
    let level := ctx.inCollection - 1
    match ctx.collectionType level with
    | .map => if ctx.itemCount level % 2 = 0 then ctx.settable (ctx.slot level) else some ctx
    | .set => (ctx.checkstack 1).bind fun checked => (checked.push (.boolean true)).bind (settable (ctx.slot level))
    | .array => ctx.settable (ctx.slot level)

/-- The callbacks of all replies but errors and collections: one more value on the stack, as an element of the
collection being built if there is one. -/
def deliver (build : CallCtx F → Option (CallCtx F)) (ctx : CallCtx F) : Option (CallCtx F) :=
  (processCollectionElementBegin arith ctx).bind fun begun => (build begun).bind processCollectionElementEnd

def pushValue (v : Value F) (ctx : CallCtx F) : Option (CallCtx F) := (ctx.checkstack 1).bind (push v)

def integerCallback (val : Int) : CallCtx F → Option (CallCtx F) := deliver arith (pushValue (.number (arith.number val)))

def nullCallback : CallCtx F → Option (CallCtx F) := deliver arith (pushValue .nil)

def nullArrayCallback : CallCtx F → Option (CallCtx F) := deliver arith (pushValue (.boolean false))

def nullBulkString : CallCtx F → Option (CallCtx F) := deliver arith (pushValue (.boolean false))

def bulkStringCallback (str : Str) : CallCtx F → Option (CallCtx F) := deliver arith (pushValue (.string str))

def boolCallback (val : Bool) : CallCtx F → Option (CallCtx F) := deliver arith (pushValue (.boolean val))

def pushField (name : String) (v : Value F) (ctx : CallCtx F) : Option (CallCtx F) :=
  (ctx.checkstack 3).bind fun checked => (checked.push (.table [])).bind (setField ctx.stack.length name v)

def simpleStringCallback (str : Str) : CallCtx F → Option (CallCtx F) := deliver arith (pushField "ok" (.string str))

def bigNumberCallback (str : Str) : CallCtx F → Option (CallCtx F) := deliver arith (pushField "big_number" (.string str))

def doubleCallback (val : F) : CallCtx F → Option (CallCtx F) := deliver arith (pushField "double" (.number val))

def pushVerbatim (str format : Str) (ctx : CallCtx F) : Option (CallCtx F) :=
  (ctx.checkstack 5).bind fun checked => (checked.push (.table [])).bind fun outer =>
    (outer.push (.string (bytes "verbatim_string"))).bind fun named => (named.push (.table [])).bind fun inner =>
      (inner.setField (ctx.stack.length + 2) "string" (.string str)).bind fun first =>
        (first.setField (ctx.stack.length + 2) "format" (.string format)).bind (settable ctx.stack.length)

def verbatimStringCallback (str format : Str) : CallCtx F → Option (CallCtx F) := deliver arith (pushVerbatim str format)

end CallCtx

def strtrim (s : Str) : Str :=
  let newline := fun c : BitVec 8 => decide (c = 13 ∨ c = 10)
  ((s.dropWhile newline).reverse.dropWhile newline).reverse

def finalMsg (buffer : Str) : Str :=
  match buffer with
  | 45::rest =>
    if rest.contains 32 then rest.takeWhile (· ≠ 32) ++ 32::strtrim ((rest.dropWhile (· ≠ 32)).drop 1)
    else bytes "ERR " ++ rest
  | _ => bytes "ERR " ++ strtrim buffer

def luaProcessReplyError (errno : Errno) (err : Str) : Str :=
  match errno with
  | .espipe => if (bytes "ERR command ").isPrefixOf err then bytes "This Valkey command is not allowed from script" else 45::err
  | .einval =>
    if (bytes "ERR wrong number of arguments for ").isPrefixOf err then bytes "Wrong number of args calling command from script"
    else 45::err
  | .enoent => if (bytes "ERR unknown command '").isPrefixOf err then bytes "Unknown command called from script" else 45::err
  | .eacces => if (bytes "NOPERM ").isPrefixOf err then bytes "ACL failure in script: " ++ err.drop 7 else 45::err
  | .zero | .other => 45::err

namespace CallCtx
variable {F : Type} [DecidableEq F]

/-- `errorCallback`: the message is read as a C string, that is up to the end of the whole reply, and nothing is done
about a collection the error is in. -/
def errorCallback (errno : Errno) (msg : Str) (ctx : CallCtx F) : Option (CallCtx F) :=
  (ctx.checkstack 3).bind fun checked => (checked.push (.table [])).bind fun made =>
    (made.setField ctx.stack.length "err" (.string (finalMsg (luaProcessReplyError errno msg)))).bind fun named =>
      (named.setField ctx.stack.length "ignore_error_stats_update" (.boolean true)).map fun done => {done with error := true}

variable (arith : Arithmetic F)

/-- The end of the start callbacks: the level arrays have `MAX_NESTED_COLLECTIONS_DEPTH` entries. -/
def openLevel (type : CollectionType) (ctx : CallCtx F) : Option (CallCtx F) :=
  if ctx.inCollection < maxNestedCollectionsDepth then
    some {ctx with
      inCollection := ctx.inCollection + 1
      itemCount := Function.update ctx.itemCount ctx.inCollection 0
      collectionType := Function.update ctx.collectionType ctx.inCollection type
      slot := Function.update ctx.slot ctx.inCollection (ctx.stack.length - 1)}
  else none

/-- The tables of a map or a set, one in a field of the other. -/
def openWrapped (type : CollectionType) (name : String) (ctx : CallCtx F) : Option (CallCtx F) :=
  (ctx.checkstack 3).bind fun checked => (checked.push (.table [])).bind fun outer =>
    (outer.push (.string (bytes name))).bind fun named => (named.push (.table [])).bind (openLevel type)

def openArray (ctx : CallCtx F) : Option (CallCtx F) :=
  (ctx.checkstack 3).bind fun checked => (checked.push (.table [])).bind (openLevel .array)

def mapStartCallback (ctx : CallCtx F) : Option (CallCtx F) :=
  (processCollectionElementBegin arith ctx).bind (openWrapped .map "map")

def setStartCallback (ctx : CallCtx F) : Option (CallCtx F) :=
  (processCollectionElementBegin arith ctx).bind (openWrapped .set "set")

def arrayStartCallback (ctx : CallCtx F) : Option (CallCtx F) := (processCollectionElementBegin arith ctx).bind openArray

def closeLevel (ctx : CallCtx F) : CallCtx F := {ctx with inCollection := ctx.inCollection - 1}

/-- `mapEndCallback` and `setEndCallback`: the table goes into the field of the table two slots below it. -/
def wrappedEndCallback (ctx : CallCtx F) : Option (CallCtx F) :=
  (ctx.settable (ctx.slot (ctx.inCollection - 1) - 2)).bind fun wrapped => wrapped.closeLevel.processCollectionElementEnd

def arrayEndCallback (ctx : CallCtx F) : Option (CallCtx F) := ctx.closeLevel.processCollectionElementEnd

end CallCtx

/-- `strchr(p, c)`: what stands before the first `c` and what follows from it on. A string that ends before has none. -/
def strchr (c : BitVec 8) : Str → Option (Str × Str)
  | [] => none
  | b::p =>
    if b = c then some ([],b::p)
    else if b = 0 then none
    else (strchr c p).map fun found => (b::found.1,found.2)

def line (p : Str) : Option (Str × Str) := (strchr 13 p).map fun found => (found.1,found.2.drop 2)

/-- A line that holds a number. A text that `string2ll` refuses leaves the number undefined. -/
def header (p : Str) : Option (Int × Str) := (line p).bind fun found => (string2ll found.1).map fun n => (n,found.2)

def maxLongDoubleChars : Nat := 5 * 1024

section
variable {F : Type} [DecidableEq F] (arith : Arithmetic F) (errno : Errno)

abbrev Parse (F : Type) := Option (Str × CallCtx F)

def parseBulk (p : Str) (ctx : CallCtx F) : Parse F :=
  (header p).bind fun (bulklen,location) =>
    if bulklen = -1 then (ctx.nullBulkString arith).map fun next => (location,next)
    else if bulklen < 0 ∨ location.length < bulklen.toNat + 2 then none
    else (ctx.bulkStringCallback arith (location.take bulklen.toNat)).map fun next => (location.drop (bulklen.toNat + 2),next)

def parseSimpleString (p : Str) (ctx : CallCtx F) : Parse F :=
  (line p).bind fun (text,location) => (ctx.simpleStringCallback arith text).map fun next => (location,next)

def parseError (p : Str) (ctx : CallCtx F) : Parse F :=
  (line p).bind fun (_,location) => (ctx.errorCallback errno (p.takeWhile (· ≠ 0))).map fun next => (location,next)

def parseLong (p : Str) (ctx : CallCtx F) : Parse F :=
  (header p).bind fun (val,location) => (ctx.integerCallback arith val).map fun next => (location,next)

def parseVerbatimString (p : Str) (ctx : CallCtx F) : Parse F :=
  (header p).bind fun (bulklen,location) =>
    if bulklen < 4 ∨ location.length < bulklen.toNat + 2 then none
    else (ctx.verbatimStringCallback arith ((location.take bulklen.toNat).drop 4) (location.take 3)).map fun next =>
      (location.drop (bulklen.toNat + 2),next)

def parseBigNumber (p : Str) (ctx : CallCtx F) : Parse F :=
  (line p).bind fun (text,location) => (ctx.bigNumberCallback arith text).map fun next => (location,next)

def parseNull (p : Str) (ctx : CallCtx F) : Parse F :=
  (line p).bind fun (_,location) => (ctx.nullCallback arith).map fun next => (location,next)

def parseDouble (p : Str) (ctx : CallCtx F) : Parse F :=
  (line p).bind fun (text,location) =>
    (ctx.doubleCallback arith (if text.length ≤ maxLongDoubleChars then arith.strtod text else arith.number 0)).map fun next =>
      (location,next)

def parseBool (p : Str) (ctx : CallCtx F) : Parse F :=
  (line p).bind fun (_,location) => (ctx.boolCallback arith (p.head? == some 116)).map fun next => (location,next)

def parseTimes (parse : Str → CallCtx F → Parse F) : Nat → Str → CallCtx F → Parse F
  | 0, location, ctx => some (location,ctx)
  | n + 1, location, ctx => (parse location ctx).bind fun (next,reached) => parseTimes parse n next reached

/-- A collection: its length, the start callback, the elements (`width` for each) and the end callback. -/
def parseCollection (parse : Str → CallCtx F → Parse F) (width : Nat) (start finish : CallCtx F → Option (CallCtx F)) (len : Int)
    (location : Str) (ctx : CallCtx F) : Parse F :=
  (start ctx).bind fun opened => (parseTimes parse (width * (len % 2^64).toNat) location opened).bind fun (last,filled) =>
    (finish filled).map fun next => (last,next)

def parseArray (parse : Str → CallCtx F → Parse F) (p : Str) (ctx : CallCtx F) : Parse F :=
  (header p).bind fun (len,location) =>
    if len = -1 then (ctx.nullArrayCallback arith).map fun next => (location,next)
    else parseCollection parse 1 (CallCtx.arrayStartCallback arith) CallCtx.arrayEndCallback len location ctx

def parseSet (parse : Str → CallCtx F → Parse F) (p : Str) (ctx : CallCtx F) : Parse F :=
  (header p).bind fun (len,location) =>
    parseCollection parse 1 (CallCtx.setStartCallback arith) CallCtx.wrappedEndCallback len location ctx

def parseMap (parse : Str → CallCtx F → Parse F) (p : Str) (ctx : CallCtx F) : Parse F :=
  (header p).bind fun (len,location) =>
    parseCollection parse 2 (CallCtx.mapStartCallback arith) CallCtx.wrappedEndCallback len location ctx

/-- The attributes, then the reply they belong to. The engine has no callbacks for attributes, so that their elements
are delivered like replies. -/
def parseAttributes (parse : Str → CallCtx F → Parse F) (p : Str) (ctx : CallCtx F) : Parse F :=
  (header p).bind fun (len,location) => parseTimes parse (2 * (len % 2^64).toNat + 1) location ctx

/-- `parseReply`; each round is one level of the recursion. Unknown bytes are not consumed. -/
def parseReply : Nat → Str → CallCtx F → Parse F
  | 0, _, _ => none
  | _ + 1, [], _ => none
  | rounds + 1, c::p, ctx =>
    if c = byte '$' then parseBulk arith p ctx
    else if c = byte '+' then parseSimpleString arith p ctx
    else if c = byte '-' then parseError errno p ctx
    else if c = byte ':' then parseLong arith p ctx
    else if c = byte '*' then parseArray arith (parseReply rounds) p ctx
    else if c = byte '~' then parseSet arith (parseReply rounds) p ctx
    else if c = byte '%' then parseMap arith (parseReply rounds) p ctx
    else if c = byte '#' then parseBool arith p ctx
    else if c = byte ',' then parseDouble arith p ctx
    else if c = byte '_' then parseNull arith p ctx
    else if c = byte '(' then parseBigNumber arith p ctx
    else if c = byte '=' then parseVerbatimString arith p ctx
    else if c = byte '|' then parseAttributes (parseReply rounds) p ctx
    else some (c::p,ctx)

end

end ValkeyWasm.Lua

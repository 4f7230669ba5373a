import ValkeyWasm.Lua.Handlers

/-! Reply trees: how the server writes them (RESP2 and RESP3, without attributes) and the value each one means to a
script. -/

namespace ValkeyWasm.Lua
open Util (Str decimal)

mutual

inductive Reply where
  | bulk (s : Str)
  | nullBulk
  | simple (s : Str)
  | error (s : Str)
  | integer (v : Int)
  | nullArray
  | null
  | bool (b : Bool)
  | double (text : Str)
  | bigNumber (s : Str)
  | verbatim (format s : Str)
  | array (items : Replies)
  | set (items : Replies)
  | map (pairs : Pairs)

inductive Replies where
  | nil
  | cons (head : Reply) (tail : Replies)

inductive Pairs where
  | nil
  | cons (key value : Reply) (tail : Pairs)

end

def Replies.length : Replies → Nat
  | .nil => 0
  | .cons _ tail => tail.length + 1

def Pairs.length : Pairs → Nat
  | .nil => 0
  | .cons _ _ tail => tail.length + 1

def crlf : Str := [13,10]

def textLine (c : Char) (text : Str) : Str := byte c::text ++ crlf

mutual

def Reply.encode : Reply → Str
  | .bulk s => textLine '$' (decimal s.length) ++ s ++ crlf
  | .nullBulk => textLine '$' (decimal (-1))
  | .simple s => textLine '+' s
  | .error s => textLine '-' s
  | .integer v => textLine ':' (decimal v)
  | .nullArray => textLine '*' (decimal (-1))
  | .null => textLine '_' []
  | .bool b => textLine '#' (if b then bytes "t" else bytes "f")
  | .double text => textLine ',' text
  | .bigNumber s => textLine '(' s
  | .verbatim format s => textLine '=' (decimal ((s.length + 4 : Nat) : Int)) ++ (format ++ bytes ":" ++ s) ++ crlf
  | .array items => textLine '*' (decimal items.length) ++ items.encode
  | .set items => textLine '~' (decimal items.length) ++ items.encode
  | .map pairs => textLine '%' (decimal pairs.length) ++ pairs.encode

def Replies.encode : Replies → Str
  | .nil => []
  | .cons head tail => head.encode ++ tail.encode

def Pairs.encode : Pairs → Str
  | .nil => []
  | .cons key value tail => key.encode ++ (value.encode ++ tail.encode)

end

def isText (s : Str) : Bool := s.all fun c => decide (c ≠ 13 ∧ c ≠ 10 ∧ c ≠ 0)

def Reply.isNull : Reply → Bool
  | .null => true
  | _ => false

mutual

/-- Texts fit on a line, numbers and lengths in 64 bits, and no null is a key of a map or an element of a set. -/
def Reply.wellFormed : Reply → Bool
  | .bulk s => decide (s.length < 2^63)
  | .simple s | .error s | .bigNumber s => isText s
  | .integer v => decide (-2^63 ≤ v ∧ v < 2^63)
  | .nullBulk | .nullArray | .null | .bool _ => true
  | .double text => isText text && decide (text.length ≤ maxLongDoubleChars)
  | .verbatim format s => decide (format.length = 3 ∧ s.length + 4 < 2^63)
  | .array items => decide (items.length < 2^63) && items.wellFormed
  | .set items => decide (items.length < 2^63) && items.wellFormed && items.noNull
  | .map pairs => decide (pairs.length < 2^63) && pairs.wellFormed

def Replies.wellFormed : Replies → Bool
  | .nil => true
  | .cons head tail => head.wellFormed && tail.wellFormed

def Replies.noNull : Replies → Bool
  | .nil => true
  | .cons head tail => !head.isNull && tail.noNull

def Pairs.wellFormed : Pairs → Bool
  | .nil => true
  | .cons key value tail => key.wellFormed && !key.isNull && value.wellFormed && tail.wellFormed

end

mutual

def Reply.depth : Reply → Nat
  | .array items | .set items => items.depth + 1
  | .map pairs => pairs.depth + 1
  | _ => 0

def Replies.depth : Replies → Nat
  | .nil => 0
  | .cons head tail => max head.depth tail.depth

def Pairs.depth : Pairs → Nat
  | .nil => 0
  | .cons key value tail => max key.depth (max value.depth tail.depth)

end

mutual

def Reply.errors : Reply → Nat
  | .error _ => 1
  | .array items | .set items => items.errors
  | .map pairs => pairs.errors
  | _ => 0

def Replies.errors : Replies → Nat
  | .nil => 0
  | .cons head tail => head.errors + tail.errors

def Pairs.errors : Pairs → Nat
  | .nil => 0
  | .cons key value tail => key.errors + (value.errors + tail.errors)

end

section
variable {F : Type} [DecidableEq F] (arith : Arithmetic F)

def single (name : String) (v : Value F) : Value F := .table [(.string (bytes name),v)]

mutual

def Reply.translate : Reply → Value F
  | .bulk s => .string s
  | .nullBulk => .boolean false
  | .simple s => single "ok" (.string s)
  | .error s => .table [(.string (bytes "err"),.string s),(.string (bytes "ignore_error_stats_update"),.boolean true)]
  | .integer v => .number (arith.number v)
  | .nullArray => .boolean false
  | .null => .nil
  | .bool b => .boolean b
  | .double text => single "double" (.number (arith.strtod text))
  | .bigNumber s => single "big_number" (.string s)
  | .verbatim format s => single "verbatim_string"
      (.table [(.string (bytes "string"),.string s),(.string (bytes "format"),.string format)])
  | .array items => .table (items.arrayFields 0 [])
  | .set items => single "set" (.table (items.setFields []))
  | .map pairs => single "map" (.table (pairs.mapFields []))

def Replies.arrayFields (index : Nat) (fields : List (Value F × Value F)) : Replies → List (Value F × Value F)
  | .nil => fields
  | .cons head tail => tail.arrayFields (index + 1) (Value.assign fields (.number (arith.number (index + 1))) head.translate)

def Replies.setFields (fields : List (Value F × Value F)) : Replies → List (Value F × Value F)
  | .nil => fields
  | .cons head tail => tail.setFields (Value.assign fields head.translate (.boolean true))

def Pairs.mapFields (fields : List (Value F × Value F)) : Pairs → List (Value F × Value F)
  | .nil => fields
  | .cons key value tail => tail.mapFields (Value.assign fields key.translate value.translate)

end

theorem isNil_translate (r : Reply) : (r.translate arith).isNil = r.isNull := by
  cases r <;> rfl

end

end ValkeyWasm.Lua

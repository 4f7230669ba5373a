import ValkeyWasm.Lua.Reply

/-! One value at a time. The arrays of the context are read as the list of the open collections, innermost first; a
value is expected at the bottom of the reply, at the next index of an array, as the next element of a set, or as the next
key or value of a map. -/

namespace ValkeyWasm.Lua
open Util (Str)

/-- An open collection: its type, the values counted in it and the slot of its table. -/
structure Level where
  type : CollectionType
  count : Nat
  slot : Nat

def levelsOf (type : Nat → CollectionType) (count slot : Nat → Nat) : Nat → List Level
  | 0 => []
  | l + 1 => ⟨type l,count l,slot l⟩::levelsOf type count slot l

theorem levelsOf_congr {type type' : Nat → CollectionType} {count count' slot slot' : Nat → Nat} {n : Nat}
    (same : ∀ l < n, type' l = type l ∧ count' l = count l ∧ slot' l = slot l) :
    levelsOf type' count' slot' n = levelsOf type count slot n := by
  induction n with
  | zero => rfl
  | succ n ih =>
    obtain ⟨types,counts,slots⟩ := same n n.lt_succ_self
    rw [levelsOf,levelsOf,types,counts,slots,ih fun l lower => same l (Nat.lt_succ_of_lt lower)]

theorem length_levelsOf (type : Nat → CollectionType) (count slot : Nat → Nat) (n : Nat) : (levelsOf type count slot n).length = n := by
  induction n with
  | zero => rfl
  | succ n ih => rw [levelsOf,List.length_cons,ih]

section
variable {F : Type}

namespace CallCtx

def levels (ctx : CallCtx F) : List Level := levelsOf ctx.collectionType ctx.itemCount ctx.slot ctx.inCollection

def holding (ctx : CallCtx F) (stack : List (Value F)) (room : Nat) : CallCtx F := {ctx with stack, room}

variable {ctx : CallCtx F} {level : Level} {outer : List Level}

theorem length_levels (ctx : CallCtx F) : ctx.levels.length = ctx.inCollection := length_levelsOf ..

theorem levels_nil (bottom : ctx.levels = []) : ctx.inCollection = 0 := by rw [← length_levels,bottom]; rfl

theorem levels_cons (inside : ctx.levels = level::outer) : ∃ l, ctx.inCollection = l + 1 ∧ ctx.collectionType l = level.type ∧
    ctx.itemCount l = level.count ∧ ctx.slot l = level.slot ∧ levelsOf ctx.collectionType ctx.itemCount ctx.slot l = outer := by
  unfold levels at inside
  cases depth : ctx.inCollection with
  | zero =>
    rw [depth] at inside
    exact nomatch inside
  | succ l =>
    rw [depth] at inside
    obtain ⟨rfl,rfl⟩ := List.cons.inj inside
    exact ⟨l,rfl,rfl,rfl,rfl,rfl⟩

theorem push_holding {stack : List (Value F)} {room : Nat} (v : Value F) (inside : stack.length < room) :
    (ctx.holding stack room).push v = some (ctx.holding (v::stack) room) := if_pos inside

theorem checkstack_some {n : Nat} (fits : ctx.stack.length + n ≤ maxCStack) :
    ctx.checkstack n = some (ctx.holding ctx.stack (max ctx.room (ctx.stack.length + n))) :=
  if_neg (Nat.not_lt.mpr fits)

theorem begin_nil (arith : Arithmetic F) (bottom : ctx.levels = []) : processCollectionElementBegin arith ctx = some ctx :=
  if_pos (levels_nil bottom)

theorem begin_cons (arith : Arithmetic F) (inside : ctx.levels = level::outer) : ∃ counted : CallCtx F,
    counted.levels = {level with count := level.count + 1}::outer ∧ counted.strayed = ctx.strayed ∧
      processCollectionElementBegin arith ctx = if level.type = .array
        then (counted.holding ctx.stack ctx.room).push (.number (arith.number (level.count + 1)))
        else some (counted.holding ctx.stack ctx.room) := by
  obtain ⟨l,depth,type,count,slot,below⟩ := levels_cons inside
  refine ⟨{ctx with itemCount := Function.update ctx.itemCount l (level.count + 1)},?_,rfl,?_⟩
  · have others : levelsOf ctx.collectionType (Function.update ctx.itemCount l (level.count + 1)) ctx.slot l = outer :=
      (levelsOf_congr fun k lower => ⟨rfl,Function.update_of_ne (Nat.ne_of_lt lower) ..,rfl⟩).trans below
    rw [depth]
    change Level.mk (ctx.collectionType l) (Function.update ctx.itemCount l (level.count + 1) l) (ctx.slot l)::_ = _
    rw [type,slot,Function.update_self]
    exact congrArg _ others
  · rw [processCollectionElementBegin,depth]
    simp only [Nat.add_sub_cancel,type,count]
    rfl

def Builds (ctx : CallCtx F) (v : Value F) (result : Option (CallCtx F)) : Prop :=
  ∃ room, ctx.room ≤ room ∧ result = some (ctx.holding (v::ctx.stack) room)

theorem pushValue_builds (v : Value F) (fits : ctx.stack.length + 1 ≤ maxCStack) : ctx.Builds v (ctx.pushValue v) := by
  refine ⟨_,le_max_left _ (ctx.stack.length + 1),?_⟩
  rw [pushValue,checkstack_some fits,Option.bind_some,push_holding _ (lt_max_of_lt_right (Nat.lt_succ_self _))]

variable [DecidableEq F]

theorem end_nil (bottom : ctx.levels = []) : processCollectionElementEnd ctx = some ctx := if_pos (levels_nil bottom)

theorem end_cons (inside : ctx.levels = level::outer) : processCollectionElementEnd ctx =
    match level.type with
    | .map => if level.count % 2 = 0 then ctx.settable level.slot else some ctx
    | .set => (ctx.checkstack 1).bind fun checked => (checked.push (.boolean true)).bind (settable level.slot)
    | .array => ctx.settable level.slot := by
  obtain ⟨l,depth,type,count,slot,-⟩ := levels_cons inside
  rw [processCollectionElementEnd,depth,if_neg (Nat.succ_ne_zero l)]
  simp only [Nat.add_sub_cancel,type,count,slot] <;> rfl

theorem settable_some {target : Nat} {value key : Value F} {fields : List (Value F × Value F)} {rest : List (Value F)}
    (stack : ctx.stack = value::key::.table fields::rest) (named : key.isNil = false) (aimed : rest.length = target) :
    ctx.settable target = some (ctx.holding (.table (Value.assign fields key value)::rest) ctx.room) := by
  rw [settable,stack]
  simp [named,aimed,holding]

theorem setField_holding {target room : Nat} {fields : List (Value F × Value F)} {rest : List (Value F)} (name : String) (v : Value F)
    (inside : rest.length + 3 ≤ room) (aimed : rest.length = target) :
    (ctx.holding (.table fields::rest) room).setField target name v =
      some (ctx.holding (.table (Value.assign fields (.string (bytes name)) v)::rest) room) := by
  have first : (Value.table fields::rest).length < room := by
    rw [List.length_cons]
    omega
  have second : (Value.string (bytes name)::.table fields::rest).length < room := by
    rw [List.length_cons,List.length_cons]
    omega
  rw [setField,push_holding _ first,Option.bind_some,push_holding _ second,Option.bind_some]
  exact settable_some rfl rfl aimed

theorem pushField_builds (name : String) {v : Value F} (value : v.isNil = false) (fits : ctx.stack.length + 3 ≤ maxCStack) :
    ctx.Builds (single name v) (ctx.pushField name v) := by
  have room : ctx.stack.length + 3 ≤ max ctx.room (ctx.stack.length + 3) := le_max_right _ _
  have made : Value.table (Value.assign [] (.string (bytes name)) v) = single name v := by simp [Value.assign,value,single]
  refine ⟨_,le_max_left _ (ctx.stack.length + 3),?_⟩
  rw [pushField,checkstack_some fits,Option.bind_some,push_holding _ (by omega),Option.bind_some,setField_holding name v room rfl,made]

theorem pushVerbatim_builds (str format : Str) (fits : ctx.stack.length + 5 ≤ maxCStack) : ctx.Builds (single "verbatim_string"
    (.table [(.string (bytes "string"),.string str),(.string (bytes "format"),.string format)])) (ctx.pushVerbatim str format) := by
  have inner : (Value.string (bytes "verbatim_string")::.table []::ctx.stack).length = ctx.stack.length + 2 := rfl
  refine ⟨_,le_max_left _ (ctx.stack.length + 5),?_⟩
  rw [pushVerbatim,checkstack_some fits,Option.bind_some,push_holding _ (by omega),Option.bind_some,
    push_holding _ (by rw [List.length_cons]; omega),Option.bind_some,push_holding _ (by omega),Option.bind_some,
    setField_holding "string" _ (by omega) inner,Option.bind_some,setField_holding "format" _ (by omega) inner,Option.bind_some,
    settable_some rfl rfl rfl]
  rfl

theorem errorCallback_some (ctx : CallCtx F) (errno : Errno) (msg : Str) (fits : ctx.stack.length + 3 ≤ maxCStack) :
    ∃ built, ctx.errorCallback errno msg = some built ∧ built.strayed = ctx.strayed ∧
      built.stack = .table [(.string (bytes "err"),.string (finalMsg (luaProcessReplyError errno msg))),
        (.string (bytes "ignore_error_stats_update"),.boolean true)]::ctx.stack := by
  have room : ctx.stack.length + 3 ≤ max ctx.room (ctx.stack.length + 3) := le_max_right _ _
  rw [errorCallback,checkstack_some fits,Option.bind_some,push_holding _ (by omega),Option.bind_some,
    setField_holding "err" _ room rfl,Option.bind_some,setField_holding "ignore_error_stats_update" _ room rfl]
  exact ⟨_,rfl,rfl,rfl⟩

end CallCtx

/-- Where the next value goes, with what the collection holds already; `done` expects nothing more. -/
inductive Place (F : Type) where
  | bottom
  | done (v : Value F)
  | array (n : Nat) (fields : List (Value F × Value F))
  | set (n : Nat) (fields : List (Value F × Value F))
  | key (pairs : Nat) (fields : List (Value F × Value F))
  | value (pairs : Nat) (key : Value F) (fields : List (Value F × Value F))

namespace Place

def stack (rest : List (Value F)) : Place F → List (Value F)
  | .bottom => rest
  | .done v => v::rest
  | .array _ fields | .set _ fields | .key _ fields => .table fields::rest
  | .value _ k fields => k::.table fields::rest

def levels (slot : Nat) (outer : List Level) : Place F → List Level
  | .bottom | .done _ => []
  | .array n _ => ⟨.array,n,slot⟩::outer
  | .set n _ => ⟨.set,n,slot⟩::outer
  | .key pairs _ => ⟨.map,2 * pairs,slot⟩::outer
  | .value pairs _ _ => ⟨.map,2 * pairs + 1,slot⟩::outer

def Accepts (v : Value F) : Place F → Prop
  | .done _ => False
  | .set _ _ | .key _ _ => v.isNil = false
  | _ => True

def Sound (height room : Nat) : Place F → Prop
  | .array _ _ => height + 3 ≤ room
  | .value _ k _ => k.isNil = false
  | _ => True

variable [DecidableEq F] (arith : Arithmetic F)

def after (v : Value F) : Place F → Place F
  | .bottom | .done _ => .done v
  | .array n fields => .array (n + 1) (Value.assign fields (.number (arith.number (n + 1))) v)
  | .set n fields => .set (n + 1) (Value.assign fields v (.boolean true))
  | .key pairs fields => .value pairs v fields
  | .value pairs k fields => .key (pairs + 1) (Value.assign fields k v)

/-- The stack when a value is begun: an array has pushed the next index. -/
def begun (rest : List (Value F)) : Place F → List (Value F)
  | .array n fields => .number (arith.number (n + 1))::.table fields::rest
  | place => place.stack rest

end Place

/-- A context at a place of a collection above `rest`, inside the levels `outer`. -/
structure Stands (place : Place F) (rest : List (Value F)) (outer : List Level) (bound : Nat) (ctx : CallCtx F) : Prop where
  stack : ctx.stack = place.stack rest
  levels : ctx.levels = place.levels rest.length outer
  room : bound ≤ ctx.room
  aimed : ctx.strayed = false
  sound : place.Sound rest.length bound

namespace Stands
open CallCtx
variable [DecidableEq F] {place : Place F} {rest : List (Value F)} {outer : List Level} {bound : Nat} {ctx : CallCtx F} {v : Value F}

theorem begun (arith : Arithmetic F) (stands : Stands place rest outer bound ctx) (accepted : place.Accepts v) :
    ∃ begun, processCollectionElementBegin arith ctx = some begun ∧ begun.stack = place.begun arith rest ∧
      begun.levels = (place.after arith v).levels rest.length outer ∧ begun.room = ctx.room ∧ begun.strayed = false := by
  obtain ⟨stack,levels,wide,aimed,sound⟩ := stands
  cases place with
  | bottom => exact ⟨ctx,begin_nil arith levels,stack,levels,rfl,aimed⟩
  | done v => exact accepted.elim
  | array n fields =>
    obtain ⟨counted,here,strayed,begin⟩ := begin_cons arith levels
    have height : ctx.stack.length = rest.length + 1 := by rw [stack]; rfl
    have inside : rest.length + 3 ≤ bound := sound
    rw [push_holding _ (by omega)] at begin
    exact ⟨_,begin,congrArg (_::·) stack,here,rfl,strayed.trans aimed⟩
  | set n fields | key pairs fields | value pairs k fields =>
    obtain ⟨counted,here,strayed,begin⟩ := begin_cons arith levels
    exact ⟨_,begin,stack,here,rfl,strayed.trans aimed⟩

omit [DecidableEq F] in
theorem length_begun {arith : Arithmetic F} (stands : Stands place rest outer bound ctx) {begun : CallCtx F}
    (stack : begun.stack = place.begun arith rest) : begun.stack.length ≤ ctx.stack.length + 1 := by
  rw [stands.stack,stack]
  cases place <;> simp [Place.stack,Place.begun]

theorem ended {arith : Arithmetic F} (stands : Stands place rest outer bound ctx) (accepted : place.Accepts v) {built : CallCtx F}
    (stack : built.stack = v::place.begun arith rest) (levels : built.levels = (place.after arith v).levels rest.length outer)
    (wide : bound ≤ built.room) (aimed : built.strayed = false) (fits : ctx.stack.length + 2 ≤ maxCStack) :
    ∃ next, processCollectionElementEnd built = some next ∧ Stands (place.after arith v) rest outer bound next := by
  have height := congrArg List.length stands.stack
  have sound := stands.sound
  cases place with
  | bottom => exact ⟨built,end_nil levels,stack,levels,wide,aimed,trivial⟩
  | done _ => exact accepted.elim
  | array n fields =>
    rw [end_cons levels]
    exact ⟨_,settable_some stack rfl rfl,rfl,levels,wide,aimed,sound⟩
  | set n fields =>
    have tall := congrArg List.length stack
    simp only [Place.begun,List.length_cons] at tall
    rw [end_cons levels]
    dsimp only
    rw [checkstack_some (by omega),Option.bind_some,push_holding _ (lt_max_of_lt_right (Nat.lt_succ_self _)),Option.bind_some,
      settable_some (congrArg (_::·) stack) accepted rfl]
    exact ⟨_,rfl,rfl,levels,le_trans wide (le_max_left _ _),aimed,trivial⟩
  | key pairs fields =>
    have odd : ¬ (2 * pairs + 1) % 2 = 0 := by omega
    rw [end_cons levels]
    rw [if_neg odd]
    exact ⟨built,rfl,stack,levels,wide,aimed,accepted⟩
  | value pairs k fields =>
    have even : 2 * (pairs + 1) % 2 = 0 := by omega
    rw [end_cons levels]
    rw [if_pos even]
    exact ⟨_,settable_some stack sound rfl,rfl,levels,wide,aimed,trivial⟩

theorem deliver (arith : Arithmetic F) (stands : Stands place rest outer bound ctx) (accepted : place.Accepts v)
    {build : CallCtx F → Option (CallCtx F)} (builds : ∀ begun : CallCtx F, begun.stack.length ≤ ctx.stack.length + 1 → begun.Builds v (build begun))
    (fits : ctx.stack.length + 2 ≤ maxCStack) :
    ∃ next, CallCtx.deliver arith build ctx = some next ∧ Stands (place.after arith v) rest outer bound next := by
  obtain ⟨begun,begin,stack,levels,same,aimed⟩ := stands.begun arith accepted
  obtain ⟨wider,wide,built⟩ := builds begun (stands.length_begun stack)
  rw [CallCtx.deliver,begin,Option.bind_some,built]
  exact stands.ended accepted (congrArg (v::·) stack) levels (le_trans stands.room (same ▸ wide)) aimed fits

end Stands

end

end ValkeyWasm.Lua

import ValkeyWasm.Lua.Building

/-! The callbacks along a reply, apart from the bytes between them, and what they do when nothing in the reply is an
error: the value of the whole reply is put at the place where it is expected. The inductions follow the tree; inside a
collection the place moves on with each element. -/

namespace ValkeyWasm.Lua
open Function List Nat Bool
open Util (Str decimal string2ll)
open CallCtx

variable {s : Str}

theorem strchr_text (text : ∀ c ∈ s, c ≠ 13 ∧ c ≠ 0) (after : Str) : strchr 13 (s ++ 13::after) = some (s,13::after) := by
  induction s with
  | nil => rfl
  | cons c s ih =>
    obtain ⟨apart,present⟩ := text c mem_cons_self
    rw [cons_append,strchr,if_neg apart,if_neg present,ih fun e member => text e (mem_cons_of_mem c member)]
    rfl

theorem line_text (text : ∀ c ∈ s, c ≠ 13 ∧ c ≠ 0) (after : Str) : line (s ++ crlf ++ after) = some (s,after) := by
  rw [List.append_assoc]
  change (strchr 13 (s ++ 13::(10::after))).map _ = _
  rw [strchr_text text]
  rfl

theorem line_isText (text : isText s = true) (after : Str) : line (s ++ crlf ++ after) = some (s,after) := by
  apply line_text
  intro c member
  have fits := of_decide_eq_true (all_eq_true.mp text c member)
  exact ⟨fits.1,fits.2.2⟩

theorem header_decimal {v : Int} (low : -2^63 ≤ v) (high : v < 2^63) (after : Str) :
    header (decimal v ++ crlf ++ after) = some (v,after) := by
  have text : ∀ c ∈ decimal v, c ≠ 13 ∧ c ≠ 0 := by
    intro c member
    have least := Util.decimal_line c member
    constructor
    · rintro rfl
      exact absurd least (by decide)
    · rintro rfl
      exact absurd least (by decide)
  rw [header,line_text text,Option.bind_some,Util.string2ll_decimal low high]
  rfl

theorem header_length {n : Nat} (small : n < 2^63) (after : Str) : header (decimal n ++ crlf ++ after) = some ((n : Int),after) :=
  header_decimal (by omega) (by omega) after

theorem wrap_length {n : Nat} (small : n < 2^63) : ((n : Int) % 2^64).toNat = n := by omega

section
variable {F : Type} [DecidableEq F] (arith : Arithmetic F) (errno : Errno)

mutual

/-- The callbacks for a reply that has the text `after` behind it: an error reads on to the end of the buffer. -/
def Reply.feed (after : Str) : Reply → CallCtx F → Option (CallCtx F)
  | .bulk s, ctx => bulkStringCallback arith s ctx
  | .nullBulk, ctx => nullBulkString arith ctx
  | .simple s, ctx => simpleStringCallback arith s ctx
  | .error s, ctx => errorCallback errno ((s ++ crlf ++ after).takeWhile (· ≠ 0)) ctx
  | .integer v, ctx => integerCallback arith v ctx
  | .nullArray, ctx => nullArrayCallback arith ctx
  | .null, ctx => nullCallback arith ctx
  | .bool b, ctx => boolCallback arith b ctx
  | .double text, ctx => doubleCallback arith (arith.strtod text) ctx
  | .bigNumber s, ctx => bigNumberCallback arith s ctx
  | .verbatim format s, ctx => verbatimStringCallback arith s format ctx
  | .array items, ctx => (arrayStartCallback arith ctx).bind fun opened => (items.feed after opened).bind arrayEndCallback
  | .set items, ctx => (setStartCallback arith ctx).bind fun opened => (items.feed after opened).bind wrappedEndCallback
  | .map pairs, ctx => (mapStartCallback arith ctx).bind fun opened => (pairs.feed after opened).bind wrappedEndCallback

def Replies.feed (after : Str) : Replies → CallCtx F → Option (CallCtx F)
  | .nil, ctx => some ctx
  | .cons head tail, ctx => (head.feed (tail.encode ++ after) ctx).bind (tail.feed after)

def Pairs.feed (after : Str) : Pairs → CallCtx F → Option (CallCtx F)
  | .nil, ctx => some ctx
  | .cons key value tail, ctx => (key.feed (value.encode ++ (tail.encode ++ after)) ctx).bind fun named =>
    (value.feed (tail.encode ++ after) named).bind (tail.feed after)

end

omit [DecidableEq F] in
theorem parseCollection_feed {parse : Str → CallCtx F → Parse F} {width n : Nat} {start finish fill : CallCtx F → Option (CallCtx F)}
    {location after : Str} (small : n < 2^63)
    (elements : ∀ opened, parseTimes parse (width * n) location opened = (fill opened).map fun next => (after,next)) (ctx : CallCtx F) :
    parseCollection parse width start finish n location ctx =
      ((start ctx).bind fun opened => (fill opened).bind finish).map fun next => (after,next) := by
  rw [parseCollection,wrap_length small]
  cases start ctx with
  | none => rfl
  | some opened =>
    rw [Option.bind_some,Option.bind_some,elements]
    cases fill opened with
    | none => rfl
    | some filled => rfl

mutual

theorem parseReply_feed (r : Reply) (formed : r.wellFormed = true) (rounds : Nat) (enough : r.depth < rounds) (after : Str) (ctx : CallCtx F) :
    parseReply arith errno rounds (r.encode ++ after) ctx = (r.feed arith errno after ctx).map fun next => (after,next) := by
  obtain ⟨rounds,rfl⟩ : ∃ k, rounds = k + 1 := ⟨rounds - 1,by omega⟩
  cases r with
  | bulk s =>
    have small : s.length < 2^63 := of_decide_eq_true formed
    change parseBulk arith (decimal s.length ++ crlf ++ s ++ crlf ++ after) ctx = _
    rw [parseBulk,List.append_assoc,List.append_assoc,header_length small]
    simp [Reply.feed,crlf]
  | nullBulk =>
    rfl
  | simple s =>
    change parseSimpleString arith (s ++ crlf ++ after) ctx = _
    rw [parseSimpleString,line_isText formed]
    rfl
  | error s =>
    change parseError errno (s ++ crlf ++ after) ctx = _
    rw [parseError,line_isText formed]
    rfl
  | integer v =>
    obtain ⟨low,high⟩ := of_decide_eq_true formed
    change parseLong arith (decimal v ++ crlf ++ after) ctx = _
    rw [parseLong,header_decimal low high]
    rfl
  | nullArray =>
    rfl
  | null =>
    rfl
  | bool b =>
    cases b <;> rfl
  | double text =>
    obtain ⟨fitsLine,short⟩ := and_eq_true_iff.mp formed
    change parseDouble arith (text ++ crlf ++ after) ctx = _
    rw [parseDouble,line_isText fitsLine,Option.bind_some]
    dsimp only
    rw [if_pos (of_decide_eq_true short)]
    rfl
  | bigNumber s =>
    change parseBigNumber arith (s ++ crlf ++ after) ctx = _
    rw [parseBigNumber,line_isText formed]
    rfl
  | verbatim format s =>
    obtain ⟨three,small⟩ := of_decide_eq_true formed
    change parseVerbatimString arith (decimal ((s.length + 4 : Nat) : Int) ++ crlf ++ (format ++ bytes ":" ++ s) ++ crlf ++ after) ctx = _
    have first : (format ++ bytes ":" ++ s).take 3 = format := by rw [List.append_assoc,← three,List.take_left]
    have body : (format ++ bytes ":" ++ s).drop 4 = s := by
      have four : (format ++ bytes ":").length = 4 := by rw [List.length_append,three]; rfl
      rw [← four,List.drop_left]
    have length : (format ++ bytes ":" ++ s).length = s.length + 4 := by
      simp [bytes]
      omega
    rw [parseVerbatimString,List.append_assoc,List.append_assoc,header_length small,Option.bind_some]
    generalize format ++ bytes ":" ++ s = text at first body length
    dsimp only
    rw [if_neg (by simp [crlf]; omega),Int.toNat_natCast,← length,List.take_left,body,List.take_append_of_le_length (by omega),first]
    simp [Reply.feed,crlf]
  | array items =>
    obtain ⟨small,formed⟩ := and_eq_true_iff.mp formed
    change parseArray arith (parseReply arith errno rounds) (decimal items.length ++ crlf ++ items.encode ++ after) ctx = _
    rw [parseArray,List.append_assoc,header_length (of_decide_eq_true small)]
    apply parseCollection_feed (of_decide_eq_true small)
    intro opened
    rw [one_mul]
    exact parseItems_feed items formed rounds (lt_of_succ_lt_succ enough) after opened
  | set items =>
    obtain ⟨formed,_⟩ := and_eq_true_iff.mp formed
    obtain ⟨small,formed⟩ := and_eq_true_iff.mp formed
    change parseSet arith (parseReply arith errno rounds) (decimal items.length ++ crlf ++ items.encode ++ after) ctx = _
    rw [parseSet,List.append_assoc,header_length (of_decide_eq_true small)]
    apply parseCollection_feed (of_decide_eq_true small)
    intro opened
    rw [one_mul]
    exact parseItems_feed items formed rounds (lt_of_succ_lt_succ enough) after opened
  | map pairs =>
    obtain ⟨small,formed⟩ := and_eq_true_iff.mp formed
    change parseMap arith (parseReply arith errno rounds) (decimal pairs.length ++ crlf ++ pairs.encode ++ after) ctx = _
    rw [parseMap,List.append_assoc,header_length (of_decide_eq_true small)]
    apply parseCollection_feed (of_decide_eq_true small)
    exact parsePairs_feed pairs formed rounds (lt_of_succ_lt_succ enough) after

theorem parseItems_feed (items : Replies) (formed : items.wellFormed = true) (rounds : Nat) (enough : items.depth < rounds) (after : Str)
    (ctx : CallCtx F) : parseTimes (parseReply arith errno rounds) items.length (items.encode ++ after) ctx =
      (items.feed arith errno after ctx).map fun next => (after,next) := by
  cases items with
  | nil => rfl
  | cons head tail =>
    obtain ⟨formed,formeds⟩ := and_eq_true_iff.mp formed
    obtain ⟨deep,deeps⟩ := max_lt_iff.mp enough
    rw [Replies.length,parseTimes,Replies.encode,List.append_assoc,parseReply_feed head formed rounds deep,Replies.feed]
    cases head.feed arith errno (tail.encode ++ after) ctx with
    | none => rfl
    | some next => exact parseItems_feed tail formeds rounds deeps after next

theorem parsePairs_feed (pairs : Pairs) (formed : pairs.wellFormed = true) (rounds : Nat) (enough : pairs.depth < rounds) (after : Str)
    (ctx : CallCtx F) : parseTimes (parseReply arith errno rounds) (2 * pairs.length) (pairs.encode ++ after) ctx =
      (pairs.feed arith errno after ctx).map fun next => (after,next) := by
  cases pairs with
  | nil => rfl
  | cons key value tail =>
    obtain ⟨formed,formeds⟩ := and_eq_true_iff.mp formed
    obtain ⟨formed,valueFormed⟩ := and_eq_true_iff.mp formed
    obtain ⟨keyDeep,deeps⟩ := max_lt_iff.mp enough
    obtain ⟨valueDeep,deeps⟩ := max_lt_iff.mp deeps
    rw [Pairs.length,mul_add,mul_one,parseTimes,Pairs.encode,List.append_assoc,List.append_assoc,
      parseReply_feed key (and_eq_true_iff.mp formed).1 rounds keyDeep,Pairs.feed]
    cases key.feed arith errno (value.encode ++ (tail.encode ++ after)) ctx with
    | none => rfl
    | some named =>
      rw [Option.map_some,Option.bind_some,Option.bind_some]
      dsimp only
      rw [parseTimes,parseReply_feed value valueFormed rounds valueDeep]
      cases value.feed arith errno (tail.encode ++ after) named with
      | none => rfl
      | some next => exact parsePairs_feed tail formeds rounds deeps after next

end

end

section
variable {F : Type} {type : CollectionType} {ctx opened : CallCtx F} {level : Level} {outer : List Level}

theorem openLevel_eq_some (opens : ctx.openLevel type = some opened) : opened.stack = ctx.stack ∧ opened.room = ctx.room ∧
    opened.strayed = ctx.strayed ∧ opened.levels = ⟨type,0,ctx.stack.length - 1⟩::ctx.levels := by
  unfold openLevel at opens
  split at opens
  · cases opens
    refine ⟨rfl,rfl,rfl,?_⟩
    simp only [CallCtx.levels,levelsOf,update_self]
    apply congrArg (_::·)
    apply levelsOf_congr
    intro l lower
    have other := Nat.ne_of_lt lower
    exact ⟨update_of_ne other ..,update_of_ne other ..,update_of_ne other ..⟩
  · cases opens

theorem openLevel_some (ctx : CallCtx F) (type : CollectionType) (shallow : ctx.levels.length < maxNestedCollectionsDepth) :
    ∃ opened, ctx.openLevel type = some opened ∧ opened.stack = ctx.stack ∧ opened.room = ctx.room ∧
      opened.strayed = ctx.strayed ∧ opened.levels = ⟨type,0,ctx.stack.length - 1⟩::ctx.levels :=
  have opens := if_pos (length_levels ctx ▸ shallow)
  ⟨_,opens,openLevel_eq_some opens⟩

theorem closeLevel_levels (inside : ctx.levels = level::outer) : ctx.closeLevel.levels = outer := by
  obtain ⟨l,depth,-,-,-,below⟩ := levels_cons inside
  rw [← below]
  change levelsOf _ _ _ (ctx.inCollection - 1) = _
  rw [depth]
  rfl

theorem slot_innermost (inside : ctx.levels = level::outer) : ctx.slot (ctx.inCollection - 1) = level.slot := by
  obtain ⟨l,depth,-,-,slot,-⟩ := levels_cons inside
  rw [depth,← slot]
  rfl

variable {begun : CallCtx F}

theorem openArray_stands (aimed : begun.strayed = false) (shallow : begun.levels.length < maxNestedCollectionsDepth)
    (fits : begun.stack.length + 3 ≤ maxCStack) :
    ∃ opened, begun.openArray = some opened ∧
      Stands (.array 0 []) begun.stack begun.levels (max begun.room (begun.stack.length + 3)) opened := by
  have room : begun.stack.length + 3 ≤ max begun.room (begun.stack.length + 3) := le_max_right _ _
  rw [openArray,checkstack_some fits,Option.bind_some,push_holding _ (by omega)]
  obtain ⟨opened,opens,stack,wide,strayed,levels⟩ := openLevel_some (begun.holding (.table []::begun.stack) _) .array shallow
  exact ⟨opened,opens,stack,levels,le_of_eq wide.symm,strayed.trans aimed,room⟩

theorem openWrapped_stands (name : String) {place : Place F}
    (shape : place = .set 0 [] ∧ type = .set ∨ place = .key 0 [] ∧ type = .map) (aimed : begun.strayed = false)
    (shallow : begun.levels.length < maxNestedCollectionsDepth) (fits : begun.stack.length + 3 ≤ maxCStack) :
    ∃ opened, begun.openWrapped type name = some opened ∧
      Stands place (.string (bytes name)::.table []::begun.stack) begun.levels (max begun.room (begun.stack.length + 3)) opened := by
  rw [openWrapped,checkstack_some fits,Option.bind_some,push_holding _ (by omega),Option.bind_some,
    push_holding _ (by rw [length_cons]; omega),Option.bind_some,
    push_holding _ (by rw [length_cons,length_cons]; omega),Option.bind_some]
  obtain ⟨opened,opens,stack,wide,strayed,levels⟩ := openLevel_some
    (begun.holding (.table []::.string (bytes name)::.table []::begun.stack) (max begun.room (begun.stack.length + 3))) type shallow
  rcases shape with ⟨rfl,rfl⟩ | ⟨rfl,rfl⟩
  · exact ⟨opened,opens,stack,levels,le_of_eq wide.symm,strayed.trans aimed,trivial⟩
  · exact ⟨opened,opens,stack,levels,le_of_eq wide.symm,strayed.trans aimed,trivial⟩

end

section
variable {F : Type} [DecidableEq F] (arith : Arithmetic F) {place : Place F} {rest : List (Value F)} {outer : List Level} {bound : Nat}
  {ctx : CallCtx F}

theorem Stands.length_levels (stands : Stands place rest outer bound ctx) {v : Value F} {next : CallCtx F}
    (levels : next.levels = (place.after arith v).levels rest.length outer) : next.levels.length = ctx.levels.length := by
  rw [levels,stands.levels]
  cases place <;> rfl

omit [DecidableEq F] in
theorem Stands.length_le (stands : Stands place rest outer bound ctx) : ctx.stack.length ≤ rest.length + 2 := by
  rw [stands.stack]
  cases place <;> simp [Place.stack]

def Fills (fill : CallCtx F → Option (CallCtx F)) (first last : Place F) (ctx : CallCtx F) : Prop :=
  ∀ opened rest' outer' bound', rest'.length ≤ ctx.stack.length + 3 → outer'.length = ctx.levels.length →
    Stands first rest' outer' bound' opened → ∃ filled, fill opened = some filled ∧ Stands last rest' outer' bound' filled

variable {fill : CallCtx F → Option (CallCtx F)} {fields : List (Value F × Value F)} {n : Nat}

theorem collect_array (stands : Stands place rest outer bound ctx) (accepted : place.Accepts (.table fields))
    (shallow : ctx.levels.length < maxNestedCollectionsDepth) (fits : ctx.stack.length + 4 ≤ maxCStack)
    (fills : Fills fill (.array 0 []) (.array n fields) ctx) :
    ∃ next, ((arrayStartCallback arith ctx).bind fun opened => (fill opened).bind arrayEndCallback) = some next ∧
      Stands (place.after arith (.table fields)) rest outer bound next := by
  obtain ⟨begun,begin,stack,levels,room,aimed⟩ := stands.begun arith accepted
  have height := stands.length_begun stack
  have depth := stands.length_levels arith levels
  obtain ⟨opened,opens,inner⟩ := openArray_stands aimed (by omega) (by omega)
  obtain ⟨filled,full,final⟩ := fills opened _ _ _ (by omega) depth inner
  rw [arrayStartCallback,begin,Option.bind_some,opens,Option.bind_some,full]
  have wide : bound ≤ filled.room := le_trans (room ▸ stands.room) (le_trans (le_max_left _ _) final.room)
  exact stands.ended accepted (final.stack.trans (congrArg (_::·) stack)) ((closeLevel_levels final.levels).trans levels) wide final.aimed
    (by omega)

theorem collect_wrapped {type : CollectionType} (name : String) {first last : Place F}
    (shape : first = .set 0 [] ∧ type = .set ∨ first = .key 0 [] ∧ type = .map)
    (full : last = .set n fields ∨ last = .key n fields)
    (stands : Stands place rest outer bound ctx) (accepted : place.Accepts (single name (.table fields)))
    (shallow : ctx.levels.length < maxNestedCollectionsDepth) (fits : ctx.stack.length + 4 ≤ maxCStack) (fills : Fills fill first last ctx) :
    ∃ next, (((processCollectionElementBegin arith ctx).bind (openWrapped type name)).bind fun opened =>
        (fill opened).bind wrappedEndCallback) = some next ∧
      Stands (place.after arith (single name (.table fields))) rest outer bound next := by
  obtain ⟨begun,begin,stack,levels,room,aimed⟩ := stands.begun arith accepted
  have height := stands.length_begun stack
  have depth := stands.length_levels arith levels
  obtain ⟨opened,opens,inner⟩ := openWrapped_stands name shape aimed (by omega) (by omega)
  obtain ⟨filled,filling,final⟩ := fills opened _ _ _ (by simp only [length_cons]; omega) depth inner
  obtain ⟨level,inside,slot,top⟩ : ∃ level, filled.levels = level::begun.levels ∧ level.slot = begun.stack.length + 2 ∧
      filled.stack = .table fields::.string (bytes name)::.table []::begun.stack := by
    rcases full with rfl | rfl
    · exact ⟨_,final.levels,rfl,final.stack⟩
    · exact ⟨_,final.levels,rfl,final.stack⟩
  have wrapped : filled.wrappedEndCallback =
      processCollectionElementEnd (filled.holding (single name (.table fields)::begun.stack) filled.room).closeLevel := by
    rw [wrappedEndCallback,slot_innermost inside,slot,Nat.add_sub_cancel,settable_some top rfl rfl]
    rfl
  rw [begin,Option.bind_some,opens,Option.bind_some,filling,Option.bind_some,wrapped]
  have wide : bound ≤ filled.room := le_trans (room ▸ stands.room) (le_trans (le_max_left _ _) final.room)
  have closed : (filled.holding (single name (.table fields)::begun.stack) filled.room).closeLevel.levels = begun.levels :=
    closeLevel_levels inside
  exact stands.ended accepted (congrArg (_::·) stack) (closed.trans levels) wide final.aimed (by omega)

def Replies.along (place : Place F) : Replies → Place F
  | .nil => place
  | .cons head tail => tail.along (place.after arith (head.translate arith))

def Replies.Accepted (place : Place F) : Replies → Prop
  | .nil => True
  | .cons head tail => place.Accepts (head.translate arith) ∧ tail.Accepted (place.after arith (head.translate arith))

def Pairs.along (place : Place F) : Pairs → Place F
  | .nil => place
  | .cons key value tail => tail.along ((place.after arith (key.translate arith)).after arith (value.translate arith))

theorem Replies.along_array : ∀ (items : Replies) (n : Nat) (fields : List (Value F × Value F)), items.Accepted arith (.array n fields) ∧
    ∃ n', items.along arith (.array n fields) = .array n' (items.arrayFields arith n fields)
  | .nil, n, _ => ⟨trivial,n,rfl⟩
  | .cons _ tail, n, _ =>
    have ⟨accepted,along⟩ := along_array tail (n + 1) _
    ⟨⟨trivial,accepted⟩,along⟩

theorem Replies.along_set : ∀ (items : Replies) (n : Nat) (fields : List (Value F × Value F)), items.noNull = true →
    items.Accepted arith (.set n fields) ∧ ∃ n', items.along arith (.set n fields) = .set n' (items.setFields arith fields)
  | .nil, n, _, _ => ⟨trivial,n,rfl⟩
  | .cons head tail, n, _, present => by
    obtain ⟨present,presents⟩ := and_eq_true_iff.mp present
    obtain ⟨accepted,along⟩ := along_set tail (n + 1) _ presents
    refine ⟨⟨?_,accepted⟩,along⟩
    change (head.translate arith).isNil = false
    rwa [isNil_translate,← not_eq_true']

theorem Pairs.along_key : ∀ (pairs : Pairs) (n : Nat) (fields : List (Value F × Value F)),
    ∃ n', pairs.along arith (.key n fields) = .key n' (pairs.mapFields arith fields)
  | .nil, n, _ => ⟨n,rfl⟩
  | .cons _ _ tail, n, _ => along_key tail (n + 1) _

variable (errno : Errno)

mutual

theorem Reply.feed_put (r : Reply) (clean : r.errors = 0) (formed : r.wellFormed = true) (after : Str) (ctx : CallCtx F) (place : Place F)
    (rest : List (Value F)) (outer : List Level) (bound : Nat) (stands : Stands place rest outer bound ctx)
    (accepted : place.Accepts (r.translate arith)) (shallow : ctx.levels.length + r.depth ≤ maxNestedCollectionsDepth)
    (fits : ctx.stack.length + 5 * r.depth + 8 ≤ maxCStack) :
    ∃ next, r.feed arith errno after ctx = some next ∧ Stands (place.after arith (r.translate arith)) rest outer bound next := by
  have value : ∀ v, v = r.translate arith → ∃ next, deliver arith (pushValue v) ctx = some next ∧
      Stands (place.after arith (r.translate arith)) rest outer bound next := by
    rintro v rfl
    exact stands.deliver arith accepted (fun begun short => pushValue_builds _ (by omega)) (by omega)
  have field : ∀ name v, v.isNil = false → single name v = r.translate arith → ∃ next, deliver arith (pushField name v) ctx = some next ∧
      Stands (place.after arith (r.translate arith)) rest outer bound next := by
    intro name v filled same
    rw [← same] at accepted ⊢
    exact stands.deliver arith accepted (fun begun short => pushField_builds name filled (by omega)) (by omega)
  cases r with
  | bulk _ | nullBulk | integer _ | nullArray | null | bool _ => exact value _ rfl
  | simple s => exact field "ok" _ rfl rfl
  | error s => exact nomatch clean
  | double text => exact field "double" _ rfl rfl
  | bigNumber s => exact field "big_number" _ rfl rfl
  | verbatim format s => exact stands.deliver arith accepted (fun begun short => pushVerbatim_builds s format (by omega)) (by omega)
  | array items =>
    have formed := (and_eq_true_iff.mp formed).2
    have deep : items.depth + 1 = (Reply.array items).depth := rfl
    obtain ⟨accepts,n,along⟩ := items.along_array arith 0 []
    refine collect_array (n := n) arith stands accepted (by omega) (by omega) fun opened rest' outer' bound' high level inner => ?_
    have depth : opened.levels.length = ctx.levels.length + 1 := by rw [inner.levels,← level]; rfl
    rw [← along]
    exact items.feed_put clean formed after opened _ rest' outer' bound' inner accepts (by omega) (by omega)
  | set items =>
    obtain ⟨formed,present⟩ := and_eq_true_iff.mp formed
    have formed := (and_eq_true_iff.mp formed).2
    have deep : items.depth + 1 = (Reply.set items).depth := rfl
    obtain ⟨accepts,n,along⟩ := items.along_set arith 0 [] present
    refine collect_wrapped (n := n) arith "set" (.inl ⟨rfl,rfl⟩) (.inl rfl) stands accepted (by omega) (by omega)
      fun opened rest' outer' bound' high level inner => ?_
    have depth : opened.levels.length = ctx.levels.length + 1 := by rw [inner.levels,← level]; rfl
    rw [← along]
    exact items.feed_put clean formed after opened _ rest' outer' bound' inner accepts (by omega) (by omega)
  | map pairs =>
    have formed := (and_eq_true_iff.mp formed).2
    have deep : pairs.depth + 1 = (Reply.map pairs).depth := rfl
    obtain ⟨n,along⟩ := pairs.along_key arith 0 []
    refine collect_wrapped (n := n) arith "map" (.inr ⟨rfl,rfl⟩) (.inr rfl) stands accepted (by omega) (by omega)
      fun opened rest' outer' bound' high level inner => ?_
    have depth : opened.levels.length = ctx.levels.length + 1 := by rw [inner.levels,← level]; rfl
    rw [← along]
    exact pairs.feed_put clean formed after opened _ _ rest' outer' bound' inner (by omega) (by omega)

theorem Replies.feed_put (items : Replies) (clean : items.errors = 0) (formed : items.wellFormed = true) (after : Str) (ctx : CallCtx F)
    (place : Place F) (rest : List (Value F)) (outer : List Level) (bound : Nat) (stands : Stands place rest outer bound ctx)
    (accepted : items.Accepted arith place) (shallow : ctx.levels.length + items.depth ≤ maxNestedCollectionsDepth)
    (fits : rest.length + 5 * items.depth + 10 ≤ maxCStack) :
    ∃ next, items.feed arith errno after ctx = some next ∧ Stands (items.along arith place) rest outer bound next := by
  cases items with
  | nil => exact ⟨ctx,rfl,stands⟩
  | cons head tail =>
    obtain ⟨clean,cleans⟩ := Nat.add_eq_zero_iff.mp clean
    obtain ⟨formed,formeds⟩ := and_eq_true_iff.mp formed
    obtain ⟨accepted,accepteds⟩ := accepted
    have low := stands.length_le
    obtain ⟨deep,deeps⟩ := max_le_iff.mp (le_refl (Replies.cons head tail).depth)
    obtain ⟨middle,fed,moved⟩ := head.feed_put clean formed (tail.encode ++ after) ctx place rest outer bound stands accepted
      (by omega) (by omega)
    have same := stands.length_levels arith moved.levels
    obtain ⟨next,feds,final⟩ := tail.feed_put cleans formeds after middle _ rest outer bound moved accepteds (by omega) (by omega)
    refine ⟨next,?_,final⟩
    rw [Replies.feed,fed]
    exact feds

theorem Pairs.feed_put (pairs : Pairs) (clean : pairs.errors = 0) (formed : pairs.wellFormed = true) (after : Str) (ctx : CallCtx F)
    (n : Nat) (fields : List (Value F × Value F)) (rest : List (Value F)) (outer : List Level) (bound : Nat)
    (stands : Stands (.key n fields) rest outer bound ctx) (shallow : ctx.levels.length + pairs.depth ≤ maxNestedCollectionsDepth)
    (fits : rest.length + 5 * pairs.depth + 10 ≤ maxCStack) :
    ∃ next, pairs.feed arith errno after ctx = some next ∧ Stands (pairs.along arith (.key n fields)) rest outer bound next := by
  cases pairs with
  | nil => exact ⟨ctx,rfl,stands⟩
  | cons key value tail =>
    obtain ⟨keyClean,cleans⟩ := Nat.add_eq_zero_iff.mp clean
    obtain ⟨valueClean,cleans⟩ := Nat.add_eq_zero_iff.mp cleans
    obtain ⟨formed,formeds⟩ := and_eq_true_iff.mp formed
    obtain ⟨formed,valueFormed⟩ := and_eq_true_iff.mp formed
    obtain ⟨keyFormed,present⟩ := and_eq_true_iff.mp formed
    have accepted : (key.translate arith).isNil = false := by rwa [isNil_translate,← not_eq_true']
    obtain ⟨keyDeep,deeps⟩ := max_le_iff.mp (le_refl (Pairs.cons key value tail).depth)
    have low := stands.length_le
    obtain ⟨named,keyFed,atValue⟩ := key.feed_put keyClean keyFormed (value.encode ++ (tail.encode ++ after)) ctx _ rest outer bound stands
      accepted (by omega) (by omega)
    have tall := atValue.length_le
    have same := stands.length_levels arith atValue.levels
    obtain ⟨filled,valueFed,atKey⟩ := value.feed_put valueClean valueFormed (tail.encode ++ after) named _ rest outer bound atValue trivial
      (by omega) (by omega)
    have back := atValue.length_levels arith atKey.levels
    obtain ⟨next,feds,final⟩ := tail.feed_put cleans formeds after filled _ _ rest outer bound atKey (by omega) (by omega)
    refine ⟨next,?_,final⟩
    rw [Pairs.feed,keyFed,Option.bind_some,valueFed]
    exact feds

end

end

end ValkeyWasm.Lua

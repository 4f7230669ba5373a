import ValkeyWasm.Lua.Delivery

/-! Errors inside collections: the error callback leaves a value on the stack that no table takes, so the stack grows
by one for each of them. -/

namespace ValkeyWasm.Lua
open List Option
open Util (Str)
open CallCtx

section
variable {F : Type}

/-- A step that changes the height of the stack by `k` and no level. -/
structure Raises (k : Int) (ctx next : CallCtx F) : Prop where
  levels : next.levels = ctx.levels
  height : (next.stack.length : Int) = ctx.stack.length + k

namespace Raises
variable {ctx middle next : CallCtx F}

theorem trans {j k : Int} (first : Raises j ctx middle) (second : Raises k middle next) : Raises (j + k) ctx next :=
  ⟨second.levels.trans first.levels,by rw [second.height,first.height,add_assoc]⟩

variable {v : Value F}

theorem push (pushed : ctx.push v = some next) : Raises 1 ctx next := by
  unfold CallCtx.push at pushed
  split at pushed
  · cases pushed
    exact ⟨rfl,by simp⟩
  · exact nomatch pushed

theorem checkstack {n : Nat} (checked : ctx.checkstack n = some next) : Raises 0 ctx next := by
  unfold CallCtx.checkstack at checked
  split at checked
  · exact nomatch checked
  · cases checked
    exact ⟨rfl,by simp⟩

theorem pushValue (pushed : ctx.pushValue v = some next) : Raises 1 ctx next := by
  obtain ⟨checked,first,second⟩ := bind_eq_some_iff.mp pushed
  exact (checkstack first).trans (push second)

variable [DecidableEq F] {target : Nat}

theorem settable (set : ctx.settable target = some next) : Raises (-2) ctx next := by
  unfold CallCtx.settable at set
  split at set
  · rename_i value key fields rest stack
    split at set
    · exact nomatch set
    cases set
    refine ⟨rfl,?_⟩
    simp only [stack,length_cons]
    omega
  · exact nomatch set

variable {name : String}

theorem setField (set : ctx.setField target name v = some next) : Raises 0 ctx next := by
  obtain ⟨named,first,rest⟩ := bind_eq_some_iff.mp set
  obtain ⟨valued,second,third⟩ := bind_eq_some_iff.mp rest
  exact (push first).trans ((push second).trans (settable third))

theorem pushField (pushed : ctx.pushField name v = some next) : Raises 1 ctx next := by
  obtain ⟨checked,first,rest⟩ := bind_eq_some_iff.mp pushed
  obtain ⟨made,second,third⟩ := bind_eq_some_iff.mp rest
  exact (checkstack first).trans ((push second).trans (setField third))

theorem pushVerbatim {str format : Str} (pushed : ctx.pushVerbatim str format = some next) : Raises 1 ctx next := by
  obtain ⟨checked,first,rest⟩ := bind_eq_some_iff.mp pushed
  obtain ⟨outer,second,rest⟩ := bind_eq_some_iff.mp rest
  obtain ⟨named,third,rest⟩ := bind_eq_some_iff.mp rest
  obtain ⟨inner,fourth,rest⟩ := bind_eq_some_iff.mp rest
  obtain ⟨string,fifth,rest⟩ := bind_eq_some_iff.mp rest
  obtain ⟨both,sixth,last⟩ := bind_eq_some_iff.mp rest
  exact (checkstack first).trans ((push second).trans ((push third).trans ((push fourth).trans
    ((setField fifth).trans ((setField sixth).trans (settable last))))))

theorem errorCallback {errno : Errno} {msg : Str} (called : ctx.errorCallback errno msg = some next) : Raises 1 ctx next := by
  obtain ⟨checked,first,rest⟩ := bind_eq_some_iff.mp called
  obtain ⟨made,second,rest⟩ := bind_eq_some_iff.mp rest
  obtain ⟨named,third,rest⟩ := bind_eq_some_iff.mp rest
  obtain ⟨done,fourth,rfl⟩ := map_eq_some_iff.mp rest
  obtain ⟨levels,height⟩ := (checkstack first).trans ((push second).trans ((setField third).trans (setField fourth)))
  exact ⟨levels,height⟩

end Raises

/-- A key of a map waits on the stack for its value. -/
def pending : List Level → Nat
  | ⟨.map,n,_⟩::_ => n % 2
  | _ => 0

def recount (n : Nat) : List Level → List Level
  | [] => []
  | level::outer => {level with count := n}::outer

/-- The stack, without a waiting key, has grown by at least `gain`. -/
structure Grows (gain : Nat) (ctx next : CallCtx F) : Prop where
  levels : ∃ n, next.levels = recount n ctx.levels
  height : ctx.stack.length + pending next.levels + gain ≤ next.stack.length + pending ctx.levels

namespace Grows
variable {ctx middle next : CallCtx F}

theorem of_raises (raised : Raises 1 ctx next) : Grows 1 ctx next := by
  obtain ⟨levels,height⟩ := raised
  refine ⟨⟨(ctx.levels.head?.map Level.count).getD 0,?_⟩,?_⟩
  · rw [levels]
    cases ctx.levels <;> rfl
  · rw [levels]
    omega

theorem refl (ctx : CallCtx F) : Grows 0 ctx ctx := by
  refine ⟨⟨(ctx.levels.head?.map Level.count).getD 0,?_⟩,le_rfl⟩
  cases ctx.levels <;> rfl

theorem trans {j k : Nat} (first : Grows j ctx middle) (second : Grows k middle next) : Grows (j + k) ctx next := by
  obtain ⟨⟨m,early⟩,low⟩ := first
  obtain ⟨⟨n,late⟩,high⟩ := second
  refine ⟨⟨n,?_⟩,by omega⟩
  rw [late,early]
  cases ctx.levels <;> rfl

theorem inside (grown : Grows gain ctx next) (inside : ctx.levels ≠ []) : next.levels ≠ [] := by
  obtain ⟨⟨n,levels⟩,-⟩ := grown
  rw [levels]
  cases same : ctx.levels with
  | nil => exact absurd same inside
  | cons => exact cons_ne_nil _ _

def expected : List Level → Nat
  | [] => 1
  | _::_ => 0

variable [DecidableEq F] {arith : Arithmetic F} {gain : Nat}

theorem deliver (gain : Nat) {begun built : CallCtx F} (begin : processCollectionElementBegin arith ctx = some begun)
    (levels : built.levels = begun.levels) (height : begun.stack.length + 1 + gain ≤ built.stack.length)
    (finish : processCollectionElementEnd built = some next) : Grows (gain + expected ctx.levels) ctx next := by
  cases within : ctx.levels with
  | nil =>
    rw [begin_nil arith within] at begin
    cases begin
    rw [end_nil (levels.trans within)] at finish
    cases finish
    refine ⟨⟨0,by rw [levels,within]; rfl⟩,?_⟩
    rw [levels,expected]
    omega
  | cons level outer =>
    obtain ⟨counted,here,-,begins⟩ := begin_cons arith within
    obtain ⟨same,high⟩ : begun.levels = {level with count := level.count + 1}::outer ∧
        begun.stack.length = ctx.stack.length + if level.type = .array then 1 else 0 := by
      rw [begin] at begins
      split at begins
      · rename_i array
        obtain ⟨levels,high⟩ := Raises.push begins.symm
        rw [if_pos array]
        exact ⟨levels.trans here,Int.ofNat.inj high⟩
      rename_i other
      cases begins
      rw [if_neg other]
      exact ⟨here,rfl⟩
    rw [end_cons (levels.trans same)] at finish
    -- the type of the collection decides what the end takes off the stack
    obtain ⟨type,count,slot⟩ := level
    suffices after : next.levels = built.levels ∧ ctx.stack.length + pending (⟨type,count + 1,slot⟩::outer) + gain ≤
        next.stack.length + pending (⟨type,count,slot⟩::outer) by
      have final := after.1.trans (levels.trans same)
      refine ⟨⟨count + 1,by rw [final,within]; rfl⟩,?_⟩
      rw [final,within]
      exact after.2
    cases type with
    | array =>
      obtain ⟨last,low⟩ := Raises.settable finish
      simp only [if_pos,pending] at high ⊢
      exact ⟨last,by omega⟩
    | set =>
      obtain ⟨checked,first,rest⟩ := bind_eq_some_iff.mp finish
      obtain ⟨pushed,second,third⟩ := bind_eq_some_iff.mp rest
      obtain ⟨last,low⟩ := (Raises.checkstack first).trans ((Raises.push second).trans (Raises.settable third))
      simp only [pending] at ⊢
      exact ⟨last,by omega⟩
    | map =>
      simp only [if_false] at finish
      obtain ⟨last,low⟩ : next.levels = built.levels ∧ (next.stack.length : Int) = built.stack.length - 2 * ((count + 1 + 1) % 2 : Nat) := by
        split at finish
        · obtain ⟨last,low⟩ := Raises.settable finish
          exact ⟨last,by omega⟩
        · cases finish
          exact ⟨rfl,by omega⟩
      simp only [pending]
      exact ⟨last,by omega⟩

theorem of_deliver {build : CallCtx F → Option (CallCtx F)} (raises : ∀ begun built, build begun = some built → Raises 1 begun built)
    (delivered : CallCtx.deliver arith build ctx = some next) : Grows (expected ctx.levels) ctx next := by
  obtain ⟨begun,begin,rest⟩ := bind_eq_some_iff.mp delivered
  obtain ⟨built,builds,finish⟩ := bind_eq_some_iff.mp rest
  obtain ⟨levels,height⟩ := raises begun built builds
  have grown := Grows.deliver 0 begin levels (by omega) finish
  rwa [Nat.zero_add] at grown

theorem of_collection (open_ close : CallCtx F → Option (CallCtx F)) (k : Nat) {fill : CallCtx F → Option (CallCtx F)}
    (opens : ∀ begun opened, open_ begun = some opened → (∃ type slot, opened.levels = ⟨type,0,slot⟩::begun.levels) ∧
      opened.stack.length = begun.stack.length + k + 1)
    (closes : ∀ filled closed, close filled = some closed → Raises (-k) filled closed)
    (fills : ∀ opened filled, opened.levels ≠ [] → fill opened = some filled → Grows gain opened filled)
    (fed : (((processCollectionElementBegin arith ctx).bind open_).bind fun opened => (fill opened).bind fun filled =>
      (close filled).bind fun closed => closed.closeLevel.processCollectionElementEnd) = some next) :
    Grows (gain + expected ctx.levels) ctx next := by
  obtain ⟨opened,started,rest⟩ := bind_eq_some_iff.mp fed
  obtain ⟨begun,begin,opening⟩ := bind_eq_some_iff.mp started
  obtain ⟨filled,filling,rest⟩ := bind_eq_some_iff.mp rest
  obtain ⟨closed,closing,finish⟩ := bind_eq_some_iff.mp rest
  obtain ⟨⟨type,slot,fresh⟩,high⟩ := opens begun opened opening
  obtain ⟨⟨n,full⟩,height⟩ := fills opened filled (by rw [fresh]; exact cons_ne_nil _ _) filling
  obtain ⟨same,low⟩ := closes filled closed closing
  have none_waits : pending opened.levels = 0 := by
    rw [fresh]
    cases type <;> rfl
  rw [fresh] at full
  apply Grows.deliver gain begin (closeLevel_levels (same.trans full)) _ finish
  change begun.stack.length + 1 + gain ≤ closed.stack.length
  omega

end Grows

variable {begun opened : CallCtx F}

theorem openArray_raises (opens : begun.openArray = some opened) :
    (∃ type slot, opened.levels = ⟨type,0,slot⟩::begun.levels) ∧ opened.stack.length = begun.stack.length + 0 + 1 := by
  obtain ⟨checked,first,rest⟩ := bind_eq_some_iff.mp opens
  obtain ⟨made,second,third⟩ := bind_eq_some_iff.mp rest
  obtain ⟨levels,height⟩ := (Raises.checkstack first).trans (Raises.push second)
  obtain ⟨stack,-,-,deeper⟩ := openLevel_eq_some third
  exact ⟨⟨_,_,levels ▸ deeper⟩,by rw [stack]; omega⟩

theorem openWrapped_raises {type : CollectionType} {name : String} (opens : begun.openWrapped type name = some opened) :
    (∃ type slot, opened.levels = ⟨type,0,slot⟩::begun.levels) ∧ opened.stack.length = begun.stack.length + 2 + 1 := by
  obtain ⟨checked,first,rest⟩ := bind_eq_some_iff.mp opens
  obtain ⟨outer,second,rest⟩ := bind_eq_some_iff.mp rest
  obtain ⟨named,third,rest⟩ := bind_eq_some_iff.mp rest
  obtain ⟨inner,fourth,fifth⟩ := bind_eq_some_iff.mp rest
  obtain ⟨levels,height⟩ := (Raises.checkstack first).trans ((Raises.push second).trans ((Raises.push third).trans (Raises.push fourth)))
  obtain ⟨stack,-,-,deeper⟩ := openLevel_eq_some fifth
  exact ⟨⟨_,_,levels ▸ deeper⟩,by rw [stack]; omega⟩

end

def Reply.isError : Reply → Bool
  | .error _ => true
  | _ => false

def Reply.gain (r : Reply) (levels : List Level) : Nat := r.errors + if r.isError then 0 else Grows.expected levels

theorem Reply.gain_inside {r : Reply} {levels : List Level} (inside : levels ≠ []) : r.gain levels = r.errors := by
  cases levels with
  | nil => exact absurd rfl inside
  | cons => rw [Reply.gain,Grows.expected,ite_self,Nat.add_zero]

section
variable {F : Type} [DecidableEq F] (arith : Arithmetic F) (errno : Errno)

mutual

theorem Reply.feed_grows (r : Reply) (after : Str) (ctx next : CallCtx F) (fed : r.feed arith errno after ctx = some next) :
    Grows (r.gain ctx.levels) ctx next := by
  have leaf : ∀ build, r.isError = false → r.errors = 0 → (∀ begun built, build begun = some built → Raises 1 begun built) →
      deliver arith build ctx = some next → Grows (r.gain ctx.levels) ctx next := by
    intro build plain clean raises delivered
    rw [Reply.gain,plain,clean,Nat.zero_add]
    exact Grows.of_deliver raises delivered
  cases r with
  | bulk _ | nullBulk | integer _ | nullArray | null | bool _ => exact leaf _ rfl rfl (fun _ _ => Raises.pushValue) fed
  | simple _ | double _ | bigNumber _ => exact leaf _ rfl rfl (fun _ _ => Raises.pushField) fed
  | error s => exact Grows.of_raises (Raises.errorCallback fed)
  | verbatim format s => exact leaf _ rfl rfl (fun _ _ => Raises.pushVerbatim) fed
  | array items =>
    exact Grows.of_collection openArray some 0 (fun _ _ => openArray_raises)
      (fun filled closed same => by
        cases same
        exact ⟨rfl,by simp⟩)
      (items.feed_grows after) fed
  | set items =>
    exact Grows.of_collection (openWrapped .set "set") _ 2 (fun _ _ => openWrapped_raises) (fun _ _ => Raises.settable)
      (items.feed_grows after) fed
  | map pairs =>
    exact Grows.of_collection (openWrapped .map "map") _ 2 (fun _ _ => openWrapped_raises) (fun _ _ => Raises.settable)
      (pairs.feed_grows after) fed

theorem Replies.feed_grows (items : Replies) (after : Str) (ctx next : CallCtx F) (inside : ctx.levels ≠ [])
    (fed : items.feed arith errno after ctx = some next) : Grows items.errors ctx next := by
  cases items with
  | nil =>
    cases fed
    exact Grows.refl _
  | cons head tail =>
    obtain ⟨middle,first,rest⟩ := bind_eq_some_iff.mp fed
    have grown := head.feed_grows _ ctx middle first
    rw [Reply.gain_inside inside] at grown
    exact grown.trans (tail.feed_grows after middle next (grown.inside inside) rest)

theorem Pairs.feed_grows (pairs : Pairs) (after : Str) (ctx next : CallCtx F) (inside : ctx.levels ≠ [])
    (fed : pairs.feed arith errno after ctx = some next) : Grows pairs.errors ctx next := by
  cases pairs with
  | nil =>
    cases fed
    exact Grows.refl _
  | cons key value tail =>
    obtain ⟨named,first,rest⟩ := bind_eq_some_iff.mp fed
    obtain ⟨filled,second,rest⟩ := bind_eq_some_iff.mp rest
    have early := key.feed_grows _ ctx named first
    rw [Reply.gain_inside inside] at early
    have still := early.inside inside
    have late := value.feed_grows _ named filled second
    rw [Reply.gain_inside still] at late
    exact early.trans (late.trans (tail.feed_grows after filled next (late.inside still) rest))

end

end

end ValkeyWasm.Lua

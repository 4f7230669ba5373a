import ValkeyWasm.Library.Tower
import Mathlib.Order.Lattice

/-! The skip list of `t_zset.c`: nodes with forward links and spans at several levels.
A node is known by its address, the header by `none`; the links of all nodes at one level are one
column. A search that does not end is `none`, and so is a failed assertion. -/
namespace ValkeyWasm.Skiplist
open Library.Tower

variable {S E : Type} (c : Column Nat) (x : Option Nat) (level : Nat)

def maxLevel : Nat := 32

structure Zskiplist (S E : Type) where
  level : Nat → Column Nat
  score : Nat → S
  ele : Nat → E
  backward : Nat → Option Nat
  tail : Option Nat
  length : Int

/-- The span of level 0 is not stored: the field holds the height there. -/
def zslGetNodeSpanAtLevel : Int :=
  if 0 < level then (c x).span else if (c x).forward.isSome then 1 else 0

def zslSetNodeSpanAtLevel (span : Int) : Column Nat :=
  if 0 < level then Function.update c x { c x with span := span } else c

def zslIncrNodeSpanAtLevel (incr : Int) : Column Nat :=
  zslSetNodeSpanAtLevel c x level ((c x).span + incr)

def zslDecrNodeSpanAtLevel (decr : Int) : Column Nat :=
  zslSetNodeSpanAtLevel c x level ((c x).span - decr)

def setForward (x y : Option Nat) : Column Nat := Function.update c x { c x with forward := y }

namespace Zskiplist

variable (z : Zskiplist S E)

def onLevel (i : Nat) (f : Column Nat → Column Nat) : Zskiplist S E :=
  { z with level := Function.update z.level i (f (z.level i)) }

/-- A loop over levels, each round of which works on its own level. -/
def onLevels (levels : List Nat) (f : Nat → Column Nat → Column Nat) : Zskiplist S E :=
  levels.foldl (fun z i => z.onLevel i (f i)) z

def zslGetNodeHeight (x : Nat) : Nat := (z.level 0 (some x)).span.toNat

def zslSetNodeHeight (x : Nat) (height : Nat) : Zskiplist S E :=
  z.onLevel 0 fun c => Function.update c (some x) { c (some x) with span := height }

def zslGetHeight : Nat := (z.level 0 none).span.toNat

def zslSetHeight (height : Nat) : Zskiplist S E :=
  z.onLevel 0 fun c => Function.update c none { c none with span := height }

/-- The fields of a node that was not created have any values. -/
def zslCreate (score : Nat → S) (ele : Nat → E) (backward : Nat → Option Nat) (level : Nat → Nat → Link Nat) : Zskiplist S E :=
  zslSetHeight
    { level := fun i x => x.elim ⟨none,0⟩ (level i)
      score := score
      ele := ele
      backward := backward
      tail := none
      length := 0 }
    1

def zslCreateNode (x : Nat) (height : Nat) (score : S) (ele : E) : Zskiplist S E :=
  zslSetNodeHeight { z with score := Function.update z.score x score, ele := Function.update z.ele x ele } x height

/-- A null pointer comes after every node. -/
def zslCompareNodes [LinearOrder S] [LinearOrder E] (z : Zskiplist S E) (a b : Option Nat) : Ordering :=
  if a = b then .eq
  else
    match a, b with
    | none, _ => .gt
    | _, none => .lt
    | some a, some b =>
      if z.score b < z.score a then .gt
      else if z.score a < z.score b then .lt
      else compare (z.ele a) (z.ele b)

/-- The search at one level. Whether it goes on depends on the next node and on the rank there. -/
def walk (z : Zskiplist S E) (go : Int → Nat → Bool) (i : Nat) : Nat → Option Nat × Int → Option (Option Nat × Int)
  | 0, _ => none
  | rounds + 1, (x,rank) =>
    match (z.level i x).forward with
    | none => some (x,rank)
    | some y =>
      if go (rank + zslGetNodeSpanAtLevel (z.level i) x i) y then
        z.walk go i rounds (some y,rank + zslGetNodeSpanAtLevel (z.level i) x i)
      else some (x,rank)

/-- The search from level `i - 1` down: the last node and its rank, for the levels from 0 on. -/
def descend (z : Zskiplist S E) (go : Int → Nat → Bool) : Nat → Option Nat × Int → Option (List (Option Nat × Int))
  | 0, _ => some []
  | i + 1, x => do
    let x ← z.walk go i (z.length.toNat + 1) x
    let below ← z.descend go i x
    return below ++ [x]

def search (go : Int → Nat → Bool) : Option (List (Option Nat × Int)) :=
  z.descend go z.zslGetHeight (none,0)

def searchNode [LinearOrder S] [LinearOrder E] (z : Zskiplist S E) (node : Nat) : Option (List (Option Nat × Int)) :=
  z.search fun _ y => z.zslCompareNodes (some y) (some node) == .lt

end Zskiplist

variable (path : List (Option Nat × Int)) (i : Nat)

def updateAt : Option Nat := (path.getD i (none,0)).1

def rankAt : Int := (path.getD i (none,0)).2

def link (node : Nat) (i : Nat) (c : Column Nat) : Column Nat :=
  let update := updateAt path i
  let rank := rankAt path 0 - rankAt path i
  let c := setForward c (some node) (c update).forward
  let c := setForward c update (some node)
  let c := zslSetNodeSpanAtLevel c (some node) i (zslGetNodeSpanAtLevel c update i - rank)
  zslSetNodeSpanAtLevel c update i (rank + 1)

def unlink (x : Nat) (i : Nat) (c : Column Nat) : Column Nat :=
  let update := updateAt path i
  if (c update).forward = some x then
    let c := zslIncrNodeSpanAtLevel c update i (zslGetNodeSpanAtLevel c (some x) i - 1)
    setForward c update (c (some x)).forward
  else zslDecrNodeSpanAtLevel c update i 1

def shrink (level : Nat → Column Nat) : Nat → Nat
  | height + 2 => if (level (height + 1) none).forward = none then shrink level (height + 1) else height + 2
  | height => height

namespace Zskiplist

def raise (z : Zskiplist S E) (level : Nat) : Zskiplist S E :=
  if z.zslGetHeight < level then
    (z.onLevels (List.range' z.zslGetHeight (level - z.zslGetHeight)) fun i c => zslSetNodeSpanAtLevel c none i z.length).zslSetHeight level
  else z

def linkBack (z : Zskiplist S E) (node : Nat) (update : Option Nat) : Zskiplist S E :=
  let z := { z with backward := Function.update z.backward node update }
  match (z.level 0 (some node)).forward with
  | some next => { z with backward := Function.update z.backward next (some node) }
  | none => { z with tail := some node }

def unlinkBack (z : Zskiplist S E) (x : Nat) : Zskiplist S E :=
  match (z.level 0 (some x)).forward with
  | some next => { z with backward := Function.update z.backward next (z.backward x) }
  | none => { z with tail := z.backward x }

def insertAt (z : Zskiplist S E) (node : Nat) (path : List (Option Nat × Int)) : Zskiplist S E :=
  let level := z.zslGetNodeHeight node
  let path := path ++ List.replicate (level - z.zslGetHeight) (none,0)
  let z := z.raise level
  let z := z.onLevels (List.range level) (link path node)
  let z := z.onLevels (List.range' level (z.zslGetHeight - level)) fun i c => zslIncrNodeSpanAtLevel c (updateAt path i) i 1
  let z := z.linkBack node (updateAt path 0)
  { z with length := z.length + 1 }

def zslInsertNode [LinearOrder S] [LinearOrder E] (z : Zskiplist S E) (node : Nat) : Option (Zskiplist S E) := do
  let path ← z.searchNode node
  return z.insertAt node path

/-- The height is the choice of `zslRandomLevel`, the address that of the allocator. -/
def zslInsert [LinearOrder S] [LinearOrder E] (z : Zskiplist S E) (node : Nat) (level : Nat) (score : S) (ele : E) : Option (Zskiplist S E) :=
  (z.zslCreateNode node level score ele).zslInsertNode node

def zslDeleteNode (z : Zskiplist S E) (x : Nat) (path : List (Option Nat × Int)) : Zskiplist S E :=
  let z := z.onLevels (List.range z.zslGetHeight) (unlink path x)
  let z := z.unlinkBack x
  let z := z.zslSetHeight (shrink z.level z.zslGetHeight)
  { z with length := z.length - 1 }

def locate [LinearOrder S] [LinearOrder E] (z : Zskiplist S E) (node : Nat) : Option (List (Option Nat × Int)) := do
  let path ← z.searchNode node
  guard ((z.level 0 (updateAt path 0)).forward = some node)
  return path

def zslDelete [LinearOrder S] [LinearOrder E] (z : Zskiplist S E) (node : Nat) : Option (Zskiplist S E) := do
  let path ← z.locate node
  return z.zslDeleteNode node path

/-- The node may keep its place when the new score lies between its neighbours' scores. -/
def fits [LinearOrder S] (z : Zskiplist S E) (node : Nat) (newscore : S) : Bool :=
  (match z.backward node with
    | none => true
    | some x => decide (z.score x < newscore)) &&
  (match (z.level 0 (some node)).forward with
    | none => true
    | some x => decide (newscore < z.score x))

def zslUpdateScore [LinearOrder S] [LinearOrder E] (z : Zskiplist S E) (node : Nat) (newscore : S) : Option (Zskiplist S E) :=
  if z.fits node newscore then some { z with score := Function.update z.score node newscore }
  else do
    let path ← z.locate node
    let z := z.zslDeleteNode node path
    let z := { z with score := Function.update z.score node newscore }
    z.zslInsertNode node

def deleteWhile (z : Zskiplist S E) (path : List (Option Nat × Int)) (go : Nat → Nat → Bool) :
    Nat → Option Nat → List Nat → Option (Zskiplist S E × List Nat)
  | 0, _, _ => none
  | _ + 1, none, removed => some (z,removed)
  | rounds + 1, some x, removed =>
    if go removed.length x then
      (z.zslDeleteNode x path).deleteWhile path go rounds (z.level 0 (some x)).forward (removed ++ [x])
    else some (z,removed)

def deleteFrom (z : Zskiplist S E) (path : List (Option Nat × Int)) (go : Nat → Nat → Bool) : Option (Zskiplist S E × List Nat) :=
  z.deleteWhile path go (z.length.toNat + 1) (z.level 0 (updateAt path 0)).forward []

end Zskiplist

structure Zrangespec (S : Type) where
  min : S
  max : S
  minex : Bool
  maxex : Bool

def zslValueGteMin [LinearOrder S] (value : S) (spec : Zrangespec S) : Bool := if spec.minex then spec.min < value else spec.min ≤ value

def zslValueLteMax [LinearOrder S] (value : S) (spec : Zrangespec S) : Bool := if spec.maxex then value < spec.max else value ≤ spec.max

/-- A string or one of the two shared strings, which are known by their addresses. -/
inductive LexBound (E : Type) where
  | minstring
  | maxstring
  | value (e : E)
  deriving DecidableEq

structure Zlexrangespec (E : Type) where
  min : LexBound E
  max : LexBound E
  minex : Bool
  maxex : Bool

def sdscmplex [LinearOrder E] (a b : LexBound E) : Ordering :=
  match a, b with
  | .minstring, .minstring => .eq
  | .maxstring, .maxstring => .eq
  | .minstring, _ => .lt
  | _, .maxstring => .lt
  | .maxstring, _ => .gt
  | _, .minstring => .gt
  | .value a, .value b => compare a b

def zslLexValueGteMin [LinearOrder E] (value : E) (spec : Zlexrangespec E) : Bool :=
  if spec.minex then sdscmplex (.value value) spec.min == .gt else (sdscmplex (.value value) spec.min).isGE

def zslLexValueLteMax [LinearOrder E] (value : E) (spec : Zlexrangespec E) : Bool :=
  if spec.maxex then sdscmplex (.value value) spec.max == .lt else (sdscmplex (.value value) spec.max).isLE

namespace Zskiplist

def zslDeleteRangeByScore [LinearOrder S] (z : Zskiplist S E) (range : Zrangespec S) : Option (Zskiplist S E × List Nat) := do
  let path ← z.search fun _ y => !zslValueGteMin (z.score y) range
  z.deleteFrom path fun _ x => zslValueLteMax (z.score x) range

def zslDeleteRangeByLex [LinearOrder E] (z : Zskiplist S E) (range : Zlexrangespec E) : Option (Zskiplist S E × List Nat) := do
  let path ← z.search fun _ y => !zslLexValueGteMin (z.ele y) range
  z.deleteFrom path fun _ x => zslLexValueLteMax (z.ele x) range

/-- The ranks count from 1. -/
def zslDeleteRangeByRank (z : Zskiplist S E) (start stop : Nat) : Option (Zskiplist S E × List Nat) := do
  let path ← z.search fun rank _ => decide (rank < start)
  z.deleteFrom path fun removed _ => decide (rankAt path 0 + 1 + removed ≤ stop)

end Zskiplist

end ValkeyWasm.Skiplist

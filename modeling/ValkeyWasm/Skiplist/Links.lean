import ValkeyWasm.Skiplist.Search

/-! Nodes come and go, and the links stay right.
The loops over the levels are read level by level; each round is one of the four column changes. -/
namespace ValkeyWasm.Skiplist
open Library.Tower Function List Option

variable {S E : Type} {z : Zskiplist S E} {h : Nat → Nat}

section Columns
variable {c : Column Nat} {x p : Option Nat} {i : Nat}

@[simp] theorem zslSetNodeSpanAtLevel_forward (c : Column Nat) (x : Option Nat) (i : Nat) (span : Int) (p : Option Nat) :
    (zslSetNodeSpanAtLevel c x i span p).forward = (c p).forward := by
  rw [zslSetNodeSpanAtLevel]
  split
  · rcases eq_or_ne p x with rfl | other
    · rw [update_self]
    · rw [update_of_ne other]
  · rfl

@[simp] theorem zslSetNodeSpanAtLevel_zero (c : Column Nat) (x : Option Nat) (span : Int) : zslSetNodeSpanAtLevel c x 0 span = c := rfl

theorem zslSetNodeSpanAtLevel_self (positive : 0 < i) (span : Int) : (zslSetNodeSpanAtLevel c x i span x).span = span := by
  rw [zslSetNodeSpanAtLevel,if_pos positive,update_self]

theorem zslSetNodeSpanAtLevel_of_ne (other : p ≠ x) (span : Int) : zslSetNodeSpanAtLevel c x i span p = c p := by
  rw [zslSetNodeSpanAtLevel]
  split
  · rw [update_of_ne other]
  · rfl

@[simp] theorem setForward_span (c : Column Nat) (x y p : Option Nat) : (setForward c x y p).span = (c p).span := by
  rw [setForward]
  rcases eq_or_ne p x with rfl | other
  · rw [update_self]
  · rw [update_of_ne other]

theorem setForward_self (y : Option Nat) : (setForward c x y x).forward = y := by rw [setForward,update_self]

theorem setForward_of_ne (other : p ≠ x) (y : Option Nat) : setForward c x y p = c p := by rw [setForward,update_of_ne other]

variable {path : List (Option Nat × Int)} {node : Nat}

theorem link_of_ne (notUpdate : p ≠ updateAt path i) (notNode : p ≠ some node) : link path node i c p = c p := by
  rw [link,zslSetNodeSpanAtLevel_of_ne notUpdate,zslSetNodeSpanAtLevel_of_ne notNode,setForward_of_ne notUpdate,setForward_of_ne notNode]

theorem link_update (path : List (Option Nat × Int)) (node i : Nat) (c : Column Nat) : (link path node i c (updateAt path i)).forward = some node ∧
    (0 < i → (link path node i c (updateAt path i)).span = rankAt path 0 - rankAt path i + 1) := by
  refine ⟨?_,fun positive => ?_⟩
  · rw [link,zslSetNodeSpanAtLevel_forward,zslSetNodeSpanAtLevel_forward,setForward_self]
  · rw [link,zslSetNodeSpanAtLevel_self positive]

theorem link_node (apart : some node ≠ updateAt path i) : (link path node i c (some node)).forward = (c (updateAt path i)).forward ∧
    (0 < i → (link path node i c (some node)).span = (c (updateAt path i)).span - (rankAt path 0 - rankAt path i)) := by
  refine ⟨?_,fun positive => ?_⟩
  · rw [link,zslSetNodeSpanAtLevel_forward,zslSetNodeSpanAtLevel_forward,setForward_of_ne apart,setForward_self]
  · rw [link,zslSetNodeSpanAtLevel_of_ne apart,zslSetNodeSpanAtLevel_self positive,zslGetNodeSpanAtLevel,if_pos positive,setForward_span,setForward_span]

theorem link_zero_span : (link path node 0 c p).span = (c p).span := by
  rw [link,zslSetNodeSpanAtLevel_zero,zslSetNodeSpanAtLevel_zero,setForward_span,setForward_span]

theorem unlink_of_ne (notUpdate : p ≠ updateAt path i) : unlink path node i c p = c p := by
  rw [unlink]
  split
  · rw [setForward_of_ne notUpdate,zslIncrNodeSpanAtLevel,zslSetNodeSpanAtLevel_of_ne notUpdate]
  · rw [zslDecrNodeSpanAtLevel,zslSetNodeSpanAtLevel_of_ne notUpdate]

theorem unlink_linked (linked : (c (updateAt path i)).forward = some node) :
    (unlink path node i c (updateAt path i)).forward = (c (some node)).forward ∧
    (0 < i → (unlink path node i c (updateAt path i)).span = (c (updateAt path i)).span + ((c (some node)).span - 1)) := by
  refine ⟨?_,fun positive => ?_⟩
  · rw [unlink,if_pos linked,setForward_self,zslIncrNodeSpanAtLevel,zslSetNodeSpanAtLevel_forward]
  · rw [unlink,if_pos linked,setForward_span,zslIncrNodeSpanAtLevel,zslSetNodeSpanAtLevel_self positive,zslGetNodeSpanAtLevel,if_pos positive]

theorem unlink_across (across : (c (updateAt path i)).forward ≠ some node) :
    (unlink path node i c (updateAt path i)).forward = (c (updateAt path i)).forward ∧
    (0 < i → (unlink path node i c (updateAt path i)).span = (c (updateAt path i)).span - 1) := by
  refine ⟨?_,fun positive => ?_⟩
  · rw [unlink,if_neg across,zslDecrNodeSpanAtLevel,zslSetNodeSpanAtLevel_forward]
  · rw [unlink,if_neg across,zslDecrNodeSpanAtLevel,zslSetNodeSpanAtLevel_self positive]

theorem unlink_zero_span : (unlink path node 0 c p).span = (c p).span := by
  rw [unlink]
  split
  · rw [setForward_span,zslIncrNodeSpanAtLevel,zslSetNodeSpanAtLevel_zero]
  · rw [zslDecrNodeSpanAtLevel,zslSetNodeSpanAtLevel_zero]

end Columns

theorem Zskiplist.onLevel_level (z : Zskiplist S E) (i : Nat) (f : Column Nat → Column Nat) :
    (z.onLevel i f).level = update z.level i (f (z.level i)) := rfl

theorem Zskiplist.onLevels_eq (z : Zskiplist S E) {levels : List Nat} (distinct : levels.Nodup) (f : Nat → Column Nat → Column Nat) :
    z.onLevels levels f = { z with level := fun i => if i ∈ levels then f i (z.level i) else z.level i } := by
  rw [onLevels]
  induction levels generalizing z with
  | nil => simp
  | cons j levels ih =>
    obtain ⟨fresh,distinct⟩ := nodup_cons.mp distinct
    rw [foldl_cons,ih _ distinct,onLevel]
    congr 1
    funext i
    rcases eq_or_ne i j with rfl | other
    · simp only [fresh,if_false,update_self,mem_cons_self,if_true]
    · simp only [update_of_ne other,mem_cons,other,false_or]

theorem Zskiplist.zslSetHeight_links (z : Zskiplist S E) (height i : Nat) (p : Option Nat) :
    ((z.zslSetHeight height).level i p).forward = (z.level i p).forward ∧
    (0 < i → ((z.zslSetHeight height).level i p).span = (z.level i p).span) := by
  rw [zslSetHeight,onLevel_level]
  rcases Nat.eq_zero_or_pos i with rfl | positive
  · refine ⟨?_,fun positive => absurd positive (Nat.lt_irrefl 0)⟩
    rw [update_self]
    cases p with
    | none => rw [update_self]
    | some x => rw [update_of_ne (some_ne_none x)]
  · rw [update_of_ne (Nat.ne_of_gt positive)]
    exact ⟨rfl,fun _ => rfl⟩

@[simp] theorem Zskiplist.zslGetHeight_zslSetHeight (z : Zskiplist S E) (height : Nat) : (z.zslSetHeight height).zslGetHeight = height := by
  rw [zslGetHeight,zslSetHeight,onLevel_level,update_self,update_self]
  exact Int.toNat_natCast height

@[simp] theorem Zskiplist.zslGetNodeHeight_zslSetHeight (z : Zskiplist S E) (height x : Nat) :
    (z.zslSetHeight height).zslGetNodeHeight x = z.zslGetNodeHeight x := by
  rw [zslGetNodeHeight,zslGetNodeHeight,zslSetHeight,onLevel_level,update_self,update_of_ne (some_ne_none x)]

theorem Linked.congr {z' : Zskiplist S E} {h' : Nat → Nat} {ids : List Nat} (linked : Linked z h ids) (heights : ∀ x ∈ ids, h' x = h x)
    (links : ∀ i p, (z'.level i p).forward = (z.level i p).forward ∧ (0 < i → (z'.level i p).span = (z.level i p).span))
    (stored : ∀ x ∈ ids, z'.zslGetNodeHeight x = z.zslGetNodeHeight x) (height : z'.zslGetHeight = z.zslGetHeight)
    (backward : z'.backward = z.backward) (tail : z'.tail = z.tail) (length : z'.length = z.length) : Linked z' h' ids where
  distinct := linked.distinct
  stored x member := by rw [stored x member,heights x member,linked.stored x member]
  positive x member := heights x member ▸ linked.positive x member
  bounded x member := heights x member ▸ linked.bounded x member
  height := by
    rw [height,linked.height]
    refine (highest_eq one_le_highest (fun x member => heights x member ▸ le_highest member) ?_).symm
    exact (highest_cases h ids).imp_right fun ⟨x,member,same⟩ => ⟨x,member,same.trans (heights x member).symm⟩
  chained i lt := ((linked.chained i (height ▸ lt)).congr_heights heights).congr (links i)
  above i high := (links i none).1.trans (linked.above i (height ▸ high))
  backward := backward ▸ linked.backward
  tail := tail.trans linked.tail
  length := length.trans linked.length

end ValkeyWasm.Skiplist

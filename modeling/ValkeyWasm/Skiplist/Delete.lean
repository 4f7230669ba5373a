import ValkeyWasm.Skiplist.Links

/-! A node is taken out of a skip list. -/
namespace ValkeyWasm.Skiplist
open Library.Tower List Nat

variable {S E : Type} {z : Zskiplist S E} {h : Nat → Nat} {x : Nat} {path : List (Option Nat × Int)} {pre post : List Nat}

theorem shrink_spec (level : Nat → Column Nat) {height : Nat} (one : 1 ≤ height) :
    1 ≤ shrink level height ∧ shrink level height ≤ height ∧
    (shrink level height = 1 ∨ (level (shrink level height - 1) none).forward ≠ none) ∧
    ∀ i, shrink level height ≤ i → i < height → (level i none).forward = none := by
  induction height with
  | zero => exact absurd one (not_succ_le_zero 0)
  | succ height ih =>
    cases height with
    | zero => exact ⟨Nat.le_refl 1,Nat.le_refl 1,Or.inl rfl,fun i low high => absurd high (Nat.not_lt.mpr low)⟩
    | succ height =>
      rw [shrink]
      split
      · rename_i empty
        obtain ⟨positive,le,top,rest⟩ := ih (succ_le_succ (zero_le height))
        refine ⟨positive,le_succ_of_le le,top,fun i low high => ?_⟩
        rcases Nat.lt_succ_iff_lt_or_eq.mp high with below | rfl
        · exact rest i low below
        · exact empty
      · rename_i taken
        exact ⟨one,Nat.le_refl _,Or.inr taken,fun i low high => absurd high (Nat.not_lt.mpr low)⟩

namespace Zskiplist

def unlinked (z : Zskiplist S E) (x : Nat) (path : List (Option Nat × Int)) (i : Nat) : Column Nat :=
  if i < z.zslGetHeight then unlink path x i (z.level i) else z.level i

variable (z x path)

theorem unlinked_zero_span (p : Option Nat) :
    (z.unlinked x path 0 p).span = (z.level 0 p).span := by
  rw [unlinked]
  split
  · rw [unlink_zero_span]
  · rfl

theorem unlink_levels :
    z.onLevels (List.range z.zslGetHeight) (unlink path x) = { z with level := z.unlinked x path } := by
  rw [onLevels_eq z nodup_range]
  congr 1
  funext i
  simp only [mem_range,unlinked]

@[simp] theorem unlinkBack_level (z : Zskiplist S E) (x : Nat) : (z.unlinkBack x).level = z.level := by
  rw [unlinkBack]
  split <;> rfl

@[simp] theorem unlinkBack_score (z : Zskiplist S E) (x : Nat) : (z.unlinkBack x).score = z.score := by
  rw [unlinkBack]
  split <;> rfl

@[simp] theorem unlinkBack_ele (z : Zskiplist S E) (x : Nat) : (z.unlinkBack x).ele = z.ele := by
  rw [unlinkBack]
  split <;> rfl

@[simp] theorem unlinkBack_length (z : Zskiplist S E) (x : Nat) : (z.unlinkBack x).length = z.length := by
  rw [unlinkBack]
  split <;> rfl

@[simp] theorem zslDeleteNode_score : (z.zslDeleteNode x path).score = z.score := by
  simp only [zslDeleteNode,zslSetHeight,onLevel,unlinkBack_score,unlink_levels]

@[simp] theorem zslDeleteNode_ele : (z.zslDeleteNode x path).ele = z.ele := by
  simp only [zslDeleteNode,zslSetHeight,onLevel,unlinkBack_ele,unlink_levels]

theorem zslDeleteNode_length :
    (z.zslDeleteNode x path).length = z.length - 1 := by
  simp only [zslDeleteNode,zslSetHeight,onLevel,unlinkBack_length,unlink_levels]

theorem zslDeleteNode_links (i : Nat) (p : Option Nat) :
    ((z.zslDeleteNode x path).level i p).forward = (z.unlinked x path i p).forward ∧
    (0 < i → ((z.zslDeleteNode x path).level i p).span = (z.unlinked x path i p).span) := by
  have links := zslSetHeight_links ((z.onLevels (List.range z.zslGetHeight) (unlink path x)).unlinkBack x)
    (shrink ((z.onLevels (List.range z.zslGetHeight) (unlink path x)).unlinkBack x).level
      ((z.onLevels (List.range z.zslGetHeight) (unlink path x)).unlinkBack x).zslGetHeight) i p
  simpa only [zslDeleteNode,unlink_levels,unlinkBack_level] using links

@[simp] theorem zslDeleteNode_nodeHeight (y : Nat) :
    (z.zslDeleteNode x path).zslGetNodeHeight y = z.zslGetNodeHeight y := by
  have same := zslGetNodeHeight_zslSetHeight ((z.onLevels (List.range z.zslGetHeight) (unlink path x)).unlinkBack x)
    (shrink ((z.onLevels (List.range z.zslGetHeight) (unlink path x)).unlinkBack x).level
      ((z.onLevels (List.range z.zslGetHeight) (unlink path x)).unlinkBack x).zslGetHeight) y
  rw [zslDeleteNode]
  refine same.trans ?_
  rw [zslGetNodeHeight,unlinkBack_level,unlink_levels,zslGetNodeHeight]
  exact congrArg Int.toNat (unlinked_zero_span z x path (some y))

theorem zslDeleteNode_height :
    (z.zslDeleteNode x path).zslGetHeight = shrink (z.unlinked x path) z.zslGetHeight := by
  have old : (({ z with level := z.unlinked x path } : Zskiplist S E).unlinkBack x).zslGetHeight = z.zslGetHeight := by
    rw [zslGetHeight,unlinkBack_level,zslGetHeight]
    exact congrArg Int.toNat (unlinked_zero_span z x path none)
  have set_ := zslGetHeight_zslSetHeight (({ z with level := z.unlinked x path } : Zskiplist S E).unlinkBack x)
    (shrink (z.unlinked x path) z.zslGetHeight)
  rw [zslDeleteNode,unlink_levels]
  simp only [unlinkBack_level,old]
  exact set_

variable {x}

theorem zslDeleteNode_last (last : (z.unlinked x path 0 (some x)).forward = none) :
    (z.zslDeleteNode x path).backward = z.backward ∧ (z.zslDeleteNode x path).tail = z.backward x := by
  rw [zslDeleteNode,unlink_levels,unlinkBack]
  simp only [last]
  exact ⟨rfl,rfl⟩

theorem zslDeleteNode_inner {y : Nat} (next : (z.unlinked x path 0 (some x)).forward = some y) :
    (z.zslDeleteNode x path).backward = Function.update z.backward y (z.backward x) ∧ (z.zslDeleteNode x path).tail = z.tail := by
  rw [zslDeleteNode,unlink_levels,unlinkBack]
  simp only [next]
  exact ⟨rfl,rfl⟩

end Zskiplist

namespace Linked

variable (linked : Linked z h (pre ++ x :: post))
include linked

theorem unlinked_above {i : Nat} (high : z.zslGetHeight ≤ i) :
    (z.unlinked x path i none).forward = none := by
  rw [Zskiplist.unlinked,if_neg (Nat.not_lt.mpr high)]
  exact linked.above i high

variable (traces : Traces h pre path z.zslGetHeight)
include traces

theorem unlinked {i : Nat} (level : i < z.zslGetHeight) :
    Chained h i (z.unlinked x path i) (pre ++ post) := by
  obtain ⟨a,upto,update,-⟩ := traces i level
  have chained := linked.chained i level
  have reaches := chained.forward_eq_iff linked.distinct upto
  rw [Zskiplist.unlinked,if_pos level]
  rw [← update] at reaches
  have frame : ∀ p, p ≠ a.getLast? → unlink path x i (z.level i) p = z.level i p := fun p other => unlink_of_ne (update ▸ other)
  by_cases tall : i < h x
  · exact chained.erase_tall linked.distinct upto tall frame (update ▸ unlink_linked (reaches.mpr tall))
  · exact chained.erase_low linked.distinct upto (Nat.le_of_not_lt tall) frame (update ▸ unlink_across (mt reaches.mp tall))

theorem shrink_eq :
    shrink (z.unlinked x path) z.zslGetHeight = highest h (pre ++ post) := by
  obtain ⟨one,le,top,empty⟩ := shrink_spec (z.unlinked x path) linked.height_pos
  have fromHeader : ∀ i < z.zslGetHeight, (z.unlinked x path i none).forward = (reach h i (pre ++ post)).1 :=
    fun i level => (linked.unlinked traces level [] (pre ++ post) rfl nofun).1
  have upper : ∀ y ∈ pre ++ post, h y ≤ shrink (z.unlinked x path) z.zslGetHeight := by
    intro y member
    by_contra higher
    have old : y ∈ pre ++ x :: post := by
      rcases mem_append.mp member with first | second
      · exact mem_append_left _ first
      · exact mem_append_right _ (mem_cons_of_mem x second)
    have bound := linked.le_height old
    have level : shrink (z.unlinked x path) z.zslGetHeight < z.zslGetHeight := by omega
    have nothing := (fromHeader _ level).symm.trans (empty _ (Nat.le_refl _) level)
    rcases reach_cases h (shrink (z.unlinked x path) z.zslGetHeight) (pre ++ post) with ⟨low,-⟩ | ⟨s,w,r,-,-,-,found⟩
    · exact higher (low y member)
    · rw [found] at nothing
      exact Option.some_ne_none w nothing
  refine (highest_eq one upper ?_).symm
  refine top.imp_right fun taken => ?_
  have level : shrink (z.unlinked x path) z.zslGetHeight - 1 < z.zslGetHeight := by omega
  rw [fromHeader _ level] at taken
  rcases reach_cases h (shrink (z.unlinked x path) z.zslGetHeight - 1) (pre ++ post) with ⟨-,none_⟩ | ⟨s,w,r,whole,-,tall,-⟩
  · exact absurd (congrArg Prod.fst none_) taken
  have member : w ∈ pre ++ post := by
    rw [whole]
    exact mem_append_right s mem_cons_self
  have bound := upper w member
  exact ⟨w,member,by omega⟩

theorem unlinked_next :
    (z.unlinked x path 0 (some x)).forward = post.head? := by
  have positive : ∀ y ∈ pre ++ x :: post, 1 ≤ h y := linked.positive
  have update := (traces.zero linked.height_pos fun y member => positive y (mem_append_left _ member)).1
  have apart : some x ≠ updateAt path 0 := by
    intro same
    have member : x ∈ pre := mem_of_getLast? (update.symm.trans same.symm)
    exact (nodup_append.mp linked.distinct).2.2 x member x mem_cons_self rfl
  have link := linked.bottom (append_cons pre x post)
  rw [getLast?_concat] at link
  rw [Zskiplist.unlinked,if_pos linked.height_pos,unlink_of_ne apart,link]

theorem zslDeleteNode_back :
    Backs (z.zslDeleteNode x path).backward (pre ++ post) ∧ (z.zslDeleteNode x path).tail = (pre ++ post).getLast? := by
  have own := linked.backward pre x post rfl
  have next := linked.unlinked_next traces
  cases post with
  | nil =>
    obtain ⟨backward,tail⟩ := z.zslDeleteNode_last path next
    rw [backward,tail,own,append_nil]
    refine ⟨?_,rfl⟩
    rw [← append_nil pre]
    exact linked.backward.erase linked.distinct (fun y _ => rfl) nofun
  | cons w r =>
    obtain ⟨backward,tail⟩ := z.zslDeleteNode_inner path next
    rw [backward,tail,own,linked.tail]
    constructor
    · refine linked.backward.erase linked.distinct (fun y other => ?_) (fun y first => ?_)
      · exact Function.update_of_ne (fun same => other (congrArg some same.symm)) _ _
      · rw [← Option.some.inj first,Function.update_self]
    · rw [getLast?_append_of_ne_nil pre (cons_ne_nil x _),getLast?_append_of_ne_nil pre (cons_ne_nil w r),
        getLast?_cons_cons]

theorem zslDeleteNode :
    Linked (z.zslDeleteNode x path) h (pre ++ post) := by
  have height := (z.zslDeleteNode_height x path).trans (linked.shrink_eq traces)
  have le : (z.zslDeleteNode x path).zslGetHeight ≤ z.zslGetHeight :=
    z.zslDeleteNode_height x path ▸ (shrink_spec (z.unlinked x path) linked.height_pos).2.1
  have back := linked.zslDeleteNode_back traces
  have old : ∀ y ∈ pre ++ post, y ∈ pre ++ x :: post := by
    intro y member
    exact (List.Sublist.append_left (sublist_cons_self x post) pre).subset member
  exact {
    distinct := linked.distinct.sublist (List.Sublist.append_left (sublist_cons_self x post) pre)
    stored := fun y member => (z.zslDeleteNode_nodeHeight x path y).trans (linked.stored y (old y member))
    positive := fun y member => linked.positive y (old y member)
    bounded := fun y member => linked.bounded y (old y member)
    height := height
    chained := fun i level => (linked.unlinked traces (Nat.lt_of_lt_of_le level le)).congr (z.zslDeleteNode_links x path i)
    above := by
      intro i high
      rw [(z.zslDeleteNode_links x path i none).1]
      rcases Nat.lt_or_ge i z.zslGetHeight with inside | above
      · exact (shrink_spec (z.unlinked x path) linked.height_pos).2.2.2 i (z.zslDeleteNode_height x path ▸ high) inside
      · exact linked.unlinked_above above
    backward := back.1
    tail := back.2
    length := by
      rw [z.zslDeleteNode_length x path,linked.length,length_append,length_append,length_cons]
      omega }

end Linked

end ValkeyWasm.Skiplist

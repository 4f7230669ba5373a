import ValkeyWasm.Skiplist.Links

/-! A node is put into a skip list. -/
namespace ValkeyWasm.Skiplist
open Library.Tower List Function

variable {S E : Type} {z : Zskiplist S E} {h : Nat → Nat} {node : Nat} {path : List (Option Nat × Int)} {ids pre post : List Nat}

theorem Traces.extend {n level : Nat} (traces : Traces h pre path n) (size : path.length = n) (bound : ∀ x ∈ pre, h x ≤ n) :
    Traces h pre (path ++ List.replicate (level - n) (none,0)) (max n level) := by
  intro i lt
  rw [updateAt,rankAt]
  rcases Nat.lt_or_ge i n with inside | outside
  · rw [getD_append _ _ _ _ (size ▸ inside)]
    exact traces i inside
  have header : (path ++ List.replicate (level - n) ((none : Option Nat),(0 : Int))).getD i (none,0) = (none,0) := by
    rw [getD_append_right _ _ _ _ (size ▸ outside),getD_replicate]
    omega
  rw [header]
  refine ⟨[],⟨fun _ last => absurd last.symm (Option.some_ne_none _),pre,rfl,?_⟩,rfl,rfl⟩
  exact fun x member => Nat.le_trans (bound x member) outside

namespace Zskiplist

variable (z)

theorem raise_eq {level : Nat} (higher : z.zslGetHeight < level) :
    z.raise level = zslSetHeight { z with level := fun i =>
      if z.zslGetHeight ≤ i ∧ i < level then zslSetNodeSpanAtLevel (z.level i) none i z.length else z.level i } level := by
  rw [raise,if_pos higher,onLevels_eq z nodup_range']
  congr 2
  funext i
  have range : i ∈ List.range' z.zslGetHeight (level - z.zslGetHeight) ↔ z.zslGetHeight ≤ i ∧ i < level := by
    rw [mem_range'_1]
    omega
  simp only [range]

theorem raise_height (level : Nat) : (z.raise level).zslGetHeight = max z.zslGetHeight level := by
  rcases Nat.lt_or_ge z.zslGetHeight level with higher | enough
  · rw [raise_eq z higher,zslGetHeight_zslSetHeight,Nat.max_eq_right (Nat.le_of_lt higher)]
  · rw [raise,if_neg (Nat.not_lt.mpr enough),Nat.max_eq_left enough]

theorem raise_fields (level : Nat) : (z.raise level).score = z.score ∧ (z.raise level).ele = z.ele ∧
    (z.raise level).backward = z.backward ∧ (z.raise level).tail = z.tail ∧ (z.raise level).length = z.length := by
  rcases Nat.lt_or_ge z.zslGetHeight level with higher | enough
  · rw [raise_eq z higher]
    exact ⟨rfl,rfl,rfl,rfl,rfl⟩
  · rw [raise,if_neg (Nat.not_lt.mpr enough)]
    exact ⟨rfl,rfl,rfl,rfl,rfl⟩

theorem raise_forward (level i : Nat) (p : Option Nat) : ((z.raise level).level i p).forward = (z.level i p).forward := by
  rcases Nat.lt_or_ge z.zslGetHeight level with higher | enough
  · rw [raise_eq z higher,(zslSetHeight_links _ level i p).1]
    dsimp only
    split
    · rw [zslSetNodeSpanAtLevel_forward]
    · rfl
  · rw [raise,if_neg (Nat.not_lt.mpr enough)]

theorem raise_nodeHeight (level x : Nat) (one : 0 < z.zslGetHeight) : (z.raise level).zslGetNodeHeight x = z.zslGetNodeHeight x := by
  rcases Nat.lt_or_ge z.zslGetHeight level with higher | enough
  · rw [raise_eq z higher,zslGetNodeHeight_zslSetHeight,zslGetNodeHeight,zslGetNodeHeight]
    dsimp only
    rw [if_neg fun range => by omega]
  · rw [raise,if_neg (Nat.not_lt.mpr enough)]

theorem raise_span (level : Nat) {i : Nat} (positive : 0 < i) :
    (i < z.zslGetHeight → ∀ p, ((z.raise level).level i p).span = (z.level i p).span) ∧
    (z.zslGetHeight ≤ i → i < level → ((z.raise level).level i none).span = z.length) := by
  rcases Nat.lt_or_ge z.zslGetHeight level with higher | enough
  · refine ⟨fun inside p => ?_,fun above below => ?_⟩
    · rw [raise_eq z higher,(zslSetHeight_links _ level i p).2 positive]
      dsimp only
      rw [if_neg fun range => by omega]
    · rw [raise_eq z higher,(zslSetHeight_links _ level i none).2 positive]
      dsimp only
      rw [if_pos ⟨above,below⟩,zslSetNodeSpanAtLevel_self positive]
  · refine ⟨fun _ p => ?_,fun above below => absurd (Nat.lt_of_le_of_lt (Nat.le_trans enough above) below) (Nat.lt_irrefl _)⟩
    rw [raise,if_neg (Nat.not_lt.mpr enough)]

def inserted (z : Zskiplist S E) (node level : Nat) (path : List (Option Nat × Int)) (i : Nat) : Column Nat :=
  if i < level then link path node i (z.level i)
  else if i < z.zslGetHeight then zslIncrNodeSpanAtLevel (z.level i) (updateAt path i) i 1
  else z.level i

theorem inserted_zero_span (node level : Nat) (path : List (Option Nat × Int)) (p : Option Nat) :
    (z.inserted node level path 0 p).span = (z.level 0 p).span := by
  rw [inserted]
  split
  · rw [link_zero_span]
  · split
    · rw [zslIncrNodeSpanAtLevel,zslSetNodeSpanAtLevel_zero]
    · rfl

theorem insert_levels (node level : Nat) (path : List (Option Nat × Int)) :
    (z.onLevels (List.range level) (link path node)).onLevels
      (List.range' level ((z.onLevels (List.range level) (link path node)).zslGetHeight - level))
      (fun i c => zslIncrNodeSpanAtLevel c (updateAt path i) i 1) = { z with level := z.inserted node level path } := by
  have linked := onLevels_eq z (nodup_range : (List.range level).Nodup) (link path node)
  have same : (z.onLevels (List.range level) (link path node)).zslGetHeight = z.zslGetHeight := by
    rw [linked,zslGetHeight,zslGetHeight]
    dsimp only
    split
    · rw [link_zero_span]
    · rfl
  rw [onLevels_eq _ nodup_range',same,linked]
  congr 1
  funext i
  have range : i ∈ List.range' level (z.zslGetHeight - level) ↔ level ≤ i ∧ i < z.zslGetHeight := by
    rw [mem_range'_1]
    omega
  simp only [range,mem_range,inserted]
  rcases Nat.lt_or_ge i level with below | above
  · rw [if_pos below,if_pos below,if_neg fun range => Nat.not_lt.mpr range.1 below]
  · rw [if_neg (Nat.not_lt.mpr above),if_neg (Nat.not_lt.mpr above)]
    simp only [above,true_and]

@[simp] theorem linkBack_level (z : Zskiplist S E) (node : Nat) (update : Option Nat) : (z.linkBack node update).level = z.level := by
  rw [linkBack]
  split <;> rfl

theorem linkBack_fields (node : Nat) (update : Option Nat) : (z.linkBack node update).score = z.score ∧
    (z.linkBack node update).ele = z.ele ∧ (z.linkBack node update).length = z.length := by
  rw [linkBack]
  split <;> exact ⟨rfl,rfl,rfl⟩

theorem linkBack_last (update : Option Nat) (last : (z.level 0 (some node)).forward = none) :
    (z.linkBack node update).backward = Function.update z.backward node update ∧ (z.linkBack node update).tail = some node := by
  simp only [linkBack,last,and_self]

theorem linkBack_inner (update : Option Nat) {y : Nat} (next : (z.level 0 (some node)).forward = some y) :
    (z.linkBack node update).backward = Function.update (Function.update z.backward node update) y (some node) ∧
    (z.linkBack node update).tail = z.tail := by
  simp only [linkBack,next,and_self]

def spliced (z : Zskiplist S E) (node : Nat) (path : List (Option Nat × Int)) : Zskiplist S E :=
  { z.raise (z.zslGetNodeHeight node) with
    level := (z.raise (z.zslGetNodeHeight node)).inserted node (z.zslGetNodeHeight node)
      (path ++ List.replicate (z.zslGetNodeHeight node - z.zslGetHeight) (none,0)) }

variable (node path)

theorem insertAt_eq :
    z.insertAt node path =
      let back := (z.spliced node path).linkBack node
        (updateAt (path ++ List.replicate (z.zslGetNodeHeight node - z.zslGetHeight) (none,0)) 0)
      { back with length := back.length + 1 } := by
  rw [insertAt]
  rw [insert_levels]
  rfl

theorem insertAt_level :
    (z.insertAt node path).level = (z.spliced node path).level := by
  rw [insertAt_eq]
  exact linkBack_level _ _ _

theorem insertAt_fields : (z.insertAt node path).score = z.score ∧
    (z.insertAt node path).ele = z.ele ∧ (z.insertAt node path).length = z.length + 1 := by
  obtain ⟨score,ele,-,-,length⟩ := z.raise_fields (z.zslGetNodeHeight node)
  obtain ⟨score',ele',length'⟩ := (z.spliced node path).linkBack_fields node
    (updateAt (path ++ List.replicate (z.zslGetNodeHeight node - z.zslGetHeight) (none,0)) 0)
  rw [insertAt_eq]
  dsimp only
  rw [score',ele',length']
  exact ⟨score,ele,congrArg (· + 1) length⟩

theorem insertAt_nodeHeight (one : 0 < z.zslGetHeight) (x : Nat) :
    (z.insertAt node path).zslGetNodeHeight x = z.zslGetNodeHeight x := by
  rw [← z.raise_nodeHeight (z.zslGetNodeHeight node) x one,zslGetNodeHeight,insertAt_level,zslGetNodeHeight]
  exact congrArg Int.toNat (inserted_zero_span _ _ _ _ _)

theorem insertAt_height :
    (z.insertAt node path).zslGetHeight = max z.zslGetHeight (z.zslGetNodeHeight node) := by
  rw [← raise_height,zslGetHeight,insertAt_level,zslGetHeight]
  exact congrArg Int.toNat (inserted_zero_span _ _ _ _ _)

end Zskiplist

namespace Linked

theorem raise (linked : Linked z h ids) (level : Nat) {i : Nat} (lt : i < max z.zslGetHeight level) : Chained h i ((z.raise level).level i) ids := by
  rcases Nat.lt_or_ge i z.zslGetHeight with inside | outside
  · exact (linked.chained i inside).congr fun p => ⟨z.raise_forward level i p,fun positive => (z.raise_span level positive).1 inside p⟩
  intro c d split ends
  have low : Low h i ids := fun x member => Nat.le_trans (linked.le_height member) outside
  have none_ : c = [] := by
    refine Ends.eq_nil (a := []) ends fun x member => low x ?_
    rw [split]
    exact mem_append_left d member
  rw [none_,nil_append] at split
  rw [none_,← split]
  have rest := reach_low_append low []
  rw [append_nil] at rest
  rw [rest]
  refine ⟨(z.raise_forward level i none).trans (linked.above i outside),fun positive => ?_⟩
  have size := linked.length
  have span := (z.raise_span level positive).2 outside (by omega)
  rw [getLast?_nil,span,size]
  rfl

variable (linked : Linked z h (pre ++ post)) (fresh : node ∉ pre ++ post) (traces : Traces h pre path (max z.zslGetHeight (h node)))
include linked fresh traces

theorem inserted {i : Nat} (lt : i < max z.zslGetHeight (h node)) :
    Chained h i ((z.raise (h node)).inserted node (h node) path i) (pre ++ node :: post) := by
  have distinct := nodup_middle.mpr (nodup_cons.mpr ⟨fresh,linked.distinct⟩)
  have chained := linked.raise (h node) lt
  obtain ⟨a,upto,update,rank⟩ := traces i lt
  obtain ⟨-,top⟩ := traces.zero (by omega) fun x member => linked.positive x (mem_append_left post member)
  rw [Zskiplist.inserted]
  rcases Nat.lt_or_ge i (h node) with tall | short
  · rw [if_pos tall]
    have apart : some node ≠ updateAt path i := by
      intro same
      obtain ⟨-,b,whole,-⟩ := upto
      have member : node ∈ a := mem_of_getLast? (update.symm.trans same.symm)
      exact fresh (mem_append_left post (whole ▸ mem_append_left b member))
    have atUpdate := link_update path node i ((z.raise (h node)).level i)
    have atNode := link_node (c := (z.raise (h node)).level i) apart
    rw [update,rank,top] at atUpdate atNode
    refine chained.insert_tall distinct upto tall ?_ atUpdate atNode
    exact fun p notUpdate notNode => link_of_ne (update ▸ notUpdate) notNode
  · rw [if_neg (Nat.not_lt.mpr short),if_pos (z.raise_height (h node) ▸ lt),update,zslIncrNodeSpanAtLevel]
    refine chained.insert_low distinct upto short (fun p notUpdate _ => zslSetNodeSpanAtLevel_of_ne notUpdate _) ⟨zslSetNodeSpanAtLevel_forward _ _ _ _ _,?_⟩
    exact fun high => zslSetNodeSpanAtLevel_self high _

theorem inserted_next (positive : 1 ≤ h node) : ((z.raise (h node)).inserted node (h node) path 0 (some node)).forward = post.head? := by
  have bottom : 0 < max z.zslGetHeight (h node) := Nat.lt_of_lt_of_le positive (Nat.le_max_right _ _)
  have heights : ∀ x ∈ pre ++ node :: post, 1 ≤ h x := by
    intro x member
    rcases mem_cons.mp (perm_middle.subset member) with rfl | old
    · exact positive
    · exact linked.positive x old
  have link := (linked.inserted fresh traces bottom).bottom heights (append_cons pre node post)
  rwa [getLast?_concat] at link

omit traces in
theorem linkBack {z' : Zskiplist S E} (backward : z'.backward = z.backward) (tail : z'.tail = z.tail)
    (next : (z'.level 0 (some node)).forward = post.head?) :
    Backs (z'.linkBack node pre.getLast?).backward (pre ++ node :: post) ∧
    (z'.linkBack node pre.getLast?).tail = (pre ++ node :: post).getLast? := by
  have distinct : (pre ++ node :: post).Nodup := nodup_middle.mpr (nodup_cons.mpr ⟨fresh,linked.distinct⟩)
  cases post with
  | nil =>
    obtain ⟨newBackward,newTail⟩ := z'.linkBack_last pre.getLast? next
    rw [newBackward,newTail,backward,getLast?_concat]
    refine ⟨linked.backward.insert distinct (fun y other _ => update_of_ne other _ _) (update_self ..) ?_,rfl⟩
    exact nofun
  | cons w r =>
    obtain ⟨newBackward,newTail⟩ := z'.linkBack_inner pre.getLast? next
    have apart : node ≠ w := fun same => fresh (mem_append_right pre (same ▸ mem_cons_self))
    rw [newBackward,newTail,backward,tail,linked.tail]
    constructor
    · refine linked.backward.insert distinct (fun y other notNext => ?_) ?_ (fun y first => ?_)
      · rw [update_of_ne (fun same => notNext (congrArg some same.symm)),update_of_ne other]
      · rw [update_of_ne apart,update_self]
      · rw [← Option.some.inj first,update_self]
    · rw [getLast?_append_of_ne_nil pre (cons_ne_nil node _),getLast?_append_of_ne_nil pre (cons_ne_nil w r),
        getLast?_cons_cons]

end Linked

theorem Linked.insertAt (linked : Linked z h (pre ++ post)) (fresh : node ∉ pre ++ post) (stored : z.zslGetNodeHeight node = h node)
    (positive : 1 ≤ h node) (bounded : h node ≤ maxLevel) (size : path.length = z.zslGetHeight) (traces : Traces h pre path z.zslGetHeight) :
    Linked (z.insertAt node path) h (pre ++ node :: post) := by
  have bound : ∀ x ∈ pre, h x ≤ z.zslGetHeight := fun x member => linked.le_height (mem_append_left post member)
  have extended : Traces h pre (path ++ List.replicate (h node - z.zslGetHeight) (none,0)) (max z.zslGetHeight (h node)) := traces.extend size bound
  have top : 0 < max z.zslGetHeight (h node) := Nat.lt_of_lt_of_le positive (Nat.le_max_right _ _)
  have update := (extended.zero top fun x member => linked.positive x (mem_append_left post member)).1
  obtain ⟨-,-,backward,tail,-⟩ := z.raise_fields (h node)
  have back : Backs (z.insertAt node path).backward (pre ++ node :: post) ∧ (z.insertAt node path).tail = (pre ++ node :: post).getLast? := by
    rw [z.insertAt_eq,Zskiplist.spliced,stored,update]
    exact linked.linkBack fresh backward tail (linked.inserted_next fresh extended positive)
  have height := z.insertAt_height node path
  have levels := z.insertAt_level node path
  rw [Zskiplist.spliced,stored] at levels
  rw [stored] at height
  have members : ∀ x ∈ pre ++ node :: post, x = node ∨ x ∈ pre ++ post := fun x member => mem_cons.mp (perm_middle.subset member)
  exact {
    distinct := nodup_middle.mpr (nodup_cons.mpr ⟨fresh,linked.distinct⟩)
    stored := by
      intro x member
      rw [z.insertAt_nodeHeight node path linked.height_pos x]
      exact (members x member).elim (fun same => same ▸ stored) (linked.stored x)
    positive := fun x member => (members x member).elim (fun same => same ▸ positive) (linked.positive x)
    bounded := fun x member => (members x member).elim (fun same => same ▸ bounded) (linked.bounded x)
    height := by
      rw [height]
      refine (highest_eq top (fun x member => ?_) ?_).symm
      · rcases members x member with rfl | old
        · exact Nat.le_max_right _ _
        · exact Nat.le_trans (linked.le_height old) (Nat.le_max_left _ _)
      rcases Nat.le_total z.zslGetHeight (h node) with higher | enough
      · exact Or.inr ⟨node,mem_append_right pre mem_cons_self,Nat.max_eq_right higher⟩
      · rw [Nat.max_eq_left enough,linked.height]
        refine (highest_cases h (pre ++ post)).imp_right fun ⟨x,member,same⟩ => ⟨x,?_,same⟩
        exact (List.Sublist.append_left (sublist_cons_self node post) pre).subset member
    chained := fun i lt => by
      rw [levels]
      exact linked.inserted fresh extended (height ▸ lt)
    above := by
      intro i high
      rw [height] at high
      have notLevel : ¬ i < h node := fun lt => absurd (Nat.lt_of_lt_of_le lt (Nat.le_max_right _ _)) (Nat.not_lt.mpr high)
      rw [levels]
      dsimp only
      rw [Zskiplist.inserted,if_neg notLevel,if_neg (z.raise_height (h node) ▸ Nat.not_lt.mpr high),z.raise_forward]
      exact linked.above i (Nat.le_trans (Nat.le_max_left _ _) high)
    backward := back.1
    tail := back.2
    length := by
      rw [(z.insertAt_fields node path).2.2,linked.length,length_append,length_append,length_cons]
      omega }

end ValkeyWasm.Skiplist

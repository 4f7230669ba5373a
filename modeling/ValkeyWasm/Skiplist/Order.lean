import ValkeyWasm.Skiplist.Delete
import ValkeyWasm.Skiplist.Insert

/-! The calls on a skip list keep it in order: insertion, deletion, a new score, deletion of a range. -/
namespace ValkeyWasm.Skiplist
open Library.Tower Function List Option

variable {S E : Type} [LinearOrder S] [LinearOrder E] {z z' : Zskiplist S E} {h : Nat → Nat} {ids : List Nat}

def Zskiplist.Before (z : Zskiplist S E) (x y : Nat) : Prop := z.score x < z.score y ∨ z.score x = z.score y ∧ z.ele x < z.ele y

/-- A skip list with the nodes `ids` of heights `h`. -/
structure Valid (z : Zskiplist S E) (h : Nat → Nat) (ids : List Nat) : Prop extends Linked z h ids where
  sorted : ids.Pairwise z.Before
  elements : (ids.map z.ele).Nodup

namespace Zskiplist

theorem Before.trans {x y w : Nat} (first : z.Before x y) (second : z.Before y w) : z.Before x w := by
  rcases first with lt | ⟨same,lt⟩ <;> rcases second with lt' | ⟨same',lt'⟩
  · exact Or.inl (lt_trans lt lt')
  · exact Or.inl (same' ▸ lt)
  · exact Or.inl (same ▸ lt')
  · exact Or.inr ⟨same.trans same',lt_trans lt lt'⟩

theorem Before.irrefl (z : Zskiplist S E) (x : Nat) : ¬ z.Before x x := by
  rintro (lt | ⟨-,lt⟩) <;> exact lt_irrefl _ lt

theorem Before.total {x y : Nat} (apart : z.ele x ≠ z.ele y) (notBefore : ¬ z.Before x y) : z.Before y x := by
  rcases lt_trichotomy (z.score x) (z.score y) with lt | same | gt
  · exact absurd (Or.inl lt) notBefore
  · rcases lt_or_gt_of_ne apart with lt | gt
    · exact absurd (Or.inr ⟨same,lt⟩) notBefore
    · exact Or.inr ⟨same.symm,gt⟩
  · exact Or.inl gt

theorem zslCompareNodes_eq_lt (z : Zskiplist S E) (x y : Nat) : z.zslCompareNodes (some x) (some y) = .lt ↔ z.Before x y := by
  rw [zslCompareNodes,Before]
  split
  · rename_i same
    rw [some.inj same]
    simp
  split
  · rename_i gt
    simp [gt.not_gt,gt.ne']
  split
  · rename_i lt
    simp [lt]
  · rename_i notGt notLt
    rw [compare_lt_iff_lt]
    simp [le_antisymm (not_lt.mp notGt) (not_lt.mp notLt)]

end Zskiplist

section Orders
variable {pre post : List Nat} {node : Nat}

theorem Sorted.congr (sorted : ids.Pairwise z.Before) (same : ∀ x ∈ ids, z'.score x = z.score x ∧ z'.ele x = z.ele x) : ids.Pairwise z'.Before := by
  refine sorted.imp_of_mem fun {x y} xIn yIn before => ?_
  rw [Zskiplist.Before,(same x xIn).1,(same x xIn).2,(same y yIn).1,(same y yIn).2]
  exact before

theorem all_before (sorted : pre.Pairwise z.Before) (last : ∀ s y, pre = s ++ [y] → z.Before y node) : ∀ x ∈ pre, z.Before x node := by
  rcases List.eq_nil_or_concat' pre with rfl | ⟨s,y,rfl⟩
  · exact nofun
  intro x member
  have final := last s y rfl
  rcases mem_append.mp member with early | final_
  · exact ((List.pairwise_append.mp sorted).2.2 x early y (List.mem_singleton_self y)).trans final
  · rwa [mem_singleton.mp final_]

theorem all_behind (sorted : post.Pairwise z.Before) (first : ∀ y r, post = y :: r → z.Before node y) : ∀ x ∈ post, z.Before node x := by
  cases post with
  | nil => exact nofun
  | cons y r =>
    intro x member
    rcases List.mem_cons.mp member with rfl | later
    · exact first x r rfl
    · exact (first y r rfl).trans ((List.pairwise_cons.mp sorted).1 x later)

theorem sorted_middle (sorted : (pre ++ post).Pairwise z.Before) (before : ∀ x ∈ pre, z.Before x node) (behind : ∀ x ∈ post, z.Before node x) :
    (pre ++ node :: post).Pairwise z.Before := by
  obtain ⟨left,right,across⟩ := List.pairwise_append.mp sorted
  refine List.pairwise_append.mpr ⟨left,List.pairwise_cons.mpr ⟨behind,right⟩,fun x xIn y yIn => ?_⟩
  rcases List.mem_cons.mp yIn with rfl | later
  · exact before x xIn
  · exact across x xIn y later

end Orders

namespace Valid
variable {node : Nat}

theorem zslInsertNode (valid : Valid z h ids) (fresh : node ∉ ids) (newElement : z.ele node ∉ ids.map z.ele)
    (stored : z.zslGetNodeHeight node = h node) (positive : 1 ≤ h node) (bounded : h node ≤ maxLevel) :
    ∃ z' pre post, z.zslInsertNode node = some z' ∧ ids = pre ++ post ∧ Valid z' h (pre ++ node :: post) ∧ z'.score = z.score ∧ z'.ele = z.ele := by
  obtain ⟨path,pre,post,found,rfl,size,traces,went,stopped⟩ := valid.search_spec fun _ y => z.zslCompareNodes (some y) (some node) == .lt
  obtain ⟨score,ele,-⟩ := z.insertAt_fields node path
  refine ⟨z.insertAt node path,pre,post,?_,rfl,?_,score,ele⟩
  · rw [Zskiplist.zslInsertNode,Zskiplist.searchNode,found]
    rfl
  obtain ⟨left,right,-⟩ := List.pairwise_append.mp valid.sorted
  have before : ∀ x ∈ pre, z.Before x node := all_before left fun s y split => (z.zslCompareNodes_eq_lt y node).mp (eq_of_beq (went s y split))
  have behind : ∀ x ∈ post, z.Before node x := by
    refine all_behind right fun y r split => ?_
    have member : y ∈ pre ++ post := List.mem_append_right pre (split ▸ List.mem_cons_self)
    have apart : z.ele y ≠ z.ele node := fun same => newElement (same ▸ mem_map_of_mem member)
    refine Zskiplist.Before.total apart fun earlier => ?_
    have beyond := stopped y r split
    rw [(z.zslCompareNodes_eq_lt y node).mpr earlier] at beyond
    exact absurd beyond (by decide)
  have sorted := sorted_middle valid.sorted before behind
  exact {
    valid.toLinked.insertAt fresh stored positive bounded size traces with
    sorted := Sorted.congr sorted fun x _ => ⟨congrFun score x,congrFun ele x⟩
    elements := by
      rw [ele,map_append,map_cons]
      refine nodup_middle.mpr (nodup_cons.mpr ?_)
      rw [← map_append]
      exact ⟨newElement,valid.elements⟩ }

theorem of_linked {h' : Nat → Nat} (valid : Valid z h ids) (linked : Linked z' h' ids)
    (same : ∀ x ∈ ids, z'.score x = z.score x ∧ z'.ele x = z.ele x) : Valid z' h' ids :=
  { linked with
    sorted := Sorted.congr valid.sorted same
    elements := by
      rw [map_congr_left fun x member => (same x member).2]
      exact valid.elements }

omit [LinearOrder S] [LinearOrder E] in
theorem zslSetNodeHeight_links (z : Zskiplist S E) (node level i : Nat) (p : Option Nat) :
    ((z.zslSetNodeHeight node level).level i p).forward = (z.level i p).forward ∧
    (0 < i → ((z.zslSetNodeHeight node level).level i p).span = (z.level i p).span) := by
  rw [Zskiplist.zslSetNodeHeight,Zskiplist.onLevel_level]
  rcases Nat.eq_zero_or_pos i with rfl | positive
  · refine ⟨?_,fun positive => absurd positive (Nat.lt_irrefl 0)⟩
    rw [update_self]
    rcases eq_or_ne p (some node) with rfl | other
    · rw [update_self]
    · rw [update_of_ne other]
  · rw [update_of_ne (Nat.ne_of_gt positive)]
    exact ⟨rfl,fun _ => rfl⟩

theorem zslCreateNode (valid : Valid z h ids) (fresh : node ∉ ids) (level : Nat) (score : S) (ele : E) :
    Valid (z.zslCreateNode node level score ele) (Function.update h node level) ids ∧
    (z.zslCreateNode node level score ele).zslGetNodeHeight node = level := by
  have other : ∀ x ∈ ids, x ≠ node := fun x member same => fresh (same ▸ member)
  constructor
  · refine valid.of_linked (valid.toLinked.congr (fun x member => update_of_ne (other x member) _ _)
      (zslSetNodeHeight_links { z with score := _, ele := _ } node level) (fun x member => ?_) ?_ rfl rfl rfl) (fun x member => ?_)
    · have apart : some x ≠ some node := fun same => other x member (some.inj same)
      rw [Zskiplist.zslGetNodeHeight,Zskiplist.zslCreateNode,Zskiplist.zslSetNodeHeight,Zskiplist.onLevel_level,update_self,
        update_of_ne apart]
      rfl
    · rw [Zskiplist.zslGetHeight,Zskiplist.zslCreateNode,Zskiplist.zslSetNodeHeight,Zskiplist.onLevel_level,update_self,
        update_of_ne (some_ne_none node).symm]
      rfl
    · exact ⟨update_of_ne (other x member) _ _,update_of_ne (other x member) _ _⟩
  · rw [Zskiplist.zslGetNodeHeight,Zskiplist.zslCreateNode,Zskiplist.zslSetNodeHeight,Zskiplist.onLevel_level,update_self,
      update_self]
    exact Int.toNat_natCast level

theorem zslInsert (valid : Valid z h ids) (fresh : node ∉ ids) {level : Nat} (positive : 1 ≤ level) (bounded : level ≤ maxLevel)
    (score : S) {ele : E} (newElement : ele ∉ ids.map z.ele) :
    ∃ z' pre post, z.zslInsert node level score ele = some z' ∧ ids = pre ++ post ∧ Valid z' (Function.update h node level) (pre ++ node :: post) ∧
      z'.score = Function.update z.score node score ∧ z'.ele = Function.update z.ele node ele := by
  obtain ⟨created,stored⟩ := valid.zslCreateNode fresh level score ele
  have eleEq : (z.zslCreateNode node level score ele).ele = Function.update z.ele node ele := rfl
  have others : ids.map (Function.update z.ele node ele) = ids.map z.ele :=
    map_congr_left fun x member => update_of_ne (fun (same : x = node) => fresh (same ▸ member)) _ _
  obtain ⟨z',pre,post,done,split,valid',score',ele'⟩ := created.zslInsertNode fresh (by rw [eleEq,others,update_self]; exact newElement)
    (by rw [stored,update_self]) (by rw [update_self]; exact positive) (by rw [update_self]; exact bounded)
  exact ⟨z',pre,post,done,split,valid',score',ele'⟩

variable {pre post : List Nat}

section
variable (valid : Valid z h (pre ++ node :: post))
include valid

theorem locate : ∃ path, z.locate node = some path ∧ Traces h pre path z.zslGetHeight := by
  obtain ⟨path,before,behind,found,split,-,traces,went,stopped⟩ := valid.search_spec fun _ y => z.zslCompareNodes (some y) (some node) == .lt
  obtain ⟨-,fromNode,across⟩ := List.pairwise_append.mp valid.sorted
  obtain ⟨later,-⟩ := List.pairwise_cons.mp fromNode
  have same : before = pre ∧ behind = node :: post := by
    rcases append_eq_append_cons split.symm with ⟨k,whole,-⟩ | ⟨k,whole,rest⟩
    · -- the search does not go beyond the node
      obtain ⟨s,y,last⟩ := (List.eq_nil_or_concat' (node :: k)).resolve_left (List.cons_ne_nil node k)
      have earlier := (z.zslCompareNodes_eq_lt y node).mp (eq_of_beq (went (pre ++ s) y (by rw [whole,last,List.append_assoc])))
      have member : y ∈ node :: post := by
        have inSplit : y ∈ node :: k := last ▸ List.mem_append_right s (List.mem_singleton_self y)
        have cut : node :: post = node :: k ++ behind := by
          rw [whole,List.append_assoc] at split
          exact List.append_cancel_left split
        rw [cut]
        exact List.mem_append_left behind inSplit
      rcases List.mem_cons.mp member with rfl | after
      · exact absurd earlier (Zskiplist.Before.irrefl z y)
      · exact absurd ((later y after).trans earlier) (Zskiplist.Before.irrefl z node)
    · cases k with
      | nil => exact ⟨by rw [whole,List.append_nil],rest⟩
      | cons y k =>
        have earlier := across y (whole ▸ List.mem_append_right before List.mem_cons_self) node List.mem_cons_self
        have beyond := stopped y _ rest
        rw [(z.zslCompareNodes_eq_lt y node).mpr earlier] at beyond
        exact absurd beyond (by decide)
  obtain ⟨rfl,-⟩ := same
  refine ⟨path,?_,traces⟩
  have positive : ∀ x ∈ before ++ node :: post, 1 ≤ h x := valid.positive
  obtain ⟨update,-⟩ := traces.zero valid.height_pos fun x member => positive x (List.mem_append_left _ member)
  have next : (z.level 0 (updateAt path 0)).forward = some node := by rw [update,valid.bottom rfl,List.head?_cons]
  rw [Zskiplist.locate,Zskiplist.searchNode,found]
  change Option.bind (if _ then some () else none) _ = _
  rw [if_pos next]
  rfl

theorem zslDeleteNode {path : List (Option Nat × Int)} (traces : Traces h pre path z.zslGetHeight) :
    Valid (z.zslDeleteNode node path) h (pre ++ post) := by
  have sub : (pre ++ post).Sublist (pre ++ node :: post) := List.Sublist.append_left (sublist_cons_self node post) pre
  exact {
    valid.toLinked.zslDeleteNode traces with
    sorted := Sorted.congr (valid.sorted.sublist sub) fun x _ => by rw [z.zslDeleteNode_score,z.zslDeleteNode_ele]; exact ⟨rfl,rfl⟩
    elements := by
      rw [z.zslDeleteNode_ele]
      exact valid.elements.sublist (sub.map z.ele) }

theorem zslDelete :
    ∃ z', z.zslDelete node = some z' ∧ Valid z' h (pre ++ post) ∧ z'.score = z.score ∧ z'.ele = z.ele := by
  obtain ⟨path,found,traces⟩ := valid.locate
  refine ⟨z.zslDeleteNode node path,?_,valid.zslDeleteNode traces,z.zslDeleteNode_score node path,z.zslDeleteNode_ele node path⟩
  rw [Zskiplist.zslDelete,found]
  rfl

theorem next : (z.level 0 (some node)).forward = post.head? := by
  have link := valid.bottom (append_cons pre node post)
  rwa [getLast?_concat] at link

theorem fits_spec {newscore : S} (fits : z.fits node newscore) :
    (∀ s y, pre = s ++ [y] → z.score y < newscore) ∧ ∀ y r, post = y :: r → newscore < z.score y := by
  rw [Zskiplist.fits,valid.backward pre node post rfl,valid.next,Bool.and_eq_true] at fits
  refine ⟨fun s y last => ?_,fun y r first => ?_⟩
  · have left := fits.1
    rw [last,getLast?_concat] at left
    exact of_decide_eq_true left
  · have right := fits.2
    rw [first,List.head?_cons] at right
    exact of_decide_eq_true right

theorem setScore {newscore : S} (fits : z.fits node newscore) :
    Valid { z with score := Function.update z.score node newscore } h (pre ++ node :: post) := by
  obtain ⟨last,first⟩ := valid.fits_spec fits
  obtain ⟨fresh,-⟩ := nodup_cons.mp (nodup_middle.mp valid.distinct)
  have others : ∀ x ∈ pre ++ post, Function.update z.score node newscore x = z.score x :=
    fun x member => update_of_ne (fun (same : x = node) => fresh (same ▸ member)) _ _
  have sub : (pre ++ post).Sublist (pre ++ node :: post) := List.Sublist.append_left (sublist_cons_self node post) pre
  have rest : (pre ++ post).Pairwise ({ z with score := Function.update z.score node newscore } : Zskiplist S E).Before :=
    Sorted.congr (valid.sorted.sublist sub) fun x member => ⟨others x member,rfl⟩
  obtain ⟨left,right,-⟩ := List.pairwise_append.mp rest
  have linked : Linked { z with score := Function.update z.score node newscore } h (pre ++ node :: post) :=
    valid.toLinked.congr (fun _ _ => rfl) (fun _ _ => ⟨rfl,fun _ => rfl⟩) (fun _ _ => rfl) rfl rfl rfl rfl
  refine { linked with sorted := sorted_middle rest ?_ ?_, elements := valid.elements }
  · refine all_before left fun s y split => Or.inl ?_
    have member : y ∈ pre ++ post := List.mem_append_left post (split ▸ List.mem_append_right s (List.mem_singleton_self y))
    change Function.update z.score node newscore y < Function.update z.score node newscore node
    rw [others y member,update_self]
    exact last s y split
  · refine all_behind right fun y r split => Or.inl ?_
    have member : y ∈ pre ++ post := List.mem_append_right pre (split ▸ List.mem_cons_self)
    change Function.update z.score node newscore node < Function.update z.score node newscore y
    rw [others y member,update_self]
    exact first y r split

theorem zslUpdateScore (newscore : S) :
    ∃ z' pre' post', z.zslUpdateScore node newscore = some z' ∧ pre ++ post = pre' ++ post' ∧ Valid z' h (pre' ++ node :: post') ∧
      z'.score = Function.update z.score node newscore ∧ z'.ele = z.ele := by
  rw [Zskiplist.zslUpdateScore]
  split
  · rename_i fits
    exact ⟨_,pre,post,rfl,rfl,valid.setScore fits,rfl,rfl⟩
  obtain ⟨path,found,traces⟩ := valid.locate
  obtain ⟨fresh,-⟩ := nodup_cons.mp (nodup_middle.mp valid.distinct)
  have deleted := valid.zslDeleteNode traces
  have member : node ∈ pre ++ node :: post := List.mem_append_right pre List.mem_cons_self
  have rescored : Valid { z.zslDeleteNode node path with score := Function.update (z.zslDeleteNode node path).score node newscore } h (pre ++ post) := by
    refine deleted.of_linked (deleted.toLinked.congr (fun _ _ => rfl) (fun _ _ => ⟨rfl,fun _ => rfl⟩) (fun _ _ => rfl) rfl rfl rfl rfl) fun x inRest => ⟨?_,rfl⟩
    exact update_of_ne (fun (same : x = node) => fresh (same ▸ inRest)) _ _
  have newElement : z.ele node ∉ (pre ++ post).map z.ele := by
    have elements := valid.elements
    rw [map_append,map_cons] at elements
    rw [map_append]
    exact (nodup_cons.mp (nodup_middle.mp elements)).1
  have stored : (z.zslDeleteNode node path).zslGetNodeHeight node = h node := (z.zslDeleteNode_nodeHeight node path node).trans (valid.stored node member)
  obtain ⟨z',pre',post',done,split,valid',score,ele⟩ := rescored.zslInsertNode fresh (by
    rw [z.zslDeleteNode_ele]
    exact newElement) stored (valid.positive node member) (valid.bounded node member)
  refine ⟨z',pre',post',?_,split,valid',?_,?_⟩
  · rw [found]
    exact done
  · rw [score,z.zslDeleteNode_score]
  · exact ele.trans (z.zslDeleteNode_ele node path)

end

theorem deleteWhile {path : List (Option Nat × Int)} (removed : List Nat) (go : Nat → Nat → Bool) {rounds : Nat} (enough : post.length < rounds)
    (valid : Valid z h (pre ++ post)) (traces : Traces h pre path z.zslGetHeight) :
    ∃ z' gone rest, z.deleteWhile path go rounds post.head? removed = some (z',removed ++ gone) ∧ post = gone ++ rest ∧ Valid z' h (pre ++ rest) ∧
      z'.score = z.score ∧ z'.ele = z.ele ∧ (∀ s y t, gone = s ++ y :: t → go (removed.length + s.length) y = true) ∧
      ∀ y r, rest = y :: r → go (removed.length + gone.length) y = false := by
  induction rounds generalizing z post removed with
  | zero => exact absurd enough (Nat.not_lt_zero _)
  | succ rounds ih =>
    have nothing : ∀ s y t, [] = s ++ y :: t → go (removed.length + s.length) y = true :=
      fun s y t split => absurd split.symm (append_ne_nil_of_right_ne_nil s (List.cons_ne_nil y t))
    cases post with
    | nil => exact ⟨z,[],[],by rw [head?_nil,Zskiplist.deleteWhile,List.append_nil],rfl,valid,rfl,rfl,nothing,nofun⟩
    | cons x post =>
      rw [List.head?_cons,Zskiplist.deleteWhile]
      cases going : go removed.length x with
      | false =>
        refine ⟨z,[],x :: post,?_,rfl,valid,rfl,rfl,nothing,fun y r split => ?_⟩
        · rw [List.append_nil]
          rfl
        · rw [← (cons_eq_cons.mp split).1]
          exact going
      | true =>
        have deleted := valid.zslDeleteNode traces
        have lower : (z.zslDeleteNode x path).zslGetHeight ≤ z.zslGetHeight :=
          z.zslDeleteNode_height x path ▸ (shrink_spec (z.unlinked x path) valid.height_pos).2.1
        obtain ⟨z',gone,rest,done,split,valid',score,ele,all,stop⟩ := ih (removed ++ [x]) (Nat.lt_of_succ_lt_succ enough) deleted (traces.mono lower)
        rw [if_pos rfl,valid.next]
        refine ⟨z',x :: gone,rest,?_,by rw [split,cons_append],valid',score.trans (z.zslDeleteNode_score x path),ele.trans (z.zslDeleteNode_ele x path),?_,?_⟩
        · rw [done,List.append_assoc,singleton_append]
        · intro s y t whole
          cases s with
          | nil =>
            rw [← (cons_eq_cons.mp whole).1]
            exact going
          | cons v s =>
            have went := all s y t (cons_eq_cons.mp whole).2
            rwa [length_append,length_singleton,Nat.add_assoc,Nat.add_comm 1] at went
        · intro y r whole
          have stopped := stop y r whole
          rwa [length_append,length_singleton,Nat.add_assoc,Nat.add_comm 1] at stopped

theorem deleteRange (valid : Valid z h ids) (go : Int → Nat → Bool) (test : List (Option Nat × Int) → Nat → Nat → Bool) :
    ∃ z' path pre gone rest, ((z.search go).bind fun path => z.deleteFrom path (test path)) = some (z',gone) ∧ ids = pre ++ (gone ++ rest) ∧
      rankAt path 0 = pre.length ∧ Valid z' h (pre ++ rest) ∧ z'.score = z.score ∧ z'.ele = z.ele ∧
      (∀ s y, pre = s ++ [y] → go (s.length + 1) y = true) ∧ (∀ y r, gone ++ rest = y :: r → go (pre.length + 1) y = false) ∧
      (∀ s y t, gone = s ++ y :: t → test path s.length y = true) ∧ ∀ y r, rest = y :: r → test path gone.length y = false := by
  obtain ⟨path,pre,post,found,rfl,-,traces,went,stopped⟩ := valid.search_spec go
  have positive : ∀ x ∈ pre ++ post, 1 ≤ h x := valid.positive
  obtain ⟨update,rank⟩ := traces.zero valid.height_pos fun x member => positive x (List.mem_append_left post member)
  have enough : post.length < z.length.toNat + 1 := by
    have size := valid.length
    rw [length_append] at size
    omega
  have first : (z.level 0 (updateAt path 0)).forward = post.head? := by rw [update,valid.bottom rfl]
  obtain ⟨z',gone,rest,done,split,valid',score,ele,all,stop⟩ := valid.deleteWhile [] (test path) enough traces
  simp only [length_nil,Nat.zero_add,nil_append] at done all stop
  refine ⟨z',path,pre,gone,rest,?_,by rw [split],rank,valid',score,ele,went,?_,all,stop⟩
  · rw [found,bind_some,Zskiplist.deleteFrom,first]
    exact done
  · rw [← split]
    exact stopped

end Valid

end ValkeyWasm.Skiplist

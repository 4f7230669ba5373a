import ValkeyWasm.Skiplist.Order

/-! Runs of calls on a skip list that starts empty. -/
namespace ValkeyWasm.Skiplist
open Library.Tower List

variable {S E : Type} [LinearOrder S] [LinearOrder E]

inductive Call (S E : Type) where
  | insert (node level : Nat) (score : S) (ele : E)
  | delete (node : Nat)
  | updateScore (node : Nat) (newscore : S)
  | deleteRangeByScore (range : Zrangespec S)
  | deleteRangeByLex (range : Zlexrangespec E)
  | deleteRangeByRank (start stop : Nat)

/-- A skip list with the addresses of the nodes that its owner has put in. -/
structure Owned (S E : Type) where
  list : Zskiplist S E
  nodes : List Nat

/-- What the owner takes care of: a new node is at a free address and has a new element, and the
node of a deletion or of a new score is in the list. -/
def Owned.Allows (o : Owned S E) : Call S E → Prop
  | .insert node level _ ele => node ∉ o.nodes ∧ ele ∉ o.nodes.map o.list.ele ∧ 1 ≤ level ∧ level ≤ maxLevel
  | .delete node => node ∈ o.nodes
  | .updateScore node _ => node ∈ o.nodes
  | _ => True

instance (o : Owned S E) : (call : Call S E) → Decidable (o.Allows call)
  | .insert _ _ _ _ => inferInstanceAs (Decidable (_ ∧ _ ∧ _ ∧ _))
  | .delete _ => inferInstanceAs (Decidable (_ ∈ _))
  | .updateScore _ _ => inferInstanceAs (Decidable (_ ∈ _))
  | .deleteRangeByScore _ => inferInstanceAs (Decidable True)
  | .deleteRangeByLex _ => inferInstanceAs (Decidable True)
  | .deleteRangeByRank _ _ => inferInstanceAs (Decidable True)

def Owned.perform (o : Owned S E) : Call S E → Option (Owned S E)
  | .insert node level score ele => (o.list.zslInsert node level score ele).map fun z => ⟨z,node :: o.nodes⟩
  | .delete node => (o.list.zslDelete node).map fun z => ⟨z,o.nodes.erase node⟩
  | .updateScore node newscore => (o.list.zslUpdateScore node newscore).map fun z => ⟨z,o.nodes⟩
  | .deleteRangeByScore range => (o.list.zslDeleteRangeByScore range).map fun (z,gone) => ⟨z,o.nodes.filter (· ∉ gone)⟩
  | .deleteRangeByLex range => (o.list.zslDeleteRangeByLex range).map fun (z,gone) => ⟨z,o.nodes.filter (· ∉ gone)⟩
  | .deleteRangeByRank start stop => (o.list.zslDeleteRangeByRank start stop).map fun (z,gone) => ⟨z,o.nodes.filter (· ∉ gone)⟩

/-- The calls of a script, without those that the owner does not make. -/
def Owned.run (o : Owned S E) (calls : List (Call S E)) : Option (Owned S E) :=
  calls.foldlM (fun o call => if o.Allows call then o.perform call else some o) o

def Owned.Good (o : Owned S E) : Prop := ∃ h ids, Valid o.list h ids ∧ ids.Perm o.nodes

theorem valid_zslCreate (score : Nat → S) (ele : Nat → E) (backward : Nat → Option Nat) (level : Nat → Nat → Link Nat) :
    Valid (Zskiplist.zslCreate score ele backward level) (fun _ => 1) [] where
  distinct := nodup_nil
  stored x member := absurd member not_mem_nil
  positive x member := absurd member not_mem_nil
  bounded x member := absurd member not_mem_nil
  height := Zskiplist.zslGetHeight_zslSetHeight _ 1
  chained i lt := by
    rw [Zskiplist.zslCreate,Zskiplist.zslGetHeight_zslSetHeight] at lt
    obtain rfl : i = 0 := Nat.lt_one_iff.mp lt
    intro c d split _
    obtain ⟨rfl,rfl⟩ := append_eq_nil_iff.mp split.symm
    exact ⟨(Zskiplist.zslSetHeight_links _ 1 0 none).1,fun positive => absurd positive (Nat.lt_irrefl 0)⟩
  above i _ := (Zskiplist.zslSetHeight_links _ 1 i none).1
  backward c x d split := absurd split.symm (append_ne_nil_of_right_ne_nil c (cons_ne_nil x d))
  tail := rfl
  length := rfl
  sorted := List.Pairwise.nil
  elements := nodup_nil

namespace Owned
variable {o : Owned S E}

theorem Good.deleteRange (good : o.Good) (go : Int → Nat → Bool) (test : List (Option Nat × Int) → Nat → Nat → Bool) :
    ∃ o', ((o.list.search go).bind fun path => o.list.deleteFrom path (test path)).map (fun (z,gone) => (⟨z,o.nodes.filter (· ∉ gone)⟩ : Owned S E)) = some o' ∧
      o'.Good := by
  obtain ⟨h,ids,valid,perm⟩ := good
  obtain ⟨z',path,pre,gone,rest,done,split,-,valid',-⟩ := valid.deleteRange go test
  have kept : ids.filter (· ∉ gone) = pre ++ rest := by
    have distinct := valid.distinct
    rw [split] at distinct ⊢
    obtain ⟨-,others,apart⟩ := nodup_append.mp distinct
    obtain ⟨-,-,behind⟩ := nodup_append.mp others
    rw [filter_append,filter_append,filter_eq_self.mpr,filter_eq_nil_iff.mpr,filter_eq_self.mpr,nil_append]
    · exact fun x member => decide_eq_true fun inGone => behind x inGone x member rfl
    · exact fun x member notIn => of_decide_eq_true notIn member
    · exact fun x member => decide_eq_true fun inGone => apart x member x (mem_append_left rest inGone) rfl
  refine ⟨⟨z',o.nodes.filter (· ∉ gone)⟩,by rw [done]; rfl,h,pre ++ rest,valid',?_⟩
  rw [← kept]
  exact perm.filter _

theorem Good.perform (good : o.Good) (call : Call S E) (allowed : o.Allows call) : ∃ o', o.perform call = some o' ∧ o'.Good := by
  cases call with
  | insert node level score ele =>
    obtain ⟨h,ids,valid,perm⟩ := good
    obtain ⟨fresh,newElement,positive,bounded⟩ := allowed
    obtain ⟨z',pre,post,done,rfl,valid',-,-⟩ := valid.zslInsert (mt perm.mem_iff.mp fresh) positive bounded score
      (mt (perm.map o.list.ele).mem_iff.mp newElement)
    exact ⟨⟨z',node :: o.nodes⟩,by rw [Owned.perform,done]; rfl,_,_,valid',perm_middle.trans (perm.cons node)⟩
  | delete node =>
    obtain ⟨h,ids,valid,perm⟩ := good
    obtain ⟨pre,post,rfl⟩ := append_of_mem (perm.mem_iff.mpr allowed)
    obtain ⟨z',done,valid',-,-⟩ := valid.zslDelete
    refine ⟨⟨z',o.nodes.erase node⟩,by rw [Owned.perform,done]; rfl,h,_,valid',?_⟩
    have erased := (perm_middle.symm.trans perm).erase node
    rwa [erase_cons_head] at erased
  | updateScore node newscore =>
    obtain ⟨h,ids,valid,perm⟩ := good
    obtain ⟨pre,post,rfl⟩ := append_of_mem (perm.mem_iff.mpr allowed)
    obtain ⟨z',pre',post',done,split,valid',-,-⟩ := valid.zslUpdateScore newscore
    refine ⟨⟨z',o.nodes⟩,by rw [Owned.perform,done]; rfl,h,_,valid',?_⟩
    exact (perm_middle.trans (split ▸ perm_middle.symm)).trans perm
  | deleteRangeByScore range => exact good.deleteRange _ _
  | deleteRangeByLex range => exact good.deleteRange _ _
  | deleteRangeByRank start stop => exact good.deleteRange _ _

theorem Good.run (good : o.Good) (calls : List (Call S E)) : ∃ o', o.run calls = some o' ∧ o'.Good := by
  induction calls generalizing o with
  | nil => exact ⟨o,rfl,good⟩
  | cons call calls ih =>
    rw [Owned.run,foldlM_cons]
    by_cases allowed : o.Allows call
    · obtain ⟨o',done,good'⟩ := good.perform call allowed
      rw [if_pos allowed,done]
      exact ih good'
    · rw [if_neg allowed]
      exact ih good

end Owned

/-- Every run of calls on an empty skip list returns, and the list that it leaves is in order and
linked at every level, with right spans, backward links, tail, length and height. -/
theorem skiplist_invariant (score : Nat → S) (ele : Nat → E) (backward : Nat → Option Nat) (level : Nat → Nat → Link Nat) (calls : List (Call S E)) :
    ∃ o : Owned S E, Owned.run ⟨Zskiplist.zslCreate score ele backward level,[]⟩ calls = some o ∧ ∃ h ids, Valid o.list h ids ∧ ids.Perm o.nodes := by
  have empty : Owned.Good ⟨Zskiplist.zslCreate score ele backward level,[]⟩ := ⟨_,[],valid_zslCreate score ele backward level,List.Perm.refl []⟩
  exact empty.run calls

end ValkeyWasm.Skiplist

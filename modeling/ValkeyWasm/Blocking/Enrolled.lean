import ValkeyWasm.Blocking.Entries

/-! One database and the clients that wait in it: what its lists and its counts of clients to wake without a key say,
as one relation to the keys each client waits for, and how filing and releasing an entry move that relation. -/

namespace ValkeyWasm.Blocking
open List Option Nat AList

section
variable {C K : Type} [DecidableEq K]

def positive (n : Nat) : Option Nat := if n = 0 then none else some n

/-- `waits c key` is the address of the node that stands for client `c` in the list of `key`. -/
structure Enrolled (waits : C → K → Option Nat) (flag : C → Bool) (db : Database C K) (next : Nat) : Prop where
  listed : ∀ key (node : Node C), node ∈ db.waiting key ↔ waits node.value key = some node.address
  nonempty : ∀ key, db.blockingKeys.lookup key ≠ some []
  distinct : ∀ key, ((db.waiting key).map Node.address).Nodup
  counted : ∀ key,
    db.blockingKeysUnblockOnNokey.lookup key = positive ((db.waiting key).countP fun node => flag node.value)
  fresh : ∀ key, ∀ node ∈ db.waiting key, node.address < next

def revise [DecidableEq C] (waits : C → K → Option Nat) (c : C) (key : K) (entry : Option Nat) : C → K → Option Nat :=
  fun c' key' => if c' = c ∧ key' = key then entry else waits c' key'

theorem positive_ne_zero {n : Nat} (nonzero : n ≠ 0) : positive n = some n := if_neg nonzero

theorem positive_getD (n : Nat) : (positive n).getD 0 = n := by
  unfold positive
  split
  · simp_all
  · rfl

namespace Database

theorem waiting_of_lookup {db : Database C K} {key : K} {l : List (Node C)} (found : db.blockingKeys.lookup key = some l) :
    db.waiting key = l := by
  simp [waiting,found]

theorem waiting_enlist_self (db : Database C K) (key : K) (node : Node C) (nokey : Bool) :
    (db.enlist key node nokey).waiting key = db.waiting key ++ [node] := by
  simp [waiting,enlist]

theorem waiting_enlist_ne (db : Database C K) {key other : K} (node : Node C) (nokey : Bool) (differ : other ≠ key) :
    (db.enlist key node nokey).waiting other = db.waiting other := by
  simp only [waiting,enlist,lookup_insert_ne differ]

end Database

theorem listUnlinkNode_split {l : List (Node C)} {node : Node C} (member : node ∈ l)
    (distinct : (l.map Node.address).Nodup) :
    ∃ before after, l = before ++ node :: after ∧ listUnlinkNode l node.address = some (before ++ after) := by
  obtain ⟨before,after,rfl⟩ := append_of_mem member
  refine ⟨before,after,rfl,?_⟩
  have found : (before ++ node :: after).any (fun other => other.address = node.address) := by simp
  have apart : ∀ other ∈ before ++ after, other.address ≠ node.address := by
    intro other inside same
    rw [map_append,map_cons,nodup_middle,← map_append] at distinct
    exact (nodup_cons.mp distinct).1 (same ▸ mem_map_of_mem inside)
  rw [listUnlinkNode,if_pos found,filter_append,filter_cons_of_neg (by simp)]
  congr 2
  · exact filter_eq_self.mpr fun other inside => by simpa using apart other (mem_append_left _ inside)
  · exact filter_eq_self.mpr fun other inside => by simpa using apart other (mem_append_right _ inside)

variable {key : K}

theorem dropNokey_some {db : Database C K} {n : Nat}
    (found : db.blockingKeysUnblockOnNokey.lookup key = some (n + 1)) :
    ∃ nokey, db.dropNokey key = some nokey ∧ nokey.lookup key = positive n ∧
      ∀ other, other ≠ key → nokey.lookup other = db.blockingKeysUnblockOnNokey.lookup other := by
  unfold Database.dropNokey
  rw [found]
  cases n with
  | zero =>
    exact ⟨_,rfl,by simp [positive],fun other differ => lookup_erase_ne differ⟩
  | succ n =>
    exact ⟨_,rfl,by simp [positive],fun other differ => lookup_insert_ne differ⟩

namespace Enrolled
variable [DecidableEq C] {waits : C → K → Option Nat} {flag : C → Bool} {db : Database C K} {next : Nat}

section
variable (enrolled : Enrolled waits flag db next)
include enrolled

variable {c : C} {pos : Nat}

section
omit [DecidableEq C]

theorem lookup_of_waits
    (waiting : waits c key = some pos) :
    ⟨pos,c⟩ ∈ db.waiting key ∧ db.blockingKeys.lookup key = some (db.waiting key) := by
  have member : (⟨pos,c⟩ : Node C) ∈ db.waiting key := (enrolled.listed key ⟨pos,c⟩).mpr waiting
  refine ⟨member,?_⟩
  cases found : db.blockingKeys.lookup key with
  | none => simp [Database.waiting,found] at member
  | some l => simp [Database.waiting,found]

theorem values_nodup (key : K) : ((db.waiting key).map Node.value).Nodup := by
  have nodes : (db.waiting key).Nodup := List.Nodup.of_map _ (enrolled.distinct key)
  refine (nodup_map_iff_inj_on nodes).mpr ?_
  intro node first other second same
  have one := (enrolled.listed key node).mp first
  have two := (enrolled.listed key other).mp second
  cases node
  cases other
  simp_all

theorem congr_flag {flag' : C → Bool}
    (same : ∀ c key pos, waits c key = some pos → flag' c = flag c) : Enrolled waits flag' db next where
  listed := enrolled.listed
  nonempty := enrolled.nonempty
  distinct := enrolled.distinct
  counted key := by
    rw [enrolled.counted key]
    congr 1
    refine countP_congr fun node member => ?_
    rw [same node.value key node.address ((enrolled.listed key node).mp member)]
  fresh := enrolled.fresh

theorem mono {later : Nat} (le : next ≤ later) :
    Enrolled waits flag db later where
  listed := enrolled.listed
  nonempty := enrolled.nonempty
  distinct := enrolled.distinct
  counted := enrolled.counted
  fresh key node member := lt_of_lt_of_le (enrolled.fresh key node member) le

end

variable {db' : Database C K}

omit [DecidableEq C] in
theorem congr_db
    (lists : db'.blockingKeys = db.blockingKeys)
    (counts : db'.blockingKeysUnblockOnNokey = db.blockingKeysUnblockOnNokey) : Enrolled waits flag db' next := by
  have same : db'.waiting = db.waiting := by
    funext key
    simp [Database.waiting,lists]
  constructor
  · rw [same]
    exact enrolled.listed
  · rw [lists]
    exact enrolled.nonempty
  · rw [same]
    exact enrolled.distinct
  · rw [same,counts]
    exact enrolled.counted
  · rw [same]
    exact enrolled.fresh

theorem enlist {nokey : Bool} (absent : waits c key = none)
    (marked : flag c = nokey) :
    Enrolled (revise waits c key (some next)) flag (db.enlist key ⟨next,c⟩ nokey) (next + 1) where
  listed other node := by
    unfold revise
    by_cases here : other = key
    · subst here
      rw [Database.waiting_enlist_self,mem_append,mem_singleton,enrolled.listed]
      by_cases self : node.value = c
      · have none_listed : waits node.value other = none := self ▸ absent
        rw [if_pos ⟨self,rfl⟩,none_listed]
        constructor
        · rintro (old | rfl)
          · cases old
          · rfl
        cases node
        simp_all
      · rw [if_neg (fun both => self both.1)]
        constructor
        · rintro (old | rfl)
          · exact old
          · exact absurd rfl self
        · exact Or.inl
    · rw [Database.waiting_enlist_ne _ _ _ here,if_neg (fun both => here both.2)]
      exact enrolled.listed other node
  nonempty other := by
    by_cases here : other = key
    · subst here
      simp [Database.enlist]
    · simp only [Database.enlist,lookup_insert_ne here]
      exact enrolled.nonempty other
  distinct other := by
    by_cases here : other = key
    · subst here
      rw [Database.waiting_enlist_self,map_append]
      refine List.Nodup.append (enrolled.distinct other) (nodup_singleton _) ?_
      intro address old new
      obtain ⟨node,member,rfl⟩ := mem_map.mp old
      have bound := enrolled.fresh other node member
      rw [mem_singleton.mp new] at bound
      exact absurd bound (lt_irrefl next)
    · rw [Database.waiting_enlist_ne _ _ _ here]
      exact enrolled.distinct other
  counted other := by
    by_cases here : other = key
    · subst here
      rw [Database.waiting_enlist_self,countP_append,countP_singleton,marked]
      cases nokey with
      | false => simpa [Database.enlist] using enrolled.counted other
      | true =>
        have one_more : (db.enlist other ⟨next,c⟩ true).blockingKeysUnblockOnNokey.lookup other =
            some ((db.blockingKeysUnblockOnNokey.lookup other).getD 0 + 1) := by simp [Database.enlist]
        rw [one_more,enrolled.counted other,positive_getD]
        exact (positive_ne_zero (succ_ne_zero _)).symm
    · rw [Database.waiting_enlist_ne _ _ _ here,← enrolled.counted other]
      unfold Database.enlist
      split
      · exact lookup_insert_ne here
      · rfl
  fresh other node member := by
    by_cases here : other = key
    · subst here
      rw [Database.waiting_enlist_self,mem_append,mem_singleton] at member
      rcases member with old | rfl
      · exact lt_succ_of_lt (enrolled.fresh other node old)
      · exact lt_succ_self next
    · rw [Database.waiting_enlist_ne _ _ _ here] at member
      exact lt_succ_of_lt (enrolled.fresh other node member)

theorem of_released
    {before after : List (Node C)} (split : db.waiting key = before ++ ⟨pos,c⟩ :: after)
    (here : db'.waiting key = before ++ after) (nonempty : db'.blockingKeys.lookup key ≠ some [])
    (count : db'.blockingKeysUnblockOnNokey.lookup key =
      positive ((before ++ after).countP fun node => flag node.value))
    (elsewhere : ∀ other, other ≠ key → db'.blockingKeys.lookup other = db.blockingKeys.lookup other ∧
      db'.blockingKeysUnblockOnNokey.lookup other = db.blockingKeysUnblockOnNokey.lookup other) :
    Enrolled (revise waits c key none) flag db' next := by
  have same : ∀ other, other ≠ key → db'.waiting other = db.waiting other := by
    intro other differ
    simp [Database.waiting,(elsewhere other differ).1]
  have sublist : List.Sublist (db'.waiting key) (db.waiting key) := by
    rw [here,split]
    exact (List.Sublist.refl before).append (sublist_cons_self _ _)
  have alone : ∀ node ∈ before ++ after, node.value ≠ c := by
    intro node member self
    have values := enrolled.values_nodup key
    rw [split,map_append,map_cons,nodup_middle,← map_append] at values
    exact (nodup_cons.mp values).1 (mem_map.mpr ⟨node,member,self⟩)
  constructor
  · intro other node
    unfold revise
    by_cases at_key : other = key
    · subst at_key
      by_cases self : node.value = c
      · rw [if_pos ⟨self,rfl⟩,here]
        exact ⟨fun member => absurd self (alone node member),nofun⟩
      · rw [if_neg (fun both => self both.1),here,← enrolled.listed other node,split]
        have differ : node ≠ ⟨pos,c⟩ := fun equal => self (equal ▸ rfl)
        simp [differ]
    · rw [same other at_key,if_neg (fun both => at_key both.2)]
      exact enrolled.listed other node
  · intro other
    by_cases at_key : other = key
    · exact at_key ▸ nonempty
    · rw [(elsewhere other at_key).1]
      exact enrolled.nonempty other
  · intro other
    by_cases at_key : other = key
    · subst at_key
      exact (sublist.map _).nodup (enrolled.distinct other)
    · rw [same other at_key]
      exact enrolled.distinct other
  · intro other
    by_cases at_key : other = key
    · subst at_key
      rw [here]
      exact count
    · rw [same other at_key,(elsewhere other at_key).2]
      exact enrolled.counted other
  · intro other node member
    by_cases at_key : other = key
    · subst at_key
      exact enrolled.fresh other node (sublist.subset member)
    · rw [same other at_key] at member
      exact enrolled.fresh other node member

theorem release (waiting : waits c key = some pos) :
    ∃ db', db.release key pos (flag c) = some db' ∧ db'.readyKeys = db.readyKeys ∧
      Enrolled (revise waits c key none) flag db' next := by
  obtain ⟨member,found⟩ := enrolled.lookup_of_waits waiting
  obtain ⟨before,after,split,unlinked⟩ := listUnlinkNode_split member (enrolled.distinct key)
  have count := enrolled.counted key
  rw [split,countP_append,countP_cons] at count
  unfold Database.release
  rw [found,bind_some,unlinked,bind_some]
  by_cases empty : (before ++ after).isEmpty
  · rw [if_pos empty]
    refine ⟨_,rfl,rfl,enrolled.of_released split ?_ ?_ ?_ ?_⟩
    · simp [Database.waiting,isEmpty_iff.mp empty]
    · simp
    · simp [isEmpty_iff.mp empty,positive]
    · exact fun other differ => ⟨lookup_erase_ne differ,lookup_erase_ne differ⟩
  · rw [if_neg empty]
    have left : before ++ after ≠ [] := fun nil => empty (isEmpty_iff.mpr nil)
    cases marked : flag c with
    | false =>
      rw [marked] at count
      refine ⟨_,rfl,rfl,enrolled.of_released split ?_ ?_ ?_ ?_⟩
      · simp [Database.waiting]
      · simpa using left
      · simpa using count
      · exact fun other differ => ⟨lookup_insert_ne differ,rfl⟩
    | true =>
      have one_more : db.blockingKeysUnblockOnNokey.lookup key =
          some ((before ++ after).countP (fun node => flag node.value) + 1) := by
        rw [count,marked]
        simp [positive,add_assoc]
      obtain ⟨nokey,dropped,lookup_key,lookup_ne⟩ := dropNokey_some one_more
      rw [dropped]
      refine ⟨_,rfl,rfl,enrolled.of_released split ?_ ?_ lookup_key ?_⟩
      · simp [Database.waiting]
      · simpa using left
      · exact fun other differ => ⟨lookup_insert_ne differ,lookup_ne other differ⟩

end

end Enrolled

end

end ValkeyWasm.Blocking

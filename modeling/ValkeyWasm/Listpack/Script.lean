import ValkeyWasm.Listpack.Refinement

/-! Scripts of listpack calls.
In whatever order they come, every call does to the listpack what it does to the list of its
elements, and the listpack reads as that list from both ends and at every index. -/
namespace ValkeyWasm.Listpack
open Library.Memory Util List Option Nat
open Hashtable (Layout)

variable {L : Layout}

theorem lpNew_formed {capacity : Nat} (a : Allocation L (max capacity (headerSize + 1))) : Formed (Block.lpNew a) [] := by
  have roomy := a.roomy
  refine ⟨nofun,by decide,le_trans (le_max_right _ _) roomy,a.fits,?_,Or.inl ?_,?_⟩
  · refine (readLE_writeBytes_disjoint _ (Or.inl (by decide))).trans ?_
    refine (readLE_writeLE_disjoint _ _ (Or.inl (by decide))).trans ?_
    exact readLE_writeLE _ _ _ _
  · refine (readLE_writeBytes_disjoint _ (Or.inl (by decide))).trans ?_
    exact readLE_writeLE _ _ _ _
  · exact holds_writeBytes _ _ _

variable {es : List Str} {lp : Block L}

theorem Formed.lpLength (formed : Formed lp es) {rounds : Nat} (enough : es.length ≤ rounds) :
    ∃ lp', lp.lpLength rounds = some (es.length,lp') ∧ Formed lp' es := by
  have length := formed.length_lt
  have short := formed.short
  unfold uint32Max at short
  rw [Block.lpLength,formed.lpGetNumElements,bind_eq_bind,bind_some]
  split
  · rename_i known
    rw [formed.count.resolve_right known]
    exact ⟨lp,rfl,formed⟩
  have counted : lp.countLoop rounds (pointers headerSize es).head? 0 = some (0 + (pointers headerSize es).length) := by
    apply Block.countLoop_chain formed.within formed.lpGetTotalBytes formed.chain
    · rwa [length_pointers]
    · rw [length_pointers]
      omega
  rw [formed.lpFirst,bind_eq_bind,bind_some,counted,bind_some,length_pointers,zero_add]
  split
  · rename_i few
    refine ⟨_,rfl,formed.encoded,formed.short,formed.room,formed.placed,?_,Or.inl ?_,?_⟩
    · rw [← formed.total]
      exact readLE_writeLE_disjoint _ _ (by omega)
    · refine (readLE_writeLE _ _ _ _).trans (mod_eq_of_lt ?_)
      unfold numeleUnknown at few
      omega
    · refine formed.holds.congr ?_
      intro i from_ _
      exact writeLE_outside _ _ (by unfold headerSize at from_; omega)
  · exact ⟨lp,rfl,formed⟩

def position (length : Nat) (index : Int) : Option Nat :=
  if index < 0 then if 0 ≤ length + index then some (length + index).toNat else none
  else if index < length then some index.toNat else none

theorem position_lt {length k : Nat} {index : Int} (found : position length index = some k) : k < length := by
  unfold position at found
  grind

theorem Formed.lpSeek (formed : Formed lp es) (index : Int) :
    lp.lpSeek index = some ((position es.length index).bind fun k => (pointers headerSize es)[k]?) := by
  obtain ⟨last,ends,back⟩ := formed.backward
  have upward : ∀ steps, Block.hop lp.lpNext steps (pointers headerSize es).head? = some (pointers headerSize es)[steps]? :=
    fun steps => Block.hop_traverse (formed.forward le_rfl) steps
  have downward : ∀ steps, Block.hop lp.lpPrev steps last = some (pointers headerSize es).reverse[steps]? :=
    fun steps => Block.hop_traverse (back _ le_rfl) steps
  have beyond : ∀ k, es.length ≤ k → (pointers headerSize es)[k]? = none :=
    fun k past => getElem?_eq_none (by rwa [length_pointers])
  have mirrored : ∀ k steps, k + steps + 1 = es.length → (pointers headerSize es).reverse[steps]? = (pointers headerSize es)[k]? := by
    intro k steps sum
    rw [getElem?_reverse (by rw [length_pointers]; omega),length_pointers]
    congr 1
    omega
  unfold Block.lpSeek position
  rw [formed.lpGetNumElements,bind_eq_bind,bind_some,formed.lpFirst,ends]
  simp only [bind_eq_bind,bind_some,upward,downward]
  rcases Decidable.em (readLE lp.bytes 4 2 = numeleUnknown) with unknown | known
  · rw [if_neg (not_not_intro unknown)]
    rcases Int.lt_or_le index 0 with negative | positive
    · rw [if_pos negative,if_pos negative]
      split
      · rw [bind_some,mirrored (es.length + index).toNat _ (by omega)]
      · rw [bind_none,getElem?_eq_none (by rw [length_reverse,length_pointers]; omega)]
    rw [if_neg (by omega),if_neg (by omega)]
    split
    · rfl
    · rw [bind_none,beyond _ (by omega)]
  · rw [if_pos known,formed.count.resolve_right known]
    have same : position es.length index =
        if 0 ≤ (if index < 0 then es.length + index else index) ∧ (if index < 0 then es.length + index else index) < es.length
        then some (if index < 0 then es.length + index else index).toNat else none := by
      unfold position
      grind
    unfold position at same
    rw [same]
    generalize (if index < 0 then es.length + index else index) = place
    rcases Decidable.em (0 ≤ place ∧ place < es.length) with inside | outside
    · rw [if_neg (by omega),if_neg (by omega),if_pos inside,bind_some]
      split
      · rw [mirrored place.toNat _ (by omega)]
      · rfl
    rw [if_neg outside]
    split
    · rfl
    · rw [if_pos (by omega)]
      rfl

inductive Call where
  | append (s : Str)
  | prepend (s : Str)
  | insertBefore (x : Item) (index : Int)
  | insertAfter (x : Item) (index : Int)
  | replace (x : Item) (index : Int)
  | delete (index : Int)
  | length

namespace Block

def insertItem (lp : Block L) (alloc : Allocator L) (x : Item) (p : Nat) (place : Where) : Option (Option (Block L × Option Nat)) :=
  match x with
  | .string s => lp.lpInsertString alloc s p place
  | .integer v => lp.lpInsertInteger alloc v.toInt p place

def replaceItem (lp : Block L) (alloc : Allocator L) (x : Item) (p : Nat) : Option (Option (Block L × Option Nat)) :=
  match x with
  | .string s => lp.lpReplace alloc p s
  | .integer v => lp.lpReplaceInteger alloc p v.toInt

def atIndex (lp : Block L) (index : Int) (call : Nat → Option (Option (Block L × Option Nat))) : Option (Option (Block L × Option Nat)) := do
  match ← lp.lpSeek index with
  | none => return some (lp,none)
  | some p => call p

def perform (lp : Block L) (alloc : Allocator L) : Call → Option (Option (Block L × Option Nat))
  | .append s => lp.lpAppend alloc s
  | .prepend s => lp.lpPrepend alloc s
  | .insertBefore x index => lp.atIndex index fun p => lp.insertItem alloc x p .before
  | .insertAfter x index => lp.atIndex index fun p => lp.insertItem alloc x p .after
  | .replace x index => lp.atIndex index fun p => lp.replaceItem alloc x p
  | .delete index => lp.atIndex index fun p => lp.lpDelete alloc p
  | .length => do
    let (_,lp') ← lp.lpLength lp.size
    return some (lp',none)

end Block

def Call.edit {α : Type} (f : Item → α) (l : List α) : Call → List α
  | append s => l ++ [f (.string s)]
  | prepend s => f (.string s) :: l
  | insertBefore x index => ((position l.length index).map fun k => l.insertIdx k (f x)).getD l
  | insertAfter x index => ((position l.length index).map fun k => l.insertIdx (k + 1) (f x)).getD l
  | replace x index => ((position l.length index).map fun k => l.set k (f x)).getD l
  | delete index => ((position l.length index).map fun k => l.eraseIdx k).getD l
  | length => l

/-- The place of the element that `*newp` points at after a call on a list of `n` elements: the new
one, or for a deletion the one that was behind. -/
def Call.named (n : Nat) : Call → Option Nat
  | append _ => some n
  | prepend _ => some 0
  | insertBefore _ index => position n index
  | insertAfter _ index => (position n index).map (· + 1)
  | replace _ index => position n index
  | delete index => position n index
  | length => none

theorem Call.edit_map {α β : Type} (g : α → β) (f : Item → α) (l : List α) (c : Call) : (c.edit f l).map g = c.edit (g ∘ f) (l.map g) := by
  cases c with
  | append s => simp [edit]
  | prepend s => simp [edit]
  | insertBefore x index =>
    simp only [edit,length_map]
    cases position l.length index with
    | none => rfl
    | some k => exact map_insertIdx g l k (f x)
  | insertAfter x index =>
    simp only [edit,length_map]
    cases position l.length index with
    | none => rfl
    | some k => exact map_insertIdx g l (k + 1) (f x)
  | replace x index =>
    simp only [edit,length_map]
    cases position l.length index with
    | none => rfl
    | some k => exact map_set
  | delete index =>
    simp only [edit,length_map]
    cases position l.length index with
    | none => rfl
    | some k => exact (eraseIdx_map g l k).symm
  | length => rfl

theorem Item.input_ne_delete (x : Item) : x.input ≠ .delete := by cases x <;> simp [Item.input]

def Gives (result : Option (Option (Block L × Option Nat))) (es : List Str) (newp : Option Nat) : Prop :=
  if totalBytes es ≤ uint32Max then ∃ lp', result = some (some (lp',newp)) ∧ Formed lp' es else result = some none

theorem Item.fits {x : Item} {pre post : List Str} (small : totalBytes (pre ++ ([x.bytes] ++ post)) ≤ uint32Max) : ∀ e ∈ [x.bytes], Encoded e := by
  intro e member
  rw [mem_singleton.mp member]
  rw [totalBytes_eq,body_cons,length_append,length_entryBytes] at small
  unfold uint32Max at small
  exact (x.encoded (fun _ => 0)).1 (by omega)

theorem insertIdx_length {α : Type} (pre post : List α) (x : α) : (pre ++ post).insertIdx pre.length x = pre ++ x :: post := by
  induction pre with
  | nil => rfl
  | cons y pre ih => rw [cons_append,length_cons,insertIdx_succ_cons,ih,cons_append]

section Places
variable {lp : Block L} {pre post : List Str} {m : Str}

theorem Formed.insertAt_item (formed : Formed lp (pre ++ post)) (alloc : Allocator L) (x : Item) :
    Gives (lp.insertAt alloc x.input (headerSize + (body pre).length) false) (pre ++ x.bytes :: post)
      (pointers headerSize (pre ++ x.bytes :: post))[pre.length]? := by
  have formed : Formed lp (pre ++ ([] ++ post)) := formed
  refine insertAt_spec alloc formed (writes_item x) Item.fits (.insert x.input_ne_delete ?_) rfl
  simp only [length_append,length_singleton,length_nil]
  omega

theorem Formed.insertAt_replace (formed : Formed lp (pre ++ m :: post)) (alloc : Allocator L) (x : Item) :
    Gives (lp.insertAt alloc x.input (headerSize + (body pre).length) true) (pre ++ x.bytes :: post)
      (pointers headerSize (pre ++ x.bytes :: post))[pre.length]? := by
  have replaced := formed.replacedLen
  have formed : Formed lp (pre ++ ([m] ++ post)) := formed
  refine insertAt_spec alloc formed (writes_item x) Item.fits (.replace x.input_ne_delete ?_) ?_
  · simp only [length_append,length_singleton]
  · rw [replaced,body_cons]
    simp [body]

theorem Formed.insertAt_delete (formed : Formed lp (pre ++ m :: post)) (alloc : Allocator L) :
    Gives (lp.insertAt alloc .delete (headerSize + (body pre).length) true) (pre ++ post) (pointers headerSize (pre ++ post))[pre.length]? := by
  have replaced := formed.replacedLen
  have formed : Formed lp (pre ++ ([m] ++ post)) := formed
  refine insertAt_spec alloc formed writes_delete ?_ (.delete rfl ?_) ?_
  · exact nofun
  · simp only [length_append,length_singleton,length_nil]
    omega
  · rw [replaced,body_cons]
    simp [body]

theorem Block.insertItem_eq (lp : Block L) (alloc : Allocator L) (x : Item) (p : Nat) (place : Where) :
    lp.insertItem alloc x p place = lp.lpInsert alloc x.input p place := by cases x <;> rfl

theorem Block.replaceItem_eq (lp : Block L) (alloc : Allocator L) (x : Item) (p : Nat) :
    lp.replaceItem alloc x p = lp.lpInsert alloc x.input p .replace := by cases x <;> rfl

theorem Block.lpInsert_before (lp : Block L) (alloc : Allocator L) (x : Item) (p : Nat) :
    lp.lpInsert alloc x.input p .before = lp.insertAt alloc x.input p false := by
  rw [lpInsert,insertionPoint,if_neg x.input_ne_delete]
  rfl

theorem Block.lpInsert_replace (lp : Block L) (alloc : Allocator L) (ele : Input) (p : Nat) :
    lp.lpInsert alloc ele p .replace = lp.insertAt alloc ele p true := by
  rw [lpInsert,insertionPoint,ite_self]
  rfl

theorem Formed.lpInsert_after (formed : Formed lp (pre ++ m :: post)) (alloc : Allocator L) (x : Item) :
    lp.lpInsert alloc x.input (headerSize + (body pre).length) .after =
      lp.insertAt alloc x.input (headerSize + (body (pre ++ [m])).length) false := by
  have whole := totalBytes_eq pre [m] post
  have next : headerSize + (body (pre ++ [m])).length = headerSize + (body pre).length + (entryBytes m).length := by
    rw [body_append,length_append,body_cons]
    simp [body,add_assoc]
  have skip := (formed.rest_of.accepted formed.within formed.short).1.lpSkip
  have checked : lp.assertIntegrity (headerSize + (body (pre ++ [m])).length) 0 = some () := by
    apply formed.assertIntegrity (le_add_right _ _)
    rw [singleton_append,body_cons,length_append] at whole
    omega
  rw [Block.lpInsert,Block.insertionPoint,if_neg x.input_ne_delete]
  dsimp only
  simp only [skip,← next,bind_eq_bind,bind_some,checked,Option.pure_def]

theorem Formed.gives_at (formed : Formed lp es) {index : Int} {call : Nat → Option (Option (Block L × Option Nat))}
    {edit : Nat → List Str} {place : Nat → Nat} {named : Option Nat} (names : named = (position es.length index).map place)
    (gives : ∀ pre m post, es = pre ++ m :: post →
      Gives (call (headerSize + (body pre).length)) (edit pre.length) (pointers headerSize (edit pre.length))[place pre.length]?) :
    Gives (lp.atIndex index call) (((position es.length index).map edit).getD es)
      (named.bind fun k => (pointers headerSize (((position es.length index).map edit).getD es))[k]?) := by
  subst names
  rw [Block.atIndex,formed.lpSeek,bind_eq_bind,bind_some]
  cases found : position es.length index with
  | none =>
    rw [bind_none,map_none,getD_none,map_none,bind_none]
    unfold Gives
    rw [if_pos formed.short]
    exact ⟨lp,rfl,formed⟩
  | some k =>
    have below := position_lt found
    have split : es = es.take k ++ es[k] :: es.drop (k + 1) := by rw [getElem_cons_drop,take_append_drop]
    have length : (es.take k).length = k := length_take_of_le below.le
    have here := gives _ _ _ split
    have pointer := getElem?_pointers headerSize (es.take k) (es[k] :: es.drop (k + 1))
    rw [← split,length] at pointer
    rw [length] at here
    rw [bind_some,pointer]
    exact here

end Places

/-- Every call gives the edited entries, and `*newp` is the entry that it names. -/
theorem Formed.perform (formed : Formed lp es) (alloc : Allocator L) (c : Call) :
    Gives (lp.perform alloc c) (c.edit Item.bytes es)
      ((c.named es.length).bind fun k => (pointers headerSize (c.edit Item.bytes es))[k]?) := by
  have append : ∀ s, Gives (lp.lpAppend alloc s) (es ++ [(Item.string s).bytes]) (pointers headerSize (es ++ [(Item.string s).bytes]))[es.length]? := by
    intro s
    have word := two_pow_le L
    have short := formed.short
    have stands : Formed lp (es ++ []) := by rwa [append_nil]
    have given := stands.insertAt_item alloc (.string s)
    unfold uint32Max at short
    rw [Block.lpAppend,formed.lpGetTotalBytes,bind_eq_bind,bind_some,minus_eq (by unfold totalBytes; omega) (by omega)]
    rw [← Block.lpInsert_before] at given
    exact given
  cases c with
  | append s => exact append s
  | prepend s =>
    change Gives (lp.lpPrepend alloc s) ((Item.string s).bytes :: es) (pointers headerSize ((Item.string s).bytes :: es))[0]?
    rw [Block.lpPrepend,formed.lpFirst,bind_eq_bind,bind_some]
    cases es with
    | nil => exact append s
    | cons e es =>
      have formed : Formed lp ([] ++ e :: es) := formed
      have given := formed.insertAt_item alloc (.string s)
      rw [← Block.lpInsert_before] at given
      exact given
  | insertBefore x index =>
    refine formed.gives_at (map_id_apply).symm ?_
    intro pre m post split
    subst split
    rw [insertIdx_length,Block.insertItem_eq,Block.lpInsert_before]
    exact formed.insertAt_item alloc x
  | insertAfter x index =>
    refine formed.gives_at rfl ?_
    intro pre m post split
    subst split
    have behind := insertIdx_length (pre ++ [m]) post x.bytes
    rw [append_assoc,singleton_append,length_append,length_singleton] at behind
    have stands : Formed lp ((pre ++ [m]) ++ post) := by rwa [append_assoc]
    have given := stands.insertAt_item alloc x
    rw [length_append,length_singleton] at given
    rw [behind,Block.insertItem_eq,formed.lpInsert_after]
    exact given
  | replace x index =>
    refine formed.gives_at (map_id_apply).symm ?_
    intro pre m post split
    subst split
    rw [set_append_right _ _ le_rfl,Nat.sub_self,set_cons_zero,Block.replaceItem_eq,Block.lpInsert_replace]
    exact formed.insertAt_replace alloc x
  | delete index =>
    refine formed.gives_at (map_id_apply).symm ?_
    intro pre m post split
    subst split
    rw [eraseIdx_append_of_length_le le_rfl,Nat.sub_self,eraseIdx_cons_zero,Block.lpDelete,Block.lpInsert_replace]
    exact formed.insertAt_delete alloc
  | length =>
    obtain ⟨lp',counted,again⟩ := formed.lpLength (le_trans (by have := formed.length_lt; omega) formed.room)
    unfold Gives
    rw [Block.perform,counted]
    exact (if_pos formed.short).mpr ⟨lp',rfl,again⟩

structure Reads (intbuf : Bytes) (lp : Block L) (xs : List Str) (ps : List Nat) : Prop where
  first : lp.lpFirst = some ps.head?
  forward : ∀ rounds, ps.length ≤ rounds → Block.traverse lp.lpNext rounds ps.head? = some ps
  last : lp.lpLast = some ps.getLast?
  backward : ∀ rounds, ps.length ≤ rounds → Block.traverse lp.lpPrev rounds ps.getLast? = some ps.reverse
  texts : ps.mapM (lp.lpGetString intbuf) = some xs
  length : ∀ rounds, ps.length ≤ rounds → (lp.lpLength rounds).map (·.1) = some xs.length
  seek : ∀ index, lp.lpSeek index = some ((position xs.length index).bind fun k => ps[k]?)

theorem Block.traverse_start {next : Nat → Option (Option Nat)} {rounds : Nat} {start : Option Nat} {ps : List Nat}
    (walked : traverse next rounds start = some ps) : start = ps.head? := by
  cases start with
  | none =>
    rw [traverse] at walked
    cases walked
    rfl
  | some p =>
    cases rounds with
    | zero => cases walked
    | succ rounds =>
      simp only [traverse,bind_eq_bind,bind_eq_some_iff,Option.pure_def,Option.some.injEq] at walked
      obtain ⟨q,-,rest,-,rfl⟩ := walked
      rfl

theorem Formed.reads (formed : Formed lp es) (intbuf : Bytes) :
    Reads intbuf lp (es.map (textOf intbuf)) (pointers headerSize es) := by
  obtain ⟨last,ends,back⟩ := formed.backward
  have start : last = (pointers headerSize es).getLast? := by
    rw [← head?_reverse]
    exact Block.traverse_start (back _ le_rfl)
  subst start
  refine ⟨formed.lpFirst,?_,ends,?_,formed.rest.texts formed.within intbuf,?_,?_⟩
  · intro rounds enough
    rw [length_pointers] at enough
    exact formed.forward enough
  · intro rounds enough
    rw [length_pointers] at enough
    exact back rounds enough
  · intro rounds enough
    rw [length_pointers] at enough
    obtain ⟨lp',counted,-⟩ := formed.lpLength enough
    rw [counted,length_map]
    rfl
  · intro index
    rw [length_map]
    exact formed.lpSeek index

/-- A script of calls that is followed: before each call the listpack is well formed and reads as
the list; a call that keeps it below `2^32` bytes succeeds, edits the list and points at the
element it names, and one that does not returns `NULL`. -/
def Follows (intbuf : Bytes) : List (Allocator L × Call) → Block L → List Str → Prop
  | [], lp, es => Formed lp es ∧ ∃ ps, Reads intbuf lp (es.map (textOf intbuf)) ps
  | (alloc,c) :: script, lp, es => Formed lp es ∧ (∃ ps, Reads intbuf lp (es.map (textOf intbuf)) ps) ∧
    (totalBytes (c.edit Item.bytes es) ≤ uint32Max → ∃ lp' newp, lp.perform alloc c = some (some (lp',newp)) ∧
      (c.named es.length).elim (newp = none) (fun k => lp'.lpSeek k = some newp) ∧
      (c.edit Item.bytes es).map (textOf intbuf) = c.edit (Item.text intbuf) (es.map (textOf intbuf)) ∧
      Follows intbuf script lp' (c.edit Item.bytes es)) ∧
    (uint32Max < totalBytes (c.edit Item.bytes es) → lp.perform alloc c = some none)

theorem Call.edit_texts (intbuf : Bytes) (es : List Str) (c : Call) :
    (c.edit Item.bytes es).map (textOf intbuf) = c.edit (Item.text intbuf) (es.map (textOf intbuf)) := by
  have same : textOf intbuf ∘ Item.bytes = Item.text intbuf := funext fun x => (x.encoded intbuf).2
  rw [Call.edit_map,same]

theorem Formed.lpSeek_place (formed : Formed lp es) (k : Nat) : lp.lpSeek k = some (pointers headerSize es)[k]? := by
  rw [formed.lpSeek,position,if_neg (by omega)]
  split
  · rfl
  · rw [getElem?_eq_none (by rw [length_pointers]; omega)]
    rfl

/-- A listpack is a list of strings: along every script of calls. -/
theorem listpack_refines_list (intbuf : Bytes) (script : List (Allocator L × Call)) (lp : Block L) (es : List Str) (formed : Formed lp es) :
    Follows intbuf script lp es := by
  induction script generalizing lp es with
  | nil => exact ⟨formed,_,formed.reads intbuf⟩
  | cons step script ih =>
    obtain ⟨alloc,c⟩ := step
    have gives := formed.perform alloc c
    unfold Gives at gives
    refine ⟨formed,⟨_,formed.reads intbuf⟩,?_,?_⟩
    · intro small
      rw [if_pos small] at gives
      obtain ⟨lp',performed,again⟩ := gives
      refine ⟨lp',_,performed,?_,c.edit_texts intbuf es,ih lp' _ again⟩
      cases c.named es.length with
      | none => rfl
      | some k => exact again.lpSeek_place k
    · intro large
      rw [if_neg (by omega)] at gives
      exact gives

theorem exact_fits {n : Nat} (small : n ≤ uint32Max) : 4096 + n < 2^Layout.bits64.sizeBits := by
  unfold uint32Max at small
  simp only [Layout.sizeBits]
  omega

def exactAllocator : Allocator .bits64 := fun n small => ⟨4096,n,fun _ => 0,Nat.le_refl n,exact_fits small⟩

theorem listpack_refines_list_new : Follows (fun _ => 0)
    [(exactAllocator,.append [0x61]),(exactAllocator,.insertAfter (.integer 5) 0),(exactAllocator,.delete (-2)),(exactAllocator,.length)]
    (Block.lpNew (exactAllocator (max 0 (headerSize + 1)) (by decide))) [] :=
  listpack_refines_list _ _ _ _ (lpNew_formed _)

end ValkeyWasm.Listpack

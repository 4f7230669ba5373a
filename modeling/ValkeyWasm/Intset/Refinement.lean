import ValkeyWasm.Intset.Positions

/-! The intset as a set of 64-bit integers.
Each addition and removal is one edit of the ascending sequence, as long as the tail it
moves has fewer than 2^32 bytes; a longer tail is moved only in part. -/
namespace ValkeyWasm.Intset
open Library.Memory Library.SortedSequence List Nat Finset
open Hashtable (Layout)

inductive Call where
  | add (value : BitVec 64) (fresh : Bytes)
  | remove (value : BitVec 64) (fresh : Bytes)

def step (L : Layout) (is : Intset) : Call → Option (Intset × Bool)
  | .add value fresh => is.intsetAdd L fresh value.toInt
  | .remove value fresh => is.intsetRemove L fresh value.toInt

def run (L : Layout) : List Call → Intset → Option (Intset × List Bool)
  | [], is => some (is,[])
  | call :: rest, is => do
    let (next,success) ← is.step L call
    let (final,replies) ← run L rest next
    return (final,success :: replies)

def tailBytes (is : Intset) : Call → Nat
  | .add value _ =>
    if is.encoding.bytes < (intsetValueEncoding value.toInt).bytes then 0
    else
      match is.intsetSearch value.toInt with
      | (true,_) => 0
      | (false,pos) => (is.length - pos) * is.encoding.bytes
  | .remove value _ =>
    if (intsetValueEncoding value.toInt).bytes ≤ is.encoding.bytes then
      match is.intsetSearch value.toInt with
      | (true,pos) => (is.length - (pos + 1)) * is.encoding.bytes
      | (false,_) => 0
    else 0

def setStep (s : Finset Int) : Call → Finset Int × Bool
  | .add value _ => (insert value.toInt s,decide (value.toInt ∉ s))
  | .remove value _ => (s.erase value.toInt,decide (value.toInt ∈ s))

def setRun : List Call → Finset Int → Finset Int × List Bool
  | [], s => (s,[])
  | call :: rest, s =>
    let (next,success) := setStep s call
    let (final,replies) := setRun rest next
    (final,success :: replies)

/-- Along the run no tail of 2^32 bytes is moved and the length stays within the limit of `t_set.c`. -/
def Admitted (L : Layout) : List Call → Intset → Prop
  | [], _ => True
  | call :: rest, is => is.tailBytes call < 2^32 ∧
    ∀ next success, is.step L call = some (next,success) → next.length ≤ 2^30 ∧ Admitted L rest next

theorem fits_toInt (value : BitVec 64) : Fits 8 value.toInt := by
  have low := BitVec.le_toInt value
  have high := BitVec.toInt_lt (x := value)
  rw [fits_int64]
  omega

theorem upgradeLoop_spec (curenc : Encoding) (prepend : Nat) (length : Nat) (is : Intset) (narrow : curenc.bytes ≤ is.encoding.bytes) :
    (upgradeLoop curenc prepend length is).encoding = is.encoding ∧
    (upgradeLoop curenc prepend length is).length = is.length ∧
    (upgradeLoop curenc prepend length is).allocated = is.allocated ∧
    (∀ i < length, (upgradeLoop curenc prepend length is).intsetGetAt (i + prepend) = is.intsetGetEncoded i curenc) ∧
    ∀ i, length + prepend ≤ i → (upgradeLoop curenc prepend length is).intsetGetAt i = is.intsetGetAt i := by
  induction length generalizing is with
  | zero => exact ⟨rfl,rfl,rfl,fun i inside => absurd inside (not_lt_zero i),fun i _ => rfl⟩
  | succ length ih =>
    rw [upgradeLoop]
    generalize stored : is.intsetSet (length + prepend) (is.intsetGetEncoded length curenc) = next
    have encoding : next.encoding = is.encoding := by rw [← stored]; rfl
    -- the store starts at or after the end of the old values still to be read
    have earlier : ∀ i < length, next.intsetGetEncoded i curenc = is.intsetGetEncoded i curenc := by
      intro i inside
      apply getEncoded_congr
      intro k below
      rw [← stored]
      refine if_neg ?_
      have old := cell_le inside curenc.bytes
      have new := Nat.mul_le_mul (le_add_right length prepend) narrow
      omega
    obtain ⟨enc,len,size,moved,kept⟩ := ih next (by rw [encoding]; exact narrow)
    refine ⟨enc.trans encoding,len.trans (by rw [← stored]; rfl),size.trans (by rw [← stored]; rfl),?_,?_⟩
    · intro i inside
      rcases lt_or_ge i length with before | last
      · rw [moved i before,earlier i before]
      have same : i = length := by omega
      subst same
      rw [kept (i + prepend) le_rfl,← stored]
      apply getAt_set_self
      have fits := fits_getEncoded is i curenc
      exact fits_mono narrow fits
    · intro i after
      rw [kept i (by omega),← stored]
      exact getAt_set_of_ne _ (by omega)

structure Inserted (is next : Intset) (pos : Nat) (value : Int) : Prop where
  place : Place is.intsetGetAt is.length pos value
  length : next.length = is.length + 1
  allocated : next.allocated = next.length * next.encoding.bytes
  values : ∀ i < is.length + 1, next.intsetGetAt i = insertAt is.intsetGetAt pos value i

variable {is next : Intset} {value : Int} {pos : Nat}

theorem Inserted.valid (inserted : Inserted is next pos value) (valid : Valid is)
    (bounded : next.length ≤ 2^30) : Valid next := by
  refine ⟨?_,inserted.allocated,bounded⟩
  rw [inserted.length]
  exact (valid.increasing.inserted inserted.place).congr inserted.values

theorem Inserted.elements (inserted : Inserted is next pos value) :
    next.elements = insert value is.elements := by
  unfold Intset.elements
  rw [inserted.length,members_congr inserted.values]
  exact members_insertAt value inserted.place.le

variable {L : Layout} {fresh : Bytes}

theorem upgrade_inserted (valid : Valid is) (word : Fits 8 value)
    (narrow : is.encoding.bytes < (intsetValueEncoding value).bytes) (upgraded : is.intsetUpgradeAndAdd L fresh value = some next) :
    Inserted is next (if value < 0 then 0 else is.length) value := by
  have bounded := valid.bounded
  have whole : (is.length + 1) % 2^32 = is.length + 1 := mod_eq_of_lt (by omega)
  simp only [intsetUpgradeAndAdd,whole,Option.bind_eq_bind,Option.bind_eq_some_iff,Option.pure_def,Option.some.injEq] at upgraded
  obtain ⟨resized,resizing,rfl⟩ := upgraded
  have shape := resize_spec resizing
  have encoding : resized.encoding = intsetValueEncoding value := shape.encoding
  have old : ∀ i < is.length, resized.intsetGetEncoded i is.encoding = is.intsetGetAt i := by
    intro i inside
    apply getEncoded_congr
    intro k below
    have ends := cell_le inside is.encoding.bytes
    have grows : is.length * is.encoding.bytes ≤ (is.length + 1) * (intsetValueEncoding value).bytes :=
      Nat.mul_le_mul (le_succ is.length) narrow.le
    have held := valid.allocated
    exact shape.kept _ (by dsimp only; omega) (by dsimp only; omega)
  have outside : ∀ i < is.length, if value < 0 then value < is.intsetGetAt i else is.intsetGetAt i < value :=
    fun i _ => outside_of_narrow word narrow (fits_getEncoded is i is.encoding)
  have fits : Fits resized.encoding.bytes value := by
    rw [encoding]
    exact (valueEncoding_le_iff word).mp le_rfl
  obtain ⟨enc,-,size,moved,-⟩ := upgradeLoop_spec is.encoding (if value < 0 then 1 else 0) is.length resized (by rw [encoding]; exact narrow.le)
  generalize upgradeLoop is.encoding (if value < 0 then 1 else 0) is.length resized = loaded at enc size moved
  rw [← enc] at fits
  have sized : loaded.allocated = (is.length + 1) * loaded.encoding.bytes := by
    rw [size,shape.allocated,enc,encoding]
  by_cases negative : value < 0
  · simp only [negative,if_true] at outside moved ⊢
    refine ⟨⟨zero_le _,fun i before => absurd before (not_lt_zero i),fun i _ inside => outside i inside⟩,rfl,sized,?_⟩
    intro i inside
    change (loaded.intsetSet 0 value).intsetGetAt i = _
    unfold insertAt
    rw [if_neg (not_lt_zero i)]
    split
    · rename_i first
      rw [first]
      exact getAt_set_self fits 0
    · rename_i later
      rw [getAt_set_of_ne value later,← old (i - 1) (by omega),← moved (i - 1) (by omega),Nat.sub_add_cancel (by omega)]
  · simp only [negative,if_false] at outside moved ⊢
    refine ⟨⟨le_rfl,outside,fun i from_ inside => absurd inside (by omega)⟩,rfl,sized,?_⟩
    intro i inside
    change (loaded.intsetSet is.length value).intsetGetAt i = _
    unfold insertAt
    split
    · rename_i before
      rw [getAt_set_of_ne value (by omega),← old i before,← moved i before,add_zero]
    · rw [if_pos (by omega),show i = is.length by omega]
      exact getAt_set_self fits is.length

theorem getAt_moveTail {start : Nat} (target : Nat) (bounded : is.length ≤ 2^30) (le : start ≤ is.length)
    (fits : (is.length - start) * is.encoding.bytes < 2^32) :
    (∀ i < target, (is.intsetMoveTail start target).intsetGetAt i = is.intsetGetAt i) ∧
    ∀ k < is.length - start, (is.intsetMoveTail start target).intsetGetAt (target + k) = is.intsetGetAt (start + k) := by
  have entries : (is.length + 2^32 - start) % 2^32 = is.length - start := by omega
  unfold intsetGetAt intsetGetEncoded intsetMoveTail
  dsimp only
  rw [entries]
  refine ⟨fun i before => ?_,fun k inside => ?_⟩
  · rw [readLE_memmove_disjoint _ _ (Or.inl (cell_le before _))]
  · have ends := cell_le inside is.encoding.bytes
    rw [add_mul target,readLE_memmove _ _ (by omega),Nat.add_sub_cancel_left,add_mul start]

theorem getAt_resized {len : Nat} (resized : Resized is next len) (held : is.allocated = is.length * is.encoding.bytes)
    (i : Nat) (old : i < is.length) (new : i < len) : next.intsetGetAt i = is.intsetGetAt i := by
  unfold intsetGetAt
  rw [resized.encoding]
  apply getEncoded_congr
  intro k below
  have first := cell_le old is.encoding.bytes
  have second := cell_le new is.encoding.bytes
  exact resized.kept _ (by omega) (by omega)

variable {success : Bool}

theorem add_inserted (valid : Valid is)
    (word : Fits 8 value) (wide : ¬is.encoding.bytes < (intsetValueEncoding value).bytes) (missed : is.intsetSearch value = (false,pos))
    (fits : (is.length - pos) * is.encoding.bytes < 2^32) (added : is.intsetAdd L fresh value = some (next,success)) :
    Inserted is next pos value ∧ success = true := by
  have bounded := valid.bounded
  have place := search_false valid missed
  have le := place.le
  have whole : (is.length + 1) % 2^32 = is.length + 1 := mod_eq_of_lt (by omega)
  simp only [intsetAdd,if_neg wide,missed,whole,Option.bind_eq_bind,Option.bind_eq_some_iff,Option.pure_def,Option.some.injEq,
    mk.injEq] at added
  obtain ⟨resized,resizing,rfl,rfl⟩ := added
  have shape := resize_spec resizing
  have narrow : Fits resized.encoding.bytes value := by
    rw [shape.encoding]
    exact (valueEncoding_le_iff word).mp (Nat.le_of_not_lt wide)
  generalize moving : (if pos < resized.length then resized.intsetMoveTail pos (pos + 1) else resized) = moved
  have encoding : moved.encoding = resized.encoding := by rw [← moving]; split <;> rfl
  have allocated : moved.allocated = resized.allocated := by rw [← moving]; split <;> rfl
  have values : ∀ i < is.length + 1, i ≠ pos → moved.intsetGetAt i = if i < pos then is.intsetGetAt i else is.intsetGetAt (i - 1) := by
    intro i inside other
    rw [← moving]
    by_cases room : pos < resized.length
    · obtain ⟨front,back⟩ := getAt_moveTail (pos + 1) (by rw [shape.length]; exact bounded) room.le
        (by rw [shape.length,shape.encoding]; exact fits)
      rw [shape.length] at room back
      rw [if_pos (by rw [shape.length]; exact room)]
      split
      · rw [front i (by omega)]
        exact getAt_resized shape valid.allocated i (by omega) (by omega)
      · obtain ⟨k,rfl⟩ : ∃ k, i = pos + 1 + k := ⟨i - (pos + 1),by omega⟩
        rw [back k (by omega),show pos + 1 + k - 1 = pos + k by omega]
        exact getAt_resized shape valid.allocated (pos + k) (by omega) (by omega)
    · rw [if_neg room,if_pos (by rw [shape.length] at room; omega)]
      rw [shape.length] at room
      exact getAt_resized shape valid.allocated i (by omega) (by omega)
  refine ⟨⟨place,rfl,?_,?_⟩,rfl⟩
  · change moved.allocated = (is.length + 1) * moved.encoding.bytes
    rw [allocated,shape.allocated,encoding,shape.encoding]
  intro i inside
  change (moved.intsetSet pos value).intsetGetAt i = _
  unfold insertAt
  by_cases here : i = pos
  · subst here
    rw [if_neg (lt_irrefl i),if_pos rfl]
    exact getAt_set_self (by rw [encoding]; exact narrow) i
  · rw [getAt_set_of_ne value here,values i inside here,if_neg here]

theorem remove_erased (valid : Valid is)
    (wide : (intsetValueEncoding value).bytes ≤ is.encoding.bytes) (found : is.intsetSearch value = (true,pos))
    (fits : (is.length - (pos + 1)) * is.encoding.bytes < 2^32) (removed : is.intsetRemove L fresh value = some (next,success)) :
    next.length ≤ is.length ∧ Valid next ∧ next.elements = is.elements.erase value ∧ success = true := by
  have bounded := valid.bounded
  obtain ⟨inside,same⟩ := search_true valid found
  simp only [intsetRemove,if_pos wide,found,Option.bind_eq_bind,Option.bind_eq_some_iff,Option.pure_def,Option.some.injEq,
    mk.injEq] at removed
  obtain ⟨resized,resizing,rfl,rfl⟩ := removed
  have shape := resize_spec resizing
  generalize moving : (if pos < is.length - 1 then is.intsetMoveTail (pos + 1) pos else is) = moved at shape
  have allocated : moved.allocated = moved.length * moved.encoding.bytes := by
    rw [← moving]
    split
    · exact valid.allocated
    · exact valid.allocated
  have length : moved.length = is.length := by rw [← moving]; split <;> rfl
  have values : ∀ i < is.length - 1, resized.intsetGetAt i = eraseAt is.intsetGetAt pos i := by
    intro i below
    rw [getAt_resized shape allocated i (by omega) below,← moving]
    by_cases tail : pos < is.length - 1
    · obtain ⟨front,back⟩ := getAt_moveTail pos bounded inside fits
      rw [if_pos tail,eraseAt]
      split
      · rename_i before
        exact front i before
      · obtain ⟨k,rfl⟩ : ∃ k, i = pos + k := ⟨i - pos,by omega⟩
        rw [back k (by omega),add_right_comm]
    · rw [if_neg tail,eraseAt,if_pos (by omega)]
  refine ⟨sub_le _ _,⟨(valid.increasing.erased pos).congr values,?_,?_⟩,?_,rfl⟩
  · change resized.allocated = (is.length - 1) * resized.encoding.bytes
    rw [shape.allocated,shape.encoding]
  · change is.length - 1 ≤ 2^30
    omega
  · change members resized.intsetGetAt (is.length - 1) = (members is.intsetGetAt is.length).erase value
    rw [members_congr values,valid.increasing.members_erased inside,same]

theorem step_spec {call : Call} (valid : Valid is) (fits : is.tailBytes call < 2^32)
    (stepped : is.step L call = some (next,success)) :
    next.length ≤ is.length + 1 ∧ (next.length ≤ 2^30 → Valid next) ∧ setStep is.elements call = (next.elements,success) := by
  cases call with
  | add value fresh =>
    change is.intsetAdd L fresh value.toInt = some (next,success) at stepped
    by_cases narrow : is.encoding.bytes < (intsetValueEncoding value.toInt).bytes
    · simp only [intsetAdd,if_pos narrow,Option.bind_eq_bind,Option.bind_eq_some_iff,Option.pure_def,Option.some.injEq,
        mk.injEq] at stepped
      obtain ⟨_,upgraded,rfl,rfl⟩ := stepped
      have inserted := upgrade_inserted valid (fits_toInt value) narrow upgraded
      exact ⟨inserted.length.le,inserted.valid valid,by simp [setStep,inserted.elements,not_mem_of_narrow (fits_toInt value) narrow]⟩
    · rcases searched : is.intsetSearch value.toInt with ⟨found,pos⟩
      cases found with
      | true =>
        simp only [intsetAdd,if_neg narrow,searched] at stepped
        obtain ⟨rfl,rfl⟩ := stepped
        exact ⟨le_succ _,fun _ => valid,by simp [setStep,mem_of_found valid searched]⟩
      | false =>
        simp only [tailBytes,if_neg narrow,searched] at fits
        obtain ⟨inserted,rfl⟩ := add_inserted valid (fits_toInt value) narrow searched fits stepped
        have absent : value.toInt ∉ is.elements := (search_false valid searched).not_mem
        exact ⟨inserted.length.le,inserted.valid valid,by simp [setStep,inserted.elements,absent]⟩
  | remove value fresh =>
    change is.intsetRemove L fresh value.toInt = some (next,success) at stepped
    by_cases wide : (intsetValueEncoding value.toInt).bytes ≤ is.encoding.bytes
    · rcases searched : is.intsetSearch value.toInt with ⟨found,pos⟩
      cases found with
      | true =>
        simp only [tailBytes,if_pos wide,searched] at fits
        obtain ⟨shorter,sound,rest,rfl⟩ := remove_erased valid wide searched fits stepped
        exact ⟨le_succ_of_le shorter,fun _ => sound,by simp [setStep,rest,mem_of_found valid searched]⟩
      | false =>
        simp only [intsetRemove,if_pos wide,searched] at stepped
        obtain ⟨rfl,rfl⟩ := stepped
        have absent : value.toInt ∉ is.elements := (search_false valid searched).not_mem
        exact ⟨le_succ _,fun _ => valid,by simp [setStep,absent]⟩
    · simp only [intsetRemove,if_neg wide] at stepped
      obtain ⟨rfl,rfl⟩ := stepped
      have absent := not_mem_of_narrow (fits_toInt value) (Nat.lt_of_not_le wide)
      exact ⟨le_succ _,fun _ => valid,by simp [setStep,absent]⟩

theorem step_returns (is : Intset) (call : Call) (bounded : is.length ≤ 2^30) : ∃ result, is.step .bits64 call = some result := by
  cases call with
  | add value fresh =>
    change ∃ result, is.intsetAdd .bits64 fresh value.toInt = some result
    unfold intsetAdd intsetUpgradeAndAdd
    obtain ⟨upgraded,hu⟩ := resize_returns fresh {is with encoding := intsetValueEncoding value.toInt} (mod_lt (is.length + 1) (by decide : 2^32 > 0)).le
    obtain ⟨resized,hr⟩ := resize_returns fresh is (mod_lt (is.length + 1) (by decide : 2^32 > 0)).le
    split
    · simp only [hu]
      exact ⟨_,rfl⟩
    split
    · exact ⟨_,rfl⟩
    · simp only [hr]
      exact ⟨_,rfl⟩
  | remove value fresh =>
    change ∃ result, is.intsetRemove .bits64 fresh value.toInt = some result
    unfold intsetRemove
    split
    · split
      · exact ⟨_,rfl⟩
      rename_i pos searched
      obtain ⟨resized,hr⟩ := resize_returns fresh (if pos < is.length - 1 then is.intsetMoveTail (pos + 1) pos else is)
        (show is.length - 1 ≤ 2^32 by omega)
      simp [hr]
    · exact ⟨_,rfl⟩

theorem run_spec (script : List Call) (valid : Valid is) (admitted : Admitted L script is) :
    (L = .bits64 → ∃ result, run L script is = some result) ∧
    ∀ final replies, run L script is = some (final,replies) → Valid final ∧ setRun script is.elements = (final.elements,replies) := by
  induction script generalizing is with
  | nil =>
    refine ⟨fun _ => ⟨_,rfl⟩,?_⟩
    intro final replies ran
    cases ran
    exact ⟨valid,rfl⟩
  | cons call rest ih =>
    obtain ⟨fits,after⟩ := admitted
    constructor
    · rintro rfl
      obtain ⟨⟨next,success⟩,stepped⟩ := step_returns is call valid.bounded
      obtain ⟨bounded,others⟩ := after next success stepped
      obtain ⟨⟨final,replies⟩,ran⟩ := (ih ((step_spec valid fits stepped).2.1 bounded) others).1 rfl
      exact ⟨(final,success :: replies),by simp [run,stepped,ran]⟩
    · intro final replies ran
      simp only [run,Option.bind_eq_bind,Option.bind_eq_some_iff] at ran
      obtain ⟨⟨next,success⟩,stepped,⟨last,others⟩,ran,rfl,rfl⟩ := ran
      obtain ⟨bounded,admitted⟩ := after next success stepped
      obtain ⟨-,sound,agrees⟩ := step_spec valid fits stepped
      obtain ⟨ended,rest_agrees⟩ := (ih (sound bounded) admitted).2 last others ran
      exact ⟨ended,by simp [setRun,agrees,rest_agrees]⟩

theorem elements_new (fresh : Bytes) : (intsetNew fresh).elements = ∅ := rfl

theorem tailBytes_le (is : Intset) (call : Call) : is.tailBytes call ≤ is.length * 8 := by
  have wide : is.encoding.bytes ≤ 8 := by cases is.encoding <;> decide
  cases call <;> unfold tailBytes <;> dsimp only <;> split
  · exact zero_le _
  · split
    · exact zero_le _
    · exact Nat.mul_le_mul (sub_le _ _) wide
  · split
    · exact Nat.mul_le_mul (sub_le _ _) wide
    · exact zero_le _
  · exact zero_le _

theorem admitted_of_short (script : List Call) (valid : Valid is) (short : is.length + script.length ≤ 2^29) :
    Admitted L script is := by
  induction script generalizing is with
  | nil => trivial
  | cons call rest ih =>
    rw [length_cons] at short
    have tail := tailBytes_le is call
    have fits : is.tailBytes call < 2^32 := by omega
    refine ⟨fits,?_⟩
    intro next success stepped
    obtain ⟨grown,sound,-⟩ := step_spec valid fits stepped
    have bounded : next.length ≤ 2^30 := by omega
    exact ⟨bounded,ih (sound bounded) (by omega)⟩

/-- In a run in which every tail that is moved has fewer than 2^32 bytes, the intset is a set
of integers: it ascends, its values fit, it answers membership and it counts. -/
theorem intset_refines_set (L : Layout) (fresh : Bytes) (script : List Call) (admitted : Admitted L script (intsetNew fresh)) :
    (L = .bits64 → ∃ result, run L script (intsetNew fresh) = some result) ∧
    ∀ final replies, run L script (intsetNew fresh) = some (final,replies) →
      Increasing final.intsetGetAt final.length ∧ (∀ i, Fits final.encoding.bytes (final.intsetGetAt i)) ∧
      setRun script ∅ = (final.elements,replies) ∧ final.intsetLen = final.elements.card ∧
      ∀ value : BitVec 64, final.intsetFind value.toInt = true ↔ value.toInt ∈ final.elements := by
  obtain ⟨returns,sound⟩ := run_spec script (intsetNew_valid fresh) admitted
  refine ⟨returns,?_⟩
  intro final replies ran
  obtain ⟨valid,agrees⟩ := sound final replies ran
  exact ⟨valid.increasing,fun i => fits_getEncoded final i final.encoding,agrees,valid.card.symm,fun value => find_spec valid (fits_toInt value)⟩

def zeros : Bytes := fun _ => 0

def upgradeScript : List Call := [.add 5 zeros,.add (-3) zeros,.add 70000 zeros,.add 5 zeros,.remove 5 zeros,.remove 9 zeros]

theorem intset_refines_set_upgradeScript :
    ∃ final, run .bits64 upgradeScript (intsetNew zeros) = some (final,[true,true,true,false,true,false]) ∧ final.elements = {-3,70000} := by
  obtain ⟨returns,sound⟩ := intset_refines_set .bits64 zeros upgradeScript (admitted_of_short _ (intsetNew_valid zeros) (by decide))
  obtain ⟨⟨final,replies⟩,ran⟩ := returns rfl
  have agrees := (sound final replies ran).2.2.1
  have reference : setRun upgradeScript ∅ = ({-3,70000},[true,true,true,false,true,false]) := by decide
  rw [reference,Prod.mk.injEq] at agrees
  exact ⟨final,by rw [ran,← agrees.2],agrees.1.symm⟩

theorem run_append (first last : List Call) {middle : Intset} {replies : List Bool}
    (ran : run L first is = some (middle,replies)) :
    run L (first ++ last) is = (run L last middle).map (fun result => (result.1,replies ++ result.2)) := by
  induction first generalizing is replies with
  | nil =>
    cases ran
    simp
  | cons call rest ih =>
    simp only [run,Option.bind_eq_bind,Option.bind_eq_some_iff] at ran
    obtain ⟨⟨next,success⟩,stepped,⟨_,others⟩,ran,rfl,rfl⟩ := ran
    rw [cons_append,run,stepped]
    simp only [Option.bind_eq_bind,Option.bind_some,ih ran]
    cases run L last _ <;> rfl

theorem setRun_append (first last : List Call) (s : Finset Int) : (setRun (first ++ last) s).1 = (setRun last (setRun first s).1).1 := by
  induction first generalizing s with
  | nil => rfl
  | cons call rest ih => exact ih _

def ascendingScript (n : Nat) : List Call := (List.range n).map (fun i => .add (BitVec.ofNat 64 (2^40 + i)) zeros)

theorem toInt_consecutive {i : Nat} (below : i < 2^29) : (BitVec.ofNat 64 (2^40 + i)).toInt = 2^40 + i := by
  rw [BitVec.toInt_eq_toNat_of_lt,BitVec.toNat_ofNat,mod_eq_of_lt (by omega)]
  · norm_num
  · rw [BitVec.toNat_ofNat]
    omega

theorem setRun_ascending (n : Nat) (short : n ≤ 2^29) :
    (setRun (ascendingScript n) ∅).1 = (Finset.range n).image (fun i : Nat => (2^40 + i : Int)) := by
  induction n with
  | zero => rfl
  | succ n ih =>
    rw [ascendingScript,range_succ,map_append,setRun_append]
    change insert (BitVec.ofNat 64 (2^40 + n)).toInt (setRun (ascendingScript n) ∅).1 = _
    rw [ih (by omega),toInt_consecutive (by omega),range_add_one,image_insert]

theorem add_unmoved (valid : Valid is) (wide : is.encoding = .int64) (long : is.length = 2^29)
    (positive : ∀ i < is.length, 0 < is.intsetGetAt i) :
    ∃ next, is.intsetAdd .bits64 zeros 0 = some (next,true) ∧ next.length = 2^29 + 1 ∧ next.intsetGetAt 0 = 0 ∧ next.intsetGetAt (2^29) = 0 ∧
      ∀ i, 0 < i → i < 2^29 → next.intsetGetAt i = is.intsetGetAt i := by
  have missed : is.intsetSearch 0 = (false,0) := by
    unfold intsetSearch
    have last : Int.bmod (is.length - 1) (2^32) = (is.length - 1 : Nat) := by
      rw [Int.bmod_eq_of_le (by omega) (by omega)]
      omega
    have top := positive (is.length - 1) (by omega)
    have first := positive 0 (by omega)
    rw [last]
    rw [if_neg (by omega),Int.toNat_natCast,if_neg (by omega),if_pos first]
  obtain ⟨resized,resizing⟩ := resize_returns zeros is (show is.length + 1 ≤ 2^32 by omega)
  have shape := resize_spec resizing
  have encoding : resized.encoding = .int64 := by rw [shape.encoding,wide]
  have whole : (is.length + 1) % 2^32 = is.length + 1 := mod_eq_of_lt (by omega)
  have narrow : ¬is.encoding.bytes < (intsetValueEncoding 0).bytes := by
    rw [wide]
    decide
  have still : resized.intsetMoveTail 0 1 = resized := by
    have wrapped : (resized.length + 2^32 - 0) % 2^32 * resized.encoding.bytes % 2^32 = 0 := by
      rw [shape.length,encoding,long]
      decide
    have same : memmove resized.contents (1 * resized.encoding.bytes) (0 * resized.encoding.bytes) 0 = resized.contents := by
      funext i
      exact if_neg (by omega)
    unfold intsetMoveTail
    dsimp only
    rw [wrapped,same]
  refine ⟨{resized.intsetSet 0 0 with length := is.length + 1},?_,by rw [long],?_,?_,?_⟩
  · simp only [intsetAdd,if_neg narrow,missed,whole,resizing,Option.bind_eq_bind,Option.bind_some,Option.pure_def,zero_add,still,
      ite_self]
  · exact getAt_set_self (by rw [encoding]; exact fits_int64.mpr (by norm_num)) 0
  · change (resized.intsetSet 0 0).intsetGetAt (2^29) = 0
    rw [getAt_set_of_ne 0 (by decide)]
    have unwritten : ∀ k < 8, resized.contents (2^29 * 8 + k) = zeros (0 + k) := by
      intro k below
      simp only [intsetResize] at resizing
      split at resizing
      · cases resizing
        refine if_neg ?_
        have held := valid.allocated
        rw [long,wide] at held
        change is.allocated = 2^29 * 8 at held
        omega
      · cases resizing
    unfold intsetGetAt
    rw [encoding]
    change signed 8 (readLE resized.contents (2^29 * 8) 8) = 0
    rw [readLE_congr unwritten]
    decide
  · intro i later inside
    change (resized.intsetSet 0 0).intsetGetAt i = _
    rw [getAt_set_of_ne 0 (by omega)]
    exact getAt_resized shape valid.allocated i (by omega) (by omega)

/-- After 2^29 ascending values, adding 0 overwrites the smallest of them. -/
theorem intset_loses_tail :
    ∃ final replies, run .bits64 (ascendingScript (2^29) ++ [.add 0 zeros]) (intsetNew zeros) = some (final,replies) ∧
      final.intsetLen = 2^29 + 1 ∧ ¬Increasing final.intsetGetAt final.length ∧
      (setRun (ascendingScript (2^29) ++ [.add 0 zeros]) ∅).1 ≠ final.elements := by
  have count : (ascendingScript (2^29)).length = 2^29 := by rw [ascendingScript,length_map,length_range]
  obtain ⟨returns,sound⟩ := run_spec (L := .bits64) (ascendingScript (2^29)) (intsetNew_valid zeros)
    (admitted_of_short _ (intsetNew_valid zeros) (by rw [count]; exact le_of_eq (zero_add _)))
  obtain ⟨⟨is,replies⟩,ran⟩ := returns rfl
  obtain ⟨valid,agrees⟩ := sound is replies ran
  have held : is.elements = (Finset.range (2^29)).image (fun i : Nat => (2^40 + i : Int)) := by
    rw [← setRun_ascending (2^29) le_rfl,← elements_new zeros,agrees]
  have long : is.length = 2^29 := by
    rw [← valid.card,held,Finset.card_image_of_injective,card_range]
    intro i j same
    simpa using same
  have large : ∀ i < is.length, 2^40 ≤ is.intsetGetAt i := by
    intro i inside
    have member : is.intsetGetAt i ∈ is.elements := mem_members.mpr ⟨i,inside,rfl⟩
    rw [held,mem_image] at member
    obtain ⟨k,-,same⟩ := member
    omega
  have wide : is.encoding = .int64 := by
    have first := large 0 (by omega)
    have fits := fits_getEncoded is 0 is.encoding
    change 2^40 ≤ is.intsetGetEncoded 0 is.encoding at first
    generalize is.intsetGetEncoded 0 is.encoding = value at first fits
    cases enc : is.encoding with
    | int16 =>
      rw [enc] at fits
      have := fits_int16.mp fits
      omega
    | int32 =>
      rw [enc] at fits
      have := fits_int32.mp fits
      omega
    | int64 => rfl
  obtain ⟨next,added,len,first,last,rest⟩ := add_unmoved valid wide long (fun i inside => by have := large i inside; omega)
  refine ⟨next,replies ++ [true],?_,len,?_,?_⟩
  · rw [run_append _ _ ran]
    simp only [run,step,show (0 : BitVec 64).toInt = 0 from rfl,added,Option.bind_eq_bind,Option.bind_some,Option.pure_def,Option.map_some]
  · intro increasing
    have climbs := increasing 0 (2^29) (by decide) (by rw [len]; exact lt_succ_self _)
    rw [first,last] at climbs
    exact lt_irrefl _ climbs
  -- the smallest of the old values is in the set but no longer in the intset
  have lowest := large 0 (by omega)
  intro same
  have member : is.intsetGetAt 0 ∈ next.elements := by
    rw [← same,setRun_append,← elements_new zeros,agrees]
    exact Finset.mem_insert_of_mem (mem_members.mpr ⟨0,by omega,rfl⟩)
  obtain ⟨i,inside,found⟩ := mem_members.mp member
  rw [len] at inside
  rcases Nat.eq_zero_or_pos i with rfl | later
  · omega
  rcases lt_or_ge i (2^29) with before | ge
  · rw [rest i later before] at found
    have climbs := valid.increasing 0 i later (by omega)
    omega
  · rw [show i = 2^29 by omega] at found
    omega

end ValkeyWasm.Intset

import ValkeyWasm.Blocked.Waiting

/-! The commands that do not block are quiet, the STORE commands as long as their result does not take the
place of another value under a client that waits for its type. -/

namespace ValkeyWasm.Blocked
open Function List Option

variable {C K E : Type} {dbnum : Nat} {db : Fin dbnum} {key : K} {found : Option (Entry E)}

theorem LookedUp.visible_eq {s t : Server C K E dbnum}
    (look : LookedUp db key s found t) : Blocked.visible t db key = found := (look.visible db key).trans look.sees.symm

variable [DecidableEq K]

theorem lookupKey_cases (db : Fin dbnum) (key : K) (s : Server C K E dbnum) :
    ∃ found t, lookupKey db key s = (found,t) ∧ LookedUp db key s found t := ⟨_,_,rfl,lookupKey_spec db key s⟩

variable {s : Server C K E dbnum}

theorem Quiet.dbAdd {t : Server C K E dbnum} (quiet : Quiet s t) (waits : Waits s) (db : Fin dbnum) (key : K) (entry : Entry E) :
    Quiet s (dbAdd db key entry t) := quiet.trans (quiet_dbAdd (quiet.waits waits) db key entry)

theorem quiet_pushGenericCommand (waits : Waits s) (db : Fin dbnum) (key : K) (elements : Elements E) (side : ListEnd)
    (xx : Bool) : Quiet s (pushGenericCommand db key elements side xx s) := by
  obtain ⟨found,t,run,look⟩ := lookupKey_cases db key s
  unfold pushGenericCommand
  simp only [run]
  split
  · split
    · exact look.quiet
    · exact look.quiet.dbAdd waits db key _
  split
  · rename_i entry old value
    refine look.quiet.trans (quiet_updateValue look.visible_eq ?_)
    rintro v ⟨⟩
    rw [value]
    rfl
  · exact look.quiet

theorem quiet_zaddGenericCommand (waits : Waits s) (db : Fin dbnum) (key : K)
    (add : Option (Elements E) → Option (Elements E)) : Quiet s (zaddGenericCommand db key add s) := by
  obtain ⟨found,t,run,look⟩ := lookupKey_cases db key s
  unfold zaddGenericCommand
  simp only [run]
  split
  · split
    · exact look.quiet
    · exact look.quiet.dbAdd waits db key _
  split
  · rename_i entry old value
    split
    · exact look.quiet
    refine look.quiet.trans (quiet_updateValue look.visible_eq ?_)
    rintro v ⟨⟩
    rw [value]
    rfl
  · exact look.quiet

theorem spares_string (waits : Waits s) (db : Fin dbnum) (key : K) : Spares s db key .string := by
  intro c member same
  obtain ⟨-,waiting⟩ := (waits.waiting db key c).mp member
  rw [waits.idle c same.symm] at waiting
  cases waiting

variable {value : Value E}

theorem quiet_setKey_spared (waits : Waits s)
    {expire : Option Int} (spared : found.isSome → Spares s db key value) :
    Quiet s (setKey db key value found expire s) := by
  cases found with
  | none => exact quiet_dbAdd waits db key _
  | some old => exact quiet_dbSetValue waits (spared rfl)

theorem quiet_setGenericCommand (waits : Waits s) (db : Fin dbnum) (key : K) (nx xx keepttl : Bool) (expire : Option Int) :
    Quiet s (setGenericCommand db key nx xx keepttl expire s) := by
  obtain ⟨found,t,run,look⟩ := lookupKey_cases db key s
  have waits' := look.quiet.waits waits
  unfold setGenericCommand
  simp only [run]
  split
  · exact look.quiet
  split
  · exact look.quiet.trans (quiet_dbDelete db key t)
  · exact look.quiet.trans (quiet_setKey_spared waits' fun _ => spares_string waits' db key)

theorem quiet_delGenericCommand (db : Fin dbnum) (keys : List K) : ∀ s : Server C K E dbnum,
    Quiet s (delGenericCommand db keys s) := by
  induction keys with
  | nil => exact fun s => .refl s
  | cons key rest ih =>
    intro s
    exact ((lookupKey_spec db key s).quiet.trans (quiet_dbDelete db key _)).trans (ih _)

theorem change_type {keep : List E → List E} {after : Value E} (changed : value.change keep = some after) :
    after.type = value.type := by
  cases value <;> simp only [Value.change,map_eq_some_iff,some.injEq] at changed
  case list elements =>
    obtain ⟨left,-,rfl⟩ := changed
    rfl
  case zset elements =>
    obtain ⟨left,-,rfl⟩ := changed
    rfl
  all_goals
    subst changed
    rfl

theorem quiet_removeElements (db : Fin dbnum) (key : K) (keep : List E → List E) (s : Server C K E dbnum) :
    Quiet s (removeElements db key keep s) := by
  obtain ⟨found,t,run,look⟩ := lookupKey_cases db key s
  unfold removeElements
  simp only [run]
  split
  · exact look.quiet
  · exact look.quiet.trans (quiet_updateValue look.visible_eq fun v changed => change_type changed)

theorem updateValue_keys {db' : Fin dbnum} {key' : K} (other : ¬(db' = db ∧ key' = key)) (entry : Entry E)
    (value : Option (Value E)) (s : Server C K E dbnum) : (updateValue db key entry value s).keys db' key' = s.keys db' key' := by
  cases value with
  | none =>
    change (dbDelete db key s).keys db' key' = _
    rw [dbDelete_keys,if_neg other]
  | some v =>
    change (s.setKey db key _).keys db' key' = _
    rw [setKey_keys,if_neg other]

theorem ofList_list {items : List E} {v : Value E} (left : (Elements.ofList items).map Value.list = some v) : v.type = .list := by
  obtain ⟨elements,-,rfl⟩ := map_eq_some_iff.mp left
  rfl

section
variable (waits : Waits s)
include waits

theorem quiet_lmoveElement {src dst : K} {entry : Entry E} {elements : Elements E} {target : Option (Entry E)} (sees : visible s db src = some entry) (list : entry.value = .list elements)
    (there : visible s db dst = target) (wherefrom whereto : ListEnd) :
    Quiet s (lmoveElement db src entry elements dst target wherefrom whereto s) := by
  have type : entry.value.type = .list := by rw [list]; rfl
  unfold lmoveElement
  dsimp only
  split
  · refine quiet_updateValue sees ?_
    rintro v ⟨⟩
    exact type.symm
  rename_i different
  have apart : ¬(db = db ∧ src = dst) := fun same => different same.2
  split
  · have pushed := quiet_dbAdd waits db dst { value := .list (listTypePush whereto [] (elements.pop wherefrom).1), expire := -1 }
    refine pushed.trans (quiet_updateValue ?_ fun v left => (ofList_list left).trans type.symm)
    rw [visible_congr pushed.now (by rw [dbAdd_keys,if_neg apart])]
    exact sees
  rename_i other
  split
  · rename_i old value
    have pushed : Quiet s (updateValue db dst other (some (.list (listTypePush whereto old.items (elements.pop wherefrom).1))) s) := by
      refine quiet_updateValue there ?_
      rintro v ⟨⟩
      rw [value]
      rfl
    refine pushed.trans (quiet_updateValue ?_ fun v left => (ofList_list left).trans type.symm)
    rw [visible_congr pushed.now (updateValue_keys apart _ _ s)]
    exact sees
  · exact .refl s

theorem quiet_lmoveGenericCommand (db : Fin dbnum) (src dst : K) (wherefrom whereto : ListEnd) :
    Quiet s (lmoveGenericCommand db src dst wherefrom whereto s) := by
  obtain ⟨found,t,run,look⟩ := lookupKey_cases db src s
  unfold lmoveGenericCommand
  simp only [run]
  split
  · exact look.quiet
  split
  · rename_i entry elements list
    obtain ⟨target,u,run',look'⟩ := lookupKey_cases db dst t
    simp only [run']
    have waits' := look'.quiet.waits (look.quiet.waits waits)
    refine (look.quiet.trans look'.quiet).trans (quiet_lmoveElement waits' ?_ list look'.visible_eq wherefrom whereto)
    exact (look'.visible db src).trans look.visible_eq
  · exact look.quiet

theorem quiet_renameGenericCommand (db : Fin dbnum) (src dst : K) (nx : Bool) :
    Quiet s (renameGenericCommand db src dst nx s) := by
  obtain ⟨found,t,run,look⟩ := lookupKey_cases db src s
  unfold renameGenericCommand
  simp only [run]
  split
  · exact look.quiet
  split
  · exact look.quiet
  obtain ⟨existing,u,run',look'⟩ := lookupKey_cases db dst t
  simp only [run']
  have looked := look.quiet.trans look'.quiet
  split
  · exact looked
  · exact ((looked.trans (quiet_dbDelete db dst u)).trans (quiet_dbDelete db src _)).dbAdd waits db dst _

theorem quiet_moveCommand (src dst : Fin dbnum) (key : K) : Quiet s (moveCommand src key dst s) := by
  unfold moveCommand
  split
  · exact .refl s
  obtain ⟨found,t,run,look⟩ := lookupKey_cases src key s
  simp only [run]
  split
  · exact look.quiet
  obtain ⟨existing,u,run',look'⟩ := lookupKey_cases dst key t
  simp only [run']
  have looked := look.quiet.trans look'.quiet
  split
  · exact looked
  · exact (looked.trans (quiet_dbDelete src key u)).dbAdd waits dst key _

theorem quiet_copyCommand (src dst : Fin dbnum) (key newkey : K) (replace : Bool) :
    Quiet s (copyCommand src key dst newkey replace s) := by
  unfold copyCommand
  split
  · exact .refl s
  obtain ⟨found,t,run,look⟩ := lookupKey_cases src key s
  simp only [run]
  split
  · exact look.quiet
  obtain ⟨existing,u,run',look'⟩ := lookupKey_cases dst newkey t
  simp only [run']
  have looked := look.quiet.trans look'.quiet
  split
  · exact looked
  · exact (looked.trans (quiet_dbDelete dst newkey u)).dbAdd waits dst newkey _

theorem quiet_restoreCommand (db : Fin dbnum) (key : K) (payload : Option (Value E)) (ttl : Int)
    (absttl replace : Bool) : Quiet s (restoreCommand db key payload ttl absttl replace s) := by
  obtain ⟨found,t,run,look⟩ : ∃ found t, (if replace then (none,s) else lookupKey db key s) = (found,t) ∧ Quiet s t := by
    cases replace with
    | true => exact ⟨none,s,rfl,.refl s⟩
    | false => exact ⟨_,_,rfl,(lookupKey_spec db key s).quiet⟩
  unfold restoreCommand
  simp only [run]
  split
  · exact look
  split
  · exact look
  have deleted : Quiet s (if replace then dbDelete db key t else t) := by
    cases replace with
    | true => exact look.trans (quiet_dbDelete db key t)
    | false => exact look
  generalize (if replace then dbDelete db key t else t) = u at deleted ⊢
  generalize (if ttl = 0 then -1 else if absttl then ttl else ttl + u.now) = expire
  split
  · exact deleted
  · exact deleted.dbAdd waits db key _

end

theorem lookupKeys_spec (db : Fin dbnum) (sources : List K) : ∀ s : Server C K E dbnum,
    ∃ t, lookupKeys db sources s = (sources.map fun key => (visible s db key).map Entry.value,t) ∧ Quiet s t ∧
      ∀ db' key', visible t db' key' = visible s db' key' := by
  induction sources with
  | nil => exact fun s => ⟨s,rfl,.refl s,fun _ _ => rfl⟩
  | cons key rest ih =>
    intro s
    obtain ⟨found,u,run,look⟩ := lookupKey_cases db key s
    obtain ⟨t,run',quiet,same⟩ := ih u
    refine ⟨t,?_,look.quiet.trans quiet,fun db' key' => (same db' key').trans (look.visible db' key')⟩
    simp only [lookupKeys,run,run',map_cons,look.sees,look.visible]

/-- The STORE command overwrites a key with a value of the type some client waits for on that key. -/
def storeOvertakes [DecidableEq C] (db : Fin dbnum) (sources : List K) (dst : K)
    (result : List (Option (Value E)) → Option (Value E)) (s : Server C K E dbnum) : Bool :=
  (visible s db dst).isSome &&
    (result (sources.map fun key => (visible s db key).map Entry.value)).any fun value =>
      (s.waiting db dst).any fun c => getBlockedTypeByType value.type = (s.clients c).btype

theorem quiet_storeCommand [DecidableEq C] (waits : Waits s) {sources : List K} {dst : K}
    {result : List (Option (Value E)) → Option (Value E)} (spared : storeOvertakes db sources dst result s = false) :
    Quiet s (storeCommand db sources dst result s) := by
  obtain ⟨t,run,quiet,same⟩ := lookupKeys_spec db sources s
  unfold storeCommand
  simp only [run]
  split
  · exact quiet.trans (quiet_dbDelete db dst t)
  rename_i value computed
  obtain ⟨found,u,run',look⟩ := lookupKey_cases db dst t
  simp only [run']
  have looked := quiet.trans look.quiet
  refine looked.trans (quiet_setKey_spared (looked.waits waits) fun stored c member type => ?_)
  have visible : (visible s db dst).isSome = true := by
    rw [← same,← look.sees]
    exact stored
  have waiting : u.waiting db dst = s.waiting db dst := by
    unfold Server.waiting
    rw [looked.blockingKeys]
  rw [waiting] at member
  rw [looked.clients] at type
  simp only [storeOvertakes,visible,computed,Bool.true_and,any_some,List.any_eq_false,decide_eq_true_eq] at spared
  exact spared c member type

/-! ## SWAPDB -/

theorem quiet_scanDeleted (emptied replacedWith : Fin dbnum) (order : ScanOrder K) (s : Server C K E dbnum) :
    Quiet s (scanDatabaseForDeletedKeys emptied replacedWith order s) := by
  unfold scanDatabaseForDeletedKeys
  generalize order.visit (s.blockingKeys emptied).keys = keys
  induction keys generalizing s with
  | nil => exact .refl s
  | cons key rest ih =>
    rw [foldl_cons]
    refine Quiet.trans ?_ (ih _)
    dsimp only
    split
    · exact .refl s
    · split
      · exact quiet_signal emptied key s _ true
      · exact .refl s

theorem scanReady_spec (db : Fin dbnum) (keys : List K) : ∀ s : Server C K E dbnum, Waits s →
    let t := keys.foldl (fun t key =>
      match t.keys db key with
      | none => t
      | some entry => signalKeyAsReady db key entry.value.type t) s
    Quiet s t ∧ t.keys = s.keys ∧ ∀ key ∈ keys, ∀ c, Servable s c db key → t.dbReadyKeys db key = true := by
  induction keys with
  | nil => exact fun s _ => ⟨.refl s,rfl,by simp⟩
  | cons key rest ih =>
    intro s waits
    simp only [foldl_cons]
    obtain ⟨u,hu,quiet,keys,ready⟩ : ∃ u, u = (match s.keys db key with
        | none => s
        | some entry => signalKeyAsReady db key entry.value.type s) ∧ Quiet s u ∧ u.keys = s.keys ∧
        ∀ c, Servable s c db key → u.dbReadyKeys db key = true := by
      refine ⟨_,rfl,?_⟩
      split
      · rename_i absent
        refine ⟨.refl s,rfl,?_⟩
        rintro c ⟨-,-,entry,sees,-⟩
        simp [visible,absent] at sees
      rename_i entry stored
      refine ⟨quiet_signal db key s _ false,signal_keys db key _ false s,?_⟩
      rintro c ⟨here,member,found,sees,type⟩
      unfold visible at sees
      rw [stored,filter_eq_some_iff] at sees
      obtain rfl := Option.some.inj sees.1
      exact ready_of_signal waits here member type
    rw [← hu]
    obtain ⟨quiet',keys',ready'⟩ := ih u (quiet.waits waits)
    refine ⟨quiet.trans quiet',keys'.trans keys,fun k member c servable => ?_⟩
    rcases mem_cons.mp member with rfl | member
    · exact quiet'.ready db k (ready c servable)
    refine ready' k member c ?_
    obtain ⟨here,inside,entry,sees,type⟩ := servable
    rw [← quiet.clients] at here inside type
    exact ⟨here,inside,entry,(visible_congr quiet.now (by rw [keys])).trans sees,type⟩

theorem scanDatabaseForReadyKeys_spec (waits : Waits s) (db : Fin dbnum) (order : ScanOrder K) :
    Quiet s (scanDatabaseForReadyKeys db order s) ∧ (scanDatabaseForReadyKeys db order s).keys = s.keys ∧
      ∀ key c, Servable s c db key → (scanDatabaseForReadyKeys db order s).dbReadyKeys db key = true := by
  obtain ⟨quiet,keys,ready⟩ := scanReady_spec db (order.visit (s.blockingKeys db).keys) s waits
  refine ⟨quiet,keys,fun key c servable => ready key (order.complete _ key ?_) c servable⟩
  have member := (waits.waiting db key c).mpr ⟨servable.1,servable.2.1⟩
  by_contra outside
  rw [Server.waiting,AList.lookup_eq_none.mpr outside] at member
  cases member

theorem quiet_dbSwapDatabases (waits : Waits s) (id1 id2 : Fin dbnum) (order : ScanOrder K) :
    Quiet s (dbSwapDatabases id1 id2 order s) := by
  unfold dbSwapDatabases
  split
  · exact .refl s
  have deleted := (quiet_scanDeleted id1 id2 order s).trans (quiet_scanDeleted id2 id1 order _)
  set t := scanDatabaseForDeletedKeys id2 id1 order (scanDatabaseForDeletedKeys id1 id2 order s) with ht
  set u := { t with keys := update (update t.keys id1 (t.keys id2)) id2 (t.keys id1) } with hu
  have waits' : Waits u := (deleted.waits waits).congr rfl rfl rfl
  obtain ⟨quiet,keys,ready⟩ := scanDatabaseForReadyKeys_spec waits' id1 order
  obtain ⟨quiet',keys',ready'⟩ := scanDatabaseForReadyKeys_spec (quiet.waits waits') id2 order
  set w := scanDatabaseForReadyKeys id1 order u with hw
  set x := scanDatabaseForReadyKeys id2 order w with hx
  have scanned := quiet.trans quiet'
  refine ⟨scanned.now.trans deleted.now,scanned.clients.trans deleted.clients,scanned.blockingKeys.trans deleted.blockingKeys,
    scanned.counts.trans deleted.counts,fun db key before => scanned.ready db key (deleted.ready db key before),?_,
    fun pending before => scanned.queued pending ((deleted.queued pending before).congr rfl rfl)⟩
  intro c db key servable
  -- nothing that a scan changes is read by `Servable`
  have before : Servable u c db key := by
    obtain ⟨here,member,entry,sees,type⟩ := servable
    rw [scanned.clients] at here member type
    exact ⟨here,member,entry,(visible_congr scanned.now (by rw [keys',keys])).symm.trans sees,type⟩
  by_cases first : db = id1
  · subst first
    exact .inr (quiet'.ready db key (ready key c before))
  by_cases second : db = id2
  · subst second
    refine .inr (ready' key c ?_)
    obtain ⟨here,member,entry,sees,type⟩ := before
    rw [← quiet.clients] at here member type
    exact ⟨here,member,entry,(visible_congr quiet.now (by rw [keys])).trans sees,type⟩
  · obtain ⟨here,member,entry,sees,type⟩ := before
    have same : u.keys db key = t.keys db key := by simp [hu,first,second]
    have between : Servable t c db key := ⟨here,member,entry,(visible_congr (show u.now = t.now from rfl) same).symm.trans sees,type⟩
    exact (deleted.servable c db key between).imp_right (scanned.ready db key)

end ValkeyWasm.Blocked

import ValkeyWasm.Watch.Changes

/-! The commands that replace keys without looking them up: RESTORE, the flushes and SWAPDB. RESTORE with
REPLACE and SWAPDB can put a live key where a client has watched an expired one; `revives` says when. -/

namespace ValkeyWasm.Watch
open Function List Option

open Server

variable {C K V : Type} {dbnum : Nat} [DecidableEq K] [DecidableEq C]

def watchedExpired (s : Server C K V dbnum) (db : Fin dbnum) (key : K) : Bool :=
  (s.watchers db key).any fun a => (s.objects a).any WatchedKey.expired

variable {s : Server C K V dbnum} {P : Prop}

omit [DecidableEq C] in
theorem unflagged_of_watchedExpired (linked : s.Linked) {db : Fin dbnum} {key : K}
    (none : watchedExpired s db key = false) : Unflagged s db key := by
  rintro a wk object rfl rfl
  have := any_eq_false.mp none a (linked.mem_watchers object)
  simpa [object] using this

/-- Some key of `emptied` is watched since it had expired, and the other database holds it alive. -/
def swapRevives (emptied replacedWith : Fin dbnum) (s : Server C K V dbnum) : Bool :=
  (s.watchedKeys emptied).keys.any fun key =>
    watchedExpired s emptied key && (s.keys replacedWith key).isSome && !keyIsExpired s replacedWith key

/-- The command puts a live entry in the place of a stored one that a client has watched since it had
expired, and does so without deleting the stored one first. -/
def revives (c : C) (command : Command K V dbnum) (s : Server C K V dbnum) : Bool :=
  match command with
  | .restore key payload ttl absttl replace =>
    replace && payload.isSome && decide (0 ≤ ttl) &&
      !(ttl ≠ 0 && checkAlreadyExpired s.now (restoreExpire s.now ttl absttl)) && watchedExpired s (s.clients c).db key
  | .swapdb id1 id2 => id1 ≠ id2 && (swapRevives id1 id2 s || swapRevives id2 id1 s)
  | _ => false

theorem restoreKey_spec (linked : s.Linked) (db : Fin dbnum) (key : K) (value : V) (ttl : Int)
    (absttl replace : Bool) (looked : replace = false → s.keys db key = none) :
    Runs ((replace && !(ttl ≠ 0 && checkAlreadyExpired s.now (restoreExpire s.now ttl absttl)) && watchedExpired s db key) = false)
      s (restoreKey db key value ttl absttl replace s) := by
  unfold restoreKey
  dsimp only
  split
  · rename_i past
    cases replace with
    | false => exact .done linked
    | true =>
      split
      · exact signal_delete linked db key
      rename_i absent
      have same : s.setKeys (dbDelete db key s.keys) = s := by
        have gone : s.keys db key = none := by simpa using absent
        have keys : dbDelete db key s.keys = s.keys := by
          funext d k
          rw [dbDelete_apply]
          split
          · rename_i here
            rw [here.1,here.2,gone]
          · rfl
        rw [keys]
        rfl
      rw [same]
      exact .done linked
  · rename_i future
    set entry : Entry V := { value := value, expire := restoreExpire s.now ttl absttl }
    obtain ⟨t,signal,linked',-,-,tracks⟩ := signalModifiedKey_spec linked db key
      (dbAdd db key entry (if replace then s.setKeys (dbDelete db key s.keys) else s).keys)
      (by
        intro d k other
        rw [dbAdd_apply,if_neg other]
        cases replace with
        | false => rfl
        | true =>
          change dbDelete db key s.keys d k = s.keys d k
          rw [dbDelete_apply,if_neg other])
    refine ⟨t,?_,linked',fun spared => tracks fun flagged => .inr ?_⟩
    · cases replace <;> exact signal
    cases replace with
    | false => exact flagged.unflagged (keyIsExpired_of_absent (looked rfl))
    | true =>
      apply unflagged_of_watchedExpired linked
      rw [Bool.eq_false_iff.mpr future] at spared
      simpa using spared

theorem restoreCommand_spec (linked : s.Linked) (c : C) (key : K) (payload : Option V) (ttl : Int)
    (absttl replace : Bool) :
    Runs (revives c (.restore key payload ttl absttl replace) s = false) s
      (restoreCommand (s.clients c).db key payload ttl absttl replace s) := by
  unfold restoreCommand
  cases replace with
  | true =>
    simp only [if_true,bind_eq_bind,bind_some,isSome_none,Bool.false_or,decide_eq_true_eq]
    split
    · exact .done linked
    rename_i valid
    cases payload with
    | none => exact .done linked
    | some value =>
      obtain ⟨t,run,linked',tracks⟩ := restoreKey_spec linked (s.clients c).db key value ttl absttl true (by simp)
      refine ⟨t,run,linked',fun spared => tracks ?_⟩
      have nonneg : decide (0 ≤ ttl) = true := decide_eq_true (Int.not_lt.mp valid)
      simpa only [revives,isSome_some,Bool.true_and,nonneg] using spared
  | false =>
    simp only [Bool.false_eq_true,if_false]
    refine lookupKey_runs linked fun u linked _ => ?_
    dsimp only
    split
    · exact .done linked
    rename_i free
    have absent : u.keys (s.clients c).db key = none := by
      simp only [Bool.or_eq_true,not_or] at free
      simpa using free.1
    cases payload with
    | none => exact .done linked
    | some value =>
      obtain ⟨t,run,linked',tracks⟩ := restoreKey_spec linked (s.clients c).db key value ttl absttl false fun _ => absent
      exact ⟨t,run,linked',fun _ => tracks (by simp)⟩

/-! ## Whole databases -/

omit [DecidableEq C] [DecidableEq K] in
theorem verdict_flush (s : Server C K V dbnum) (db : Fin dbnum) (wk : WatchedKey C K dbnum) :
    verdict s db none wk =
      if (s.keys db wk.key).isSome then if wk.expired then some false else none else some wk.expired := by
  unfold verdict
  cases (s.keys db wk.key).isSome <;> cases wk.expired <;> simp

omit [DecidableEq C] [DecidableEq K] in
theorem tracks_flush {t : Server C K V dbnum} {P : Fin dbnum → Prop} [DecidablePred P]
    (ran : Ran (fun _ wk => if P wk.db then verdict s wk.db none wk else some wk.expired) s t) (now : t.now = s.now)
    (emptied : ∀ db key, P db → t.keys db key = none) (others : ∀ db key, ¬P db → t.keys db key = s.keys db key) :
    Tracks s t := by
  refine Ran.tracks_touch (P := fun db key => P db ∧ (s.keys db key).isSome) (ran.congr ?_) now ?_ ?_
  · intro a wk _
    rw [verdict_flush]
    split_ifs <;> simp_all
  · intro db key other
    by_cases here : P db
    · rw [emptied db key here,eq_comm]
      simpa [here] using other
    · exact others db key here
  · exact fun _ db key here => .inl (emptied db key here.1)

theorem flushdbCommand_spec (linked : s.Linked) (db : Fin dbnum) : Runs P s (flushdbCommand db s) := by
  obtain ⟨u,run,links,view,ran⟩ := touchAllWatchedKeysInDb_spec linked db none
  refine ⟨u.setKeys (update u.keys db fun _ => none),by
    simp only [flushdbCommand,run,bind_eq_bind,bind_some],(linked.congr links).setKeys _,fun _ => ?_⟩
  refine tracks_flush (P := (· = db)) ⟨ran.calm,ran.back,ran.forth⟩ view.now ?_ ?_
  · rintro d key rfl
    simp [setKeys]
  · intro d key other
    simp [setKeys,other,view.keys]

theorem flushallCommand_spec (linked : s.Linked) : Runs P s (flushallCommand s) := by
  obtain ⟨u,run,links,view,ran⟩ := Ran.foldlM (P := fun db _ wk => wk.db = db) (R := fun _ wk => verdict s wk.db none wk)
    (fun t db => touchAllWatchedKeysInDb db none t) (List.finRange dbnum)
    ((nodup_finRange dbnum).imp fun differ _ _ _ here there => differ (here.symm.trans there))
    (by
      intro db _ u links view
      rw [← verdict_congr view]
      exact touchAllWatchedKeysInDb_spec (linked.congr links) db none) s (.refl s) (.refl s)
  refine ⟨u.setKeys fun _ _ => none,by simp only [flushallCommand,run,bind_eq_bind,bind_some],
    (linked.congr links).setKeys _,fun _ => ?_⟩
  have ran : Ran (fun _ wk => if True then verdict s wk.db none wk else some wk.expired) s u := ran.congr (by simp)
  exact tracks_flush (P := fun _ => True) ⟨ran.calm,ran.back,ran.forth⟩ view.now (fun _ _ _ => rfl) fun _ _ other => absurd trivial other

omit [DecidableEq C] in
theorem swapRevives_flagged (linked : s.Linked) {emptied replacedWith : Fin dbnum}
    (spared : swapRevives emptied replacedWith s = false) {a : Nat} {wk : WatchedKey C K dbnum}
    (object : s.objects a = some wk) (here : wk.db = emptied) (flagged : wk.expired = true) :
    s.keys replacedWith wk.key = none ∨ keyIsExpired s replacedWith wk.key = true := by
  have member := linked.mem_watchers object
  rw [here] at member
  have inside : wk.key ∈ (s.watchedKeys emptied).keys := mem_keys_of_watchers member
  have watched : watchedExpired s emptied wk.key = true :=
    any_eq_true.mpr ⟨a,member,by simp [object,flagged]⟩
  have := any_eq_false.mp spared wk.key inside
  cases stored : s.keys replacedWith wk.key with
  | none => exact .inl rfl
  | some entry =>
    right
    simpa [watched,stored] using this

omit [DecidableEq C] [DecidableEq K] in
theorem verdict_swap (s : Server C K V dbnum) (emptied replacedWith : Fin dbnum) (wk : WatchedKey C K dbnum) :
    verdict s emptied (some replacedWith) wk =
      if !((s.keys emptied wk.key).isSome || (s.keys replacedWith wk.key).isSome) then some wk.expired
      else if wk.expired && !(s.keys replacedWith wk.key).isSome then some false
      else if wk.expired && keyIsExpired s replacedWith wk.key then some true
      else if !wk.expired && !(s.keys emptied wk.key).isSome && keyIsExpired s replacedWith wk.key then some true
      else none := rfl

structure Exchanged (s t : Server C K V dbnum) (emptied replacedWith : Fin dbnum) : Prop where
  linked : s.Linked
  now : t.now = s.now
  keys : t.keys emptied = s.keys replacedWith
  spared : swapRevives emptied replacedWith s = false

namespace Exchanged

variable {s t : Server C K V dbnum} {emptied replacedWith : Fin dbnum} {a : Nat} {wk : WatchedKey C K dbnum}

section
omit [DecidableEq C]

theorem expired (swap : Exchanged s t emptied replacedWith) (key : K) :
    keyIsExpired t emptied key = keyIsExpired s replacedWith key := by
  unfold keyIsExpired
  rw [swap.keys,swap.now]

theorem unchanged (swap : Exchanged s t emptied replacedWith) (unflagged : wk.expired = false)
    (how : verdict s emptied (some replacedWith) wk = some false) : t.keys emptied wk.key = s.keys emptied wk.key := by
  rw [verdict_swap,unflagged] at how
  rw [swap.keys]
  cases mine : s.keys emptied wk.key with
  | none =>
    cases other : s.keys replacedWith wk.key with
    | none => rfl
    | some entry => simp [mine,other] at how
  | some entry => simp [mine] at how

theorem raised (swap : Exchanged s t emptied replacedWith) (unflagged : wk.expired = false)
    (how : verdict s emptied (some replacedWith) wk = some true) :
    s.keys emptied wk.key = none ∧ keyIsExpired t emptied wk.key = true := by
  rw [verdict_swap,unflagged] at how
  rw [swap.expired]
  cases mine : s.keys emptied wk.key with
  | none =>
    cases other : s.keys replacedWith wk.key with
    | none => simp [mine,other] at how
    | some entry => simpa [mine,other] using how
  | some entry => simp [mine] at how

theorem flagged (swap : Exchanged s t emptied replacedWith) (object : s.objects a = some wk) (here : wk.db = emptied)
    (flag : wk.expired = true) (still : keyIsExpired s emptied wk.key = true) :
    (verdict s emptied (some replacedWith) wk = some true ∧ keyIsExpired t emptied wk.key = true) ∨
      (verdict s emptied (some replacedWith) wk = some false ∧ t.keys emptied wk.key = none) := by
  rw [verdict_swap,swap.expired,swap.keys,flag,isSome_of_expired still]
  rcases swapRevives_flagged swap.linked swap.spared object here flag with gone | expired
  · right
    simp [gone]
  · left
    exact ⟨by simp [isSome_of_expired expired,expired],expired⟩

end

end Exchanged

theorem dbSwapDatabases_spec (linked : s.Linked) (c : C) (id1 id2 : Fin dbnum) :
    Runs (revives c (.swapdb id1 id2) s = false) s (dbSwapDatabases id1 id2 s) := by
  unfold dbSwapDatabases
  by_cases same : id1 = id2
  · rw [if_pos same]
    exact .done linked
  rw [if_neg same]
  obtain ⟨u,first,links,view,ran⟩ := touchAllWatchedKeysInDb_spec linked id1 (some id2)
  obtain ⟨w,second,links',view',ran'⟩ := touchAllWatchedKeysInDb_spec (linked.congr links) id2 (some id1)
  rw [verdict_congr view] at ran'
  set t := w.setKeys (update (update w.keys id1 (w.keys id2)) id2 (w.keys id1)) with ht
  refine ⟨t,by simp only [first,second,bind_eq_bind,bind_some]; rfl,
    (linked.congr (links.trans links')).setKeys _,fun spared => ?_⟩
  have now : t.now = s.now := view'.now.trans view.now
  have before : w.keys = s.keys := view'.keys.trans view.keys
  have keys : t.keys = update (update s.keys id1 (s.keys id2)) id2 (s.keys id1) := by
    rw [ht,← before]
    rfl
  simp only [revives,same,ne_eq,not_false_eq_true,decide_true,Bool.true_and,Bool.or_eq_false_iff] at spared
  have one : Exchanged s t id1 id2 := ⟨linked,now,by rw [keys,update_of_ne same,update_self],spared.1⟩
  have two : Exchanged s t id2 id1 := ⟨linked,now,by rw [keys,update_self],spared.2⟩
  have others : ∀ db, db ≠ id1 → db ≠ id2 → t.keys db = s.keys db := by
    intro db left right
    rw [keys,update_of_ne right,update_of_ne left]
  have both : Ran (fun _ wk => if wk.db = id1 then verdict s id1 (some id2) wk
      else if wk.db = id2 then verdict s id2 (some id1) wk else some wk.expired) s w := by
    refine ran.trans ran' fun a wk _ => ?_
    by_cases here : wk.db = id1
    · exact .inr (by simp [here,same])
    · refine .inl ⟨by simp [here],?_⟩
      by_cases there : wk.db = id2 <;> simp [here,there,Ne.symm same]
  refine Ran.tracks ⟨both.calm,both.back,both.forth⟩ now fun _ => ⟨?_,?_,?_⟩
  · intro a wk _ unflagged how
    split_ifs at how with left right
    · rw [left]
      exact one.unchanged unflagged how
    · rw [right]
      exact two.unchanged unflagged how
    · rw [others _ left right]
  · intro a wk _ unflagged how
    split_ifs at how with left right
    · rw [left]
      exact one.raised unflagged how
    · rw [right]
      exact two.raised unflagged how
    · rw [unflagged] at how
      cases how
  · intro a wk object flag still
    split_ifs with left right
    · rw [left] at still ⊢
      exact one.flagged object left flag still
    · rw [right] at still ⊢
      exact two.flagged object right flag still
    left
    refine ⟨congrArg some flag,?_⟩
    rw [(visible_congr now (congrFun (others _ left right) wk.key)).1]
    exact still

end ValkeyWasm.Watch

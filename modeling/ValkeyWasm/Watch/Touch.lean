import ValkeyWasm.Watch.Linked

/-! What a touch does to the watchers it reaches. `Ran` states it by a rule that gives each `watchedKey`
its new flag, or `none` when its client is to be marked dirty. -/

namespace ValkeyWasm.Watch
open Server List Option

variable {C K V : Type} {dbnum : Nat}

structure Ran (rule : Nat → WatchedKey C K dbnum → Option Bool) (s t : Server C K V dbnum) : Prop where
  calm : ∀ c, (t.clients c).dirtyCas = false → (s.clients c).dirtyCas = false
  back : ∀ a after, t.objects a = some after → ∃ wk, s.objects a = some wk ∧
    ∃ b, after = { wk with expired := b } ∧ (rule a wk = some b ∨ rule a wk = none ∧ b = wk.expired)
  forth : ∀ a wk, s.objects a = some wk → (t.clients wk.client).dirtyCas = false →
    ∃ b, rule a wk = some b ∧ t.objects a = some { wk with expired := b }

variable {s t : Server C K V dbnum} {rule : Nat → WatchedKey C K dbnum → Option Bool}

theorem Ran.same (kept : ∀ a wk, s.objects a = some wk → rule a wk = some wk.expired) : Ran rule s s where
  calm _ := id
  back a wk object := ⟨wk,object,wk.expired,rfl,.inl (kept a wk object)⟩
  forth a wk object _ := ⟨wk.expired,kept a wk object,object⟩

theorem Ran.congr {rule' : Nat → WatchedKey C K dbnum → Option Bool}
    (ran : Ran rule s t) (same : ∀ a wk, s.objects a = some wk → rule a wk = rule' a wk) : Ran rule' s t where
  calm := ran.calm
  back a after object := by
    obtain ⟨wk,before,b,rfl,how⟩ := ran.back a after object
    rw [same a wk before] at how
    exact ⟨wk,before,b,rfl,how⟩
  forth a wk before clean := by
    obtain ⟨b,how,object⟩ := ran.forth a wk before clean
    rw [same a wk before] at how
    exact ⟨b,how,object⟩

/-- Two walks one after the other; each object is left alone by one of them. -/
theorem Ran.trans {first second : Nat → WatchedKey C K dbnum → Option Bool} {u : Server C K V dbnum}
    (left : Ran first s u) (right : Ran second u t)
    (apart : ∀ a wk, s.objects a = some wk → (first a wk = some wk.expired ∧ second a wk = rule a wk) ∨
      (∀ b, second a { wk with expired := b } = some b) ∧ first a wk = rule a wk) : Ran rule s t where
  calm c clean := left.calm c (right.calm c clean)
  back a after object := by
    obtain ⟨mid,between,b,rfl,late⟩ := right.back a after object
    obtain ⟨wk,before,b',rfl,early⟩ := left.back a mid between
    refine ⟨wk,before,b,rfl,?_⟩
    rcases apart a wk before with ⟨alone,how⟩ | ⟨alone,how⟩
    · rw [alone] at early
      obtain rfl : wk.expired = b' := by simpa using early
      rwa [← how]
    · rw [alone] at late
      obtain rfl : b' = b := by simpa using late
      rwa [← how]
  forth a wk before clean := by
    obtain ⟨b,early,between⟩ := left.forth a wk before (right.calm _ clean)
    obtain ⟨b',late,object⟩ := right.forth a _ between clean
    rcases apart a wk before with ⟨alone,how⟩ | ⟨alone,how⟩
    · obtain rfl : wk.expired = b := Option.some.inj (alone.symm.trans early)
      exact ⟨b',how ▸ late,object⟩
    · obtain rfl : b = b' := Option.some.inj ((alone b).symm.trans late)
      exact ⟨b,how ▸ early,object⟩

/-- A walk of which each object meets one turn at most, where no turn changes what the others look at. -/
theorem Ran.foldlM {ι : Type} (step : Server C K V dbnum → ι → Option (Server C K V dbnum))
    {P : ι → Nat → WatchedKey C K dbnum → Prop} [∀ x a wk, Decidable (P x a wk)] {R : Nat → WatchedKey C K dbnum → Option Bool}
    (l : List ι) (apart : l.Pairwise fun x y => ∀ a wk b, P x a wk → ¬P y a { wk with expired := b })
    (turns : ∀ x ∈ l, ∀ u, s.SameLinks u → s.SameView u → ∃ t, step u x = some t ∧ u.SameLinks t ∧ u.SameView t ∧
      Ran (fun a wk => if P x a wk then R a wk else some wk.expired) u t) :
    ∀ u, s.SameLinks u → s.SameView u → ∃ t, l.foldlM step u = some t ∧ u.SameLinks t ∧ u.SameView t ∧
      Ran (fun a wk => if ∃ x ∈ l, P x a wk then R a wk else some wk.expired) u t := by
  induction l with
  | nil => exact fun u _ _ => ⟨u,rfl,.refl u,.refl u,.same (by simp)⟩
  | cons x rest ih =>
    intro u links view
    obtain ⟨first,apart⟩ := pairwise_cons.mp apart
    obtain ⟨w,turn,links',view',ran⟩ := turns x mem_cons_self u links view
    obtain ⟨t,run,links'',view'',ran'⟩ := ih apart (fun y member => turns y (mem_cons_of_mem x member)) w
      (links.trans links') (view.trans view')
    refine ⟨t,by rw [foldlM_cons,turn]; exact run,links'.trans links'',view'.trans view'',ran.trans ran' fun a wk _ => ?_⟩
    by_cases here : P x a wk
    · refine .inr ⟨fun b => if_neg ?_,by simp [here]⟩
      rintro ⟨y,member,there⟩
      exact first y member a wk b here there
    · exact .inl (by simp [here])

variable {wk : WatchedKey C K dbnum} {a : Nat}

theorem sameLinks_setFlag (object : s.objects a = some wk)
    (b : Bool) : s.SameLinks (s.setObject a (some { wk with expired := b })) where
  place a' := by
    unfold place
    rw [setObject_objects]
    split
    · rename_i same
      rw [same,object]
      rfl
    · rfl
  watchedKeys := rfl
  fresh := rfl
  listed _ := rfl
  table _ := rfl

theorem ran_setFlag (object : s.objects a = some wk) {b : Bool} (here : rule a wk = some b)
    (others : ∀ a' wk', a' ≠ a → rule a' wk' = some wk'.expired) : Ran rule s (s.setObject a (some { wk with expired := b })) where
  calm _ := id
  back a' after found := by
    rw [setObject_objects] at found
    split at found
    · rename_i same
      subst same
      cases found
      exact ⟨wk,object,b,rfl,.inl here⟩
    · rename_i different
      exact ⟨after,found,after.expired,rfl,.inl (others a' after different)⟩
  forth a' wk' found _ := by
    by_cases same : a' = a
    · subst same
      rw [object] at found
      cases found
      exact ⟨b,here,by simp [setObject_objects]⟩
    · exact ⟨wk'.expired,others a' wk' same,by rw [setObject_objects,if_neg same]; exact found⟩

def verdict (s : Server C K V dbnum) (emptied : Fin dbnum) (replacedWith : Option (Fin dbnum)) (wk : WatchedKey C K dbnum) : Option Bool :=
  let inEmptied := (s.keys emptied wk.key).isSome
  let inReplaced := replacedWith.any fun db => (s.keys db wk.key).isSome
  let expiredInReplaced := replacedWith.any fun db => keyIsExpired s db wk.key
  if !(inEmptied || inReplaced) then some wk.expired
  else if wk.expired && !inReplaced then some false
  else if wk.expired && expiredInReplaced then some true
  else if !wk.expired && !inEmptied && expiredInReplaced then some true
  else none

theorem keyIsExpired_congr (view : s.SameView t) : keyIsExpired t = keyIsExpired s := by
  funext db key
  unfold keyIsExpired
  rw [view.keys,view.now]

theorem verdict_congr (view : s.SameView t) : verdict t = verdict s := by
  funext emptied replacedWith wk
  unfold verdict
  rw [view.keys,keyIsExpired_congr view]

variable [DecidableEq C]

theorem markDirty_clients (c c' : C) (s : Server C K V dbnum) :
    (markDirty c s).clients c' = if c' = c then { s.clients c with dirtyCas := true, commands := [] } else s.clients c' := by
  unfold markDirty resetClientMultiState
  simp only [setClient_clients]
  split <;> simp_all

theorem sameLinks_markDirty (c : C) (s : Server C K V dbnum) : s.SameLinks (markDirty c s) where
  place _ := rfl
  watchedKeys := rfl
  fresh := rfl
  listed c' := by
    rw [markDirty_clients]
    split <;> simp_all
  table c' := by
    rw [markDirty_clients]
    split <;> simp_all

theorem ran_markDirty (object : s.objects a = some wk) (here : rule a wk = none)
    (others : ∀ a' wk', a' ≠ a → rule a' wk' = some wk'.expired) : Ran rule s (markDirty wk.client s) where
  calm c clean := by
    rw [markDirty_clients] at clean
    split at clean
    · cases clean
    · exact clean
  back a' after found := by
    refine ⟨after,found,after.expired,rfl,?_⟩
    by_cases same : a' = a
    · subst same
      cases object.symm.trans found
      exact .inr ⟨here,rfl⟩
    · exact .inl (others a' after same)
  forth a' wk' found clean := by
    have different : a' ≠ a := by
      rintro rfl
      rw [object] at found
      cases found
      rw [markDirty_clients,if_pos rfl] at clean
      cases clean
    exact ⟨wk'.expired,others a' wk' different,found⟩

theorem touchWatcher_spec {emptied : Fin dbnum} {replacedWith : Option (Fin dbnum)}
    (object : s.objects a = some wk)
    (stored : ((s.keys emptied wk.key).isSome || replacedWith.any fun db => (s.keys db wk.key).isSome) = true) :
    ∃ t, touchWatcher emptied replacedWith wk.key s a = some t ∧ s.SameLinks t ∧ s.SameView t ∧
      Ran (fun a' wk' => if a' = a then verdict s emptied replacedWith wk' else some wk'.expired) s t := by
  have others : ∀ a' wk', a' ≠ a → (if a' = a then verdict s emptied replacedWith wk' else some wk'.expired) = some wk'.expired :=
    fun a' wk' other => if_neg other
  have reached : ¬(!((s.keys emptied wk.key).isSome || replacedWith.any fun db => (s.keys db wk.key).isSome)) = true := by
    simp [stored]
  unfold touchWatcher
  simp only [object,bind_eq_bind,bind_some]
  split
  · rename_i cleared
    refine ⟨_,rfl,sameLinks_setFlag object false,⟨rfl,rfl⟩,ran_setFlag object ((if_pos rfl).trans ?_) others⟩
    exact (if_neg reached).trans (if_pos cleared)
  rename_i uncleared
  split
  · rename_i kept
    have same : verdict s emptied replacedWith wk = some wk.expired := by
      have flagged : wk.expired = true := (Bool.and_eq_true_iff.mp kept).1
      rw [flagged]
      exact (if_neg reached).trans ((if_neg uncleared).trans (if_pos kept))
    refine ⟨s,rfl,.refl s,.refl s,.same fun a' wk' there => ?_⟩
    split
    · rename_i here
      rw [here,object] at there
      cases there
      exact same
    · rfl
  rename_i unkept
  split
  · rename_i raised
    refine ⟨_,rfl,sameLinks_setFlag object true,⟨rfl,rfl⟩,ran_setFlag object ((if_pos rfl).trans ?_) others⟩
    exact (if_neg reached).trans ((if_neg uncleared).trans ((if_neg unkept).trans (if_pos raised)))
  · rename_i unraised
    refine ⟨_,rfl,sameLinks_markDirty wk.client s,⟨rfl,rfl⟩,ran_markDirty object ((if_pos rfl).trans ?_) others⟩
    exact (if_neg reached).trans ((if_neg uncleared).trans ((if_neg unkept).trans (if_neg unraised)))

variable [DecidableEq K]

/-! ## One key -/

theorem Unwatched.ran {c : C} (linked : s.Linked) (unwatched : Unwatched c s t)
    (dirty : (s.clients c).dirtyCas = true)
    (others : ∀ a wk, s.objects a = some wk → wk.client ≠ c → rule a wk = some wk.expired) : Ran rule s t where
  calm c' clean := by
    by_cases same : c' = c
    · rw [same,unwatched.client] at clean
      rw [same]
      exact clean
    · rwa [unwatched.others c' same] at clean
  back a after found := by
    rw [unwatched.objects] at found
    split at found
    · cases found
    rename_i unlisted
    refine ⟨after,found,after.expired,rfl,.inl (others a after found ?_)⟩
    rintro rfl
    exact unlisted (linked.mem_listed found)
  forth a wk found clean := by
    have other : wk.client ≠ c := by
      rintro rfl
      rw [unwatched.client] at clean
      simp [dirty] at clean
    refine ⟨wk.expired,others a wk found other,?_⟩
    rw [unwatched.objects,if_neg]
    · exact found
    intro listed
    obtain ⟨same,there,client⟩ := linked.listed_object listed
    rw [found] at there
    cases there
    exact other client

/-- The rule of a walk over the addresses `l` that is not broken off. -/
def sweep (l : List Nat) (a : Nat) (wk : WatchedKey C K dbnum) : Option Bool :=
  if a ∈ l then if wk.expired then some false else none else some wk.expired

theorem Ran.sweep_cons {rest : List Nat} (later : a ∉ rest) {u : Server C K V dbnum} (first : Ran (sweep [a]) s u)
    (second : Ran (sweep rest) u t) : Ran (sweep (a :: rest)) s t := by
  refine first.trans second fun a' wk' _ => ?_
  by_cases here : a' = a
  · exact .inr (by simp [sweep,here,later])
  · exact .inl (by simp [sweep,here])

theorem touchLoop_spec {db : Fin dbnum} {key : K} (rest : List Nat) :
    ∀ (turns : Nat) (done : List Nat) (s : Server C K V dbnum), s.Linked → s.watchers db key = done ++ rest →
      rest.length ≤ turns →
      ∃ t, touchLoop db key turns rest.head? s = some t ∧ t.Linked ∧ s.SameView t ∧
        ((s.keys db key = none ∨ ∀ a ∈ rest, ∀ wk, s.objects a = some wk → wk.expired = false) → Ran (sweep rest) s t) := by
  induction rest with
  | nil =>
    intro turns done s linked _ _
    exact ⟨s,by cases turns <;> rfl,linked,.refl s,fun _ => .same (by simp [sweep])⟩
  | cons a rest ih =>
    intro turns done s linked split bound
    obtain ⟨turns,rfl⟩ : ∃ n, turns = n + 1 := ⟨turns - 1,by simp only [length_cons] at bound; omega⟩
    have distinct := linked.nodup_watching db key
    rw [split] at distinct
    obtain ⟨wk,object,hdb,hkey⟩ := linked.object (split ▸ mem_append_right done mem_cons_self : a ∈ s.watchers db key)
    have fresh : a ∉ done := fun inside => (nodup_append.mp distinct).2.2 a inside a mem_cons_self rfl
    have later : a ∉ rest := (nodup_cons.mp (nodup_append.mp distinct).2.1).1
    have found : (s.watchers db key).dropWhile (· ≠ a) = a :: rest := by
      rw [split,dropWhile_append_of_pos]
      · simp
      intro b inside
      simp only [ne_eq,decide_eq_true_eq]
      rintro rfl
      exact fresh inside
    have enough : rest.length ≤ turns := by simpa using bound
    by_cases expired : wk.expired
    · by_cases absent : s.keys db key = none
      · -- the flag is cleared and the walk goes on
        have same := sameLinks_setFlag object false
        obtain ⟨t,run,linked',view,ran⟩ := ih turns (done ++ [a]) (s.setObject a (some { wk with expired := false }))
          (linked.congr same) (split.trans (append_cons done a rest)) enough
        refine ⟨t,?_,linked',⟨view.keys,view.now⟩,fun _ => ?_⟩
        · simp only [head?_cons,touchLoop,found,object,bind_eq_bind,bind_some,expired,if_true]
          rw [if_pos ⟨hdb.symm,hkey.symm,absent⟩]
          exact run
        exact .sweep_cons later (ran_setFlag object (by simp [sweep,expired]) (by simp +contextual [sweep])) (ran (.inl absent))
      · -- the walk is broken off
        refine ⟨s,?_,linked,.refl s,?_⟩
        · simp only [head?_cons,touchLoop,found,object,bind_eq_bind,bind_some,expired,if_true,
            absent,and_false,if_false]
        rintro (gone | unflagged)
        · exact absurd gone absent
        · have := unflagged a mem_cons_self wk object
          rw [expired] at this
          cases this
    · have marked := linked.congr (sameLinks_markDirty wk.client s)
      obtain ⟨u,unwatch,unwatched⟩ := unwatchAllKeys_spec marked wk.client
      have others : ∀ b ∈ done ++ rest, b ∉ (s.clients wk.client).watchedKeys := by
        intro b inside listed
        have watching : b ∈ s.watchers db key := by
          rw [split]
          rcases mem_append.mp inside with inside | inside
          · exact mem_append_left _ inside
          · exact mem_append_right _ (mem_cons_of_mem a inside)
        obtain ⟨wk',object',hdb',hkey'⟩ := linked.object watching
        obtain ⟨wk'',object'',client⟩ := linked.listed_object listed
        rw [object'] at object''
        cases object''
        have same : b = a := by
          apply linked.unique (place_of_object object')
          rw [place_of_object object,hdb',hkey',client,hdb,hkey]
        subst same
        rcases mem_append.mp inside with inside | inside
        · exact fresh inside
        · exact later inside
      have listed : ((markDirty wk.client s).clients wk.client).watchedKeys = (s.clients wk.client).watchedKeys :=
        (sameLinks_markDirty wk.client s).listed wk.client
      have remaining : u.watchers db key = done ++ rest := by
        have mine : a ∈ (s.clients wk.client).watchedKeys := linked.mem_listed object
        have before : (markDirty wk.client s).watchers db key = done ++ a :: rest := split
        rw [unwatched.watchers,before,listed,filter_append,filter_cons_of_neg (by simpa using mine),
          ← filter_append]
        exact filter_eq_self.mpr fun b inside => decide_eq_true (others b inside)
      obtain ⟨t,run,linked',view,ran⟩ := ih turns done u unwatched.linked remaining enough
      refine ⟨t,?_,linked',?_,fun calm => ?_⟩
      · simp only [head?_cons,touchLoop,found,object,bind_eq_bind,bind_some,expired,unwatch]
        exact run
      · exact SameView.trans (show s.SameView u from ⟨unwatched.view.keys,unwatched.view.now⟩) view
      have dirty : ((markDirty wk.client s).clients wk.client).dirtyCas = true := by
        rw [markDirty_clients,if_pos rfl]
      have first : Ran (sweep [a]) s u := (ran_markDirty object (by simp [sweep,expired]) (by simp +contextual [sweep])).trans
        (unwatched.ran marked dirty fun _ _ _ _ => rfl) fun _ _ _ => .inr ⟨fun _ => rfl,rfl⟩
      have calm' : u.keys db key = none ∨ ∀ b ∈ rest, ∀ wk', u.objects b = some wk' → wk'.expired = false := by
        rcases calm with gone | unflagged
        · left
          rw [unwatched.view.keys]
          exact gone
        right
        intro b inside wk' there
        rw [unwatched.objects] at there
        split_ifs at there
        exact unflagged b (mem_cons_of_mem a inside) wk' there
      exact .sweep_cons later first (ran calm')

def touchRule (db : Fin dbnum) (key : K) (_ : Nat) (wk : WatchedKey C K dbnum) : Option Bool :=
  if wk.db = db ∧ wk.key = key then if wk.expired then some false else none else some wk.expired

theorem touchWatchedKey_spec (linked : s.Linked) (db : Fin dbnum) (key : K) :
    ∃ t, touchWatchedKey db key s = some t ∧ t.Linked ∧ s.SameView t ∧
      ((s.keys db key = none ∨ ∀ a wk, s.objects a = some wk → wk.db = db → wk.key = key → wk.expired = false) →
        Ran (touchRule db key) s t) := by
  obtain ⟨t,run,linked',view,ran⟩ := touchLoop_spec (s.watchers db key) (s.watchers db key).length [] s linked rfl le_rfl
  refine ⟨t,run,linked',view,fun calm => (ran ?_).congr ?_⟩
  · refine calm.imp id fun unflagged a member wk object => ?_
    obtain ⟨wk',object',hdb,hkey⟩ := linked.object member
    rw [object] at object'
    cases object'
    exact unflagged a wk object hdb hkey
  · intro a wk object
    simp only [sweep,touchRule,linked.mem_watchers_iff object]

/-! ## A whole database -/

theorem touchWatchers_spec (linked : s.Linked) (emptied : Fin dbnum)
    (replacedWith : Option (Fin dbnum)) (key : K) :
    ∃ t, touchWatchers emptied replacedWith s key = some t ∧ s.SameLinks t ∧ s.SameView t ∧
      Ran (fun _ wk => if wk.db = emptied ∧ wk.key = key then verdict s emptied replacedWith wk else some wk.expired) s t := by
  unfold touchWatchers
  by_cases stored : ((s.keys emptied key).isSome || replacedWith.any fun db => (s.keys db key).isSome) = true
  · rw [if_pos stored]
    obtain ⟨t,run,links,view,ran⟩ := Ran.foldlM (P := fun b a _ => a = b) (R := fun _ => verdict s emptied replacedWith)
      (touchWatcher emptied replacedWith key) (s.watchers emptied key)
      ((linked.nodup_watching emptied key).imp fun differ _ _ _ here there => differ (here.symm.trans there))
      (by
        intro b member u links view
        obtain ⟨wk,object,-,hkey⟩ := linked.object member
        obtain ⟨wk',there,-,-,same⟩ := place_eq_some.mp ((links.place b).trans (place_of_object object))
        rw [← hkey,← same] at stored ⊢
        rw [← verdict_congr view]
        exact touchWatcher_spec there (by rw [view.keys]; exact stored)) s (.refl s) (.refl s)
    refine ⟨t,run,links,view,ran.congr ?_⟩
    intro a wk object
    simp [linked.mem_watchers_iff object]
  · rw [if_neg stored]
    refine ⟨s,rfl,.refl s,.refl s,.same fun a wk _ => ?_⟩
    split
    · rename_i same
      obtain ⟨-,rfl⟩ := same
      exact if_pos (by simpa using stored)
    · rfl

theorem touchAllWatchedKeysInDb_spec (linked : s.Linked) (emptied : Fin dbnum)
    (replacedWith : Option (Fin dbnum)) :
    ∃ t, touchAllWatchedKeysInDb emptied replacedWith s = some t ∧ s.SameLinks t ∧ s.SameView t ∧
      Ran (fun _ wk => if wk.db = emptied then verdict s wk.db replacedWith wk else some wk.expired) s t := by
  obtain ⟨t,run,links,view,ran⟩ := Ran.foldlM (P := fun key _ wk => wk.db = emptied ∧ wk.key = key)
    (R := fun _ => verdict s emptied replacedWith) (touchWatchers emptied replacedWith) (s.watchedKeys emptied).keys
    ((s.watchedKeys emptied).keys_nodup.imp fun differ _ _ _ here there => differ (here.2.symm.trans there.2))
    (by
      intro key _ u links view
      rw [← verdict_congr view]
      exact touchWatchers_spec (linked.congr links) emptied replacedWith key) s (.refl s) (.refl s)
  refine ⟨t,run,links,view,ran.congr ?_⟩
  intro a wk object
  split
  · rename_i met
    obtain ⟨_,_,same,_⟩ := met
    rw [if_pos same,same]
  · rename_i unmet
    rw [if_neg fun same => unmet ⟨wk.key,mem_keys_of_watchers (same ▸ linked.mem_watchers object),same,rfl⟩]

end ValkeyWasm.Watch

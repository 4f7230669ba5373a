import ValkeyWasm.Library.Dictionary
import ValkeyWasm.Watch.Watch

/-! The three structures that reach a `watchedKey` agree. `Linked` says it through the allocated objects:
each list and each table holds exactly the addresses of the live objects that belong in it. -/

namespace ValkeyWasm.Watch
open Library.Dictionary Function List Option

variable {C K V : Type} {dbnum : Nat}

namespace Server

def place (s : Server C K V dbnum) (a : Nat) : Option (C × Fin dbnum × K) :=
  (s.objects a).map fun wk => (wk.client,wk.db,wk.key)

variable {s t u : Server C K V dbnum} {a : Nat} {c : C} {db : Fin dbnum} {key : K} {wk : WatchedKey C K dbnum}

theorem place_eq_some :
    s.place a = some (c,db,key) ↔ ∃ wk, s.objects a = some wk ∧ wk.client = c ∧ wk.db = db ∧ wk.key = key := by
  simp [place]

theorem place_of_object (object : s.objects a = some wk) :
    s.place a = some (wk.client,wk.db,wk.key) := by
  simp [place,object]

theorem setClient_clients [DecidableEq C] (c c' : C) (client : Client K V dbnum) (s : Server C K V dbnum) :
    (s.setClient c client).clients c' = if c' = c then client else s.clients c' := by
  simp only [setClient,update_apply]

theorem setObject_objects (a a' : Nat) (wk : Option (WatchedKey C K dbnum)) (s : Server C K V dbnum) :
    (s.setObject a wk).objects a' = if a' = a then wk else s.objects a' := by
  simp only [setObject,update_apply]

structure SameLinks (s t : Server C K V dbnum) : Prop where
  place : ∀ a, t.place a = s.place a
  watchedKeys : t.watchedKeys = s.watchedKeys
  fresh : t.fresh = s.fresh
  listed : ∀ c, (t.clients c).watchedKeys = (s.clients c).watchedKeys
  table : ∀ c, (t.clients c).watchedKeysByDb = (s.clients c).watchedKeysByDb

theorem SameLinks.refl (s : Server C K V dbnum) : s.SameLinks s := ⟨fun _ => rfl,rfl,rfl,fun _ => rfl,fun _ => rfl⟩

theorem SameLinks.trans (first : s.SameLinks t) (second : t.SameLinks u) : s.SameLinks u where
  place a := (second.place a).trans (first.place a)
  watchedKeys := second.watchedKeys.trans first.watchedKeys
  fresh := second.fresh.trans first.fresh
  listed c := (second.listed c).trans (first.listed c)
  table c := (second.table c).trans (first.table c)

structure SameView (s t : Server C K V dbnum) : Prop where
  keys : t.keys = s.keys
  now : t.now = s.now

theorem SameView.trans (first : s.SameView t) (second : t.SameView u) : s.SameView u :=
  ⟨second.keys.trans first.keys,second.now.trans first.now⟩

theorem SameView.refl (s : Server C K V dbnum) : s.SameView s := ⟨rfl,rfl⟩

variable [DecidableEq K]

theorem setWatchers_watchers (db db' : Fin dbnum) (key key' : K) (l : List Nat) (s : Server C K V dbnum) :
    (s.setWatchers db key l).watchers db' key' = if db' = db ∧ key' = key then l else s.watchers db' key' := by
  unfold watchers setWatchers
  rw [lookup_file]
  split
  · by_cases empty : l = [] <;> simp [empty]
  · rfl

def Occupied (s : Server C K V dbnum) : Prop := ∀ db key, (s.watchedKeys db).lookup key ≠ some []

theorem Occupied.setWatchers (occupied : s.Occupied) (db : Fin dbnum) (key : K) (l : List Nat) :
    (s.setWatchers db key l).Occupied := by
  intro db' key'
  unfold Server.setWatchers
  rw [lookup_file]
  split
  · by_cases empty : l = [] <;> simp [empty]
  · exact occupied db' key'

structure Linked (s : Server C K V dbnum) : Prop where
  listed : ∀ c a, a ∈ (s.clients c).watchedKeys ↔ ∃ db key, s.place a = some (c,db,key)
  watching : ∀ db key a, a ∈ s.watchers db key ↔ ∃ c, s.place a = some (c,db,key)
  table : ∀ c db key a, (s.clients c).watchedKeysByDb db key = some a ↔ s.place a = some (c,db,key)
  nodup_listed : ∀ c, (s.clients c).watchedKeys.Nodup
  nodup_watching : ∀ db key, (s.watchers db key).Nodup
  unused : ∀ a, s.fresh ≤ a → s.objects a = none
  occupied : s.Occupied

theorem Linked.congr (linked : s.Linked) (same : s.SameLinks t) : t.Linked := by
  have watchers : t.watchers = s.watchers := by
    unfold Server.watchers
    rw [same.watchedKeys]
  constructor
  · intro c a
    rw [same.listed,linked.listed]
    simp only [same.place]
  · intro db key a
    rw [watchers,linked.watching]
    simp only [same.place]
  · intro c db key a
    rw [same.table,linked.table,same.place]
  · intro c
    rw [same.listed]
    exact linked.nodup_listed c
  · intro db key
    rw [watchers]
    exact linked.nodup_watching db key
  · intro a bound
    rw [same.fresh] at bound
    have gone := linked.unused a bound
    have none := same.place a
    simpa [Server.place,gone] using none
  · unfold Occupied
    rw [same.watchedKeys]
    exact linked.occupied

theorem Linked.setKeys (linked : s.Linked) (keys : Keyspace K V dbnum) : (s.setKeys keys).Linked :=
  linked.congr ⟨fun _ => rfl,rfl,rfl,fun _ => rfl,fun _ => rfl⟩

theorem Linked.unique (linked : s.Linked) {b : Nat} {place : C × Fin dbnum × K}
    (left : s.place a = some place) (right : s.place b = some place) : a = b := by
  obtain ⟨c,db,key⟩ := place
  have entry := (linked.table c db key a).mpr left
  rw [(linked.table c db key b).mpr right] at entry
  exact (Option.some.inj entry).symm

theorem Linked.object (linked : s.Linked) (member : a ∈ s.watchers db key) :
    ∃ wk, s.objects a = some wk ∧ wk.db = db ∧ wk.key = key := by
  obtain ⟨c,placed⟩ := (linked.watching db key a).mp member
  obtain ⟨wk,object,-,db,key⟩ := place_eq_some.mp placed
  exact ⟨wk,object,db,key⟩

theorem Linked.mem_watchers_iff (linked : s.Linked) (object : s.objects a = some wk) :
    a ∈ s.watchers db key ↔ wk.db = db ∧ wk.key = key := by
  rw [linked.watching]
  simp [place,object]

theorem Linked.mem_watchers (linked : s.Linked) (object : s.objects a = some wk) : a ∈ s.watchers wk.db wk.key :=
  (linked.mem_watchers_iff object).mpr ⟨rfl,rfl⟩

theorem mem_keys_of_watchers (member : a ∈ s.watchers db key) : key ∈ (s.watchedKeys db).keys := by
  by_contra outside
  rw [watchers,AList.lookup_eq_none.mpr outside] at member
  cases member

theorem Linked.mem_listed (linked : s.Linked) (object : s.objects a = some wk) : a ∈ (s.clients wk.client).watchedKeys :=
  (linked.listed _ a).mpr ⟨wk.db,wk.key,place_of_object object⟩

theorem Linked.listed_object (linked : s.Linked) (member : a ∈ (s.clients c).watchedKeys) :
    ∃ wk, s.objects a = some wk ∧ wk.client = c := by
  obtain ⟨db,key,placed⟩ := (linked.listed c a).mp member
  obtain ⟨wk,object,client,-⟩ := place_eq_some.mp placed
  exact ⟨wk,object,client⟩

theorem linked_initial [NeZero dbnum] (now : Int) : (Server.initial now : Server C K V dbnum).Linked := by
  constructor <;> simp [Server.initial,Client.initial,Server.place,Server.watchers,Occupied]

end Server

open Server

variable [DecidableEq C] [DecidableEq K]

/-! ## Linking -/

section
variable (wk : WatchedKey C K dbnum) (s : Server C K V dbnum)

theorem linkWatchedKey_objects (a : Nat) :
    (linkWatchedKey wk s).objects a = if a = s.fresh then some wk else s.objects a :=
  setObject_objects s.fresh a (some wk) s

theorem linkWatchedKey_watchers (db : Fin dbnum) (key : K) :
    (linkWatchedKey wk s).watchers db key =
      if db = wk.db ∧ key = wk.key then s.watchers wk.db wk.key ++ [s.fresh] else s.watchers db key :=
  setWatchers_watchers wk.db db wk.key key _ _

theorem linkWatchedKey_listed (c : C) :
    ((linkWatchedKey wk s).clients c).watchedKeys =
      if c = wk.client then (s.clients c).watchedKeys ++ [s.fresh] else (s.clients c).watchedKeys := by
  change ((Server.setClient wk.client _ _).clients c).watchedKeys = _
  rw [setClient_clients]
  split
  · rename_i client
    rw [client]
  · rfl

theorem linkWatchedKey_table (c : C) (db : Fin dbnum) (key : K) :
    ((linkWatchedKey wk s).clients c).watchedKeysByDb db key =
      if c = wk.client ∧ db = wk.db ∧ key = wk.key then some s.fresh else (s.clients c).watchedKeysByDb db key := by
  change ((Server.setClient wk.client _ _).clients c).watchedKeysByDb db key = _
  rw [setClient_clients]
  by_cases client : c = wk.client
  · rw [if_pos client]
    simp only [client,update_apply,true_and]
    by_cases samedb : db = wk.db
    · simp only [samedb,if_true,update_apply,true_and]
    · simp only [samedb,if_false,false_and]
  · rw [if_neg client,if_neg fun both => client both.1]
    rfl

variable {wk s} in
theorem linkWatchedKey_place (linked : s.Linked) (a : Nat)
    (place : C × Fin dbnum × K) :
    (linkWatchedKey wk s).place a = some place ↔
      (a = s.fresh ∧ (wk.client,wk.db,wk.key) = place) ∨ s.place a = some place := by
  have gone : s.objects s.fresh = none := linked.unused _ le_rfl
  unfold Server.place
  rw [linkWatchedKey_objects]
  by_cases new : a = s.fresh
  · subst new
    simp [gone]
  · simp [new]

end

variable {s t : Server C K V dbnum} {c : C}

theorem linked_linkWatchedKey {wk : WatchedKey C K dbnum} (linked : s.Linked)
    (absent : (s.clients wk.client).watchedKeysByDb wk.db wk.key = none) : (linkWatchedKey wk s).Linked := by
  have unlisted : ∀ place, s.place s.fresh ≠ some place := by
    intro place
    simp [Server.place,linked.unused _ le_rfl]
  constructor
  · intro c a
    rw [linkWatchedKey_listed]
    simp only [linkWatchedKey_place linked,Prod.mk.injEq]
    split
    · rename_i client
      simp only [mem_append,mem_singleton,linked.listed]
      grind
    · rw [linked.listed]
      grind
  · intro db key a
    rw [linkWatchedKey_watchers]
    simp only [linkWatchedKey_place linked,Prod.mk.injEq]
    split
    · rename_i same
      simp only [mem_append,mem_singleton,linked.watching]
      grind
    · rw [linked.watching]
      grind
  · intro c db key a
    rw [linkWatchedKey_table,linkWatchedKey_place linked]
    split
    · rename_i same
      obtain ⟨rfl,rfl,rfl⟩ := same
      have nowhere : s.place a ≠ some (wk.client,wk.db,wk.key) := by
        intro placed
        rw [(linked.table _ _ _ a).mpr placed] at absent
        cases absent
      simp only [some.injEq,and_true,nowhere,or_false]
      exact eq_comm
    · rename_i other
      rw [linked.table]
      constructor
      · exact Or.inr
      rintro (⟨-,same⟩ | placed)
      · cases same
        exact absurd ⟨rfl,rfl,rfl⟩ other
      · exact placed
  · intro c
    rw [linkWatchedKey_listed]
    split
    · refine (linked.nodup_listed c).append (nodup_singleton _) ?_
      rw [disjoint_singleton]
      intro member
      obtain ⟨db,key,placed⟩ := (linked.listed c _).mp member
      exact unlisted _ placed
    · exact linked.nodup_listed c
  · intro db key
    rw [linkWatchedKey_watchers]
    split
    · refine (linked.nodup_watching _ _).append (nodup_singleton _) ?_
      rw [disjoint_singleton]
      intro member
      obtain ⟨c,placed⟩ := (linked.watching _ _ _).mp member
      exact unlisted _ placed
    · exact linked.nodup_watching db key
  · intro a bound
    have past : s.fresh + 1 ≤ a := bound
    rw [linkWatchedKey_objects,if_neg (by omega)]
    exact linked.unused a (by omega)
  · exact linked.occupied.setWatchers wk.db wk.key _

theorem linked_watchForKey (linked : s.Linked) (c : C) (key : K) : (watchForKey c key s).Linked := by
  unfold watchForKey
  dsimp only
  split
  · exact linked
  · rename_i unwatched
    apply linked_linkWatchedKey linked
    simpa using unwatched

/-! ## Unlinking -/

/-- `t` is `s` without the objects of the list `l`, all of them the client's. -/
structure Cleared (c : C) (l : List Nat) (s t : Server C K V dbnum) : Prop where
  view : s.SameView t
  fresh : t.fresh = s.fresh
  client : t.clients c = { s.clients c with watchedKeys := [] }
  others : ∀ c', c' ≠ c → t.clients c' = s.clients c'
  objects : ∀ a, t.objects a = if a ∈ l then none else s.objects a
  watchers : ∀ db key, t.watchers db key = (s.watchers db key).filter (· ∉ l)
  occupied : s.Occupied → t.Occupied

theorem unwatchLoop_spec (c : C) {l : List Nat} : ∀ s : Server C K V dbnum, (s.clients c).watchedKeys = l → l.Nodup →
    (∀ a ∈ l, ∃ wk, s.objects a = some wk ∧ a ∈ s.watchers wk.db wk.key) → (∀ db key, (s.watchers db key).Nodup) →
    (∀ db key, ∀ a ∈ s.watchers db key, ∃ wk, s.objects a = some wk ∧ wk.db = db ∧ wk.key = key) →
    ∃ t, unwatchLoop c l s = some t ∧ Cleared c l s t := by
  induction l with
  | nil =>
    intro s held _ _ _ _
    refine ⟨s,rfl,.refl s,rfl,?_,fun _ _ => rfl,by simp,by simp,id⟩
    rw [← held]
  | cons a rest ih =>
    intro s held distinct live nodup own
    obtain ⟨apart,distinct⟩ := nodup_cons.mp distinct
    obtain ⟨wk,object,member⟩ := live a mem_cons_self
    set t := ((s.setWatchers wk.db wk.key ((s.watchers wk.db wk.key).erase a)).setClient c
      { s.clients c with watchedKeys := rest }).setObject a none with ht
    have turn : unwatchKey c a rest s = some t := by
      simp only [unwatchKey,object,bind_eq_bind,bind_some,if_pos member]
      rfl
    have clients : ∀ c', t.clients c' = if c' = c then { s.clients c with watchedKeys := rest } else s.clients c' := by
      intro c'
      exact setClient_clients c c' _ _
    have objects : ∀ b, t.objects b = if b = a then none else s.objects b := fun b => setObject_objects a b none _
    have watchers : ∀ db key, t.watchers db key = (s.watchers db key).filter (· ≠ a) := by
      intro db key
      have changed : t.watchers db key = if db = wk.db ∧ key = wk.key then (s.watchers wk.db wk.key).erase a
          else s.watchers db key := setWatchers_watchers wk.db db wk.key key _ s
      rw [changed]
      split
      · rename_i same
        obtain ⟨rfl,rfl⟩ := same
        rw [(nodup wk.db wk.key).erase_eq_filter a]
        refine filter_congr fun b _ => ?_
        rw [bne,Bool.beq_eq_decide_eq,decide_not]
      · rename_i other
        refine (filter_eq_self.mpr ?_).symm
        intro b inside
        obtain ⟨found,same,rfl,rfl⟩ := own db key b inside
        refine decide_eq_true ?_
        rintro rfl
        rw [object] at same
        cases same
        exact other ⟨rfl,rfl⟩
    obtain ⟨u,rest_run,cleared⟩ := ih t (by rw [clients,if_pos rfl]) distinct
      (by
        intro b inside
        have different : b ≠ a := fun same => apart (same ▸ inside)
        obtain ⟨found,there,listed⟩ := live b (mem_cons_of_mem a inside)
        refine ⟨found,by rw [objects,if_neg different]; exact there,?_⟩
        rw [watchers,mem_filter]
        exact ⟨listed,decide_eq_true different⟩)
      (by
        intro db key
        rw [watchers]
        exact (nodup db key).filter _)
      (by
        intro db key b inside
        rw [watchers,mem_filter,decide_eq_true_eq] at inside
        obtain ⟨found,there,place⟩ := own db key b inside.1
        exact ⟨found,by rw [objects,if_neg inside.2]; exact there,place⟩)
    refine ⟨u,?_,?_⟩
    · simp only [unwatchLoop,turn,bind_eq_bind,bind_some,rest_run]
    constructor
    · exact SameView.trans (show s.SameView t from ⟨rfl,rfl⟩) cleared.view
    · exact cleared.fresh
    · rw [cleared.client,clients,if_pos rfl]
    · intro c' other
      rw [cleared.others c' other,clients,if_neg other]
    · intro b
      rw [cleared.objects,objects]
      grind
    · intro db key
      rw [cleared.watchers,watchers,List.filter_filter]
      refine filter_congr fun b _ => ?_
      simp only [mem_cons,not_or,Bool.decide_and]
      exact Bool.and_comm _ _
    · intro occupied
      exact cleared.occupied (occupied.setWatchers wk.db wk.key _)

/-- `t` is `s` once the client watches nothing. -/
structure Unwatched (c : C) (s t : Server C K V dbnum) : Prop where
  view : s.SameView t
  linked : t.Linked
  client : t.clients c = { s.clients c with watchedKeys := [], watchedKeysByDb := fun _ _ => none }
  others : ∀ c', c' ≠ c → t.clients c' = s.clients c'
  objects : ∀ a, t.objects a = if a ∈ (s.clients c).watchedKeys then none else s.objects a
  watchers : ∀ db key, t.watchers db key = (s.watchers db key).filter (· ∉ (s.clients c).watchedKeys)

theorem Cleared.unwatched {u : Server C K V dbnum} (linked : s.Linked)
    (cleared : Cleared c (s.clients c).watchedKeys s t)
    (emptied : u = t.setClient c { t.clients c with watchedKeysByDb := fun _ _ => none }) : Unwatched c s u := by
  subst emptied
  set u := t.setClient c { t.clients c with watchedKeysByDb := fun _ _ => none } with hu
  have clients : ∀ c', u.clients c' =
      if c' = c then { s.clients c with watchedKeys := [], watchedKeysByDb := fun _ _ => none } else s.clients c' := by
    intro c'
    rw [hu,setClient_clients]
    split
    · rw [cleared.client]
    · exact cleared.others c' ‹_›
  have place : ∀ a c' db key, u.place a = some (c',db,key) ↔ c' ≠ c ∧ s.place a = some (c',db,key) := by
    intro a c' db key
    have object : u.objects a = if a ∈ (s.clients c).watchedKeys then none else s.objects a := cleared.objects a
    unfold Server.place
    rw [object]
    split
    · rename_i listed
      obtain ⟨wk,found,client⟩ := linked.listed_object listed
      simp [found,client]
      grind
    rename_i unlisted
    constructor
    · intro placed
      refine ⟨?_,placed⟩
      rintro rfl
      exact unlisted ((linked.listed c' a).mpr ⟨db,key,placed⟩)
    · exact And.right
  have watchers : ∀ db key, u.watchers db key = (s.watchers db key).filter (· ∉ (s.clients c).watchedKeys) :=
    cleared.watchers
  refine ⟨⟨cleared.view.keys,cleared.view.now⟩,?_,by rw [clients,if_pos rfl],fun c' other => by rw [clients,if_neg other],cleared.objects,watchers⟩
  constructor
  · intro c' a
    simp only [place,clients]
    split
    · simp [*]
    · simp [*,linked.listed]
  · intro db key a
    simp only [place,watchers,mem_filter,linked.watching,decide_eq_true_eq,linked.listed]
    constructor
    · rintro ⟨⟨c',placed⟩,other⟩
      refine ⟨c',?_,placed⟩
      rintro rfl
      exact other ⟨db,key,placed⟩
    rintro ⟨c',other,placed⟩
    refine ⟨⟨c',placed⟩,?_⟩
    rintro ⟨db',key',same⟩
    rw [placed] at same
    cases same
    exact other rfl
  · intro c' db key a
    simp only [place,clients]
    split
    · simp [*]
    · simp [*,linked.table]
  · intro c'
    rw [clients]
    split
    · exact nodup_nil
    · exact linked.nodup_listed c'
  · intro db key
    rw [watchers]
    exact (linked.nodup_watching db key).filter _
  · intro a bound
    have gone : s.objects a = none := linked.unused a (cleared.fresh ▸ bound)
    have object := cleared.objects a
    rw [gone,ite_self] at object
    exact object
  · exact cleared.occupied linked.occupied

theorem unwatchAllKeys_spec (linked : s.Linked) (c : C) :
    ∃ t, unwatchAllKeys c s = some t ∧ Unwatched c s t := by
  unfold unwatchAllKeys
  by_cases empty : (s.clients c).watchedKeys = []
  · rw [if_pos empty]
    have table : (s.clients c).watchedKeysByDb = fun _ _ => none := by
      funext db key
      refine eq_none_iff_forall_ne_some.mpr fun a entry => ?_
      have member := (linked.listed c a).mpr ⟨db,key,(linked.table c db key a).mp entry⟩
      rw [empty] at member
      cases member
    refine ⟨s,rfl,.refl s,linked,?_,fun _ _ => rfl,by simp [empty],by simp [empty]⟩
    rw [← table,← empty]
  · rw [if_neg empty]
    obtain ⟨t,run,cleared⟩ := unwatchLoop_spec c s rfl (linked.nodup_listed c)
      (by
        intro a member
        obtain ⟨wk,object,-⟩ := linked.listed_object member
        exact ⟨wk,object,linked.mem_watchers object⟩)
      linked.nodup_watching (fun db key a member => linked.object member)
    refine ⟨_,?_,cleared.unwatched linked rfl⟩
    simp only [run,bind_eq_bind,bind_some]

end ValkeyWasm.Watch

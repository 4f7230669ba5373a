import ValkeyWasm.Watch.Replacement

/-! The remaining transitions of the server, from one state of a run to the next: changes of a client,
commands, WATCH and the clock. -/

namespace ValkeyWasm.Watch

open Server

variable {C K V : Type} {dbnum : Nat} [DecidableEq K] [DecidableEq C]

/-! ## Changes of a client -/

variable {s : Server C K V dbnum} {P : Prop}

theorem setClient_spec (linked : s.Linked) (c : C) (client : Client K V dbnum)
    (listed : client.watchedKeys = (s.clients c).watchedKeys) (table : client.watchedKeysByDb = (s.clients c).watchedKeysByDb)
    (dirty : client.dirtyCas = (s.clients c).dirtyCas) : (s.setClient c client).Linked ∧ Tracks s (s.setClient c client) := by
  have clients : ∀ c', ((s.setClient c client).clients c').watchedKeys = (s.clients c').watchedKeys ∧
      ((s.setClient c client).clients c').watchedKeysByDb = (s.clients c').watchedKeysByDb ∧
      ((s.setClient c client).clients c').dirtyCas = (s.clients c').dirtyCas := by
    intro c'
    rw [setClient_clients]
    split
    · rename_i same
      rw [same]
      exact ⟨listed,table,dirty⟩
    · exact ⟨rfl,rfl,rfl⟩
  refine ⟨linked.congr ⟨fun _ => rfl,rfl,rfl,fun c' => (clients c').1,fun c' => (clients c').2.1⟩,fun flagged => ⟨flagged,?_⟩⟩
  intro c' db key watches fine
  refine ⟨watches,?_,rfl⟩
  rintro (dirty' | doomed)
  · exact fine (.inl ((clients c').2.2.trans dirty'))
  · exact fine (.inr doomed)

variable {t : Server C K V dbnum} {c : C}

omit [DecidableEq K] [DecidableEq C] in
theorem tracks_drop (view : s.SameView t)
    (objects : ∀ a wk, t.objects a = some wk ↔ s.objects a = some wk ∧ wk.client ≠ c)
    (dirty : ∀ c', c' ≠ c → (t.clients c').dirtyCas = (s.clients c').dirtyCas) : Tracks s t := by
  intro flagged
  constructor
  · intro a wk object expired
    rw [keyIsExpired_congr view]
    exact flagged a wk ((objects a wk).mp object).1 expired
  rintro c' db key ⟨a,placed⟩ fine
  obtain ⟨wk,object,rfl,rfl,rfl⟩ := place_eq_some.mp placed
  obtain ⟨before,other⟩ := (objects a wk).mp object
  refine ⟨⟨a,place_of_object before⟩,?_,(visible_congr view.now (by rw [view.keys])).2⟩
  rintro (dirty' | ⟨a',wk',object',client,unflagged,expired⟩)
  · exact fine (.inl ((dirty _ other).trans dirty'))
  · refine fine (.inr ⟨a',wk',(objects a' wk').mpr ⟨object',client ▸ other⟩,client,unflagged,?_⟩)
    rw [keyIsExpired_congr view]
    exact expired

section
variable (linked : s.Linked)
include linked

omit [DecidableEq C] in
theorem Unwatched.object_iff (unwatched : Unwatched c s t) (a : Nat)
    (wk : WatchedKey C K dbnum) : t.objects a = some wk ↔ s.objects a = some wk ∧ wk.client ≠ c := by
  rw [unwatched.objects]
  split
  · rename_i listed
    obtain ⟨found,object,client⟩ := linked.listed_object listed
    constructor
    · intro never
      cases never
    rintro ⟨same,other⟩
    rw [object] at same
    cases same
    exact absurd client other
  · rename_i unlisted
    constructor
    · intro object
      refine ⟨object,?_⟩
      rintro rfl
      exact unlisted (linked.mem_listed object)
    · exact And.left

omit [DecidableEq C] in
theorem Unwatched.tracks (unwatched : Unwatched c s t) : Tracks s t :=
  tracks_drop unwatched.view (unwatched.object_iff linked) fun c' other => by rw [unwatched.others c' other]

theorem Unwatched.reset (unwatched : Unwatched c s t)
    {client : Client K V dbnum} (listed : client.watchedKeys = []) (table : client.watchedKeysByDb = fun _ _ => none) :
    Runs P s (some (t.setClient c client)) := by
  refine ⟨_,rfl,?_,fun _ => ?_⟩
  · refine unwatched.linked.congr ⟨fun _ => rfl,rfl,rfl,fun c' => ?_,fun c' => ?_⟩
    · rw [setClient_clients]
      split
      · rename_i same
        rw [same,unwatched.client,listed]
      · rfl
    · rw [setClient_clients]
      split
      · rename_i same
        rw [same,unwatched.client,table]
      · rfl
  · have objects := unwatched.object_iff linked
    refine tracks_drop (c := c) ⟨unwatched.view.keys,unwatched.view.now⟩ (fun a wk => objects a wk) fun c' other => ?_
    rw [setClient_clients,if_neg other,unwatched.others c' other]

theorem unwatchCommand_spec (c : C) : Runs P s (unwatchCommand c s) := by
  obtain ⟨u,run,unwatched⟩ := unwatchAllKeys_spec linked c
  rw [unwatchCommand,run]
  exact unwatched.reset linked (by rw [unwatched.client]) (by rw [unwatched.client])

theorem freeClient_spec [NeZero dbnum] (c : C) : Runs P s (freeClient c s) := by
  obtain ⟨u,run,unwatched⟩ := unwatchAllKeys_spec linked c
  rw [freeClient,run]
  exact unwatched.reset linked rfl rfl

theorem discardTransaction_spec (c : C) : Runs P s (discardTransaction c s) := by
  set u := resetClientMultiState c s with hu
  set w := u.setClient c { u.clients c with multi := false, dirtyCas := false, dirtyExec := false } with hw
  have clients : ∀ c', w.clients c' = if c' = c then
      { s.clients c with commands := [], multi := false, dirtyCas := false, dirtyExec := false } else s.clients c' := by
    intro c'
    simp only [hw,hu,resetClientMultiState,setClient_clients]
    split <;> simp_all
  have links : s.SameLinks w := by
    refine ⟨fun _ => rfl,rfl,rfl,fun c' => ?_,fun c' => ?_⟩
    · rw [clients]
      split <;> simp_all
    · rw [clients]
      split <;> simp_all
  obtain ⟨t,run,unwatched⟩ := unwatchAllKeys_spec (linked.congr links) c
  refine ⟨t,run,unwatched.linked,fun _ => ?_⟩
  have objects := unwatched.object_iff (linked.congr links)
  refine tracks_drop (c := c) ⟨unwatched.view.keys,unwatched.view.now⟩ (fun a wk => objects a wk) fun c' other => ?_
  rw [unwatched.others c' other,clients,if_neg other]

theorem flagTransaction_spec (c : C) :
    (flagTransaction c s).Linked ∧ Tracks s (flagTransaction c s) := by
  unfold flagTransaction
  split
  · have first := setClient_spec linked c { s.clients c with dirtyExec := true } rfl rfl rfl
    have second := setClient_spec first.1 c
      { (s.setClient c { s.clients c with dirtyExec := true }).clients c with commands := [] } rfl rfl rfl
    exact ⟨second.1,first.2.trans second.2⟩
  · exact ⟨linked,.refl s⟩

theorem queueMultiCommand_spec (c : C) (command : Command K V dbnum) :
    (queueMultiCommand c command s).Linked ∧ Tracks s (queueMultiCommand c command s) := by
  unfold queueMultiCommand
  dsimp only
  split
  · exact ⟨linked,.refl s⟩
  · exact setClient_spec linked c _ rfl rfl rfl

end

theorem call_spec (linked : s.Linked) (c : C) (command : Command K V dbnum) :
    Runs (revives c command s = false) s (call c command s) := by
  cases command with
  | access accesses => exact accesses_spec (s.clients c).db accesses s linked
  | rename src dst nx => exact renameGenericCommand_spec linked (s.clients c).db src dst nx
  | move key dst => exact moveCommand_spec linked (s.clients c).db dst key
  | copy src dst db replace => exact copyCommand_spec linked (s.clients c).db db src dst replace
  | store sources dst result => exact storeCommand_spec linked (s.clients c).db sources dst result
  | restore key payload ttl absttl replace => exact restoreCommand_spec linked c key payload ttl absttl replace
  | flushdb => exact flushdbCommand_spec linked (s.clients c).db
  | flushall => exact flushallCommand_spec linked
  | swapdb id1 id2 => exact dbSwapDatabases_spec linked c id1 id2
  | select db =>
    have := setClient_spec linked c { s.clients c with db := db } rfl rfl rfl
    exact ⟨_,rfl,this.1,fun _ => this.2⟩
  | unwatch => exact unwatchCommand_spec linked c

/-! ## Steps -/

/-- From one state of a run to the next: a watch that is still there and whose client is not doomed has
missed no change. -/
def Faithful (s t : Server C K V dbnum) : Prop :=
  ∀ c db key, Watches s c db key → Watches t c db key → ¬Doomed t c → ¬Doomed s c ∧ visible t db key = visible s db key

def Advances (s t : Server C K V dbnum) : Prop := Flagged t ∧ Faithful s t

omit [DecidableEq K] [DecidableEq C] in
theorem Tracks.advances (tracks : Tracks s t) (flagged : Flagged s) : Advances s t := by
  obtain ⟨flagged',keeps⟩ := tracks flagged
  exact ⟨flagged',fun c db key _ watches fine => (keeps c db key watches fine).2⟩

structure Extends (s t : Server C K V dbnum) : Prop where
  linked : t.Linked
  view : s.SameView t
  dirty : ∀ c, (t.clients c).dirtyCas = (s.clients c).dirtyCas
  objects : ∀ a wk, s.objects a = some wk → t.objects a = some wk
  flagged : Flagged s → Flagged t

omit [DecidableEq C] in
theorem Extends.trans {u : Server C K V dbnum} (first : Extends s t) (second : Extends t u) : Extends s u where
  linked := second.linked
  view := first.view.trans second.view
  dirty c := (second.dirty c).trans (first.dirty c)
  objects a wk object := second.objects a wk (first.objects a wk object)
  flagged start := second.flagged (first.flagged start)

omit [DecidableEq C] in
theorem Extends.refl (linked : s.Linked) : Extends s s :=
  ⟨linked,.refl s,fun _ => rfl,fun _ _ => id,id⟩

theorem extends_watchForKey (linked : s.Linked) (c : C) (key : K) : Extends s (watchForKey c key s) := by
  refine ⟨linked_watchForKey linked c key,?_,?_,?_,?_⟩ <;> unfold watchForKey <;> dsimp only <;> split
  · exact .refl s
  · exact ⟨rfl,rfl⟩
  · exact fun _ => rfl
  · intro c'
    change ((Server.setClient c _ _).clients c').dirtyCas = _
    rw [setClient_clients]
    split
    · rename_i same
      rw [same]
    · rfl
  · exact fun _ _ => id
  · intro a wk object
    rw [linkWatchedKey_objects,if_neg]
    · exact object
    · rintro rfl
      rw [linked.unused _ le_rfl] at object
      cases object
  · exact id
  · intro flagged a wk object expired
    rw [linkWatchedKey_objects] at object
    split at object
    · cases object
      exact expired
    · exact flagged a wk object expired

theorem extends_watchKeys (keys : List K) : ∀ s : Server C K V dbnum, s.Linked →
    Extends s (keys.foldl (fun t key => watchForKey c key t) s) := by
  induction keys with
  | nil => exact fun s linked => .refl linked
  | cons key rest ih =>
    intro s linked
    have first := extends_watchForKey linked c key
    exact first.trans (ih _ first.linked)

theorem extends_watchCommand (linked : s.Linked) (c : C) (keys : List K) :
    Extends s (watchCommand c keys s) := by
  unfold watchCommand
  split
  · exact .refl linked
  · exact extends_watchKeys keys s linked

omit [DecidableEq C] in
theorem Extends.advances (more : Extends s t) (flagged : Flagged s) : Advances s t := by
  refine ⟨more.flagged flagged,fun c db key _ _ fine => ⟨?_,(visible_congr more.view.now (by rw [more.view.keys])).2⟩⟩
  rintro (dirty | ⟨a,wk,object,client,unflagged,expired⟩)
  · exact fine (.inl ((more.dirty c).trans dirty))
  · refine fine (.inr ⟨a,wk,more.objects a wk object,client,unflagged,?_⟩)
    rw [keyIsExpired_congr more.view]
    exact expired

omit [DecidableEq K] [DecidableEq C] in
theorem keyIsExpired_later {ms : Nat} {db : Fin dbnum} {key : K}
    (expired : keyIsExpired s db key = true) : keyIsExpired { s with now := s.now + ms } db key = true := by
  unfold keyIsExpired at expired ⊢
  dsimp only
  split at expired
  · cases expired
  · simp only [timestampIsExpired,Bool.and_eq_true,decide_eq_true_eq] at expired ⊢
    omega

omit [DecidableEq K] [DecidableEq C] in
theorem advances_tick (flagged : Flagged s) (ms : Nat) :
    Advances s { s with now := s.now + ms } := by
  refine ⟨fun a wk object expired => keyIsExpired_later (flagged a wk object expired),?_⟩
  rintro c db key ⟨a,placed⟩ - fine
  obtain ⟨wk,object,rfl,rfl,rfl⟩ := place_eq_some.mp placed
  constructor
  · rintro (dirty | ⟨a',wk',object',client,unflagged,expired⟩)
    · exact fine (.inl dirty)
    · exact fine (.inr ⟨a',wk',object',client,unflagged,keyIsExpired_later expired⟩)
  cases flag : wk.expired with
  | true =>
    have expired := flagged a wk object flag
    rw [visible_of_expired expired,visible_of_expired (keyIsExpired_later expired)]
  | false =>
    have later : keyIsExpired { s with now := s.now + ms } wk.db wk.key = false := by
      by_contra expired
      exact fine (.inr ⟨a,wk,object,rfl,flag,by simpa using expired⟩)
    have now : keyIsExpired s wk.db wk.key = false := by
      by_contra expired
      rw [keyIsExpired_later (by simpa using expired)] at later
      cases later
    unfold visible
    rw [later,now]

end ValkeyWasm.Watch

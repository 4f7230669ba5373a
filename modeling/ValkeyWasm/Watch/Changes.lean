import ValkeyWasm.Watch.Touch

/-! What the commands do to the keys clients watch. A client is doomed when its EXEC is going to abort; every
command leaves a client that is not doomed after it with the watched keys it had, each with the entry it had. -/

namespace ValkeyWasm.Watch
open Function List Option

open Server

variable {C K V : Type} {dbnum : Nat}

def visible (s : Server C K V dbnum) (db : Fin dbnum) (key : K) : Option (Entry V) :=
  if keyIsExpired s db key then none else s.keys db key

def Watches (s : Server C K V dbnum) (c : C) (db : Fin dbnum) (key : K) : Prop := ∃ a, s.place a = some (c,db,key)

def Doomed (s : Server C K V dbnum) (c : C) : Prop :=
  (s.clients c).dirtyCas = true ∨
    ∃ a wk, s.objects a = some wk ∧ wk.client = c ∧ wk.expired = false ∧ keyIsExpired s wk.db wk.key = true

/-- The flag stands only on keys that are stored and past their expire time. -/
def Flagged (s : Server C K V dbnum) : Prop :=
  ∀ a wk, s.objects a = some wk → wk.expired = true → keyIsExpired s wk.db wk.key = true

def Keeps (s t : Server C K V dbnum) : Prop :=
  ∀ c db key, Watches t c db key → ¬Doomed t c → Watches s c db key ∧ ¬Doomed s c ∧ visible t db key = visible s db key

def Tracks (s t : Server C K V dbnum) : Prop := Flagged s → Flagged t ∧ Keeps s t

variable {s t : Server C K V dbnum} {u : Server C K V dbnum}

theorem Tracks.trans (first : Tracks s t) (second : Tracks t u) : Tracks s u := by
  intro flagged
  obtain ⟨between,keeps⟩ := first flagged
  obtain ⟨after,keeps'⟩ := second between
  refine ⟨after,fun c db key watches fine => ?_⟩
  obtain ⟨watched,safe,same⟩ := keeps' c db key watches fine
  obtain ⟨watched',safe',same'⟩ := keeps c db key watched safe
  exact ⟨watched',safe',same.trans same'⟩

theorem Tracks.refl (s : Server C K V dbnum) : Tracks s s :=
  fun flagged => ⟨flagged,fun _ _ _ watches fine => ⟨watches,fine,rfl⟩⟩

variable {db : Fin dbnum} {key : K}

theorem visible_congr (now : t.now = s.now)
    (same : t.keys db key = s.keys db key) : keyIsExpired t db key = keyIsExpired s db key ∧ visible t db key = visible s db key := by
  have expired : keyIsExpired t db key = keyIsExpired s db key := by
    unfold keyIsExpired
    rw [same,now]
  refine ⟨expired,?_⟩
  unfold visible
  rw [expired,same]

theorem visible_of_expired (expired : keyIsExpired s db key = true) :
    visible s db key = none := if_pos expired

theorem keyIsExpired_of_absent (absent : s.keys db key = none) :
    keyIsExpired s db key = false := by
  unfold keyIsExpired
  rw [absent]

theorem isSome_of_expired (expired : keyIsExpired s db key = true) : (s.keys db key).isSome = true := by
  cases found : s.keys db key with
  | none =>
    rw [keyIsExpired_of_absent found] at expired
    cases expired
  | some entry => rfl

theorem visible_of_absent (absent : s.keys db key = none) :
    visible s db key = none := by
  unfold visible
  rw [keyIsExpired_of_absent absent,absent]
  rfl

/-- The contents after a touch bear out what its rule decided. -/
structure Fair (rule : Nat → WatchedKey C K dbnum → Option Bool) (s t : Server C K V dbnum) : Prop where
  unchanged : ∀ a wk, s.objects a = some wk → wk.expired = false → rule a wk = some false →
    t.keys wk.db wk.key = s.keys wk.db wk.key
  raised : ∀ a wk, s.objects a = some wk → wk.expired = false → rule a wk = some true →
    s.keys wk.db wk.key = none ∧ keyIsExpired t wk.db wk.key = true
  flagged : ∀ a wk, s.objects a = some wk → wk.expired = true → keyIsExpired s wk.db wk.key = true →
    (rule a wk = some true ∧ keyIsExpired t wk.db wk.key = true) ∨ (rule a wk = some false ∧ t.keys wk.db wk.key = none)

theorem Ran.tracks {rule : Nat → WatchedKey C K dbnum → Option Bool} (ran : Ran rule s t)
    (now : t.now = s.now) (fair : Flagged s → Fair rule s t) : Tracks s t := by
  intro flagged
  have fair := fair flagged
  constructor
  · intro a after object expired
    obtain ⟨wk,before,b,rfl,how⟩ := ran.back a after object
    subst expired
    cases old : wk.expired with
    | false =>
      have raised : rule a wk = some true := by
        rcases how with how | ⟨-,never⟩
        · exact how
        · rw [old] at never
          cases never
      exact (fair.raised a wk before old raised).2
    | true =>
      rcases fair.flagged a wk before old (flagged a wk before old) with ⟨-,still⟩ | ⟨cleared,-⟩
      · exact still
      · rw [cleared] at how
        rcases how with how | ⟨how,-⟩ <;> cases how
  · intro c db key watches fine
    obtain ⟨a,placed⟩ := watches
    obtain ⟨after,object,rfl,rfl,rfl⟩ := place_eq_some.mp placed
    obtain ⟨wk,before,b,rfl,-⟩ := ran.back a after object
    have clean : (t.clients wk.client).dirtyCas = false := by
      have := mt Or.inl fine
      simpa using this
    refine ⟨show Watches s wk.client wk.db wk.key from ⟨a,place_of_object before⟩,?_,?_⟩
    · rintro (dirty | ⟨a',wk',before',client,unflagged,expired⟩)
      · have := ran.calm _ clean
        rw [this] at dirty
        cases dirty
      rw [← client] at clean
      obtain ⟨b',how,object'⟩ := ran.forth a' wk' before' clean
      cases b' with
      | false =>
        refine fine (.inr ⟨a',_,object',client,rfl,?_⟩)
        rw [(visible_congr now (fair.unchanged a' wk' before' unflagged how)).1]
        exact expired
      | true =>
        rw [keyIsExpired_of_absent (fair.raised a' wk' before' unflagged how).1] at expired
        cases expired
    · obtain ⟨b',how,-⟩ := ran.forth a wk before clean
      cases old : wk.expired with
      | true =>
        have expired := flagged a wk before old
        rw [visible_of_expired expired]
        rcases fair.flagged a wk before old expired with ⟨-,still⟩ | ⟨-,gone⟩
        · exact visible_of_expired still
        · exact visible_of_absent gone
      | false =>
        cases b' with
        | false => exact (visible_congr now (fair.unchanged a wk before old how)).2
        | true =>
          obtain ⟨absent,expired⟩ := fair.raised a wk before old how
          rw [visible_of_absent absent]
          exact visible_of_expired expired

/-- No client watches the key since it had expired. -/
def Unflagged (s : Server C K V dbnum) (db : Fin dbnum) (key : K) : Prop :=
  ∀ a wk, s.objects a = some wk → wk.db = db → wk.key = key → wk.expired = false

theorem Flagged.unflagged (flagged : Flagged s)
    (valid : keyIsExpired s db key = false) : Unflagged s db key := by
  rintro a wk object rfl rfl
  by_contra expired
  have := flagged a wk object (by simpa using expired)
  rw [valid] at this
  cases this

theorem Ran.tracks_touch {P : Fin dbnum → K → Prop} [∀ db key, Decidable (P db key)]
    (ran : Ran (fun _ wk => if P wk.db wk.key then if wk.expired then some false else none else some wk.expired) s t)
    (now : t.now = s.now) (elsewhere : ∀ db key, ¬P db key → t.keys db key = s.keys db key)
    (places : Flagged s → ∀ db key, P db key → t.keys db key = none ∨ Unflagged s db key) : Tracks s t := by
  refine ran.tracks now fun flagged => ⟨?_,?_,?_⟩
  · intro a wk _ unflagged how
    by_cases here : P wk.db wk.key
    · simp [here,unflagged] at how
    · exact elsewhere _ _ here
  · intro a wk _ unflagged how
    by_cases here : P wk.db wk.key <;> simp [here,unflagged] at how
  intro a wk object expired still
  by_cases here : P wk.db wk.key
  · right
    refine ⟨by simp [here,expired],?_⟩
    rcases places flagged _ _ here with gone | unflagged
    · exact gone
    · have := unflagged a wk object rfl rfl
      rw [expired] at this
      cases this
  · left
    refine ⟨by simp [here,expired],?_⟩
    rw [(visible_congr now (elsewhere _ _ here)).1]
    exact still

structure Sound [DecidableEq K] (s t : Server C K V dbnum) : Prop where
  linked : t.Linked
  now : t.now = s.now
  tracks : Tracks s t

variable [DecidableEq K]

theorem Sound.trans (first : Sound s t) (second : Sound t u) : Sound s u :=
  ⟨second.linked,second.now.trans first.now,first.tracks.trans second.tracks⟩

theorem Sound.refl (linked : s.Linked) : Sound s s := ⟨linked,rfl,.refl s⟩

theorem dbDelete_apply (db db' : Fin dbnum) (key key' : K) (keys : Keyspace K V dbnum) :
    dbDelete db key keys db' key' = if db' = db ∧ key' = key then none else keys db' key' := by
  unfold dbDelete
  rcases eq_or_ne db' db with rfl | other
  · simp [update_apply]
  · simp [other]

theorem dbAdd_apply (db db' : Fin dbnum) (key key' : K) (entry : Entry V) (keys : Keyspace K V dbnum) :
    dbAdd db key entry keys db' key' = if db' = db ∧ key' = key then some entry else keys db' key' := by
  unfold dbAdd
  rcases eq_or_ne db' db with rfl | other
  · simp [update_apply]
  · simp [other]

/-- The call succeeds, and under the condition it misses no change of a watched key. -/
def Runs (P : Prop) (s : Server C K V dbnum) (run : Option (Server C K V dbnum)) : Prop :=
  ∃ t, run = some t ∧ t.Linked ∧ (P → Tracks s t)

variable {P : Prop} {run : Option (Server C K V dbnum)}

theorem Runs.done (linked : s.Linked) : Runs P s (some s) := ⟨s,rfl,linked,fun _ => .refl s⟩

theorem Runs.after (runs : Runs P t run) (tracks : P → Tracks s t) : Runs P s run := by
  obtain ⟨u,same,linked,later⟩ := runs
  exact ⟨u,same,linked,fun given => (tracks given).trans (later given)⟩

variable [DecidableEq C]

theorem signalModifiedKey_spec (linked : s.Linked) (db : Fin dbnum) (key : K)
    (keys : Keyspace K V dbnum) (elsewhere : ∀ db' key', ¬(db' = db ∧ key' = key) → keys db' key' = s.keys db' key') :
    ∃ t, signalModifiedKey db key (s.setKeys keys) = some t ∧ t.Linked ∧ t.now = s.now ∧ t.keys = keys ∧
      ((Flagged s → keys db key = none ∨ Unflagged s db key) → Tracks s t) := by
  obtain ⟨t,run,after,view,ran⟩ := touchWatchedKey_spec (linked.setKeys keys) db key
  refine ⟨t,run,after,view.now,view.keys,fun place flagged => ?_⟩
  have ran : Ran (touchRule db key) s t := by
    obtain ⟨calm,back,forth⟩ := ran (place flagged)
    exact ⟨calm,back,forth⟩
  refine Ran.tracks_touch (P := fun db' key' => db' = db ∧ key' = key) ran view.now ?_ ?_ flagged
  · intro db' key' other
    rw [view.keys]
    exact elsewhere db' key' other
  · rintro flagged db' key' ⟨rfl,rfl⟩
    rw [view.keys]
    exact place flagged

variable {db' : Fin dbnum}

omit [DecidableEq C] in
theorem touchRule_unflagged {key' : K} (ran : Ran (touchRule db key) s t)
    (unflagged : Unflagged s db' key') : Unflagged t db' key' := by
  rintro a after object rfl rfl
  obtain ⟨wk,before,b,rfl,how⟩ := ran.back a after object
  have old := unflagged a wk before rfl rfl
  simp only [touchRule,old] at how
  split_ifs at how <;> simp_all

theorem signal_moved (linked : s.Linked) (db : Fin dbnum) (key : K)
    {key' : K} (different : ¬(db' = db ∧ key' = key)) (entry : Entry V) (keys : Keyspace K V dbnum)
    (elsewhere : ∀ d k, ¬(d = db' ∧ k = key') → keys d k = s.keys d k) (valid : keyIsExpired s db' key' = false) :
    Runs P s ((signalModifiedKey db key (s.setKeys (dbAdd db' key' entry (dbDelete db key keys)))).bind
      (signalModifiedKey db' key')) := by
  generalize moved : dbAdd db' key' entry (dbDelete db key keys) = keys
  have gone : keys db key = none := by
    rw [← moved,dbAdd_apply,if_neg fun same => different ⟨same.1.symm,same.2.symm⟩,dbDelete_apply,if_pos ⟨rfl,rfl⟩]
  obtain ⟨u,first,between,view,ran⟩ := touchWatchedKey_spec (linked.setKeys keys) db key
  obtain ⟨t,second,after,view',ran'⟩ := touchWatchedKey_spec between db' key'
  refine ⟨t,bind_eq_some_iff.mpr ⟨u,first,second⟩,after,fun _ flagged => ?_⟩
  have valid := flagged.unflagged valid
  have ran : Ran (touchRule db key) s u := by
    obtain ⟨calm,back,forth⟩ := ran (.inl gone)
    exact ⟨calm,back,forth⟩
  have ran' := ran' (.inr (touchRule_unflagged ran valid))
  have both : Ran (fun _ wk => if (wk.db = db ∧ wk.key = key) ∨ (wk.db = db' ∧ wk.key = key') then
      if wk.expired then some false else none else some wk.expired) s t := by
    refine ran.trans ran' fun a wk _ => ?_
    by_cases here : wk.db = db ∧ wk.key = key
    · have there : ¬(wk.db = db' ∧ wk.key = key') := by
        rintro ⟨rfl,rfl⟩
        exact different here
      exact .inr ⟨fun _ => if_neg there,by simp [touchRule,here]⟩
    · exact .inl (by simp [touchRule,here])
  refine Ran.tracks_touch (P := fun d k => (d = db ∧ k = key) ∨ (d = db' ∧ k = key')) both
    (view'.now.trans view.now) ?_ ?_ flagged
  · intro d k other
    rw [not_or] at other
    rw [view'.keys,view.keys]
    change keys d k = _
    rw [← moved,dbAdd_apply,if_neg other.2,dbDelete_apply,if_neg other.1,elsewhere d k other.2]
  · rintro _ d k (⟨rfl,rfl⟩ | ⟨rfl,rfl⟩)
    · left
      rw [view'.keys,view.keys]
      exact gone
    · exact .inr valid

/-! ## Commands -/

theorem lookupKey_spec (linked : s.Linked) (db : Fin dbnum) (key : K) :
    ∃ t, lookupKey db key s = some (t.keys db key,t) ∧ Sound s t ∧ keyIsExpired t db key = false := by
  unfold lookupKey
  cases expired : keyIsExpired s db key with
  | false => exact ⟨s,rfl,.refl linked,expired⟩
  | true =>
    obtain ⟨t,run,linked',now,keys,tracks⟩ := signalModifiedKey_spec linked db key (dbDelete db key s.keys)
      (fun db' key' other => by rw [dbDelete_apply,if_neg other])
    have gone : dbDelete db key s.keys db key = none := by rw [dbDelete_apply,if_pos ⟨rfl,rfl⟩]
    refine ⟨t,?_,⟨linked',now,tracks fun _ => .inl gone⟩,keyIsExpired_of_absent (by rw [keys,gone])⟩
    simp only [if_true,run,bind_eq_bind,bind_some,keys,gone]

theorem signal_valid (linked : s.Linked) (keys : Keyspace K V dbnum)
    (elsewhere : ∀ db' key', ¬(db' = db ∧ key' = key) → keys db' key' = s.keys db' key')
    (valid : keyIsExpired s db key = false) : Runs P s (signalModifiedKey db key (s.setKeys keys)) := by
  obtain ⟨t,run,linked',-,-,tracks⟩ := signalModifiedKey_spec linked db key keys elsewhere
  exact ⟨t,run,linked',fun _ => tracks fun flagged => .inr (flagged.unflagged valid)⟩

theorem signal_delete (linked : s.Linked) (db : Fin dbnum) (key : K) :
    Runs P s (signalModifiedKey db key (s.setKeys (dbDelete db key s.keys))) := by
  obtain ⟨t,run,linked',-,-,tracks⟩ := signalModifiedKey_spec linked db key (dbDelete db key s.keys)
    (fun db' key' other => by rw [dbDelete_apply,if_neg other])
  exact ⟨t,run,linked',fun _ => tracks fun _ => .inl (by rw [dbDelete_apply,if_pos ⟨rfl,rfl⟩])⟩

theorem dbAdd_elsewhere (db : Fin dbnum) (key : K) (entry : Entry V) (keys : Keyspace K V dbnum) :
    ∀ db' key', ¬(db' = db ∧ key' = key) → dbAdd db key entry keys db' key' = keys db' key' := by
  intro db' key' other
  rw [dbAdd_apply,if_neg other]

theorem lookupKey_runs {next : Option (Entry V) × Server C K V dbnum → Option (Server C K V dbnum)} (linked : s.Linked)
    (later : ∀ t, t.Linked → keyIsExpired t db key = false → Runs P t (next (t.keys db key,t))) :
    Runs P s ((lookupKey db key s).bind next) := by
  obtain ⟨t,run,sound,valid⟩ := lookupKey_spec linked db key
  rw [run]
  exact (later t sound.linked valid).after fun _ => sound.tracks

theorem accessKey_spec (linked : s.Linked) (db : Fin dbnum) (access : Access K V dbnum) : Runs P s (accessKey db s access) := by
  refine lookupKey_runs linked fun u linked valid => ?_
  dsimp only
  split
  · exact .done linked
  · exact signal_valid linked _ (dbAdd_elsewhere db access.key _ u.keys) valid
  · split
    · exact signal_delete linked db access.key
    · exact .done linked

theorem accesses_spec (db : Fin dbnum) (accesses : List (Access K V dbnum)) : ∀ s : Server C K V dbnum, s.Linked →
    Runs P s (accesses.foldlM (accessKey db) s) := by
  induction accesses with
  | nil => exact fun s linked => .done linked
  | cons access rest ih =>
    intro s linked
    obtain ⟨u,first,linked',tracks⟩ := accessKey_spec (P := P) linked db access
    rw [foldlM_cons,first]
    exact (ih u linked').after tracks

theorem setKey_spec (linked : s.Linked) (db : Fin dbnum) (key : K) (value : V) : Runs P s (setKey db key value s) :=
  lookupKey_runs linked fun u linked valid => signal_valid linked _ (dbAdd_elsewhere db key _ u.keys) valid

theorem renameGenericCommand_spec (linked : s.Linked) (db : Fin dbnum) (src dst : K) (nx : Bool) :
    Runs P s (renameGenericCommand db src dst nx s) := by
  refine lookupKey_runs linked fun t linked _ => ?_
  dsimp only
  split
  · exact .done linked
  split
  · exact .done linked
  rename_i different
  refine lookupKey_runs linked fun u linked valid => ?_
  dsimp only
  split
  · exact .done linked
  · exact signal_moved linked db src (fun same => different same.2.symm) _ (dbDelete db dst u.keys)
      (fun d k other => by rw [dbDelete_apply,if_neg other]) valid

theorem moveCommand_spec (linked : s.Linked) (src dst : Fin dbnum) (key : K) : Runs P s (moveCommand src key dst s) := by
  unfold moveCommand
  split
  · exact .done linked
  rename_i different
  refine lookupKey_runs linked fun t linked _ => ?_
  dsimp only
  split
  · exact .done linked
  refine lookupKey_runs linked fun u linked valid => ?_
  dsimp only
  split
  · exact .done linked
  · exact signal_moved linked src key (fun same => different same.1.symm) _ u.keys (fun _ _ _ => rfl) valid

theorem copyCommand_spec (linked : s.Linked) (src dst : Fin dbnum) (key newkey : K) (replace : Bool) :
    Runs P s (copyCommand src key dst newkey replace s) := by
  unfold copyCommand
  split
  · exact .done linked
  refine lookupKey_runs linked fun t linked _ => ?_
  dsimp only
  split
  · exact .done linked
  refine lookupKey_runs linked fun u linked valid => ?_
  dsimp only
  split
  · exact .done linked
  · exact signal_valid linked _ (fun d k other => by rw [dbAdd_apply,if_neg other,dbDelete_apply,if_neg other]) valid

theorem lookupKeys_spec (db : Fin dbnum) (sources : List K) : ∀ s : Server C K V dbnum, s.Linked →
    ∃ values t, lookupKeys db sources s = some (values,t) ∧ Sound s t := by
  induction sources with
  | nil => exact fun s linked => ⟨[],s,rfl,.refl linked⟩
  | cons key rest ih =>
    intro s linked
    obtain ⟨u,run,sound,-⟩ := lookupKey_spec linked db key
    obtain ⟨values,t,run',sound'⟩ := ih u sound.linked
    refine ⟨(u.keys db key).map Entry.value :: values,t,?_,sound.trans sound'⟩
    simp only [lookupKeys,run,run',bind_eq_bind,bind_some]

theorem storeCommand_spec (linked : s.Linked) (db : Fin dbnum) (sources : List K) (dst : K)
    (result : List (Option V) → Option V) : Runs P s (storeCommand db sources dst result s) := by
  obtain ⟨values,u,run,sound⟩ := lookupKeys_spec db sources s linked
  unfold storeCommand
  simp only [run,bind_eq_bind,bind_some]
  refine Runs.after ?_ fun _ => sound.tracks
  split
  · exact setKey_spec sound.linked db dst _
  · split
    · exact signal_delete sound.linked db dst
    · exact .done sound.linked

end ValkeyWasm.Watch

import ValkeyWasm.Util.Case

/-! Database permissions: the database check of `ACLSelectorCheckCmd` (`acl.c`), the functions that find the database
arguments of a command, and the databases SELECT, SWAPDB, MOVE and COPY then use (`db.c`). -/

namespace ValkeyWasm.Acl
open List Option
open Util (Str string2ll strcasecmp foldCase)

inductive Denial where
  | cmd
  | key
  | channel
  | db
  deriving DecidableEq

/-- ACL_OK, or what was denied with the index written through `keyidxptr`. -/
inductive Verdict where
  | ok
  | denied (denial : Denial) (keyidx : Option Nat)
  deriving DecidableEq

structure Server where
  dbnum : Nat
  clusterEnabled : Bool

inductive CommandName where
  | select
  | swapdb
  | move
  | copy
  | other
  deriving DecidableEq

structure ServerCommand where
  name : CommandName
  allDbs : Bool
  categoryKeyspace : Bool
  categoryRead : Bool
  categoryWrite : Bool
  hasKeys : Bool
  deriving DecidableEq

/-- `dbs` is the set of allowed databases; `rest` is the verdict of the checks of the command, its keys and channels. -/
structure Selector where
  allDbs : Bool
  dbs : Option (List Int)
  rest : ServerCommand → List Str → Verdict

variable (srv : Server) (selector : Selector) (cmd : ServerCommand) (argv : List Str)

def Selector.canAccessDb (srv : Server) (dbid : Int) : Bool :=
  if selector.allDbs then true
  else if dbid < 0 ∨ srv.dbnum ≤ dbid then false
  else
    match selector.dbs with
    | none => false
    | some dbs => decide (dbid ∈ dbs)

def shouldRestrictCmd : Bool :=
  cmd.categoryKeyspace || cmd.categoryRead || cmd.categoryWrite || cmd.hasKeys

def replaceToken : Str := [0x72,0x65,0x70,0x6c,0x61,0x63,0x65]

def dbToken : Str := [0x64,0x62]

def readDbid (arg : Str) : Option Int :=
  (string2ll arg).filter fun dbid => decide (0 ≤ dbid ∧ dbid < srv.dbnum)

def selectDbIdArgs : List Str → Option (List Nat)
  | _ :: id :: _ => (readDbid srv id).map fun _ => [1]
  | _ => none

def swapdbDbIdArgs : List Str → Option (List Nat)
  | _ :: first :: second :: _ => (readDbid srv first).bind fun _ => (readDbid srv second).map fun _ => [1,2]
  | _ => none

def moveDbIdArgs : List Str → Option (List Nat)
  | _ :: _ :: id :: _ => (readDbid srv id).map fun _ => [2]
  | _ => none

/-- The first pass of `copyDbIdArgs`: the number of DB clauses of a well formed list of options. -/
def countDbClauses (srv : Server) : List Str → Option Nat
  | [] => some 0
  | arg :: rest =>
    if strcasecmp arg replaceToken then countDbClauses srv rest
    else if strcasecmp arg dbToken then
      match rest with
      | [] => none
      | id :: rest => (readDbid srv id).bind fun _ => (countDbClauses srv rest).map (· + 1)
    else none

def dbClauses (j : Nat) : List Str → List Nat
  | [] => []
  | arg :: rest =>
    if strcasecmp arg dbToken then
      match rest with
      | [] => [j + 1]
      | _ :: rest => (j + 1) :: dbClauses (j + 2) rest
    else dbClauses (j + 1) rest

def copyDbIdArgs : Option (List Nat) :=
  if argv.length < 5 then none
  else
    match countDbClauses srv (argv.drop 3) with
    | none => none
    | some 0 => none
    | some _ => some (dbClauses 3 (argv.drop 3))

/-- `cmd->get_dbid_args`: only four commands have one. -/
def getDbidArgs : CommandName → Option (Server → List Str → Option (List Nat))
  | .select => some selectDbIdArgs
  | .swapdb => some swapdbDbIdArgs
  | .move => some moveDbIdArgs
  | .copy => some copyDbIdArgs
  | .other => none

/-- The loop over the database arguments. The assertion that they are numbers fails as `none`. -/
def checkPositions (srv : Server) (selector : Selector) (argv : List Str) : List Nat → Option Verdict
  | [] => some .ok
  | position :: positions =>
    ((argv[position]?).bind string2ll).bind fun dbid =>
      if selector.canAccessDb srv dbid then checkPositions srv selector argv positions
      else some (.denied .db (some position))

def checkDatabases (dbid : Int) :
    Option Verdict :=
  match getDbidArgs cmd.name with
  | some args =>
    match args srv argv with
    | none => some .ok
    | some positions => checkPositions srv selector argv positions
  | none =>
    if cmd.allDbs && !selector.allDbs then
      if (List.range srv.dbnum).all fun db => selector.canAccessDb srv db then some .ok
      else some (.denied .db (some 0))
    else if shouldRestrictCmd cmd && !selector.canAccessDb srv dbid then some (.denied .db (some 0))
    else some .ok

def aclSelectorCheckCmd (dbid : Int) :
    Option Verdict :=
  (checkDatabases srv selector cmd argv dbid).map fun verdict =>
    match verdict with
    | .ok => selector.rest cmd argv
    | denied => denied

def getIntFromObject (arg : Str) : Option Int :=
  (string2ll arg).filter fun value => decide (-2^31 ≤ value ∧ value < 2^31)

def selectDb (id : Int) : Option Int := if id < 0 ∨ srv.dbnum ≤ id then none else some id

structure Access where
  db : Int
  key : Str
  deriving DecidableEq

section Commands
variable (srv : Server) (current : Int) (holds : Int → Str → Bool)

def selectCommand : List Str → Option Int
  | [_,id] => (getIntFromObject id).bind (selectDb srv)
  | _ => none

def swapdbCommand : List Str → Option (List Int)
  | [_,first,second] =>
    if srv.clusterEnabled then none
    else
      (getIntFromObject first).bind fun id1 => (getIntFromObject second).bind fun id2 =>
        if id1 < 0 ∨ srv.dbnum ≤ id1 ∨ id2 < 0 ∨ srv.dbnum ≤ id2 then none
        else if id1 = id2 then some [] else some [id1,id2]
  | _ => none

/-- The keys MOVE reads and writes, in order; `none` is an error reply before any of them is looked up. -/
def moveCommand : List Str → Option (List Access)
  | [_,key,id] =>
    (getIntFromObject id).bind fun dbid => (selectDb srv dbid).bind fun dst =>
      if current = dst then none
      else if !holds current key then some [⟨current,key⟩]
      else if holds dst key then some [⟨current,key⟩,⟨dst,key⟩]
      else some [⟨current,key⟩,⟨dst,key⟩,⟨current,key⟩,⟨dst,key⟩]
  | _ => none

def copyOptions (dst : Int) (replace : Bool) : List Str → Option (Int × Bool)
  | [] => some (dst,replace)
  | arg :: rest =>
    if strcasecmp arg replaceToken then copyOptions dst true rest
    else if strcasecmp arg dbToken then
      match rest with
      | [] => none
      | id :: rest => (getIntFromObject id).bind fun dbid => (selectDb srv dbid).bind fun dst => copyOptions dst replace rest
    else none

def copyCommand : List Str → Option (List Access)
  | _ :: key :: newkey :: options =>
    (copyOptions srv current false options).bind fun (dst,replace) =>
      if current = dst ∧ key = newkey then none
      else if !holds current key then some [⟨current,key⟩]
      else if holds dst newkey && !replace then some [⟨current,key⟩,⟨dst,newkey⟩]
      else some [⟨current,key⟩,⟨dst,newkey⟩,⟨dst,newkey⟩]
  | _ => none

/-- The databases an accepted command selects, or reads or writes keys of. Of the other commands, those that work with
all databases use all of them and those with keys use the current one. -/
def databasesUsed (cmd : ServerCommand) (argv : List Str) : Option (List Int) :=
  match cmd.name with
  | .select => (selectCommand srv argv).map fun id => [id]
  | .swapdb => swapdbCommand srv argv
  | .move => (moveCommand srv current holds argv).map (·.map Access.db)
  | .copy => (copyCommand srv current holds argv).map (·.map Access.db)
  | .other =>
    some (if cmd.allDbs then (List.range srv.dbnum).map Int.ofNat else if cmd.hasKeys then [current] else [])

end Commands

/-! ### What the check knows of the arguments -/

section
variable {srv : Server} {selector : Selector} {current : Int} {holds : Int → Str → Bool}

theorem readDbid_eq {arg : Str} {id dst : Int} (read : getIntFromObject arg = some id) (selected : selectDb srv id = some dst) :
    dst = id ∧ readDbid srv arg = some id ∧ string2ll arg = some id := by
  unfold selectDb at selected
  split at selected
  · cases selected
  cases selected
  obtain ⟨number,_⟩ := filter_eq_some_iff.mp read
  rw [readDbid,number]
  have range : 0 ≤ id ∧ id < srv.dbnum := by omega
  simp [range]

variable {argv : List Str}

theorem canAccessDb_of_checkPositions {positions : List Nat}
    (passed : checkPositions srv selector argv positions = some .ok) :
    ∀ position ∈ positions, ∀ arg id, argv[position]? = some arg → string2ll arg = some id →
      selector.canAccessDb srv id = true := by
  induction positions with
  | nil => exact nofun
  | cons first rest ih =>
    obtain ⟨dbid,read,step⟩ := bind_eq_some_iff.mp passed
    split at step
    · rename_i allowed
      intro position member arg id at_position number
      rcases mem_cons.mp member with rfl | later
      · rw [at_position,bind_some,number] at read
        cases read
        exact allowed
      · exact ih step position later arg id at_position number
    · cases step

theorem not_db_of_replace {arg : Str} (replace : strcasecmp arg replaceToken = true) : strcasecmp arg dbToken = false := by
  have first : foldCase arg = foldCase replaceToken := by simpa [strcasecmp] using replace
  rw [strcasecmp,first]
  decide

/-- An accepted list of options passes the first pass. Without a DB clause the destination stays; otherwise the last
clause holds it, at a position the second pass lists. -/
theorem dbClauses_of_copyOptions (options : List Str) (before : List Str) {dst final : Int} {replace replaced : Bool}
    (accepted : copyOptions srv dst replace options = some (final,replaced)) :
    ∃ n, countDbClauses srv options = some n ∧ (n = 0 → final = dst) ∧
      (n ≠ 0 → ∃ position ∈ dbClauses before.length options, ∃ arg, (before ++ options)[position]? = some arg ∧
        string2ll arg = some final) := by
  fun_induction copyOptions srv dst replace options generalizing before with
  | case1 dst replace =>
    cases accepted
    exact ⟨0,rfl,fun _ => rfl,fun nonzero => absurd rfl nonzero⟩
  | case2 dst replace arg rest is_replace ih =>
    obtain ⟨n,count,stays,placed⟩ := ih (before ++ [arg]) accepted
    refine ⟨n,?_,stays,?_⟩
    · rw [countDbClauses.eq_def]
      simpa [is_replace] using count
    intro nonzero
    obtain ⟨position,member,value⟩ := placed nonzero
    refine ⟨position,?_,by simpa using value⟩
    rw [dbClauses.eq_def]
    simpa [not_db_of_replace is_replace] using member
  | case3 => cases accepted
  | case4 dst replace arg not_replace is_db id rest ih =>
    obtain ⟨dbid,read,selected⟩ := bind_eq_some_iff.mp accepted
    obtain ⟨next,selected,parsed⟩ := bind_eq_some_iff.mp selected
    obtain ⟨same,found,number⟩ := readDbid_eq read selected
    obtain ⟨n,count,stays,placed⟩ := ih next (before ++ [arg,id]) parsed
    refine ⟨n + 1,?_,fun zero => absurd zero (Nat.succ_ne_zero n),fun _ => ?_⟩
    · rw [countDbClauses,if_neg not_replace,if_pos is_db,found,count]
      rfl
    rw [dbClauses,if_pos is_db]
    by_cases last : n = 0
    · refine ⟨before.length + 1,mem_cons_self,id,?_,?_⟩
      · simp
      · rw [stays last,same]
        exact number
    · obtain ⟨position,member,value⟩ := placed last
      refine ⟨position,mem_cons_of_mem _ ?_,by simpa using value⟩
      simpa using member
  | case5 => cases accepted

variable {cmd : ServerCommand}

theorem checkDatabases_of_ok
    (passed : aclSelectorCheckCmd srv selector cmd argv current = some .ok) :
    checkDatabases srv selector cmd argv current = some .ok := by
  obtain ⟨verdict,checked,result⟩ := map_eq_some_iff.mp passed
  cases verdict with
  | ok => exact checked
  | denied denial keyidx => cases result

theorem canAccessDb_select {id : Int} (name : cmd.name = .select)
    (passed : checkDatabases srv selector cmd argv current = some .ok) (selected : selectCommand srv argv = some id) :
    selector.canAccessDb srv id = true := by
  unfold selectCommand at selected
  split at selected
  · rename_i token arg
    obtain ⟨dbid,read,selected⟩ := bind_eq_some_iff.mp selected
    obtain ⟨rfl,found,number⟩ := readDbid_eq read selected
    simp only [checkDatabases,name,getDbidArgs,selectDbIdArgs,found] at passed
    exact canAccessDb_of_checkPositions passed 1 mem_cons_self arg _ rfl number
  · cases selected

theorem canAccessDb_swapdb {dbs : List Int} (name : cmd.name = .swapdb)
    (passed : checkDatabases srv selector cmd argv current = some .ok) (swapped : swapdbCommand srv argv = some dbs) :
    ∀ db ∈ dbs, selector.canAccessDb srv db = true := by
  unfold swapdbCommand at swapped
  split at swapped
  · rename_i token first second
    split at swapped
    · cases swapped
    obtain ⟨id1,read1,swapped⟩ := bind_eq_some_iff.mp swapped
    obtain ⟨id2,read2,swapped⟩ := bind_eq_some_iff.mp swapped
    split at swapped
    · cases swapped
    have selected1 : selectDb srv id1 = some id1 := if_neg (by omega)
    have selected2 : selectDb srv id2 = some id2 := if_neg (by omega)
    obtain ⟨_,found1,number1⟩ := readDbid_eq read1 selected1
    obtain ⟨_,found2,number2⟩ := readDbid_eq read2 selected2
    simp only [checkDatabases,name,getDbidArgs,swapdbDbIdArgs,found1,found2] at passed
    have access1 := canAccessDb_of_checkPositions passed 1 (by simp) first id1 rfl number1
    have access2 := canAccessDb_of_checkPositions passed 2 (by simp) second id2 rfl number2
    split at swapped
    · cases swapped
      exact nofun
    cases swapped
    intro db member
    rcases mem_cons.mp member with rfl | member
    · exact access1
    · rw [mem_singleton.mp member]
      exact access2
  · cases swapped

theorem canAccessDb_move (selector : Selector) {accesses : List Access} (name : cmd.name = .move)
    (moved : moveCommand srv current holds argv = some accesses) :
    current ∈ accesses.map Access.db ∧ (checkDatabases srv selector cmd argv current = some .ok →
      ∀ db ∈ accesses.map Access.db, db = current ∨ selector.canAccessDb srv db = true) := by
  unfold moveCommand at moved
  split at moved
  · rename_i token key arg
    obtain ⟨dbid,read,selected⟩ := bind_eq_some_iff.mp moved
    obtain ⟨dst,selected,result⟩ := bind_eq_some_iff.mp selected
    obtain ⟨rfl,found,number⟩ := readDbid_eq read selected
    have checked : checkDatabases srv selector cmd [token,key,arg] current = some .ok →
        selector.canAccessDb srv dst = true := by
      intro passed
      simp only [checkDatabases,name,getDbidArgs,moveDbIdArgs,found] at passed
      exact canAccessDb_of_checkPositions passed 2 mem_cons_self arg _ rfl number
    split at result
    · cases result
    split at result
    · cases result
      simp
    split at result
    · cases result
      exact ⟨by simp,fun passed => by simp [checked passed]⟩
    · cases result
      exact ⟨by simp,fun passed => by simp [checked passed]⟩
  · cases moved

theorem canAccessDb_copyOptions {token key newkey : Str} {options : List Str} {dst : Int}
    {replace : Bool} (name : cmd.name = .copy) (parsed : copyOptions srv current false options = some (dst,replace))
    (passed : checkDatabases srv selector cmd (token :: key :: newkey :: options) current = some .ok) :
    dst = current ∨ selector.canAccessDb srv dst = true := by
  obtain ⟨n,count,stays,placed⟩ := dbClauses_of_copyOptions options [token,key,newkey] parsed
  by_cases clauses : n = 0
  · exact .inl (stays clauses)
  right
  obtain ⟨position,member,arg,at_position,number⟩ := placed clauses
  -- a DB clause takes two arguments, so the extractor does not stop at the length of the vector
  have long : ¬(token :: key :: newkey :: options).length < 5 := by
    match options with
    | [] => simp [dbClauses] at member
    | [only] =>
      unfold countDbClauses at count
      split at count
      · simp only [countDbClauses,some.injEq] at count
        exact absurd count.symm clauses
      · split at count
        · cases count
        · cases count
    | _ :: _ :: _ => simp
  have args : copyDbIdArgs srv (token :: key :: newkey :: options) = some (dbClauses 3 options) := by
    obtain ⟨m,rfl⟩ := Nat.exists_eq_succ_of_ne_zero clauses
    rw [copyDbIdArgs,if_neg long,drop_succ_cons,drop_succ_cons,drop_succ_cons,drop_zero,count]
    rfl
  simp only [checkDatabases,name,getDbidArgs,args] at passed
  exact canAccessDb_of_checkPositions passed position member arg dst at_position number

theorem canAccessDb_copy (selector : Selector) {accesses : List Access} (name : cmd.name = .copy)
    (copied : copyCommand srv current holds argv = some accesses) :
    current ∈ accesses.map Access.db ∧ (checkDatabases srv selector cmd argv current = some .ok →
      ∀ db ∈ accesses.map Access.db, db = current ∨ selector.canAccessDb srv db = true) := by
  unfold copyCommand at copied
  split at copied
  · rename_i token key newkey options
    obtain ⟨⟨dst,replace⟩,parsed,copied⟩ := bind_eq_some_iff.mp copied
    have checked : checkDatabases srv selector cmd (token :: key :: newkey :: options) current = some .ok →
        dst = current ∨ selector.canAccessDb srv dst = true := canAccessDb_copyOptions name parsed
    dsimp only at copied
    split at copied
    · cases copied
    split at copied
    · cases copied
      simp
    split at copied
    · cases copied
      exact ⟨by simp,fun passed => by simpa using checked passed⟩
    · cases copied
      exact ⟨by simp,fun passed => by simpa using checked passed⟩
  · cases copied

theorem canAccessDb_other (name : cmd.name = .other)
    (passed : checkDatabases srv selector cmd argv current = some .ok) :
    ∀ db ∈ (if cmd.allDbs then (List.range srv.dbnum).map Int.ofNat else if cmd.hasKeys then [current] else []),
      selector.canAccessDb srv db = true := by
  intro db member
  by_cases all : selector.allDbs
  · simp [Selector.canAccessDb,all]
  simp only [checkDatabases,name,getDbidArgs,all,Bool.not_false,Bool.and_true] at passed
  split at member
  · rename_i every
    rw [if_pos every] at passed
    split at passed
    · rename_i allowed
      obtain ⟨index,inside,rfl⟩ := mem_map.mp member
      exact all_eq_true.mp allowed index inside
    · cases passed
  · rename_i one
    rw [if_neg one] at passed
    split at member
    · rename_i keys
      rw [mem_singleton.mp member]
      by_contra denied
      simp [shouldRestrictCmd,keys,denied] at passed
    · cases member

/-- A command that passes the check uses permitted databases only, except that MOVE and COPY are checked for the
databases in their arguments and not for the database the client is in. -/
theorem database_permissions_enforced_iff (srv : Server) (selector : Selector) (current : Int) (holds : Int → Str → Bool)
    (cmd : ServerCommand) (argv : List Str) :
    (∀ dbs, databasesUsed srv current holds cmd argv = some dbs →
      aclSelectorCheckCmd srv selector cmd argv current = some .ok →
        ∀ db ∈ dbs, selector.canAccessDb srv db = true) ↔
    (∀ dbs, databasesUsed srv current holds cmd argv = some dbs → cmd.name = .move ∨ cmd.name = .copy →
      aclSelectorCheckCmd srv selector cmd argv current = some .ok → selector.canAccessDb srv current = true) := by
  constructor
  · intro enforced dbs used moves passed
    apply enforced dbs used passed current
    rcases moves with name | name
    · simp only [databasesUsed,name] at used
      obtain ⟨accesses,moved,rfl⟩ := map_eq_some_iff.mp used
      exact (canAccessDb_move selector name moved).1
    · simp only [databasesUsed,name] at used
      obtain ⟨accesses,copied,rfl⟩ := map_eq_some_iff.mp used
      exact (canAccessDb_copy selector name copied).1
  · intro here dbs used passed db member
    have checked := checkDatabases_of_ok passed
    have at_current : cmd.name = .move ∨ cmd.name = .copy → db = current ∨ selector.canAccessDb srv db = true →
        selector.canAccessDb srv db = true := by
      rintro moves (rfl | allowed)
      · exact here dbs used moves passed
      · exact allowed
    cases name : cmd.name with
    | select =>
      simp only [databasesUsed,name] at used
      obtain ⟨id,selected,rfl⟩ := map_eq_some_iff.mp used
      rw [mem_singleton.mp member]
      exact canAccessDb_select name checked selected
    | swapdb =>
      simp only [databasesUsed,name] at used
      exact canAccessDb_swapdb name checked used db member
    | move =>
      apply at_current (.inl name)
      simp only [databasesUsed,name] at used
      obtain ⟨accesses,moved,rfl⟩ := map_eq_some_iff.mp used
      exact (canAccessDb_move selector name moved).2 checked db member
    | copy =>
      apply at_current (.inr name)
      simp only [databasesUsed,name] at used
      obtain ⟨accesses,copied,rfl⟩ := map_eq_some_iff.mp used
      exact (canAccessDb_copy selector name copied).2 checked db member
    | other =>
      simp only [databasesUsed,name,some.injEq] at used
      subst used
      exact canAccessDb_other name checked db member

end

/-- COPY a b of a client in database 0 whose selector allows database 1 only: no database argument is found, so none is
checked, and key a of database 0 is read. -/
theorem copy_in_forbidden_database :
    let srv : Server := ⟨16,false⟩
    let selector : Selector := ⟨false,some [1],fun _ _ => .ok⟩
    let copy : ServerCommand := ⟨.copy,false,true,false,true,true⟩
    let argv : List Str := [[0x63,0x6f,0x70,0x79],[0x61],[0x62]]
    aclSelectorCheckCmd srv selector copy argv 0 = some .ok ∧
      copyCommand srv 0 (fun _ key => key = [0x61]) argv = some [⟨0,[0x61]⟩,⟨0,[0x62]⟩,⟨0,[0x62]⟩] ∧
      selector.canAccessDb srv 0 = false := by
  decide

end ValkeyWasm.Acl

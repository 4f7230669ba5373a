import Mathlib.Data.List.AList
import ValkeyWasm.Util.Case

/-! The registry of function libraries (`functions.c`). Libraries are indexed by their exact name, and so are the
functions inside one library; the functions of all libraries are indexed by name without regard to case. The scripting
engine is a black box: library code comes with what it compiles to. Functions answer `none` where an assertion of the
source fails or a null pointer is followed. -/

namespace ValkeyWasm.Functions
open Util (Str foldCase)

structure CompiledFunction where
  name : Str
  overhead : Nat
  deriving DecidableEq

/-- A function of a library; `library` is the name of the library `fi->li` points to. -/
structure FunctionInfo where
  compiled : CompiledFunction
  library : Str
  deriving DecidableEq

structure LibInfo (E : Type) where
  name : Str
  engine : E
  code : Str
  functions : AList fun _ : Str => FunctionInfo
  named : ∀ entry ∈ functions.entries, entry.2.compiled.name = entry.1 ∧ entry.2.library = name

def LibInfo.infos {E : Type} (li : LibInfo E) : List FunctionInfo := li.functions.entries.map Sigma.snd

def FunctionInfo.key (fi : FunctionInfo) : Str := foldCase fi.compiled.name

structure EngineStats where
  nLib : Int
  nFunctions : Int

/-- `functionsLibCtx`. The keys of `functions` are names with their case folded. -/
structure LibCtx (E : Type) where
  libraries : AList fun _ : Str => LibInfo E
  functions : AList fun _ : Str => FunctionInfo
  cacheMemory : Int
  enginesStats : AList fun _ : E => EngineStats

inductive Error where
  | metadata
  | libraryName
  | engineNotFound
  | libraryExists (library : Str)
  | compile (message : Str)
  | functionName
  | functionInLibrary
  | noFunctions
  | functionExists (function : Str)
  | libraryNotFound
  | payload

/-- Library code by what is read from it: the name and engine of its metadata line, if that is well formed, and what
the engine makes of it. -/
structure LibraryCode (E : Type) where
  code : Str
  metadata : Option (Str × E)
  compiled : Except Str (List CompiledFunction)

section
variable {E : Type} [DecidableEq E]

/-- What the allocator and the engines answer: the sizes of a function and of a library, and the registered engines. -/
structure Engines (E : Type) where
  functionMallocSize : FunctionInfo → Nat
  libraryMallocSize : Str → Str → Nat
  registered : List E

variable (engines : Engines E) (name : Str) (current : LibCtx E) (ctx : LibCtx E)

def functionsLibCtxCreate : LibCtx E :=
  { libraries := ∅, functions := ∅, cacheMemory := 0,
    enginesStats := engines.registered.foldl (fun stats engine =>
      if (stats.lookup engine).isSome then stats else stats.insert engine ⟨0,0⟩) ∅ }

def functionsAddEngineStats (engine : E) : LibCtx E :=
  if (ctx.enginesStats.lookup engine).isSome then ctx
  else { ctx with enginesStats := ctx.enginesStats.insert engine ⟨0,0⟩ }

def isNameChar (c : BitVec 8) : Bool :=
  decide (97 ≤ c.toNat ∧ c.toNat ≤ 122 ∨ 65 ≤ c.toNat ∧ c.toNat ≤ 90 ∨ 48 ≤ c.toNat ∧ c.toNat ≤ 57 ∨ c.toNat = 95)

def functionsVerifyName : Bool := !name.isEmpty && name.all isNameChar

def engineLibraryCreate (engine : E) (code : Str) : LibInfo E :=
  { name := name, engine := engine, code := code, functions := ∅, named := fun _ member => absurd member List.not_mem_nil }

def functionLibCreateFunction (function : CompiledFunction) (li : LibInfo E) : Except Error (LibInfo E) :=
  if functionsVerifyName function.name = false then .error .functionName
  else if (li.functions.lookup function.name).isSome then .error .functionInLibrary
  else .ok { li with
    functions := li.functions.insert function.name ⟨function,li.name⟩
    named := by
      intro entry member
      rw [AList.entries_insert,List.mem_cons] at member
      rcases member with rfl | old
      · exact ⟨rfl,rfl⟩
      · exact li.named entry (List.Sublist.subset (List.kerase_sublist _ _) old) }

def unlinkFunctions (engines : Engines E) : List FunctionInfo → LibCtx E → Option (LibCtx E)
  | [], ctx => some ctx
  | fi :: infos, ctx =>
    if (ctx.functions.lookup fi.key).isNone then none
    else unlinkFunctions engines infos { ctx with
      functions := ctx.functions.erase fi.key
      cacheMemory := ctx.cacheMemory - engines.functionMallocSize fi }

def linkFunctions (engines : Engines E) : List FunctionInfo → LibCtx E → LibCtx E
  | [], ctx => ctx
  | fi :: infos, ctx =>
    linkFunctions engines infos { ctx with
      functions := if (ctx.functions.lookup fi.key).isSome then ctx.functions else ctx.functions.insert fi.key fi
      cacheMemory := ctx.cacheMemory + engines.functionMallocSize fi }

def libraryUnlink (li : LibInfo E) : Option (LibCtx E) :=
  (unlinkFunctions engines li.infos ctx).bind fun ctx =>
    if (ctx.libraries.lookup li.name).isNone then none
    else
      (ctx.enginesStats.lookup li.engine).map fun stats =>
        { ctx with
          libraries := ctx.libraries.erase li.name
          cacheMemory := ctx.cacheMemory - engines.libraryMallocSize li.name li.code
          enginesStats := ctx.enginesStats.insert li.engine
            ⟨stats.nLib - 1,stats.nFunctions - li.infos.length⟩ }

def libraryLink (li : LibInfo E) : Option (LibCtx E) :=
  let ctx := linkFunctions engines li.infos ctx
  (ctx.enginesStats.lookup li.engine).map fun stats =>
    { ctx with
      libraries := if (ctx.libraries.lookup li.name).isSome then ctx.libraries else ctx.libraries.insert li.name li
      cacheMemory := ctx.cacheMemory + engines.libraryMallocSize li.name li.code
      enginesStats := ctx.enginesStats.insert li.engine
        ⟨stats.nLib + 1,stats.nFunctions + li.infos.length⟩ }

def linkAll (libraries : List (LibInfo E)) : Option (LibCtx E) :=
  libraries.foldlM (libraryLink engines) ctx

/-- The first loop of `libraryJoin`: the libraries to replace are unlinked and put aside. -/
def unlinkReplaced (engines : Engines E) (replace : Bool) :
    List (LibInfo E) → LibCtx E → List (LibInfo E) → Option (LibCtx E × List (LibInfo E) × Option Error)
  | [], dst, old => some (dst,old,none)
  | li :: libraries, dst, old =>
    match dst.libraries.lookup li.name with
    | none => unlinkReplaced engines replace libraries dst old
    | some oldLi =>
      if replace = false then some (dst,old,some (.libraryExists li.name))
      else (libraryUnlink engines dst oldLi).bind fun dst => unlinkReplaced engines replace libraries dst (old ++ [oldLi])

def collision (infos : List FunctionInfo) : Option Str :=
  (infos.find? fun fi => (ctx.functions.lookup fi.key).isSome).map fun fi => fi.compiled.name

/-- The result is the destination; on failure the libraries put aside are linked back. -/
def libraryJoin (dst src : LibCtx E) (replace : Bool) : Option (LibCtx E × Option Error) :=
  (unlinkReplaced engines replace (src.libraries.entries.map Sigma.snd) dst []).bind fun (dst,old,error) =>
    match error with
    | some error => (linkAll engines dst old).map fun dst => (dst,some error)
    | none =>
      match collision dst (src.functions.entries.map Sigma.snd) with
      | some function => (linkAll engines dst old).map fun dst => (dst,some (.functionExists function))
      | none => (linkAll engines dst (src.libraries.entries.map Sigma.snd)).map fun dst => (dst,none)

def readLibrary (code : LibraryCode E) : Except Error (Str × E) :=
  match code.metadata with
  | none => .error .metadata
  | some (name,engine) =>
    if functionsVerifyName name = false then .error .libraryName
    else if engine ∈ engines.registered then .ok (name,engine) else .error .engineNotFound

def buildLibrary (engine : E) (code : LibraryCode E) : Except Error (LibInfo E) :=
  match code.compiled with
  | .error message => .error (.compile message)
  | .ok functions =>
    (functions.foldlM (fun li function => functionLibCreateFunction function li)
      (engineLibraryCreate name engine code.code)).bind fun li =>
        if li.infos.isEmpty then .error .noFunctions else .ok li

def createLibrary (engine : E) (code : LibraryCode E) (replace : Bool) (ctx : LibCtx E) :
    Option (LibCtx E × Option Error) :=
  match ctx.libraries.lookup name with
  | none =>
    match buildLibrary name engine code with
    | .error error => some (ctx,some error)
    | .ok li =>
      match collision ctx li.infos with
      | some function => some (ctx,some (.functionExists function))
      | none => (libraryLink engines ctx li).map fun ctx => (ctx,none)
  | some oldLi =>
    if replace = false then some (ctx,some (.libraryExists name))
    else
      (libraryUnlink engines ctx oldLi).bind fun ctx =>
        match buildLibrary name engine code with
        | .error error => (libraryLink engines ctx oldLi).map fun ctx => (ctx,some error)
        | .ok li =>
          match collision ctx li.infos with
          | some function => (libraryLink engines ctx oldLi).map fun ctx => (ctx,some (.functionExists function))
          | none => (libraryLink engines ctx li).map fun ctx => (ctx,none)

def functionLoadCommand (code : LibraryCode E) (replace : Bool) :
    Option (LibCtx E × Option Error) :=
  match readLibrary engines code with
  | .error error => some (current,some error)
  | .ok (name,engine) => createLibrary engines name engine code replace (functionsAddEngineStats current engine)

def functionDeleteCommand (library : Str) : Option (LibCtx E × Option Error) :=
  match current.libraries.lookup library with
  | none => some (current,some .libraryNotFound)
  | some li => (libraryUnlink engines current li).map fun ctx => (ctx,none)

inductive RestorePolicy where
  | append
  | replace
  | flush

/-- The loop over the libraries of a payload, each into the new context; `none` in the payload is an entry that cannot
be read. The statistics of an engine are looked up in the current context. -/
def loadPayload (engines : Engines E) :
    List (Option (LibraryCode E)) → LibCtx E → LibCtx E → Option (LibCtx E × LibCtx E × Option Error)
  | [], current, loading => some (current,loading,none)
  | none :: _, current, loading => some (current,loading,some .payload)
  | some code :: rest, current, loading =>
    match readLibrary engines code with
    | .error error => some (current,loading,some error)
    | .ok (name,engine) =>
      let current := functionsAddEngineStats current engine
      (createLibrary engines name engine code false loading).bind fun (loading,error) =>
        match error with
        | some error => some (current,loading,some error)
        | none => loadPayload engines rest current loading

/-- `payload` is `none` if its version or checksum is wrong. -/
def functionRestoreCommand (payload : Option (List (Option (LibraryCode E))))
    (policy : RestorePolicy) : Option (LibCtx E × Option Error) :=
  match payload with
  | none => some (current,some .payload)
  | some entries =>
    (loadPayload engines entries current (functionsLibCtxCreate engines)).bind fun (current,loading,error) =>
      match error, policy with
      | some error, _ => some (current,some error)
      | none, .flush => some (loading,none)
      | none, .append => libraryJoin engines current loading false
      | none, .replace => libraryJoin engines current loading true

inductive Command (E : Type) where
  | load (code : LibraryCode E) (replace : Bool)
  | delete (library : Str)
  | flush
  | restore (payload : Option (List (Option (LibraryCode E)))) (policy : RestorePolicy)

def perform : Command E → Option (LibCtx E × Option Error)
  | .load code replace => functionLoadCommand engines current code replace
  | .delete library => functionDeleteCommand engines current library
  | .flush => some (functionsLibCtxCreate engines,none)
  | .restore payload policy => functionRestoreCommand engines current payload policy

def run (engines : Engines E) (current : LibCtx E) : List (Command E) → Option (LibCtx E)
  | [] => some current
  | command :: commands => (perform engines current command).bind fun (current,_) => run engines current commands

end

end ValkeyWasm.Functions

import NodeJS.Lib.Reach
import NodeJS.Modules.Lookup

/-! `module.js`: `Module._load`. The body of a module may call `require` before it returns, so a
state has the modules whose `load` is running. -/
namespace NodeJS.Modules
open NodeJS.Path NodeJS.Fs

/-- A `Module`. `exports` is `none` as long as it is the object that the constructor made. -/
structure Mod (V : Type*) where
  filename : JSString
  paths : List JSString
  exports : Option V
  loaded : Bool

/-- What the last `require` has done. -/
inductive Answer (V : Type*)
  | none
  /-- It returned what `NativeModule.require` does. -/
  | native
  | returned (exports : Option V)
  | threw (e : Thrown)

def cannotFind (request : JSString) : Thrown :=
  .error (js "Cannot find module '" ++ request ++ js "'")

/-- The modules in the order in which they were made, `Module._cache`, the other caches,
`Object.keys(Module._extensions)` and `Module._paths`. On `stack` are the modules whose `load` has
not returned, the last one first. -/
structure Loader (V : Type*) where
  modules : ℕ → Mod V
  count : ℕ
  cache : JSString → Option ℕ
  caches : Caches
  exts : List JSString
  paths : List JSString
  stack : List ℕ
  answer : Answer V

section
variable {V : Type*} (D : System)

def Loader.new (exts paths : List JSString) : Loader V where
  modules := fun _ => ⟨[], [], none, false⟩
  count := 0
  cache := fun _ => none
  caches := ⟨fun _ => none, fun _ _ => none⟩
  exts := exts
  paths := paths
  stack := []
  answer := .none

namespace Loader
variable (s : Loader V)

/-- `_resolveLookupPaths`, unless `path.dirname` throws. -/
def resolveLookupPaths (request : JSString) (parent : Option (Mod V)) : Option (List JSString) :=
  if D.native request then some []
  else if request.take 2 ≠ js "./" ∧ request.take 2 ≠ js ".." then
    some (parent.elim [] (·.paths) ++ s.paths)
  else match parent with
    | none => some (nodeModulePaths D (js ".") ++ js "." :: s.paths)
    | some parent => (dirname parent.filename).map ([·])

def resolveFilename (fuel : ℕ) (request : JSString) (parent : Option (Mod V)) : Look JSString :=
  if D.native request then pure request
  else match s.resolveLookupPaths D request parent with
    | none => throw .dirname
    | some paths => do
      match ← findPath D fuel s.exts request paths with
      | some filename => pure filename
      | none => throw (cannotFind request)

/-- A module is made and its `load` is called, unless `path.dirname` throws. -/
def load (filename : JSString) : Loader V :=
  match dirname filename with
  | none => { s with answer := .threw .dirname }
  | some dir => { s with
    modules := Function.update s.modules s.count ⟨filename, nodeModulePaths D dir, none, false⟩
    count := s.count + 1
    cache := Function.update s.cache filename (some s.count)
    stack := s.count :: s.stack }

/-- `Module._load`, up to the body of a module that is loaded. -/
def require (fuel : ℕ) (request : JSString) (parent : Option ℕ) : Option (Loader V) :=
  match s.resolveFilename D fuel request (parent.map s.modules) s.caches with
  | none => none
  | some (.error e, caches) => some { s with caches := caches, answer := .threw e }
  | some (.ok filename, caches) =>
    let s := { s with caches := caches }
    match s.cache filename with
    | some i => some { s with answer := .returned (s.modules i).exports }
    | none =>
      if D.native filename then some { s with answer := .native } else some (s.load D filename)

def ret : Option (Loader V) :=
  match s.stack with
  | [] => none
  | i :: rest => some { s with
    modules := Function.update s.modules i { s.modules i with loaded := true }
    stack := rest
    answer := .returned (s.modules i).exports }

def throws : Option (Loader V) :=
  match s.stack with
  | [] => none
  | i :: rest => some { s with
    cache := Function.update s.cache (s.modules i).filename none
    stack := rest
    answer := .threw .body }

end Loader

/-- What the program does: in the body of the module whose `load` is called last, or outside of all
of them. `require` has the module that it was made for, if there is one. -/
inductive Action (V : Type*)
  | require (fuel : ℕ) (request : JSString) (parent : Option ℕ)
  /-- `module.exports = v` -/
  | exports (i : ℕ) (v : V)
  /-- `module.paths = paths` -/
  | modulePaths (i : ℕ) (paths : List JSString)
  /-- The extensions or `Module._paths` are changed. -/
  | lookup (exts paths : List JSString)
  | work
  | ret
  | throws

def step (s : Loader V) : Action V → Option (Loader V)
  | .require fuel request parent =>
    if ∀ i ∈ parent, i < s.count then s.require D fuel request parent else none
  | .exports i v =>
    if i < s.count then
      some { s with modules := Function.update s.modules i { s.modules i with exports := some v } }
    else none
  | .modulePaths i paths =>
    if i < s.count then
      some { s with modules := Function.update s.modules i { s.modules i with paths := paths } }
    else none
  | .lookup exts paths => some { s with exts := exts, paths := paths }
  | .work => some s
  | .ret => s.ret
  | .throws => s.throws

end

end NodeJS.Modules

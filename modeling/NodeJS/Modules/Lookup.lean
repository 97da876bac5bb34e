import NodeJS.Fs.Realpath

/-! `module.js`: how `require` finds the file of a module. -/
namespace NodeJS.Modules
open NodeJS.Path NodeJS.Fs

/-- `pkg.main`, when it is not falsy. -/
inductive Main
  | name (main : JSString)
  | other

structure System where
  files : Files
  /-- `isDirectory()` of what `statSync` returns, unless it throws. -/
  isDirectory : JSString → Option Bool
  /-- `main` of the package that is read from a file, unless there is none. -/
  main : JSString → Option Main
  cwd : Cwd
  /-- `NativeModule.exists` -/
  native : JSString → Bool

structure Caches where
  realpath : Cache
  path : JSString → List JSString → Option JSString

/-- `Module._pathCache[cacheKey] = filename` -/
def Caches.remember (caches : Caches) (request : JSString) (paths : List JSString)
    (filename : JSString) : Caches :=
  { caches with
    path := fun request' paths' =>
      if request' = request ∧ paths' = paths then some filename else caches.path request' paths' }

/-- What is thrown: by `path.dirname`, where `splitPathRe` does not match; by `realpathSync`; by
`_resolveFilename`, with a message; by the body of a module. -/
inductive Thrown
  | dirname
  | realpath
  | error (message : JSString)
  | body

/-- A computation that may throw. It is `none` when the loop of `realpathSync` is not done yet. -/
abbrev Look := ExceptT Thrown (StateT Caches Option)

/-- `||` -/
def Look.or (x y : Look (Option JSString)) : Look (Option JSString) := do
  match ← x with
  | some filename => pure (some filename)
  | none => y

section
variable (D : System) (fuel : ℕ) (exts : List JSString)

def System.resolve (paths : List JSString) : JSString := Path.resolve D.cwd.path paths

/-- `fs.realpathSync(p, Module._realpathCache)`, in so many rounds. -/
def realpathSync (p : JSString) : Look JSString := fun caches =>
  (Lib.loop (realpathSyncRound D.files D.cwd.path (D.resolve [p])) fuel
    ((begin D.cwd.path p (some caches.realpath)).map (·, []) id)).map fun (r, realpath) =>
      (r.elim (.error .realpath) .ok, { caches with realpath := realpath.getD caches.realpath })

/-- There is a file that is no directory. -/
def System.isFile (p : JSString) : Bool := D.isDirectory p = some false

def tryFile (requestPath : JSString) : Look (Option JSString) :=
  if D.isFile requestPath then some <$> realpathSync D fuel requestPath else pure none

def tryExtensions (p : JSString) : List JSString → Look (Option JSString)
  | [] => pure none
  | ext :: exts => (tryFile D fuel (p ++ ext)).or (tryExtensions p exts)

/-- `path.resolve(requestPath, pkg.main)`, which skips what is no string. -/
def System.resolveMain (requestPath : JSString) : Main → JSString
  | .name main => D.resolve [requestPath, main]
  | .other => D.resolve [requestPath]

def tryPackage (requestPath : JSString) : Look (Option JSString) :=
  match D.main (D.resolve [requestPath, js "package.json"]) with
  | none => pure none
  | some main =>
    let filename := D.resolveMain requestPath main
    ((tryFile D fuel filename).or (tryExtensions D fuel filename exts)).or
      (tryExtensions D fuel (D.resolve [filename, js "index"]) exts)

/-- The loop of `_findPath`. -/
def findIn (request : JSString) : List JSString → Look (Option JSString)
  | [] => pure none
  | path :: paths =>
    let basePath := D.resolve [path, request]
    let file : Look (Option JSString) :=
      if request.getLast? = some slash then pure none
      else (tryFile D fuel basePath).or (tryExtensions D fuel basePath exts)
    ((file.or (tryPackage D fuel exts basePath)).or
      (tryExtensions D fuel (D.resolve [basePath, js "index"]) exts)).or (findIn request paths)

def searched (request : JSString) (paths : List JSString) : List JSString :=
  if request.head? = some slash then [[]] else paths

def findPath (request : JSString) (paths : List JSString) : Look (Option JSString) := do
  let caches ← get
  match caches.path request (searched request paths) with
  | some filename => pure (some filename)
  | none =>
    match ← findIn D fuel exts request (searched request paths) with
    | some filename =>
      modify (·.remember request (searched request paths) filename)
      pure (some filename)
    | none => pure none

end

/-! ### Paths -/

/-- What follows the directory in a match of `splitPathRe`: `((?:.+?)?(\.[^.]*)?)$` -/
def isTail (rest : JSString) : Bool :=
  let dotted := rest.reverse.dropWhile (· ≠ 0x2E)
  rest.all (!isLineTerminator ·) || (!dotted.isEmpty && dotted.tail.all (!isLineTerminator ·))

/-- Whether the first group of `splitPathRe` can be `dir`. -/
def isDir (dir rest : JSString) : Bool :=
  dir.getLast? = some slash && isTail rest &&
    (dir = [slash] || (!dir.dropLast.isEmpty && dir.dropLast.all (!isLineTerminator ·) &&
      !rest.isEmpty))

/-- `path.dirname`, unless it throws because `splitPathRe` does not match. -/
def dirname (path : JSString) : Option JSString :=
  match (path.inits.zip path.tails).reverse.find? fun (dir, rest) => isDir dir rest with
  | some (dir, _) => some (if dir.length = 1 then dir else dir.dropLast)
  | none => if isTail path then some (js ".") else none

def nodeModulePaths (D : System) (dir : JSString) : List JSString :=
  let parts := (D.resolve [dir]).splitOn slash
  parts.inits.tail.reverse.filterMap fun parts =>
    if parts.getLast? = some (js "node_modules") then none
    else some (join (parts ++ [js "node_modules"]))

end NodeJS.Modules

import NodeJS.Path.Stack
import NodeJS.Url.Parse

/-! `url.resolve` and `url.resolveObject` of lib/url.js, of strings. -/
namespace NodeJS.Url
open NodeJS.Path (scanParts restoreParts join)

/-- Whether the first part is empty or begins with a slash. -/
def startsAbsolute (parts : List JSString) : Bool :=
  match parts with
  | [] => false
  | part :: _ => decide (part = []) || decide (part.head? = some slash)

/-- The dot-handling, up to where the slash at the end is set. -/
def resolveDots (srcPath : List JSString) (mustEndAbs removeAllDots hasTrailingSlash : Bool) :
    List JSString :=
  let (srcPath, up) := scanParts srcPath.length (srcPath, 0)
  let srcPath := if !mustEndAbs && !removeAllDots then restoreParts up srcPath else srcPath
  let srcPath := if mustEndAbs && !startsAbsolute srcPath then [] :: srcPath else srcPath
  if hasTrailingSlash && decide ((join srcPath).getLast? ≠ some slash) then srcPath ++ [[]]
  else srcPath

/-- The loop that takes the first part that is not empty for the host. -/
def shiftHost : List JSString → JSString × List JSString
  | [] => ([], [])
  | part :: relPath => if part = [] then shiftHost relPath else (part, relPath)

/-- A host goes in front of the parts of the path, in place of the empty one. -/
def unshiftHost (host : JSString) : List JSString → List JSString
  | [] => [host]
  | part :: parts => if part = [] then host :: parts else host :: part :: parts

/-- `pathname && pathname.split('/') || []` -/
def splitPathname (pathname : Option JSString) : List JSString :=
  (truthy pathname).elim [] (·.splitOn slash)

/-- `pathname && pathname.charAt(0) === '/'` -/
def isAbs (pathname : Option JSString) : Bool :=
  (truthy pathname).any fun pathname => decide (pathname.head? = some slash)

section
variable {Q : QueryString}

/-- What `relative` has where the protocol is another one that always has slashes. -/
def changeProtocol (source relative : Parsed Q) : Parsed Q :=
  let source := { source with protocol := relative.protocol }
  let relative :=
    if (truthy relative.host).isNone && !has hostlessProtocol relative.protocol then
      let (host, relPath) := shiftHost ((relative.pathname.getD []).splitOn slash)
      let relPath := if relPath.head? ≠ some [] then [] :: relPath else relPath
      let relPath := if relPath.length < 2 then [] :: relPath else relPath
      { relative with host := some host, pathname := some (join relPath) }
    else relative
  { source with
    pathname := relative.pathname
    search := relative.search
    query := relative.query
    host := some (relative.host.getD [])
    auth := none
    hostname := none
    port := relative.port }

/-- What is done with the path once its parts are put together. -/
def resolvePath (source relative : Parsed Q) (srcPath : List JSString)
    (mustEndAbs removeAllDots psychotic : Bool) : Parsed Q :=
  if srcPath = [] then { source with pathname := none }
  else
    let last := srcPath.getLast?
    let hasTrailingSlash :=
      ((truthy source.host).isSome || (truthy relative.host).isSome) &&
        (last == some (js ".") || last == some (js "..")) || last == some []
    let srcPath := resolveDots srcPath mustEndAbs removeAllDots hasTrailingSlash
    let isAbsolute := startsAbsolute srcPath
    -- put the host back
    let (host, srcPath) :=
      if psychotic then if isAbsolute then (some [], srcPath) else (srcPath.head?, srcPath.tail)
      else (source.host, srcPath)
    let mustEndAbs := mustEndAbs || (truthy host).isSome && !srcPath.isEmpty
    let srcPath := if mustEndAbs && !isAbsolute then [] :: srcPath else srcPath
    { source with host := host, pathname := some (join srcPath) }

/-- From where the protocols are known to be the same. -/
def resolveParts (source relative : Parsed Q) : Parsed Q :=
  let isSourceAbs := isAbs source.pathname
  let isRelAbs := relative.host.isSome || isAbs relative.pathname
  let mustEndAbs := isRelAbs || isSourceAbs ||
    (truthy source.host).isSome && (truthy relative.pathname).isSome
  let removeAllDots := mustEndAbs
  let srcPath := splitPathname source.pathname
  let relPath := splitPathname relative.pathname
  let psychotic := (truthy source.protocol).isSome && !has slashedProtocol source.protocol &&
    source.host.isSome
  -- the hosts become parts of the paths
  let (source, srcPath) :=
    if psychotic then
      ({ source with hostname := none, auth := none, port := none, host := none },
        (truthy source.host).elim srcPath fun host => unshiftHost host srcPath)
    else (source, srcPath)
  let (relative, relPath) :=
    if psychotic && (truthy relative.protocol).isSome then
      ({ relative with hostname := none, auth := none, port := none, host := none },
        (truthy relative.host).elim relPath fun host => unshiftHost host relPath)
    else (relative, relPath)
  let mustEndAbs := if psychotic then
    mustEndAbs && (decide (relPath.head? = some []) || decide (srcPath.head? = some []))
    else mustEndAbs
  let source' := { source with search := relative.search, query := relative.query }
  if isRelAbs then
    resolvePath { source' with host := relative.host.or source.host } relative relPath
      mustEndAbs removeAllDots psychotic
  else if relPath ≠ [] then
    resolvePath source' relative (srcPath.dropLast ++ relPath) mustEndAbs removeAllDots psychotic
  else if relative.search.isSome then
    if psychotic then { source' with host := srcPath.head? } else source'
  else resolvePath source relative srcPath mustEndAbs removeAllDots psychotic

variable (Q)

/-- `urlFormat` of a string. -/
def urlFormatString (url : JSString) : JSString := urlFormat (urlParse Q url false false)

/-- `urlResolveObject`, which returns `relative` itself where there is no source. -/
def urlResolveObject (source relative : JSString) : JSString ⊕ Parsed Q :=
  if source = [] then .inl relative
  else
    let source := urlParse Q (urlFormatString Q source) false true
    let relative := urlParse Q (urlFormatString Q relative) false true
    let source := { source with hash := relative.hash }
    if relative.href = [] then .inr source
    else if relative.slashes && (truthy relative.protocol).isNone then
      .inr { relative with protocol := source.protocol }
    else if (truthy relative.protocol).isSome && decide (relative.protocol ≠ source.protocol) then
      if !has slashedProtocol relative.protocol then .inr relative
      else .inr (changeProtocol source relative)
    else .inr (resolveParts source relative)

def urlResolve (source relative : JSString) : JSString :=
  match urlResolveObject Q source relative with
  | .inl relative => urlFormatString Q relative
  | .inr obj => urlFormat obj

end

end NodeJS.Url

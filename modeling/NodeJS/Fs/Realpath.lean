import NodeJS.Fs.LinkId
import NodeJS.Fs.Path
import NodeJS.Lib.Loop
import Mathlib.Logic.Function.Basic

/-! `fs.realpathSync` and `fs.realpath` on a file system that does not change. -/
namespace NodeJS.Fs
open NodeJS.Path

/-- What the system calls find: the file under a path, its last name not followed; what
`readlink` reads, if that is a symbolic link; whether `stat` succeeds on it. -/
structure Files where
  Inode : Type
  [decEq : DecidableEq Inode]
  lstat : JSString → Option Inode
  numbers : Inode → Stat
  readlink : Inode → Option JSString
  stat : Inode → Bool
  /-- The root is no link. -/
  root : ∃ id, lstat [slash] = some id ∧ readlink id = none

attribute [instance] Files.decEq

abbrev Cache := JSString → Option JSString

/-! ### `nextPartRe` -/

/-- The group `(.*?)` of a match that begins here, and what follows it. -/
def partAt : JSString → Option (JSString × JSString)
  | [] => some ([], [])
  | c :: s =>
    if c = slash then some ([], c :: s)
    else if isLineTerminator c then none
    else (partAt s).map fun (text, rest) => (c :: text, rest)

/-- A match: the group, the whole, and what is left. -/
structure Part where
  base : JSString
  withSlash : JSString
  rest : JSString
  deriving DecidableEq

/-- `nextPartRe.exec` from the first position where it matches. -/
def exec : JSString → Part
  | [] => ⟨[], [], []⟩
  | c :: s =>
    match partAt (c :: s) with
    | some (text, rest) =>
      ⟨text, text ++ rest.takeWhile (· = slash), rest.dropWhile (· = slash)⟩
    | none => exec s

/-! ### The loops -/

structure Vars where
  p : JSString
  seenLinks : JSString → Option JSString
  knownHard : JSString → Bool
  pos : ℕ
  current : JSString
  base : JSString
  previous : JSString
  cache : Option Cache

/-- The string that is returned, if the call does not fail, and the cache. -/
abbrev Outcome := Option JSString × Option Cache

/-- The variables when the loop is entered, unless the cache has the answer. -/
def begin (cwd p : JSString) (cache : Option Cache) : Vars ⊕ Outcome :=
  let p := resolve cwd [p]
  match cache.bind (· p) with
  | some r => .inr (some r, cache)
  | none => .inl ⟨p, fun _ => none, fun _ => false, 0, [], [], [], cache⟩

namespace Vars
variable (v : Vars)

/-- `cache[key]`, if there is a cache that has it. -/
def get (key : JSString) : Option JSString := v.cache.bind (· key)

def put (key value : JSString) : Vars :=
  { v with cache := v.cache.map fun cache => Function.update cache key (some value) }

/-- `seenLinks[id]`, unless it is the empty string. -/
def seen (id : JSString) : Option JSString := (v.seenLinks id).filter (· ≠ [])

/-- The next part is found. -/
def next : Vars :=
  let part := exec (v.p.drop v.pos)
  { v with
    previous := v.current
    current := v.current ++ part.withSlash
    base := v.current ++ part.base
    pos := v.p.length - part.rest.length }

/-- `!base || knownHard[base] || (cache && cache[base] === base)` -/
def Skips : Prop := v.base = [] ∨ v.knownHard v.base = true ∨ v.get v.base = some v.base

instance : Decidable v.Skips := inferInstanceAs (Decidable (_ ∨ _))

/-- `base` is no link. -/
def hard : Vars :=
  { v.put v.base v.base with knownHard := Function.update v.knownHard v.base true }

/-- Resolve the link, then start over. -/
def restart (cwd resolvedLink : JSString) : Vars :=
  { v with
    p := resolve cwd [resolvedLink, v.p.drop v.pos]
    pos := 0, previous := [], base := [], current := [] }

end Vars

/-- A round of the loop of `realpathSync`, which also has `resolvedLink`. -/
def realpathSyncRound (F : Files) (cwd original : JSString) :
    Vars × JSString → (Vars × JSString) ⊕ Outcome
  | (v, resolvedLink) =>
    if v.pos < v.p.length then
      let v := v.next
      if v.Skips then .inl (v, resolvedLink)
      else match v.get v.base with
        | some resolvedLink => .inl (v.restart cwd resolvedLink, resolvedLink)
        | none =>
          match F.lstat v.base with
          | none => .inr (none, v.cache)
          | some inode =>
            match F.readlink inode with
            | none => .inl (v.hard, resolvedLink)
            | some target =>
              let id := linkId (F.numbers inode)
              match v.seen id with
              | some _ => .inl (v.restart cwd resolvedLink, resolvedLink)
              | none =>
                if F.stat inode then
                  let resolvedLink := resolve cwd [v.previous, target]
                  let v := { v with seenLinks := Function.update v.seenLinks id (some target) }
                  .inl ((v.put v.base resolvedLink).restart cwd resolvedLink, resolvedLink)
                else .inr (none, v.cache)
    else .inr (some v.p, (v.put original v.p).cache)

/-- `gotTarget`, whose last parameter is left out where the link has just been read. -/
def gotTarget (cwd : JSString) (v : Vars) (target base : JSString) : Vars :=
  let resolvedLink := resolve cwd [v.previous, target]
  (v.put base resolvedLink).restart cwd resolvedLink

/-- A call of `LOOP` of `realpath`, and the callbacks up to the next one. -/
def realpathRound (F : Files) (cwd original : JSString) (v : Vars) : Vars ⊕ Outcome :=
  if v.p.length ≤ v.pos then .inr (some v.p, (v.put original v.p).cache)
  else
    let v := v.next
    if v.Skips then .inl v
    else match v.get v.base with
      | some resolvedLink => .inl (v.restart cwd resolvedLink)
      | none =>
        match F.lstat v.base with
        | none => .inr (none, v.cache)
        | some inode =>
          match F.readlink inode with
          | none => .inl v.hard
          | some target =>
            let id := linkId (F.numbers inode)
            match v.seen id with
            | some target => .inl (gotTarget cwd v target v.base)
            | none =>
              if F.stat inode then
                let v := { v with seenLinks := Function.update v.seenLinks id (some target) }
                .inl (gotTarget cwd v target (js "undefined"))
              else .inr (none, v.cache)

/-- `realpathSync(p, cache)` returns or throws. -/
def RealpathSync (F : Files) (cwd p : JSString) (cache : Option Cache) : Outcome → Prop :=
  Lib.Ends (realpathSyncRound F cwd (resolve cwd [p]))
    ((begin cwd p cache).map (·, []) id)

/-- `realpath(p, cache, cb)` calls back. -/
def Realpath (F : Files) (cwd p : JSString) (cache : Option Cache) : Outcome → Prop :=
  Lib.Ends (realpathRound F cwd (resolve cwd [p])) (begin cwd p cache)

end NodeJS.Fs

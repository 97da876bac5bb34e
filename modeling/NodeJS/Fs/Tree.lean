import NodeJS.Fs.Realpath

/-! A file system that is a tree of directories, files and symbolic links, and how POSIX resolves
paths in it: a link is expanded where it is met, before what follows it is looked at. -/
namespace NodeJS.Fs
open NodeJS.Path

inductive Node
  | file
  | link (target : JSString)
  | dir (entries : List (JSString × Node))

/-- A place in the tree: the names from the root to it. -/
abbrev Loc := List JSString

def Node.at : Node → Loc → Option Node
  | n, [] => some n
  | .dir entries, c :: cs => (entries.lookup c).bind (·.at cs)
  | .file, _ :: _ => none
  | .link _, _ :: _ => none

/-- The tree below the root, the numbers of its files, and how many links may be followed for one
path. -/
structure Tree where
  entries : List (JSString × Node)
  numbers : Loc → Stat
  maxSymlinks : ℕ

/-- The parts of a path; one that ends in a slash is taken as if a dot followed. -/
def components (path : JSString) : List JSString :=
  pieces path ++ if path.getLast? = some slash then [js "."] else []

namespace Tree
variable (T : Tree)

def get (d : Loc) : Option Node := (Node.dir T.entries).at d

def IsDir (d : Loc) : Prop := ∃ entries, T.get d = some (.dir entries)

instance (d : Loc) : Decidable (T.IsDir d) :=
  match h : T.get d with
  | some (.dir entries) => .isTrue ⟨entries, h⟩
  | some .file => .isFalse fun ⟨_, h'⟩ => nomatch h.symm.trans h'
  | some (.link _) => .isFalse fun ⟨_, h'⟩ => nomatch h.symm.trans h'
  | none => .isFalse fun ⟨_, h'⟩ => nomatch h.symm.trans h'

/-- The walk from a directory; `follow` goes on after a link. -/
def walkWith (follow : Loc → List JSString → Option Loc) : Loc → List JSString → Option Loc
  | d, [] => some d
  | d, c :: cs =>
    if ¬ T.IsDir d then none
    else if c = js "." then walkWith follow d cs
    else if c = js ".." then walkWith follow d.dropLast cs
    else match T.get (d ++ [c]) with
      | none => none
      | some (.link target) =>
        if target = [] then none
        else follow (if target.head? = some slash then [] else d) (components target ++ cs)
      | some _ => walkWith follow (d ++ [c]) cs

def walk : ℕ → Loc → List JSString → Option Loc
  | 0 => T.walkWith fun _ _ => none
  | n + 1 => T.walkWith (walk n)

/-- The file that a path names, for a process that runs in `d`. -/
def find (d : Loc) (path : JSString) : Option Loc :=
  if path = [] then none
  else T.walk T.maxSymlinks (if path.head? = some slash then [] else d) (components path)

/-- The file under an absolute path, where a link at its end is not followed. -/
def lstat (path : JSString) : Option Loc :=
  match (components path).getLast? with
  | none => none
  | some c =>
    if c = js "." ∨ c = js ".." then T.walk T.maxSymlinks [] (components path)
    else (T.walk T.maxSymlinks [] (components path).dropLast).bind fun d =>
      if T.IsDir d then (T.get (d ++ [c])).map fun _ => d ++ [c] else none

def readlink (id : Loc) : Option JSString :=
  match T.get id with
  | some (.link target) => some target
  | _ => none

/-- Whether there is a file once all links are followed. -/
def stat (id : Loc) : Bool := (T.walk T.maxSymlinks id.dropLast id.getLast?.toList).isSome

variable {T} in
theorem readlink_eq_some {id : Loc} {target : JSString} :
    T.readlink id = some target ↔ T.get id = some (.link target) := by
  unfold readlink
  split
  · rename_i hget
    rw [hget, Option.some.injEq, Option.some.injEq, Node.link.injEq]
  · rename_i hother
    exact ⟨nofun, fun hget => absurd hget (hother target)⟩

variable {T} in
theorem readlink_eq_none {id : Loc} {n : Node} (hget : T.get id = some n)
    (hlink : ∀ target, n ≠ .link target) : T.readlink id = none := by
  rw [Option.eq_none_iff_forall_ne_some]
  intro target hread
  exact hlink target (Option.some.inj (hget.symm.trans (readlink_eq_some.mp hread)))

theorem isDir_root : T.IsDir [] := ⟨T.entries, rfl⟩

theorem walkWith_root (follow : Loc → List JSString → Option Loc) :
    T.walkWith follow [] [js "."] = some [] := by
  simp [walkWith, T.isDir_root]

theorem walk_root (n : ℕ) : T.walk n [] [js "."] = some [] := by
  cases n with
  | zero => exact T.walkWith_root _
  | succ n => exact T.walkWith_root _

theorem lstat_root : T.lstat [slash] = some [] := T.walk_root T.maxSymlinks

def files : Files where
  Inode := Loc
  lstat := T.lstat
  numbers := T.numbers
  readlink := T.readlink
  stat := T.stat
  root := ⟨[], T.lstat_root, rfl⟩

end Tree

end NodeJS.Fs

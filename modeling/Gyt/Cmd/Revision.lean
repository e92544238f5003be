import Gyt.Repo

/-!
# Revisions

The names under which commands take a commit, `resolve_rev` of `cmd/util.rs`: `HEAD` and its first
parents, branches, tags, the branches of a remote, and identifiers, which may be abbreviated.
-/

namespace Gyt

open Text

/-- Going back to first parents. -/
def walkBack (s : Store) (rev : Str) : ℕ → ObjectId → Result ObjectId
  | 0, id => .ok id
  | n + 1, id => do
    let obj ← s.read id
    ensure (obj.kind = .commit) (.object ["HEAD~ walk hit non-commit at ", .str id.toHex])
    let c ← Commit.decode obj.payload
    let parent ← okOr c.parents.head? (.notFound [.str rev, ": ran off root"])
    walkBack s rev n parent

/-- The commit of `HEAD`. -/
def headCommit (fs : RefFiles) : Result ObjectId := do
  let head ← readHead fs
  let id ← resolve fs head
  okOr id (.refs ["HEAD has no commit yet"])

/-- Whether a text consists of hexadecimal digits. -/
def isHexText (s : Str) : Bool := s.all ("0123456789abcdefABCDEF".toList.contains ·)

/-- The objects whose identifiers start with the given digits. -/
def findObjectsWithPrefix (s : Store) (digits : Str) : List ObjectId :=
  ((s.entries.map Prod.fst).filter fun id =>
    (digits.map Char.toLower).isPrefixOf id.toHex).dedup

def resolveAbbreviated (s : Store) (rev : Str) : Result ObjectId :=
  match findObjectsWithPrefix s rev with
  | [] => .error (.notFound ["revision ", .str rev])
  | [id] => .ok id
  | ids => .error (.invalidArgument
      ["revision ", .str rev, " is ambiguous (", .num ids.length, " matches)"])

/-- The object with an identifier, which may be abbreviated. -/
def resolveId (s : Store) (rev : Str) : Result ObjectId :=
  if rev.length = hexLen ∧ isHexText rev then ObjectId.fromHex rev
  else if 4 ≤ rev.length ∧ rev.length < hexLen ∧ isHexText rev then resolveAbbreviated s rev
  else .error (.notFound ["revision ", .str rev])

/-- The references that a name can stand for, the preferred one first. -/
def revCandidates (rev : Str) : List Str :=
  ["refs/heads/" ++ rev, "refs/tags/" ++ rev, "refs/remotes/" ++ rev]

/-- The object that a revision names. -/
def resolveRev (s : Store) (fs : RefFiles) (rev : Str) : Result ObjectId :=
  match stripPrefix "HEAD~" rev with
  | some rest => do
    let n ← okOr (parseU32 rest) (.invalidArgument ["bad HEAD~N: ", .debug rev])
    let id ← headCommit fs
    walkBack s rev n id
  | none =>
    if rev = "HEAD" then headCommit fs
    else
      match (revCandidates rev).find? (fs.exists ·) with
      | some name => readRef fs name
      | none => resolveId s rev

end Gyt

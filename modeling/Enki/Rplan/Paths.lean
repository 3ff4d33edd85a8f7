import Enki.Lib.FileTree
import Enki.Rplan.Io

/-!
# Paths and the file root

How `plan/src/rplan.c` turns the path a program gives into the path it hands to the
operating system. Without a file root that is the path as it is. With one, reading
resolves the whole path below the root and looks whether it is still there; writing
resolves the directory, and the file itself only if there is one.
-/

namespace Enki.Rplan

open Bignum Log FileTree

/-- `rp_nat_path`, as far as a C string goes: to the first zero byte. -/
def rpNatPath (v : NatVal) : List UInt8 := (natBytes v).takeWhile (· != 0)

/-- `rp_join_path` -/
def rpJoinPath (root path : List UInt8) : List UInt8 :=
  if root.getLast? = some slash then root ++ path else root ++ slash :: path

/-- `rp_path_under_root` -/
def rpPathUnderRoot (root path : List UInt8) : Bool :=
  root == [slash] || (root.isPrefixOf path &&
    (path.drop root.length == [] || (path.drop root.length).head? == some slash))

/-- What a thread sees of the files. -/
structure Files where
  fs : Fs
  /-- `rplan_file_root_c` -/
  fileRoot : Option (List UInt8)

/-- There is no file root to keep to. -/
def Files.unconfined (f : Files) : Bool := f.fileRoot.getD [] == []

/-- `rp_resolve_read_path` -/
def rpResolveReadPath (f : Files) (argPath : List UInt8) : Option (List UInt8) :=
  if f.unconfined then some argPath
  else
    match f.fs.realpath (f.fileRoot.getD []) with
    | .error _ => none
    | .ok root =>
      match f.fs.realpath (rpJoinPath root argPath) with
      | .error _ => none
      | .ok resolved => if rpPathUnderRoot root resolved then some resolved else none

/-- `rp_split_write_path` -/
def rpSplitWritePath (argPath : List UInt8) : Option (List UInt8 × List UInt8) :=
  let basePart := basename argPath
  if basePart ≠ [] ∧ basePart ≠ dot ∧ basePart ≠ dotdot then some (dirname argPath, basePart)
  else none

/-- `rp_resolve_write_path` -/
def rpResolveWritePath (f : Files) (argPath : List UInt8) : Option (List UInt8) := do
  let (dirPath, basePath) ← rpSplitWritePath argPath
  let resolvedDir ← rpResolveReadPath f dirPath
  let candidate := rpJoinPath resolvedDir basePath
  if f.unconfined then some candidate
  else
    match f.fs.realpath (f.fileRoot.getD []) with
    | .error _ => none
    | .ok root =>
      match f.fs.realpath candidate with
      | .ok resolvedTarget => if rpPathUnderRoot root resolvedTarget then some resolvedTarget else none
      | .error .enoent =>
        -- A missing name is made, a dangling link is not followed.
        match f.fs.lstat candidate with
        | .error .enoent => some candidate
        | _ => none
      | .error _ => none

/-! ## Calls on a path -/

/-- `open(2)` to read, and `stat(2)`: a file or a directory. -/
def Files.openRead (f : Files) (path : List UInt8) : Option Loc := (f.fs.resolve false path).toOption

/-- `opendir(3)`, with the entries there. -/
def Files.openDir (f : Files) (path : List UInt8) : Option (Loc × List (Name × Node)) := do
  let l ← (f.fs.resolve false path).toOption
  match f.fs.root.get l with
  | some (.dir es) => some (l, es)
  | _ => none

/-- `open(2)` with `O_WRONLY | O_CREAT | O_TRUNC`: a file that is there or is made. -/
def Files.openWrite (f : Files) (path : List UInt8) : Option Loc := do
  let l ← (f.fs.resolve true path).toOption
  match f.fs.root.get l with
  | some (.dir _) => none
  | _ => some l

end Enki.Rplan

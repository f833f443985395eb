import Mathlib.Data.List.DropRight
import Mathlib.Logic.Function.Basic
import Tinker.RamFile

/-! The tree of inodes: `isearch` walks along `down` and `next`, and `imknod` hangs a new inode at
the end of a chain. An inode without children points down to itself, and a name is copied without
its terminator. All allocations succeed. -/
namespace Tinker

open Outcome

/-- `PATH_MAX` and `NAME_MAX`. -/
structure Limits where
  pathMax : ℕ
  nameMax : ℕ
  nameMax_pos : 0 < nameMax

/-- The terminator of a string. -/
def nul : Char := '\x00'

/-- An absolute path, without its terminator. -/
structure AbsPath where
  chars : List Char
  absolute : chars.head? = some '/'
  noNul : nul ∉ chars

/-- The file types of `sys/stat.h` as `tk_mode_t` has them. -/
def isaIfdir : ℕ := 0o040000

def isaIfchr : ℕ := 0o020000

def isaIfblk : ℕ := 0o060000

def isaIfreg : ℕ := 0o100000

def isaIflnk : ℕ := 0o120000

def isaIfsock : ℕ := 0o140000

def isaIfifo : ℕ := 0o010000

/-- A `tk_iohandle_t *`: that of a driver, or one of the file types'. -/
inductive IoHandle
  | dev (dev : ℕ) | ifdir | ifchr | ifblk | ifreg | iflnk | ifsock | ififo
  deriving DecidableEq

/-- A `tk_inode_t`. An inode is known by the order it was allocated in, the root by 0; `name` is the
block that was allocated for it, which only for the root has room for the terminator. -/
structure Inode where
  id : ℕ
  name : List Char
  mode : ℕ
  mount : Bool
  belong : ℕ
  next : Option ℕ
  down : ℕ
  idata : Option IfregData
  iohandle : Option IoHandle

/-- All inodes, and the counters `__icntr` and `__ilid`. -/
structure InodeTree where
  node : ℕ → Inode
  size : ℕ
  icntr : ℕ
  ilid : ℕ

/-- The root of `fs_init`. -/
def rootInode : Inode := ⟨0,[nul],isaIfdir,false,0,none,0,none,none⟩

def InodeTree.init : InodeTree := ⟨fun _ => rootInode,1,1,1⟩

/-- What follows the last `/`. -/
def igetname (s : List Char) : List Char := s.rtakeWhile (· ≠ '/')

/-- What is left when it is cut off. -/
def igetpath (s : List Char) : List Char := s.rdropWhile (· ≠ '/')

/-- The pieces between slashes. -/
def segments : List Char → List (List Char)
  | [] => [[]]
  | c :: s => if c = '/' then [] :: segments s else (segments s).modifyHead (c :: ·)

/-- What `strtok(fname, "/")` and then `strtok(NULL, "/")` return one after the other. -/
def tokens (s : List Char) : List (List Char) := (segments s).filter (· ≠ [])

/-- The string at `ci->name`, with the memory behind the block. -/
def Inode.cname (n : Inode) (beyond : List Char) : List Char :=
  (n.name ++ beyond).takeWhile (· ≠ nul)

namespace InodeTree

variable (lim : Limits) (beyond : ℕ → List Char)

/-- `strncmp(ci->name, nd, NAME_MAX) == 0`. -/
def named (t : InodeTree) (ci : ℕ) (nd : List Char) : Bool :=
  decide (((t.node ci).cname (beyond ci)).take lim.nameMax = nd.take lim.nameMax)

/-- The walk along `next` to an inode of that name. -/
def seekName (t : InodeTree) (nd : List Char) : ℕ → Option ℕ → Except FsFault (Option ℕ)
  | _, none => .ok none
  | 0, some _ => .error .diverges
  | fuel+1, some ci =>
    if t.named lim beyond ci nd then .ok (some ci) else seekName t nd fuel (t.node ci).next

/-- The loop of `isearch` over the tokens. -/
def searchTokens (t : InodeTree) : List (List Char) → Option ℕ → Except FsFault (Option ℕ)
  | [], ci => .ok ci
  | nd :: nds, ci => do
    -- `if (ci->mount)` comes before `if (ci)`
    let some ci := ci | throw .null
    if (t.node ci).mount then return some ci
    let ci ← t.seekName lim beyond nd t.size (some (t.node ci).down)
    searchTokens t nds ci

/-- `isearch`. -/
def isearch (t : InodeTree) (ci : ℕ) (s : List Char) : Except FsFault (Option ℕ) := do
  check (s.length < lim.pathMax) .overrun
  t.searchTokens lim beyond (tokens s) (some ci)

/-- The walk along `next` to the end of a chain. -/
def seekLast (t : InodeTree) : ℕ → ℕ → Except FsFault ℕ
  | fuel, seekNode =>
    match (t.node seekNode).next with
    | none => .ok seekNode
    | some n =>
      match fuel with
      | 0 => .error .diverges
      | fuel+1 => seekLast t fuel n

/-- `newNode->iohandle`. -/
def iohandleOf (mode dev : ℕ) : Option IoHandle :=
  if dev ≠ 0 then some (.dev dev)
  else if mode = isaIfdir then some .ifdir
  else if mode = isaIfchr then some .ifchr
  else if mode = isaIfblk then some .ifblk
  else if mode = isaIfreg then some .ifreg
  else if mode = isaIflnk then some .iflnk
  else if mode = isaIfsock then some .ifsock
  else if mode = isaIfifo then some .ififo
  else none

/-- The new inode, at the next free place. -/
def newNode (t : InodeTree) (name : List Char) (mode dev belong : ℕ) : InodeTree :=
  { t with
    node := Function.update t.node t.size
      ⟨t.ilid,name,mode,false,belong,none,t.size,none,iohandleOf mode dev⟩
    size := t.size+1
    icntr := t.icntr+1
    ilid := t.ilid+1 }

/-- `seekNode->next = newNode`. -/
def setNext (t : InodeTree) (p n : ℕ) : InodeTree :=
  { t with node := Function.update t.node p { t.node p with next := some n } }

/-- `belong->down = newNode`. -/
def setDown (t : InodeTree) (p n : ℕ) : InodeTree :=
  { t with node := Function.update t.node p { t.node p with down := n } }

/-- The end of `imknod`: a new inode at the end of the chain below `belong`. -/
def hang (t : InodeTree) (name : List Char) (mode dev belong : ℕ) : Except FsFault InodeTree := do
  let t' := t.newNode name mode dev belong
  let down := (t.node belong).down
  if down ≠ belong then
    let seekNode ← t'.seekLast t'.size down
    return t'.setNext seekNode t.size
  else return t'.setDown belong t.size

/-- `imknod`. -/
def imknod (t : InodeTree) (ci : ℕ) (filename : List Char) (mode dev : ℕ) :
    Except FsFault (Except FsErr Unit × InodeTree) := do
  if ¬filename.length < lim.pathMax then return (.error .eNametoolong,t)
  let path := igetpath filename
  let name := igetname filename
  if ¬name.length < lim.nameMax then return (.error .eNametoolong,t)
  let found ← t.isearch lim beyond ci filename
  if found.isSome then return (.error .eExist,t)
  let some belong ← t.isearch lim beyond ci path | return (.error .eNoent,t)
  if (t.node belong).mode ||| isaIfdir = 0 then return (.error .eNotdir,t)
  return (.ok (),← t.hang name mode dev belong)

end InodeTree

end Tinker

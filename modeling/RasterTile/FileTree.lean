import RasterTile.FileAccess
import RasterTile.Picture.Png
import RasterTile.Text.Blank

/-!
# File trees

A file tree holds directories and files in memory and offers the same access as a disk. A path is
walked name by name from the top, with a slash in front or without, and every name but the last has to
lead to a directory.
-/
namespace RasterTile

abbrev Location := List RawText

instance : Coe (List String) Location := ⟨List.map RawText.ofText⟩

inductive FileContent where
  | bytes (bytes : List UInt8)
  | picture (picture : Picture)
  deriving DecidableEq, Repr

namespace FileContent

def toBytes : FileContent → List UInt8
  | .bytes content => content
  | .picture p => p.png

end FileContent

inductive FileEntry where
  | directory
  | file (content : FileContent)
  deriving DecidableEq, Repr

/-- The entries below the top, one per location. -/
structure FileTree where
  entries : List (Location × FileEntry)
  deriving Repr

namespace FileTree

def empty : FileTree := ⟨[]⟩

/-- The entry of a location. The top is a directory. -/
def find? (t : FileTree) (here : Location) : Option FileEntry :=
  if here = [] then some .directory else t.entries.lookup here

def isDirectory (t : FileTree) (here : Location) : Bool := t.find? here = some .directory

def set (t : FileTree) (here : Location) (e : FileEntry) : FileTree :=
  ⟨(here, e) :: t.entries.filter (·.1 ≠ here)⟩

/-- Where a name leads. An empty name and one dot stay, two dots go up. -/
def step (t : FileTree) (here : Location) (name : RawText) : Option Location :=
  if t.isDirectory here then
    if name = "" ∨ name = "." then some here
    else if name = ".." then (if here = [] then none else some here.dropLast)
    else some (here ++ [name])
  else none

/-- The names in a path. The empty path has none, nor has one with a zero byte. -/
def names? (path : RawText) : Option (List RawText) :=
  if path.bytes = [] ∨ 0 ∈ path.bytes then none
  else some ((Text.splitOn RawText.slash path.bytes).map RawText.mk)

def locate? (t : FileTree) (path : RawText) : Option Location := do
  (← names? path).foldlM t.step []

def read (t : FileTree) (path : RawText) : Option (List UInt8) :=
  match (t.locate? path).bind t.find? with
  | some (.file content) => some content.toBytes
  | _ => none

def filesAt (here : Location) (entries : List (Location × FileEntry)) : List RawText :=
  entries.filterMap fun (l, e) =>
    match e with
    | .file _ => if l.dropLast = here then l.getLast? else none
    | .directory => none

def fileNames (t : FileTree) (path : RawText) : Option (List RawText) := do
  let here ← t.locate? path
  if t.isDirectory here then some (filesAt here t.entries) else none

def descend (t : FileTree) (here : Location) : List RawText → FileTree × Bool
  | [] => (t, t.isDirectory here)
  | name :: rest =>
    match t.step here name with
    | none => (t, false)
    | some next => ((if (t.find? next).isNone then t.set next .directory else t)).descend next rest

/-- There is nothing to make for the empty path. -/
def makeDirectories (t : FileTree) (path : RawText) : FileTree × Bool :=
  if path.bytes = [] then (t, true)
  else match names? path with
    | none => (t, false)
    | some names => t.descend [] names

/-- Puts content at a path, unless there is a directory or no way to it. -/
def write (t : FileTree) (path : RawText) (content : FileContent) : FileTree × Bool :=
  match t.locate? path with
  | none => (t, false)
  | some here =>
    if t.isDirectory here then (t, false) else (t.set here (.file content), true)

instance : FileAccess (StateM FileTree) where
  read path := do return (← get).read path
  fileNames path := do return (← get).fileNames path
  makeDirectories path := modifyGet fun t => (t.makeDirectories path).swap
  create path := modifyGet fun t => (t.write path (.bytes [])).swap
  put path picture := modifyGet fun t => (t.write path (.picture picture)).swap

def pictures (t : FileTree) : List (List String × Picture) :=
  t.entries.filterMap fun (l, e) =>
    match e with
    | .file (.picture p) => some (l.map RawText.text, p)
    | _ => none

@[simp] theorem find?_nil (t : FileTree) : t.find? [] = some .directory := by simp [find?]

theorem find?_set_self (t : FileTree) {here : Location} (e : FileEntry) (h : here ≠ []) :
    (t.set here e).find? here = some e := by simp [find?, set, h]

theorem lookup_filter_ne {here there : Location} (h : there ≠ here)
    (es : List (Location × FileEntry)) :
    (es.filter (·.1 ≠ here)).lookup there = es.lookup there := by
  induction es with
  | nil => rfl
  | cons head es ih =>
    by_cases hl : head.1 = here
    · rw [List.filter_cons_of_neg (by simpa using hl), ih, List.lookup_cons,
        beq_eq_false_iff_ne.mpr (hl ▸ h)]
    · rw [List.filter_cons_of_pos (by simpa using hl), List.lookup_cons, List.lookup_cons, ih]

/-- Every other location keeps its entry. -/
theorem find?_set_of_ne (t : FileTree) {here there : Location} (e : FileEntry) (h : there ≠ here) :
    (t.set here e).find? there = t.find? there := by
  simp only [find?, set, List.lookup_cons, beq_eq_false_iff_ne.mpr h]
  rw [lookup_filter_ne h]

end FileTree
end RasterTile

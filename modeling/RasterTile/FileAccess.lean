import RasterTile.Picture
import RasterTile.Text.Raw

/-!
# Access to files

What rendering needs of the place where tiles and pictures are kept. The parts of a path are separated by
slashes. No operation says why it fails.
-/
namespace RasterTile

class FileAccess (m : Type → Type) where
  read : (path : RawText) → m (Option (List UInt8))
  /-- The names of the files directly inside a directory, in no particular order. -/
  fileNames : (path : RawText) → m (Option (List RawText))
  /-- Makes a directory and those it lies in, unless they are there. -/
  makeDirectories : (path : RawText) → m Bool
  /-- Leaves an empty file at a path, whether there was a file before or not. -/
  create : (path : RawText) → m Bool
  /-- Puts a picture into a file that has been created. -/
  put : (path : RawText) → (picture : Picture) → m Bool

namespace FileAccess

/-- The path of a name inside a directory; an empty path adds nothing to the name. -/
def join (directory name : RawText) : RawText :=
  if directory.bytes.getLast?.all (· = RawText.slash) then ⟨directory.bytes ++ name.bytes⟩
  else ⟨directory.bytes ++ RawText.slash :: name.bytes⟩

def text? (bytes : List UInt8) : Option String := String.fromUTF8? ⟨bytes.toArray⟩

variable {m : Type → Type} [Monad m] [FileAccess m]

def readText (path : RawText) : m (Option String) := do return (← read path).bind text?

def demand (e : ε) (x : m (Option α)) : ExceptT ε m α := do
  match ← x with
  | some a => return a
  | none => throw e

def ensure (e : ε) (x : m Bool) : ExceptT ε m Unit := do
  unless ← x do throw e

end FileAccess
end RasterTile

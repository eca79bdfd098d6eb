import RasterTile.Rendering

/-!
# Rendering a directory

The array files of a directory are loaded first, then they get one style, stretched over all of
them, and then every tile becomes a picture of its own. Nothing is written before all files are
loaded.
-/
namespace RasterTile

namespace FileName

/-- A name without its extension, and the extension. A dot in front of a name starts none. -/
def split (name : RawText) : RawText × Option RawText :=
  let bytes := name.bytes.reverse
  let extension := bytes.takeWhile (· ≠ RawText.dot)
  match bytes.drop extension.length with
  | _ :: b :: rest => (⟨(b :: rest).reverse⟩, some ⟨extension.reverse⟩)
  | _ => (name, none)

/-- The text of a name without its extension. -/
def stem (name : RawText) : String := (split name).1.text

def lower (b : UInt8) : UInt8 := if 0x41 ≤ b && b ≤ 0x5a then b + 0x20 else b

/-- Whether a name ends in `.npy`, in any letter case. -/
def isArray (name : RawText) : Bool :=
  (split name).2.any fun extension => extension.bytes.map lower = (RawText.ofText "npy").bytes

end FileName

/-- How many tiles became pictures, how many were blank, and how many failed. -/
structure BatchReport where
  processed : Nat
  skipped : Nat
  errors : Nat
  deriving DecidableEq, Repr

namespace Batch

/-- The tiles that are not blank, with the names of their files, and what was left out. -/
structure Loaded where
  tiles : List (RawText × Tile)
  skipped : Nat
  errors : Nat

/-- Sorts out what the files turned out to hold. Unless told to keep going, it stops at the first
one that holds no tile. -/
def Loaded.ofResults (keepGoing : Bool) :
    List (RawText × Except Error Tile) → Except Error Loaded
  | [] => .ok ⟨[], 0, 0⟩
  | (_, .error e) :: rest =>
    if keepGoing then (ofResults keepGoing rest).map fun l => { l with errors := l.errors + 1 }
    else .error e
  | (name, .ok tile) :: rest =>
    (ofResults keepGoing rest).map fun l =>
      if tile.isBlank then { l with skipped := l.skipped + 1 }
      else { l with tiles := (name, tile) :: l.tiles }

/-- The array files of a directory in the order of their names. -/
def arrayNames (names : List RawText) : List RawText := (names.filter FileName.isArray).mergeSort

variable {m : Type → Type} [Monad m] [FileAccess m]

def load (path : RawText) (bands : BandOrder) : m (Except Error Tile) := do
  match ← FileAccess.read path with
  | none => return .error .fileAccess
  | some bytes => return Tile.decode bytes bands

def loadAll (directory : RawText) (bands : BandOrder) (names : List RawText) :
    m (List (RawText × Except Error Tile)) :=
  names.mapM fun name => do return (name, ← load (FileAccess.join directory name) bands)

/-- The path of the picture of an array file. It is named for the stem as text. -/
def picturePath (directory name : RawText) : RawText :=
  FileAccess.join directory (RawText.ofText (FileName.stem name ++ ".png"))

def renderTile (style : StyleSource) (path : RawText) (tile : Tile) : ExceptT Error m Unit := do
  let picture ← tile.render style
  picture.save path

/-- Renders tiles one after another. Unless told to keep going, it stops at the first failure. -/
def renderTiles (style : StyleSource) (directory : RawText) (keepGoing : Bool)
    (report : BatchReport) : List (RawText × Tile) → ExceptT Error m BatchReport
  | [] => return report
  | (name, tile) :: rest => do
    match ← ExceptT.lift (renderTile style (picturePath directory name) tile).run with
    | .ok () =>
      renderTiles style directory keepGoing { report with processed := report.processed + 1 } rest
    | .error e =>
      if keepGoing then
        renderTiles style directory keepGoing { report with errors := report.errors + 1 } rest
      else throw e

end Batch

/-- Renders every array file of the directory `input` to a picture in the directory `output`. -/
def RenderParams.renderDirectory {m : Type → Type} [Monad m] [FileAccess m]
    (params : RenderParams) (input output : RawText) (keepGoing : Bool) :
    ExceptT Error m BatchReport := do
  FileAccess.ensure .fileAccess (FileAccess.makeDirectories output)
  let names ← FileAccess.demand .fileAccess (FileAccess.fileNames input)
  let results ← ExceptT.lift (Batch.loadAll input params.bands (Batch.arrayNames names))
  let loaded ← Batch.Loaded.ofResults keepGoing results
  let style ← params.style.stretched (loaded.tiles.map (·.2)) params.stretch
  Batch.renderTiles style output keepGoing ⟨0, loaded.skipped, loaded.errors⟩ loaded.tiles

end RasterTile

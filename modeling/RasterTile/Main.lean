import RasterTile.CommandLine
import RasterTile.Picture.Png

/-!
# The program

Reads the words of its command line, runs them on the disk and prints what comes out.
-/
namespace RasterTile

def attempt (x : IO α) : IO (Option α) := try some <$> x catch _ => pure none

/-- A path is taken as its text, and so is the name of a file that is listed. -/
instance : FileAccess IO where
  read path := attempt do return (← IO.FS.readBinFile path.text).toList
  fileNames path := attempt do
    let entries ← ((← IO.currentDir) / path.text).readDir
    let files ← entries.filterM fun entry => do
      return (← attempt entry.path.metadata).any fun data => data.type == .file
    return (files.map fun entry => RawText.ofText entry.fileName).toList
  makeDirectories path := return (← attempt (IO.FS.createDirAll path.text)).isSome
  create path := return (← attempt (IO.FS.writeBinFile path.text .empty)).isSome
  put path picture :=
    return (← attempt (IO.FS.writeBinFile path.text ⟨picture.png.toArray⟩)).isSome

def usage : String := "\n".intercalate
  ["Render multi-band array tiles to PNG",
    "",
    "Usage: rastertile [OPTIONS]",
    "",
    "-i, --input FILE       the tile to render",
    "-o, --output FILE      its picture",
    "--input-dir DIR        render all tiles of a directory",
    "--output-dir DIR       their pictures",
    "--bands ORDER          order of the stored bands, such as bgrna",
    "--preset NAME          rgb, gray, pending, onlyRed or value",
    "--program FILE         a style program",
    "--style-json JSON      a style",
    "--pixel-depth N        number of distinct raw values per band",
    "--config FILE          rendering parameters as JSON",
    "--stretch LO [HI]      percent of valid pixels to clip at each end",
    "--log                  report on standard error",
    "--continue-on-error    keep going when a tile fails",
    "-h, --help             show this text",
    "-V, --version          show the version"]

def version : String := "rastertile 0.1.0"

end RasterTile

open RasterTile CommandLine in
def main (words : List String) : IO UInt32 := do
  match Arguments.ofWords words with
  | .error .misuse =>
    IO.eprintln usage
    return 2
  | .error (.notice .help) =>
    IO.println usage
    return 0
  | .error (.notice .version) =>
    IO.println version
    return 0
  | .ok arguments =>
    match ← (run arguments : ExceptT Failure IO String).run with
    | .ok text =>
      IO.print text
      if arguments.log then IO.eprintln "done"
      return 0
    | .error f =>
      IO.eprintln s!"Error: {f.message}"
      return 1

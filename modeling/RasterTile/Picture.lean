import RasterTile.Style
import RasterTile.Tile

/-!
# Pictures

A picture is four bytes per pixel, row by row: red, green, blue and alpha. Drawing a tile goes through
the rows of a buffer and along each row with one set of slots: the band values of a pixel, and zeros
up to at least four slots, go through the style, and the first four slots are rounded to bytes. A tile
that is drawn onto a surface replaces what is there, if the surface has its size.
-/
namespace RasterTile

structure Picture where
  width : Nat
  height : Nat
  rgba : List UInt8
  deriving DecidableEq, Repr

/-- The byte nearest to a value, halves going to the even one; a NaN is zero. -/
def toByte (v : Float) : UInt8 :=
  if 255 ≤ v then 255
  else if 0 < v then
    let whole := v.toUInt64
    let fraction := v - whole.toFloat
    if fraction < 0.5 ∨ (fraction == 0.5 ∧ whole % 2 = 0) then whole.toUInt8
    else (whole + 1).toUInt8
  else 0

namespace Tile

def slotCount (t : Tile) : Nat := max t.bandCount 4

/-- The slots for pixel `p`: the scratch slots are cleared, and the band values are read into them. -/
def load (t : Tile) (p : Nat) (scratch : List Float) : List Float :=
  let cleared := scratch.map fun _ => 0
  (t.readPixel p cleared).getD cleared

/-- The bytes of as many pixels from `p` on. The slots that the style leaves behind at one pixel are
the scratch of the next. -/
def drawFrom (t : Tile) (style : BandMap → List Float → List Float) (p : Nat) :
    (count : Nat) → (scratch : List Float) → List UInt8
  | 0, _ => []
  | count + 1, scratch =>
    let slots := style t.map (t.load p scratch)
    (slots.take 4).map toByte ++ drawFrom t style (p + 1) count slots

/-- The bytes of row `y`. Each row has a scratch of its own. -/
def drawRow (t : Tile) (style : BandMap → List Float → List Float) (y : Nat) : List UInt8 :=
  t.drawFrom style (y * t.width) t.width (List.replicate t.slotCount 0)

/-- The rows of a cleared buffer, after those of `order` were drawn one after the other. -/
def drawRows (t : Tile) (style : BandMap → List Float → List Float) (order : List Nat) :
    List (List UInt8) :=
  order.foldl (fun rows y => rows.set y (t.drawRow style y))
    (List.replicate t.height (List.replicate (t.width * 4) 0))

/-- The bytes of a tile under a style. Without pixels there is no buffer, however many rows there are. -/
def draw (t : Tile) (style : BandMap → List Float → List Float) : List UInt8 :=
  if t.width * t.height * 4 = 0 then []
  else (t.drawRows style (List.range t.height)).flatten

/-- The picture of a tile. What is wrong with a style shows before any pixel is drawn. -/
def render (t : Tile) (source : StyleSource) : Except Error Picture := do
  let style ← source.build t.map
  return ⟨t.width, t.height, t.draw fun bands pixel => style.apply bands pixel⟩

end Tile

namespace Picture

def extentLimit : Nat := UInt32.size

def checkExtents (p : Picture) : Except Error Unit :=
  if extentLimit ≤ p.width then .error (.pictureWidth p.width)
  else if extentLimit ≤ p.height then .error (.pictureHeight p.height)
  else .ok ()

/-- The picture as an image buffer; a buffer that is too long is kept as it is. -/
def toBuffer (p : Picture) : Except Error Picture := do
  p.checkExtents
  if p.rgba.length < p.width * p.height * 4 then throw (.pictureBuffer p.width p.height)
  return p

/-- Whether a file can be started for the picture: its bytes are those of its extents. -/
def checkBytes (p : Picture) : Except Error Unit :=
  let expected := p.width * p.height * 4
  if p.rgba.length ≠ expected then
    .error (.pictureBytes p.rgba.length expected p.width p.height)
  else p.checkExtents

/-- Only a picture with pixels can be encoded. -/
def isEncodable (p : Picture) : Bool := p.width ≠ 0 && p.height ≠ 0

def cleared (width height : Nat) : Picture := ⟨width, height, List.replicate (width * height * 4) 0⟩

end Picture

/-- Work on a picture that is drawn onto in place. What was done to it stays done if the work fails. -/
abbrev OnSurface := ExceptT Error (StateM Picture)

namespace OnSurface

/-- Replaces all bytes of the surface by as many new ones. -/
def put (rgba : List UInt8) : OnSurface Unit := do
  let surface ← get
  if rgba.length ≠ surface.rgba.length then
    throw (.surfaceBytes rgba.length surface.width surface.height)
  set { surface with rgba }

/-- Draws a tile onto a surface of its size. A blank tile leaves the surface as it is. -/
def drawTile (t : Tile) (style : BandMap → List Float → List Float) : OnSurface Unit := do
  if t.isBlank then return
  let surface ← get
  if surface.width ≠ t.width ∨ surface.height ≠ t.height then
    throw (.surfaceSize t.width t.height surface.width surface.height)
  put (t.draw style)

end OnSurface

namespace Picture

def after (p : Picture) (work : OnSurface Unit) : Except Error Picture :=
  match work.run p with
  | (.ok (), q) => .ok q
  | (.error e, _) => .error e

def put (p : Picture) (rgba : List UInt8) : Except Error Picture := p.after (.put rgba)

def drawTile (p : Picture) (t : Tile) (style : BandMap → List Float → List Float) :
    Except Error Picture := p.after (.drawTile t style)

end Picture
end RasterTile

import RasterTile.Proofs.BitPattern
import RasterTile.Proofs.Program.Correctness
import RasterTile.Proofs.Style.LookupTable
import RasterTile.Proofs.Style.Slots

/-!
# Styles in place

A renderer hands a style one vector of slots, which hold bands at first and colours in the end. Here the
passes of a style work on that vector, a read or a write at a time, and every slot remembers whether the
pass has overwritten it. Reading such a slot stops the pass. No pass is ever stopped: each of them reads
whatever it needs before it writes, or it reads a slot just before writing the same one. So what is in
the slots in the end is what the style makes of the pixel as a whole.
-/
namespace RasterTile.InPlace

variable {α : Type}

structure Slot (α : Type) where
  value : α
  overwritten : Bool

/-- A pass over the slots of a pixel; nothing if it was stopped. -/
abbrev Pass (α β : Type) := StateT (List (Slot α)) Option β

def fresh (pixel : List α) : List (Slot α) := pixel.map (⟨·, false⟩)

def values (slots : List (Slot α)) : List α := slots.map Slot.value

def read? (i : Nat) : Pass α (Option α) := fun slots =>
  match slots[i]? with
  | none => some (none, slots)
  | some slot => if slot.overwritten then none else some (some slot.value, slots)

def read (i : Nat) : Pass α α := do
  let some x ← read? i | failure
  return x

def write (i : Nat) (x : α) : Pass α Unit := fun slots =>
  if i < slots.length then some ((), slots.set i ⟨x, true⟩) else none

def length : Pass α Nat := return (← get).length

def after (pass : Pass α Unit) (pixel : List α) : Option (List α) :=
  (pass.run (fresh pixel)).map fun end' => values end'.2

/-! ## Passes -/

section Presets

variable [Scalar α]

/-- The value of a band; a band without a slot reads as zero. -/
def band (bands : BandMap) (b : Band) : Pass α α :=
  match bands.position? b with
  | none => return 0
  | some i => return (← read? i).getD 0

def setColour (r g b : α) : Pass α Unit := do
  write 0 r
  write 1 g
  write 2 b

def colour (p : Preset) (bands : BandMap) : Pass α (α × α × α) :=
  match p with
  | .rgb => do
    let r ← band bands .red
    let g ← band bands .green
    let b ← band bands .blue
    return (r, g, b)
  | .gray => do
    let mean := ((← read 0) + (← read 1) + (← read 2)) / Scalar.nat 3
    return (mean, mean, mean)
  | .pending => do
    let tint := Scalar.decimal 3 1 * (← read 0) + Scalar.decimal 6 1 * (← read 1) +
      Scalar.decimal 1 1 * (← read 2)
    let v := Scalar.atMost (tint + Scalar.nat 100) (Scalar.nat 255)
    return (v, v, v)
  | .onlyRed => do
    let r ← band bands .red
    return (r, 0, 0)
  | .value => do
    let v ← read 0
    return (v, v, v)

def preset (p : Preset) (bands : BandMap) : Pass α Unit := do
  if (← length) < 4 then return
  let valid := Scalar.isNonzero (← band bands .alpha)
  let (r, g, b) ← colour p bands
  setColour r g b
  write 3 (Scalar.nat (if valid then p.opaqueAlpha else 0))

/-- Each slot from `i` on by its own function, as far as there are both. -/
def update (i : Nat) : List (α → α) → Pass α Unit
  | [] => return
  | f :: fs => do
    if i < (← length) then
      let x ← read i
      write i (f x)
      update (i + 1) fs

def transform (m : ColorMatrix α) : Pass α Unit := do
  if (← length) < 3 then return
  let r ← read 0
  let g ← read 1
  let b ← read 2
  setColour (r * m.red.red + g * m.green.red + b * m.blue.red + m.one.red)
    (r * m.red.green + g * m.green.green + b * m.blue.green + m.one.green)
    (r * m.red.blue + g * m.green.blue + b * m.blue.blue + m.one.blue)

/-- The preset, the curves, the scale and the colour matrix, one after another. -/
def configured (c : ConfiguredPreset α) (bands : BandMap) (pixel : List α) : Option (List α) := do
  let painted ← after (preset c.preset (c.readBands.getD bands)) pixel
  let stretched ← c.curves.elim (some painted) fun s =>
    after (update 0 ((s.curves.take 3).map fun curve x => curve.lookup x * s.top)) painted
  let scaled ← after (update 0 (List.replicate 3 (· * c.scale))) stretched
  c.color.elim (some scaled) fun m => after (transform m) scaled

end Presets

def output (c : LookupTable.Channel) : Pass Float Float := do
  let raw := (← read? c.position).getD 0
  have := c.index_lt raw
  return c.entries[c.index raw]

def table (b : LookupTable.Bound) : Pass Float Unit := do
  let red ← output b.red
  let green ← output b.green
  let blue ← output b.blue
  if 3 ≤ (← length) then setColour red green blue

def code (results : List Float) : Program.Code → Pass Float Float
  | .number x => return x
  | .slot i => return (← read? i).getD 0
  | .result i => return results[i]?.getD (Float.ofBits 0x7ff8000000000000)
  | .negate e => return -(← code results e)
  | .binary op l r => do
    let x ← code results l
    let y ← code results r
    return op.apply x y

def evaluate (known : List Float) : List Binding → Pass Float (List Float)
  | [] => return known
  | b :: rest => do
    let v ← code known b.code
    evaluate (known ++ [v]) rest

/-- Each slot from `i` on that has a new value, as far as there are slots. -/
def assign (i : Nat) : List (Option α) → Pass α Unit
  | [] => return
  | v :: vs => do
    if i < (← length) then
      match v with
      | none => pure ()
      | some x => write i x
      assign (i + 1) vs

def program (p : Program) : Pass Float Unit := do
  let results ← evaluate [] p.bindings
  let written (i : Nat) : Option Float := results[i]?.map Rounding.down
  assign 0 [written p.red, written p.green, written p.blue, p.alpha.bind written]

def style (bands : BandMap) (pixel : List Float) : Style → Option (List Float)
  | .preset c => configured c bands pixel
  | .program p => after (program p) pixel
  | .table b => after (table b) pixel

/-! ## Reading -/

section

variable {β γ : Type} {pixel : List α} {pass : Pass α β} {v : β}

/-- A pass that only reads, and what it reads from slots that have not been overwritten. -/
def Sees (pixel : List α) (pass : Pass α β) (v : β) : Prop :=
  pass.run (fresh pixel) = some (v, fresh pixel)

/-- After a pass that only reads, the slots are still fresh. -/
theorem Sees.bind (h : Sees pixel pass v) (f : β → Pass α γ) :
    (pass >>= f).run (fresh pixel) = (f v).run (fresh pixel) := by
  rw [StateT.run_bind, h]
  rfl

theorem Sees.then {f : β → Pass α γ} {w : γ} (h : Sees pixel pass v) (hf : Sees pixel (f v) w) :
    Sees pixel (pass >>= f) w := (h.bind f).trans hf

theorem sees_pure (v : β) : Sees pixel (pure v) v := rfl

@[simp] theorem getElem?_fresh (pixel : List α) (i : Nat) :
    (fresh pixel)[i]? = pixel[i]?.map (⟨·, false⟩) := by simp [fresh]

@[simp] theorem length_fresh (pixel : List α) : (fresh pixel).length = pixel.length := by simp [fresh]

theorem sees_read? (i : Nat) : Sees pixel (read? i) pixel[i]? := by
  change read? i (fresh pixel) = _
  rw [read?, getElem?_fresh]
  cases pixel[i]? <;> rfl

theorem sees_read {i : Nat} {x : α} (h : pixel[i]? = some x) : Sees pixel (read i) x := by
  refine (sees_read? i).then ?_
  rw [h]
  rfl

theorem sees_length : Sees pixel length pixel.length := by
  change some _ = some _
  rw [length_fresh]

end

section

variable [Scalar α] {pixel : List α}

theorem sees_band (bands : BandMap) (b : Band) : Sees pixel (band bands b) (bands.value pixel b) := by
  unfold band BandMap.value
  cases bands.position? b with
  | none => rfl
  | some i => exact (sees_read? i).then (sees_pure _)

theorem sees_colour (p : Preset) (bands : BandMap) {x y z : α} (hx : pixel[0]? = some x)
    (hy : pixel[1]? = some y) (hz : pixel[2]? = some z) :
    Sees pixel (colour p bands) (p.color bands pixel x y z) := by
  cases p with
  | rgb => exact (sees_band ..).then ((sees_band ..).then ((sees_band ..).then (sees_pure _)))
  | gray => exact (sees_read hx).then ((sees_read hy).then ((sees_read hz).then (sees_pure _)))
  | pending => exact (sees_read hx).then ((sees_read hy).then ((sees_read hz).then (sees_pure _)))
  | onlyRed => exact (sees_band ..).then (sees_pure _)
  | value => exact (sees_read hx).then (sees_pure _)

end

section

variable {pixel : List Float}

theorem sees_output (c : LookupTable.Channel) : Sees pixel (output c) (c.output pixel) :=
  (sees_read? c.position).then (sees_pure _)

/-- Code reads the slots as they were. -/
theorem sees_code (results : List Float) (c : Program.Code) :
    Sees pixel (code results c) (c.eval pixel results) := by
  induction c with
  | number x => exact sees_pure x
  | slot i => exact (sees_read? i).then (sees_pure _)
  | result i => exact sees_pure _
  | negate e ih => exact ih.then (sees_pure _)
  | binary op l r ihl ihr => exact ihl.then (ihr.then (sees_pure _))

theorem sees_evaluate (known : List Float) (bs : List Binding) :
    Sees pixel (evaluate known bs) (Program.evaluate pixel known bs) := by
  induction bs generalizing known with
  | nil => exact sees_pure known
  | cons b bs ih => exact (sees_code known b.code).then (ih _)

end

/-! ## Writing -/

theorem run_write {slots : List (Slot α)} {i : Nat} (h : i < slots.length) (x : α) :
    (write i x).run slots = some ((), slots.set i ⟨x, true⟩) := if_pos h

theorem run_setColour (r g b : α) (x y z : Slot α) (rest : List (Slot α)) :
    (setColour r g b).run (x :: y :: z :: rest) =
      some ((), ⟨r, true⟩ :: ⟨g, true⟩ :: ⟨b, true⟩ :: rest) := by
  simp [setColour, StateT.run_bind, run_write]

@[simp] theorem values_fresh (pixel : List α) : values (fresh pixel) = pixel := by
  rw [values, fresh, List.map_map]
  exact List.map_id pixel

theorem run_length (slots : List (Slot α)) : length.run slots = some (slots.length, slots) := rfl

theorem run_read {slots : List (Slot α)} {i : Nat} {x : α} (h : slots[i]? = some ⟨x, false⟩) :
    (read i).run slots = some (x, slots) := by
  have hread : (read? i).run slots = some (some x, slots) := by
    change read? i slots = _
    rw [read?, h]
    rfl
  rw [read, StateT.run_bind, hread]
  rfl

theorem run_write_next (done rest : List (Slot α)) (slot : Slot α) (x : α) :
    (write done.length x).run (done ++ slot :: rest) = some ((), (done ++ [⟨x, true⟩]) ++ rest) := by
  have hlt : done.length < (done ++ slot :: rest).length := by simp
  rw [run_write hlt, List.set_append_right _ _ le_rfl, Nat.sub_self, List.set_cons_zero,
    List.append_assoc]
  rfl

/-- A slot is read just before it is overwritten, and the slots before it are not read any more. -/
theorem run_update (fs : List (α → α)) (done : List (Slot α)) (pixel : List α) :
    ∃ end', (update done.length fs).run (done ++ fresh pixel) = some ((), done ++ end') ∧
      values end' = Pixel.overwrite pixel (List.zipWith (fun f x => some (f x)) fs pixel) := by
  induction fs generalizing done pixel with
  | nil => exact ⟨fresh pixel, rfl, by simp⟩
  | cons f fs ih =>
    rw [update, StateT.run_bind, run_length]
    cases pixel with
    | nil =>
      have hend : ¬ done.length < (done ++ fresh ([] : List α)).length := by simp [fresh]
      refine ⟨[], ?_, rfl⟩
      simp only [Option.bind_eq_bind, Option.bind_some, if_neg hend]
      rfl
    | cons x pixel =>
      have hlt : done.length < (done ++ fresh (x :: pixel)).length := by simp
      have hslot : (done ++ fresh (x :: pixel))[done.length]? = some ⟨x, false⟩ := by simp [fresh]
      obtain ⟨end', hrun, hvalues⟩ := ih (done ++ [⟨f x, true⟩]) pixel
      rw [List.length_append, List.length_singleton, List.append_assoc _ _ end'] at hrun
      refine ⟨⟨f x, true⟩ :: end', ?_, ?_⟩
      · simp only [Option.bind_eq_bind, Option.bind_some, if_pos hlt, StateT.run_bind, run_read hslot]
        change (write done.length (f x)).run (done ++ ⟨x, false⟩ :: fresh pixel) >>= _ = _
        rw [run_write_next]
        exact hrun
      · rw [List.zipWith_cons_cons, Pixel.overwrite, ← hvalues]
        rfl

/-- Writing does not look at the slots. -/
theorem run_assign (vs : List (Option α)) (done slots : List (Slot α)) :
    ∃ end', (assign done.length vs).run (done ++ slots) = some ((), done ++ end') ∧
      values end' = Pixel.overwrite (values slots) vs := by
  induction vs generalizing done slots with
  | nil => exact ⟨slots, rfl, by simp⟩
  | cons v vs ih =>
    rw [assign, StateT.run_bind, run_length]
    cases slots with
    | nil =>
      have hend : ¬ done.length < (done ++ ([] : List (Slot α))).length := by simp
      refine ⟨[], ?_, rfl⟩
      simp only [Option.bind_eq_bind, Option.bind_some, if_neg hend]
      rfl
    | cons slot slots =>
      have hlt : done.length < (done ++ slot :: slots).length := by simp
      simp only [Option.bind_eq_bind, Option.bind_some, if_pos hlt]
      cases v with
      | none =>
        obtain ⟨end', hrun, hvalues⟩ := ih (done ++ [slot]) slots
        rw [List.length_append, List.length_singleton, List.append_assoc _ _ end',
          List.append_assoc] at hrun
        refine ⟨slot :: end', hrun, ?_⟩
        change slot.value :: values end' = _
        rw [hvalues]
        rfl
      | some x =>
        obtain ⟨end', hrun, hvalues⟩ := ih (done ++ [⟨x, true⟩]) slots
        rw [List.length_append, List.length_singleton, List.append_assoc _ _ end'] at hrun
        refine ⟨⟨x, true⟩ :: end', ?_, ?_⟩
        · change ((write done.length x) >>= fun _ => assign (done.length + 1) vs).run _ = _
          rw [StateT.run_bind, run_write_next]
          exact hrun
        · change x :: values end' = _
          rw [hvalues]
          rfl

/-! ## Passes in place -/

theorem after_eq {pass : Pass α Unit} {pixel : List α} {end' : List (Slot α)}
    (h : pass.run (fresh pixel) = some ((), end')) : after pass pixel = some (values end') := by
  rw [after, h]
  rfl

/-- Going over the slots from the first one on gives each its own function. -/
theorem after_update (fs : List (α → α)) (pixel : List α) : after (update 0 fs) pixel =
    some (Pixel.overwrite pixel (List.zipWith (fun f x => some (f x)) fs pixel)) := by
  obtain ⟨end', hrun, hvalues⟩ := run_update fs [] pixel
  rw [← hvalues]
  exact after_eq hrun

section

variable [Scalar α]

/-- A preset reads all it needs before it writes. -/
theorem after_preset (p : Preset) (bands : BandMap) (pixel : List α) :
    after (preset p bands) pixel = some (p.apply bands pixel) := by
  by_cases hshort : pixel.length < 4
  · have hrun : (preset p bands).run (fresh pixel) = some ((), fresh pixel) := by
      rw [preset, sees_length.bind, if_pos hshort]
      rfl
    have hstays : p.apply bands pixel = pixel := by
      rcases pixel with _ | ⟨x, _ | ⟨y, _ | ⟨z, _ | ⟨a, rest⟩⟩⟩⟩
      · rfl
      · rfl
      · rfl
      · rfl
      · simp only [List.length_cons] at hshort
        omega
    rw [after_eq hrun, values_fresh, hstays]
  · obtain ⟨x, y, z, a, rest, rfl⟩ := Checked.exists_four (not_lt.1 hshort)
    have hcolour : Sees (x :: y :: z :: a :: rest) (colour p bands) _ :=
      sees_colour p bands rfl rfl rfl
    have hvalid : Sees (x :: y :: z :: a :: rest) (band bands .alpha) _ := sees_band ..
    rw [Preset.apply_cons]
    generalize p.color bands (x :: y :: z :: a :: rest) x y z = painted at hcolour
    obtain ⟨r, g, b⟩ := painted
    have hrun : (preset p bands).run (fresh (x :: y :: z :: a :: rest)) = some ((),
        ⟨r, true⟩ :: ⟨g, true⟩ :: ⟨b, true⟩ ::
        ⟨Scalar.nat (if Preset.isValid bands (x :: y :: z :: a :: rest) then p.opaqueAlpha else 0),
          true⟩ :: fresh rest) := by
      rw [preset, sees_length.bind, if_neg hshort, hvalid.bind, hcolour.bind, StateT.run_bind]
      change (setColour r g b).run
        (⟨x, false⟩ :: ⟨y, false⟩ :: ⟨z, false⟩ :: ⟨a, false⟩ :: fresh rest) >>= _ = _
      rw [run_setColour]
      exact run_write_next [⟨r, true⟩, ⟨g, true⟩, ⟨b, true⟩] (fresh rest) ⟨a, false⟩ _
    rw [after_eq hrun]
    exact congrArg (fun rest => some (r :: g :: b :: _ :: rest)) (values_fresh rest)

theorem after_transform (m : ColorMatrix α) (pixel : List α) :
    after (transform m) pixel = some (m.apply pixel) := by
  rcases pixel with _ | ⟨r, _ | ⟨g, _ | ⟨b, rest⟩⟩⟩
  · rfl
  · rfl
  · rfl
  · have hthree : ¬ (r :: g :: b :: rest).length < 3 := by simp
    have hrun : (transform m).run (fresh (r :: g :: b :: rest)) = some ((),
        ⟨r * m.red.red + g * m.green.red + b * m.blue.red + m.one.red, true⟩ ::
        ⟨r * m.red.green + g * m.green.green + b * m.blue.green + m.one.green, true⟩ ::
        ⟨r * m.red.blue + g * m.green.blue + b * m.blue.blue + m.one.blue, true⟩ :: fresh rest) := by
      rw [transform, sees_length.bind, if_neg hthree, (sees_read (i := 0) rfl).bind,
        (sees_read (i := 1) rfl).bind, (sees_read (i := 2) rfl).bind]
      exact run_setColour ..
    rw [after_eq hrun]
    exact congrArg (fun rest => some (_ :: _ :: _ :: rest)) (values_fresh rest)

theorem after_curves (s : CurveSet α) (pixel : List α) :
    after (update 0 ((s.curves.take 3).map fun curve x => curve.lookup x * s.top)) pixel =
      some (s.apply pixel) := by
  rw [after_update, List.zipWith_map_left]
  rfl

theorem after_rescale (factor : α) (pixel : List α) :
    after (update 0 (List.replicate 3 (· * factor))) pixel =
      some (ConfiguredPreset.rescale factor pixel) := by
  rw [after_update]
  rcases pixel with _ | ⟨r, _ | ⟨g, _ | ⟨b, rest⟩⟩⟩
  all_goals rfl

/-- The passes of a preset, its curves, its scale and its matrix do what the preset does. -/
theorem configured_eq (c : ConfiguredPreset α) (bands : BandMap) (pixel : List α) :
    configured c bands pixel = some (c.apply bands pixel) := by
  simp only [configured, after_preset, after_curves, after_rescale]
  unfold ConfiguredPreset.apply
  cases c.curves with
  | none =>
    cases c.color with
    | none => rfl
    | some m => exact after_transform m _
  | some s =>
    cases c.color with
    | none => rfl
    | some m => exact after_transform m _

end

/-- A table reads three slots before it writes any. -/
theorem after_table (b : LookupTable.Bound) (pixel : List Float) :
    after (table b) pixel = some (b.apply pixel) := by
  have hrun : (table b).run (fresh pixel) = (if 3 ≤ pixel.length then
      setColour (b.red.output pixel) (b.green.output pixel) (b.blue.output pixel)
      else pure ()).run (fresh pixel) := by
    rw [table, (sees_output b.red).bind, (sees_output b.green).bind, (sees_output b.blue).bind,
      sees_length.bind]
  rw [after, hrun]
  rcases pixel with _ | ⟨x, _ | ⟨y, _ | ⟨z, rest⟩⟩⟩
  · rfl
  · rfl
  · rfl
  · rw [if_pos (by simp)]
    change ((setColour _ _ _).run (⟨x, false⟩ :: ⟨y, false⟩ :: ⟨z, false⟩ :: fresh rest)).map _ = _
    rw [run_setColour]
    exact congrArg (fun rest => some (_ :: _ :: _ :: rest)) (values_fresh rest)

/-- A program writes after everything was evaluated. -/
theorem after_program (p : Program) (pixel : List Float) :
    after (program p) pixel = some (p.apply pixel) := by
  obtain ⟨end', hrun, hvalues⟩ := run_assign
    (let results := Program.evaluate pixel [] p.bindings
     let written (i : Nat) : Option Float := results[i]?.map Rounding.down
     [written p.red, written p.green, written p.blue, p.alpha.bind written]) [] (fresh pixel)
  rw [values_fresh] at hvalues
  have hprogram : (program p).run (fresh pixel) = some ((), end') := by
    rw [program, (sees_evaluate [] p.bindings).bind]
    exact hrun
  rw [after_eq hprogram, hvalues]
  rfl

/-- No pass of a style reads a slot that it has overwritten, and together they leave what the style makes
of the pixel. -/
theorem style_eq (bands : BandMap) (pixel : List Float) (s : Style) :
    style bands pixel s = some (s.apply bands pixel) := by
  cases s with
  | preset c => exact configured_eq c bands pixel
  | program p => exact after_program p pixel
  | table b => exact after_table b pixel

end RasterTile.InPlace

namespace RasterTile

/-! ## Owned slots -/

/-- The validity band marks a pixel if it has a slot there, which is neither zero nor a NaN. -/
theorem Preset.isValid_eq (bands : BandMap) (pixel : List Float) :
    Preset.isValid bands pixel =
      !((bands.position? .alpha).bind (pixel[·]?)).all fun x => x == 0 || x.isNaN := by
  rw [isValid, BandMap.value]
  cases (bands.position? .alpha).bind (pixel[·]?) with
  | none => rfl
  | some x => exact ExactValue.isNonzero_eq x

/-- A program leaves the slots after the fourth alone. -/
theorem Program.getElem?_apply_of_le (p : Program) (pixel : List Float) {i : Nat} (h : 4 ≤ i) :
    (p.apply pixel)[i]? = pixel[i]? :=
  Pixel.getElem?_overwrite_of_le _ _ i h

/-- Without a binding for alpha, its slot stays as it is. -/
theorem Program.getElem?_alpha_of_notMem {text : String} {ranges : List BandRange} {bands : BandMap}
    {p : Program} (h : Program.compile text ranges bands = .ok p) (halpha : "alpha" ∉ p.names)
    (pixel : List Float) : (p.apply pixel)[3]? = pixel[3]? := by
  obtain ⟨-, -, -, -, -, -, hlast⟩ := compile_eq_ok_iff.1 h
  rw [lastIndex?_eq_none_iff.2 halpha] at hlast
  rw [apply, Pixel.getElem?_overwrite, ← hlast]
  cases pixel[3]? <;> rfl

/-- A style of a pixel with at least four slots can do its work in the slots themselves, without reading
one that it has overwritten in the same pass, and it leaves the slots from the fifth on as they are. The
fourth is written by presets, from the validity band as the pixel had it, and by programs that bind
alpha. -/
theorem StyleSource.apply_in_place {source : StyleSource} {bands : BandMap} {style : Style}
    {pixel : List Float} (h : source.build bands = .ok style) (hfour : 4 ≤ pixel.length) :
    InPlace.style bands pixel style = some (style.apply bands pixel) ∧
    (∀ i, 4 ≤ i → (style.apply bands pixel)[i]? = pixel[i]?) ∧
    (∀ p options, source = .preset p options →
      (style.apply bands pixel)[3]? = some
        (if (((options.readBands.elim bands BandOrder.map).position? .alpha).bind (pixel[·]?)).all
            fun x => x == 0 || x.isNaN then 0
          else if p = .pending then 128 else 255)) ∧
    (∀ t ranges, source = .table t ranges → (style.apply bands pixel)[3]? = pixel[3]?) ∧
    (∀ text ranges program, source = .program text ranges → style = .program program →
      "alpha" ∉ program.names → (style.apply bands pixel)[3]? = pixel[3]?) := by
  refine ⟨InPlace.style_eq bands pixel style, ?_⟩
  cases source with
  | preset p options =>
    obtain ⟨c, hc, rfl⟩ := map_eq_ok_iff.1 h
    obtain ⟨hp, hread⟩ := Preset.configure_eq_ok hc
    obtain ⟨r, g, b, happly⟩ := c.apply_eq_cons bands hfour
    have hmap : c.readBands.getD bands = options.readBands.elim bands BandOrder.map := by
      rw [hread]
      cases options.readBands <;> rfl
    rw [Style.apply, happly, hmap, Preset.isValid_eq, hp]
    refine ⟨fun i hi => ?_, fun p' options' hsource => ?_, nofun, nofun⟩
    · obtain ⟨k, rfl⟩ := Nat.exists_eq_add_of_le' hi
      have hdrop : (pixel.drop 4)[k]? = pixel[4 + k]? := List.getElem?_drop
      rw [Nat.add_comm] at hdrop
      exact hdrop
    · cases hsource
      generalize Option.all _ _ = unmarked
      cases unmarked with
      | true => rfl
      | false => cases p <;> rfl
  | program text ranges =>
    rw [build] at h
    cases hcompile : Program.compile text ranges bands with
    | error e =>
      rw [hcompile] at h
      cases h
    | ok program =>
      rw [hcompile] at h
      cases h
      refine ⟨fun i hi => program.getElem?_apply_of_le pixel hi, nofun, nofun, ?_⟩
      intro text' ranges' program' hsource hprogram halpha
      cases hprogram
      exact Program.getElem?_alpha_of_notMem hcompile halpha pixel
  | table t ranges =>
    obtain ⟨b, -, rfl⟩ := map_eq_ok_iff.1 h
    exact ⟨fun i hi => b.getElem?_apply_of_le pixel (by omega), nofun,
      fun _ _ _ => b.getElem?_apply_of_le pixel le_rfl, nofun⟩

/-- Red and blue change places. -/
theorem StyleSource.apply_in_place_bgra :
    ∃ style, StyleSource.default.build (BandOrder.map [.blue, .green, .red, .alpha]) = .ok style ∧
      InPlace.style (BandOrder.map [.blue, .green, .red, .alpha]) [1, 2, 3, 4, 5] style =
        some [3, 2, 1, 255, 5] := by
  have hbuild : StyleSource.default.build (BandOrder.map [.blue, .green, .red, .alpha]) =
    .ok (.preset ⟨.rgb, none, none, Scalar.nat 255 / Scalar.nat 255, none⟩) := rfl
  refine ⟨_, hbuild, (StyleSource.apply_in_place hbuild (by decide)).1.trans ?_⟩
  decide +kernel

end RasterTile

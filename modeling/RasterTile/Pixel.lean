/-!
# Pixels

A pixel is a list of slots. On the way in the slots hold the band values of a tile in band order;
on the way out slots 0 to 3 hold red, green, blue and alpha. A style overwrites leading slots and
leaves the others alone.
-/
namespace RasterTile.Pixel

/-- New values for the leading slots; `none` leaves a slot as it is, and so does running out of
values. A pixel never grows. -/
def overwrite : List α → List (Option α) → List α
  | [], _ => []
  | xs, [] => xs
  | x :: xs, v :: vs => v.getD x :: overwrite xs vs

@[simp] theorem overwrite_nil (xs : List α) : overwrite xs [] = xs := by cases xs <;> rfl

@[simp] theorem length_overwrite (xs : List α) (vs : List (Option α)) :
    (overwrite xs vs).length = xs.length := by
  induction xs generalizing vs with
  | nil => rfl
  | cons x xs ih => cases vs <;> simp [overwrite, ih]

theorem getElem?_overwrite (xs : List α) (vs : List (Option α)) (i : Nat) :
    (overwrite xs vs)[i]? = xs[i]?.map ((vs[i]?.join).getD ·) := by
  induction xs generalizing vs i with
  | nil => rfl
  | cons x xs ih =>
    cases vs with
    | nil => simp
    | cons v vs => cases i <;> simp [overwrite, ih]

/-- A slot beyond the new values is left alone. -/
theorem getElem?_overwrite_of_le (xs : List α) (vs : List (Option α)) (i : Nat)
    (h : vs.length ≤ i) : (overwrite xs vs)[i]? = xs[i]? := by
  simp [getElem?_overwrite, List.getElem?_eq_none h]

/-- With a new value for each slot nothing of the old ones is left. -/
theorem overwrite_map_some {xs vs : List α} (h : xs.length = vs.length) :
    overwrite xs (vs.map some) = vs := by
  induction xs generalizing vs with
  | nil =>
    rw [List.eq_nil_of_length_eq_zero h.symm]
    rfl
  | cons x xs ih =>
    cases vs with
    | nil => cases h
    | cons v vs => rw [List.map_cons, overwrite, Option.getD_some, ih (Nat.succ.inj h)]

end RasterTile.Pixel

import RasterTile.Band
import Mathlib

/-!
# Where a band order has a letter

The map of an order answers with the first position of a letter, as long as a byte can hold it: letters
that come after the first 256 bands only are missing from it. An order that names each band once has at
most as many of them as there are letters, so its map knows all positions. Two such orders of the same
bands differ in where a band stands, and in nothing else.
-/
namespace RasterTile.BandMap

theorem entry_eq_none {i : Nat} (h : 256 ≤ i) : entry i = none := if_neg (by omega)

theorem map_toNat_entry (i : Nat) : (entry i).map UInt8.toNat = if i < 256 then some i else none := by
  by_cases h : i < 256
  · simp [entry, h, Nat.mod_eq_of_lt h]
  · simp [entry, h]

theorem get_set_same {α : Type} (table : Vector α 26) (p : Fin 26) (x : α) :
    (table.set p x).get p = x := by simp [Vector.get_eq_getElem]

theorem get_set_other {α : Type} (table : Vector α 26) {p q : Fin 26} (x : α) (h : p ≠ q) :
    (table.set p x).get q = table.get q := by
  have hval : p.val ≠ q.val := fun hv => h (Fin.ext hv)
  simp [Vector.get_eq_getElem, hval]

/-- Entering an order fills a free place with the first position of its letter. -/
theorem enter_place (order : List Band) (b : Band) :
    ∀ (i : Nat) (table : Vector (Option UInt8) 26), (enter i order table).get b.place =
      (table.get b.place).or ((order.idxOf? b).bind fun k => entry (i + k)) := by
  induction order with
  | nil =>
    intro i table
    simp [enter]
  | cons c order ih =>
    intro i table
    rw [enter, ih, List.idxOf?_cons]
    by_cases hc : c = b
    · subst hc
      rw [get_set_same]
      simp only [beq_self_eq_true, if_true, Option.bind_some, Nat.add_zero]
      change ((table.get c.place).or (entry i)).or _ = _
      by_cases hi : i < 256
      · simp [entry, hi]
      · have hlater : (order.idxOf? c).bind (fun k => entry (i + 1 + k)) = none := by
          cases order.idxOf? c with
          | none => rfl
          | some k => exact entry_eq_none (by omega)
        rw [hlater, Option.or_none]
    · have hplace : c.place ≠ b.place := fun h => hc (Band.place_injective h)
      rw [get_set_other _ _ hplace]
      simp [hc, Option.bind_map, Nat.add_assoc, Nat.add_comm 1]

/-- The map has the first position of a band, if it is a byte. -/
theorem position?_ofOrder (order : BandOrder) (b : Band) :
    (ofOrder order).position? b = (order.idxOf? b).bind fun i => if i < 256 then some i else none := by
  have h := enter_place order b 0 (Vector.replicate 26 none)
  simp only [Nat.zero_add] at h
  have hempty : (Vector.replicate 26 (none : Option UInt8)).get b.place = none := by
    simp [Vector.get_eq_getElem]
  change ((enter 0 order (Vector.replicate 26 none)).get b.place).map UInt8.toNat = _
  rw [h, hempty, Option.none_or]
  cases order.idxOf? b with
  | none => rfl
  | some i => simp [map_toNat_entry]

/-- A band that the map has is first found at its position in the order. -/
theorem idxOf?_of_position? {order : BandOrder} {b : Band} {i : Nat}
    (h : (ofOrder order).position? b = some i) : order.idxOf? b = some i := by
  rw [position?_ofOrder, Option.bind_eq_some_iff] at h
  obtain ⟨k, hk, hi⟩ := h
  by_cases hlt : k < 256
  · rw [if_pos hlt] at hi
    rw [hk, hi]
  · rw [if_neg hlt] at hi
    cases hi

/-- The map of an order answers with positions in it. -/
theorem position?_lt {order : BandOrder} {b : Band} {i : Nat}
    (h : (ofOrder order).position? b = some i) : i < order.length := by
  have hindex := idxOf?_of_position? h
  rw [List.idxOf?, List.findIdx?_eq_some_iff_getElem] at hindex
  exact hindex.1

/-- In an order that a byte can count, every band has the position where it is first. -/
theorem position?_of_length {order : BandOrder} (h : order.length ≤ 256) (b : Band) :
    (ofOrder order).position? b = order.idxOf? b := by
  rw [position?_ofOrder]
  cases hi : order.idxOf? b with
  | none => rfl
  | some i =>
    obtain ⟨hlt, -⟩ := List.idxOf?_eq_some_iff.1 hi
    exact if_pos (by omega)

theorem length_le_of_nodup {order : BandOrder} (h : order.Nodup) : order.length ≤ 26 := by
  have hplaces : (List.map Band.place order).Nodup := h.map fun _ _ => Band.place_injective
  simpa using hplaces.length_le_card

/-- An order without repetition fits the map. -/
theorem position?_of_nodup {order : BandOrder} (h : order.Nodup) (b : Band) :
    (ofOrder order).position? b = order.idxOf? b :=
  position?_of_length ((length_le_of_nodup h).trans (by decide)) b

/-- A map knows the first 256 bands of an order, and has nothing on those after them. -/
theorem position?_eq_idxOf?_take (order : BandOrder) (b : Band) :
    (ofOrder order).position? b = (order.take 256).idxOf? b := by
  rw [position?_ofOrder, List.idxOf?, List.findIdx?_take]
  refine congrArg _ (funext fun i => ?_)
  by_cases hi : i < 256
  · simp [Option.guard, hi]
  · simp [Option.guard, hi]

/-- A position is that of a band's first occurrence: the band stands there, and nowhere before. -/
theorem position?_eq_some_iff {order : BandOrder} {b : Band} {i : Nat} :
    (ofOrder order).position? b = some i ↔
      i < 256 ∧ order[i]? = some b ∧ ∀ j < i, order[j]? ≠ some b := by
  rw [position?_eq_idxOf?_take, List.idxOf?_eq_some_iff]
  constructor
  · rintro ⟨hi, hb, hbefore⟩
    obtain ⟨hcut, hlt⟩ := lt_min_iff.1 (List.length_take ▸ hi)
    rw [List.getElem_take] at hb
    refine ⟨hcut, by rw [List.getElem?_eq_getElem hlt, hb], fun j hj hjb => hbefore j hj ?_⟩
    rw [List.getElem_take]
    exact Option.some.inj ((List.getElem?_eq_getElem (hj.trans hlt)).symm.trans hjb)
  · rintro ⟨hcut, hb, hbefore⟩
    obtain ⟨hlt, hb⟩ := List.getElem?_eq_some_iff.1 hb
    refine ⟨List.length_take ▸ lt_min hcut hlt, by rw [List.getElem_take, hb], fun j hj hjb => ?_⟩
    rw [List.getElem_take] at hjb
    exact hbefore j hj (by rw [List.getElem?_eq_getElem (hj.trans hlt), hjb])

/-- The map of an order answers with the first position of a letter among its first 256 bands. What it
answers is a position in the order, where the letter stands for the first time. So it knows the letters
of a short order and no others; in a long one it misses those that come late, and only those. -/
theorem position?_is_first (order : BandOrder) (b : Band) :
    (ofOrder order).position? b = (order.take 256).idxOf? b ∧
    (((ofOrder order).position? b).isSome = true ↔ b ∈ order.take 256) ∧
    (∀ i, (ofOrder order).position? b = some i →
      i < (ofOrder order).count ∧ order[i]? = some b ∧ ∀ j < i, order[j]? ≠ some b) ∧
    ((ofOrder order).position? b = order.idxOf? b ↔ (b ∈ order → b ∈ order.take 256)) ∧
    (order.length ≤ 256 → (ofOrder order).position? b = order.idxOf? b ∧
      (((ofOrder order).position? b).isSome = true ↔ b ∈ order)) := by
  have hsome : ((ofOrder order).position? b).isSome = true ↔ b ∈ order.take 256 := by
    rw [position?_eq_idxOf?_take, List.isSome_idxOf?]
  refine ⟨position?_eq_idxOf?_take order b, hsome, fun i hi => ?_, ⟨fun heq hb => ?_, fun hb => ?_⟩,
    fun hshort => ⟨position?_of_length hshort b, ?_⟩⟩
  · exact ⟨position?_lt hi, (position?_eq_some_iff.1 hi).2⟩
  · rwa [← hsome, heq, List.isSome_idxOf?]
  · by_cases hknown : b ∈ order.take 256
    · obtain ⟨i, hi⟩ := Option.isSome_iff_exists.1 (hsome.2 hknown)
      rw [hi, idxOf?_of_position? hi]
    · have hmissing : order.idxOf? b = none := List.idxOf?_eq_none_iff.2 (mt hb hknown)
      rw [position?_ofOrder, hmissing, Option.bind_none]
  · rw [hsome, List.take_of_length_le hshort]

/-- An order that has red twice and no near infrared. -/
theorem position?_is_first_redTwice :
    let order : BandOrder := [.blue, .green, .red, .alpha, .red]
    (2 < (ofOrder order).count ∧ order[2]? = some .red ∧ ∀ j < 2, order[j]? ≠ some .red) ∧
    (ofOrder order).position? .red = some 2 ∧
    (((ofOrder order).position? ⟨'n', by decide⟩).isSome = true ↔ ⟨'n', by decide⟩ ∈ order) := by
  intro order
  obtain ⟨-, -, hfirst, -, hshort⟩ := position?_is_first order .red
  obtain ⟨-, -, -, -, hother⟩ := position?_is_first order ⟨'n', by decide⟩
  have hposition : (ofOrder order).position? .red = some 2 := (hshort (by decide)).1
  exact ⟨hfirst 2 hposition, hposition, (hother (by decide)).2⟩

/-- Red after 256 blue bands is in the order, and the map does not have it. -/
theorem position?_misses_late :
    let order : BandOrder := List.replicate 256 .blue ++ [.red]
    Band.red ∈ order ∧ order.idxOf? .red = some 256 ∧ (ofOrder order).position? .red = none := by
  decide +kernel

end RasterTile.BandMap

namespace RasterTile.BandOrder

/-- The same bands in another order, each of them once. -/
structure Rearranges (order order' : BandOrder) : Prop where
  nodup : order.Nodup
  perm : order.Perm order'

/-- Lists that go along with two orders: where the orders have the same band, the lists have the same
entry. -/
def Aligned {α : Type} (order order' : BandOrder) (xs ys : List α) : Prop :=
  ∀ (b : Band) (i j : Nat), order[i]? = some b → order'[j]? = some b → xs[i]? = ys[j]?

variable {α : Type} {order order' : BandOrder} {xs ys : List α}

theorem Rearranges.symm (h : order.Rearranges order') : order'.Rearranges order :=
  ⟨h.perm.nodup_iff.1 h.nodup, h.perm.symm⟩

theorem Aligned.symm (h : order.Aligned order' xs ys) : order'.Aligned order ys xs :=
  fun b i j hi hj => (h b j i hj hi).symm

/-- A band has a position in both orders or in neither. -/
theorem Rearranges.idxOf? (h : order.Rearranges order') (b : Band) :
    (order.idxOf? b = none ∧ order'.idxOf? b = none) ∨
      ∃ i j, order.idxOf? b = some i ∧ order'.idxOf? b = some j ∧
        order[i]? = some b ∧ order'[j]? = some b := by
  have hfound {bands : BandOrder} {i : Nat} (hi : bands.idxOf? b = some i) : bands[i]? = some b := by
    obtain ⟨hlt, hb, -⟩ := List.idxOf?_eq_some_iff.1 hi
    rw [List.getElem?_eq_getElem hlt, hb]
  cases hi : order.idxOf? b with
  | none =>
    have hmissing : b ∉ order' := fun hb => List.idxOf?_eq_none_iff.1 hi (h.perm.mem_iff.2 hb)
    exact .inl ⟨rfl, List.idxOf?_eq_none_iff.2 hmissing⟩
  | some i =>
    have hb : b ∈ order' := h.perm.mem_iff.1 (List.mem_of_getElem? (hfound hi))
    cases hj : order'.idxOf? b with
    | none => exact absurd hb (List.idxOf?_eq_none_iff.1 hj)
    | some j => exact .inr ⟨i, j, rfl, rfl, hfound hi, hfound hj⟩

/-- A band is in both orders or in none, and the same bands stand at its positions. -/
theorem Rearranges.position? (h : order.Rearranges order') (b : Band) :
    (order.map.position? b = none ∧ order'.map.position? b = none) ∨
      ∃ i j, order.map.position? b = some i ∧ order'.map.position? b = some j ∧
        order[i]? = some b ∧ order'[j]? = some b := by
  have hleft := BandMap.position?_of_nodup h.nodup b
  have hright := BandMap.position?_of_nodup h.symm.nodup b
  rw [map, map, hleft, hright]
  exact h.idxOf? b

/-- A band has the same value in pixels that go along with the orders. -/
theorem Rearranges.value_eq [Zero α] (h : order.Rearranges order')
    (halign : order.Aligned order' xs ys) (b : Band) : order.map.value xs b = order'.map.value ys b := by
  unfold BandMap.value
  rcases h.position? b with ⟨hi, hj⟩ | ⟨i, j, hi, hj, hb, hb'⟩
  · rw [hi, hj]
    rfl
  · rw [hi, hj, Option.bind_some, Option.bind_some, halign b i j hb hb']

end RasterTile.BandOrder

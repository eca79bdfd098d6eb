import RasterTile.Stretch
import RasterTile.Proofs.ExtendedValue

/-!
# Where a scan stops

A scan over buckets with their values stops at the first bucket that is not empty and with which the
running count exceeds the threshold. Scanning a band upwards the running count is that of all smaller
values, scanning downwards that of all larger ones: the low bound of a band is the least value
reached from below, and the high bound the greatest value reached from above.
-/
namespace RasterTile.Histogram

variable {t : Float} {total : Nat} {cells : List (Bucket × Nat)}

def cellMass (cells : List (Bucket × Nat)) : Nat := ((cells.map Prod.fst).map Counter.val).sum

@[simp] theorem cellMass_cons (c : Bucket × Nat) (cells : List (Bucket × Nat)) :
    cellMass (c :: cells) = c.1.val + cellMass cells := rfl

def Crosses (t : Float) (total : Nat) (cells : List (Bucket × Nat)) (i : Nat) : Prop :=
  ∃ c, cells[i]? = some c ∧ 0 < c.1.val ∧ t < Float.ofNat (total + cellMass (cells.take (i + 1)))

theorem crosses_zero {c : Bucket × Nat} :
    Crosses t total (c :: cells) 0 ↔ 0 < c.1.val ∧ t < Float.ofNat (total + c.1.val) := by
  simp [Crosses, cellMass]

theorem crosses_succ {c : Bucket × Nat} {i : Nat} :
    Crosses t total (c :: cells) (i + 1) ↔ Crosses t (total + c.1.val) cells i := by
  simp [Crosses, Nat.add_assoc]

/-- What a scan does at one bucket. An empty one adds nothing. -/
theorem firstCrossing_cons (c : Bucket × Nat) :
    firstCrossing t total (c :: cells) =
      if 0 < c.1.val ∧ t < Float.ofNat (total + c.1.val) then
        if c.2 < UInt32.size then some (UInt32.ofNat c.2) else none
      else firstCrossing t (total + c.1.val) cells := by
  obtain ⟨n, value⟩ := c
  rw [firstCrossing]
  by_cases hn : n.val = 0
  · simp only [hn, if_pos, Nat.lt_irrefl, false_and, if_false, Nat.add_zero]
  · simp only [if_neg hn, Nat.pos_of_ne_zero hn, true_and]

theorem bound_eq_some_iff {value : Nat} {v : UInt32} :
    (if value < UInt32.size then some (UInt32.ofNat value) else none) = some v ↔
      value = v.toNat := by
  split_ifs with hfits
  · rw [Option.some_inj]
    constructor
    · rintro rfl
      exact (UInt32.toNat_ofNat_of_lt' hfits).symm
    · rintro rfl
      exact UInt32.ofNat_toNat
  · have hv := v.toNat_lt_size
    simp only [false_iff]
    omega

/-- The least of the positions after one that does not count. -/
theorem isLeast_succ {p : Nat → Prop} (h : ¬ p 0) {i : Nat} :
    IsLeast {i | p i} (i + 1) ↔ IsLeast {i | p (i + 1)} i := by
  constructor
  · rintro ⟨hi, hleast⟩
    exact ⟨hi, fun j hj => Nat.le_of_succ_le_succ (hleast hj)⟩
  · rintro ⟨hi, hleast⟩
    refine ⟨hi, fun j hj => ?_⟩
    cases j with
    | zero => exact absurd hj h
    | succ j => exact Nat.succ_le_succ (hleast hj)

/-- A scan stops at the first position at which it can, and gives the value there. -/
theorem firstCrossing_eq_some_iff {v : UInt32} :
    firstCrossing t total cells = some v ↔
      ∃ i, IsLeast {i | Crosses t total cells i} i ∧ cells[i]?.map Prod.snd = some v.toNat := by
  induction cells generalizing total with
  | nil => simp [firstCrossing]
  | cons c cells ih =>
    rw [firstCrossing_cons]
    by_cases hstop : 0 < c.1.val ∧ t < Float.ofNat (total + c.1.val)
    · have hleast : IsLeast {i | Crosses t total (c :: cells) i} 0 :=
        ⟨crosses_zero.2 hstop, fun _ _ => Nat.zero_le _⟩
      rw [if_pos hstop, bound_eq_some_iff]
      constructor
      · intro hv
        exact ⟨0, hleast, congrArg some hv⟩
      · rintro ⟨i, hi, hv⟩
        rw [hi.unique hleast] at hv
        exact Option.some.inj hv
    · have hgo : ¬ Crosses t total (c :: cells) 0 := mt crosses_zero.1 hstop
      rw [if_neg hstop, ih]
      constructor
      · rintro ⟨i, hi, hv⟩
        refine ⟨i + 1, (isLeast_succ hgo).2 ?_, hv⟩
        simpa only [crosses_succ] using hi
      · rintro ⟨i, hi, hv⟩
        cases i with
        | zero => exact absurd hi.1 hgo
        | succ i =>
          refine ⟨i, ?_, hv⟩
          simpa only [crosses_succ] using (isLeast_succ hgo).1 hi

/-- A scan finds nothing if there is no pixel, or if all of them together do not exceed the
threshold. -/
theorem firstCrossing_eq_none_iff (hvalues : ∀ c ∈ cells, c.2 < UInt32.size) :
    firstCrossing t total cells = none ↔
      cellMass cells = 0 ∨ ¬ t < Float.ofNat (total + cellMass cells) := by
  induction cells generalizing total with
  | nil => simp [firstCrossing, cellMass]
  | cons c cells ih =>
    rw [List.forall_mem_cons] at hvalues
    rw [firstCrossing_cons, cellMass_cons, ← Nat.add_assoc]
    split_ifs with hstop hvalue
    · have hall := ExactValue.lt_ofNat_of_le hstop.2
        (Nat.le_add_right (total + c.1.val) (cellMass cells))
      simp only [false_iff, not_or, not_not]
      exact ⟨by omega, hall⟩
    · exact absurd hvalues.1 hvalue
    · rw [ih hvalues.2]
      constructor
      · rintro (hempty | hlow)
        · by_cases hn : c.1.val = 0
          · exact Or.inl (by omega)
          · refine Or.inr fun hreached => hstop ⟨Nat.pos_of_ne_zero hn, ?_⟩
            rwa [hempty, Nat.add_zero] at hreached
        · exact Or.inr hlow
      · rintro (hempty | hlow)
        · exact Or.inl (by omega)
        · exact Or.inr hlow

/-- The same scan with a running total of 64 bits: nothing if the total does not fit. -/
def checkedCrossing? (threshold : Float) (total : Nat) : List (Bucket × Nat) → Option (Option UInt32)
  | [] => some none
  | (n, value) :: rest =>
    if n.val = 0 then checkedCrossing? threshold total rest
    else if total + n.val < UInt64.size then
      if threshold < Float.ofNat (total + n.val) then
        some (if value < UInt32.size then some (UInt32.ofNat value) else none)
      else checkedCrossing? threshold (total + n.val) rest
    else none

/-- As long as all pixels together fit 64 bits, checking the total makes no difference. -/
theorem checkedCrossing?_eq (h : total + cellMass cells < UInt64.size) :
    checkedCrossing? t total cells = some (firstCrossing t total cells) := by
  induction cells generalizing total with
  | nil => rfl
  | cons c cells ih =>
    obtain ⟨n, value⟩ := c
    simp only [cellMass_cons, ← Nat.add_assoc] at h
    rw [checkedCrossing?, firstCrossing]
    have hfits : total + n.val < UInt64.size := by omega
    split_ifs with hn hstop hvalue
    · exact ih (by omega)
    · rfl
    · rfl
    · exact ih h

/-! ## The scans of a band -/

variable {buckets : Array Bucket}

def mass (buckets : Array Bucket) : Nat := (buckets.toList.map Counter.val).sum

/-- The pixels with a value or a smaller one. -/
def countTo (buckets : Array Bucket) (v : Nat) : Nat :=
  ((buckets.toList.take (v + 1)).map Counter.val).sum

/-- The pixels with a value or a larger one. -/
def countFrom (buckets : Array Bucket) (v : Nat) : Nat :=
  ((buckets.toList.drop v).map Counter.val).sum

/-- A value that pixels have is reached from below: those up to it exceed the threshold. -/
def ReachedUp (t : Float) (buckets : Array Bucket) (v : Nat) : Prop :=
  ∃ n, buckets[v]? = some n ∧ 0 < n.val ∧ t < Float.ofNat (countTo buckets v)

/-- A value that pixels have is reached from above: those from it on exceed the threshold. -/
def ReachedDown (t : Float) (buckets : Array Bucket) (v : Nat) : Prop :=
  ∃ n, buckets[v]? = some n ∧ 0 < n.val ∧ t < Float.ofNat (countFrom buckets v)

/-- Scanned from below, the scan can stop at a value that is reached. -/
theorem crosses_zipIdx {i : Nat} :
    Crosses t 0 buckets.toList.zipIdx i ↔ ReachedUp t buckets i := by
  rw [Crosses, cellMass, List.map_take, List.zipIdx_map_fst, List.getElem?_zipIdx,
    Array.getElem?_toList, Nat.zero_add]
  cases hn : buckets[i]? with
  | none => simp [ReachedUp, hn]
  | some n => simp [ReachedUp, hn, countTo]

/-- The position of a value counted from the other end. -/
theorem crosses_reverse_zipIdx {v : Nat} (hv : v < buckets.size) :
    Crosses t 0 buckets.toList.zipIdx.reverse (buckets.size - 1 - v) ↔
      ReachedDown t buckets v := by
  have hi : buckets.size - 1 - v < buckets.toList.zipIdx.length := by
    rw [List.length_zipIdx, Array.length_toList]
    omega
  have hback : buckets.toList.zipIdx.length - 1 - (buckets.size - 1 - v) = v := by
    rw [List.length_zipIdx, Array.length_toList]
    omega
  have hrest : buckets.toList.length - (buckets.size - 1 - v + 1) = v := by
    rw [Array.length_toList]
    omega
  rw [Crosses, cellMass, List.map_take, List.map_reverse, List.zipIdx_map_fst, List.take_reverse,
    hrest, List.map_reverse, List.sum_reverse, List.getElem?_reverse hi, hback,
    List.getElem?_zipIdx, Array.getElem?_toList, Nat.zero_add]
  cases hn : buckets[v]? with
  | none => simp [ReachedDown, hn]
  | some n => simp [ReachedDown, hn, countFrom]

variable {low high : Float} {v : UInt32}

/-- The low bound is the least value reached from below. -/
theorem low_eq_some_iff :
    (range low high buckets).low = some v ↔ IsLeast {v | ReachedUp low buckets v} v.toNat := by
  have hsnd (i : Nat) : buckets.toList.zipIdx[i]?.map Prod.snd = buckets[i]?.map fun _ => i := by
    rw [List.getElem?_zipIdx, Array.getElem?_toList, Option.map_map, Nat.zero_add]
    rfl
  simp only [range, firstCrossing_eq_some_iff, crosses_zipIdx, hsnd]
  constructor
  · rintro ⟨i, hi, hv⟩
    obtain ⟨n, hn, -⟩ := hi.1
    rw [hn] at hv
    cases hv
    exact hi
  · intro h
    obtain ⟨n, hn, -⟩ := h.1
    exact ⟨v.toNat, h, by rw [hn]; rfl⟩

theorem ReachedDown.lt_size {v : Nat} (h : ReachedDown t buckets v) : v < buckets.size := by
  obtain ⟨n, hn, -⟩ := h
  exact (Array.getElem?_eq_some_iff.1 hn).1

theorem snd_reverse_zipIdx {i v : Nat} :
    buckets.toList.zipIdx.reverse[i]?.map Prod.snd = some v ↔
      v < buckets.size ∧ i = buckets.size - 1 - v := by
  have hlength : buckets.toList.zipIdx.length = buckets.size := by
    rw [List.length_zipIdx, Array.length_toList]
  by_cases hi : i < buckets.size
  · rw [List.getElem?_reverse (by rwa [hlength]), hlength, ← List.getElem?_map,
      List.zipIdx_map_snd, Array.length_toList, List.getElem?_range' (by omega), Option.some_inj]
    omega
  · rw [List.getElem?_eq_none (by rw [List.length_reverse, hlength]; omega)]
    simp only [Option.map_none, reduceCtorEq, false_iff]
    omega

/-- The high bound is the greatest value reached from above. -/
theorem high_eq_some_iff :
    (range low high buckets).high = some v ↔
      IsGreatest {v | ReachedDown high buckets v} v.toNat := by
  simp only [range, firstCrossing_eq_some_iff, snd_reverse_zipIdx]
  constructor
  · rintro ⟨i, ⟨hi, hleast⟩, hv, rfl⟩
    refine ⟨(crosses_reverse_zipIdx hv).1 hi, fun w hw => ?_⟩
    have hle := hleast ((crosses_reverse_zipIdx hw.lt_size).2 hw)
    have hlt := hw.lt_size
    omega
  · rintro ⟨hreached, hgreatest⟩
    have hv := hreached.lt_size
    refine ⟨_, ⟨(crosses_reverse_zipIdx hv).2 hreached, fun i hi => ?_⟩, hv, rfl⟩
    obtain ⟨c, hc, -⟩ := id hi
    obtain ⟨hw, rfl⟩ := snd_reverse_zipIdx.1 (congrArg (Option.map Prod.snd) hc)
    have hle := hgreatest ((crosses_reverse_zipIdx hw).1 hi)
    omega

theorem mass_eq_zero_iff : mass buckets = 0 ↔ ∀ n ∈ buckets, n.val = 0 := by
  rw [mass, List.sum_eq_zero_iff, List.forall_mem_map]
  simp only [Array.mem_toList_iff]

theorem cellMass_zipIdx : cellMass buckets.toList.zipIdx = mass buckets := by
  rw [cellMass, List.zipIdx_map_fst, mass]

theorem cellMass_reverse (cells : List (Bucket × Nat)) : cellMass cells.reverse = cellMass cells := by
  rw [cellMass, List.map_reverse, List.map_reverse, List.sum_reverse, cellMass]

theorem value_lt_of_mem_zipIdx (hsize : buckets.size ≤ UInt32.size) {c : Bucket × Nat}
    (hc : c ∈ buckets.toList.zipIdx) : c.2 < UInt32.size := by
  have h := List.snd_lt_of_mem_zipIdx hc
  rw [Array.length_toList, Nat.add_zero] at h
  omega

/-- The low bound is missing if the band has no pixel, or too few. -/
theorem low_eq_none_iff (hsize : buckets.size ≤ UInt32.size) :
    (range low high buckets).low = none ↔
      mass buckets = 0 ∨ ¬ low < Float.ofNat (mass buckets) := by
  rw [range, firstCrossing_eq_none_iff fun c hc => value_lt_of_mem_zipIdx hsize hc, cellMass_zipIdx,
    Nat.zero_add]

/-- There is no high bound without pixels, or if they do not exceed the threshold. -/
theorem high_eq_none_iff (hsize : buckets.size ≤ UInt32.size) :
    (range low high buckets).high = none ↔
      mass buckets = 0 ∨ ¬ high < Float.ofNat (mass buckets) := by
  rw [range, firstCrossing_eq_none_iff fun c hc =>
    value_lt_of_mem_zipIdx hsize (List.mem_reverse.1 hc), cellMass_reverse, cellMass_zipIdx,
    Nat.zero_add]

/-! ## The width of the running total -/

/-- A band of at most `2 ^ 32` buckets, each of 32 bits, does not have `2 ^ 64` pixels. -/
theorem mass_lt (hsize : buckets.size ≤ UInt32.size) : mass buckets < UInt64.size := by
  have hbound := List.sum_le_card_nsmul (buckets.toList.map Counter.val) (UInt32.size - 1) (by
    simp only [List.mem_map]
    rintro _ ⟨n, -, rfl⟩
    exact n.val_le)
  have hlength : (buckets.toList.map Counter.val).length ≤ UInt32.size := by simpa using hsize
  calc mass buckets ≤ (buckets.toList.map Counter.val).length * (UInt32.size - 1) := hbound
    _ ≤ UInt32.size * (UInt32.size - 1) := Nat.mul_le_mul_right _ hlength
    _ < UInt64.size := by decide

/-- Neither scan of a band has a running total that does not fit. -/
theorem checkedCrossing?_band (hsize : buckets.size ≤ UInt32.size) (t : Float) :
    checkedCrossing? t 0 buckets.toList.zipIdx = some (firstCrossing t 0 buckets.toList.zipIdx) ∧
      checkedCrossing? t 0 buckets.toList.zipIdx.reverse =
        some (firstCrossing t 0 buckets.toList.zipIdx.reverse) := by
  have hmass := mass_lt hsize
  constructor
  · refine checkedCrossing?_eq ?_
    rwa [cellMass_zipIdx, Nat.zero_add]
  · refine checkedCrossing?_eq ?_
    rwa [cellMass_reverse, cellMass_zipIdx, Nat.zero_add]

end RasterTile.Histogram

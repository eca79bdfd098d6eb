import RasterTile.Json
import RasterTile.Proofs.SinglePrecision

/-!
# Values that are read back as they were written

A reader recovers a value when it gives that value again for what the writer made of it. This goes from
values to lists and to optional values, provided that the reader does not accept a null, and from the
fields of a record to the record, provided that no two of them have the same name. A written value is
also readable throughout, and its depth follows the depths of its parts.
-/
namespace RasterTile.Json

variable {α β : Type} {read : Json → Option α} {write : α → Json} {v : Json} {n limit : Nat} {x : Float}

theorem mapM_map_eq_some {f : β → Option α} {g : γ → β} {k : γ → α} {xs : List γ}
    (h : ∀ x ∈ xs, f (g x) = some (k x)) : (xs.map g).mapM f = some (xs.map k) := by
  induction xs with
  | nil => rfl
  | cons x xs ih =>
    rw [List.map_cons, List.mapM_cons, h x (by simp), ih fun y hy => h y (by simp [hy])]
    rfl

/-! ## Numbers -/

theorem nat?_ofNat (h : n < limit) : nat? limit (ofNat n) = some n := by
  have hbounds : 0 ≤ (n : Int) ∧ (n : Int) < limit := by omega
  exact if_pos hbounds

theorem ofFloat_eq (h : x.isFinite = true) : ofFloat x = .real x := if_pos h

theorem float?_ofFloat (h : x.isFinite = true) : float? (ofFloat x) = some x := by
  rw [ofFloat_eq h]
  rfl

/-- A single is written as the double that it is, and rounding finds it again. -/
theorem single?_ofFloat (hsingle : Rounding.IsSingle x) (h : x.isFinite = true) :
    single? (ofFloat x) = some x := by
  obtain ⟨bits, rfl⟩ := hsingle
  rw [ofFloat_eq h, single?, Rounding.single_ofSingle h]

/-! ## Lists and optional values -/

/-- A list reads back if its items do. -/
theorem list?_ofList {xs : List α} (h : ∀ x ∈ xs, read (write x) = some x) :
    list? read (ofList write xs) = some xs := by
  have hitems := mapM_map_eq_some (k := id) h
  rwa [List.map_id] at hitems

/-- A reader that refuses a null cannot take a value for a missing one. -/
theorem nullable?_eq_some (hnull : read .null = none) {a : α} (h : read v = some a) :
    nullable? read v = some (some a) := by
  cases v with
  | null =>
    rw [hnull] at h
    cases h
  | _ => exact congrArg (Option.map some) h

/-- An optional value reads back if the value does and cannot be mistaken for null. -/
theorem nullable?_ofOption (hnull : read .null = none) {a : Option α}
    (h : ∀ b ∈ a, read (write b) = some b) : nullable? read (ofOption write a) = some a := by
  cases a with
  | none => rfl
  | some b => exact nullable?_eq_some hnull (h b rfl)

theorem optional?_map (hnull : read .null = none) {a : Option α}
    (h : ∀ b ∈ a, read (write b) = some b) : optional? read (a.map write) = some a := by
  cases a with
  | none => rfl
  | some b => exact nullable?_eq_some hnull (h b rfl)

theorem withDefault?_some (default : α) (v : Json) : withDefault? default read (some v) = read v := rfl

/-! ## Records -/

def present (entries : List (String × Option Json)) : List (String × Json) :=
  entries.filterMap fun (name, v) => v.map (name, ·)

variable {name : String} {entries : List (String × Option Json)}

theorem lookup_cons_of_ne {key : String} (h : key ≠ name) (v : Json) (fields : List (String × Json)) :
    lookup name ((key, v) :: fields) = lookup name fields := by
  have hkey : ((key, v).1 == name) = false := beq_false_of_ne h
  rw [lookup, List.filter_cons, hkey]
  rfl

theorem filter_present (h : name ∉ entries.map Prod.fst) :
    (present entries).filter (·.1 == name) = [] := by
  rw [List.filter_eq_nil_iff]
  rintro ⟨key, v⟩ hfield hkey
  obtain ⟨⟨key', w⟩, hentry, hvalue⟩ := List.mem_filterMap.1 hfield
  obtain ⟨_, _, hpair⟩ := Option.map_eq_some_iff.1 hvalue
  cases hpair
  exact h (List.mem_map.2 ⟨_, hentry, eq_of_beq hkey⟩)

theorem lookup_present_head (h : name ∉ entries.map Prod.fst) (v : Option Json) :
    lookup name (present ((name, v) :: entries)) = some v := by
  have hrest := filter_present h
  cases v with
  | none =>
    change lookup name (present entries) = _
    rw [lookup, hrest]
  | some v =>
    change lookup name ((name, v) :: present entries) = _
    rw [lookup, List.filter_cons_of_pos (by simp), hrest]

theorem lookup_present_tail {key : String} (h : key ≠ name) (v : Option Json) :
    lookup name (present ((key, v) :: entries)) = lookup name (present entries) := by
  cases v with
  | none => rfl
  | some v => exact lookup_cons_of_ne h v (present entries)

/-- A field that is there is found by its name, whatever else is there. -/
theorem lookup_present {value : Option Json} (hnames : (entries.map Prod.fst).Nodup)
    (hentry : (name, value) ∈ entries) : lookup name (present entries) = some value := by
  induction entries with
  | nil => cases hentry
  | cons entry entries ih =>
    obtain ⟨hhead, htail⟩ := List.nodup_cons.1 hnames
    rcases List.mem_cons.1 hentry with rfl | hentry
    · exact lookup_present_head hhead value
    · have hname : name ∈ entries.map Prod.fst := List.mem_map.2 ⟨_, hentry, rfl⟩
      have hne : entry.1 ≠ name := fun h => hhead (h ▸ hname)
      rw [← ih htail hentry]
      exact lookup_present_tail hne entry.2

/-- Fields that are asked for have the values that they were written with, or none if they were left
out. -/
theorem fields?_present (asked : List (String × Option Json))
    (hnames : (entries.map Prod.fst).Nodup) (hasked : asked ⊆ entries) :
    fields? (asked.map Prod.fst) (.object (present entries)) = some (asked.map Prod.snd) :=
  mapM_map_eq_some fun _ hentry => lookup_present hnames (hasked hentry)

/-- All fields of a record read back at once. -/
theorem record?_present (entries : List (String × Option Json))
    (hnames : (entries.map Prod.fst).Nodup) :
    record? (entries.map Prod.fst) (.object (present entries)) = some (entries.map Prod.snd) :=
  fields?_present entries hnames (List.Subset.refl entries)

/-! ## Readable values of bounded depth -/

/-- A value that denotes something throughout, with arrays and objects nested at most `n` deep. -/
structure Shallow (n : Nat) (v : Json) : Prop where
  readable : v.isReadable = true
  depth : v.depth ≤ n

theorem Shallow.mono {m : Nat} (h : Shallow n v) (hle : n ≤ m) : Shallow m v :=
  ⟨h.readable, h.depth.trans hle⟩

theorem shallow_string (n : Nat) (s : String) : Shallow n (.string s) := ⟨rfl, Nat.zero_le n⟩

theorem shallow_ofNat (n m : Nat) : Shallow n (ofNat m) := ⟨rfl, Nat.zero_le n⟩

theorem shallow_ofFloat (n : Nat) (x : Float) : Shallow n (ofFloat x) := by
  unfold ofFloat
  split
  · exact ⟨rfl, Nat.zero_le n⟩
  · exact ⟨rfl, Nat.zero_le n⟩

theorem shallow_ofOption {a : Option α} (h : ∀ b ∈ a, Shallow n (write b)) :
    Shallow n (ofOption write a) := by
  cases a with
  | none => exact ⟨rfl, Nat.zero_le n⟩
  | some b => exact h b rfl

theorem areReadable_iff {items : List Json} :
    areReadable items = true ↔ ∀ v ∈ items, v.isReadable = true := by
  induction items with
  | nil => simp [areReadable]
  | cons v items ih => simp [areReadable, ih]

theorem depthOfItems_le {items : List Json} (h : ∀ v ∈ items, v.depth ≤ n) :
    depthOfItems items ≤ n := by
  induction items with
  | nil => exact Nat.zero_le n
  | cons v items ih => exact Nat.max_le.2 ⟨h v (by simp), ih fun w hw => h w (by simp [hw])⟩

theorem fieldsReadable_iff {fields : List (String × Json)} :
    fieldsReadable fields = true ↔ ∀ f ∈ fields, f.2.isReadable = true := by
  induction fields with
  | nil => simp [fieldsReadable]
  | cons f fields ih => simp [fieldsReadable, ih]

theorem depthOfFields_le {fields : List (String × Json)} (h : ∀ f ∈ fields, f.2.depth ≤ n) :
    depthOfFields fields ≤ n := by
  induction fields with
  | nil => exact Nat.zero_le n
  | cons f fields ih => exact Nat.max_le.2 ⟨h f (by simp), ih fun g hg => h g (by simp [hg])⟩

theorem shallow_array {items : List Json} (h : ∀ v ∈ items, Shallow n v) :
    Shallow (n + 1) (.array items) :=
  ⟨areReadable_iff.2 fun v hv => (h v hv).readable,
    Nat.succ_le_succ (depthOfItems_le fun v hv => (h v hv).depth)⟩

theorem shallow_ofList {xs : List α} (h : ∀ x ∈ xs, Shallow n (write x)) :
    Shallow (n + 1) (ofList write xs) :=
  shallow_array (List.forall_mem_map.2 h)

theorem shallow_present (h : ∀ entry ∈ entries, ∀ v ∈ entry.2, Shallow n v) :
    Shallow (n + 1) (.object (present entries)) := by
  have hfields : ∀ f ∈ present entries, Shallow n f.2 := by
    intro f hf
    obtain ⟨entry, hentry, hvalue⟩ := List.mem_filterMap.1 hf
    obtain ⟨v, hv, rfl⟩ := Option.map_eq_some_iff.1 hvalue
    exact h entry hentry v hv
  exact ⟨fieldsReadable_iff.2 fun f hf => (hfields f hf).readable,
    Nat.succ_le_succ (depthOfFields_le fun f hf => (hfields f hf).depth)⟩

end RasterTile.Json

import RasterTile.Proofs.Program.Correctness

/-!
# Where a program fails to compile

Lines are bound in order, each in the scope of the names bound on the lines before it, and the first
faulty one decides: its fault is reported under its number, which counts blank lines too. A line is
faulty if it says no statement, or one that is not admissible in its scope. Only if no line is faulty
does it matter which outputs are bound. Nothing after a faulty line is looked at, and blank lines do
nothing but shift the numbers of the lines after them.
-/
namespace RasterTile.Program

variable {s : Scope} {text line : List Char} {lines lines' : List (List Char)} {n : Nat}
  {fault : Fault} {ranges : List BandRange} {bands : BandMap}

/-! ## Faults of a line -/

/-- The fault of a trimmed line in a scope. The line is malformed in one of three ways, which are
looked for in this order, or its expression fails. -/
inductive Faulty (s : Scope) (text : List Char) : Fault → Prop
  | unbound : Text.cutAt [':', '='] text = none → Faulty s text .noBinding
  | misnamed {left body} : Text.cutAt [':', '='] text = some (left, body) →
      isName (Text.trim left) = false → Faulty s text (.badName (Text.trim left))
  | unreadable {left body fault} : Text.cutAt [':', '='] text = some (left, body) →
      isName (Text.trim left) = true → tokenize body = .error fault → Faulty s text fault
  | failing {left body tokens fault} : Text.cutAt [':', '='] text = some (left, body) →
      isName (Text.trim left) = true → tokenize body = .ok tokens →
      parse s tokens = .error fault → Faulty s text fault

/-- The fault of a line is the first thing that is wrong with it. -/
theorem bindLine_eq_error_iff : bindLine s text = .error fault ↔ Faulty s text fault := by
  unfold bindLine
  constructor
  · intro h
    cases hcut : Text.cutAt [':', '='] text with
    | none =>
      rw [hcut] at h
      cases h
      exact .unbound hcut
    | some cut =>
      obtain ⟨left, body⟩ := cut
      rw [hcut] at h
      by_cases hn : isName (Text.trim left) = true
      · simp only [hn, Bool.not_true, Bool.false_eq_true, if_false, bind_eq_error_iff] at h
        obtain ht | ⟨tokens, ht, he | ⟨_, _, h⟩⟩ := h
        · exact .unreadable hcut hn ht
        · exact .failing hcut hn ht he
        · cases h
      · rw [Bool.not_eq_true] at hn
        simp only [hn, Bool.not_false, if_true] at h
        cases h
        exact .misnamed hcut hn
  · intro h
    cases h with
    | unbound hcut =>
      rw [hcut]
      rfl
    | misnamed hcut hn =>
      simp only [hcut, hn, Bool.not_false, if_true]
      rfl
    | unreadable hcut hn ht =>
      simp only [hcut, hn, Bool.not_true, Bool.false_eq_true, if_false, bind_eq_error_iff]
      exact .inl ht
    | failing hcut hn ht he =>
      simp only [hcut, hn, Bool.not_true, Bool.false_eq_true, if_false, bind_eq_error_iff]
      exact .inr ⟨_, ht, .inl he⟩

/-- A line is faulty if it says no statement that is admissible in the scope. -/
theorem exists_faulty_iff : (∃ fault, Faulty s text fault) ↔
    ∀ st : Statement, st.IsLine text → ¬ st.expr.Admissible s := by
  constructor
  · rintro ⟨fault, hf⟩ st hst ha
    have hok := bindLine_eq_ok_iff.2 ⟨st, hst, ha, rfl⟩
    rw [bindLine_eq_error_iff.2 hf] at hok
    cases hok
  · intro h
    cases hb : bindLine s text with
    | error fault => exact ⟨fault, bindLine_eq_error_iff.1 hb⟩
    | ok b =>
      obtain ⟨st, hst, ha, -⟩ := bindLine_eq_ok_iff.1 hb
      exact absurd ha (h st hst)

/-! ## Faults by line -/

def boundName? (text : List Char) : Option String :=
  (Text.cutAt [':', '='] text).map fun cut => String.ofList (Text.trim cut.1)

def boundNames (lines : List (List Char)) : List String := (texts lines).filterMap boundName?

def Scope.after (s : Scope) (names : List String) : Scope := { s with earlier := s.earlier ++ names }

theorem Scope.after_nil : s.after [] = s := by simp [Scope.after]

theorem Scope.after_cons (name : String) (names : List String) :
    s.after (name :: names) = (s.after [name]).after names := by simp [Scope.after]

/-- The line at position `n` is not blank, and has this fault after the lines before it. -/
def FaultAt (s : Scope) (lines : List (List Char)) (n : Nat) (fault : Fault) : Prop :=
  ∃ line, lines[n]? = some line ∧ Text.trim line ≠ [] ∧
    Faulty (s.after (boundNames (lines.take n))) (Text.trim line) fault

/-- The fault at position `n`, where no line before it has one. -/
structure FirstFault (s : Scope) (lines : List (List Char)) (n : Nat) (fault : Fault) : Prop where
  here : FaultAt s lines n fault
  before : ∀ m < n, ∀ other, ¬ FaultAt s lines m other

theorem boundName?_of_bindLine {b : Binding} (h : bindLine s text = .ok b) :
    boundName? text = some b.name := by
  obtain ⟨st, ⟨left, body, _, hcut, _, hname, _⟩, _, rfl⟩ := bindLine_eq_ok_iff.1 h
  rw [boundName?, hcut, Option.map_some, hname]

theorem boundNames_blank (h : Text.trim line = []) (lines : List (List Char)) :
    boundNames (line :: lines) = boundNames lines := by
  rw [boundNames, texts_cons, h]
  rfl

theorem boundNames_bound {b : Binding} (hne : Text.trim line ≠ [])
    (h : bindLine s (Text.trim line) = .ok b) (lines : List (List Char)) :
    boundNames (line :: lines) = b.name :: boundNames lines := by
  rw [boundNames, texts_cons, if_neg (by simpa using hne), List.filterMap_cons,
    boundName?_of_bindLine h]
  rfl

theorem faultAt_zero : FaultAt s (line :: lines) 0 fault ↔
    Text.trim line ≠ [] ∧ Faulty s (Text.trim line) fault := by
  have hscope : s.after (boundNames []) = s := Scope.after_nil
  simp [FaultAt, hscope]

theorem not_faultAt_nil : ¬ FaultAt s [] n fault := by
  rintro ⟨line, hline, -⟩
  cases hline

/-- A blank line in front only moves a fault on. -/
theorem faultAt_blank (h : Text.trim line = []) :
    FaultAt s (line :: lines) (n + 1) fault ↔ FaultAt s lines n fault := by
  rw [FaultAt, List.take_succ_cons, boundNames_blank h, List.getElem?_cons_succ, FaultAt]

/-- A bound line in front adds its name to the scope of the lines after it. -/
theorem faultAt_bound {b : Binding} (hne : Text.trim line ≠ [])
    (h : bindLine s (Text.trim line) = .ok b) :
    FaultAt s (line :: lines) (n + 1) fault ↔ FaultAt (s.after [b.name]) lines n fault := by
  rw [FaultAt, List.take_succ_cons, boundNames_bound hne h, List.getElem?_cons_succ,
    Scope.after_cons, FaultAt]

theorem firstFault_zero : FirstFault s (line :: lines) 0 fault ↔
    Text.trim line ≠ [] ∧ Faulty s (Text.trim line) fault := by
  exact ⟨fun h => faultAt_zero.1 h.here,
    fun h => ⟨faultAt_zero.2 h, fun m hm => absurd hm (Nat.not_lt_zero m)⟩⟩

/-- The first line passes, and the others are read in the scope that it leaves. -/
theorem firstFault_succ {s' : Scope} (hfirst : ∀ fault, ¬ FaultAt s (line :: lines) 0 fault)
    (hrest : ∀ n fault, FaultAt s (line :: lines) (n + 1) fault ↔ FaultAt s' lines n fault) :
    FirstFault s (line :: lines) (n + 1) fault ↔ FirstFault s' lines n fault := by
  constructor
  · rintro ⟨hhere, hbefore⟩
    refine ⟨(hrest n fault).1 hhere, fun m hm other hother => ?_⟩
    exact hbefore (m + 1) (Nat.succ_lt_succ hm) other ((hrest m other).2 hother)
  · rintro ⟨hhere, hbefore⟩
    refine ⟨(hrest n fault).2 hhere, Nat.forall_lt_succ_left.2 ⟨hfirst, fun m hm other hother => ?_⟩⟩
    exact hbefore m hm other ((hrest m other).1 hother)

/-- Where there is a fault, there is a first one. -/
theorem exists_firstFault (h : FaultAt s lines n fault) :
    ∃ m other, FirstFault s lines m other := by
  induction n using Nat.strong_induction_on generalizing fault with
  | _ n ih =>
    by_cases hbefore : ∀ m < n, ∀ other, ¬ FaultAt s lines m other
    · exact ⟨n, fault, h, hbefore⟩
    · push Not at hbefore
      obtain ⟨m, hm, other, hother⟩ := hbefore
      exact ih m hm hother

/-- What a line is like depends on the lines up to it. -/
theorem faultAt_take {k : Nat} (h : n < k) :
    FaultAt s (lines.take k) n fault ↔ FaultAt s lines n fault := by
  rw [FaultAt, List.getElem?_take_of_lt h, List.take_take, Nat.min_eq_left h.le, FaultAt]

/-- What comes after the first fault makes no difference to it. -/
theorem FirstFault.congr (h : FirstFault s lines n fault)
    (htake : lines'.take (n + 1) = lines.take (n + 1)) : FirstFault s lines' n fault := by
  have hsame (m : Nat) (hm : m < n + 1) (other : Fault) :
      FaultAt s lines' m other ↔ FaultAt s lines m other := by
    rw [← faultAt_take hm, htake, faultAt_take hm]
  refine ⟨(hsame n n.lt_succ_self fault).2 h.here, fun m hm other hother => ?_⟩
  exact h.before m hm other ((hsame m (hm.trans n.lt_succ_self) other).1 hother)

/-! ## Faults of a program -/

/-- Binding lines fails with the first fault, under the number of its line. -/
theorem bindLines_eq_error_iff {number : Nat} {made : List Binding} {e : Error} :
    bindLines ranges bands number made lines = .error e ↔
      ∃ n fault, FirstFault ⟨ranges, bands, made.map Binding.name⟩ lines n fault ∧
        e = .line (number + n) fault := by
  induction lines generalizing number made with
  | nil =>
    constructor
    · intro h
      cases h
    · rintro ⟨n, fault, h, -⟩
      exact absurd h.here not_faultAt_nil
  | cons line lines ih =>
    rw [bindLines]
    by_cases hblank : Text.trim line = []
    · have hfirst (fault : Fault) : ¬ FaultAt ⟨ranges, bands, made.map Binding.name⟩
          (line :: lines) 0 fault := fun h => (faultAt_zero.1 h).1 hblank
      rw [if_pos (by simpa using hblank), ih]
      constructor
      · rintro ⟨n, fault, h, rfl⟩
        refine ⟨n + 1, fault, (firstFault_succ hfirst fun _ _ => faultAt_blank hblank).2 h, ?_⟩
        rw [Nat.add_right_comm, Nat.add_assoc]
      · rintro ⟨n, fault, h, rfl⟩
        cases n with
        | zero => exact absurd h.here (hfirst fault)
        | succ n =>
          refine ⟨n, fault, (firstFault_succ hfirst fun _ _ => faultAt_blank hblank).1 h, ?_⟩
          rw [Nat.add_right_comm, Nat.add_assoc]
    · rw [if_neg (by simpa using hblank)]
      cases hb : bindLine ⟨ranges, bands, made.map Binding.name⟩ (Text.trim line) with
      | error fault =>
        have hhere : FirstFault ⟨ranges, bands, made.map Binding.name⟩ (line :: lines) 0 fault :=
          firstFault_zero.2 ⟨hblank, bindLine_eq_error_iff.1 hb⟩
        constructor
        · intro h
          cases h
          exact ⟨0, fault, hhere, rfl⟩
        · rintro ⟨n, other, h, rfl⟩
          cases n with
          | zero =>
            have hother := bindLine_eq_error_iff.2 (firstFault_zero.1 h).2
            rw [hb] at hother
            cases hother
            rfl
          | succ n => exact absurd hhere.here (h.before 0 n.succ_pos fault)
      | ok b =>
        have hfirst (fault : Fault) : ¬ FaultAt ⟨ranges, bands, made.map Binding.name⟩
            (line :: lines) 0 fault := by
          intro h
          have hfault := bindLine_eq_error_iff.2 (faultAt_zero.1 h).2
          rw [hb] at hfault
          cases hfault
        have hscope : (⟨ranges, bands, (made ++ [b]).map Binding.name⟩ : Scope) =
            (⟨ranges, bands, made.map Binding.name⟩ : Scope).after [b.name] := by
          rw [List.map_append]
          rfl
        simp only [ih, hscope]
        constructor
        · rintro ⟨n, fault, h, rfl⟩
          refine ⟨n + 1, fault, (firstFault_succ hfirst fun _ _ => faultAt_bound hblank hb).2 h, ?_⟩
          rw [Nat.add_right_comm, Nat.add_assoc]
        · rintro ⟨n, fault, h, rfl⟩
          cases n with
          | zero => exact absurd h.here (hfirst fault)
          | succ n =>
            refine ⟨n, fault, (firstFault_succ hfirst fun _ _ => faultAt_bound hblank hb).1 h, ?_⟩
            rw [Nat.add_right_comm, Nat.add_assoc]

/-- The bindings have the names that their lines bind. -/
theorem names_of_bindLines {number : Nat} {made all : List Binding}
    (h : bindLines ranges bands number made lines = .ok all) :
    all.map Binding.name = made.map Binding.name ++ boundNames lines := by
  induction lines generalizing number made with
  | nil =>
    cases h
    exact (List.append_nil _).symm
  | cons line lines ih =>
    rw [bindLines] at h
    by_cases hblank : Text.trim line = []
    · rw [if_pos (by simpa using hblank)] at h
      rw [ih h, boundNames_blank hblank]
    · rw [if_neg (by simpa using hblank)] at h
      cases hb : bindLine ⟨ranges, bands, made.map Binding.name⟩ (Text.trim line) with
      | error fault =>
        rw [hb] at h
        cases h
      | ok b =>
        rw [hb] at h
        rw [ih h, boundNames_bound hblank hb, List.map_append, List.append_assoc]
        rfl

/-- The first output, of those that every program binds, that is not among the names. -/
def missing? (names : List String) : Option Output :=
  [.red, .green, .blue].find? fun output => output.name ∉ names

theorem required_eq_error_iff {names : List String} {output : Output} {e : Error} :
    required names output = .error e ↔ output.name ∉ names ∧ e = .missingBinding output := by
  rw [← lastIndex?_eq_none_iff]
  unfold required
  cases Parser.lastIndex? output.name names with
  | some i => simp
  | none => simp [eq_comm]

theorem exists_required {names : List String} {output : Output} (h : output.name ∈ names) :
    ∃ i, required names output = .ok i := by
  cases hr : required names output with
  | ok i => exact ⟨i, rfl⟩
  | error e => exact absurd h (required_eq_error_iff.1 hr).1

/-- The outputs are looked up in order, and the first missing one is the error. -/
theorem outputs_eq_error_iff {α : Type} {names : List String} {e : Error} (f : Nat → Nat → Nat → α) :
    (do
      let r ← required names .red
      let g ← required names .green
      let b ← required names .blue
      pure (f r g b)) = .error e ↔
      ∃ output, missing? names = some output ∧ e = .missingBinding output := by
  have herror {output : Output} (h : output.name ∉ names) :
      required names output = .error (.missingBinding output) := required_eq_error_iff.2 ⟨h, rfl⟩
  unfold missing?
  by_cases hred : Output.red.name ∈ names
  · obtain ⟨r, hr⟩ := exists_required hred
    rw [hr, ok_bind, List.find?_cons_of_neg (by simpa using hred)]
    by_cases hgreen : Output.green.name ∈ names
    · obtain ⟨g, hg⟩ := exists_required hgreen
      rw [hg, ok_bind, List.find?_cons_of_neg (by simpa using hgreen)]
      by_cases hblue : Output.blue.name ∈ names
      · obtain ⟨b, hb⟩ := exists_required hblue
        rw [hb, ok_bind, List.find?_cons_of_neg (by simpa using hblue)]
        constructor
        · intro h
          cases h
        · rintro ⟨output, h, -⟩
          cases h
      · rw [herror hblue, List.find?_cons_of_pos (by simpa using hblue)]
        exact ⟨fun h => by cases h; exact ⟨_, rfl, rfl⟩, by rintro ⟨_, ⟨⟩, rfl⟩; rfl⟩
    · rw [herror hgreen, List.find?_cons_of_pos (by simpa using hgreen)]
      exact ⟨fun h => by cases h; exact ⟨_, rfl, rfl⟩, by rintro ⟨_, ⟨⟩, rfl⟩; rfl⟩
  · rw [herror hred, List.find?_cons_of_pos (by simpa using hred)]
    exact ⟨fun h => by cases h; exact ⟨_, rfl, rfl⟩, by rintro ⟨_, ⟨⟩, rfl⟩; rfl⟩

/-- The first faulty line decides, and the outputs only if there is none. -/
theorem compile_eq_error_iff {source : String} {e : Error} :
    compile source ranges bands = .error e ↔
      (∃ n fault, FirstFault ⟨ranges, bands, []⟩ (Text.splitOn '\n' source.toList) n fault ∧
        e = .line (n + 1) fault) ∨
      (∀ n fault, ¬ FaultAt ⟨ranges, bands, []⟩ (Text.splitOn '\n' source.toList) n fault) ∧
        ∃ output, missing? (boundNames (Text.splitOn '\n' source.toList)) = some output ∧
          e = .missingBinding output := by
  generalize hlines : Text.splitOn '\n' source.toList = lines
  have hfault (e : Error) : bindLines ranges bands 1 [] lines = .error e ↔
      ∃ n fault, FirstFault ⟨ranges, bands, []⟩ lines n fault ∧ e = .line (n + 1) fault := by
    simp only [Nat.add_comm _ 1]
    exact bindLines_eq_error_iff
  have hnames {all : List Binding} (h : bindLines ranges bands 1 [] lines = .ok all) :
      all.map Binding.name = boundNames lines := names_of_bindLines h
  unfold compile
  rw [hlines, bind_eq_error_iff, hfault]
  refine or_congr_right ?_
  constructor
  · rintro ⟨all, hall, h⟩
    rw [outputs_eq_error_iff, hnames hall] at h
    refine ⟨fun n fault hf => ?_, h⟩
    obtain ⟨m, other, hfirst⟩ := exists_firstFault hf
    rw [(hfault _).2 ⟨m, other, hfirst, rfl⟩] at hall
    cases hall
  · rintro ⟨hnone, h⟩
    cases hall : bindLines ranges bands 1 [] lines with
    | error e' =>
      obtain ⟨n, fault, hfirst, -⟩ := (hfault e').1 hall
      exact absurd hfirst.here (hnone n fault)
    | ok all =>
      refine ⟨all, rfl, ?_⟩
      rwa [outputs_eq_error_iff, hnames hall]

/-! ## Blank lines -/

def Error.renumber (f : Nat → Nat) : Error → Error
  | .line number fault => .line (f number) fault
  | .missingBinding output => .missingBinding output

/-- Lines with blank ones put between them, anywhere. Line `n` is found at position `place n`. -/
structure Spaced (place : Nat → Nat) (lines spaced : List (List Char)) : Prop where
  increasing : StrictMono place
  same : ∀ n, spaced[place n]? = lines[n]?
  blank : ∀ m line, spaced[m]? = some line → m ∉ Set.range place → Text.trim line = []

variable {place : Nat → Nat}

/-- The first line stays in front. -/
theorem Spaced.tail (h : Spaced place lines (line :: lines')) (hfirst : place 0 = 0) :
    ∃ rest, lines = line :: rest ∧ Spaced (fun n => place (n + 1) - 1) rest lines' := by
  have hpos (n : Nat) : 0 < place (n + 1) := hfirst ▸ h.increasing n.succ_pos
  have hhead := h.same 0
  cases lines with
  | nil =>
    rw [hfirst] at hhead
    cases hhead
  | cons first rest =>
    rw [hfirst] at hhead
    cases hhead
    refine ⟨rest, rfl, fun m n hlt => ?_, fun n => ?_, fun m blank hblank hrange => ?_⟩
    · have hstep := h.increasing (Nat.succ_lt_succ hlt)
      have hm := hpos m
      change place (m + 1) - 1 < place (n + 1) - 1
      simp only [Nat.succ_eq_add_one] at hstep
      omega
    · have hsame := h.same (n + 1)
      have hplace : place (n + 1) = place (n + 1) - 1 + 1 := (Nat.succ_pred (hpos n).ne').symm
      rwa [hplace, List.getElem?_cons_succ, List.getElem?_cons_succ] at hsame
    · refine h.blank (m + 1) blank hblank ?_
      rintro ⟨n, hn⟩
      cases n with
      | zero => omega
      | succ n => exact hrange ⟨n, by change place (n + 1) - 1 = m; omega⟩

/-- A line in front of all others is blank. -/
theorem Spaced.skip (h : Spaced place lines (line :: lines')) (hfirst : 0 < place 0) :
    Text.trim line = [] ∧ Spaced (fun n => place n - 1) lines lines' := by
  have hpos (n : Nat) : 0 < place n := hfirst.trans_le (h.increasing.monotone n.zero_le)
  refine ⟨h.blank 0 line rfl ?_, fun m n hlt => ?_, fun n => ?_, fun m blank hblank hrange => ?_⟩
  · rintro ⟨n, hn⟩
    exact (hpos n).ne' hn
  · have hstep := h.increasing hlt
    have hm := hpos m
    change place m - 1 < place n - 1
    omega
  · have hsame := h.same n
    have hplace : place n = place n - 1 + 1 := (Nat.succ_pred (hpos n).ne').symm
    rwa [hplace, List.getElem?_cons_succ] at hsame
  · refine h.blank (m + 1) blank hblank ?_
    rintro ⟨n, hn⟩
    exact hrange ⟨n, by change place n - 1 = m; omega⟩

/-- Blank lines are passed over: all that changes is the number of a faulty line. -/
theorem bindLines_spaced {f : Nat → Nat} {number number' : Nat} {made : List Binding}
    (h : Spaced place lines lines') (hf : ∀ n, f (number + n) = number' + place n) :
    bindLines ranges bands number' made lines' =
      (bindLines ranges bands number made lines).mapError (Error.renumber f) := by
  induction lines' generalizing lines place number number' made with
  | nil =>
    have hnil : lines = [] := by
      cases lines with
      | nil => rfl
      | cons line lines =>
        have hhead := h.same 0
        cases hhead
    subst hnil
    rfl
  | cons line lines' ih =>
    rw [bindLines]
    rcases Nat.eq_zero_or_pos (place 0) with hfirst | hfirst
    · obtain ⟨rest, rfl, hrest⟩ := h.tail hfirst
      have hnext (n : Nat) : f (number + 1 + n) = number' + 1 + (place (n + 1) - 1) := by
        have hpos : place 0 < place (n + 1) := h.increasing n.succ_pos
        have hn := hf (n + 1)
        rw [Nat.add_assoc, Nat.add_comm 1 n, hn]
        omega
      rw [bindLines]
      by_cases hblank : (Text.trim line).isEmpty = true
      · rw [if_pos hblank, if_pos hblank]
        exact ih hrest hnext
      · rw [if_neg hblank, if_neg hblank]
        cases bindLine ⟨ranges, bands, made.map Binding.name⟩ (Text.trim line) with
        | error fault =>
          have hhere := hf 0
          rw [hfirst] at hhere
          exact congrArg (fun k => Except.error (Error.line k fault)) hhere.symm
        | ok b => exact ih hrest hnext
    · obtain ⟨hblank, hrest⟩ := h.skip hfirst
      have hnext (n : Nat) : f (number + n) = number' + 1 + (place n - 1) := by
        have hpos := h.increasing.monotone n.zero_le
        rw [hf n]
        omega
      rw [if_pos (by simpa using hblank)]
      exact ih hrest hnext

theorem mapError_required (f : Nat → Nat) (names : List String) (output : Output) :
    (required names output).mapError (Error.renumber f) = required names output := by
  unfold required
  cases Parser.lastIndex? output.name names <;> rfl

/-- Blank lines change nothing but the number of the line in an error. -/
theorem compile_spaced {source source' : String}
    (h : Spaced place (Text.splitOn '\n' source.toList) (Text.splitOn '\n' source'.toList)) :
    compile source' ranges bands = (compile source ranges bands).mapError
      (Error.renumber fun number => place (number - 1) + 1) := by
  have hlines : bindLines ranges bands 1 [] (Text.splitOn '\n' source'.toList) =
      (bindLines ranges bands 1 [] (Text.splitOn '\n' source.toList)).mapError
        (Error.renumber fun number => place (number - 1) + 1) :=
    bindLines_spaced h fun n => by rw [Nat.add_sub_cancel_left, Nat.add_comm]
  simp only [compile, hlines, mapError_bind, mapError_required]
  rfl

/-- Every fault of a line is that of the first faulty one, which nothing after it changes; a missing
output is only reported if no line is faulty, and then it is the first one; and blank lines change
nothing but numbers. -/
theorem compile_diagnoses (source : String) (ranges : List BandRange) (bands : BandMap) :
    let lines := Text.splitOn '\n' source.toList
    let s : Scope := ⟨ranges, bands, []⟩
    (∀ number fault, compile source ranges bands = .error (.line number fault) ↔
      ∃ n, number = n + 1 ∧ FirstFault s lines n fault) ∧
    (∀ n, (∃ fault, FaultAt s lines n fault) ↔ ∃ line, lines[n]? = some line ∧ Text.trim line ≠ [] ∧
      ∀ st : Statement, st.IsLine (Text.trim line) →
        ¬ st.expr.Admissible (s.after (boundNames (lines.take n)))) ∧
    (∀ n fault source', compile source ranges bands = .error (.line (n + 1) fault) →
      (Text.splitOn '\n' source'.toList).take (n + 1) = lines.take (n + 1) →
      compile source' ranges bands = .error (.line (n + 1) fault)) ∧
    (∀ output, compile source ranges bands = .error (.missingBinding output) ↔
      (∀ n fault, ¬ FaultAt s lines n fault) ∧ missing? (boundNames lines) = some output) ∧
    (∀ source' place, Spaced place lines (Text.splitOn '\n' source'.toList) →
      compile source' ranges bands = (compile source ranges bands).mapError
        (Error.renumber fun number => place (number - 1) + 1)) := by
  have hline (source : String) (number : Nat) (fault : Fault) :
      compile source ranges bands = .error (.line number fault) ↔ ∃ n, number = n + 1 ∧
        FirstFault ⟨ranges, bands, []⟩ (Text.splitOn '\n' source.toList) n fault := by
    simp only [compile_eq_error_iff, Error.line.injEq, reduceCtorEq, and_false, exists_false,
      or_false]
    constructor
    · rintro ⟨n, _, h, rfl, rfl⟩
      exact ⟨n, rfl, h⟩
    · rintro ⟨n, rfl, h⟩
      exact ⟨n, fault, h, rfl, rfl⟩
  refine ⟨hline source, fun n => ?_, fun n fault source' h htake => ?_, fun output => ?_,
    fun source' place => compile_spaced⟩
  · simp only [FaultAt, ← exists_faulty_iff]
    constructor
    · rintro ⟨fault, line, hline, hne, hf⟩
      exact ⟨line, hline, hne, fault, hf⟩
    · rintro ⟨line, hline, hne, fault, hf⟩
      exact ⟨fault, line, hline, hne, hf⟩
  · obtain ⟨m, hm, hfirst⟩ := (hline source _ fault).1 h
    obtain rfl := Nat.succ.inj hm
    exact (hline source' _ fault).2 ⟨n, rfl, hfirst.congr htake⟩
  · simp only [compile_eq_error_iff, reduceCtorEq, and_false, exists_false, false_or,
      Error.missingBinding.injEq, exists_eq_right']

/-- The third line reads a name that is bound behind it, and the fourth is malformed. -/
def forwardReference : String := "red := 1\n\ngreen := results.blue\nblue 1"

/-- A line more in front, and one before the third. -/
def forwardReferenceSpaced : String :=
  "\nred := 1\n\n \t\ngreen := results.blue\nblue 1"

theorem spaced_forwardReference : Spaced (fun n => if n < 2 then n + 1 else n + 2)
    (Text.splitOn '\n' forwardReference.toList)
    (Text.splitOn '\n' forwardReferenceSpaced.toList) := by
  have hlines : Text.splitOn '\n' forwardReference.toList =
      ["red := 1".toList, [], "green := results.blue".toList, "blue 1".toList] := by decide +kernel
  have hspaced : Text.splitOn '\n' forwardReferenceSpaced.toList =
      [[], "red := 1".toList, [], " \t".toList, "green := results.blue".toList, "blue 1".toList] := by
    decide +kernel
  rw [hlines, hspaced]
  refine ⟨fun m n hlt => ?_, fun n => ?_, fun m line hline hrange => ?_⟩
  · change (if m < 2 then m + 1 else m + 2) < if n < 2 then n + 1 else n + 2
    split_ifs <;> omega
  · match n with
    | 0 | 1 | 2 | 3 => rfl
    | n + 4 => rfl
  · match m with
    | 0 | 3 =>
      cases hline
      decide +kernel
    | 1 => exact absurd ⟨0, rfl⟩ hrange
    | 2 => exact absurd ⟨1, rfl⟩ hrange
    | m + 4 => exact absurd ⟨m + 2, rfl⟩ hrange

theorem compile_diagnoses_forwardReference :
    compile forwardReference [] (BandOrder.map [.red]) = .error (.line 3 (.unknownResult "blue")) ∧
      FirstFault ⟨[], BandOrder.map [.red], []⟩ (Text.splitOn '\n' forwardReference.toList) 2
        (.unknownResult "blue") ∧
      compile "red := 1\n\ngreen := results.blue\nblue := 2" [] (BandOrder.map [.red]) =
        .error (.line 3 (.unknownResult "blue")) ∧
      compile forwardReferenceSpaced [] (BandOrder.map [.red]) =
        .error (.line 5 (.unknownResult "blue")) := by
  have hfault : compile forwardReference [] (BandOrder.map [.red]) =
      .error (.line 3 (.unknownResult "blue")) := by decide +kernel
  obtain ⟨hfirst, -, hafter, -, hspaced⟩ :=
    compile_diagnoses forwardReference [] (BandOrder.map [.red])
  refine ⟨hfault, ?_, hafter 2 _ _ hfault (by decide +kernel), ?_⟩
  · obtain ⟨n, hn, h⟩ := (hfirst 3 _).1 hfault
    cases hn
    exact h
  · rw [hspaced _ _ spaced_forwardReference, hfault]
    rfl

end RasterTile.Program

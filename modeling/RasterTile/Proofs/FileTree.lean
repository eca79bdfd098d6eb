import RasterTile.FileTree
import RasterTile.Proofs.RawText
import RasterTile.Proofs.Text

/-!
# Writing to a file tree

Where a path leads depends on the directories of a tree only. A file is put where no directory is, so
writing files leaves all paths as they are, and of several files in one place the last one stays. A path
that ends in a name leads to a location that ends in it.
-/
namespace RasterTile.FileTree

variable {t t' : FileTree} {here there : Location} {path directory name : RawText}
  {content : FileContent}

/-- Where a file can be put: a location that a path leads to, and that is no directory. -/
def place? (t : FileTree) (path : RawText) : Option Location :=
  (t.locate? path).filter fun here => !t.isDirectory here

def at? (t : FileTree) (path : RawText) : Option FileEntry := (t.locate? path).bind t.find?

theorem place?_eq_some_iff :
    t.place? path = some here ↔ t.locate? path = some here ∧ t.isDirectory here = false := by
  simp [place?, Option.filter_eq_some_iff]

/-- A file is written if there is a place for it, and then nothing else changes. -/
theorem write_eq (t : FileTree) (path : RawText) (content : FileContent) :
    t.write path content =
      (t.place? path).elim (t, false) fun here => (t.set here (.file content), true) := by
  unfold write place?
  cases t.locate? path with
  | none => rfl
  | some here => cases h : t.isDirectory here <;> simp [h, Option.filter_some]

theorem ne_nil_of_not_isDirectory (h : t.isDirectory here = false) : here ≠ [] := by
  rintro rfl
  simp [isDirectory] at h

theorem set_set (t : FileTree) (here : Location) (e e' : FileEntry) :
    (t.set here e).set here e' = t.set here e' := by
  simp [set]

/-! ## Directories -/

def SameDirectories (t t' : FileTree) : Prop := ∀ here, t'.isDirectory here = t.isDirectory here

theorem SameDirectories.refl (t : FileTree) : t.SameDirectories t := fun _ => rfl

theorem SameDirectories.trans {t'' : FileTree} (h : t.SameDirectories t')
    (h' : t'.SameDirectories t'') : t.SameDirectories t'' :=
  fun here => (h' here).trans (h here)

/-- Directories alone decide where a path leads. -/
theorem SameDirectories.locate?_eq (h : t.SameDirectories t') (path : RawText) :
    t'.locate? path = t.locate? path := by
  have hstep : t'.step = t.step := by
    funext here name
    rw [step, step, h here]
  rw [locate?, locate?, hstep]

theorem SameDirectories.place?_eq (h : t.SameDirectories t') (path : RawText) :
    t'.place? path = t.place? path := by
  simp only [place?, h.locate?_eq, h _]

/-- A file in the place of a file changes no directory. -/
theorem sameDirectories_set (h : t.isDirectory here = false) (content : FileContent) :
    t.SameDirectories (t.set here (.file content)) := by
  intro there
  by_cases hsame : there = here
  · subst hsame
    rw [h, isDirectory, find?_set_self _ _ (ne_nil_of_not_isDirectory h)]
    rfl
  · rw [isDirectory, isDirectory, find?_set_of_ne _ _ hsame]

/-- A file that is put somewhere leaves all paths and all other entries as they are. -/
theorem set_frame (h : t.place? path = some here) (content : FileContent) :
    t.SameDirectories (t.set here (.file content)) ∧
      ∀ there, t.locate? path ≠ some there →
        (t.set here (.file content)).find? there = t.find? there := by
  obtain ⟨hlocate, hfree⟩ := place?_eq_some_iff.1 h
  refine ⟨sameDirectories_set hfree content, fun there hthere => find?_set_of_ne _ _ ?_⟩
  rintro rfl
  exact hthere hlocate

/-- A path leads to what was put there. -/
theorem at?_set (h : t.place? path = some here) (content : FileContent) :
    (t.set here (.file content)).at? path = some (.file content) := by
  obtain ⟨hlocate, hfree⟩ := place?_eq_some_iff.1 h
  rw [at?, (sameDirectories_set hfree content).locate?_eq, hlocate, Option.bind_some,
    find?_set_self _ _ (ne_nil_of_not_isDirectory hfree)]

/-! ## Files -/

/-- The same files with the same content, whatever directories there are. -/
def SameFiles (t t' : FileTree) : Prop :=
  ∀ here content, t'.find? here = some (.file content) ↔ t.find? here = some (.file content)

theorem SameFiles.refl (t : FileTree) : t.SameFiles t := fun _ _ => Iff.rfl

theorem SameFiles.trans {t'' : FileTree} (h : t.SameFiles t') (h' : t'.SameFiles t'') :
    t.SameFiles t'' :=
  fun here content => (h' here content).trans (h here content)

/-- A directory is put where nothing was. -/
theorem sameFiles_set (h : t.find? here = none) : t.SameFiles (t.set here .directory) := by
  have hne : here ≠ [] := by
    rintro rfl
    simp at h
  intro there content
  by_cases hthere : there = here
  · subst hthere
    rw [find?_set_self _ _ hne, h]
    constructor <;> intro hfile <;> cases hfile
  · rw [find?_set_of_ne _ _ hthere]

theorem sameFiles_descend (t : FileTree) (here : Location) (names : List RawText) :
    t.SameFiles (t.descend here names).1 := by
  induction names generalizing t here with
  | nil => exact .refl t
  | cons name names ih =>
    rw [descend]
    cases t.step here name with
    | none => exact .refl t
    | some next =>
      dsimp only
      split
      · rename_i hnone
        exact (sameFiles_set (Option.isNone_iff_eq_none.1 hnone)).trans (ih _ _)
      · exact ih _ _

/-- Making directories leaves all files as they are. -/
theorem sameFiles_makeDirectories (t : FileTree) (path : RawText) :
    t.SameFiles (t.makeDirectories path).1 := by
  unfold makeDirectories
  split
  · exact .refl t
  · cases names? path with
    | none => exact .refl t
    | some names => exact sameFiles_descend t [] names

/-! ## Names at the end of a path -/

theorem eq_of_names? {names : List RawText} (h : names? path = some names) :
    names = (Text.splitOn RawText.slash path.bytes).map RawText.mk := by
  unfold names? at h
  split at h
  · cases h
  · exact (Option.some.inj h).symm

/-- In front of a name there is nothing, or a path that ends in a slash. -/
theorem bytes_join (directory name : RawText) :
    (FileAccess.join directory name).bytes = name.bytes ∨
      ∃ front, (FileAccess.join directory name).bytes = front ++ RawText.slash :: name.bytes := by
  unfold FileAccess.join
  cases hlast : directory.bytes.getLast? with
  | none =>
    rw [List.getLast?_eq_none_iff.1 hlast]
    exact .inl rfl
  | some last =>
    right
    by_cases hslash : last = RawText.slash
    · obtain ⟨front, hfront⟩ := List.getLast?_eq_some_iff.1 hlast
      rw [if_pos (by simpa using hslash), hfront, hslash]
      exact ⟨front, List.append_assoc _ _ _⟩
    · rw [if_neg (by simpa using hslash)]
      exact ⟨_, rfl⟩

/-- The path of a name in a directory ends in this name. -/
theorem names?_join {names : List RawText} (hname : RawText.slash ∉ name.bytes)
    (h : names? (FileAccess.join directory name) = some names) : ∃ front, names = front ++ [name] := by
  rw [eq_of_names? h]
  rcases bytes_join directory name with hjoin | ⟨front, hjoin⟩
  · rw [hjoin, Text.splitOn_of_not_mem hname]
    exact ⟨[], rfl⟩
  · rw [hjoin, Text.splitOn_append_last hname, List.map_append]
    exact ⟨_, rfl⟩

/-- A file name is neither empty nor one of the names that stay or go up. -/
theorem getLast?_locate?_join (hslash : RawText.slash ∉ name.bytes) (hempty : name ≠ "")
    (hdot : name ≠ ".") (hdots : name ≠ "..")
    (h : t.locate? (FileAccess.join directory name) = some here) : here.getLast? = some name := by
  obtain ⟨names, hnames, hwalk⟩ := Option.bind_eq_some_iff.1 h
  obtain ⟨front, rfl⟩ := names?_join hslash hnames
  rw [List.foldlM_append] at hwalk
  obtain ⟨above, -, hstep⟩ := Option.bind_eq_some_iff.1 hwalk
  simp only [List.foldlM_cons, List.foldlM_nil] at hstep
  obtain ⟨last, hstep, hlast⟩ := Option.bind_eq_some_iff.1 hstep
  cases hlast
  unfold step at hstep
  rw [if_neg (not_or.2 ⟨hempty, hdot⟩), if_neg hdots] at hstep
  split at hstep
  · cases hstep
    exact List.getLast?_concat
  · cases hstep

/-! ## Names in a tree -/

def SlashFree (t : FileTree) : Prop := ∀ x ∈ t.entries, ∀ name ∈ x.1, RawText.slash ∉ name.bytes

theorem SlashFree.set (h : t.SlashFree) (hhere : ∀ name ∈ here, RawText.slash ∉ name.bytes)
    (e : FileEntry) : (t.set here e).SlashFree := by
  intro x hx
  rcases List.mem_cons.1 hx with rfl | hx
  · exact hhere
  · exact h x (List.mem_of_mem_filter hx)

theorem SlashFree.descend {names : List RawText} (h : t.SlashFree)
    (hhere : ∀ name ∈ here, RawText.slash ∉ name.bytes)
    (hnames : ∀ name ∈ names, RawText.slash ∉ name.bytes) :
    (t.descend here names).1.SlashFree := by
  induction names generalizing t here with
  | nil => exact h
  | cons name names ih =>
    obtain ⟨hname, hnames⟩ := List.forall_mem_cons.1 hnames
    rw [FileTree.descend]
    cases hstep : t.step here name with
    | none => exact h
    | some next =>
      have hnext : ∀ name ∈ next, RawText.slash ∉ name.bytes := by
        unfold step at hstep
        split_ifs at hstep <;> cases hstep
        · exact hhere
        · exact fun name hname => hhere name (List.mem_of_mem_dropLast hname)
        · intro n hn
          rcases List.mem_append.1 hn with hn | hn
          · exact hhere n hn
          · rw [List.mem_singleton.1 hn]
            exact hname
      dsimp only
      refine ih ?_ hnext hnames
      split
      · exact h.set hnext _
      · exact h

/-- Directories are made for the pieces of a path, which have no slashes. -/
theorem SlashFree.makeDirectories (h : t.SlashFree) (path : RawText) :
    (t.makeDirectories path).1.SlashFree := by
  unfold FileTree.makeDirectories
  split
  · exact h
  · cases hnames : names? path with
    | none => exact h
    | some names =>
      refine h.descend (by simp) fun name hname => ?_
      rw [eq_of_names? hnames] at hname
      obtain ⟨piece, hpiece, rfl⟩ := List.mem_map.1 hname
      exact Text.not_mem_of_mem_splitOn piece hpiece

/-- No name that is listed has a slash. -/
theorem SlashFree.fileNames {names : List RawText} (h : t.SlashFree)
    (hnames : t.fileNames path = some names) : ∀ name ∈ names, RawText.slash ∉ name.bytes := by
  unfold FileTree.fileNames at hnames
  obtain ⟨here, -, hlisted⟩ := Option.bind_eq_some_iff.1 hnames
  split at hlisted
  · cases hlisted
    intro name hname
    obtain ⟨⟨l, e⟩, hx, hlast⟩ := List.mem_filterMap.1 hname
    cases e with
    | directory => cases hlast
    | file content =>
      dsimp only at hlast
      split at hlast
      · exact h _ hx name (List.mem_of_getLast? hlast)
      · cases hlast
  · cases hlisted

/-! ## Computations -/

section

variable {ε α β : Type}

/-- What a computation gives on a tree, and the tree that it leaves. -/
def runOn (t : FileTree) (x : ExceptT ε (StateM FileTree) α) : Except ε α × FileTree := x.run.run t

theorem runOn_lift (x : StateM FileTree α) :
    t.runOn (ExceptT.lift x : ExceptT ε (StateM FileTree) α) = (.ok (x.run t).1, (x.run t).2) := rfl

/-- A failure that is only looked at does not stop the computation. -/
theorem runOn_lift_run {ε' : Type} (x : ExceptT ε' (StateM FileTree) α) :
    t.runOn (ExceptT.lift x.run : ExceptT ε (StateM FileTree) (Except ε' α)) =
      (.ok (t.runOn x).1, (t.runOn x).2) := rfl

theorem runOn_liftM (x : Except ε α) :
    t.runOn (liftM x : ExceptT ε (StateM FileTree) α) = (x, t) := rfl

/-- The second of two steps starts from the tree that the first one left, if that succeeded. -/
theorem runOn_bind (x : ExceptT ε (StateM FileTree) α) (f : α → ExceptT ε (StateM FileTree) β) :
    t.runOn (x >>= f) =
      match t.runOn x with
      | (.ok a, s) => s.runOn (f a)
      | (.error e, s) => (.error e, s) := by
  change StateT.run (ExceptT.bindCont f (t.runOn x).1) (t.runOn x).2 = _
  rcases t.runOn x with ⟨_ | a, s⟩ <;> rfl

theorem runOn_bind_ok {x : ExceptT ε (StateM FileTree) α}
    {f : α → ExceptT ε (StateM FileTree) β} {b : β} :
    t.runOn (x >>= f) = (.ok b, t') ↔
      ∃ a s, t.runOn x = (.ok a, s) ∧ s.runOn (f a) = (.ok b, t') := by
  rw [runOn_bind]
  rcases t.runOn x with ⟨_ | a, s⟩ <;> simp

theorem runOn_demand (e : ε) (x : StateM FileTree (Option α)) :
    t.runOn (FileAccess.demand e x) = ((x.run t).1.elim (.error e) .ok, (x.run t).2) := by
  change t.runOn (ExceptT.lift x >>= _) = _
  rw [runOn_bind, runOn_lift]
  cases (x.run t).1 <;> rfl

theorem runOn_ensure (e : ε) (x : StateM FileTree Bool) :
    t.runOn (FileAccess.ensure e x) =
      (if (x.run t).1 then .ok () else .error e, (x.run t).2) := by
  change t.runOn (ExceptT.lift x >>= _) = _
  rw [runOn_bind, runOn_lift]
  cases (x.run t).1 <;> rfl

theorem runOn_demand_ok {e : ε} {x : StateM FileTree (Option α)} {a : α} :
    t.runOn (FileAccess.demand e x) = (.ok a, t') ↔ x.run t = (some a, t') := by
  rw [runOn_demand]
  rcases x.run t with ⟨_ | b, s⟩ <;> constructor <;> intro h <;> cases h <;> rfl

theorem runOn_ensure_ok {e : ε} {x : StateM FileTree Bool} {u : PUnit} :
    t.runOn (FileAccess.ensure e x) = (.ok u, t') ↔ x.run t = (true, t') := by
  rw [runOn_ensure]
  rcases x.run t with ⟨_ | _, s⟩ <;> constructor <;> intro h <;> cases h <;> rfl

/-- Writing goes on if there is a place, and leaves the tree as it is if there is none. -/
theorem runOn_ensure_write {x : StateM FileTree Bool} (hx : x.run t = (t.write path content).swap)
    (e : ε) : t.runOn (FileAccess.ensure e x) =
      (t.place? path).elim (.error e, t) fun here => (.ok (), t.set here (.file content)) := by
  rw [runOn_ensure, hx, write_eq]
  cases t.place? path <;> rfl

end

end RasterTile.FileTree

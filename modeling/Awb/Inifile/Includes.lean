import Awb.Inifile.CxxInifile
import Awb.Lib.Traverse

/-! `IniFile::Parse` with the working directory of the process, which it changes for every include
and changes back. There is no test for files that include one another. -/

namespace Awb.Inifile

/-- What comes of opening a file. -/
inductive Opened where
  | absent
  /-- Such as a directory, which is open but never at its end. -/
  | unreadable
  | file (text : Text)
  deriving DecidableEq, Repr

/-- The directories that a process can be in, with the files it sees from there. -/
structure Process (Dir : Type) where
  openFile : Dir → Text → Opened
  chdir : Dir → Text → Option Dir
  getCWD : Dir → Text
  /-- The name of a directory leads back to it. -/
  chdir_getCWD : ∀ dir dir', chdir dir (getCWD dir') = some dir'

/-- `Parse` between two lines. -/
structure ParseState (Dir : Type) extends Cxx.State where
  dir : Dir

namespace Process
variable {Dir : Type} (p : Process Dir)

/-- `chdir`, whose result is not looked at. -/
def changeDir (dir : Dir) (name : Text) : Dir := (p.chdir dir name).getD dir

/-- What `Parse` returns, with what it leaves behind. -/
abbrev Outcome (Dir : Type) := Bool × Dir × GroupMap × List Warning

/-- A line of the file. -/
def parseLine (parse : Dir → Text → GroupMap → Option (Outcome Dir)) (parseFileName : Text)
    (s : ParseState Dir) (line : Text) : Option (Bool × ParseState Dir) :=
  match Cxx.lineKind line with
  | .includes name =>
    let cwd := p.getCWD s.dir
    (parse (p.changeDir s.dir (fileHead parseFileName)) name s.groupMap).map
      fun (status, dir, groupMap, warnings) =>
        let s := { s with groupMap, warnings := s.warnings ++ warnings }
        if status then (true, { s with dir := p.changeDir dir cwd }) else (false, { s with dir })
  | _ => (Cxx.parseLine (fun _ _ => none) s.toState line).map fun state =>
    (true, { s with toState := state })

/-- The loop over the lines, which an include that fails leaves. -/
def parseLines (parse : Dir → Text → GroupMap → Option (Outcome Dir)) (parseFileName : Text) :
    ParseState Dir → List Text → Option (Bool × ParseState Dir)
  | s, [] => some (true, s)
  | s, line :: lines => do
    let (status, s) ← p.parseLine parse parseFileName s line
    if status then parseLines parse parseFileName s lines else return (false, s)

/-- `Parse`. -/
def parse : ℕ → Dir → Text → GroupMap → Option (Outcome Dir)
  | 0, _, _, _ => none
  | fuel + 1, dir, parseFileName, groupMap =>
    match p.openFile dir parseFileName with
    | .absent => some (false, dir, groupMap, [])
    | .unreadable => none
    | .file text =>
      (p.parseLines (parse fuel) parseFileName { groupMap, dir } ((rawLines text).map chomp)).map
        fun (status, s) => (status, s.dir, s.groupMap, s.warnings)

/-! ### The files that are included -/

/-- The name that a line includes. -/
def includeOf (line : Text) : Option Text :=
  match Cxx.lineKind line with
  | .includes name => some name
  | _ => none

/-- A file is looked up in the directory of the file that includes it. -/
def below (node : Dir × Text) (name : Text) : Dir × Text :=
  (p.changeDir node.1 (fileHead node.2), name)

/-- A file with the directory it is looked up in, and what has to be parsed for it. -/
def expand (_ : ℕ) (node : Dir × Text) : Option (Option (List (Dir × Text))) :=
  match p.openFile node.1 node.2 with
  | .absent => some none
  | .unreadable => none
  | .file text => some (some (((rawLines text).map chomp).filterMap fun line =>
      (includeOf line).map (p.below node)))

theorem stable_expand : Traverse.Stable p.expand := fun _ _ _ _ _ h => h

variable {p} {dir : Dir} {parseFileName line : Text} {s s' : ParseState Dir}
  {inner : Dir → Text → GroupMap → Option (Outcome Dir)} {v : Dir × Text → Option Bool}

theorem includeOf_eq_some_iff {name : Text} :
    includeOf line = some name ↔ Cxx.lineKind line = .includes name := by
  unfold includeOf
  cases Cxx.lineKind line <;> simp

theorem parseLine_includes {name : Text} (h : Cxx.lineKind line = .includes name) :
    p.parseLine inner parseFileName s line =
      (inner (p.changeDir s.dir (fileHead parseFileName)) name s.groupMap).map
        fun (status, dir, groupMap, warnings) =>
          let s' := { s with groupMap, warnings := s.warnings ++ warnings }
          if status then (true, { s' with dir := p.changeDir dir (p.getCWD s.dir) })
          else (false, { s' with dir }) := by
  rw [parseLine, h]

/-- A line that includes nothing. -/
theorem parseLine_plain (h : includeOf line = none) : ∃ state,
    p.parseLine inner parseFileName s line = some (true, { s with toState := state }) ∧
      ∀ parse, Cxx.parseLine parse s.toState line = some state := by
  unfold includeOf at h
  unfold parseLine Cxx.parseLine
  cases hkind : Cxx.lineKind line with
  | includes name => rw [hkind] at h; cases h
  | item name value => cases s.currentNameMap <;> exact ⟨_, rfl, fun _ => rfl⟩
  | comment => exact ⟨_, rfl, fun _ => rfl⟩
  | blank => exact ⟨_, rfl, fun _ => rfl⟩
  | group name => exact ⟨_, rfl, fun _ => rfl⟩
  | garbage => exact ⟨_, rfl, fun _ => rfl⟩

/-- A line that does not fail leaves the directory as it was: it is entered again. -/
theorem parseLine_keeps (h : p.parseLine inner parseFileName s line = some (true, s')) :
    s'.dir = s.dir := by
  cases hincludes : includeOf line with
  | none =>
    obtain ⟨state, hstate, -⟩ := @parseLine_plain _ p parseFileName _ s inner hincludes
    rw [hstate] at h
    exact (Prod.mk.inj (Option.some.inj h)).2 ▸ rfl
  | some name =>
    rw [parseLine_includes (includeOf_eq_some_iff.mp hincludes)] at h
    obtain ⟨⟨_ | _, after, groupMap, warnings⟩, -, heq⟩ := Option.map_eq_some_iff.mp h
    · cases heq
    · obtain rfl := (Prod.mk.inj heq).2
      rw [changeDir, p.chdir_getCWD, Option.getD_some]

theorem parseLines_keeps {lines : List Text}
    (h : p.parseLines inner parseFileName s lines = some (true, s')) : s'.dir = s.dir := by
  induction lines generalizing s with
  | nil => exact (Prod.mk.inj (Option.some.inj h)).2 ▸ rfl
  | cons line lines ih =>
    obtain ⟨⟨_ | _, after⟩, hline, hrest⟩ := Option.bind_eq_some_iff.mp h
    · cases hrest
    · exact (ih hrest).trans (parseLine_keeps hline)

theorem parse_keeps {fuel : ℕ} {groupMap : GroupMap} {after : Dir × GroupMap × List Warning}
    (h : p.parse fuel dir parseFileName groupMap = some (true, after)) : after.1 = dir := by
  cases fuel with
  | zero => cases h
  | succ fuel =>
    rw [parse] at h
    cases hopen : p.openFile dir parseFileName with
    | absent => rw [hopen] at h; cases h
    | unreadable => rw [hopen] at h; cases h
    | file text =>
      rw [hopen] at h
      obtain ⟨⟨status, s'⟩, hlines, heq⟩ := Option.map_eq_some_iff.mp h
      obtain ⟨rfl, rfl⟩ := Prod.mk.inj heq
      exact parseLines_keeps hlines

section Inner
variable (hinner : ∀ name groupMap,
  (inner (p.changeDir dir (fileHead parseFileName)) name groupMap).map Prod.fst =
    v (p.below (dir, parseFileName) name))
include hinner

/-- A line, if the parsing of included files ends as their visits do. -/
theorem parseLine_status (hdir : s.dir = dir) :
    (p.parseLine inner parseFileName s line).map Prod.fst =
      ((includeOf line).map (p.below (dir, parseFileName))).elim (some true) v := by
  cases h : includeOf line with
  | none =>
    obtain ⟨state, hstate, -⟩ := @parseLine_plain _ p parseFileName _ s inner h
    rw [hstate]
    rfl
  | some name =>
    rw [parseLine_includes (includeOf_eq_some_iff.mp h), Option.map_some, Option.elim_some,
      ← hinner name s.groupMap, hdir]
    rcases inner (p.changeDir dir (fileHead parseFileName)) name s.groupMap with
      _ | ⟨_ | _, _⟩ <;> rfl

/-- The loop visits the included files one after the other. -/
theorem parseLines_status (hdir : s.dir = dir) (lines : List Text) :
    (p.parseLines inner parseFileName s lines).map Prod.fst =
      Traverse.visitAll v (lines.filterMap fun line =>
        (includeOf line).map (p.below (dir, parseFileName))) := by
  induction lines generalizing s with
  | nil => rfl
  | cons line lines ih =>
    rw [Traverse.visitAll_filterMap_cons, ← parseLine_status hinner hdir, parseLines]
    cases hline : p.parseLine inner parseFileName s line with
    | none => rfl
    | some outcome =>
      obtain ⟨_ | _, after⟩ := outcome
      · rfl
      · exact ih ((parseLine_keeps hline).trans hdir)

end Inner

/-- `Parse` ends as a visit of the file does. -/
theorem parse_status (fuel : ℕ) (groupMap : GroupMap) :
    (p.parse fuel dir parseFileName groupMap).map Prod.fst =
      Traverse.visit p.expand fuel (dir, parseFileName) := by
  induction fuel generalizing dir parseFileName groupMap with
  | zero => rfl
  | succ fuel ih =>
    rw [parse, Traverse.visit, expand]
    cases p.openFile dir parseFileName with
    | absent => rfl
    | unreadable => rfl
    | file text =>
      have hinner : ∀ name groupMap,
          (p.parse fuel (p.changeDir dir (fileHead parseFileName)) name groupMap).map Prod.fst =
            Traverse.visit p.expand fuel (p.below (dir, parseFileName) name) := fun _ _ => ih _
      have hlines := parseLines_status (s := { groupMap, dir }) hinner rfl
        ((rawLines text).map chomp)
      rw [Option.bind_some, Option.elim_some, ← hlines, Option.map_map]
      rfl

/-! ### More fuel -/

section Mono
variable {outer : Dir → Text → GroupMap → Option (Outcome Dir)}
  (hmono : ∀ dir name groupMap outcome, inner dir name groupMap = some outcome →
    outer dir name groupMap = some outcome)
include hmono

theorem parseLine_mono {r : Bool × ParseState Dir}
    (h : p.parseLine inner parseFileName s line = some r) :
    p.parseLine outer parseFileName s line = some r := by
  rw [parseLine] at h ⊢
  cases hkind : Cxx.lineKind line with
  | includes name =>
    rw [hkind] at h
    obtain ⟨outcome, hinner, heq⟩ := Option.map_eq_some_iff.mp h
    exact Option.map_eq_some_iff.mpr ⟨outcome, hmono _ _ _ _ hinner, heq⟩
  | _ =>
    rw [hkind] at h
    exact h

theorem parseLines_mono {lines : List Text} {r : Bool × ParseState Dir}
    (h : p.parseLines inner parseFileName s lines = some r) :
    p.parseLines outer parseFileName s lines = some r := by
  induction lines generalizing s with
  | nil => exact h
  | cons line lines ih =>
    obtain ⟨⟨ok, after⟩, hline, hrest⟩ := Option.bind_eq_some_iff.mp h
    refine Option.bind_eq_some_iff.mpr ⟨(ok, after), parseLine_mono hmono hline, ?_⟩
    cases ok with
    | false => exact hrest
    | true => exact ih hrest

end Mono

theorem parse_mono {fuel more : ℕ} {groupMap : GroupMap} {outcome : Outcome Dir}
    (hle : fuel ≤ more) (h : p.parse fuel dir parseFileName groupMap = some outcome) :
    p.parse more dir parseFileName groupMap = some outcome := by
  induction fuel generalizing dir parseFileName groupMap outcome more with
  | zero => cases h
  | succ fuel ih =>
    obtain ⟨more, rfl⟩ := Nat.exists_eq_succ_of_ne_zero (Nat.ne_of_gt (Nat.lt_of_lt_of_le
      (Nat.succ_pos fuel) hle))
    rw [parse] at h ⊢
    cases hopen : p.openFile dir parseFileName with
    | absent => rwa [hopen] at h
    | unreadable => rw [hopen] at h; cases h
    | file text =>
      rw [hopen] at h
      obtain ⟨r, hlines, heq⟩ := Option.map_eq_some_iff.mp h
      refine Option.map_eq_some_iff.mpr ⟨r, ?_, heq⟩
      exact parseLines_mono (fun _ _ _ _ => ih (Nat.le_of_succ_le_succ hle)) hlines

/-! ### The reader with a fixed directory -/

/-- The files as a reader sees them that looks up includes without changing the directory. -/
def fileSystem (p : Process Dir) : FileSystem Dir where
  read dir name := match p.openFile dir name with
    | .file text => some text
    | _ => none
  chdir := p.chdir
  stdin := []

/-- What is left of an outcome when the directory is forgotten. -/
def Outcome.result (outcome : Outcome Dir) : Option (GroupMap × List Warning) :=
  if outcome.1 then some outcome.2.2 else none

theorem parseLine_fixed {parse : Text → GroupMap → Option (GroupMap × List Warning)} {ok : Bool}
    (hparse : ∀ name groupMap outcome,
      inner (p.changeDir s.dir (fileHead parseFileName)) name groupMap = some outcome →
        parse name groupMap = outcome.result)
    (h : p.parseLine inner parseFileName s line = some (ok, s')) :
    Cxx.parseLine parse s.toState line = if ok then some s'.toState else none := by
  cases hincludes : includeOf line with
  | none =>
    obtain ⟨state, hstate, hfixed⟩ := parseLine_plain hincludes
    rw [hstate] at h
    obtain ⟨rfl, rfl⟩ := Prod.mk.inj (Option.some.inj h)
    exact hfixed parse
  | some name =>
    have hkind := includeOf_eq_some_iff.mp hincludes
    rw [parseLine_includes hkind] at h
    obtain ⟨⟨status, after, groupMap, warnings⟩, hinner, heq⟩ := Option.map_eq_some_iff.mp h
    rw [Cxx.parseLine, hkind]
    simp only
    rw [hparse _ _ _ hinner]
    cases status
    · obtain ⟨rfl, rfl⟩ := Prod.mk.inj heq
      rfl
    · obtain ⟨rfl, rfl⟩ := Prod.mk.inj heq
      rfl

theorem parseLines_fixed {parse : Text → GroupMap → Option (GroupMap × List Warning)} {ok : Bool}
    {lines : List Text}
    (hparse : ∀ name groupMap outcome,
      inner (p.changeDir dir (fileHead parseFileName)) name groupMap = some outcome →
        parse name groupMap = outcome.result) (hdir : s.dir = dir)
    (h : p.parseLines inner parseFileName s lines = some (ok, s')) :
    lines.foldlM (Cxx.parseLine parse) s.toState = if ok then some s'.toState else none := by
  induction lines generalizing s with
  | nil =>
    obtain ⟨rfl, rfl⟩ := Prod.mk.inj (Option.some.inj h)
    rfl
  | cons line lines ih =>
    obtain ⟨⟨status, after⟩, hline, hrest⟩ := Option.bind_eq_some_iff.mp h
    rw [List.foldlM_cons, parseLine_fixed (hdir.symm ▸ hparse) hline]
    cases status with
    | false =>
      obtain ⟨rfl, rfl⟩ := Prod.mk.inj (Option.some.inj hrest)
      rfl
    | true => exact ih ((parseLine_keeps hline).trans hdir) hrest

/-- As long as the directories lead back, changing them is looking up includes from them. -/
theorem parse_fixed {fuel : ℕ} {groupMap : GroupMap} {outcome : Outcome Dir}
    (h : p.parse fuel dir parseFileName groupMap = some outcome) :
    Cxx.parse p.fileSystem fuel dir parseFileName groupMap = outcome.result := by
  induction fuel generalizing dir parseFileName groupMap outcome with
  | zero => cases h
  | succ fuel ih =>
    rw [parse] at h
    rw [Cxx.parse, fileSystem]
    cases hopen : p.openFile dir parseFileName with
    | absent =>
      rw [hopen] at h
      obtain rfl := Option.some.inj h
      simp [hopen, Outcome.result]
    | unreadable =>
      rw [hopen] at h
      cases h
    | file text =>
      rw [hopen] at h
      obtain ⟨⟨ok, s'⟩, hlines, rfl⟩ := Option.map_eq_some_iff.mp h
      have hinner : ∀ name groupMap outcome,
          p.parse fuel (p.changeDir dir (fileHead parseFileName)) name groupMap = some outcome →
            Cxx.parse p.fileSystem fuel (Cxx.enter p.fileSystem dir parseFileName) name groupMap =
              outcome.result := fun _ _ _ => ih
      have hloop := parseLines_fixed hinner rfl hlines
      simp only [hopen, Option.bind_eq_bind, Option.bind_some]
      refine (congrArg (Option.bind · _) hloop).trans ?_
      cases ok <;> rfl

/-! ### The results -/

variable (p dir parseFileName)

/-- A chain of includes comes to a file that cannot be opened, and every include before one of the
chain is complete. -/
def MeetsAbsent : Prop := ∃ node, Relation.ReflTransGen (Traverse.Reaches p.expand)
  (dir, parseFileName) node ∧ p.openFile node.1 node.2 = .absent

theorem fails_iff {node : Dir × Text} :
    Traverse.Fails p.expand node ↔ p.openFile node.1 node.2 = .absent := by
  constructor
  · rintro ⟨fuel, h⟩
    unfold expand at h
    cases hopen : p.openFile node.1 node.2 with
    | absent => rfl
    | unreadable => rw [hopen] at h; cases h
    | file text => rw [hopen] at h; cases h
  · intro h
    exact ⟨0, by rw [expand, h]⟩

theorem status_iff {ok : Bool} (groupMap : GroupMap) :
    (∃ fuel after, p.parse fuel dir parseFileName groupMap = some (ok, after)) ↔
      ∃ fuel, Traverse.visit p.expand fuel (dir, parseFileName) = some ok := by
  refine exists_congr fun fuel => ?_
  rw [← parse_status fuel groupMap, Option.map_eq_some_iff]
  exact ⟨fun ⟨after, h⟩ => ⟨_, h, rfl⟩, fun ⟨⟨status, after⟩, h, hok⟩ => ⟨after, hok ▸ h⟩⟩

/-- All files in one directory. -/
def oneDirectory (openFile : Text → Opened) : Process Unit where
  openFile _ := openFile
  chdir _ _ := some ()
  getCWD _ := ['/']
  chdir_getCWD _ _ := rfl

/-- A single file that includes itself. -/
def selfIncluding : Process Unit :=
  oneDirectory fun name => if name = ['a'] then .file "#include \"a\"".toList else .absent

end Process
end Awb.Inifile

import Awb.Classic.EventFlags
import Mathlib.Logic.Relation
import Mathlib.Tactic

/-! The sizes of the argument arrays while the command line is partitioned. The arguments of a
`-cfg` file make the arrays larger by as many, and the count of a `-repeat` is added to the size of
the feeder's array, also if it is negative. -/

namespace Awb.Classic

/-- `PartitionArgs` between two iterations: the sizes of the arrays, and what is left of the
arguments of every file that is open, those of the command line last. -/
structure ArgState where
  partition : Partition
  awbArgcMax : ℕ
  sysArgcMax : ℕ
  fdArgcMax : ℕ
  frames : List (List String)

def Environment.repeatCount (env : Environment) (n : String) : ℤ :=
  (env.atoiGeneral n).bmod (2 ^ 32)

/-- A size of 32 bits after a number was added. -/
def addSize (size : ℕ) (n : ℤ) : ℕ := ((size + n) % 2 ^ 32).toNat

namespace ArgState

def start (v : Variables) (argv : List String) : ArgState where
  partition := { toVariables := v }
  awbArgcMax := argv.length
  sysArgcMax := argv.length
  fdArgcMax := argv.length
  frames := [argv.drop 1]

/-- The arguments that are still to be looked at. -/
def pending (s : ArgState) : ℕ := (s.frames.map List.length).sum

/-- The count of the `-repeat` that is next. -/
def repeatArg (s : ArgState) : Option String :=
  match s.frames with
  | (arg :: n :: _) :: _ =>
    if arg = "-repeat" ∧ s.partition.feederArgs = true then some n else none
  | _ => none

/-- The file that the `-cfg` that is next names, and its arguments. -/
def configArg (env : Environment) (s : ArgState) : Option (String × List String) :=
  match s.frames with
  | (arg :: file :: _) :: _ =>
    if arg = "-cfg" then
      (env.configFile s.partition.cfgFilenameStack file).map fun f => (f.1, configWords f.2)
    else none
  | _ => none

/-- The loop over the arguments of an opened file. -/
def openFile (s : ArgState) (name : String) (args rest : List String)
    (frames : List (List String)) : ArgState where
  partition :=
    { s.partition with cfgFilenameStack := name :: s.partition.cfgFilenameStack }
  awbArgcMax := addSize s.awbArgcMax args.length
  sysArgcMax := addSize s.sysArgcMax args.length
  fdArgcMax := addSize s.fdArgcMax args.length
  frames := args :: rest :: frames

/-- Back in `PartitionOneArg` after the last argument of a file. -/
def closeFile (s : ArgState) (frames : List (List String)) : ArgState :=
  { s with
    partition := { s.partition with cfgFilenameStack := s.partition.cfgFilenameStack.drop 1 }
    frames }

/-- One iteration of the innermost loop, or its end; there is none after the last argument of the
command line. -/
def next (env : Environment) (s : ArgState) : Except Abort (Option ArgState) :=
  match s.frames with
  | [] => .ok none
  | [] :: [] => .ok none
  | [] :: frames => .ok (some (s.closeFile frames))
  | (arg :: rest) :: frames =>
    if arg = "-cfg" then
      match rest with
      | [] => .error .nullArgument
      | _ :: rest =>
        match s.configArg env with
        | none => .error .assertion
        | some (name, args) =>
          if args.length < 4096 then .ok (some (s.openFile name args rest frames))
          else .error .assertion
    else
      match partitionOneArg env (fun _ _ => .error .configFile) s.partition arg rest with
      | .error a => .error a
      | .ok (incr, p) => .ok <| some
        { s with
          partition := p
          fdArgcMax := (s.repeatArg.map fun n => addSize s.fdArgcMax (env.repeatCount n)).getD
            s.fdArgcMax
          frames := rest.drop incr :: frames }

def Step (env : Environment) (s t : ArgState) : Prop := s.next env = .ok (some t)

/-- So many arguments are in an array of the size, and there is a slot for the final `NULL`. -/
def InArray (argc max : ℕ) : Prop := argc ≤ max ∧ argc < (max + 1) % 2 ^ 32

structure Fits (s : ArgState) : Prop where
  awb : InArray s.partition.awbArgv.length s.awbArgcMax
  sys : InArray s.partition.sysArgv.length s.sysArgcMax
  fd : InArray s.partition.fdArgv.length s.fdArgcMax

/-- The argument before the first one is repeated. -/
def ReadsBefore (env : Environment) (s : ArgState) : Prop :=
  ∃ n, s.repeatArg = some n ∧ 0 < env.repeatCount n ∧ s.partition.fdArgv = []

/-- There is an argument to repeat, and the size that the feeder's array gets has room for the
repeated arguments and for those that are still to be looked at; the arguments of a file do not
make an array larger than 32 bits can say. -/
structure StepOk (env : Environment) (s : ArgState) : Prop where
  repeats : ∀ n, s.repeatArg = some n → 0 < env.repeatCount n → s.partition.fdArgv ≠ []
  room : ∀ n, s.repeatArg = some n →
    s.partition.fdArgv.length + (env.repeatCount n).toNat + (s.pending - 2) ≤
      addSize s.fdArgcMax (env.repeatCount n) ∧
    addSize s.fdArgcMax (env.repeatCount n) + 1 < 2 ^ 32
  files : ∀ f, s.configArg env = some f → s.awbArgcMax + f.2.length + 1 < 2 ^ 32 ∧
    s.sysArgcMax + f.2.length + 1 < 2 ^ 32 ∧ s.fdArgcMax + f.2.length + 1 < 2 ^ 32

/-! ### One iteration -/

/-- All arguments that are still to be looked at would find room in the array. -/
def HasRoom (argc pending max : ℕ) : Prop := argc + pending ≤ max ∧ max + 1 < 2 ^ 32

structure Room (s : ArgState) : Prop where
  awb : HasRoom s.partition.awbArgv.length s.pending s.awbArgcMax
  sys : HasRoom s.partition.sysArgv.length s.pending s.sysArgcMax
  fd : HasRoom s.partition.fdArgv.length s.pending s.fdArgcMax

variable {env : Environment} {s t : ArgState} {argc argc' pending pending' max n : ℕ}

theorem HasRoom.inArray (h : HasRoom argc pending max) : InArray argc max := by
  obtain ⟨hroom, hmax⟩ := h
  refine ⟨by omega, ?_⟩
  rw [Nat.mod_eq_of_lt hmax]
  omega

theorem Room.fits (h : s.Room) : s.Fits := ⟨h.awb.inArray, h.sys.inArray, h.fd.inArray⟩

/-- What is still to be looked at becomes less by what is put in the array. -/
theorem HasRoom.shrink (h : HasRoom argc pending max) (hle : argc' + pending' ≤ argc + pending) :
    HasRoom argc' pending' max := ⟨hle.trans h.1, h.2⟩

theorem addSize_natCast (h : max + n < 2 ^ 32) : addSize max n = max + n := by
  unfold addSize
  omega

/-- A file makes room for its arguments. -/
theorem HasRoom.grow (h : HasRoom argc pending max) (hmax : max + n + 1 < 2 ^ 32)
    (hpending : pending' ≤ n + pending) : HasRoom argc pending' (addSize max n) := by
  rw [addSize_natCast (by omega)]
  exact ⟨by have := h.1; omega, hmax⟩

theorem room_start (v : Variables) {argv : List String} (h : argv.length < 2 ^ 31) :
    (start v argv).Room := by
  have hroom : HasRoom 0 (start v argv).pending argv.length := by
    refine ⟨?_, by omega⟩
    simp only [pending, start, List.map_cons, List.map_nil, List.sum_cons, List.sum_nil,
      List.length_drop]
    omega
  exact ⟨hroom, hroom, hroom⟩

end ArgState

/-- An iteration that is not for a `-cfg` puts the argument in one of the arrays at most, or
repeats the feeder's last one. -/
theorem partitionOneArg_lengths {env : Environment}
    {parse : String → Partition → Except Abort Partition} {p p' : Partition} {arg : String}
    {rest : List String} {incr : ℕ} (h : partitionOneArg env parse p arg rest = .ok (incr, p'))
    (hcfg : arg ≠ "-cfg") :
    p'.awbArgv.length ≤ p.awbArgv.length + 1 ∧ p'.sysArgv.length ≤ p.sysArgv.length + 1 ∧
      if arg = "-repeat" ∧ p.feederArgs = true then
        incr = 1 ∧ ∃ n more, rest = n :: more ∧
          p'.fdArgv.length = p.fdArgv.length + (env.repeatCount n).toNat
      else p'.fdArgv.length ≤ p.fdArgv.length + 1 := by
  unfold partitionOneArg at h
  split_ifs at h with hawb hfeeder hsystem hfd hrepeat hsys
  · obtain ⟨rfl, rfl⟩ := Prod.mk.inj (Except.ok.inj h)
    simp [hawb]
  · obtain ⟨rfl, rfl⟩ := Prod.mk.inj (Except.ok.inj h)
    simp [hfeeder]
  · obtain ⟨rfl, rfl⟩ := Prod.mk.inj (Except.ok.inj h)
    simp [hsystem]
  · rw [if_pos ⟨hrepeat, hfd⟩]
    cases rest with
    | nil => cases h
    | cons n more =>
      dsimp only at h
      split at h
      · obtain ⟨rfl, rfl⟩ := Prod.mk.inj (Except.ok.inj h)
        refine ⟨by simp, by simp, rfl, n, more, rfl, ?_⟩
        simp only [List.length_append, List.length_replicate, Environment.repeatCount]
      · split_ifs at h with hzero
        obtain ⟨rfl, rfl⟩ := Prod.mk.inj (Except.ok.inj h)
        exact ⟨by simp, by simp, rfl, n, more, rfl, by rw [Environment.repeatCount, hzero]; rfl⟩
  · obtain ⟨rfl, rfl⟩ := Prod.mk.inj (Except.ok.inj h)
    simp [hrepeat]
  · obtain ⟨rfl, rfl⟩ := Prod.mk.inj (Except.ok.inj h)
    simp [hfd]
  · rw [if_neg fun h => hfd h.2]
    split at h
    · cases h
    · obtain ⟨rfl, rfl⟩ := Prod.mk.inj (Except.ok.inj h)
      simp
    · obtain ⟨rfl, rfl⟩ := Prod.mk.inj (Except.ok.inj h)
      simp

namespace ArgState

variable {env : Environment} {s t : ArgState}

/-- What an iteration does, by the innermost loop. -/
theorem step_cases (h : s.Step env t) :
    (∃ frames, s.frames = [] :: frames ∧ t = s.closeFile frames) ∨
    (∃ file rest frames name args, s.frames = ("-cfg" :: file :: rest) :: frames ∧
      s.configArg env = some (name, args) ∧ t = s.openFile name args rest frames) ∨
    ∃ arg rest frames incr p, s.frames = (arg :: rest) :: frames ∧ arg ≠ "-cfg" ∧
      partitionOneArg env (fun _ _ => .error .configFile) s.partition arg rest = .ok (incr, p) ∧
      t = { s with
        partition := p
        fdArgcMax := (s.repeatArg.map fun n => addSize s.fdArgcMax (env.repeatCount n)).getD
          s.fdArgcMax
        frames := rest.drop incr :: frames } := by
  unfold Step next at h
  split at h
  · cases h
  · cases h
  · rename_i frames _ hframes
    exact .inl ⟨frames, hframes, (Option.some.inj (Except.ok.inj h)).symm⟩
  · rename_i arg rest frames hframes
    split_ifs at h with hcfg
    · subst hcfg
      cases rest with
      | nil => cases h
      | cons file rest =>
        dsimp only at h
        split at h
        · cases h
        · rename_i name args hfile
          split_ifs at h
          exact .inr <| .inl ⟨file, rest, frames, name, args, hframes, hfile,
            (Option.some.inj (Except.ok.inj h)).symm⟩
    · split at h
      · cases h
      · rename_i incr p hone
        exact .inr <| .inr ⟨arg, rest, frames, incr, p, hframes, hcfg, hone,
          (Option.some.inj (Except.ok.inj h)).symm⟩

/-- There is room after a step whose condition is met. -/
theorem Room.step (hroom : s.Room) (hok : s.StepOk env) (h : s.Step env t) : t.Room := by
  obtain ⟨frames, hframes, rfl⟩ | ⟨file, rest, frames, name, args, hframes, hfile, rfl⟩ |
    ⟨arg, rest, frames, incr, p, hframes, hcfg, hone, rfl⟩ := step_cases h
  · have hpending : (s.closeFile frames).pending = s.pending := by
      simp [pending, closeFile, hframes]
    exact ⟨hroom.awb.shrink (by rw [hpending]; rfl), hroom.sys.shrink (by rw [hpending]; rfl),
      hroom.fd.shrink (by rw [hpending]; rfl)⟩
  · have hpending : (s.openFile name args rest frames).pending ≤ args.length + s.pending := by
      simp only [pending, openFile, hframes, List.map_cons, List.sum_cons, List.length_cons]
      omega
    obtain ⟨hawb, hsys, hfd⟩ := hok.files _ hfile
    exact ⟨hroom.awb.grow hawb hpending, hroom.sys.grow hsys hpending,
      hroom.fd.grow hfd hpending⟩
  · obtain ⟨hawb, hsys, hfd⟩ := partitionOneArg_lengths hone hcfg
    have hpending : s.pending = rest.length + 1 + (frames.map List.length).sum := by
      simp only [pending, hframes, List.map_cons, List.sum_cons, List.length_cons]
    refine ⟨hroom.awb.shrink ?_, hroom.sys.shrink ?_, ?_⟩
    · simp only [pending, List.map_cons, List.sum_cons, List.length_drop] at hpending ⊢
      omega
    · simp only [pending, List.map_cons, List.sum_cons, List.length_drop] at hpending ⊢
      omega
    · split_ifs at hfd with hrepeat
      · -- The only step in which the feeder's array and its size grow at once.
        obtain ⟨rfl, n, more, rfl, hlength⟩ := hfd
        have harg : s.repeatArg = some n := by
          unfold repeatArg
          rw [hframes]
          exact if_pos hrepeat
        obtain ⟨hle, hmax⟩ := hok.room n harg
        rw [harg]
        refine ⟨le_trans ?_ hle, hmax⟩
        simp only [pending, hframes, List.map_cons, List.sum_cons, List.length_cons,
          List.length_drop] at hlength ⊢
        omega
      · have harg : s.repeatArg = none := by
          unfold repeatArg
          rw [hframes]
          cases rest with
          | nil => rfl
          | cons n more => exact if_neg hrepeat
        rw [harg]
        refine hroom.fd.shrink ?_
        simp only [pending, List.map_cons, List.sum_cons, List.length_drop] at hpending ⊢
        omega

/-- From any state with the partition and the loops, the iterations lead to one with others. -/
def Reaches (env : Environment) (p : Partition) (frames : List (List String)) (p' : Partition)
    (frames' : List (List String)) : Prop :=
  ∀ s : ArgState, s.partition = p → s.frames = frames → ∃ t : ArgState,
    Relation.ReflTransGen (Step env) s t ∧ t.partition = p' ∧ t.frames = frames'

theorem Reaches.trans {p p' q : Partition} {frames frames' next : List (List String)}
    (h : Reaches env p frames p' frames') (h' : Reaches env p' frames' q next) :
    Reaches env p frames q next := by
  intro s hp hframes
  obtain ⟨t, hst, ht, htframes⟩ := h s hp hframes
  obtain ⟨u, htu, hu⟩ := h' t ht htframes
  exact ⟨u, hst.trans htu, hu⟩

theorem reaches_iteration {p p' : Partition} {arg : String} {rest : List String} {incr : ℕ}
    {parse : String → Partition → Except Abort Partition} (frames : List (List String))
    (hcfg : arg ≠ "-cfg") (h : partitionOneArg env parse p arg rest = .ok (incr, p')) :
    Reaches env p ((arg :: rest) :: frames) p' (rest.drop incr :: frames) := by
  rintro s rfl hframes
  have hone : partitionOneArg env (fun _ _ => .error .configFile) s.partition arg rest =
      .ok (incr, p') := by
    rw [← h]
    simp only [partitionOneArg, hcfg, if_false]
  refine ⟨{ s with
    partition := p'
    fdArgcMax := (s.repeatArg.map fun n => addSize s.fdArgcMax (env.repeatCount n)).getD
      s.fdArgcMax
    frames := rest.drop incr :: frames }, .single ?_, rfl, rfl⟩
  unfold Step next
  simp only [hframes, hcfg, if_false, hone]

/-- What the recursive functions compute, the iterations reach. -/
theorem reaches_partitionFrom {parse : String → Partition → Except Abort Partition}
    (hparse : ∀ {file p p'}, parse file p = .ok p' → ∀ rest frames,
      Reaches env p (("-cfg" :: file :: rest) :: frames) p' (rest :: frames))
    {skip : ℕ} {p p' : Partition} {args : List String}
    (h : partitionFrom env parse skip p args = .ok p') (frames : List (List String)) :
    Reaches env p (args.drop skip :: frames) p' ([] :: frames) := by
  induction args generalizing skip p with
  | nil =>
    rw [partitionFrom] at h
    obtain rfl := Except.ok.inj h
    rw [List.drop_nil]
    exact fun s hp hframes => ⟨s, .refl, hp, hframes⟩
  | cons arg rest ih =>
    cases skip with
    | succ skip =>
      rw [partitionFrom] at h
      exact ih h
    | zero =>
      rw [partitionFrom] at h
      split at h
      · cases h
      · rename_i skip q hone
        refine Reaches.trans ?_ (ih h)
        by_cases hcfg : arg = "-cfg"
        · -- The recursive call for the file is the loop on top of this one.
          subst hcfg
          unfold partitionOneArg at hone
          simp only [String.reduceEq, if_false, if_true] at hone
          split at hone
          · cases hone
          · rename_i file more
            split at hone
            · cases hone
            · rename_i q' hfile
              obtain ⟨rfl, rfl⟩ := Prod.mk.inj (Except.ok.inj hone)
              exact hparse hfile more frames
        · exact reaches_iteration frames hcfg hone

theorem reaches_parseConfigFile {depth : ℕ} {file : String} {p p' : Partition}
    (h : parseConfigFile env depth file p = .ok p') (rest : List String)
    (frames : List (List String)) :
    Reaches env p (("-cfg" :: file :: rest) :: frames) p' (rest :: frames) := by
  induction depth generalizing file p p' rest frames with
  | zero => cases h
  | succ depth ih =>
    rw [parseConfigFile] at h
    split at h
    · cases h
    · rename_i name lines hfile
      dsimp only at h
      split_ifs at h with hcount
      split at h
      · cases h
      · rename_i q hargs
        obtain rfl := Except.ok.inj h
        have hwords : Reaches env { p with cfgFilenameStack := name :: p.cfgFilenameStack }
            (configWords lines :: rest :: frames) q ([] :: rest :: frames) :=
          reaches_partitionFrom ih hargs (rest :: frames)
        rintro s rfl hframes
        have hopen : s.Step env (s.openFile name (configWords lines) rest frames) := by
          have harg : s.configArg env = some (name, configWords lines) := by
            simp only [configArg, hframes, if_true, hfile, Option.map_some]
          unfold Step next
          simp only [hframes, if_true, harg, hcount]
        obtain ⟨t, hst, ht, htframes⟩ :=
          hwords (s.openFile name (configWords lines) rest frames) rfl rfl
        have hclose : t.Step env (t.closeFile (rest :: frames)) := by
          unfold Step next
          simp only [htframes]
        exact ⟨t.closeFile (rest :: frames), .head hopen (.tail hst hclose),
          by rw [closeFile, ht], rfl⟩

/-- The iterations come to the partition that `PartitionArgs` returns, and there is none left. -/
theorem reaches_partitionArgs {depth : ℕ} {v : Variables} {argv : List String} {p : Partition}
    (h : partitionArgs env depth v argv = .ok p) :
    ∃ s : ArgState, Relation.ReflTransGen (Step env) (start v argv) s ∧ s.partition = p ∧
      s.next env = .ok none := by
  obtain ⟨s, hs, hp, hframes⟩ :=
    reaches_partitionFrom reaches_parseConfigFile h [] (start v argv) rfl rfl
  refine ⟨s, hs, hp, ?_⟩
  unfold next
  rw [hframes]

/-- The runs whose steps all meet the condition keep room for all arguments. -/
theorem room_of_guarded {v : Variables} {argv : List String} (hargc : argv.length < 2 ^ 31)
    (hrun : Relation.ReflTransGen (fun s t => s.StepOk env ∧ s.Step env t) (start v argv) s) :
    s.Room := by
  induction hrun with
  | refl => exact room_start v hargc
  | tail _ hstep ih => exact ih.step hstep.1 hstep.2

end ArgState

/-- In a run of `PartitionArgs` whose steps all meet the condition, no array is left, and `-repeat`
has an argument to repeat. -/
theorem argArrays_of_guarded (env : Environment) (v : Variables) (argv : List String)
    (hargc : argv.length < 2 ^ 31) {s : ArgState}
    (hrun : Relation.ReflTransGen (fun s t => s.StepOk env ∧ s.Step env t) (.start v argv) s) :
    s.Fits ∧ (s.StepOk env → ¬ s.ReadsBefore env) :=
  ⟨(ArgState.room_of_guarded hargc hrun).fits,
    fun hok ⟨n, hn, hcount, hnil⟩ => hok.repeats n hn hcount hnil⟩

/-- Numbers with a sign. -/
def signedModel : Environment :=
  { tracedModel with
    atoiGeneral := fun s =>
      match s.toList with
      | '-' :: cs => -tracedModel.atoiGeneral (.ofList cs)
      | _ => tracedModel.atoiGeneral s }

/-- The command line after its options for the feeder were looked at. -/
def feederState (fdArgcMax : ℕ) (fdArgv rest : List String) : ArgState where
  partition := { toVariables := noVariables, feederArgs := true, fdArgv }
  awbArgcMax := 5
  sysArgcMax := 5
  fdArgcMax
  frames := [rest]

/-- An argument that is repeated twice. -/
theorem argArrays_repeatTwice :
    (feederState 7 ["a", "a", "a"] []).Fits ∧
      ((feederState 7 ["a", "a", "a"] []).StepOk signedModel →
        ¬ (feederState 7 ["a", "a", "a"] []).ReadsBefore signedModel) := by
  refine argArrays_of_guarded signedModel noVariables ["asim", "--feeder", "a", "-repeat", "2"]
    (by decide) ?_
  have hfeeder : (ArgState.start noVariables ["asim", "--feeder", "a", "-repeat", "2"]).Step
      signedModel (feederState 5 [] ["a", "-repeat", "2"]) := rfl
  have harg : (feederState 5 [] ["a", "-repeat", "2"]).Step signedModel
      (feederState 5 ["a"] ["-repeat", "2"]) := rfl
  have hrepeat : (feederState 5 ["a"] ["-repeat", "2"]).Step signedModel
      (feederState 7 ["a", "a", "a"] []) := rfl
  exact .tail (.tail (.single ⟨⟨by decide, by decide, by decide⟩, hfeeder⟩)
    ⟨⟨by decide, by decide, by decide⟩, harg⟩) ⟨⟨by decide, by decide, by decide⟩, hrepeat⟩

theorem reaches_feederRepeat : ∃ p,
    partitionArgs signedModel 1 noVariables ["asim", "--feeder", "a", "-repeat", "2"] = .ok p ∧
      ∃ s : ArgState, Relation.ReflTransGen (ArgState.Step signedModel)
        (.start noVariables ["asim", "--feeder", "a", "-repeat", "2"]) s ∧ s.partition = p ∧
        s.next signedModel = .ok none :=
  ⟨_, rfl, @ArgState.reaches_partitionArgs signedModel 1 noVariables
    ["asim", "--feeder", "a", "-repeat", "2"] _ rfl⟩

/-- A negative count makes the array smaller than what is in it, and without an argument the one
before the first is repeated. -/
theorem not_argArrays :
    (∃ argv s, argv.length < 2 ^ 31 ∧ Relation.ReflTransGen (ArgState.Step signedModel)
      (.start noVariables argv) s ∧ ¬ s.Fits) ∧
    ∃ argv s, argv.length < 2 ^ 31 ∧ Relation.ReflTransGen (ArgState.Step signedModel)
      (.start noVariables argv) s ∧ s.ReadsBefore signedModel := by
  constructor
  · refine ⟨["asim", "--feeder", "a", "-repeat", "-5"], feederState 0 ["a"] [], by decide, ?_,
      fun h => absurd h.fd.1 (by decide)⟩
    have hfeeder : (ArgState.start noVariables ["asim", "--feeder", "a", "-repeat", "-5"]).Step
        signedModel (feederState 5 [] ["a", "-repeat", "-5"]) := rfl
    have harg : (feederState 5 [] ["a", "-repeat", "-5"]).Step signedModel
        (feederState 5 ["a"] ["-repeat", "-5"]) := rfl
    have hrepeat : (feederState 5 ["a"] ["-repeat", "-5"]).Step signedModel
        (feederState 0 ["a"] []) := rfl
    exact .tail (.tail (.single hfeeder) harg) hrepeat
  · refine ⟨["asim", "--", "--feeder", "-repeat", "1"], feederState 5 [] ["-repeat", "1"],
      by decide, ?_, "1", rfl, by decide, rfl⟩
    have hown : (ArgState.start noVariables ["asim", "--", "--feeder", "-repeat", "1"]).Step
        signedModel { feederState 5 [] ["--feeder", "-repeat", "1"] with
          partition := { toVariables := noVariables } } := rfl
    have hfeeder : ArgState.Step signedModel { feederState 5 [] ["--feeder", "-repeat", "1"] with
        partition := { toVariables := noVariables } } (feederState 5 [] ["-repeat", "1"]) := rfl
    exact .tail (.single hown) hfeeder

end Awb.Classic

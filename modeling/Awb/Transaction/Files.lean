import Mathlib.Tactic

/-! A file system as far as a transaction works on it, and the shell commands that are put in
its logs. File names are plain words to the shell. -/

namespace Awb.Transaction

/-- The components of a name, from the root. -/
abbrev Path := List String

inductive Node
  | file (content : String)
  | dir
  deriving DecidableEq, Repr

abbrev Files := Path → Option Node

namespace Files

/-- A node can be made under this name. -/
def hasParent (fs : Files) (p : Path) : Bool := p ≠ [] && fs p.dropLast = some .dir

/-- Where `cp` and `mv` put a file: under its own name, if the target is a directory. -/
def destination (fs : Files) (source target : Path) : Path :=
  if fs target = some .dir then target ++ source.getLast?.toList else target

/-- What exists stands in a directory. -/
def Tree (fs : Files) : Prop := ∀ p name, fs (p ++ [name]) ≠ none → fs p = some .dir

/-- Below an absent name, and below a file, there is nothing. -/
theorem Tree.none_below {fs : Files} (h : fs.Tree) {p q : Path} (hp : fs p ≠ some .dir)
    (hpq : p <+: q) (hne : p ≠ q) : fs q = none := by
  obtain ⟨rest, rfl⟩ := hpq
  induction rest using List.reverseRecOn with
  | nil => simp at hne
  | append_singleton rest name ih =>
    by_contra hq
    rw [← List.append_assoc] at hq
    have hdir : fs (p ++ rest) = some .dir := h (p ++ rest) name hq
    by_cases hrest : rest = []
    · subst hrest
      rw [List.append_nil] at hdir
      exact hp hdir
    · have hnone : fs (p ++ rest) = none := ih (by simpa using hrest)
      cases hnone.symm.trans hdir

theorem Tree.update {fs : Files} (h : fs.Tree) {p : Path} {n : Option Node}
    (hparent : n ≠ none → fs.hasParent p = true)
    (hchild : n ≠ some .dir → ∀ name, fs (p ++ [name]) = none) :
    Tree (Function.update fs p n) := by
  intro q name hq
  by_cases hqp : q = p
  · subst hqp
    have hne : q ++ [name] ≠ q := by simp
    rw [Function.update_of_ne hne] at hq
    rw [Function.update_self]
    by_contra hdir
    exact hq (hchild hdir name)
  · rw [Function.update_of_ne hqp]
    by_cases hp : q ++ [name] = p
    · subst hp
      rw [Function.update_self] at hq
      have hhas := hparent hq
      simp only [hasParent, List.dropLast_concat, Bool.and_eq_true, decide_eq_true_eq] at hhas
      exact hhas.2
    · rw [Function.update_of_ne hp] at hq
      exact h q name hq

end Files

/-- The commands `system` is given; `rm` is `rm -f`, and `rmDir` is `rm -rf`. -/
inductive Command
  | echo (text : String)
  | cp (source target : Path)
  | mv (source target : Path)
  | rm (file : Path)
  | rmDir (dir : Path)
  deriving DecidableEq, Repr

namespace Command

/-- The files after a command, or `none` where it fails. Only files are copied and moved. -/
def run : Command → Files → Option Files
  | echo _, fs => some fs
  | cp source target, fs =>
    let t := fs.destination source target
    match fs source with
    | some (.file content) =>
      if fs.hasParent t ∧ fs t ≠ some .dir ∧ t ≠ source then
        some (Function.update fs t (some (.file content)))
      else none
    | _ => none
  | mv source target, fs =>
    let t := fs.destination source target
    match fs source with
    | some (.file content) =>
      if fs.hasParent t ∧ fs t ≠ some .dir ∧ t ≠ source then
        some (Function.update (Function.update fs source none) t (some (.file content)))
      else none
    | _ => none
  | rm file, fs => if fs file = some .dir then none else some (Function.update fs file none)
  | rmDir dir, fs => some fun p => if dir <+: p then none else fs p

/-- A loop over a log that stops where a command fails. -/
def runAll (log : List Command) (fs : Files) : Option Files := log.foldlM (fun fs c => c.run fs) fs

theorem runAll_append {log log' : List Command} {fs : Files} :
    runAll (log ++ log') fs = (runAll log fs).bind (runAll log') := by
  rw [runAll, List.foldlM_append]
  rfl

section
variable {fs fs' : Files} {source target : Path} {content : String}

/-- A file that is copied to a name that is no directory. -/
theorem cp_eq_some (hsource : fs source = some (.file content)) (htarget : fs target ≠ some .dir)
    (h : (cp source target).run fs = some fs') :
    fs.hasParent target = true ∧ fs' = Function.update fs target (some (.file content)) := by
  have hdest : fs.destination source target = target := if_neg htarget
  simp only [run, hsource, hdest] at h
  split at h
  · rename_i hok
    exact ⟨hok.1, (Option.some.inj h).symm⟩
  · cases h

theorem mv_eq_some (hsource : fs source = some (.file content)) (htarget : fs target ≠ some .dir)
    (h : (mv source target).run fs = some fs') :
    fs' = Function.update (Function.update fs source none) target (some (.file content)) := by
  have hdest : fs.destination source target = target := if_neg htarget
  simp only [run, hsource, hdest] at h
  split at h
  · exact (Option.some.inj h).symm
  · cases h

theorem rm_eq_some {file : Path} (h : (rm file).run fs = some fs') :
    fs' = Function.update fs file none := by
  simp only [run] at h
  split at h
  · cases h
  · exact (Option.some.inj h).symm

end

end Command

end Awb.Transaction

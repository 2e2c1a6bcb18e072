import Awb.Builder.Paths
import Awb.Lib.Splitting

/-! `SplitString` and its iterator, whose position is an unsigned index into the string with `npos`
for the end, and the list of substrings that a loop over it sees. -/

namespace Awb

/-- `string::npos`, the greatest index. -/
def npos : ℕ := 2 ^ 64 - 1

/-- Sums and differences of indices wrap. -/
def sizeAdd (a b : ℕ) : ℕ := (a + b) % 2 ^ 64

def sizeSub (a b : ℕ) : ℕ := (a + 2 ^ 64 - b) % 2 ^ 64

/-- `substr`, from an index that is not beyond the end. -/
def substr (str : Text) (pos count : ℕ) : Text := (str.drop pos).take count

/-- The length that no string exceeds. -/
def maxSize : ℕ := 2 ^ 63 - 1

/-- A string with the characters to split it by. -/
structure SplitString where
  str : Text
  separators : Text
  fits : str.length ≤ maxSize

structure SplitStringIterator where
  currentSubstr : Text
  begin : ℕ
  deriving DecidableEq, Repr

namespace SplitString
variable (st : SplitString)

def isSeparator (c : Char) : Bool := st.separators.contains c

/-- `find_first_of` from an index. -/
def findFirstOf (pos : ℕ) : ℕ :=
  match (st.str.drop pos).findIdx? st.isSeparator with
  | some i => pos + i
  | none => npos

/-- `Next`. -/
def next (it : SplitStringIterator) : SplitStringIterator :=
  if it.begin = 0 ∧ st.str.length ≠ 0 ∧ st.str.head?.any st.isSeparator then
    -- the string starts with a separator
    { currentSubstr := [], begin := 1 }
  else if st.str.length ≤ it.begin then
    if 1 < st.str.length ∧ it.begin = st.str.length ∧ st.str.getLast?.any st.isSeparator then
      -- the string ends with a separator: one more iteration
      { currentSubstr := [], begin := sizeAdd st.str.length 1 }
    else { it with begin := npos }
  else
    let oldBegin := it.begin
    let separatorIdx := st.findFirstOf it.begin
    if separatorIdx ≠ npos then
      { currentSubstr := substr st.str oldBegin
          (sizeAdd (sizeSub (sizeSub separatorIdx 1) oldBegin) 1)
        begin := sizeAdd separatorIdx 1 }
    else
      { currentSubstr := substr st.str oldBegin (sizeAdd (sizeSub st.str.length oldBegin) 1)
        begin := st.str.length }

/-- `begin()`: the constructor of the iterator takes the first step. -/
def first : SplitStringIterator := st.next { currentSubstr := [], begin := 0 }

/-- What a loop from an iterator to `end()` sees; it compares positions only. -/
def collect : ℕ → SplitStringIterator → Option (List Text)
  | 0, _ => none
  | fuel + 1, it =>
    if it.begin = npos then some []
    else (collect fuel (st.next it)).map (it.currentSubstr :: ·)

/-! ### One step of the iterator -/

variable {st} {k : ℕ} {current part rest : Text} {sep : Char}

theorem lt_npos (h : k ≤ st.str.length + 1) : k < npos := by
  have hfits := st.fits
  unfold npos
  unfold maxSize at hfits
  omega

/-- The length of a substring, which may be computed through a negative number. -/
theorem sizeAdd_sizeSub {separatorIdx : ℕ} (hle : k ≤ separatorIdx) (hlt : separatorIdx < npos) :
    sizeAdd (sizeSub (sizeSub separatorIdx 1) k) 1 = separatorIdx - k := by
  unfold npos at hlt
  simp only [sizeAdd, sizeSub]
  omega

/-- Up to the next separator. -/
theorem next_part (hfirst : k ≠ 0 ∨ st.str.head?.any st.isSeparator = false)
    (hdrop : st.str.drop k = part ++ sep :: rest) (hpart : ∀ c ∈ part, st.isSeparator c = false)
    (hsep : st.isSeparator sep = true) :
    st.next ⟨current, k⟩ = ⟨part, k + part.length + 1⟩ := by
  have hlength := congrArg List.length hdrop
  simp only [List.length_drop, List.length_append, List.length_cons] at hlength
  have hidx : st.findFirstOf k = k + part.length := by
    rw [findFirstOf, hdrop, Splitting.findIdx?_first rest hpart hsep]
  have hnpos : k + part.length < npos := @lt_npos st _ (by omega)
  have hsub : substr st.str k (k + part.length - k) = part := by
    rw [substr, hdrop, Nat.add_sub_cancel_left, List.take_left]
  have hadd : sizeAdd (k + part.length) 1 = k + part.length + 1 := by
    unfold npos at hnpos
    exact Nat.mod_eq_of_lt (by omega)
  rw [next, if_neg, if_neg (by simp only; omega)]
  · simp only [hidx]
    rw [if_pos (by omega), sizeAdd_sizeSub (by omega) hnpos, hsub, hadd]
  · rintro ⟨hk, -, hhead⟩
    exact hfirst.elim (· hk) fun hhead' => Bool.false_ne_true (hhead'.symm.trans hhead)

/-- Up to the end of a string without further separators. -/
theorem next_end (hfirst : k ≠ 0 ∨ st.str.head?.any st.isSeparator = false)
    (hk : k < st.str.length) (hclean : ∀ c ∈ st.str.drop k, st.isSeparator c = false) :
    st.next ⟨current, k⟩ = ⟨st.str.drop k, st.str.length⟩ := by
  have hidx : st.findFirstOf k = npos := by
    rw [findFirstOf, List.findIdx?_eq_none_iff.mpr hclean]
  have hcount : sizeAdd (sizeSub st.str.length k) 1 = st.str.length - k + 1 := by
    have hnpos : st.str.length < npos := lt_npos (Nat.le_succ _)
    unfold npos at hnpos
    simp only [sizeAdd, sizeSub]
    omega
  rw [next, if_neg, if_neg (Nat.not_le.mpr hk)]
  · simp only [hidx, ne_eq, not_true_eq_false, if_false]
    rw [hcount, substr, List.take_of_length_le (by simp)]
  · rintro ⟨hk, -, hhead⟩
    exact hfirst.elim (· hk) fun hhead' => Bool.false_ne_true (hhead'.symm.trans hhead)

/-- At the end there is one more step if the string ends with a separator. -/
theorem next_empty_end (hlength : 1 < st.str.length)
    (hlast : st.str.getLast?.any st.isSeparator = true) :
    st.next ⟨current, st.str.length⟩ = ⟨[], st.str.length + 1⟩ := by
  have hadd : sizeAdd st.str.length 1 = st.str.length + 1 := by
    have hnpos : st.str.length + 1 < npos := lt_npos le_rfl
    unfold npos at hnpos
    exact Nat.mod_eq_of_lt (by omega)
  rw [next, if_neg (by simp only; omega), if_pos le_rfl, if_pos ⟨hlength, rfl, hlast⟩, hadd]

theorem next_done (hk : st.str.length ≤ k) (hfirst : k ≠ 0 ∨ st.str = [])
    (hnot : ¬ (1 < st.str.length ∧ k = st.str.length ∧
      st.str.getLast?.any st.isSeparator = true)) :
    st.next ⟨current, k⟩ = ⟨current, npos⟩ := by
  rw [next, if_neg, if_pos hk, if_neg hnot]
  rintro ⟨hk, hlength, -⟩
  exact hfirst.elim (· hk) fun h => hlength (h ▸ rfl)

/-! ### The whole loop -/

theorem collect_done : st.collect 1 ⟨current, npos⟩ = some [] := if_pos rfl

theorem collect_step {fuel : ℕ} {parts : List Text} {it : SplitStringIterator}
    (hbegin : it.begin ≤ st.str.length + 1) (h : st.collect fuel (st.next it) = some parts) :
    st.collect (fuel + 1) it = some (it.currentSubstr :: parts) := by
  rw [collect, if_neg (Nat.ne_of_lt (lt_npos hbegin)), h]
  rfl

/-- From an index before the end, if the loop goes on rightly behind the next separator. -/
theorem collect_from (hfirst : k ≠ 0 ∨ st.str.head?.any st.isSeparator = false)
    (hk : k < st.str.length)
    (hbehind : ∀ part sep rest, st.str.drop k = part ++ sep :: rest → st.isSeparator sep = true →
      ∃ fuel, st.collect fuel (st.next ⟨part, k + part.length + 1⟩) =
        some (rest.splitOnP st.isSeparator)) :
    ∃ fuel, st.collect fuel (st.next ⟨current, k⟩) =
      some ((st.str.drop k).splitOnP st.isSeparator) := by
  rcases Splitting.clean_or_first st.isSeparator (st.str.drop k) with
    hclean | ⟨part, sep, rest, hdrop, hpart, hsep⟩
  · have hlast : ¬ (1 < st.str.length ∧ st.str.length = st.str.length ∧
        st.str.getLast?.any st.isSeparator = true) := by
      rintro ⟨-, -, hlast⟩
      obtain ⟨c, hc, hsep⟩ := (Option.any_eq_true _ _).mp hlast
      have hmem : c ∈ st.str.drop k := by
        apply List.mem_of_getLast?
        rw [List.getLast?_drop, if_neg (Nat.not_le.mpr hk), hc]
      exact Bool.false_ne_true ((hclean c hmem).symm.trans hsep)
    refine ⟨2, ?_⟩
    rw [next_end hfirst hk hclean, collect_step (Nat.le_succ _) (?_ : _ = some []),
      List.splitOnP_eq_singleton hclean]
    rw [next_done le_rfl (Or.inl (Nat.ne_of_gt (Nat.zero_lt_of_lt hk))) hlast]
    exact collect_done
  · obtain ⟨fuel, hfuel⟩ := hbehind part sep rest hdrop hsep
    refine ⟨fuel + 1, ?_⟩
    have hlength := congrArg List.length hdrop
    simp only [List.length_drop, List.length_append, List.length_cons] at hlength
    rw [next_part hfirst hdrop hpart hsep, collect_step (by simp only; omega) hfuel, hdrop,
      List.splitOnP_append_cons_of_forall_mem hpart sep hsep]

/-- Behind a separator the loop sees the parts of the rest of the string. -/
theorem collect_behind (hlength : 1 < st.str.length) (n : ℕ) :
    ∀ {front : Text} {sep : Char} {rest current : Text}, rest.length ≤ n →
      st.str = front ++ sep :: rest → st.isSeparator sep = true →
      ∃ fuel, st.collect fuel (st.next ⟨current, front.length + 1⟩) =
        some (rest.splitOnP st.isSeparator) := by
  induction n with
  | zero =>
    intro front sep rest current hrest hstr hsep
    obtain rfl := List.length_eq_zero_iff.mp (Nat.le_zero.mp hrest)
    have hlen : front.length + 1 = st.str.length := by
      rw [hstr, List.length_append]
      rfl
    have hlast : st.str.getLast?.any st.isSeparator = true := by
      rw [hstr, List.getLast?_concat]
      exact hsep
    refine ⟨2, ?_⟩
    rw [hlen, next_empty_end hlength hlast, collect_step le_rfl (?_ : _ = some [])]
    · rfl
    · rw [next_done (Nat.le_succ _) (Or.inl (Nat.succ_ne_zero _)) fun h => by omega]
      exact collect_done
  | succ n ih =>
    intro front sep rest current hrest hstr hsep
    rcases List.eq_nil_or_concat rest with rfl | hne
    · exact ih (Nat.zero_le _) hstr hsep
    · have hdrop : st.str.drop (front.length + 1) = rest := by
        rw [hstr, ← List.singleton_append, ← List.append_assoc]
        exact List.drop_left' (by simp)
      have hk : front.length + 1 < st.str.length := by
        obtain ⟨init, c, rfl⟩ := hne
        rw [hstr]
        simp
      have hfrom := @collect_from st _ current (Or.inl (Nat.succ_ne_zero _)) hk ?_
      · rwa [hdrop] at hfrom
      · intro part sep' rest' hrest' hsep'
        have hstr' : st.str = (front ++ sep :: part) ++ sep' :: rest' := by
          rw [hstr, ← hdrop, hrest', List.append_assoc]
          rfl
        have hfront : front.length + 1 + part.length + 1 = (front ++ sep :: part).length + 1 := by
          rw [List.length_append, List.length_cons]
          omega
        rw [hfront]
        refine ih ?_ hstr' hsep'
        rw [← hdrop, hrest', List.length_append, List.length_cons] at hrest
        omega

theorem splitString_eq_splitOnP (hne : st.str ≠ [])
    (hsingle : ∀ sep, st.isSeparator sep = true → st.str ≠ [sep]) :
    splitString st.separators st.str = st.str.splitOnP st.isSeparator := by
  have hp : (fun c => decide (c ∈ st.separators)) = st.isSeparator := by
    funext c
    exact (List.contains_eq_mem c st.separators).symm
  rcases hstr : st.str with _ | ⟨c, _ | ⟨d, str⟩⟩
  · exact absurd hstr hne
  · have hc : st.isSeparator c = false := Bool.eq_false_iff.mpr fun hc => hsingle c hc hstr
    have hc' : c ∉ st.separators := fun h => Bool.false_ne_true
      (hc.symm.trans (List.contains_iff_mem.mpr h))
    rw [splitString, if_neg hc', List.splitOnP_eq_singleton (by simpa using hc)]
  · rw [← hp]
    rfl

/-- The iterator reads what `splitString` gives. -/
theorem collect_first (st : SplitString) :
    ∃ fuel, st.collect fuel st.first = some (splitString st.separators st.str) := by
  rcases hstr : st.str with _ | ⟨c, _ | ⟨d, str⟩⟩
  · refine ⟨1, ?_⟩
    rw [first, next_done (by simp [hstr]) (Or.inr hstr) (by simp [hstr])]
    exact collect_done
  · have hlen : st.str.length = 1 := by rw [hstr, List.length_singleton]
    cases hc : st.isSeparator c with
    | true =>
      have hfirst : st.first = ⟨[], 1⟩ := by
        rw [first, next, if_pos ⟨rfl, by simp [hlen], by simp [hstr, hc]⟩]
      refine ⟨2, ?_⟩
      rw [hfirst, splitString, if_pos (List.contains_iff_mem.mp hc),
        collect_step (Nat.le_add_left ..) (?_ : _ = some [])]
      rw [next_done hlen.le (Or.inl Nat.one_ne_zero) (by omega)]
      exact collect_done
    | false =>
      have hc' : c ∉ st.separators := fun h => Bool.false_ne_true
        (hc.symm.trans (List.contains_iff_mem.mpr h))
      have hhead : st.str.head?.any st.isSeparator = false := by simp [hstr, hc]
      obtain ⟨fuel, hfuel⟩ := @collect_from st _ [] (Or.inr hhead)
        (by rw [hlen]; exact Nat.one_pos) (by
          intro part sep rest hdrop hsep
          have hmem : sep ∈ [c] := by
            rw [← hstr, ← List.drop_zero (l := st.str), hdrop]
            exact List.mem_append_right _ (List.mem_cons_self ..)
          rw [List.mem_singleton.mp hmem, hc] at hsep
          exact absurd hsep Bool.false_ne_true)
      refine ⟨fuel, ?_⟩
      rw [first, hfuel, List.drop_zero, hstr, splitString, if_neg hc',
        List.splitOnP_eq_singleton (by simpa using hc)]
  · have hlen : 1 < st.str.length := by
      rw [hstr]
      exact Nat.succ_lt_succ (Nat.succ_pos _)
    rw [← hstr, splitString_eq_splitOnP (by simp [hstr]) (by simp [hstr])]
    cases hc : st.isSeparator c with
    | true =>
      have hfirst : st.first = ⟨[], 1⟩ := by
        rw [first, next, if_pos ⟨rfl, by omega, by simp [hstr, hc]⟩]
      obtain ⟨fuel, hfuel⟩ := @collect_behind st hlen _ [] _ _ [] le_rfl hstr hc
      refine ⟨fuel + 1, ?_⟩
      have hcons : (c :: d :: str).splitOnP st.isSeparator =
          [] :: (d :: str).splitOnP st.isSeparator := by
        rw [List.splitOnP_cons_eq_if_modifyHead, if_pos hc]
      rw [hfirst, hstr, hcons]
      exact collect_step (Nat.le_add_left ..) hfuel
    | false =>
      have hhead : st.str.head?.any st.isSeparator = false := by simp [hstr, hc]
      obtain ⟨fuel, hfuel⟩ := @collect_from st _ [] (Or.inr hhead)
        (Nat.lt_of_succ_lt hlen) (by
          intro part sep rest hdrop hsep
          have := @collect_behind st hlen _ part _ _ part le_rfl hdrop hsep
          rwa [Nat.zero_add])
      exact ⟨fuel, hfuel⟩

/-- The loop ends. It sees the full split of the string, but nothing of an empty string and only
one part of a single separator. -/
theorem collect_fullSplit (st : SplitString) : ∃ fuel parts,
    st.collect fuel st.first = some parts ∧
    (st.str = [] → parts = []) ∧
    (∀ sep, st.isSeparator sep = true → st.str = [sep] → parts = [[]]) ∧
    (st.str ≠ [] → (∀ sep, st.isSeparator sep = true → st.str ≠ [sep]) →
      Splitting.FullSplit st.isSeparator st.str parts) := by
  obtain ⟨fuel, hfuel⟩ := st.collect_first
  refine ⟨fuel, _, hfuel, ?_, ?_, ?_⟩
  · intro hstr
    rw [hstr]
    rfl
  · intro sep hsep hstr
    rw [hstr, splitString, if_pos (List.contains_iff_mem.mp hsep)]
  · intro hne hsingle
    rw [splitString_eq_splitOnP hne hsingle]
    exact Splitting.fullSplit_splitOnP _ _

/-- The components of a path. -/
def bySlash (str : Text) (fits : str.length ≤ maxSize) : SplitString := ⟨str, ['/'], fits⟩

/-- Neither an empty string nor a single slash has as many parts as a full split. -/
theorem not_fullSplit :
    (¬ ∃ fuel parts, (bySlash [] (by decide)).collect fuel (bySlash [] (by decide)).first =
      some parts ∧ Splitting.FullSplit (· == '/') [] parts) ∧
    ¬ ∃ fuel parts, (bySlash ['/'] (by decide)).collect fuel (bySlash ['/'] (by decide)).first =
      some parts ∧ Splitting.FullSplit (· == '/') ['/'] parts := by
  constructor
  · rintro ⟨_ | fuel, parts, hparts, hfull⟩
    · cases hparts
    · obtain rfl : [] = parts := Option.some.inj hparts
      exact absurd hfull.length_eq (by decide)
  · rintro ⟨_ | _ | fuel, parts, hparts, hfull⟩
    · cases hparts
    · cases hparts
    · obtain rfl : [[]] = parts := Option.some.inj hparts
      exact absurd hfull.length_eq (by decide)

end SplitString
end Awb

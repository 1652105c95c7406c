/-
The tokenizer of `common/string_utils.cpp` (`NextToken`, `NextNTokens`, `Split`) over lists of
characters, `npos` as `none`; its tokens are the maximal runs without delimiters.
-/

import Mathlib

namespace Slog.StringUtils

/-- `str.find_first_not_of(delims, pos)`. -/
def findFirstNotOf (str delims : List Char) (pos : Nat) : Option Nat :=
  ((str.drop pos).findIdx? (· ∉ delims)).map (pos + ·)

/-- `str.find_first_of(delims, pos)`. -/
def findFirstOf (str delims : List Char) (pos : Nat) : Option Nat :=
  ((str.drop pos).findIdx? (· ∈ delims)).map (pos + ·)

/-- `NextToken`: the token found and the index just past it, or the empty token and `npos`. -/
def nextToken (str delims : List Char) (pos : Nat) : List Char × Option Nat :=
  match findFirstNotOf str delims pos with
  | none => ([], none)
  | some start =>
      let stop := (findFirstOf str delims start).getD str.length
      let token := (str.drop start).take (stop - start)
      (token, some (start + token.length))

/-- `NextNTokens`: the loop that reads `n` tokens, and clears them all when one is missing. -/
def nextNTokens (str delims : List Char) : Nat → Nat → List (List Char) × Option Nat
  | 0, pos => ([], some pos)
  | n + 1, pos =>
      match nextToken str delims pos with
      | (_, none) => ([], none)
      | (token, some pos) =>
          match nextNTokens str delims n pos with
          | (_, none) => ([], none)
          | (tokens, some pos) => (token :: tokens, some pos)

/-- The loop of `Split`. Each token read is one character at least, so the length of the string
bounds the passes; `fuel` is that bound. -/
def splitFrom (str delims : List Char) : Nat → Nat → List (List Char)
  | 0, _ => []
  | fuel + 1, pos =>
      match nextToken str delims pos with
      | (_, none) => []
      | (token, some pos) => token :: splitFrom str delims fuel pos

def split (str delims : List Char) : List (List Char) := splitFrom str delims (str.length + 1) 0

/-- The maximal runs of `str` with no delimiter, in order: the non-empty pieces between the
delimiters. -/
def tokens (str delims : List Char) : List (List Char) :=
  (str.splitOnP (· ∈ delims)).filter (· ≠ [])

section Tokens

variable {delims : List Char}

@[simp] theorem tokens_nil : tokens [] delims = [] := rfl

theorem tokens_cons_of_mem {c : Char} (delim : c ∈ delims) (rest : List Char) :
    tokens (c :: rest) delims = tokens rest delims := by
  simp [tokens, List.splitOnP_cons_eq_if_modifyHead, delim]

/-- Leading delimiters start no token. -/
theorem tokens_append_of_delims {skipped : List Char} (delim : ∀ c ∈ skipped, c ∈ delims) (rest : List Char) :
    tokens (skipped ++ rest) delims = tokens rest delims := by
  induction skipped with
  | nil => rfl
  | cons c skipped ih =>
      rw [List.cons_append, tokens_cons_of_mem (delim c List.mem_cons_self)]
      exact ih fun other member => delim other (List.mem_cons_of_mem c member)

/-- A run with no delimiter, ended by a delimiter or by the end, is the first token. -/
theorem tokens_of_run {token : List Char} (nonempty : token ≠ []) (plain : ∀ c ∈ token, c ∉ delims)
    {rest : List Char} (ended : rest = [] ∨ ∃ c after, rest = c :: after ∧ c ∈ delims) :
    tokens (token ++ rest) delims = token :: tokens rest delims := by
  have unsplit : ∀ c ∈ token, decide (c ∈ delims) = false := fun c member => by simpa using plain c member
  rcases ended with rfl | ⟨c, after, rfl, delim⟩
  · rw [List.append_nil, tokens, List.splitOnP_eq_singleton unsplit]
    simp [nonempty]
  · rw [tokens, List.splitOnP_append_cons_of_forall_mem unsplit c (by simpa using delim),
      tokens_cons_of_mem delim, tokens]
    simp [nonempty]

theorem ne_nil_of_mem_tokens {str token : List Char} (member : token ∈ tokens str delims) : token ≠ [] :=
  of_decide_eq_true (List.mem_filter.mp member).2

theorem flatten_splitOnP (p : Char → Bool) (str : List Char) : (str.splitOnP p).flatten = str.filter (!p ·) := by
  induction str with
  | nil => rfl
  | cons c rest ih =>
      rw [List.splitOnP_cons_eq_if_modifyHead]
      by_cases split : p c
      · simp [split, ih]
      · obtain ⟨first, others, pieces⟩ := List.exists_cons_of_ne_nil (List.splitOnP_ne_nil p rest)
        rw [pieces] at ih ⊢
        simp [split, ← ih]

/-- The tokens, put together, are the string with its delimiters removed. -/
theorem flatten_tokens (str : List Char) : (tokens str delims).flatten = str.filter (· ∉ delims) := by
  rw [tokens, List.flatten_filter_ne_nil, flatten_splitOnP]
  simp

/-- A string has no more tokens than characters. -/
theorem length_tokens_le (str : List Char) : (tokens str delims).length ≤ str.length := by
  have counted : ∀ pieces : List (List Char), (∀ piece ∈ pieces, piece ≠ []) → pieces.length ≤ pieces.flatten.length := by
    intro pieces nonempty
    induction pieces with
    | nil => exact Nat.le_refl _
    | cons piece pieces ih =>
        have long : 1 ≤ piece.length := List.length_pos_iff.mpr (nonempty piece List.mem_cons_self)
        have rest := ih fun other member => nonempty other (List.mem_cons_of_mem piece member)
        simp only [List.length_cons, List.flatten_cons, List.length_append]
        omega
  calc (tokens str delims).length
      ≤ (tokens str delims).flatten.length := counted _ fun _ member => ne_nil_of_mem_tokens member
    _ = (str.filter (· ∉ delims)).length := by rw [flatten_tokens]
    _ ≤ str.length := List.length_filter_le _ _

end Tokens

/-- The first index where a search succeeds splits the list: the characters before it fail the
test, and the one at it passes. -/
theorem findIdx?_split {p : Char → Bool} {str : List Char} {index : Nat} (found : str.findIdx? p = some index) :
    (∀ c ∈ str.take index, p c = false) ∧ ∃ c after, str.drop index = c :: after ∧ p c = true := by
  induction str generalizing index with
  | nil => cases found
  | cons c rest ih =>
      rw [List.findIdx?_cons] at found
      by_cases passes : p c
      · rw [if_pos passes, Option.some.injEq] at found
        subst found
        exact ⟨fun _ member => (by cases member), c, rest, rfl, passes⟩
      · rw [if_neg passes] at found
        obtain ⟨later, rested, rfl⟩ := Option.map_eq_some_iff.mp found
        obtain ⟨before, passing⟩ := ih rested
        refine ⟨fun other member => ?_, passing⟩
        rcases List.mem_cons.mp (by simpa using member) with rfl | old
        · simpa using passes
        · exact before other old

section NextToken

variable {str delims : List Char}

/-- `NextToken` from `pos`: either no token is left and it returns `npos`, or it skips delimiters,
returns the first token of the rest of the string, and the index just past it. -/
theorem nextToken_spec (pos : Nat) :
    (nextToken str delims pos = ([], none) ∧ tokens (str.drop pos) delims = []) ∨
      ∃ skipped token past, nextToken str delims pos = (token, some past) ∧
        past = pos + skipped.length + token.length ∧
        str.drop pos = skipped ++ token ++ str.drop past ∧ (∀ c ∈ skipped, c ∈ delims) ∧
        tokens (str.drop pos) delims = token :: tokens (str.drop past) delims := by
  unfold nextToken findFirstNotOf
  cases skip : (str.drop pos).findIdx? (· ∉ delims) with
  | none =>
      have delim : ∀ c ∈ str.drop pos, c ∈ delims := fun c member => by
        simpa using List.findIdx?_eq_none_iff.mp skip c member
      left
      refine ⟨rfl, ?_⟩
      rw [← List.append_nil (str.drop pos), tokens_append_of_delims delim, tokens_nil]
  | some index =>
      right
      obtain ⟨before, first, after, starts, plain⟩ := findIdx?_split skip
      have skipped : ∀ c ∈ (str.drop pos).take index, c ∈ delims := fun c member => by
        simpa using before c member
      have current : str.drop (pos + index) = first :: after := by rw [← List.drop_drop, starts]
      have firstPlain : first ∉ delims := by simpa using plain
      have skippedLength : ((str.drop pos).take index).length = index := by
        rw [List.length_take]
        have within : index < (str.drop pos).length := by
          by_contra beyond
          rw [List.drop_of_length_le (by omega)] at starts
          cases starts
        omega
      simp only [Option.map_some]
      unfold findFirstOf
      cases stop : (str.drop (pos + index)).findIdx? (· ∈ delims) with
      | none =>
          have runs : ∀ c ∈ str.drop (pos + index), c ∉ delims := fun c member => by
            simpa using List.findIdx?_eq_none_iff.mp stop c member
          have whole : (str.drop (pos + index)).take (str.length - (pos + index)) = str.drop (pos + index) :=
            List.take_of_length_le (by rw [List.length_drop])
          have ends : str.drop (pos + index + (str.drop (pos + index)).length) = [] := by
            rw [List.length_drop]
            exact List.drop_of_length_le (by omega)
          refine ⟨(str.drop pos).take index, str.drop (pos + index), pos + index + (str.drop (pos + index)).length,
            by simp only [Option.map_none, Option.getD_none, whole], by rw [skippedLength], ?_, skipped, ?_⟩
          · rw [ends, List.append_nil, ← List.drop_drop, List.take_append_drop]
          · have single := tokens_of_run (by rw [current]; exact List.cons_ne_nil _ _) runs
              (Or.inl (rfl : ([] : List Char) = []))
            rw [List.append_nil] at single
            rw [ends, ← List.take_append_drop index (str.drop pos), tokens_append_of_delims skipped,
              List.drop_drop, single]
      | some length =>
          obtain ⟨inside, next, rest, stops, delim⟩ := findIdx?_split stop
          have runs : ∀ c ∈ (str.drop (pos + index)).take length, c ∉ delims := fun c member => by
            simpa using inside c member
          have positive : length ≠ 0 := by
            rintro rfl
            rw [List.drop_zero, current, List.cons.injEq] at stops
            exact firstPlain (stops.1 ▸ by simpa using delim)
          have taken : ((str.drop (pos + index)).take length).length = length := by
            rw [List.length_take]
            have : length < (str.drop (pos + index)).length := by
              by_contra beyond
              rw [List.drop_of_length_le (by omega)] at stops
              cases stops
            omega
          have past : str.drop (pos + index + length) = next :: rest := by rw [← List.drop_drop, stops]
          have pieces : str.drop (pos + index) = (str.drop (pos + index)).take length ++ str.drop (pos + index + length) := by
            rw [← List.drop_drop (i := length), List.take_append_drop]
          refine ⟨(str.drop pos).take index, (str.drop (pos + index)).take length, pos + index + length,
            by simp only [Option.map_some, Option.getD_some, Nat.add_sub_cancel_left, taken],
            by rw [skippedLength, taken], ?_, skipped, ?_⟩
          · rw [List.append_assoc, ← pieces, ← List.drop_drop, List.take_append_drop]
          · rw [← List.take_append_drop index (str.drop pos), tokens_append_of_delims skipped, List.drop_drop]
            conv_lhs => rw [pieces]
            exact tokens_of_run (by rw [← List.length_pos_iff, taken]; omega) runs
              (Or.inr ⟨next, rest, past, by simpa using delim⟩)

/-- The loop of `Split` reads the tokens of the rest of the string, given a pass for each. -/
theorem splitFrom_eq_tokens (fuel pos : Nat) (enough : (tokens (str.drop pos) delims).length < fuel) :
    splitFrom str delims fuel pos = tokens (str.drop pos) delims := by
  induction fuel generalizing pos with
  | zero => omega
  | succ fuel ih =>
      rcases @nextToken_spec str delims pos with ⟨none, empty⟩ | ⟨skipped, token, past, found, -, -, -, first⟩
      · simp [splitFrom, none, empty]
      · rw [first] at enough ⊢
        simp only [splitFrom, found]
        rw [ih past (by simp only [List.length_cons] at enough; omega)]

theorem split_eq_tokens (str delims : List Char) : split str delims = tokens str delims :=
  splitFrom_eq_tokens (str.length + 1) 0 (Nat.lt_succ_of_le (length_tokens_le str))

/-- `NextNTokens` from `pos` reads the first `n` tokens of the rest of the string and returns the
index just past the last, or nothing and `npos` when fewer are left. -/
theorem nextNTokens_spec (n pos : Nat) :
    (n ≤ (tokens (str.drop pos) delims).length ∧ ∃ past,
        nextNTokens str delims n pos = ((tokens (str.drop pos) delims).take n, some past) ∧
        tokens (str.drop past) delims = (tokens (str.drop pos) delims).drop n) ∨
      ((tokens (str.drop pos) delims).length < n ∧ nextNTokens str delims n pos = ([], none)) := by
  induction n generalizing pos with
  | zero => exact Or.inl ⟨Nat.zero_le _, pos, rfl, rfl⟩
  | succ n ih =>
      rcases @nextToken_spec str delims pos with ⟨none, empty⟩ | ⟨skipped, token, past, found, -, -, -, first⟩
      · exact Or.inr ⟨by simp [empty], by simp [nextNTokens, none]⟩
      · rw [first]
        rcases ih past with ⟨enough, later, read, rest⟩ | ⟨short, missing⟩
        · exact Or.inl ⟨by simpa using enough, later, by simp [nextNTokens, found, read], by simpa using rest⟩
        · exact Or.inr ⟨by simpa using short, by simp [nextNTokens, found, missing]⟩

end NextToken

/-- The tokenizer reads maximal runs without delimiters. `Split` returns the tokens of the
string, which put together are the string without its delimiters. `NextToken` from `pos`
returns the first token of the string from `pos` on and the index just past it, `pos` plus the
delimiters skipped and the token, or the empty
token and `npos`. `NextNTokens` returns the first `n` such tokens, or nothing and `npos` when
fewer are left. -/
theorem tokenizer_reads_runs (str delims : List Char) :
    (split str delims = tokens str delims ∧ (tokens str delims).flatten = str.filter (· ∉ delims)) ∧
      (∀ pos, (nextToken str delims pos = ([], none) ∧ tokens (str.drop pos) delims = []) ∨
        ∃ skipped token past, nextToken str delims pos = (token, some past) ∧
          past = pos + skipped.length + token.length ∧
          str.drop pos = skipped ++ token ++ str.drop past ∧ (∀ c ∈ skipped, c ∈ delims) ∧
          tokens (str.drop pos) delims = token :: tokens (str.drop past) delims) ∧
      ∀ n pos, (n ≤ (tokens (str.drop pos) delims).length ∧ ∃ past,
          nextNTokens str delims n pos = ((tokens (str.drop pos) delims).take n, some past) ∧
          tokens (str.drop past) delims = (tokens (str.drop pos) delims).drop n) ∨
        ((tokens (str.drop pos) delims).length < n ∧ nextNTokens str delims n pos = ([], none)) :=
  ⟨⟨split_eq_tokens str delims, flatten_tokens str⟩, nextToken_spec, nextNTokens_spec⟩

/-- From a position inside a run, `NextToken` returns the rest of the run, which is not a
maximal run of the string: the only token of "ab" starts at 0. -/
theorem nextToken_inside_run :
    nextToken ['a', 'b'] [' '] 1 = (['b'], some 2) ∧ tokens ['a', 'b'] [' '] = [['a', 'b']] := by
  decide

end Slog.StringUtils

import EyaKV.Base.Words
import EyaKV.Raft.Batching

/-!
# The two tokenizers

`split_by_spacer` is written twice: on a `std::string`, where a loop collects the characters of the
current part, and on a `std::string_view`, where it keeps the position at which the part starts.
Both loops scan for the words between the spaces (`scanned_string`, `scanned_view`). At the end the
second one drops an empty part and the first one does not, so they return the same words exactly
when the string ends in a character that is no space (`tokenizersAgree_iff`).

`splitBySpacerString` and `splitBySpacer`, by which the commands are parsed, are the results of the
two loops (`splitBySpacerOfString_eq`, `splitBySpacerOfView_eq`).
-/

set_option autoImplicit false

namespace EyaKV.Raft

open EyaKV.Base EyaKV.Store

section Loops

/-- `' '`. -/
def isSpace (c : UInt8) : Bool := c == 32

/-- One round of the loop of `split_by_spacer(const std::string &)`, on `result` and
`current_substr`. -/
def stringRound (st : List Bytes × Bytes) (c : UInt8) : List Bytes × Bytes :=
  if isSpace c then
    if st.2.isEmpty then st else (st.1 ++ [st.2], [])
  else (st.1, st.2 ++ [c])

/-- `split_by_spacer(const std::string &)`: the last part is pushed in any case. -/
def splitBySpacerOfString (str : Bytes) : List Bytes :=
  let st := str.foldl stringRound ([], [])
  st.1 ++ [st.2]

/-- The `string_view` of `count` characters from `start` on. -/
def viewOf (str : Bytes) (start count : Nat) : Bytes := (str.drop start).take count

/-- One round of the loop of `split_by_spacer(std::string_view)`, on `result` and `start`. -/
def viewRound (str : Bytes) (st : List Bytes × Nat) (i : Nat) : List Bytes × Nat :=
  if str[i]?.any isSpace then
    (if st.2 < i then st.1 ++ [viewOf str st.2 (i - st.2)] else st.1, i + 1)
  else st

/-- `split_by_spacer(std::string_view)`. -/
def splitBySpacerOfView (str : Bytes) : List Bytes :=
  let st := (List.range str.length).foldl (viewRound str) ([], 0)
  if st.2 < str.length then st.1 ++ [viewOf str st.2 (str.length - st.2)] else st.1

/-- Both overloads return the words of the string, without an empty one, and none of a string of
spaces. -/
structure TokenizersAgree (str : Bytes) : Prop where
  agree : splitBySpacerOfString str = splitBySpacerOfView str
  words : AreWords isSpace str (splitBySpacerOfString str)
  noEmpty : [] ∉ splitBySpacerOfString str
  blank : (∀ c ∈ str, c = 32) → splitBySpacerOfString str = []

end Loops

section Scans

variable {str : Bytes} {n start : Nat} {runs : List (Nat × Nat)}

/-- The parts that stand for the runs of a scan. -/
def parts (str : Bytes) (runs : List (Nat × Nat)) : List Bytes := runs.map fun r => slice str r.1 r.2

theorem parts_closed (str : Bytes) (runs : List (Nat × Nat)) (start n : Nat) :
    parts str (closed runs start n) =
      if start < n then parts str runs ++ [slice str start n] else parts str runs := by
  rw [closed]
  split
  · rw [parts, List.map_append]
    rfl
  · rfl

theorem stringRound_scanned (h : Scanned isSpace str n runs start) {c : UInt8}
    (hc : str[n]? = some c) :
    ∃ runs' start', Scanned isSpace str (n + 1) runs' start' ∧
      stringRound (parts str runs, slice str start n) c =
        (parts str runs', slice str start' (n + 1)) := by
  have hlength : n ≤ str.length := Nat.le_of_lt (List.getElem?_eq_some_iff.1 hc).1
  cases hspace : isSpace c with
  | true =>
      refine ⟨_, _, h.close hc hspace, ?_⟩
      rw [stringRound, if_pos hspace, parts_closed, slice_self]
      -- The current part is empty when no character has come since the last space.
      rcases Nat.lt_or_ge start n with hlt | hge
      · have hne : slice str start n ≠ [] := by
          rw [ne_eq, slice_eq_nil_iff hlength]
          exact Nat.not_le_of_lt hlt
        simp only [List.isEmpty_iff, hne, ↓reduceIte, hlt]
      · have hnil := (slice_eq_nil_iff hlength).2 hge
        simp only [hnil, List.isEmpty_nil, ↓reduceIte, Nat.not_lt_of_le hge]
  | false =>
      -- the character joins the current part
      refine ⟨_, _, h.extend hc hspace, ?_⟩
      simp only [stringRound, hspace, Bool.false_eq_true, ↓reduceIte, slice_succ h.le hc]

/-- The loop over the characters knows the runs that have ended, and the current part. -/
theorem scanned_string (str : Bytes) : ∀ n, n ≤ str.length → ∃ runs start,
    Scanned isSpace str n runs start ∧
      (str.take n).foldl stringRound ([], []) = (parts str runs, slice str start n) := by
  intro n
  induction n with
  | zero =>
      intro _
      exact ⟨[], 0, Scanned.zero str, rfl⟩
  | succ n ih =>
      intro hle
      obtain ⟨runs, start, h, hstate⟩ := ih (Nat.le_of_succ_le hle)
      have hc : str[n]? = some str[n] := List.getElem?_eq_getElem hle
      obtain ⟨runs', start', h', hround⟩ := stringRound_scanned h hc
      refine ⟨runs', start', h', ?_⟩
      rw [List.take_add_one, hc, Option.toList_some, List.foldl_append, hstate]
      exact hround

theorem viewRound_scanned (h : Scanned isSpace str n runs start) {c : UInt8}
    (hc : str[n]? = some c) :
    ∃ runs' start', Scanned isSpace str (n + 1) runs' start' ∧
      viewRound str (parts str runs, start) n = (parts str runs', start') := by
  cases hspace : isSpace c with
  | true =>
      refine ⟨_, _, h.close hc hspace, ?_⟩
      simp only [viewRound, hc, Option.any_some, hspace, ↓reduceIte, parts_closed]
      rfl
  | false =>
      refine ⟨_, _, h.extend hc hspace, ?_⟩
      simp only [viewRound, hc, Option.any_some, hspace, Bool.false_eq_true, ↓reduceIte]

/-- The loop over the positions knows the runs that have ended, and where the current part starts. -/
theorem scanned_view (str : Bytes) : ∀ n, n ≤ str.length → ∃ runs start,
    Scanned isSpace str n runs start ∧
      (List.range n).foldl (viewRound str) ([], 0) = (parts str runs, start) := by
  intro n
  induction n with
  | zero =>
      intro _
      exact ⟨[], 0, Scanned.zero str, rfl⟩
  | succ n ih =>
      intro hle
      obtain ⟨runs, start, h, hstate⟩ := ih (Nat.le_of_succ_le hle)
      obtain ⟨runs', start', h', hround⟩ := viewRound_scanned h (List.getElem?_eq_getElem hle)
      refine ⟨runs', start', h', ?_⟩
      rw [List.range_succ, List.foldl_append, hstate]
      exact hround

end Scans

section Results

/-- On a view the result is the words. -/
theorem areWords_view (str : Bytes) : AreWords isSpace str (splitBySpacerOfView str) := by
  obtain ⟨runs, start, h, hstate⟩ := scanned_view str str.length (Nat.le_refl _)
  -- behind the loop the view appends the open run, if there is one: this is `finish`
  have hwords := h.finish
  rw [splitBySpacerOfView, hstate]
  rw [← parts, parts_closed] at hwords
  exact hwords

/-- The last part is empty when there is no character after the last space. -/
def EndsInWord (str : Bytes) : Prop := ∃ c, str.getLast? = some c ∧ c ≠ 32

theorem endsInWord_iff {str : Bytes} {runs : List (Nat × Nat)} {start : Nat}
    (h : Scanned isSpace str str.length runs start) : EndsInWord str ↔ start < str.length := by
  have hle := h.le
  constructor
  · rintro ⟨c, hlast, hc⟩
    apply Nat.lt_of_le_of_ne hle
    intro heq
    rw [List.getLast?_eq_getElem?] at hlast
    have hlt := (List.getElem?_eq_some_iff.1 hlast).1
    -- with nothing in the current part, the last character is the space in front of it
    obtain ⟨a, ha, hspace⟩ := h.left (str.length - 1) (by omega)
    rw [hlast, Option.some.injEq] at ha
    rw [← ha, isSpace, beq_iff_eq] at hspace
    exact hc hspace
  · intro hlt
    obtain ⟨a, ha, hspace⟩ := h.inside (str.length - 1) (by omega) (by omega)
    refine ⟨a, by rw [List.getLast?_eq_getElem?, ha], ?_⟩
    rintro rfl
    cases hspace

/-- On a string there is an empty part behind the words, unless the string ends in one. -/
theorem splitBySpacerOfString_cases (str : Bytes) :
    EndsInWord str ∧ splitBySpacerOfString str = splitBySpacerOfView str ∨
      ¬EndsInWord str ∧ splitBySpacerOfString str = splitBySpacerOfView str ++ [[]] := by
  obtain ⟨runs, start, h, hstate⟩ := scanned_string str str.length (Nat.le_refl _)
  rw [List.take_length] at hstate
  have hview : splitBySpacerOfView str = parts str (closed runs start str.length) :=
    (areWords_view str).unique h.finish
  rw [splitBySpacerOfString, hstate, hview, parts_closed, endsInWord_iff h]
  by_cases hlt : start < str.length
  · -- the current part is the last word, and both append it
    left
    simp only [hlt, ↓reduceIte, and_self]
  · right
    -- the current part is empty; only the loop on a `string` appends it all the same
    have hnil := (slice_eq_nil_iff (Nat.le_refl str.length)).2 (Nat.le_of_not_lt hlt)
    simp only [hlt, ↓reduceIte, hnil, not_false_eq_true, and_self]

/-- **The two tokenizers return the same words if and only if the string is not empty and its last
character is no space.** -/
theorem tokenizersAgree_iff (str : Bytes) :
    TokenizersAgree str ↔ ∃ c, str.getLast? = some c ∧ c ≠ 32 := by
  have hview := areWords_view str
  rcases splitBySpacerOfString_cases str with ⟨hends, heq⟩ | ⟨hends, heq⟩
  · refine iff_of_true ⟨heq, ?_, ?_, ?_⟩ hends
    · rw [heq]
      exact hview
    · rw [heq]
      exact hview.nil_not_mem
    · intro hblank
      rw [heq]
      apply hview.eq_nil_of_blank
      intro c hc
      rw [hblank c hc]
      rfl
  · refine iff_of_false (fun h => h.noEmpty ?_) hends
    rw [heq]
    exact List.mem_append_right _ List.mem_cons_self

/-- A space at the end adds an empty part on a `string` only, as the empty string does. -/
theorem not_tokenizersAgree_trailingSpace :
    splitBySpacerOfString (ascii "get k ") = [ascii "get", ascii "k", []] ∧
      splitBySpacerOfView (ascii "get k ") = [ascii "get", ascii "k"] ∧
      splitBySpacerOfString [] = [[]] ∧ splitBySpacerOfView [] = [] ∧
      ¬TokenizersAgree (ascii "get k ") ∧ ¬TokenizersAgree [] := by
  refine ⟨by decide, by decide, by decide, by decide, fun h => ?_, fun h => ?_⟩
  · exact absurd h.agree (by decide)
  · exact absurd h.agree (by decide)

end Results

section Parsing

/-- The characters of the current part stand, in reverse, in front of what is still to be split. -/
theorem foldl_stringRound (str : Bytes) : ∀ (result : List Bytes) (current : Bytes),
    str.foldl stringRound (result, current) =
      (result ++ (List.splitOnPPrepend isSpace str current.reverse).dropLast.filter
          fun part => !part.isEmpty,
        (List.splitOnPPrepend isSpace str current.reverse).getLastD []) := by
  induction str with
  | nil =>
      intro result current
      simp
  | cons c str ih =>
      intro result current
      have hne := List.splitOnP_ne_nil isSpace str
      cases hspace : isSpace c with
      | true =>
          rw [List.splitOnPPrepend_cons_pos hspace, List.reverse_reverse,
            List.dropLast_cons_of_ne_nil hne, List.foldl_cons]
          -- an empty part is dropped by the loop, and by the filter
          cases current with
          | nil =>
              simp only [stringRound, hspace, ↓reduceIte, List.isEmpty_nil, ih, List.reverse_nil,
                List.splitOnPPrepend_nil_right]
              simp [List.getLastD_eq_getLast?, List.getLast?_cons_of_ne_nil hne]
          | cons a current =>
              simp only [stringRound, hspace, ↓reduceIte, List.isEmpty_cons, Bool.false_eq_true, ih,
                List.reverse_nil, List.splitOnPPrepend_nil_right]
              simp [List.getLastD_eq_getLast?, List.getLast?_cons_of_ne_nil hne]
      | false =>
          rw [List.splitOnPPrepend_cons_neg hspace, List.foldl_cons]
          simp only [stringRound, hspace, Bool.false_eq_true, ↓reduceIte, ih, List.reverse_append,
            List.reverse_cons, List.reverse_nil, List.nil_append, List.singleton_append]

/-- What `submit_batch_command` parses is the result of the loop on a `string`. -/
theorem splitBySpacerOfString_eq (str : Bytes) :
    splitBySpacerOfString str = splitBySpacerString str := by
  rw [splitBySpacerOfString, foldl_stringRound]
  rfl

/-- What `submit_command` parses is the result of the loop on a `string_view`. -/
theorem splitBySpacerOfView_eq (str : Bytes) : splitBySpacerOfView str = splitBySpacer str := by
  have hwords : (splitBySpacerOfView str).filter (fun part => !part.isEmpty) =
      splitBySpacerOfView str := by
    rw [List.filter_eq_self]
    intro part hpart
    cases part with
    | nil => exact absurd hpart (areWords_view str).nil_not_mem
    | cons c part => rfl
  have hview : (splitBySpacerOfString str).filter (fun part => !part.isEmpty) =
      splitBySpacerOfView str := by
    rcases splitBySpacerOfString_cases str with ⟨-, heq⟩ | ⟨-, heq⟩
    · rw [heq, hwords]
    · rw [heq, List.filter_append, hwords]
      exact List.append_nil _
  rw [← hview, splitBySpacerOfString_eq, splitBySpacerString_eq, List.filter_append, splitBySpacer,
    List.filter_filter]
  simp only [Bool.and_self]
  split
  · exact List.append_nil _
  · exact List.append_nil _

/-- A batch finds the parts of a command that `submit_command` finds if and only if the command
ends in one. -/
theorem splitBySpacerString_eq_iff (cmd : Bytes) :
    splitBySpacerString cmd = splitBySpacer cmd ↔ EndsInWord cmd := by
  rw [← splitBySpacerOfString_eq, ← splitBySpacerOfView_eq]
  rcases splitBySpacerOfString_cases cmd with ⟨hends, heq⟩ | ⟨hends, heq⟩
  · exact iff_of_true heq hends
  · refine iff_of_false (fun h => ?_) hends
    rw [h] at heq
    exact absurd (List.append_right_eq_self.1 heq.symm) (List.cons_ne_nil _ _)

end Parsing

end EyaKV.Raft

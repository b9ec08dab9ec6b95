import NandStack.Token

/-!
The literals that scanning finds: each is a run of characters other than blanks and never empty,
and a text of such runs with single spaces between them is scanned back into the runs.
-/

namespace NandStack.Token

def IsRun (literal : String) : Prop :=
  literal ≠ "" ∧ ∀ character ∈ literal.toList, isBlank character = false

instance (literal : String) : Decidable (IsRun literal) :=
  -- Named, as an instance that tries every character there is may be found first.
  have := List.decidableBAll (fun character => isBlank character = false) literal.toList
  inferInstanceAs (Decidable (_ ∧ _))

/-- The literals of a text without their places. The characters of the run that is being read
are held last first. -/
def literalsFrom (run : List Char) : List Char → List String
  | [] => if run.isEmpty then [] else [String.ofList run.reverse]
  | character :: rest =>
    if isBlank character then
      (if run.isEmpty then [] else [String.ofList run.reverse]) ++ literalsFrom [] rest
    else literalsFrom (character :: run) rest

private theorem map_literal_ofRun (first : Position) (run : List Char) :
    (ofRun first run).map literal = if run.isEmpty then [] else [String.ofList run.reverse] := by
  unfold ofRun
  split <;> rfl

private theorem map_literal_scanFrom (here first : Position) (run text : List Char) :
    (scanFrom here first run text).map literal = literalsFrom run text := by
  induction text generalizing here first run with
  | nil => exact map_literal_ofRun first run
  | cons character rest ih =>
    rw [scanFrom,literalsFrom]
    split
    · rw [List.map_append,map_literal_ofRun,ih]
    · rw [ih]

private theorem isRun_of_mem_literalsFrom {run text : List Char} {word : String}
    (hr : ∀ character ∈ run, isBlank character = false) (h : word ∈ literalsFrom run text) :
    IsRun word := by
  have held : ∀ run : List Char, (∀ character ∈ run, isBlank character = false) →
      word ∈ (if run.isEmpty then [] else [String.ofList run.reverse]) → IsRun word := by
    intro run hr hm
    split at hm
    · cases hm
    · rename_i he
      cases List.mem_singleton.mp hm
      refine ⟨?_,?_⟩
      · intro hs
        simp_all
      · intro character hc
        exact hr character (by simpa using hc)
  induction text generalizing run with
  | nil => exact held run hr h
  | cons character rest ih =>
    rw [literalsFrom] at h
    split at h
    · rcases List.mem_append.mp h with hm | hm
      · exact held run hr hm
      · exact ih (by simp) hm
    · rename_i hb
      refine ih ?_ h
      intro other hm
      rcases List.mem_cons.mp hm with rfl | hm
      · simpa using hb
      · exact hr other hm

/-- Every token of a text is a run. -/
theorem isRun_of_mem_scan {source : String} {token : Token} (h : token ∈ scan source) :
    IsRun token.literal := by
  have hm : token.literal ∈ literalsFrom [] source.toList := by
    rw [← map_literal_scanFrom .start .start]
    exact List.mem_map_of_mem h
  exact isRun_of_mem_literalsFrom (by simp) hm

private theorem literalsFrom_append {word : List Char} (hw : ∀ character ∈ word, isBlank character = false)
    (run rest : List Char) :
    literalsFrom run (word ++ rest) = literalsFrom (word.reverse ++ run) rest := by
  induction word generalizing run with
  | nil => rfl
  | cons character word ih =>
    have hc := hw character List.mem_cons_self
    rw [List.cons_append,literalsFrom,hc]
    simp only [Bool.false_eq_true,if_false]
    rw [ih fun other hm => hw other (List.mem_cons_of_mem _ hm)]
    simp

private theorem literalsFrom_run {word : String} (hw : IsRun word) (rest : List Char) :
    literalsFrom [] word.toList = [word] ∧
      literalsFrom [] (word.toList ++ ' ' :: rest) = word :: literalsFrom [] rest := by
  have hn : word.toList ≠ [] := by simpa using hw.1
  have ha := literalsFrom_append hw.2 []
  refine ⟨?_,?_⟩
  · have he := ha []
    rw [List.append_nil] at he
    rw [he]
    simp [literalsFrom,hn]
  · rw [ha]
    simp [literalsFrom,hn,isBlank]

/-- Runs with single spaces between them are scanned back. -/
theorem map_literal_scan_intercalate {words : List String} (h : ∀ word ∈ words, IsRun word) :
    (scan (" ".intercalate words)).map literal = words := by
  rw [scan,map_literal_scanFrom]
  induction words with
  | nil => rfl
  | cons word rest ih =>
    have hw := h word List.mem_cons_self
    have hr := ih fun other hm => h other (List.mem_cons_of_mem _ hm)
    cases rest with
    | nil =>
      rw [String.intercalate_singleton]
      exact (literalsFrom_run hw []).1
    | cons next rest =>
      have hs : (" ".intercalate (word :: next :: rest)).toList =
          word.toList ++ ' ' :: (" ".intercalate (next :: rest)).toList := by
        simp only [String.intercalate_cons_cons,String.toList_append,List.append_assoc]
        rfl
      rw [hs,(literalsFrom_run hw _).2,hr]

end NandStack.Token

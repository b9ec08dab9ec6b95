import Mathlib.Data.List.DropRight
import NandStack.Session

/-!
Lines of a session: the input is cut behind each line feed and nothing of it is lost. A line that says
`exit` may have white space behind the word and nothing else, and no line behind it is taken.
-/

namespace NandStack.Session

/-- The code points with the `White_Space` property of Unicode. -/
def whiteSpace : List Nat :=
  [0x0009, 0x000A, 0x000B, 0x000C, 0x000D, 0x0020, 0x0085, 0x00A0, 0x1680, 0x2000, 0x2001, 0x2002, 0x2003,
    0x2004, 0x2005, 0x2006, 0x2007, 0x2008, 0x2009, 0x200A, 0x2028, 0x2029, 0x202F, 0x205F, 0x3000]

private theorem holds_iff (character : Char) :
    WhiteSpace.holds character ↔ character.toNat ∈ whiteSpace := by
  simp only [WhiteSpace.holds,WhiteSpace.holds.ranges,whiteSpace,List.any_cons,List.any_nil,
    Bool.or_eq_true,Bool.and_eq_true,decide_eq_true_iff,Bool.or_false,List.mem_cons,
    List.not_mem_nil,or_false]
  omega

/-- The line says `exit` and has nothing but white space behind it. -/
def Leaves (line : String) : Prop :=
  ∃ blanks, line.toList = "exit".toList ++ blanks ∧
    ∀ character ∈ blanks, character.toNat ∈ whiteSpace

theorem isExit_iff (line : String) : isExit line ↔ Leaves line := by
  rw [isExit,decide_eq_true_iff]
  constructor
  · intro h
    have hd : line.toList.rdropWhile WhiteSpace.holds = "exit".toList := h
    refine ⟨line.toList.rtakeWhile WhiteSpace.holds,?_,fun character hm => ?_⟩
    · rw [← hd,List.rdropWhile_append_rtakeWhile]
    · exact (holds_iff character).mp (List.mem_rtakeWhile_imp hm)
  · rintro ⟨blanks,ht,hb⟩
    have hr : ∀ character ∈ blanks.reverse, WhiteSpace.holds character :=
      fun character hm => (holds_iff character).mpr (hb character (List.mem_reverse.mp hm))
    rw [ht,List.reverse_append,List.dropWhile_append_of_pos hr]
    decide

/-- The pieces are a text cut behind each line feed: all whole lines, and then what is left behind the
last of them unless that is nothing. -/
def CutIntoLines (text : List Char) (pieces : List String) : Prop :=
  ∃ (whole : List (List Char)) (left : List Char),
    text = (whole.map (· ++ ['\n'])).flatten ++ left ∧
    pieces = whole.map (fun body => String.ofList (body ++ ['\n'])) ++
      (if left = [] then [] else [String.ofList left]) ∧
    (∀ body ∈ whole, '\n' ∉ body) ∧ '\n' ∉ left

private theorem cutIntoLines_linesFrom (held : List Char) (hh : '\n' ∉ held) (text : List Char) :
    CutIntoLines (held.reverse ++ text) (linesFrom held text) := by
  -- The line that is being read is held last character first. The induction is on the text that is
  -- left.
  induction text generalizing held with
  | nil =>
    refine ⟨[],held.reverse,by simp,?_,by simp,by simpa using hh⟩
    rw [linesFrom]
    simp
  | cons character rest ih =>
    rw [linesFrom]
    split
    · rename_i hc
      obtain ⟨whole,left,ht,hp,hw,hl⟩ := ih [] (by simp)
      refine ⟨held.reverse :: whole,left,?_,?_,?_,hl⟩
      · rw [List.reverse_nil,List.nil_append] at ht
        simp [hc,← ht]
      · rw [hp,hc]
        simp
      · intro body hm
        rcases List.mem_cons.mp hm with rfl | hm
        · simpa using hh
        · exact hw body hm
    · rename_i hc
      have hi := ih (character :: held) (by simp [hh,Ne.symm hc])
      simpa using hi

theorem cutIntoLines_lines (text : String) : CutIntoLines text.toList (lines text) :=
  cutIntoLines_linesFrom [] (by simp) text.toList

/-- A line feed ends a line and never stands inside. -/
theorem not_mem_dropLast_of_mem_lines {text line : String} (h : line ∈ lines text) :
    '\n' ∉ line.toList.dropLast := by
  obtain ⟨whole,left,-,hp,hw,hl⟩ := cutIntoLines_lines text
  rw [hp] at h
  rcases List.mem_append.mp h with hm | hm
  · obtain ⟨body,hb,rfl⟩ := List.mem_map.mp hm
    rw [String.toList_ofList,List.dropLast_concat]
    exact hw body hb
  · split at hm
    · cases hm
    · cases List.mem_singleton.mp hm
      rw [String.toList_ofList]
      exact fun hi => hl (List.dropLast_subset left hi)

/-- The lines that an input has before the first that ends the session. -/
def Entered (input : String) (typed : List String) : Prop :=
  ∃ pieces, CutIntoLines input.toList pieces ∧ (∀ line ∈ typed, ¬ Leaves line) ∧
    (typed = pieces ∨ ∃ line rest, pieces = typed ++ line :: rest ∧ Leaves line)

def entered (lines : List String) : List String :=
  lines.takeWhile fun line => !isExit line

theorem entered_lines (input : String) : Entered input (entered (lines input)) := by
  refine ⟨lines input,cutIntoLines_lines input,?_,?_⟩
  · intro line hm hl
    rw [entered] at hm
    have hn := List.mem_takeWhile_imp hm
    rw [(isExit_iff line).mpr hl] at hn
    cases hn
  · have ha : entered (lines input) ++ (lines input).dropWhile (fun line => !isExit line) = lines input :=
      List.takeWhile_append_dropWhile
    cases hd : (lines input).dropWhile fun line => !isExit line with
    | nil =>
      rw [hd,List.append_nil] at ha
      exact .inl ha
    | cons line rest =>
      rw [hd] at ha
      have hn := List.head_dropWhile_not (fun line => !isExit line) (hd ▸ List.cons_ne_nil line rest)
      simp only [hd,List.head_cons,Bool.not_eq_false'] at hn
      exact .inr ⟨line,rest,ha.symm,(isExit_iff line).mp hn⟩

end NandStack.Session

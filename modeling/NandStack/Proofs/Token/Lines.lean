import NandStack.Token

/-!
Lines: a line feed ends whatever run is being read, so a text behind one is scanned as it would be
on its own, only that its tokens stand further down.
-/

namespace NandStack

namespace Position

def below (lines : Nat) (position : Position) : Position :=
  ⟨position.line + lines, position.column⟩

private theorem after_below (lines : Nat) (position : Position) (character : Char) :
    (position.below lines).after character = (position.after character).below lines := by
  unfold after below
  split
  · rw [Nat.add_right_comm]
  · rfl

theorem below_below (lines more : Nat) (position : Position) :
    (position.below lines).below more = position.below (lines + more) := by
  simp only [below,Nat.add_assoc]

end Position

namespace Token

def moved (move : Position → Position) (token : Token) : Token :=
  ⟨token.literal, move token.position⟩

private theorem ofRun_below (lines : Nat) (first : Position) (run : List Char) :
    ofRun (first.below lines) run = (ofRun first run).map (moved (.below lines)) := by
  unfold ofRun
  split <;> rfl

private theorem scanFrom_below (lines : Nat) (here first : Position) (run text : List Char) :
    scanFrom (here.below lines) (first.below lines) run text =
      (scanFrom here first run text).map (moved (.below lines)) := by
  induction text generalizing here first run with
  | nil => exact ofRun_below lines first run
  | cons character rest ih =>
    rw [scanFrom,scanFrom,Position.after_below]
    split
    · rw [ofRun_below,ih,List.map_append]
    · rw [← ih]
      split <;> rfl

private theorem scanFrom_nil_run (here first other : Position) (text : List Char) :
    scanFrom here first [] text = scanFrom here other [] text := by
  cases text <;> rfl

private theorem scanFrom_lineFeed (here first : Position) (run text rest : List Char) :
    scanFrom here first run (text ++ '\n' :: rest) = scanFrom here first run text ++
      scanFrom ⟨here.line + (text.count '\n' + 1), 1⟩ .start [] rest := by
  induction text generalizing here first run with
  | nil =>
    have hn : scanFrom here first run ('\n' :: rest) =
        ofRun first run ++ scanFrom ⟨here.line + 1, 1⟩ here [] rest := rfl
    rw [List.nil_append,hn,scanFrom_nil_run _ _ .start]
    rfl
  | cons character text ih =>
    have hl : (here.after character).line + (text.count '\n' + 1) =
        here.line + ((character :: text).count '\n' + 1) := by
      by_cases hc : character = '\n'
      · simp only [hc,Position.after,if_true,List.count_cons_self]
        omega
      · simp only [Position.after,hc,if_false,List.count_cons_of_ne hc]
    simp only [List.cons_append,scanFrom,ih,hl]
    split
    · rw [List.append_assoc]
    · rfl

/-- The tokens of two texts with a line feed between them are those of the one and of the other.
The former stay in place, the latter keep their columns. -/
theorem scan_lineFeed (first second : String) :
    scan (first ++ "\n" ++ second) = scan first ++
      (scan second).map (moved (.below (first.toList.count '\n' + 1))) := by
  have ht : (first ++ "\n" ++ second).toList = first.toList ++ '\n' :: second.toList := by
    simp
  have hs : Position.mk (Position.start.line + (first.toList.count '\n' + 1)) 1 =
      Position.start.below (first.toList.count '\n' + 1) := rfl
  rw [scan,scan,scan,ht,scanFrom_lineFeed,hs,← scanFrom_below]
  exact congrArg _ (scanFrom_nil_run _ _ _ _)

end Token

end NandStack

import NandStack.Proofs.Program.Grammar
import NandStack.Proofs.Token.Lines

/-!
Joined texts: a text behind one that spells a program is read as it would be on its own. What can be
wrong with it is said with the places that it has in the whole.
-/

namespace NandStack

def ParseError.moved (move : Position → Position) : ParseError → ParseError
  | unexpectedEnd expected opener => unexpectedEnd expected (move opener)
  | unexpectedToken literal place => unexpectedToken literal (move place)
  | invalidName literal place => invalidName literal (move place)

private theorem ParseError.moved_id (error : ParseError) : error.moved id = error := by
  cases error <;> rfl

private theorem ParseError.moved_below (lines more : Nat) (error : ParseError) :
    (error.moved (.below lines)).moved (.below more) = error.moved (.below (lines + more)) := by
  cases error <;> simp only [moved,Position.below_below]

namespace Token
variable (move : Position → Position)

private theorem kind_moved (token : Token) : (token.moved move).kind = token.kind :=
  rfl

theorem map_terminal_moved (tokens : List Token) :
    (tokens.map (moved move)).map terminal = tokens.map terminal := by
  rw [List.map_map]
  rfl

end Token

namespace Program

/-- Constructs of one sort that lack the same. Their names and earlier parts may differ. -/
inductive Construct.Alike : Construct → Construct → Prop where
  | definition (name other : String) : Alike (.definition name) (.definition other)
  | consequence : Alike .consequence .consequence
  | alternative (consequence other : Program) :
    Alike (.alternative consequence) (.alternative other)
  | loop : Alike .loop .loop

private theorem Construct.Alike.terminator {construct other : Construct} (h : construct.Alike other) :
    other.terminator = construct.terminator := by
  cases h <;> rfl

structure Frame.Alike (move : Position → Position) (frame other : Frame) : Prop where
  construct : frame.construct.Alike other.construct
  opener : other.opener = move frame.opener

namespace Reading

/-- Readings that will refuse the same: they agree in what is open and in what is awaited. The nodes
that they hold never decide about a token. -/
structure Alike (move : Position → Position) (reading other : Reading) : Prop where
  enclosing : List.Forall₂ (Frame.Alike move) reading.enclosing other.enclosing
  awaiting : other.awaiting = reading.awaiting.map fun awaited => (awaited.1, move awaited.2)

variable {move : Position → Position} {reading other : Reading}

private theorem Alike.enter (h : Alike move reading other) {construct similar : Construct}
    (hc : construct.Alike similar) (opener : Position) :
    Alike move (reading.enter construct opener) (other.enter similar (move opener)) :=
  ⟨.cons ⟨hc,rfl⟩ h.enclosing,rfl⟩

private theorem Alike.receiveName (h : Alike move reading other) (named : Named) (opener : Position)
    (name : String) :
    Alike move (reading.receiveName named opener name)
      (other.receiveName named (move opener) name) := by
  cases named with
  | definition => exact h.enter (.definition name name) opener
  | declaration => exact ⟨h.enclosing,rfl⟩

private theorem Alike.leave? (h : Alike move reading other) (kind : Kind) :
    (reading.leave? kind = none ∧ other.leave? kind = none) ∨
      ∃ outer similar, reading.leave? kind = some outer ∧ other.leave? kind = some similar ∧
        Alike move outer similar := by
  obtain ⟨nodes,enclosing,awaiting⟩ := reading
  obtain ⟨others,around,awaited⟩ := other
  obtain ⟨he,-⟩ := h
  cases he with
  | nil => exact .inl ⟨rfl,rfl⟩
  | @cons frame next _ _ hf hr =>
    obtain ⟨construct,opener,before⟩ := frame
    obtain ⟨similar,place,front⟩ := next
    obtain ⟨hc,hp⟩ := hf
    -- A kind leaves the construct open, or ends it, or turns a consequence into an alternative.
    cases hc <;> cases kind <;>
      first
      | exact .inl ⟨rfl,rfl⟩
      | exact .inr ⟨_,_,rfl,rfl,hr,rfl⟩
      | exact .inr ⟨_,_,rfl,rfl,.cons ⟨.alternative _ _,hp⟩ hr,rfl⟩

private theorem Alike.step (h : Alike move reading other) (token : Token) :
    (∃ next similar, reading.step token = .ok next ∧ other.step (token.moved move) = .ok similar ∧
      Alike move next similar) ∨
    ∃ error, reading.step token = .error error ∧
      other.step (token.moved move) = .error (error.moved move) := by
  obtain ⟨nodes,enclosing,awaiting⟩ := reading
  obtain ⟨others,around,awaited⟩ := other
  have ha := h.awaiting
  have hm := token.kind_moved move
  cases awaiting with
  | some awaiting =>
    obtain ⟨named,opener⟩ := awaiting
    cases ha
    cases hk : token.kind with
    | word =>
      simp only [Reading.step,hm,hk]
      exact .inl ⟨_,_,rfl,rfl,h.receiveName named opener token.literal⟩
    | _ =>
      simp only [Reading.step,hm,hk]
      exact .inr ⟨_,rfl,rfl⟩
  | none =>
    cases ha
    cases hk : token.kind with
    | integer | word | colon | variableKeyword =>
      simp only [Reading.step,hm,hk]
      exact .inl ⟨_,_,rfl,rfl,h.enclosing,rfl⟩
    | ifKeyword =>
      simp only [Reading.step,hm,hk]
      exact .inl ⟨_,_,rfl,rfl,h.enter .consequence token.position⟩
    | doKeyword =>
      simp only [Reading.step,hm,hk]
      exact .inl ⟨_,_,rfl,rfl,h.enter .loop token.position⟩
    | quote | semicolon | elseKeyword | thenKeyword | loopKeyword =>
      simp only [Reading.step,hm,hk]
      rcases h.leave? _ with ⟨hn,ho⟩ | ⟨outer,similar,hn,ho,hs⟩
      · rw [hn,ho]
        exact .inr ⟨_,rfl,rfl⟩
      · rw [hn,ho]
        exact .inl ⟨outer,similar,rfl,rfl,hs⟩

private theorem Alike.finish (h : Alike move reading other) {error : ParseError}
    (hf : reading.finish = .error error) : other.finish = .error (error.moved move) := by
  obtain ⟨nodes,enclosing,awaiting⟩ := reading
  obtain ⟨others,around,awaited⟩ := other
  obtain ⟨he,rfl⟩ := h
  cases awaiting with
  | some awaited =>
    cases hf
    rfl
  | none =>
    cases he with
    | nil => cases hf
    | cons hc _ =>
      cases hf
      simp only [Reading.finish,Option.map_none,hc.construct.terminator,hc.opener,ParseError.moved]

theorem Alike.run (h : Alike move reading other) {tokens : List Token} {error : ParseError}
    (hr : reading.run tokens = .error error) :
    other.run (tokens.map (Token.moved move)) = .error (error.moved move) := by
  induction tokens generalizing reading other with
  | nil => exact h.finish hr
  | cons token rest ih =>
    rw [Reading.run] at hr
    rw [List.map_cons,Reading.run]
    rcases h.step token with ⟨next,similar,hn,hs,ha⟩ | ⟨refused,hn,hs⟩
    · rw [hn] at hr
      rw [hs]
      exact ih ha hr
    · rw [hn] at hr
      cases hr
      rw [hs]

end Reading

def Readable (source : String) : Prop :=
  ∃ program, ofSource source = .ok program

instance (source : String) : Decidable (Readable source) :=
  match h : ofSource source with
  | .ok program => .isTrue ⟨program, h⟩
  | .error _ => .isFalse fun ⟨_, hp⟩ => nomatch h.symm.trans hp

/-- Texts that spell programs spell them one after the other. -/
theorem ofSource_lineFeed {first second : String} {program after : Program}
    (hf : ofSource first = .ok program) (hs : ofSource second = .ok after) :
    ofSource (first ++ "\n" ++ second) = .ok (program.append after) := by
  rw [ofSource,ofTokens_iff] at hf hs ⊢
  rw [Token.scan_lineFeed,List.map_append,Token.map_terminal_moved,hf,hs,terminals_append]

/-- Behind a text that spells a program a text has the error that it has on its own, further down
by the lines before it. -/
theorem ofSource_lineFeed_error {first second : String} {program : Program} {error : ParseError}
    (hf : ofSource first = .ok program) (hs : ofSource second = .error error) :
    ofSource (first ++ "\n" ++ second) =
      .error (error.moved (.below (first.toList.count '\n' + 1))) := by
  have ha : Reading.Alike (.below (first.toList.count '\n' + 1)) .start
      ⟨program.reverseOnto nil, [], none⟩ := ⟨.nil,rfl⟩
  rw [ofSource,Token.scan_lineFeed,ofTokens,Reading.start,
    Reading.run_complete (ofTokens_iff.mp hf)]
  exact ha.run hs

theorem readable_intercalate {sources : List String} (h : ∀ source ∈ sources, Readable source) :
    Readable ("\n".intercalate sources) := by
  induction sources with
  | nil => exact ⟨nil,rfl⟩
  | cons source rest ih =>
    have hr := ih fun other hm => h other (List.mem_cons_of_mem _ hm)
    cases rest with
    | nil =>
      rw [String.intercalate_singleton]
      exact h source List.mem_cons_self
    | cons next rest =>
      obtain ⟨program,hp⟩ := h source List.mem_cons_self
      obtain ⟨after,ha⟩ := hr
      rw [String.intercalate_cons_cons]
      exact ⟨_,ofSource_lineFeed hp ha⟩

/-- The error of the last of several joined texts, when the others spell programs. -/
theorem ofSource_intercalate_error {front : List String} {last : String} {error : ParseError}
    (hf : ∀ source ∈ front, Readable source) (hl : ofSource last = .error error) :
    ∃ before, "\n".intercalate (front ++ [last]) = before ++ last ∧
      ofSource ("\n".intercalate (front ++ [last])) =
        .error (error.moved (.below (before.toList.count '\n'))) := by
  induction front with
  | nil =>
    refine ⟨"",?_,?_⟩
    · rw [List.nil_append,String.intercalate_singleton,String.empty_append]
    · rw [List.nil_append,String.intercalate_singleton,hl]
      exact congrArg _ error.moved_id.symm
  | cons source front ih =>
    obtain ⟨program,hp⟩ := hf source List.mem_cons_self
    obtain ⟨before,hb,he⟩ := ih fun other hm => hf other (List.mem_cons_of_mem _ hm)
    have hj : "\n".intercalate (source :: front ++ [last]) =
        source ++ "\n" ++ "\n".intercalate (front ++ [last]) := by
      cases front <;> exact String.intercalate_cons_cons
    have hc : (source ++ "\n" ++ before).toList.count '\n' =
        before.toList.count '\n' + (source.toList.count '\n' + 1) := by
      simp [List.count_append]
      omega
    refine ⟨source ++ "\n" ++ before,?_,?_⟩
    · rw [hj,hb,← String.append_assoc]
    · rw [hj,ofSource_lineFeed_error hp he,ParseError.moved_below,hc]

end Program

end NandStack

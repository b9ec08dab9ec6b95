import NandStack.Proofs.Token.Runs
import NandStack.Proofs.Token.Scan

/-!
Places of tokens: a token is a part of the text, and it is where what stands before it leads to.
-/

namespace NandStack

namespace Token

def StandsIn (text : List Char) (token : Token) : Prop :=
  ∃ front rest, text = front ++ (token.literal.toList ++ rest) ∧ token.position = .past front

private theorem standsIn_of_mem_scan {source : String} {token : Token} (h : token ∈ scan source) :
    StandsIn source.toList token := by
  obtain ⟨spans,ha⟩ := account_scan source
  rw [ha.tokens_eq] at h
  obtain ⟨span,hs,rfl⟩ := List.mem_map.mp h
  have hm := ((ha.mem_iff span).mp hs).1
  refine ⟨source.toList.take span.start,source.toList.drop span.stop,?_,
    Position.ofIndex_eq_past _ _⟩
  have ht : (source.toList.take span.stop).take span.start = source.toList.take span.start := by
    rw [List.take_take,Nat.min_eq_left (Nat.le_of_lt hm.start_lt)]
  rw [Span.token,String.toList_ofList,← List.append_assoc,← ht,List.take_append_drop,
    List.take_append_drop]

/-- In a text that may end in a line feed but has no other, the place is the column of the token's
first character. -/
theorem standsIn_line {line : String} (hl : '\n' ∉ line.toList.dropLast) {token : Token}
    (h : token ∈ scan line) :
    ∃ front rest, line.toList = front ++ rest ∧ rest ≠ [] ∧ token.literal.toList <+: rest ∧
      token.position = ⟨1, front.length + 1⟩ := by
  obtain ⟨front,rest,ht,hp⟩ := standsIn_of_mem_scan h
  have hn : token.literal.toList ++ rest ≠ [] := by
    intro he
    exact (isRun_of_mem_scan h).1 (String.toList_eq_nil_iff.mp (List.append_eq_nil_iff.mp he).1)
  have hf : '\n' ∉ front := by
    intro hm
    rw [ht,List.dropLast_append_of_ne_nil hn] at hl
    exact hl (List.mem_append_left _ hm)
  exact ⟨front,_,ht,hn,List.prefix_append _ _,hp.trans (Position.past_of_not_mem hf)⟩

end Token

end NandStack

import NandStack.Proofs.Machine.Steps

/-!
Balance at every step: the frames inside those an evaluation began with are those of the loops
that are running, each with its own index, and the depth counts the words that are active. The
bound on the depth is why no recursion runs for ever.
-/

namespace NandStack.Machine

namespace Pending

def frames : List Pending → List (String × Int64)
  | [] => []
  | .branch _ :: pending => frames pending
  | .word _ :: pending => frames pending
  | .loop _ index _ _ :: pending => (loopIndex, index) :: frames pending

def words : List Pending → Nat
  | [] => 0
  | .branch _ :: pending => words pending
  | .word _ :: pending => words pending + 1
  | .loop .. :: pending => words pending

/-- The index of the innermost running loop, whether its body or a word called there is running. -/
def index? : List Pending → Option Int64
  | [] => none
  | .branch _ :: pending => index? pending
  | .word _ :: pending => index? pending
  | .loop _ index _ _ :: _ => some index

theorem lookup_frames {pending : List Pending} {index : Int64} (h : index? pending = some index)
    (outer : List (String × Int64)) : (frames pending ++ outer).lookup loopIndex = some index := by
  induction pending with
  | nil => cases h
  | cons item pending ih =>
    cases item with
    | branch rest => exact ih h
    | word rest => exact ih h
    | loop body own limit rest =>
      cases h
      exact List.lookup_cons_self

/-- While no loop is pending, there are no frames of loops. -/
theorem frames_of_index? {pending : List Pending} (h : index? pending = none) :
    frames pending = [] := by
  induction pending with
  | nil => rfl
  | cons item pending ih =>
    cases item with
    | branch rest => exact ih h
    | word rest => exact ih h
    | loop body index limit rest => cases h

end Pending

structure Within (origin : Machine) (frames : List (String × Int64)) (words : Nat)
    (machine : Machine) : Prop where
  frames_eq : machine.scopes.frames = frames ++ origin.scopes.frames
  depth_eq : machine.depth = origin.depth + words
  maxDepth_eq : machine.maxDepth = origin.maxDepth
  words_le : words ≤ origin.maxDepth - origin.depth

private theorem Within.unwound {origin before after : Machine} {frames : List (String × Int64)}
    {words : Nat} (h : Within origin frames words before) (hu : Unwound before after) :
    Within origin frames words after :=
  ⟨hu.scopes ▸ h.frames_eq,hu.depth ▸ h.depth_eq,hu.maxDepth ▸ h.maxDepth_eq,h.words_le⟩

namespace Configuration

/-- The pending work accounts for all frames and active words, and only the depth limit is ever
a reason to give up. -/
def Balanced (origin : Machine) : Configuration → Prop
  | running _ pending machine => Within origin (Pending.frames pending) (Pending.words pending) machine
  | turning _ _ _ _ pending machine => ∃ held,
      Within origin ((loopIndex, held) :: Pending.frames pending) (Pending.words pending) machine
  | unwinding fault pending machine => fault = .nestingTooDeep origin.maxDepth ∧
      Within origin (Pending.frames pending) (Pending.words pending) machine
  | halted outcome => Unwound origin outcome.machine ∧
      (outcome.error? = none ∨ outcome.error? = some (.nestingTooDeep origin.maxDepth))

variable {origin machine : Machine} {pending : List Pending}

private theorem balanced_enter (word rest : Program)
    (h : Within origin (Pending.frames pending) (Pending.words pending) machine) :
    Balanced origin (enter word rest pending machine) := by
  have hd := h.depth_eq
  have hm := h.maxDepth_eq
  unfold enter
  split
  · exact ⟨by rw [hm],h⟩
  · refine ⟨h.frames_eq,?_,hm,?_⟩
    · change machine.depth + 1 = origin.depth + (Pending.words pending + 1)
      omega
    · change Pending.words pending + 1 ≤ _
      omega

private theorem balanced_call (name : String) (rest : Program)
    (h : Within origin (Pending.frames pending) (Pending.words pending) machine) :
    Balanced origin (call name rest pending machine) := by
  unfold call
  cases machine.meaning name with
  | primitive primitive => exact h.unwound (unwound_primitive primitive machine)
  | word word => exact balanced_enter word rest h
  | binding | address | unknown => exact h.unwound ⟨rfl,rfl,rfl⟩

private theorem balanced_branch (onTrue onFalse rest : Program)
    (h : Within origin (Pending.frames pending) (Pending.words pending) machine) :
    Balanced origin (branch onTrue onFalse rest pending machine) := by
  unfold branch
  split <;> exact h.unwound ⟨rfl,rfl,rfl⟩

private theorem balanced_loop (body rest : Program)
    (h : Within origin (Pending.frames pending) (Pending.words pending) machine) :
    Balanced origin (loop body rest pending machine) := by
  unfold loop
  split
  · rename_i start _ _
    exact ⟨start,congrArg (List.cons _) h.frames_eq,h.depth_eq,h.maxDepth_eq,h.words_le⟩
  · exact h.unwound ⟨rfl,rfl,rfl⟩

private theorem balanced_leave
    (h : Within origin (Pending.frames pending) (Pending.words pending) machine) :
    Balanced origin (leave machine pending) := by
  obtain ⟨hf,hd,hm,hw⟩ := h
  cases pending with
  | nil => exact ⟨⟨congrArg Scopes.mk hf,hd,hm⟩,.inl rfl⟩
  | cons item pending =>
    cases item with
    | branch rest => exact ⟨hf,hd,hm,hw⟩
    | word rest =>
      simp only [Pending.words] at hd hw
      exact ⟨hf,by dsimp only; omega,hm,by omega⟩
    | loop body index limit rest => exact ⟨index,hf,hd,hm,hw⟩

private theorem balanced_giveUp
    (h : Within origin (Pending.frames pending) (Pending.words pending) machine) :
    Balanced origin (giveUp (.nestingTooDeep origin.maxDepth) machine pending) := by
  obtain ⟨hf,hd,hm,hw⟩ := h
  cases pending with
  | nil => exact ⟨⟨congrArg Scopes.mk hf,hd,hm⟩,.inr rfl⟩
  | cons item pending =>
    cases item with
    | branch rest => exact ⟨rfl,hf,hd,hm,hw⟩
    | word rest =>
      simp only [Pending.words] at hd hw
      exact ⟨rfl,hf,by dsimp only; omega,hm,by omega⟩
    | loop body index limit rest => exact ⟨rfl,congrArg List.tail hf,hd,hm,hw⟩

/-- One step keeps the balance. -/
theorem balanced_step {configuration : Configuration} (h : Balanced origin configuration) :
    Balanced origin configuration.step := by
  cases configuration with
  | running program pending machine =>
    cases program with
    | nil => exact balanced_leave h
    | push | define | declare => exact h.unwound ⟨rfl,rfl,rfl⟩
    | call name rest => exact balanced_call name rest h
    | ifThen consequence rest => exact balanced_branch consequence .nil rest h
    | ifElse consequence alternative rest => exact balanced_branch consequence alternative rest h
    | loop body rest => exact balanced_loop body rest h
  | turning body index limit rest pending machine =>
    obtain ⟨held,hf,hd,hm,hw⟩ := h
    rw [step]
    split
    · exact ⟨congrArg List.tail hf,hd,hm,hw⟩
    · refine ⟨?_,hd,hm,hw⟩
      change Scopes.setFrame loopIndex index machine.scopes.frames = _
      rw [hf]
      simp [Scopes.setFrame,Pending.frames]
  | unwinding fault pending machine =>
    obtain ⟨rfl,hw⟩ := h
    exact balanced_giveUp hw
  | halted outcome => exact h

/-- A whole run keeps the balance from its first moment on. -/
theorem balanced_run (machine : Machine) (program : Program) (steps : Nat) :
    Balanced machine (step^[steps] (running program [] machine)) :=
  Function.Iterate.rec _ ⟨rfl,rfl,rfl,Nat.zero_le _⟩ (fun _ h => balanced_step h) steps

theorem balanced_evaluate (machine : Machine) (program : Program) :
    Balanced machine (halted (machine.evaluate program)) :=
  evaluate_of_invariant (fun _ h => balanced_step h) (balanced_run machine program 0)

/-- Every evaluation ends, whatever the dictionary holds and however it changes on the way: its
steps come to its outcome, which is finished or nested too deep. The words active at any moment
never exceed the levels that were left, and each loop is left again after finitely many turns. -/
theorem evaluation_ends (machine : Machine) (program : Program) :
    (∃ steps, step^[steps] (running program [] machine) = halted (machine.evaluate program)) ∧
    ((machine.evaluate program).error? = none ∨
      (machine.evaluate program).error? = some (.nestingTooDeep machine.maxDepth)) ∧
    (∀ steps rest pending now, step^[steps] (running program [] machine) = running rest pending now →
      now.depth = machine.depth + Pending.words pending ∧
        Pending.words pending ≤ machine.maxDepth - machine.depth) ∧
    (∀ body rest index limit pending now, ∃ steps outcome,
      step^[steps] (turning body index limit rest pending now) = resumed rest pending outcome) := by
  have hi : Balanced machine (running program [] machine) := balanced_run machine program 0
  have hh : Balanced machine (halted (machine.evaluate program)) :=
    evaluate_of_invariant (fun _ h => balanced_step h) hi
  refine ⟨leads_halted machine program,hh.2,?_,?_⟩
  · intro steps rest pending now he
    have hb := balanced_run machine program steps
    rw [he] at hb
    exact ⟨hb.depth_eq,hb.words_le⟩
  · intro body rest index limit pending now
    obtain ⟨outcome,steps,he⟩ := turning_leads body rest index limit pending now
    exact ⟨steps,outcome,he⟩

/-- A word that calls itself is given up at the limit, here when it is active twice. -/
theorem evaluation_ends_recursive :
    let program := Program.call "f" .nil
    let machine := (blank ⟨#[]⟩ .unlimited 2).define "f" program
    (∃ steps, step^[steps] (running program [] machine) = halted (machine.evaluate program)) ∧
      (machine.evaluate program).error? = some (.nestingTooDeep 2) ∧
      ∃ now, step^[2] (running program [] machine) = running program [.word .nil, .word .nil] now ∧
        now.depth = 2 := by
  intro program machine
  obtain ⟨hs,-,hd,-⟩ := evaluation_ends machine program
  exact ⟨hs,rfl,_,rfl,(hd 2 _ _ _ rfl).1⟩

end Configuration

end NandStack.Machine

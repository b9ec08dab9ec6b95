import NandStack.Proofs.Machine.Sequence

/-!
Nodes: a program is evaluated by its first node, and then the nodes behind it are evaluated as a
program of their own on whatever machine that leaves.
-/

namespace NandStack.Machine

theorem evaluate_nil (machine : Machine) : machine.evaluate .nil = .finished machine := by
  rw [evaluate,runWithin_eq_run]
  rfl

theorem evaluate_push (machine : Machine) (value : Int64) (rest : Program) :
    machine.evaluate (.push value rest) = (machine.push value).evaluate rest := by
  rw [evaluate,evaluate,runWithin_eq_run,runWithin_eq_run]
  rfl

/-- A name is looked up on the machine as it is. Its word, if it means one, is entered with the
levels that are left. -/
theorem evaluate_call (machine : Machine) (name : String) (rest : Program) :
    machine.evaluate (.call name rest) =
      (machine.call (enterWithin (machine.maxDepth - machine.depth)) name).andThen
        fun after => after.evaluate rest := by
  have ha : machine.evaluate (.call name .nil) =
      machine.call (enterWithin (machine.maxDepth - machine.depth)) name := by
    rw [evaluate,runWithin_eq_run]
    exact Outcome.andThen_finished _
  rw [← ha]
  exact evaluate_append machine (.call name .nil) rest

theorem evaluate_primitive (machine : Machine) (primitive : Primitive) (rest : Program) :
    machine.evaluate (.call primitive.name rest) = (primitive.run machine).evaluate rest := by
  rw [evaluate_call]
  simp only [call,Primitive.ofName?_name]
  rfl

theorem evaluate_address {machine : Machine} {name : String} {address : Nat}
    (h : machine.meaning name = .address address) (rest : Program) :
    machine.evaluate (.call name rest) = (machine.push (Int64.ofNat address)).evaluate rest := by
  rw [evaluate_call,call_eq_meaning,h]
  rfl

/-- A word is its body, one call deeper, while calls are left. -/
theorem evaluate_word {machine : Machine} {name : String} {body : Program}
    (h : machine.meaning name = .word body) (hd : machine.depth < machine.maxDepth)
    (rest : Program) :
    machine.evaluate (.call name rest) =
      (({ machine with depth := machine.depth + 1 }.evaluate body).mapMachine fun after =>
        { after with depth := after.depth - 1 }).andThen fun after => after.evaluate rest := by
  have hl : machine.maxDepth - machine.depth = machine.maxDepth - (machine.depth + 1) + 1 := by omega
  rw [evaluate_call,call_eq_meaning,h,hl]
  rfl

theorem evaluate_ifElse (machine : Machine) (consequence alternative rest : Program) :
    machine.evaluate (.ifElse consequence alternative rest) =
      (machine.branch (fun before => before.evaluate consequence) fun before =>
        before.evaluate alternative).andThen fun after => after.evaluate rest := by
  have hb : machine.evaluate (.ifElse consequence alternative .nil) =
      machine.branch (fun before => before.evaluate consequence) fun before =>
        before.evaluate alternative := by
    rw [evaluate,runWithin_eq_run,run,branch,branch]
    simp only [evaluate,runWithin_eq_run]
    exact Outcome.andThen_finished _
  rw [← hb]
  exact evaluate_append machine (.ifElse consequence alternative .nil) rest

/-- No alternative is as good as an empty one. -/
theorem evaluate_ifThen (machine : Machine) (consequence rest : Program) :
    machine.evaluate (.ifThen consequence rest) =
      machine.evaluate (.ifElse consequence .nil rest) := by
  rw [evaluate,evaluate,runWithin_eq_run]
  rfl

end NandStack.Machine

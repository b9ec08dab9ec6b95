import NandStack.Proofs.Machine.Balance

/-!
Turns: a counted loop is its body evaluated once for each index of the range, in order, whatever
the body does to the stacks, the dictionary or the variables. Each turn has the index in a frame
of its own, which comes before every other meaning of the name.
-/

namespace NandStack

namespace Machine

open Machine.Configuration (running halted step Leads)

def enterWithin : Nat → Program → Machine → Outcome Fault
  | 0 => fun _ machine => .aborted (.nestingTooDeep machine.maxDepth) machine
  | levels + 1 => fun word machine =>
    (runWithin levels word { machine with depth := machine.depth + 1 }).mapMachine
      fun machine => { machine with depth := machine.depth - 1 }

theorem runWithin_eq_run (levels : Nat) : runWithin levels = run (enterWithin levels) := by
  cases levels <;> rfl

theorem evaluate_loop (machine : Machine) (body : Program) :
    machine.evaluate (.loop body .nil) =
      machine.countedLoop (runWithin (machine.maxDepth - machine.depth) body) := by
  rw [evaluate,runWithin_eq_run,run]
  exact Outcome.andThen_finished _

private theorem distance_eq_emod (start limit : Int64) :
    distance start limit = ((limit.toInt - start.toInt) % UInt64.size).toNat := by
  have hb : (distance start limit : Int).bmod UInt64.size =
      (limit.toInt - start.toInt).bmod UInt64.size := by
    have hs := Int64.toInt_sub limit start
    exact (BitVec.toInt_eq_toNat_bmod (limit - start).toBitVec).symm.trans hs
  have hm := congrArg (· % (UInt64.size : Int)) hb
  simp only [Int.bmod_emod] at hm
  have hl : (distance start limit : Int) < UInt64.size :=
    Int.ofNat_lt.mpr (limit - start).toUInt64.toNat_lt
  rw [← hm,Int.emod_eq_of_lt (Int.natCast_nonneg _) hl,Int.toNat_natCast]

def withIndex (outer : Scopes) (index : Int64) (machine : Machine) : Machine :=
  { machine with scopes := outer.enclose loopIndex index }

@[simp] theorem set_withIndex (outer : Scopes) (held index : Int64) (machine : Machine) :
    { machine.withIndex outer held with
      scopes := (machine.withIndex outer held).scopes.set loopIndex index } =
      machine.withIndex outer index := by
  simp [withIndex]

private theorem mapMachine_withIndex {outer : Scopes} {index : Int64} {outcome : Outcome Fault}
    (h : outcome.machine.scopes = outer.enclose loopIndex index) :
    outcome.mapMachine (withIndex outer index) = outcome := by
  have hm : outcome.machine.withIndex outer index = outcome.machine := by
    rw [withIndex,← h]
  cases outcome with
  | finished after => exact congrArg Outcome.finished hm
  | aborted fault after => exact congrArg (Outcome.aborted fault) hm

/-- Evaluates a body for the first `count` indices from `start` on, each time in one frame inside
the given scopes, up to the first evaluation that is aborted. -/
def turns (body : Program) (outer : Scopes) (start : Int64) (machine : Machine) : Nat → Outcome Fault
  | 0 => .finished machine
  | count + 1 => (turns body outer start machine count).andThen fun before =>
    (before.withIndex outer (start + Int64.ofNat count)).evaluate body

private theorem iterate_succ_last (body : Machine → Outcome Fault) (count : Nat) (index : Int64)
    (machine : Machine) :
    iterate body (count + 1) index machine =
      (iterate body count index machine).andThen fun before =>
        body { before with scopes := before.scopes.set loopIndex (index + Int64.ofNat count) } := by
  induction count generalizing index machine with
  | zero =>
    have hz : index + Int64.ofNat 0 = index := Int64.add_zero index
    rw [hz,iterate]
    exact Outcome.andThen_finished _
  | succ count ih =>
    have hn : index + 1 + Int64.ofNat count = index + Int64.ofNat (count + 1) := by
      rw [Int64.ofNat_add,Int64.add_comm (Int64.ofNat count),Int64.add_assoc]
      rfl
    rw [iterate,iterate,Outcome.andThen_assoc,← hn]
    exact congrArg _ (funext fun next => ih (index + 1) next)

private theorem turns_levels (body : Program) (outer : Scopes) (start : Int64) (machine : Machine)
    (count : Nat) :
    (turns body outer start machine count).machine.maxDepth -
        (turns body outer start machine count).machine.depth =
      machine.maxDepth - machine.depth := by
  induction count with
  | zero => rfl
  | succ count ih =>
    rw [turns]
    cases ht : turns body outer start machine count with
    | aborted fault before => rwa [ht] at ih
    | finished before =>
      rw [ht] at ih
      exact (unwound_evaluate (before.withIndex outer _) body).levels.trans ih

/-- A loop that has entered its frame takes the turns; the frame holds the index of the last one. -/
theorem iterate_eq_turns (body : Program) (outer : Scopes) (start : Int64) (machine : Machine)
    (count : Nat) :
    ∃ last, iterate (runWithin (machine.maxDepth - machine.depth) body) count start
        (machine.withIndex outer start) =
      (turns body outer start machine count).mapMachine (withIndex outer last) := by
  induction count with
  | zero => exact ⟨start,rfl⟩
  | succ count ih =>
    obtain ⟨last,ih⟩ := ih
    have hl := turns_levels body outer start machine count
    rw [iterate_succ_last,ih,turns]
    cases ht : turns body outer start machine count with
    | aborted fault before => exact ⟨last,rfl⟩
    | finished before =>
      rw [ht] at hl
      have hu := unwound_evaluate (before.withIndex outer (start + Int64.ofNat count)) body
      refine ⟨start + Int64.ofNat count,?_⟩
      change runWithin _ body { before.withIndex outer last with
          scopes := (before.withIndex outer last).scopes.set loopIndex _ } =
        ((before.withIndex outer _).evaluate body).mapMachine _
      rw [mapMachine_withIndex hu.scopes,set_withIndex]
      exact congrArg (runWithin · body _) hl.symm

private theorem meaning_of_turn {outer : Scopes} {index : Int64} {before now : Machine} {body rest : Program}
    {pending : List Pending} {steps : Nat}
    (h : step^[steps] (running body [] (before.withIndex outer index)) = running rest pending now)
    (hp : Pending.index? pending = none) : now.meaning loopIndex = .binding index := by
  have hb := Configuration.balanced_run (before.withIndex outer index) body steps
  rw [h] at hb
  have hf := hb.frames_eq
  rw [Pending.frames_of_index? hp] at hf
  refine meaning_of_get? (by decide) ?_
  rw [Scopes.get?,hf]
  exact List.lookup_cons_self

/-- A counted loop runs exactly its range: it is its turns, as many as the difference of limit and
start modulo the number of 64-bit values, and then the scopes are those of before. Each turn that
is reached evaluates the body with its own index for the whole turn. -/
theorem loop_runs_exactly_its_range (machine : Machine) (body : Program) {start limit : Int64}
    {below : List Int64} (hs : machine.stack = limit :: start :: below) :
    let count := ((limit.toInt - start.toInt) % UInt64.size).toNat
    let popped := { machine with stack := below }
    let taken := turns body machine.scopes start popped
    machine.evaluate (.loop body .nil) =
      (taken count).mapMachine (fun after => { after with scopes := machine.scopes }) ∧
    ∀ k before, taken k = .finished before →
      let entered := before.withIndex machine.scopes (start + Int64.ofNat k)
      taken (k + 1) = entered.evaluate body ∧
      Leads (running body [] entered) (halted (entered.evaluate body)) ∧
      ∀ steps rest pending now, step^[steps] (running body [] entered) = running rest pending now →
        Pending.index? pending = none →
        now.meaning loopIndex = .binding (start + Int64.ofNat k) := by
  intro count popped taken
  refine ⟨?_,?_⟩
  · obtain ⟨last,hi⟩ := iterate_eq_turns body machine.scopes start popped count
    rw [evaluate_loop,countedLoop,hs]
    dsimp only
    rw [distance_eq_emod]
    change (iterate _ count start (popped.withIndex machine.scopes start)).mapMachine _ = _
    rw [hi,Outcome.mapMachine_mapMachine]
    rfl
  · intro k before hk entered
    refine ⟨?_,leads_halted entered body,?_⟩
    · change (taken k).andThen _ = _
      rw [hk]
      rfl
    · intro steps rest pending now hn hp
      exact meaning_of_turn hn hp

/-- Two turns across the end of the range. The body defines and declares the name of the index and
runs a loop of its own, and yet the word that it calls afterwards finds the index of the turn. -/
theorem loop_runs_exactly_its_range_wrapping :
    let body := Program.define "i" (.push 7 .nil)
      (.declare "i" (.push 0 (.push 1 (.loop .nil (.call "f" .nil)))))
    let machine : Machine := { (blank ⟨#[]⟩ .unlimited 1).define "f" (.call "i" .nil) with
      stack := [Int64.minValue + 1, Int64.maxValue, 5] }
    machine.evaluate (.loop body .nil) =
      (turns body .empty .maxValue { machine with stack := [5] } 2).mapMachine
        (fun after => { after with scopes := .empty }) ∧
    (machine.evaluate (.loop body .nil)).machine.stack = [Int64.minValue, Int64.maxValue, 5] ∧
    ∃ before now, turns body .empty .maxValue { machine with stack := [5] } 1 = .finished before ∧
      step^[9] (running body [] (before.withIndex .empty .minValue)) =
        running (.call "i" .nil) [.word .nil] now ∧
      now.meaning loopIndex = .binding .minValue := by
  intro body machine
  obtain ⟨hl,ht⟩ := loop_runs_exactly_its_range machine body rfl
  have hc : ((Int64.minValue + 1).toInt - Int64.maxValue.toInt) % UInt64.size = 2 := by decide
  rw [hc] at hl
  exact ⟨hl,by decide +kernel,_,_,rfl,rfl,(ht 1 _ rfl).2.2 9 _ _ _ rfl rfl⟩

end Machine

end NandStack

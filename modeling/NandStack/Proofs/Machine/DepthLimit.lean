import NandStack.Proofs.Machine.Balance
import NandStack.Proofs.Machine.Growth
import NandStack.Proofs.Machine.Lockstep
import NandStack.Proofs.Machine.Operands

/-!
The depth limit: of two evaluations that differ in the limit on active words only, the one under
the lower limit is the beginning of the other. It is all of it unless more words become active
than the lower limit allows.
-/

namespace NandStack.Machine

def withLimit (limit : Nat) (machine : Machine) : Machine :=
  { machine with maxDepth := limit }

private theorem primitive_withLimit (primitive : Primitive) (limit : Nat) (machine : Machine) :
    primitive.run (machine.withLimit limit) = (primitive.run machine).withLimit limit :=
  primitive_change (withLimit limit) (fun _ _ => rfl) primitive machine

namespace Configuration

/-- A fault is giving up what is pending, or has given up all of it. -/
def Aborting (fault : Fault) : Configuration → Prop
  | running .. => False
  | turning .. => False
  | unwinding reason _ _ => reason = fault
  | halted outcome => outcome.error? = some fault

private theorem aborting_step {fault : Fault} {configuration : Configuration}
    (h : Aborting fault configuration) :
    Aborting fault configuration.step ∧
      configuration.step.machine.reports = configuration.machine.reports ∧
      configuration.step.machine.sink = configuration.machine.sink := by
  cases configuration with
  | running | turning => cases h
  | unwinding reason pending machine =>
    cases h
    rcases pending with _ | ⟨_ | _ | _,pending⟩ <;> exact ⟨rfl,rfl,rfl⟩
  | halted outcome => exact ⟨h,rfl,rfl⟩

private theorem not_aborting_of_finished {configuration : Configuration} {steps : Nat} {machine : Machine}
    (h : step^[steps] configuration = halted (.finished machine)) (fault : Fault) (moment : Nat) :
    ¬ Aborting fault (step^[moment] configuration) := by
  intro ha
  have hl : Aborting fault (step^[steps] (step^[moment] configuration)) :=
    Function.Iterate.rec (Aborting fault) ha (fun _ hi => (aborting_step hi).1) steps
  rw [← Function.iterate_add_apply,Nat.add_comm,iterate_halted h] at hl
  cases hl

def Beyond (limit : Nat) : Configuration → Prop
  | running _ _ machine => limit < machine.depth
  | turning .. => False
  | unwinding .. => False
  | halted _ => False

def Limited (limit higher : Nat) (first second : Machine) : Prop :=
  first.maxDepth = limit ∧ second = first.withLimit higher

private theorem limited_withLimit (limit higher : Nat) (machine : Machine) :
    Limited limit higher (machine.withLimit limit) (machine.withLimit higher) :=
  ⟨rfl,rfl⟩

/-- The limit has cut the first run short, and all that it has shown the second one has shown too. -/
structure CutShort (limit : Nat) (first second : Configuration) : Prop where
  aborting : Aborting (.nestingTooDeep limit) first
  grown : Grown first.machine second.machine

/-- The first run is just being cut short, where the second one enters one more word or is cut short
as well. -/
structure CutOff (limit higher : Nat) (first second : Configuration) : Prop extends
    CutShort limit first second where
  beyond : Beyond limit second ∨ Aborting (.nestingTooDeep higher) second

private theorem CutShort.step {limit : Nat} {first second : Configuration} (h : CutShort limit first second) :
    CutShort limit first.step second.step := by
  obtain ⟨ha,hr,hs⟩ := aborting_step h.aborting
  have hb : Grown first.step.machine first.machine := .of_eq hr.symm (by rw [hs])
  exact ⟨ha,(hb.trans h.grown).trans (grown_step second)⟩

variable {limit higher : Nat}

private theorem limited_enter (hl : limit ≤ higher) (word rest : Program) (pending : List Pending)
    {first second : Machine} (h : Limited limit higher first second) :
    Alongside (Limited limit higher) (enter word rest pending first) (enter word rest pending second) ∨
      CutOff limit higher (enter word rest pending first) (enter word rest pending second) := by
  obtain ⟨rfl,rfl⟩ := h
  simp only [enter]
  change Alongside _ _ (if first.depth ≥ higher then _ else _) ∨
    CutOff _ _ _ (if first.depth ≥ higher then _ else _)
  by_cases hd : first.depth ≥ first.maxDepth
  · rw [if_pos hd]
    by_cases hh : first.depth ≥ higher
    · rw [if_pos hh]
      exact .inr ⟨⟨rfl,.of_eq rfl rfl⟩,.inr rfl⟩
    · rw [if_neg hh]
      exact .inr ⟨⟨rfl,.of_eq rfl rfl⟩,.inl (Nat.lt_succ_of_le hd)⟩
  · rw [if_neg hd,if_neg (by omega)]
    exact .inl (.running word _ ⟨rfl,rfl⟩)

private theorem simulation_limited (hl : limit ≤ higher) :
    Simulation (Limited limit higher) (CutOff limit higher) where
  scopes_eq := by
    rintro first _ ⟨-,rfl⟩
    rfl
  depth_eq := by
    rintro first _ ⟨-,rfl⟩
    rfl
  withScopes := by
    rintro first _ scopes ⟨hf,rfl⟩
    exact ⟨hf,rfl⟩
  withDepth := by
    rintro first _ depth ⟨hf,rfl⟩
    exact ⟨hf,rfl⟩
  push := by
    rintro first _ value ⟨hf,rfl⟩
    exact ⟨hf,rfl⟩
  define := by
    rintro first _ name body ⟨hf,rfl⟩
    exact ⟨hf,rfl⟩
  declare := by
    rintro first _ name ⟨hf,rfl⟩
    exact ⟨hf,rfl⟩
  call := by
    rintro first _ name rest pending ⟨hf,rfl⟩
    have hm : (first.withLimit higher).meaning name = first.meaning name := rfl
    simp only [call,hm]
    cases first.meaning name with
    | primitive primitive =>
      have hp := (unwound_primitive primitive first).maxDepth
      exact .inl (.running rest pending ⟨hp.trans hf,primitive_withLimit primitive higher first⟩)
    | word word => exact limited_enter hl word rest pending ⟨hf,rfl⟩
    | binding | address | unknown => exact .inl (.running rest pending ⟨hf,rfl⟩)
  branch := by
    rintro first _ onTrue onFalse rest pending ⟨hf,rfl⟩
    rcases first with ⟨_,_,_,_,_ | ⟨flag,stack⟩,_,_,_,_,_,_⟩ <;> exact .inl (.running _ _ ⟨hf,rfl⟩)
  loop := by
    rintro first _ body rest pending ⟨hf,rfl⟩
    rcases first with ⟨_,_,_,_,_ | ⟨limit,_ | ⟨start,stack⟩⟩,_,_,_,_,_,_⟩
    · exact .inl (.running _ _ ⟨hf,rfl⟩)
    · exact .inl (.running _ _ ⟨hf,rfl⟩)
    · exact .inl (.turning _ _ _ _ _ ⟨hf,rfl⟩)

end Configuration

open Machine.Configuration (running halted step Alongside Limited CutShort limited_withLimit)

section
variable {limit higher : Nat} (machine : Machine) (program : Program)

private theorem limited_iterate (hl : limit ≤ higher) (steps : Nat) :
    Alongside (Limited limit higher) (step^[steps] (running program [] (machine.withLimit limit)))
        (step^[steps] (running program [] (machine.withLimit higher))) ∨
      CutShort limit (step^[steps] (running program [] (machine.withLimit limit)))
        (step^[steps] (running program [] (machine.withLimit higher))) :=
  (Configuration.simulation_limited hl).iterate (fun hc => hc.toCutShort) (fun hc => hc.step)
    (.running program [] (limited_withLimit limit higher machine)) steps

private theorem limited_of_finished (hl : limit ≤ higher) {after : Machine}
    (h : (machine.withLimit limit).evaluate program = .finished after) (steps : Nat) :
    Alongside (Limited limit higher) (step^[steps] (running program [] (machine.withLimit limit)))
        (step^[steps] (running program [] (machine.withLimit higher))) := by
  obtain ⟨last,he⟩ := leads_halted (machine.withLimit limit) program
  rw [h] at he
  exact (limited_iterate machine program hl steps).resolve_right
    fun hc => Configuration.not_aborting_of_finished he _ steps hc.aborting

private theorem words_of_beyond (hz : machine.depth = 0) {steps : Nat}
    (h : Configuration.Beyond limit (step^[steps] (running program [] machine))) :
    ∃ rest pending now, step^[steps] (running program [] machine) = running rest pending now ∧
      limit < Pending.words pending := by
  have hb := Configuration.balanced_run machine program steps
  cases hn : step^[steps] (running program [] machine) with
  | running rest pending now =>
    rw [hn] at h hb
    have hd := hb.depth_eq
    rw [hz,Nat.zero_add] at hd
    exact ⟨rest,pending,now,rfl,hd ▸ h⟩
  | turning | unwinding | halted =>
    rw [hn] at h
    cases h

private theorem limited_of_words_le (hl : limit ≤ higher) {final : Machine} (hz : machine.depth = 0)
    (h : (machine.withLimit higher).evaluate program = .finished final)
    (hw : ∀ steps rest pending now,
      step^[steps] (running program [] (machine.withLimit higher)) = running rest pending now →
      Pending.words pending ≤ limit) (steps : Nat) :
    Alongside (Limited limit higher) (step^[steps] (running program [] (machine.withLimit limit)))
        (step^[steps] (running program [] (machine.withLimit higher))) := by
  -- The induction is on the steps, as the first word beyond the limit would be the first
  -- difference.
  obtain ⟨last,he⟩ := leads_halted (machine.withLimit higher) program
  rw [h] at he
  induction steps with
  | zero => exact .running program [] (limited_withLimit limit higher machine)
  | succ steps ih =>
    have hs := (Configuration.simulation_limited hl).step ih
    simp only [← Function.iterate_succ_apply'] at hs
    refine hs.resolve_right fun hc => ?_
    rcases hc.beyond with hb | ha
    · obtain ⟨rest,pending,now,hn,hd⟩ := words_of_beyond (machine.withLimit higher) program hz hb
      exact Nat.not_le_of_lt hd (hw _ _ _ _ hn)
    · exact Configuration.not_aborting_of_finished he _ _ ha

/-- The limit only cuts runs short and never changes them: a run that finishes is the same under a
higher limit, and one that is aborted has shown the beginning of what it shows there. The lower
limit lets a run finish that finishes under the higher one exactly when there are never more words
active than it allows, however deep branches and loops are nested. -/
theorem depth_limit_only_cuts (hl : limit ≤ higher) (hz : machine.depth = 0) :
    let low := (machine.withLimit limit).evaluate program
    let high := (machine.withLimit higher).evaluate program
    ((∃ after, low = .finished after ∧ high = .finished (after.withLimit higher)) ∨
      (∃ after, low = .aborted (.nestingTooDeep limit) after ∧ Grown machine after ∧
        Grown after high.machine)) ∧
    ∀ final, high = .finished final →
      ((∃ after, low = .finished after) ↔ ∀ steps rest pending now,
        step^[steps] (running program [] (machine.withLimit higher)) = running rest pending now →
        Pending.words pending ≤ limit) := by
  intro low high
  refine ⟨?_,?_⟩
  · have hk := (Configuration.balanced_evaluate (machine.withLimit limit) program).2
    have hg := grown_evaluate (machine.withLimit limit) program
    rcases (Configuration.simulation_limited hl).evaluate (fun hc => hc.toCutShort)
      (fun hc => hc.step) (limited_withLimit limit higher machine) program with ⟨⟨-,hm⟩,hs⟩ | hc
    · rcases hk with hk | hk
      · have hh := Outcome.eq_finished (hs.trans hk)
        exact .inl ⟨low.machine,Outcome.eq_finished hk,hm ▸ hh⟩
      · exact .inr ⟨low.machine,Outcome.eq_aborted hk,⟨hg.reports,hg.written⟩,
          .of_eq (by rw [hm]; rfl) (by rw [hm]; rfl)⟩
    · exact .inr ⟨low.machine,Outcome.eq_aborted hc.aborting,⟨hg.reports,hg.written⟩,hc.grown⟩
  · intro final hf
    refine ⟨?_,?_⟩
    · rintro ⟨after,ha⟩ moment rest pending now hn
      have hi := limited_of_finished machine program hl ha moment
      have hb := Configuration.balanced_run (machine.withLimit limit) program moment
      rw [hn] at hi
      -- The lower run stands at the same place, and its own limit bounds the words there.
      generalize step^[moment] (running program [] (machine.withLimit limit)) = first at hi hb
      cases hi
      exact Nat.le_trans hb.words_le (Nat.sub_le _ _)
    · intro hw
      obtain ⟨steps,he,he'⟩ := Configuration.halted_together (machine.withLimit limit)
        (machine.withLimit higher) program program
      have hi := limited_of_words_le machine program hl hz hf hw steps
      rw [he,he'] at hi
      have hs := hi.of_halted.2.symm
      rw [show (machine.withLimit higher).evaluate program = _ from hf] at hs
      exact ⟨low.machine,Outcome.eq_finished hs⟩

end

/-- A word that prints and calls another one in a loop: the limit 2 lets it finish, and the limit 1
cuts it short in the first turn, so that two words must have been active. -/
theorem depth_limit_only_cuts_printing :
    let looping := Program.push 0 (.push 2 (.loop (.call "i" (.call "." (.call "g" .nil))) .nil))
    let machine := ((blank ⟨#[]⟩ .unlimited 0).define "g" (.push 7 (.call "." .nil))).define "f" looping
    let low := (machine.withLimit 1).evaluate (.call "f" .nil)
    let high := (machine.withLimit 2).evaluate (.call "f" .nil)
    1 ≤ 2 ∧ machine.depth = 0 ∧ low.error? = some (.nestingTooDeep 1) ∧
      low.machine.sink.written = "0\n" ∧ high.error? = none ∧
      high.machine.sink.written = "0\n7\n1\n7\n" ∧ Grown low.machine high.machine ∧
      ∃ steps rest pending now, step^[steps] (running (.call "f" .nil) [] (machine.withLimit 2)) =
        running rest pending now ∧ 1 < Pending.words pending := by
  intro looping machine low high
  have hl : low.error? = some (.nestingTooDeep 1) := by decide +kernel
  have hh : high.error? = none := by decide +kernel
  obtain ⟨hc,hw⟩ := depth_limit_only_cuts machine (.call "f" .nil) (show 1 ≤ 2 by decide) rfl
  have hs : low = .aborted (.nestingTooDeep 1) low.machine := Outcome.eq_aborted hl
  have hn : ¬ ∃ after, low = .finished after := by
    rintro ⟨after,ha⟩
    rw [ha] at hs
    cases hs
  refine ⟨by decide,rfl,hl,by decide +kernel,hh,by decide +kernel,?_,?_⟩
  · rcases hc with ⟨after,ha,-⟩ | ⟨after,ha,-,hg⟩
    · exact absurd ⟨after,ha⟩ hn
    · rw [show low.machine = after from congrArg Outcome.machine ha]
      exact hg
  · have hb := mt (hw high.machine (Outcome.eq_finished hh)).mpr hn
    simpa only [not_forall,Nat.not_le,exists_prop] using hb

end NandStack.Machine

import NandStack.Proofs.Machine.Checks
import NandStack.Proofs.Vocabulary.Standard

/-!
Rules: what a program over the words of the vocabulary attains is derived node by node, from the
first node on, with one rule for each kind of node. A derivation is good for every standard machine
with enough levels, whatever it holds besides.
-/

namespace NandStack

namespace Machine

structure Values where
  stack : List Int64
  returnStack : List Int64
  held : Int64

def holding (machine : Machine) (scratch : Fin machine.memory.size) (values : Values) : Machine :=
  { machine with
    stack := values.stack
    returnStack := values.returnStack
    memory := machine.memory.store scratch values.held }

section Holding

variable {machine : Machine} {scratch : Fin machine.memory.size} {address : Int64}

private theorem cell?_holding (values : Values) (hc : machine.memory.cell? address = some scratch) :
    (machine.holding scratch values).memory.cell? address =
      some (scratch.cast (Memory.size_store ..).symm) := by
  change (machine.memory.store scratch values.held).cell? address = _
  rw [Memory.cell?_store,hc]
  rfl

private theorem branch_holding (onTrue onFalse : Machine → Outcome Fault) (value held : Int64)
    (stack returnStack : List Int64) :
    branch onTrue onFalse (machine.holding scratch ⟨value :: stack,returnStack,held⟩) =
      if value = 0 then onFalse (machine.holding scratch ⟨stack,returnStack,held⟩)
      else onTrue (machine.holding scratch ⟨stack,returnStack,held⟩) := rfl

private theorem runStore_holding (hc : machine.memory.cell? address = some scratch) (value held : Int64)
    (stack returnStack : List Int64) :
    Primitive.runStore (machine.holding scratch ⟨address :: value :: stack,returnStack,held⟩) =
      machine.holding scratch ⟨stack,returnStack,value⟩ := by
  rw [Primitive.runStore_of_cell? rfl (cell?_holding _ hc)]
  simp only [holding,Memory.store_store]

private theorem runFetch_holding (hc : machine.memory.cell? address = some scratch) (held : Int64)
    (stack returnStack : List Int64) :
    Primitive.runFetch (machine.holding scratch ⟨address :: stack,returnStack,held⟩) =
      machine.holding scratch ⟨held :: stack,returnStack,held⟩ := by
  rw [Primitive.runFetch_of_cell? rfl (cell?_holding _ hc)]
  simp only [holding,Memory.load_store]

end Holding

/-- From the one data stack the word leaves the other. Nothing else is changed but the scratch cell,
and the evaluation is not aborted. -/
def Leaves (machine : Machine) (scratch : Fin machine.memory.size) (word : String)
    (before after : List Int64) : Prop :=
  ∃ held, { machine with stack := before }.evaluate (.call word .nil) =
    .finished { machine with stack := after, memory := machine.memory.store scratch held }

namespace Standard

variable {machine : Machine} {scratch : Fin machine.memory.size}

theorem deeper (h : machine.Standard scratch) (depth : Nat) :
    Standard { machine with depth := depth } scratch :=
  ⟨h.words,h.undefined,h.address,h.only⟩

private theorem meaning_word (h : machine.Standard scratch) (values : Values) {name : String}
    {body : Program} (hb : Vocabulary.bodies.find? name = some body) :
    (machine.holding scratch values).meaning name = .word body := by
  have hn : ∀ entry ∈ Vocabulary.bodies.entries,
      Primitive.ofName? entry.1 = none ∧ entry.1 ≠ loopIndex := by decide
  obtain ⟨front,behind,he,-⟩ := List.lookup_eq_some_iff.mp hb
  obtain ⟨hp,hi⟩ := hn (name,body) (he ▸ List.mem_append_cons_self)
  simp only [meaning,holding,hp,h.only.get?_eq_none hi,h.words name body hb]

/-- Holding the values and going one call deeper commute. -/
theorem evaluate_word (h : machine.Standard scratch) (values : Values) {name : String}
    {body : Program} (hb : Vocabulary.bodies.find? name = some body)
    (hd : machine.depth < machine.maxDepth) (rest : Program) :
    (machine.holding scratch values).evaluate (.call name rest) =
      ((holding { machine with depth := machine.depth + 1 } scratch values).evaluate body
        |>.mapMachine fun after => { after with depth := after.depth - 1 }).andThen
          fun after => after.evaluate rest :=
  Machine.evaluate_word (h.meaning_word values hb) hd rest

private theorem meaning_temp (h : machine.Standard scratch) :
    ∃ address, machine.memory.cell? (Int64.ofNat address) = some scratch ∧
      ∀ values, (machine.holding scratch values).meaning "temp" = .address address := by
  obtain ⟨address,hv,hc⟩ := h.address
  refine ⟨address,hc,?_⟩
  intro values
  have hp : Primitive.ofName? "temp" = none := rfl
  have hi : "temp" ≠ loopIndex := by decide
  simp only [meaning,holding,hp,h.only.get?_eq_none hi,h.undefined,hv]

end Standard

end Machine

namespace Vocabulary

open Machine (Values)

/-- On every standard machine that holds the values and has the levels left, the program finishes,
and the machine then differs from what it was in nothing but values, which satisfy `post`. -/
def Attains (levels : Nat) (program : Program) (before : Values) (post : Values → Prop) : Prop :=
  ∀ (machine : Machine) (scratch : Fin machine.memory.size), machine.Standard scratch →
    machine.depth + levels ≤ machine.maxDepth →
    ∃ after, post after ∧
      (machine.holding scratch before).evaluate program = .finished (machine.holding scratch after)

/-- One for a truth, with all bits set, and zero for a falsehood. -/
def flag (condition : Prop) [Decidable condition] : Int64 :=
  if condition then -1 else 0

section Flag

variable {p q : Prop} [Decidable p] [Decidable q]

theorem flag_congr (h : p ↔ q) : flag p = flag q := by
  simp only [flag,h]

theorem flag_eq_zero_iff : flag p = 0 ↔ ¬ p := by
  unfold flag
  split
  · case isTrue hp => exact iff_of_false (by decide) (not_not_intro hp)
  · case isFalse hp => exact iff_of_true rfl hp

end Flag

namespace Attains

variable {levels : Nat} {rest : Program} {before : Values} {post : Values → Prop}
  {stack returnStack : List Int64} {held : Int64}

theorem nil (h : post before) : Attains levels .nil before post := by
  intro machine scratch hs hd
  exact ⟨before,h,Machine.evaluate_nil _⟩

/-- Where only one list of values is attained, the nodes behind the program go on from it. -/
theorem evaluate_append {program : Program} {after : Values}
    (h : Attains levels program before fun values => values = after) {machine : Machine}
    {scratch : Fin machine.memory.size} (hs : machine.Standard scratch)
    (hd : machine.depth + levels ≤ machine.maxDepth) (rest : Program) :
    (machine.holding scratch before).evaluate (program.append rest) =
      (machine.holding scratch after).evaluate rest := by
  obtain ⟨values,rfl,he⟩ := h machine scratch hs hd
  rw [Machine.evaluate_append,he]
  rfl

/-- What a word leaves is read off the rule for it. -/
theorem leaves {machine : Machine} {scratch : Fin machine.memory.size} {word : String}
    {start final : List Int64}
    (h : ∀ {post : Values → Prop},
      (∀ held, Attains levels .nil ⟨final,machine.returnStack,held⟩ post) →
        Attains levels (.call word .nil) ⟨start,machine.returnStack,machine.memory.load scratch⟩ post)
    (hs : machine.Standard scratch) (hd : machine.depth + levels ≤ machine.maxDepth) :
    machine.Leaves scratch word start final := by
  have hf : ∀ held, Attains levels .nil ⟨final,machine.returnStack,held⟩ fun after =>
      after.stack = final ∧ after.returnStack = machine.returnStack :=
    fun held => nil ⟨rfl,rfl⟩
  obtain ⟨⟨_,_,held⟩,⟨rfl,rfl⟩,he⟩ := h hf machine scratch hs hd
  rw [Machine.holding,Memory.store_load] at he
  exact ⟨held,he⟩

theorem push {value : Int64} (h : Attains levels rest ⟨value :: stack,returnStack,held⟩ post) :
    Attains levels (.push value rest) ⟨stack,returnStack,held⟩ post := by
  intro machine scratch hs hd
  rw [Machine.evaluate_push]
  exact h machine scratch hs hd

private theorem of_primitive (primitive : Primitive) {between : Values}
    (hp : ∀ (machine : Machine) (scratch : Fin machine.memory.size),
      primitive.run (machine.holding scratch before) = machine.holding scratch between)
    (h : Attains levels rest between post) :
    Attains levels (.call primitive.name rest) before post := by
  intro machine scratch hs hd
  rw [Machine.evaluate_primitive,hp]
  exact h machine scratch hs hd

theorem drop {value : Int64} (h : Attains levels rest ⟨stack,returnStack,held⟩ post) :
    Attains levels (.call "drop" rest) ⟨value :: stack,returnStack,held⟩ post :=
  of_primitive .drop (fun _ _ => rfl) h

theorem toReturn {value : Int64} (h : Attains levels rest ⟨stack,value :: returnStack,held⟩ post) :
    Attains levels (.call ">r" rest) ⟨value :: stack,returnStack,held⟩ post :=
  of_primitive .toReturn (fun _ _ => rfl) h

theorem fromReturn {value : Int64} (h : Attains levels rest ⟨value :: stack,returnStack,held⟩ post) :
    Attains levels (.call "r>" rest) ⟨stack,value :: returnStack,held⟩ post :=
  of_primitive .fromReturn (fun _ _ => rfl) h

theorem add {top second : Int64}
    (h : Attains levels rest ⟨(top + second) :: stack,returnStack,held⟩ post) :
    Attains levels (.call "+" rest) ⟨top :: second :: stack,returnStack,held⟩ post :=
  of_primitive .add (fun _ _ => rfl) h

theorem nand {top second : Int64}
    (h : Attains levels rest ⟨~~~(top &&& second) :: stack,returnStack,held⟩ post) :
    Attains levels (.call "nand" rest) ⟨top :: second :: stack,returnStack,held⟩ post :=
  of_primitive .nand (fun _ _ => rfl) h

theorem isNegative {value : Int64}
    (h : Attains levels rest ⟨flag (value < 0) :: stack,returnStack,held⟩ post) :
    Attains levels (.call "0<" rest) ⟨value :: stack,returnStack,held⟩ post :=
  of_primitive .isNegative (fun _ _ => rfl) h

/-- `temp !` moves the top into the scratch cell. -/
theorem stash {value : Int64} (h : Attains levels rest ⟨stack,returnStack,value⟩ post) :
    Attains levels (.call "temp" (.call "!" rest)) ⟨value :: stack,returnStack,held⟩ post := by
  intro machine scratch hs hd
  obtain ⟨after,hp,he⟩ := h machine scratch hs hd
  obtain ⟨address,hc,hm⟩ := hs.meaning_temp
  refine ⟨after,hp,?_⟩
  rw [Machine.evaluate_address (hm _)]
  calc
    _ = (Primitive.runStore (machine.holding scratch
          ⟨Int64.ofNat address :: value :: stack,returnStack,held⟩)).evaluate rest :=
      Machine.evaluate_primitive _ .store rest
    _ = _ := by rw [Machine.runStore_holding hc,he]

/-- `temp @` puts the content of the scratch cell on the stack. -/
theorem retrieve (h : Attains levels rest ⟨held :: stack,returnStack,held⟩ post) :
    Attains levels (.call "temp" (.call "@" rest)) ⟨stack,returnStack,held⟩ post := by
  intro machine scratch hs hd
  obtain ⟨after,hp,he⟩ := h machine scratch hs hd
  obtain ⟨address,hc,hm⟩ := hs.meaning_temp
  refine ⟨after,hp,?_⟩
  rw [Machine.evaluate_address (hm _)]
  calc
    _ = (Primitive.runFetch (machine.holding scratch
          ⟨Int64.ofNat address :: stack,returnStack,held⟩)).evaluate rest :=
      Machine.evaluate_primitive _ .fetch rest
    _ = _ := by rw [Machine.runFetch_holding hc,he]

/-- A word is its body with one level less, and the nodes behind the word take over from there. -/
theorem word {name : String} {body : Program} (hb : bodies.find? name = some body)
    (h : Attains levels body before fun between => Attains (levels + 1) rest between post) :
    Attains (levels + 1) (.call name rest) before post := by
  intro machine scratch hs hd
  let deeper : Machine := { machine with depth := machine.depth + 1 }
  have hl : deeper.depth + levels ≤ deeper.maxDepth := by
    show machine.depth + 1 + levels ≤ machine.maxDepth
    omega
  obtain ⟨between,hr,he⟩ := h deeper scratch (hs.deeper _) hl
  obtain ⟨after,ha,hf⟩ := hr machine scratch hs hd
  refine ⟨after,ha,?_⟩
  rw [hs.evaluate_word before hb (by omega),he]
  exact hf

/-- Each branch is derived together with the nodes behind the branches. -/
theorem ifElse {value : Int64} {consequence alternative : Program}
    (hc : value ≠ 0 → Attains levels (consequence.append rest) ⟨stack,returnStack,held⟩ post)
    (ha : value = 0 → Attains levels (alternative.append rest) ⟨stack,returnStack,held⟩ post) :
    Attains levels (.ifElse consequence alternative rest) ⟨value :: stack,returnStack,held⟩ post := by
  intro machine scratch hs hd
  rw [Machine.evaluate_ifElse,Machine.branch_holding]
  by_cases hv : value = 0
  · rw [if_pos hv,← Machine.evaluate_append]
    exact ha hv machine scratch hs hd
  · rw [if_neg hv,← Machine.evaluate_append]
    exact hc hv machine scratch hs hd

theorem ifThen {value : Int64} {consequence : Program}
    (hc : value ≠ 0 → Attains levels (consequence.append rest) ⟨stack,returnStack,held⟩ post)
    (ha : value = 0 → Attains levels rest ⟨stack,returnStack,held⟩ post) :
    Attains levels (.ifThen consequence rest) ⟨value :: stack,returnStack,held⟩ post := by
  have he : Attains levels (.ifElse consequence .nil rest) ⟨value :: stack,returnStack,held⟩ post :=
    ifElse hc ha
  intro machine scratch hs hd
  rw [Machine.evaluate_ifThen]
  exact he machine scratch hs hd

end Attains

end Vocabulary

end NandStack

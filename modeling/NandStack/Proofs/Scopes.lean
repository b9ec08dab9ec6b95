import NandStack.Scopes

/-!
Scopes and names: while every frame binds the same name, no other name is found in any of them.
Setting a name renames no frame and reaches no further out than to a frame of that name.
-/

namespace NandStack.Scopes

def Only (name : String) (scopes : Scopes) : Prop :=
  ∀ frame ∈ scopes.frames, frame.1 = name

theorem Only.get?_eq_none {name other : String} {scopes : Scopes} (h : scopes.Only name)
    (hn : other ≠ name) : scopes.get? other = none := by
  apply List.lookup_eq_none_iff.mpr
  intro frame hm
  simpa [h frame hm] using hn

theorem Only.enclose {name : String} {scopes : Scopes} (h : scopes.Only name) (value : Int64) :
    (scopes.enclose name value).Only name :=
  List.forall_mem_cons.mpr ⟨rfl,h⟩

theorem Only.unenclose {name : String} {scopes : Scopes} (h : scopes.Only name) :
    scopes.unenclose.Only name :=
  fun frame hm => h frame (List.mem_of_mem_tail hm)

theorem map_fst_setFrame (name : String) (value : Int64) (frames : List (String × Int64)) :
    (setFrame name value frames).map Prod.fst = frames.map Prod.fst := by
  induction frames with
  | nil => rfl
  | cons frame rest ih =>
    obtain ⟨bound,held⟩ := frame
    rw [setFrame]
    split
    · rfl
    · rw [List.map_cons,List.map_cons,ih]

/-- A frame of the name keeps what is further out from being set. -/
theorem setFrame_append {name : String} {front : List (String × Int64)}
    (h : name ∈ front.map Prod.fst) (value : Int64) (back : List (String × Int64)) :
    setFrame name value (front ++ back) = setFrame name value front ++ back := by
  induction front with
  | nil => cases h
  | cons frame rest ih =>
    obtain ⟨bound,held⟩ := frame
    rw [List.cons_append,setFrame,setFrame]
    split
    · rfl
    · rename_i hn
      rcases List.mem_cons.mp h with rfl | hm
      · exact absurd (beq_self_eq_true _) hn
      · rw [ih hm]
        rfl

theorem Only.set {name : String} {scopes : Scopes} (h : scopes.Only name) (other : String)
    (value : Int64) : (scopes.set other value).Only name := by
  intro frame hm
  have hf : frame.1 ∈ scopes.frames.map Prod.fst := by
    rw [← map_fst_setFrame other value]
    exact List.mem_map_of_mem hm
  obtain ⟨old,ho,he⟩ := List.mem_map.mp hf
  exact he ▸ h old ho

end NandStack.Scopes

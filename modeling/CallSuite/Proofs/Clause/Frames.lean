import CallSuite.Proofs.Clause.Reached

namespace CallSuite

namespace Tree

-- The tree with another node at the end of the path, which has to lead to one.
def setAt : List Turn → TypeTree → TypeTree → TypeTree
  | [], _, node => node
  | .item :: path, .collection c s item, node => .collection c s (item.setAt path node)
  | .key :: path, .dict s key value, node => .dict s (key.setAt path node) value
  | .value :: path, .dict s key value, node => .dict s key (value.setAt path node)
  | _, tree, _ => tree

variable {path : List Turn} {tree old node : TypeTree}

@[simp] theorem at?_nil (tree : TypeTree) : tree.at? [] = some tree := by
  cases tree <;> rfl

@[simp] theorem setAt_nil (tree node : TypeTree) : tree.setAt [] node = node := by
  cases tree <;> rfl

theorem at?_setAt (h : tree.at? path = some old) : (tree.setAt path node).at? path = some node := by
  fun_induction at? path tree with
  | case1 => simp
  | case2 _ _ _ _ ih | case3 _ _ _ _ ih | case4 _ _ _ _ ih => exact ih h
  | case5 => cases h

theorem at?_append (h : tree.at? path = some old) (below : List Turn) :
    tree.at? (path ++ below) = old.at? below := by
  fun_induction at? path tree with
  | case1 =>
      cases h
      rfl
  | case2 _ _ _ _ ih | case3 _ _ _ _ ih | case4 _ _ _ _ ih => exact ih h
  | case5 => cases h

theorem setAt_append (h : tree.at? path = some old) (below : List Turn) :
    tree.setAt (path ++ below) node = tree.setAt path (old.setAt below node) := by
  fun_induction at? path tree with
  | case1 =>
      cases h
      simp
  | case2 _ _ _ _ ih | case3 _ _ _ _ ih | case4 _ _ _ _ ih =>
      simp only [List.cons_append, setAt, ih h]
  | case5 => cases h

theorem setAt_setAt (h : tree.at? path = some old) (node node' : TypeTree) :
    (tree.setAt path node).setAt path node' = tree.setAt path node' := by
  fun_induction at? path tree with
  | case1 => simp
  | case2 _ _ _ _ ih | case3 _ _ _ _ ih | case4 _ _ _ _ ih => simp only [setAt, ih h]
  | case5 => cases h

-- A node is seen below the one that it was put under, and is changed there.
theorem at?_child (h : tree.at? path = some old) (turn : Turn) :
    (tree.setAt path node).at? (path ++ [turn]) = node.at? [turn] :=
  at?_append (at?_setAt h) [turn]

theorem setAt_child (h : tree.at? path = some old) (turn : Turn) (child : TypeTree) :
    (tree.setAt path node).setAt (path ++ [turn]) child =
      tree.setAt path (node.setAt [turn] child) := by
  rw [setAt_append (at?_setAt h), setAt_setAt h]

end Tree

namespace Clause

-- What is still to be done: a node gets its domain, or first the colon is taken that stands
-- between a key and its value.
inductive Frame where
  | visit (path : List Turn)
  | dictValue (path : List Turn)

-- The node that the path leads to gets its own domain. The frames of what is below it are put on
-- top, the key of a dict above its value.
def visit (role : Role) (path : List Turn) (frames : List Frame) :
    TypeTree → List Item → TypeTree × Read (List Frame × List Item)
  | .int s, items => match fillDistinct role .int intEntry s items with
    | .ok (s, rest) => (.int s, .ok (frames, rest))
    | .error e => (.int s, .error e)
  | .bool s, items => match fillDistinct role .bool boolEntry s items with
    | .ok (s, rest) => (.bool s, .ok (frames, rest))
    | .error e => (.bool s, .error e)
  | .float s, items => match fill role .float .ok s items with
    | .ok (s, rest) => (.float s, .ok (frames, rest))
    | .error e => (.float s, .error e)
  | .str alphabet s, items => match fillSizes role .str s items with
    | .ok (s, rest) => (.str alphabet s, .ok (frames, rest))
    | .error e => (.str alphabet s, .error e)
  | .collection c s item, items => match fillSizes role (.collection c) s items with
    | .error e => (.collection c s item, .error e)
    | .ok (s, rest) => match takeDelim '(' rest with
      | .error e => (.collection c s item, .error e)
      | .ok rest => (.collection c s item, .ok (.visit (path ++ [.item]) :: frames, rest))
  | .dict s key value, items => match fillSizes role .dict s items with
    | .error e => (.dict s key value, .error e)
    | .ok (s, rest) => match takeDelim '(' rest with
      | .error e => (.dict s key value, .error e)
      | .ok rest =>
        (.dict s key value,
          .ok (.visit (path ++ [.key]) :: .dictValue (path ++ [.value]) :: frames, rest))

-- The loop between two frames: the tree as it is so far, the items that are left, and the frames
-- from the top on.
structure Loop where
  tree : TypeTree
  items : List Item
  frames : List Frame

-- What becomes of a loop with its next frame: it goes on, or it has an outcome.
inductive Step where
  | next (loop : Loop)
  | done (outcome : TypeTree × Read (List Item))

namespace Loop

-- Takes the frame on top. The node that it is for has to be there.
def step (role : Role) : Loop → Option Step
  | ⟨tree, items, []⟩ => some (.done (tree, .ok items))
  | ⟨tree, items, .dictValue path :: frames⟩ => match takeDelim ':' items with
    | .error e => some (.done (tree, .error e))
    | .ok rest => some (.next ⟨tree, rest, .visit path :: frames⟩)
  | ⟨tree, items, .visit path :: frames⟩ => match tree.at? path with
    | none => none
    | some node => match visit role path frames node items with
      | (node, .error e) => some (.done (tree.setAt path node, .error e))
      | (node, .ok (frames, rest)) => some (.next ⟨tree.setAt path node, rest, frames⟩)

-- A loop that asks for a node that is not there, or that goes on for ever, has no outcome.
inductive Ends (role : Role) : Loop → TypeTree × Read (List Item) → Prop where
  | done (hstep : loop.step role = some (.done outcome)) : Ends role loop outcome
  | next (hstep : loop.step role = some (.next loop')) (h : Ends role loop' outcome) :
      Ends role loop outcome

variable {role : Role} {loop loop' : Loop} {tree old node : TypeTree} {items : List Item}
  {path : List Turn} {frames : List Frame} {outcome outcome' : TypeTree × Read (List Item)}

theorem ends_of_done (hstep : loop.step role = some (.done outcome')) :
    loop.Ends role outcome ↔ outcome = outcome' := by
  constructor
  · rintro (h | ⟨h, _⟩)
    · rw [hstep] at h
      cases h
      rfl
    · rw [hstep] at h
      cases h
  · rintro rfl
    exact .done hstep

theorem ends_of_next (hstep : loop.step role = some (.next loop')) :
    loop.Ends role outcome ↔ loop'.Ends role outcome := by
  constructor
  · rintro (h | ⟨h, hends⟩)
    · rw [hstep] at h
      cases h
    · rw [hstep] at h
      cases h
      exact hends
  · exact .next hstep

theorem ends_nil : Ends role ⟨tree, items, []⟩ outcome ↔ outcome = (tree, .ok items) :=
  ends_of_done rfl

theorem ends_dictValue :
    Ends role ⟨tree, items, .dictValue path :: frames⟩ outcome ↔ match takeDelim ':' items with
      | .error e => outcome = (tree, .error e)
      | .ok rest => Ends role ⟨tree, rest, .visit path :: frames⟩ outcome := by
  rcases h : takeDelim ':' items with e | rest
  · exact ends_of_done (by rw [step, h])
  · exact ends_of_next (by rw [step, h])

theorem ends_visit (hat : tree.at? path = some node) :
    Ends role ⟨tree, items, .visit path :: frames⟩ outcome ↔
      match visit role path frames node items with
      | (node, .error e) => outcome = (tree.setAt path node, .error e)
      | (node, .ok (frames, rest)) => Ends role ⟨tree.setAt path node, rest, frames⟩ outcome := by
  rcases h : visit role path frames node items with ⟨node', e | ⟨frames', rest⟩⟩
  · exact ends_of_done (by simp only [step, hat, h])
  · exact ends_of_next (by simp only [step, hat, h])

-- The outcome where the recursion is done with the node at the end of the path and the rest of
-- the frames is left.
def Resumes (role : Role) (tree : TypeTree) (path : List Turn) (frames : List Frame)
    (outcome : TypeTree × Read (List Item)) : TypeTree × Read (List Item) → Prop
  | (node, .error e) => outcome = (tree.setAt path node, .error e)
  | (node, .ok rest) => Ends role ⟨tree.setAt path node, rest, frames⟩ outcome

-- What is done with a child is done with the node that has the child.
theorem resumes_child (hat : tree.at? path = some old) (turn : Turn)
    (below : TypeTree × Read (List Item)) :
    Resumes role (tree.setAt path node) (path ++ [turn]) frames outcome below ↔
      Resumes role tree path frames outcome (node.setAt [turn] below.1, below.2) := by
  rcases below with ⟨child, e | rest⟩ <;> simp only [Resumes, Tree.setAt_child hat]

-- By induction on the node: the frames that it puts on top are worked off one after the other,
-- as the recursion goes through what is below it.
theorem ends_visit_iff_resumes (hat : tree.at? path = some node) :
    Ends role ⟨tree, items, .visit path :: frames⟩ outcome ↔
      Resumes role tree path frames outcome (align role node items) := by
  induction node generalizing tree path items frames with
  | int s =>
      rw [ends_visit hat, visit, align]
      rcases fillDistinct role .int intEntry s items <;> rfl
  | bool s =>
      rw [ends_visit hat, visit, align]
      rcases fillDistinct role .bool boolEntry s items <;> rfl
  | float s =>
      rw [ends_visit hat, visit, align]
      rcases fill role .float .ok s items <;> rfl
  | str alphabet s =>
      rw [ends_visit hat, visit, align]
      rcases fillSizes role .str s items <;> rfl
  | collection c s item ih =>
      rw [ends_visit hat, visit, align]
      rcases fillSizes role (.collection c) s items with e | ⟨s, rest⟩
      · rfl
      · dsimp only
        rcases takeDelim '(' rest with e | rest
        · rfl
        · dsimp only
          rw [ih ((Tree.at?_child hat .item).trans (by simp [Tree.at?])), resumes_child hat]
          simp only [Tree.setAt]
  | dict s key value ihkey ihvalue =>
      rw [ends_visit hat, visit, align]
      rcases fillSizes role .dict s items with e | ⟨s, rest⟩
      · rfl
      · dsimp only
        rcases takeDelim '(' rest with e | rest
        · rfl
        · dsimp only
          rw [ihkey ((Tree.at?_child hat .key).trans (by simp [Tree.at?])), resumes_child hat]
          rcases align role key rest with ⟨key, e | rest⟩
          · simp only [Resumes, Tree.setAt]
          · -- the frame of the value comes up again, in a tree whose key is done
            simp only [Tree.setAt]
            rw [Resumes, ends_dictValue]
            rcases takeDelim ':' rest with e | rest
            · rfl
            · dsimp only
              rw [ihvalue ((Tree.at?_child hat .value).trans (by simp [Tree.at?])),
                resumes_child hat]
              simp only [Tree.setAt]

-- The loop ends, and in nothing but what the recursion comes to, also where that is an error.
theorem ends_iff_eq_align :
    Ends role ⟨tree, items, [.visit []]⟩ outcome ↔ outcome = align role tree items := by
  rw [ends_visit_iff_resumes (Tree.at?_nil tree)]
  rcases align role tree items with ⟨tree', e | rest⟩
  · simp only [Resumes, Tree.setAt_nil]
  · simp only [Resumes, Tree.setAt_nil, ends_nil]

end Loop

end Clause

end CallSuite
